import Incudine.OscEncoding

/-!
# The octets of messages and bundles

The writers of a stream leave the encoding of their messages in the buffer, with the recorded
length. Each message appended to a bundle finds zeros after the last one.
-/

namespace Incudine.Osc.Stream

open Octets

structure Written (s : Stream) (messages : List Message) : Prop extends s.Represents messages where
  length : (s.messageLength : ℤ) = stop messages

structure Frame (s s' : Stream) : Prop where
  same : s' = { s with
    buffer := s'.buffer
    index := s'.index
    messageLength := s'.messageLength
    bundleLength := s'.bundleLength
    singleMessage := s'.singleMessage }
  header : ∀ x, -20 ≤ x → x < -4 → s'.buffer x = s.buffer x

section Frame

variable {s s' s'' : Stream}

theorem Frame.trans (h : Frame s s') (h' : Frame s' s'') : Frame s s'' := by
  constructor
  · have hsame := h'.same
    rw [h.same] at hsame
    exact hsame
  · exact fun x hx hx' => (h'.header x hx hx').trans (h.header x hx hx')

theorem Frame.bufferSize (h : Frame s s') : s'.bufferSize = s.bufferSize := by rw [h.same]

theorem Frame.maxValues (h : Frame s s') : s'.maxValues = s.maxValues := by rw [h.same]

section

variable {messages messages' : List Message} {last : Bool}
  (h : Progress s s' messages messages' last)
include h

theorem Progress.frame : Frame s s' := by
  refine ⟨?_, h.header⟩
  have hindex : s'.index = { s.index with slots := s'.index.slots } := by rw [h.same]
  have hsingle : s'.singleMessage = s.singleMessage := by rw [h.same]
  rw [hindex, hsingle]
  exact h.same

theorem Progress.fresh (hfresh : s.Fresh messages) (hrep : s'.Represents messages')
    (hcount : (messages'.flatMap Message.values).length = (messages.flatMap Message.values).length) :
    s'.Fresh messages' := by
  have hsize : s'.bufferSize = s.bufferSize := h.frame.bufferSize
  have htbuf : s'.index.tbuf = s.index.tbuf := by rw [h.same]
  refine ⟨hrep, ?_, ?_⟩
  · intro x hx hx'
    rw [hsize] at hx'
    rw [h.after x hx]
    exact hfresh.zero x (h.stop_le.trans hx) hx'
  · rw [htbuf, hcount]
    exact hfresh.count

theorem Progress.length_eq (hlength : (s.messageLength : ℤ) = stop messages) :
    (s'.messageLength : ℤ) = stop messages' := by
  rcases h.length with hnew | ⟨hsame, hstop⟩
  · exact hnew
  · rw [hsame, hstop]
    exact hlength

end

end Frame

section Writers

variable {s : Stream} {m : Message}

theorem length_values_initial (m : Message) : m.initial.values.length = m.values.length := by
  rw [m.values_initial, List.length_map]

theorem startMessage_eq (hbound : s.bufferSize + 4 < 0x80000000)
    (htypes : m.types.length ≤ s.maxValues) (hfits : m.encode.length ≤ s.bufferSize) :
    ∃ s', s.startMessage m.address m.types = some s' ∧ s'.Fresh [m.initial] ∧
      s'.buffer.Holds (-4) (elements [m.initial]) ∧
      (s'.messageLength : ℤ) = stop [m.initial] ∧ s'.singleMessage = true ∧ Frame s s' := by
  obtain ⟨mem, x, hstart, hlayout, hsizes, hbelow, hzero, hcount⟩ :=
    oscStartMessage_eq s.buffer s.index hfits
  have hle := m.length_encode_initial_le
  have hvalues : ([m.initial].flatMap Message.values).length = m.values.length := by
    rw [List.flatMap_singleton, length_values_initial]
  have hlength : (elements [m.initial]).length = 4 + m.initial.encode.length := by
    rw [elements_cons, elements_nil, List.append_nil, length_element]
  refine ⟨{ s with
    singleMessage := true
    buffer := mem
    index := x
    messageLength := m.initial.encode.length }, ?_,
    ⟨⟨hlayout, fun _ => hsizes, fun _ => rfl, ?_, ?_, hbound⟩, ?_, ?_⟩, hsizes,
    (stop_singleton _).symm, rfl, ⟨rfl, fun a _ ha => hbelow a ha⟩⟩
  · rw [startMessage, if_neg (by omega), hstart]
  · rw [hvalues]
    exact m.length_values_le.trans htypes
  · rw [hlength]
    show 4 + m.initial.encode.length ≤ s.bufferSize + 4
    omega
  · rw [stop_singleton]
    exact hzero
  · rw [hvalues]
    exact hcount

theorem Represents.complete (before : List Message) (last : Bool)
    (h : s.Represents (before ++ [m.initial]))
    (hfits : (elements (before ++ [m])).length ≤ s.bufferSize + 4) :
    ∃ s', Stream.setValues last m.values (before.flatMap Message.values).length s = some s' ∧
      s'.Represents (before ++ [m]) ∧
      Progress s s' (before ++ [m.initial]) (before ++ [m]) last :=
  @Represents.setValues s last before m.address m.args [] _ h (Nat.add_zero _).symm hfits

theorem length_elements_singleton (m : Message) :
    (elements [m]).length = m.encode.length + 4 := by
  rw [elements_cons, elements_nil, List.append_nil, length_element, Nat.add_comm]

theorem writeMessage_eq (hbound : s.bufferSize + 4 < 0x80000000)
    (htypes : m.types.length ≤ s.maxValues) (hfits : m.encode.length ≤ s.bufferSize) :
    ∃ s', s.writeMessage m = some s' ∧ s'.Written [m] ∧ s'.singleMessage = true ∧
      Frame s s' := by
  obtain ⟨s₁, hstart, hfresh, hsizes, hlength, hsingle, hframe⟩ :=
    startMessage_eq hbound htypes hfits
  have hsize : (elements ([] ++ [m])).length ≤ s₁.bufferSize + 4 := by
    rw [List.nil_append, length_elements_singleton, hframe.bufferSize]
    omega
  obtain ⟨s', hset, hrep, hprogress⟩ :=
    Represents.complete [] false hfresh.toRepresents hsize
  have hsingle' : s'.singleMessage = s₁.singleMessage := by rw [hprogress.same]
  refine ⟨s', ?_, ⟨hrep, hprogress.length_eq hlength⟩, hsingle'.trans hsingle,
    hframe.trans hprogress.frame⟩
  rw [writeMessage, hstart]
  exact hset

theorem length_values_append (messages : List Message) (m : Message) :
    ((messages ++ [m]).flatMap Message.values).length =
      (messages.flatMap Message.values).length + m.values.length := by
  rw [List.flatMap_append, List.flatMap_singleton, List.length_append]

section

variable {messages : List Message} (h : s.Fresh messages)
  (hlength : (s.messageLength : ℤ) = stop messages) (hsingle : s.singleMessage = false)
  (hcount : (messages.flatMap Message.values).length < 0x80)
  (htypes : m.types.length + (messages.flatMap Message.values).length ≤ s.maxValues)
  (hfits : stop (messages ++ [m]) ≤ s.bufferSize)
include h hlength hsingle hcount htypes hfits

theorem Fresh.append :
    ∃ mem x, oscBundleAppendMessage s.buffer s.bufferSize s.index m.address m.types
        s.messageLength = (mem, x, m.initial.encode.length + 4) ∧
      ({ s with buffer := mem, index := x } : Stream).Fresh (messages ++ [m.initial]) ∧
      ∀ a : ℤ, a < s.messageLength → mem a = s.buffer a := by
  have hle := m.length_encode_initial_le
  have hmax := m.length_values_le
  obtain ⟨mem, x, happend, hlayout, hsizes, hbelow, hzero, htbuf⟩ :=
    oscBundleAppendMessage_eq h.layout (h.sizes hsingle) h.zero h.count hcount hlength hfits
  have hlast : stop (messages ++ [m.initial]) ≤ s.bufferSize := by
    rw [stop_append] at hfits ⊢
    omega
  refine ⟨mem, x, happend, ⟨⟨hlayout, fun _ => hsizes, ?_, ?_, ?_, h.bound⟩, hzero, ?_⟩, hbelow⟩
  · intro htrue
    exact absurd (hsingle.symm.trans htrue) (by decide)
  · rw [length_values_append, length_values_initial]
    show _ ≤ s.maxValues
    omega
  · rw [stop] at hlast
    show _ ≤ s.bufferSize + 4
    omega
  · rw [length_values_append, length_values_initial]
    exact htbuf

theorem appendMessage_eq :
    ∃ s', s.appendMessage m s.requiredValues = some s' ∧ s'.Fresh (messages ++ [m]) ∧
      (s'.messageLength : ℤ) = stop (messages ++ [m]) ∧ s'.singleMessage = false ∧
      Frame s s' := by
  have hrequired : s.requiredValues = (messages.flatMap Message.values).length := by
    rw [requiredValues, h.count, UInt8.toNat_ofNat']
    omega
  have hstop : stop (messages ++ [m]) = s.messageLength + 4 + m.encode.length := by
    rw [stop_append, hlength]
  have hstop' : stop (messages ++ [m.initial]) = s.messageLength + 4 + m.initial.encode.length := by
    rw [stop_append, hlength]
  obtain ⟨mem, x, happend, hfresh, hbelow⟩ := h.append hlength hsingle hcount htypes hfits
  have hsize : (elements (messages ++ [m])).length ≤ s.bufferSize + 4 := by
    rw [stop] at hfits
    omega
  obtain ⟨s', hset, hrep, hprogress⟩ := Represents.complete messages true hfresh.toRepresents hsize
  have hsingle' : s'.singleMessage = false := by
    rw [hprogress.same]
    exact hsingle
  have hframe : Frame s s' := by
    have hheader : ∀ a, -20 ≤ a → a < -4 → mem a = s.buffer a :=
      fun a _ ha => hbelow a (by omega)
    exact Frame.trans ⟨rfl, hheader⟩ hprogress.frame
  have hfresh' := hprogress.fresh hfresh hrep (by simp only [length_values_append,
    length_values_initial])
  have hequal : s.appendMessage m s.requiredValues = some (if s'.messageLength = s.messageLength
      then { s' with messageLength := s.messageLength + (m.initial.encode.length + 4) }
      else { s' with buffer := (s'.buffer.store s.messageLength
        (bigEndian 4 (s'.messageLength - s.messageLength - 4))) }) := by
    rw [appendMessage, hrequired, if_neg (by omega)]
    simp only [happend, hset, Option.map_some]
  rw [hequal]
  rcases hprogress.length with hnew | ⟨hsame, hstops⟩
  · have hother : s'.messageLength ≠ s.messageLength := by omega
    have hbytes : s'.messageLength - s.messageLength - 4 = m.encode.length := by omega
    have hword : s'.buffer.store s.messageLength (bigEndian 4 m.encode.length) = s'.buffer := by
      have helements := hrep.sizes hsingle'
      rw [elements_append, elements_cons, elements_nil, List.append_nil, element,
        Cells.holds_append, Cells.holds_append] at helements
      have hstart : (-4 : ℤ) + (elements messages).length = s.messageLength := by
        rw [hlength, stop]
        ring
      rw [hstart] at helements
      exact helements.2.1.store_eq
    rw [if_neg hother, hbytes, hword]
    exact ⟨s', rfl, hfresh', hnew, hsingle', hframe⟩
  · rw [if_pos hsame]
    refine ⟨_, rfl, ⟨⟨hrep.layout, hrep.sizes, hrep.single, hrep.values, hrep.fits, hrep.bound⟩,
      hfresh'.zero, hfresh'.count⟩, ?_, hsingle', ⟨?_, hframe.header⟩⟩
    · show ((s.messageLength + (m.initial.encode.length + 4) : ℕ) : ℤ) = _
      push_cast
      omega
    · rw [hframe.same]

end

/-- The messages of a bundle have less than 128 values before the last one. -/
def Appendable (maxValues : ℕ) : List Message → List Message → Prop
  | _, [] => True
  | before, m :: more => (before.flatMap Message.values).length < 0x80 ∧
      m.types.length + (before.flatMap Message.values).length ≤ maxValues ∧
      Appendable maxValues (before ++ [m]) more

theorem appendMessages_eq {messages : List Message} (more : List Message) (h : s.Fresh messages)
    (hlength : (s.messageLength : ℤ) = stop messages) (hsingle : s.singleMessage = false)
    (happendable : Appendable s.maxValues messages more)
    (hfits : stop (messages ++ more) ≤ s.bufferSize) :
    ∃ s', s.appendMessages more = some s' ∧ s'.Written (messages ++ more) ∧
      s'.singleMessage = false ∧ Frame s s' := by
  induction more generalizing s messages with
  | nil =>
    rw [List.append_nil]
    exact ⟨s, rfl, ⟨h.toRepresents, hlength⟩, hsingle, rfl, fun _ _ _ => rfl⟩
  | cons m more ih =>
    obtain ⟨hcount, htypes, hrest⟩ := happendable
    have hassoc : messages ++ m :: more = (messages ++ [m]) ++ more := by
      rw [List.append_assoc, List.singleton_append]
    rw [hassoc] at hfits ⊢
    have hfirst : stop (messages ++ [m]) ≤ s.bufferSize := by
      rw [stop, elements_append, List.length_append] at hfits
      rw [stop]
      omega
    obtain ⟨s₁, happend, hfresh, hlength', hsingle', hframe⟩ :=
      appendMessage_eq h hlength hsingle hcount htypes hfirst
    rw [← hframe.maxValues] at hrest
    rw [← hframe.bufferSize] at hfits
    obtain ⟨s', happends, hwritten, hsingle'', hframe'⟩ := ih hfresh hlength' hsingle' hrest hfits
    refine ⟨s', ?_, hwritten, hsingle'', hframe.trans hframe'⟩
    rw [appendMessages, happend]
    exact happends

end Writers

/-- The buffer holds the messages of a bundle with their sizes. -/
structure Bundled (s : Stream) (messages : List Message) : Prop extends s.Written messages where
  elements : s.buffer.Holds (-4) (elements messages)
  bundled : s.bundleLength = s.messageLength + 20

section Bundle

variable {s : Stream} {m : Message} {messages more : List Message}

theorem Written.update (h : s.Written messages) {s' : Stream} (hsame : s' = { s with
      buffer := s'.buffer
      bundleLength := s'.bundleLength })
    (hbuffer : ∀ x, 0 ≤ x → s'.buffer x = s.buffer x)
    (hsizes : s.singleMessage = false → ∀ x, -4 ≤ x → s'.buffer x = s.buffer x) :
    s'.Written messages := by
  have hindex : s'.index = s.index := by rw [hsame]
  have hsingle : s'.singleMessage = s.singleMessage := by rw [hsame]
  have hmax : s'.maxValues = s.maxValues := by rw [hsame]
  have hsize : s'.bufferSize = s.bufferSize := by rw [hsame]
  have hlength : s'.messageLength = s.messageLength := by rw [hsame]
  refine ⟨⟨⟨?_, ?_, ?_, ?_⟩, ?_, ?_, ?_, ?_, ?_⟩, ?_⟩
  · exact h.layout.body.congr fun x hx _ => hbuffer x hx
  · rw [hindex]
    exact h.layout.pointers
  · rw [hindex]
    exact h.layout.free
  · rw [hindex]
    exact h.layout.types
  · intro hfalse
    rw [hsingle] at hfalse
    exact (h.sizes hfalse).congr fun x hx _ => hsizes hfalse x hx
  · rw [hsingle]
    exact h.single
  · rw [hmax]
    exact h.values
  · rw [hsize]
    exact h.fits
  · rw [hsize]
    exact h.bound
  · rw [hlength]
    exact h.length

theorem setBundleLength_buffer (s : Stream) {x : ℤ} (hx : -20 ≤ x) :
    s.setBundleLength.buffer x = s.buffer x := by
  obtain ⟨buffer, hequal, hbuffer⟩ := s.setBundleLength_eq
  rw [hequal]
  exact hbuffer x hx

theorem setBundleLength_same (s : Stream) : s.setBundleLength =
    { s with buffer := s.setBundleLength.buffer, bundleLength := s.messageLength + 20 } := by
  obtain ⟨buffer, hequal, -⟩ := s.setBundleLength_eq
  rw [hequal]

theorem setBundleLength_bundleLength (s : Stream) :
    s.setBundleLength.bundleLength = s.setBundleLength.messageLength + 20 := by
  rw [setBundleLength_same]

theorem setBundleLength_frame (s : Stream) : Frame s s.setBundleLength := by
  refine ⟨?_, fun x hx _ => s.setBundleLength_buffer hx⟩
  rw [setBundleLength_same]

theorem Written.setBundleLength (h : s.Written messages) : s.setBundleLength.Written messages := by
  apply h.update
  · rw [setBundleLength_same]
  · intro x hx
    exact s.setBundleLength_buffer (by omega)
  · intro _ x hx
    exact s.setBundleLength_buffer (by omega)

section

variable (hbound : s.bufferSize + 4 < 0x80000000) (htypes : m.types.length ≤ s.maxValues)
  (hfits : m.encode.length ≤ s.bufferSize)
include hbound htypes hfits

theorem simpleBundle_eq : ∃ s', s.simpleBundle m = some s' ∧ s'.Bundled [m] ∧ Frame s s' := by
  obtain ⟨s₁, hwrite, hwritten, hsingle, hframe⟩ := writeMessage_eq hbound htypes hfits
  obtain ⟨s₂, hs₂⟩ : ∃ s₂, s₂ = s₁.setBundleLength := ⟨_, rfl⟩
  have hwritten₂ : s₂.Written [m] := by
    rw [hs₂]
    exact hwritten.setBundleLength
  have hsingle₂ : s₂.singleMessage = true := by
    rw [hs₂, setBundleLength_same]
    exact hsingle
  have hlength : s₂.messageLength = m.encode.length := by
    have hstop := hwritten₂.length
    rw [stop_singleton] at hstop
    exact_mod_cast hstop
  have habove : ∀ x, 0 ≤ x → s₂.setBundleFirstElementLength.buffer x = s₂.buffer x :=
    fun x hx => Cells.store_of_le _ _ _ (by rw [length_bigEndian]; omega)
  refine ⟨s₂.setBundleFirstElementLength, ?_, ⟨?_, ?_, ?_⟩, ?_⟩
  · rw [simpleBundle, hwrite, hs₂]
    rfl
  · apply hwritten₂.update rfl habove
    intro hfalse
    exact absurd (hsingle₂.symm.trans hfalse) (by decide)
  · have hbody := hwritten₂.layout.body
    rw [elements_cons, elements_nil, List.append_nil, element,
      List.drop_left' (length_bigEndian 4 _)] at hbody
    rw [elements_cons, elements_nil, List.append_nil, element, Cells.holds_append,
      length_bigEndian]
    refine ⟨?_, hbody.congr fun x hx _ => habove x hx⟩
    rw [← hlength]
    exact Cells.holds_store _ _ _
  · show s₂.bundleLength = s₂.messageLength + 20
    rw [hs₂]
    exact s₁.setBundleLength_bundleLength
  · have hheader : ∀ x, -20 ≤ x → x < -4 → s₂.setBundleFirstElementLength.buffer x = s₂.buffer x :=
      fun x _ hx => Cells.store_of_lt _ _ _ hx
    rw [hs₂] at hheader ⊢
    exact (hframe.trans s₁.setBundleLength_frame).trans ⟨rfl, hheader⟩

theorem bundle_single_eq :
    ∃ s', s.bundle m [] = some s' ∧ s'.Written [m] ∧
      s'.bundleLength = s'.messageLength + 20 ∧
      s'.buffer.Holds (-4) (bigEndian 4 m.initial.encode.length) ∧ Frame s s' := by
  obtain ⟨s₁, hstart, hfresh, hsizes, hlength, hsingle, hframe⟩ :=
    startMessage_eq hbound htypes hfits
  have hsize : (Osc.elements ([] ++ [m])).length ≤ s₁.bufferSize + 4 := by
    rw [List.nil_append, length_elements_singleton, hframe.bufferSize]
    omega
  obtain ⟨s₂, hset, hrep, hprogress⟩ :=
    Represents.complete [] true hfresh.toRepresents hsize
  have hwritten : s₂.Written [m] := ⟨hrep, hprogress.length_eq hlength⟩
  have hone : ({ s₁ with singleMessage := true } : Stream) = s₁ := by rw [← hsingle]
  refine ⟨s₂.setBundleLength, ?_, hwritten.setBundleLength, s₂.setBundleLength_bundleLength, ?_,
    (hframe.trans hprogress.frame).trans s₂.setBundleLength_frame⟩
  · rw [bundle, hstart]
    simp only [Option.bind_some, List.isEmpty_nil, hone]
    rw [show setValues true m.values 0 s₁ = some s₂ from hset]
    rfl
  · rw [elements_cons, element, List.append_assoc, Cells.holds_append] at hsizes
    apply hsizes.1.congr
    intro x hx hx'
    rw [length_bigEndian] at hx'
    rw [s₂.setBundleLength_buffer (by omega)]
    exact hprogress.below hsingle rfl x (by omega)

end

theorem bundle_eq (hbound : s.bufferSize + 4 < 0x80000000) (hmore : more ≠ [])
    (htypes : m.types.length ≤ s.maxValues) (happendable : Appendable s.maxValues [m] more)
    (hfits : stop (m :: more) ≤ s.bufferSize) :
    ∃ s', s.bundle m more = some s' ∧ s'.Bundled (m :: more) ∧ Frame s s' := by
  have hfirst : m.encode.length ≤ s.bufferSize := by
    rw [stop, elements_cons, List.length_append, length_element] at hfits
    omega
  obtain ⟨s₁, hstart, hfresh, hsizes, hlength, hsingle, hframe⟩ :=
    startMessage_eq hbound htypes hfirst
  obtain ⟨s₂, hs₂⟩ : ∃ s₂ : Stream, s₂ = { s₁ with singleMessage := false } := ⟨_, rfl⟩
  have hframe₂ : Frame s s₂ := hframe.trans (by rw [hs₂]; exact ⟨rfl, fun _ _ _ => rfl⟩)
  have hfresh₂ : s₂.Fresh [m.initial] := by
    rw [hs₂]
    exact ⟨⟨hfresh.layout, fun _ => hsizes, fun htrue => (by cases htrue), hfresh.values,
      hfresh.fits, hfresh.bound⟩, hfresh.zero, hfresh.count⟩
  have hlength₂ : (s₂.messageLength : ℤ) = stop [m.initial] := by
    rw [hs₂]
    exact hlength
  have hsize : (Osc.elements ([] ++ [m])).length ≤ s₂.bufferSize + 4 := by
    rw [List.nil_append, length_elements_singleton, hframe₂.bufferSize]
    omega
  obtain ⟨s₃, hset, hrep, hprogress⟩ :=
    Represents.complete [] true hfresh₂.toRepresents hsize
  have hfresh₃ : s₃.Fresh [m] := hprogress.fresh hfresh₂ hrep (by
    simp only [List.nil_append, List.flatMap_singleton, length_values_initial])
  have hsingle₃ : s₃.singleMessage = false := by rw [hprogress.same, hs₂]
  have hframe₃ := hframe₂.trans hprogress.frame
  rw [← hframe₃.maxValues] at happendable
  rw [← hframe₃.bufferSize] at hfits
  obtain ⟨s₄, happends, hwritten, hsingle₄, hframe₄⟩ :=
    appendMessages_eq more hfresh₃ (hprogress.length_eq hlength₂) hsingle₃ happendable hfits
  have hbundled : s₄.setBundleLength.Bundled (m :: more) := by
    refine ⟨hwritten.setBundleLength, ?_, s₄.setBundleLength_bundleLength⟩
    exact (hwritten.sizes hsingle₄).congr fun x hx _ => s₄.setBundleLength_buffer (by omega)
  refine ⟨_, ?_, hbundled, (hframe₃.trans hframe₄).trans s₄.setBundleLength_frame⟩
  have hempty : more.isEmpty = false := by
    cases more with
    | nil => exact absurd rfl hmore
    | cons => rfl
  rw [bundle, hstart, Option.bind_some, hempty, ← hs₂,
    show setValues true m.values 0 s₂ = some s₃ from hset, Option.bind_some, happends]
  rfl

end Bundle

/-- A stream after `open`: the buffer starts with `#bundle`. -/
structure Opened (s : Stream) : Prop where
  magic : s.buffer.Holds (-20) bundleMagic
  bound : s.bufferSize + 4 < 0x80000000

theorem setBundleTime_header (s : Stream) (sec frac : BitVec 32) {x : ℤ} (hx : x < -12) :
    (s.setBundleTime sec frac).buffer x = s.buffer x :=
  (Cells.store_of_lt _ _ _ (by omega)).trans (Cells.store_of_lt _ _ _ hx)

theorem setBundleTime_of_le (s : Stream) (sec frac : BitVec 32) {x : ℤ} (hx : -4 ≤ x) :
    (s.setBundleTime sec frac).buffer x = s.buffer x := by
  have hsec : (-12 : ℤ) + (bigEndian 4 sec.toNat).length ≤ x := by
    rw [length_bigEndian]
    omega
  have hfrac : (-8 : ℤ) + (bigEndian 4 frac.toNat).length ≤ x := by
    rw [length_bigEndian]
    omega
  exact (Cells.store_of_le _ _ _ hfrac).trans (Cells.store_of_le _ _ _ hsec)

theorem Opened.frame {s s' : Stream} (h : s.Opened) (hframe : Frame s s') : s'.Opened := by
  refine ⟨h.magic.congr fun x hx hx' => hframe.header x hx ?_, ?_⟩
  · have hlength : bundleMagic.length = 8 := rfl
    omega
  · rw [hframe.bufferSize]
    exact h.bound

theorem Opened.setBundleTime {s : Stream} (h : s.Opened) (sec frac : BitVec 32) :
    (s.setBundleTime sec frac).Opened := by
  refine ⟨h.magic.congr fun x _ hx => s.setBundleTime_header sec frac ?_, h.bound⟩
  have hlength : bundleMagic.length = 8 := rfl
  omega

theorem openStream_opened (protocol : Protocol) (slip output : Bool) {bufferSize : ℕ}
    (h : max 1500 bufferSize < 0x80000000) (maxValues : ℕ) (slots : Cells ℤ)
    (sec frac : BitVec 32) :
    (openStream protocol slip output bufferSize maxValues slots sec frac).Opened := by
  apply Opened.setBundleTime
  refine ⟨Cells.holds_store _ _ _, ?_⟩
  show max 1500 bufferSize - reservedBufferSize protocol slip + 4 < 0x80000000
  have hreserved : 20 ≤ reservedBufferSize protocol slip := Nat.le_add_right _ _
  omega

theorem Written.messageLength_eq {s : Stream} {m : Message} (h : s.Written [m]) :
    s.messageLength = m.encode.length := by
  have hlength := h.length
  rw [stop_singleton] at hlength
  exact_mod_cast hlength

theorem Written.messageOctets_eq {s : Stream} {m : Message} (h : s.Written [m]) :
    s.messageOctets = m.encode := by
  have hbody := h.layout.body
  rw [elements_cons, elements_nil, List.append_nil, element,
    List.drop_left' (length_bigEndian 4 _)] at hbody
  rw [messageOctets, h.messageLength_eq]
  exact hbody.read_eq

theorem length_encodeBundle (sec frac : BitVec 32) (messages : List Message) :
    (encodeBundle sec frac messages).length = 16 + (elements messages).length := by
  simp only [encodeBundle, List.length_append, length_bigEndian]
  rfl

theorem Bundled.bundleLength_eq {s : Stream} {messages : List Message} (h : s.Bundled messages)
    (sec frac : BitVec 32) : s.bundleLength = (encodeBundle sec frac messages).length := by
  have hlength := h.length
  rw [stop] at hlength
  rw [h.bundled, length_encodeBundle]
  omega

theorem Bundled.bundleOctets_eq {s : Stream} {messages : List Message} (h : s.Bundled messages)
    (hopened : s.Opened) (sec frac : BitVec 32) :
    (s.setBundleTime sec frac).bundleOctets = encodeBundle sec frac messages := by
  have hmagic : bundleMagic.length = 8 := rfl
  have hholds : (s.setBundleTime sec frac).buffer.Holds (-20) (encodeBundle sec frac messages) := by
    simp only [encodeBundle, Cells.holds_append, List.length_append, length_bigEndian, hmagic]
    refine ⟨⟨⟨(hopened.setBundleTime sec frac).magic, ?_⟩, Cells.holds_store _ _ _⟩, ?_⟩
    · exact (Cells.holds_store _ _ _).store (Or.inr (by rw [length_bigEndian]; rfl))
    · exact h.elements.congr fun x hx _ => s.setBundleTime_of_le sec frac hx
  have hlength : (s.setBundleTime sec frac).bundleLength = (encodeBundle sec frac messages).length :=
    h.bundleLength_eq sec frac
  rw [bundleOctets, hlength]
  exact hholds.read_eq

theorem length_encodeBundle_mod (sec frac : BitVec 32) (messages : List Message) :
    (encodeBundle sec frac messages).length % 4 = 0 := by
  have helements := length_elements_mod messages
  rw [length_encodeBundle]
  omega

/-- The octets of a message and the ones of a bundle are their encoding, with the recorded length.
The integers that are time tags are stored as they are, and the only message of `bundle` keeps the
size it has before its values are set. -/
theorem writers_encode {s : Stream} (hopened : s.Opened) (m : Message) (more : List Message)
    (sec frac : BitVec 32) (htypes : m.types.length ≤ s.maxValues)
    (hfits : stop (m :: more) ≤ s.bufferSize) :
    (∃ s', s.writeMessage m = some s' ∧ s'.Opened ∧ s'.messageOctets = m.encode ∧
      s'.messageLength = m.encode.length ∧ s'.messageLength % 4 = 0) ∧
    (∃ s', s.simpleBundle m = some s' ∧ s'.Opened ∧
      (s'.setBundleTime sec frac).bundleOctets = encodeBundle sec frac [m] ∧
      s'.bundleLength = (encodeBundle sec frac [m]).length ∧ s'.bundleLength % 4 = 0) ∧
    (Appendable s.maxValues [m] more →
      (more = [] → m.initial.encode.length = m.encode.length) →
      ∃ s', s.bundle m more = some s' ∧ s'.Opened ∧
        (s'.setBundleTime sec frac).bundleOctets = encodeBundle sec frac (m :: more) ∧
        s'.bundleLength = (encodeBundle sec frac (m :: more)).length ∧
        s'.bundleLength % 4 = 0) := by
  have hfirst : m.encode.length ≤ s.bufferSize := by
    rw [stop, elements_cons, List.length_append, length_element] at hfits
    omega
  refine ⟨?_, ?_, ?_⟩
  · obtain ⟨s', hwrite, hwritten, -, hframe⟩ := writeMessage_eq hopened.bound htypes hfirst
    have hlength := hwritten.messageLength_eq
    refine ⟨s', hwrite, hopened.frame hframe, hwritten.messageOctets_eq, hlength, ?_⟩
    rw [hlength]
    exact m.length_encode_mod
  · obtain ⟨s', hwrite, hbundled, hframe⟩ := simpleBundle_eq hopened.bound htypes hfirst
    have hlength := hbundled.bundleLength_eq sec frac
    refine ⟨s', hwrite, hopened.frame hframe,
      hbundled.bundleOctets_eq (hopened.frame hframe) sec frac, hlength, ?_⟩
    rw [hlength]
    exact length_encodeBundle_mod sec frac [m]
  · intro happendable hsame
    have hbundled : ∃ s', s.bundle m more = some s' ∧ s'.Bundled (m :: more) ∧ Frame s s' := by
      cases more with
      | cons m' more => exact bundle_eq hopened.bound (List.cons_ne_nil _ _) htypes happendable hfits
      | nil =>
        obtain ⟨s', hwrite, hwritten, hlength, hsize, hframe⟩ :=
          bundle_single_eq hopened.bound htypes hfirst
        refine ⟨s', hwrite, ⟨hwritten, ?_, hlength⟩, hframe⟩
        have hbody := hwritten.layout.body
        rw [elements_cons, elements_nil, List.append_nil, element,
          List.drop_left' (length_bigEndian 4 _)] at hbody
        rw [elements_cons, elements_nil, List.append_nil, element, Cells.holds_append,
          length_bigEndian, ← hsame rfl]
        exact ⟨hsize, hbody⟩
    obtain ⟨s', hwrite, hbundled, hframe⟩ := hbundled
    have hlength := hbundled.bundleLength_eq sec frac
    refine ⟨s', hwrite, hopened.frame hframe,
      hbundled.bundleOctets_eq (hopened.frame hframe) sec frac, hlength, ?_⟩
    rw [hlength]
    exact length_encodeBundle_mod sec frac (m :: more)

def outputStream : Stream := openStream .udp false true 1500 10 (fun _ => 0) 0 1

theorem writers_encode_twoMessages :
    ∃ s', outputStream.bundle
        ⟨⟨"/a".toList.map ascii, by decide⟩, [.string ⟨"abcd".toList.map ascii, by decide⟩]⟩
        [⟨⟨"/b".toList.map ascii, by decide⟩, [.int32 1]⟩] = some s' ∧
      (s'.setBundleTime 2 3).bundleOctets = "#bundle".toList.map ascii ++
        [0, 0, 0, 0, 2, 0, 0, 0, 3, 0, 0, 0, 16, 47, 97, 0, 0, 44, 115, 0, 0, 97, 98, 99, 100, 0,
          0, 0, 0, 0, 0, 0, 12, 47, 98, 0, 0, 44, 105, 0, 0, 0, 0, 0, 1] := by
  have hopened : outputStream.Opened := openStream_opened _ _ _ (by decide) _ _ _ _
  obtain ⟨s', hbundle, -, hoctets, -, -⟩ := (writers_encode hopened
    ⟨⟨"/a".toList.map ascii, by decide⟩, [.string ⟨"abcd".toList.map ascii, by decide⟩]⟩
    [⟨⟨"/b".toList.map ascii, by decide⟩, [.int32 1]⟩] 2 3 (by decide) (by decide)).2.2
    ⟨by decide, by decide, trivial⟩ (fun h => nomatch h)
  exact ⟨s', hbundle, hoctets.trans (by decide)⟩

/-- The integer 1 for a time tag is not stored in network byte order. -/
theorem not_networkEncode : ¬ ∀ (s : Stream) (m : Message), s.Opened →
    m.types.length ≤ s.maxValues → m.encode.length ≤ s.bufferSize →
    ∃ s', s.writeMessage m = some s' ∧
      s'.messageOctets = m.head ++ m.args.flatMap Arg.networkEncode := by
  intro h
  let m : Message := ⟨⟨"/t".toList.map ascii, by decide⟩, [.timetag 1]⟩
  have hopened : outputStream.Opened := openStream_opened _ _ _ (by decide) _ _ _ _
  obtain ⟨s', hwrite, hoctets⟩ := h outputStream m hopened (by decide) (by decide)
  obtain ⟨s'', hwrite', hwritten, -, -⟩ :=
    @writeMessage_eq outputStream m hopened.bound (by decide) (by decide)
  rw [hwrite'] at hwrite
  cases hwrite
  rw [hwritten.messageOctets_eq] at hoctets
  exact absurd hoctets (by decide)

end Incudine.Osc.Stream
