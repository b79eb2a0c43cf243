import Incudine.OscReceiver
import Incudine.OscStream

/-!
# Serial Line IP in a stream

`osc_slip_encode` writes a packet in the auxiliary buffer of a stream, `osc_slip_decode` decodes
the packet of a buffer in place.
-/

namespace Incudine.Osc

open Octets

/-- The loop of `osc_slip_encode`; `j` is the index of the next octet of `dest`. -/
def slipEncodeAt : List Octet → ℕ → Memory → Memory × ℕ
  | [], j, dest => (dest, j)
  | b :: src, j, dest =>
    if b = slipEnd then
      slipEncodeAt src (j + 2) ((dest.store j [slipEsc]).store (j + 1 : ℕ) [slipEscEnd])
    else if b = slipEsc then
      slipEncodeAt src (j + 2) ((dest.store j [slipEsc]).store (j + 1 : ℕ) [slipEscEsc])
    else slipEncodeAt src (j + 1) (dest.store j [b])

def slipEncodeInto (src : List Octet) (dest : Memory) : Memory × ℕ :=
  let r := slipEncodeAt src 1 (dest.store 0 [slipEnd])
  ((r.1.store r.2 [slipEnd]).store (r.2 + 1 : ℕ) [0], r.2 + 1)

def slipDecodeAt (maxlen i j : ℕ) (buf : Memory) : Memory × ℕ :=
  if i < maxlen then
    if buf i = slipEnd then
      if i ≠ 0 then (buf, j) else slipDecodeAt maxlen (i + 1) j buf
    else if buf i = slipEsc then
      if buf (i + 1 : ℕ) = slipEscEnd then
        slipDecodeAt maxlen (i + 2) (j + 1) (buf.store j [slipEnd])
      else if buf (i + 1 : ℕ) = slipEscEsc then
        slipDecodeAt maxlen (i + 2) (j + 1) (buf.store j [slipEsc])
      else slipDecodeAt maxlen (i + 2) j buf
    else slipDecodeAt maxlen (i + 1) (j + 1) (buf.store j [buf i])
  else (buf, j)
termination_by maxlen - i

def slipDecodeInPlace (buf : Memory) (maxlen : ℕ) : Memory × ℕ := slipDecodeAt maxlen 0 0 buf

structure SlipStream where
  stream : Stream
  aux : Option ℕ

namespace SlipStream

def openStream (protocol : Protocol) (slip output : Bool) (bufferSize maxValues : ℕ)
    (slots : Cells ℤ) (sec frac : BitVec 32) : SlipStream :=
  { stream := Stream.openStream protocol slip output bufferSize maxValues slots sec frac
    aux := if slip then some (2 * max 1500 bufferSize) else none }

def setMessageEncoding (s : SlipStream) (slip : Bool) : SlipStream :=
  { stream := { s.stream with slip := slip }
    aux :=
      if slip then
        match s.aux with
        | none => some (2 * s.stream.bufferSize)
        | some size => some size
      else none }

/-- The streams after any changes of the encoding. -/
inductive Opened : SlipStream → Prop
  | opened (protocol : Protocol) (slip output : Bool) (bufferSize maxValues : ℕ)
      (slots : Cells ℤ) (sec frac : BitVec 32) :
      Opened (openStream protocol slip output bufferSize maxValues slots sec frac)
  | changed {s : SlipStream} (h : Opened s) (slip : Bool) : Opened (s.setMessageEncoding slip)

theorem Opened.aux_eq {s : SlipStream} (h : s.Opened) {size : ℕ} (hsize : s.aux = some size) :
    size = 2 * s.stream.bufferSize ∨ 2 * s.stream.bufferSize + 40 ≤ size := by
  induction h with
  | opened protocol slip output bufferSize maxValues slots sec frac =>
    right
    have hbuffer : (openStream protocol slip output bufferSize maxValues slots sec
      frac).stream.bufferSize = max 1500 bufferSize - Stream.reservedBufferSize protocol slip := rfl
    have hreserved : 20 ≤ Stream.reservedBufferSize protocol slip := Nat.le_add_right _ _
    cases slip with
    | false => exact nomatch hsize
    | true =>
      have hmax := le_max_left 1500 bufferSize
      injection hsize with hsize
      omega
  | @changed s h slip ih =>
    cases slip with
    | false => exact nomatch hsize
    | true =>
      cases haux : s.aux with
      | none =>
        left
        rw [setMessageEncoding, haux] at hsize
        injection hsize with hsize
        exact hsize.symm
      | some n =>
        rw [setMessageEncoding, haux] at hsize
        injection hsize with hsize
        exact ih (haux.trans (congrArg some hsize))

end SlipStream

section Encode

/-- The octets that take two octets in a packet. -/
def slipSpecial (b : Octet) : Bool := b = slipEnd ∨ b = slipEsc

theorem slipEncodeAt_eq (src : List Octet) (j : ℕ) (dest : Memory) :
    slipEncodeAt src j dest = (dest.store j (Slip.escape src), j + (Slip.escape src).length) := by
  induction src generalizing j dest with
  | nil =>
    have hstore : dest.store j [] = dest := Cells.holds_nil.store_eq
    rw [slipEncodeAt, Slip.escape_nil, hstore]
    rfl
  | cons b src ih =>
    have hpair (c c' : Octet) : (dest.store j [c]).store (j + 1 : ℕ) [c'] =
        dest.store j [c, c'] := by
      have hstore := dest.store_store j [c] [c']
      simpa using hstore
    have htwo (c c' : Octet) : (dest.store j [c, c']).store (j + 2 : ℕ) (Slip.escape src) =
        dest.store j ([c, c'] ++ Slip.escape src) := dest.store_store j [c, c'] (Slip.escape src)
    rw [slipEncodeAt, Slip.escape_cons, Slip.escapeOctet]
    by_cases hend : b = slipEnd
    · have hend' : b = Slip.endOctet := hend
      rw [if_pos hend, if_pos hend', ih, hpair, htwo, List.length_append, Nat.add_assoc]
      rfl
    · have hend' : ¬ b = Slip.endOctet := hend
      rw [if_neg hend, if_neg hend']
      by_cases hesc : b = slipEsc
      · have hesc' : b = Slip.esc := hesc
        rw [if_pos hesc, if_pos hesc', ih, hpair, htwo, List.length_append, Nat.add_assoc]
        rfl
      · have hesc' : ¬ b = Slip.esc := hesc
        have hone : (dest.store j [b]).store (j + 1 : ℕ) (Slip.escape src) =
            dest.store j ([b] ++ Slip.escape src) := dest.store_store j [b] (Slip.escape src)
        rw [if_neg hesc, if_neg hesc', ih, hone, List.length_append, Nat.add_assoc]
        rfl

theorem slipEncodeInto_eq (src : List Octet) (dest : Memory) :
    slipEncodeInto src dest =
      (dest.store 0 (oscSlipEncode src ++ [0]), (oscSlipEncode src).length) := by
  have hstart := dest.store_store 0 [slipEnd] (Slip.escape src)
  have hend := dest.store_store 0 (slipEnd :: Slip.escape src) [slipEnd]
  have hzero := dest.store_store 0 (oscSlipEncode src) [0]
  rw [List.singleton_append] at hstart
  rw [slipEncodeInto, slipEncodeAt_eq]
  have hlength : 1 + (Slip.escape src).length + 1 = (oscSlipEncode src).length := by
    rw [oscSlipEncode_eq, Slip.encode, List.length_cons, List.length_append, List.length_singleton]
    omega
  have hcast : ((1 + (Slip.escape src).length : ℕ) : ℤ) =
      0 + ((slipEnd :: Slip.escape src).length : ℕ) := by
    rw [List.length_cons]
    omega
  have hone : ((1 : ℕ) : ℤ) = 0 + ([slipEnd].length : ℕ) := rfl
  simp only [hlength]
  rw [hone, hstart, hcast, hend, ← hzero, zero_add]
  rfl

theorem length_escape (src : List Octet) :
    (Slip.escape src).length = src.length + src.countP slipSpecial := by
  induction src with
  | nil => rfl
  | cons b src ih =>
    rw [Slip.escape_cons, List.length_append, ih, List.length_cons, List.countP_cons,
      Slip.escapeOctet]
    by_cases hend : b = slipEnd
    · have hend' : b = Slip.endOctet := hend
      have hspecial : slipSpecial b = true := by simp [slipSpecial, hend]
      rw [if_pos hend', if_pos hspecial]
      simp only [List.length_cons, List.length_nil]
      omega
    · have hend' : ¬ b = Slip.endOctet := hend
      rw [if_neg hend']
      by_cases hesc : b = slipEsc
      · have hesc' : b = Slip.esc := hesc
        have hspecial : slipSpecial b = true := by simp [slipSpecial, hesc]
        rw [if_pos hesc', if_pos hspecial]
        simp only [List.length_cons, List.length_nil]
        omega
      · have hesc' : ¬ b = Slip.esc := hesc
        have hspecial : ¬ slipSpecial b = true := by simp [slipSpecial, hend, hesc]
        rw [if_neg hesc', if_neg hspecial, List.length_singleton]
        omega

theorem length_oscSlipEncode (src : List Octet) :
    (oscSlipEncode src).length = src.length + src.countP slipSpecial + 2 := by
  rw [oscSlipEncode_eq, Slip.encode, List.length_cons, List.length_append, length_escape,
    List.length_singleton]

end Encode

section Decode

variable {maxlen i j : ℕ} {buf : Memory}

theorem read_succ (h : i < maxlen) : Cells.read buf i (maxlen - i) =
    buf i :: Cells.read buf (i + 1 : ℕ) (maxlen - (i + 1)) := by
  have hsub : maxlen - i = 1 + (maxlen - (i + 1)) := by omega
  have hone : Cells.read buf i 1 = [buf i] := by simp [Cells.read]
  rw [hsub, Cells.read_add, hone]
  rfl

theorem read_store_before {c : Octet} {k : ℕ} (h : j < k) (n : ℕ) :
    Cells.read (Cells.store buf j [c]) k n = Cells.read buf k n := by
  apply List.map_congr_left
  intro x _
  apply Cells.store_of_le
  rw [List.length_singleton]
  omega

section List

variable {beyond : Octet} {first : Bool}

theorem slipDecodeLoop_end (bs : List Octet) :
    slipDecodeLoop beyond false (slipEnd :: bs) = [] := by
  cases bs <;> rfl

theorem slipDecodeLoop_first (bs : List Octet) :
    slipDecodeLoop beyond true (slipEnd :: bs) = slipDecodeLoop beyond false bs := by
  cases bs <;> rfl

theorem slipDecodeLoop_other {b : Octet} (hend : b ≠ slipEnd) (hesc : b ≠ slipEsc)
    (bs : List Octet) :
    slipDecodeLoop beyond first (b :: bs) = b :: slipDecodeLoop beyond false bs := by
  cases bs with
  | nil =>
    show (if b = slipEnd then [] else if b = slipEsc then slipEscaped beyond else [b]) = [b]
    rw [if_neg hend, if_neg hesc]
  | cons c bs => rw [slipDecodeLoop, if_neg hend, if_neg hesc]

end List

theorem slipDecodeLoop_esc (h : i < maxlen) (first : Bool) :
    slipDecodeLoop (buf maxlen) first (slipEsc :: Cells.read buf (i + 1 : ℕ) (maxlen - (i + 1))) =
      slipEscaped (buf (i + 1 : ℕ)) ++
        slipDecodeLoop (buf maxlen) false (Cells.read buf (i + 2 : ℕ) (maxlen - (i + 2))) := by
  by_cases hnext : i + 1 < maxlen
  · rw [read_succ hnext]
    rfl
  · have heq : i + 1 = maxlen := by omega
    have hzero : maxlen - (i + 1) = 0 := by omega
    have hzero' : maxlen - (i + 2) = 0 := by omega
    rw [hzero, hzero', heq]
    exact (List.append_nil _).symm

theorem slipDecodeAt_eq (hj : j ≤ i) {first : Bool} (hfirst : first = true ↔ i = 0) :
    slipDecodeAt maxlen i j buf =
      (buf.store j (slipDecodeLoop (buf maxlen) first (buf.read i (maxlen - i))),
        j + (slipDecodeLoop (buf maxlen) first (buf.read i (maxlen - i))).length) := by
  have hnil (buf : Memory) (j : ℕ) : buf.store j [] = buf := Cells.holds_nil.store_eq
  have hput {buf : Memory} {i j k : ℕ} (hji : j ≤ i) (hik : i < k) (hi : i < maxlen)
      (c : Octet) :
      ((buf.store j [c]).store (j + 1 : ℕ)
          (slipDecodeLoop (buf.store j [c] maxlen) false ((buf.store j [c]).read k (maxlen - k))),
        j + 1 + (slipDecodeLoop (buf.store j [c] maxlen) false
          ((buf.store j [c]).read k (maxlen - k))).length) =
      (buf.store j (c :: slipDecodeLoop (buf maxlen) false (buf.read k (maxlen - k))),
        j + (c :: slipDecodeLoop (buf maxlen) false (buf.read k (maxlen - k))).length) := by
    have hbeyond : buf.store j [c] maxlen = buf maxlen := by
      apply Cells.store_of_le
      rw [List.length_singleton]
      omega
    rw [hbeyond, read_store_before (by omega), List.length_cons, Nat.add_assoc, Nat.add_comm 1]
    exact congrArg (·, _) (buf.store_store j [c] _)
  fun_induction slipDecodeAt maxlen i j buf generalizing first with
  | case1 i j buf hi hend hne =>
    have hfalse : first = false := by
      rw [← Bool.not_eq_true, hfirst]
      exact hne
    rw [read_succ hi, hend, hfalse, slipDecodeLoop_end, hnil]
    rfl
  | case2 i j buf hi hend hzero ih =>
    have hi0 : i = 0 := not_not.mp hzero
    have hstart : first = true := hfirst.mpr hi0
    rw [read_succ hi, hend, hstart, slipDecodeLoop_first]
    exact @ih (by omega) false (by simp)
  | case3 i j buf hi hend hesc hnext ih =>
    rw [read_succ hi, hesc, slipDecodeLoop_esc hi, hnext, @ih (by omega) false (by simp)]
    exact hput hj (by omega) hi _
  | case4 i j buf hi hend hesc hnext hnext' ih =>
    rw [read_succ hi, hesc, slipDecodeLoop_esc hi, hnext', @ih (by omega) false (by simp)]
    exact hput hj (by omega) hi _
  | case5 i j buf hi hend hesc hnext hnext' ih =>
    have hempty : slipEscaped (buf (i + 1 : ℕ)) = [] := by
      rw [slipEscaped, if_neg hnext, if_neg hnext']
    rw [read_succ hi, hesc, slipDecodeLoop_esc hi, hempty, List.nil_append,
      @ih (by omega) false (by simp)]
  | case6 i j buf hi hend hesc ih =>
    rw [read_succ hi, slipDecodeLoop_other hend hesc, @ih (by omega) false (by simp)]
    exact hput hj (by omega) hi _
  | case7 i j buf hi =>
    have hsub : maxlen - i = 0 := by omega
    rw [hsub]
    exact congrArg (·, _) (hnil buf j).symm

theorem slipDecodeInPlace_eq (buf : Memory) (maxlen : ℕ) : slipDecodeInPlace buf maxlen =
    (buf.store 0 (oscSlipDecode (buf.octets maxlen) (buf maxlen)),
      (oscSlipDecode (buf.octets maxlen) (buf maxlen)).length) := by
  have heq := @slipDecodeAt_eq maxlen 0 0 buf le_rfl true (by simp)
  rw [Nat.zero_add] at heq
  exact heq

end Decode

/-- The packet with `ends` END characters before it is decoded in place, the only END characters
of the packet are the first and the last one, and the octets of the encoder are in the auxiliary
buffer. -/
structure SlipRoundTrip (aux ends : ℕ) (packet : List Octet) : Prop where
  decode : ∀ (buf : Memory) (maxlen : ℕ),
    buf.Holds 0 (List.replicate ends slipEnd ++ oscSlipEncode packet) →
    ends + (oscSlipEncode packet).length ≤ maxlen →
    (slipDecodeInPlace buf maxlen).2 = packet.length ∧
      (slipDecodeInPlace buf maxlen).1.octets packet.length = packet
  delimited : ∃ inside, oscSlipEncode packet = slipEnd :: (inside ++ [slipEnd]) ∧
    slipEnd ∉ inside
  fits : ∀ (dest : Memory) (x : ℤ), x < 0 ∨ aux ≤ x → (slipEncodeInto packet dest).1 x = dest x

section RoundTrip

variable {packet : List Octet} {buf : Memory}

theorem oscSlipDecode_ends (ends : ℕ) (after : List Octet) (beyond : Octet) :
    oscSlipDecode (List.replicate ends slipEnd ++ (oscSlipEncode packet ++ after)) beyond =
      if ends = 0 then packet else [] := by
  cases ends with
  | zero =>
    rw [if_pos rfl, List.replicate_zero, List.nil_append, oscSlipEncode_eq, Slip.encode,
      List.cons_append, List.append_assoc, List.singleton_append, oscSlipDecode]
    exact (slipDecodeLoop_first _).trans (slipDecodeLoop_escape false fun h => nomatch h)
  | succ ends =>
    rw [if_neg (Nat.succ_ne_zero ends), List.replicate_succ, List.cons_append, oscSlipDecode,
      slipDecodeLoop_first]
    cases ends with
    | zero => exact slipDecodeLoop_end _
    | succ ends => exact slipDecodeLoop_end _

theorem slipDecodeInPlace_ends {ends maxlen : ℕ}
    (h : buf.Holds 0 (List.replicate ends slipEnd ++ oscSlipEncode packet))
    (hlength : ends + (oscSlipEncode packet).length ≤ maxlen) :
    slipDecodeInPlace buf maxlen = (buf.store 0 (if ends = 0 then packet else []),
      (if ends = 0 then packet else []).length) := by
  have hread := h.read_eq
  obtain ⟨n, hn⟩ := Nat.exists_eq_add_of_le hlength
  have hoctets : ∃ after, buf.octets maxlen =
      List.replicate ends slipEnd ++ (oscSlipEncode packet ++ after) := by
    rw [List.length_append, List.length_replicate] at hread
    rw [Memory.octets, hn, Cells.read_add, hread, List.append_assoc]
    exact ⟨_, rfl⟩
  obtain ⟨after, hafter⟩ := hoctets
  rw [slipDecodeInPlace_eq, hafter, oscSlipDecode_ends]

theorem slipRoundTrip_aux_iff (aux ends : ℕ) (packet : List Octet) :
    SlipRoundTrip aux ends packet ↔
      (ends = 0 ∨ packet = []) ∧ packet.length + packet.countP slipSpecial + 3 ≤ aux := by
  have hlength : (oscSlipEncode packet ++ [0]).length =
      packet.length + packet.countP slipSpecial + 3 := by
    rw [List.length_append, length_oscSlipEncode, List.length_singleton]
  constructor
  · intro h
    constructor
    · by_contra hnot
      rw [not_or] at hnot
      let octets := List.replicate ends slipEnd ++ oscSlipEncode packet
      have hdecode := (h.decode (Cells.store (fun _ => 0) 0 octets)
        (ends + (oscSlipEncode packet).length) (Cells.holds_store _ _ _) le_rfl).1
      rw [slipDecodeInPlace_ends (Cells.holds_store _ _ _) le_rfl, if_neg hnot.1] at hdecode
      exact hnot.2 (List.length_eq_zero_iff.mp hdecode.symm)
    · by_contra hnot
      have hindex := length_oscSlipEncode packet
      have hzero := h.fits (fun _ => 1) (oscSlipEncode packet).length (Or.inr (by omega))
      have hstore := Cells.store_add (fun _ => (1 : Octet)) 0 (oscSlipEncode packet ++ [0])
        (k := (oscSlipEncode packet).length) (by simp)
      rw [zero_add] at hstore
      rw [slipEncodeInto_eq] at hzero
      have hlast := hstore.symm.trans hzero
      rw [List.getElem_append_right le_rfl] at hlast
      revert hlast
      simp
  · rintro ⟨hends, haux⟩
    refine ⟨?_, ⟨Slip.escape packet, rfl, Slip.endOctet_notMem_escape packet⟩, ?_⟩
    · intro buf maxlen hholds hmaxlen
      have hsame : (if ends = 0 then packet else []) = packet := by
        rcases hends with hends | hends
        · rw [if_pos hends]
        · rw [hends, ite_self]
      rw [slipDecodeInPlace_ends hholds hmaxlen, hsame]
      exact ⟨rfl, Memory.octets_store_zero buf packet⟩
    · intro dest x hx
      rw [slipEncodeInto_eq]
      rcases hx with hx | hx
      · exact Cells.store_of_lt _ _ _ hx
      · apply Cells.store_of_le
        rw [hlength]
        omega

/-- The packets of a stream: the auxiliary buffer of `open` is large enough. -/
theorem slipRoundTrip_iff {s : SlipStream} (h : s.Opened) {aux : ℕ} (haux : s.aux = some aux)
    (hfits : packet.length ≤ s.stream.bufferSize) (ends : ℕ) :
    SlipRoundTrip aux ends packet ↔ (ends = 0 ∨ packet = []) ∧
      (aux = 2 * s.stream.bufferSize →
        packet.length + packet.countP slipSpecial + 3 ≤ 2 * s.stream.bufferSize) := by
  rw [slipRoundTrip_aux_iff]
  have hcount := List.countP_le_length (p := slipSpecial) (l := packet)
  have hsize := h.aux_eq haux
  refine and_congr_right fun _ => ⟨fun hle heq => heq ▸ hle, fun hle => ?_⟩
  rcases hsize with hsize | hsize
  · have hspace := hle hsize
    omega
  · omega

def slipStream : SlipStream := SlipStream.openStream .tcp true true 1500 10 (fun _ => 0) 0 1

/-- The packet is lost after one more END character. -/
theorem not_slipRoundTrip : ¬ ∀ (s : SlipStream) (aux ends : ℕ) (packet : List Octet),
    s.Opened → s.aux = some aux → packet.length ≤ s.stream.bufferSize →
    SlipRoundTrip aux ends packet := by
  intro h
  have hround := h slipStream 3000 1 [7] (.opened _ _ _ _ _ _ _ _) rfl (by decide)
  exact absurd ((slipRoundTrip_aux_iff 3000 1 [7]).mp hround).1 (by decide)

theorem slipRoundTrip_slipStream : SlipRoundTrip 3000 0 [slipEnd, slipEnd] := by
  refine (slipRoundTrip_iff (s := slipStream) (.opened _ _ _ _ _ _ _ _) rfl (by decide) 0).mpr ?_
  exact ⟨Or.inl rfl, by decide⟩

end RoundTrip

end Incudine.Osc
