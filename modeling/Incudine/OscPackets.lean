import Incudine.OscReceiver

/-!
# The packets that the receiver delivers

When the octets of each call are those of one packet, the packets of every connection are
delivered in their order, whatever the number of the connections.
-/

namespace Incudine.Osc

open Function Octets

/-- The octets that a connection has given are the frames of the delivered packets. -/
def Settled (framing : Framing) (received : List Octet) (delivered : List (List Octet)) : Prop :=
  match framing with
  | .slip => Slip.cut ([], []) received = (delivered.map Slip.escape, [])
  | .countPrefix => received = delivered.flatMap (frame .countPrefix) ∧
      ∀ packet ∈ delivered, packet.length < 0x100000000
  | .none => True

def PartOfPacket (framing : Framing) (maxlen : ℕ) (octets : List Octet) (nbytes remain : ℤ) :
    Prop :=
  match framing with
  | .slip => (Slip.cut ([], []) octets).1 = [] ∧ nbytes = maxlen ∧
      remain = maxlen - octets.length
  | .countPrefix => CountMeets maxlen octets ∧ nbytes = countOf octets ∧
      remain = countOf octets + 4 - octets.length
  | .none => False

/-- A call has got the first octets of a packet of the connection `i`. -/
structure Reading (framing : Framing) (maxlen : ℕ) (w : World) (i : ℕ) (octets : List Octet)
    (remain : ℤ) : Prop where
  received : ∃ before, w.received i = before ++ octets ∧ Settled framing before (w.delivered i)
  others : ∀ j, j ≠ i → Settled framing (w.received j) (w.delivered j)
  buf : w.receiver.buf.octets octets.length = octets
  lastfd : w.receiver.o.lastfd = i
  part : PartOfPacket framing maxlen octets w.receiver.nbytes remain
  pos : 0 < remain

def Inv (framing : Framing) (maxlen : ℕ) (w : World) : Prop :=
  match w.receiver.control with
  | .poll i _ data ret remain =>
    ∃ octets, data + ret = octets.length ∧ Reading framing maxlen w i octets remain
  | .recvMore i _ data remain =>
    ∃ octets, data = octets.length ∧ Reading framing maxlen w i octets remain
  | _ => ∀ i, Settled framing (w.received i) (w.delivered i)

variable {before : List Octet}

section Outcomes

variable {framing : Framing} {maxlen : ℕ} {r : Receiver} {received : ℕ → List Octet}
  {delivered : ℕ → List (List Octet)}

abbrev worldAfter (framing : Framing) (outcome : Outcome) (received : ℕ → List Octet)
    (delivered : ℕ → List (List Octet)) : World :=
  ⟨outcome.1, received, World.deliver framing outcome delivered⟩

theorem inv_finish {value : ℤ} (hvalue : value ≤ 0)
    (h : ∀ i, Settled framing (received i) (delivered i)) :
    Inv framing maxlen (worldAfter framing (r.finish value) received delivered) := by
  have hnone : World.deliver framing (r.finish value) delivered = delivered := by
    rw [World.deliver, Receiver.finish]
    exact if_neg (Int.not_lt.mpr hvalue)
  rw [worldAfter, hnone]
  exact h

theorem inv_fdLoop (h : ∀ i, Settled framing (received i) (delivered i)) (loop : List ℕ) :
    Inv framing maxlen (worldAfter framing (r.fdLoop loop) received delivered) := by
  induction loop with
  | nil =>
    rw [Receiver.fdLoop]
    split
    · rename_i hnbytes
      exact inv_finish hnbytes.le h
    · exact h
  | cons i loop ih =>
    rw [Receiver.fdLoop]
    split
    · exact ih
    · exact h

theorem inv_deliver {value : ℕ} {i : ℕ} {octets packet : List Octet} (hvalue : 0 < value)
    (hlastfd : r.o.lastfd = i) (hpacket : packetOf framing r.buf value = packet)
    (hreceived : received i = before ++ octets)
    (hothers : ∀ j, j ≠ i → Settled framing (received j) (delivered j))
    (hsettled : Settled framing (before ++ octets) (delivered i ++ [packet])) :
    Inv framing maxlen (worldAfter framing (r.finish value) received delivered) := by
  have hdeliver : World.deliver framing (r.finish value) delivered =
      update delivered i (delivered i ++ [packet]) := by
    have hpos : (0 : ℤ) < value := by exact_mod_cast hvalue
    rw [World.deliver, Receiver.finish]
    simp only [if_pos hpos, hlastfd, Int.toNat_natCast, hpacket]
  rw [worldAfter, hdeliver]
  intro j
  show Settled framing (received j) (update delivered i (delivered i ++ [packet]) j)
  by_cases hj : j = i
  · rw [hj, update_self, hreceived]
    exact hsettled
  · rw [update_of_ne hj]
    exact hothers j hj

theorem settled_countPrefix {octets : List Octet} {packets : List (List Octet)}
    (h : Settled .countPrefix before packets) (hlength : octets.length = 4 + countOf octets) :
    Settled .countPrefix (before ++ octets) (packets ++ [octets.drop 4]) := by
  obtain ⟨hbefore, hpackets⟩ : before = packets.flatMap (frame .countPrefix) ∧
    ∀ packet ∈ packets, packet.length < 0x100000000 := h
  constructor
  · rw [List.flatMap_append, List.flatMap_singleton, frame_countPrefix_eq hlength, hbefore]
  · intro packet hpacket
    rcases List.mem_append.mp hpacket with hpacket | hpacket
    · exact hpackets packet hpacket
    · have hcount := ofBigEndian_lt (octets.take 4)
      have htake : (octets.take 4).length = 4 := by
        rw [List.length_take]
        omega
      rw [htake] at hcount
      rw [List.mem_singleton.mp hpacket, List.length_drop, hlength, Nat.add_sub_cancel_left]
      exact hcount

theorem settled_slip {octets packet : List Octet} {packets : List (List Octet)}
    (h : Settled .slip before packets) (hpacket : Slip.OnePacket packet octets) :
    Settled .slip (before ++ octets) (packets ++ [packet]) := by
  have hbefore : Slip.cut ([], []) before = (packets.map Slip.escape, []) := h
  show Slip.cut ([], []) (before ++ octets) = _
  rw [Slip.cut_append, hbefore, hpacket.cut_eq rfl, List.map_append, List.map_singleton]

theorem inv_countPrefix {i : ℕ} {loop : List ℕ} {octets : List Octet} {data ret : ℤ}
    (hmeets : CountMeets maxlen octets) (hdata : data + ret = octets.length)
    (hnbytes : r.nbytes = countOf octets) (hlastfd : r.o.lastfd = i)
    (hbuf : r.buf.octets octets.length = octets) (hreceived : received i = before ++ octets)
    (hsettled : Settled .countPrefix before (delivered i))
    (hothers : ∀ j, j ≠ i → Settled .countPrefix (received j) (delivered j)) :
    Inv .countPrefix maxlen (worldAfter .countPrefix
      (r.remainLoop i loop data ret (countOf octets + 4 - octets.length)) received delivered) := by
  have hpos := hmeets.pos
  have hle := hmeets.length_le
  rw [Receiver.remainLoop]
  by_cases hremain : (0 : ℤ) < countOf octets + 4 - octets.length
  · rw [if_pos hremain]
    exact ⟨octets, hdata, ⟨before, hreceived, hsettled⟩, hothers, hbuf, hlastfd,
      ⟨hmeets, hnbytes, rfl⟩, hremain⟩
  · have hlength : octets.length = 4 + countOf octets := by omega
    rw [if_neg hremain, if_pos (by omega), hnbytes]
    have hpacket : packetOf .countPrefix r.buf (countOf octets) = octets.drop 4 := by
      rw [packetOf, ← hlength, hbuf]
    exact inv_deliver hpos hlastfd hpacket hreceived hothers (settled_countPrefix hsettled hlength)

theorem inv_slip {i : ℕ} {loop : List ℕ} {octets l : List Octet} {data ret : ℤ}
    (hmeets : SlipMeets maxlen octets l) (hl : octets ≠ []) (hdata : data + ret = octets.length)
    (hlastfd : r.o.lastfd = i) (hbuf : r.buf.octets octets.length = octets)
    (hreceived : received i = before ++ octets) (hsettled : Settled .slip before (delivered i))
    (hothers : ∀ j, j ≠ i → Settled .slip (received j) (delivered j)) :
    Inv .slip maxlen (worldAfter .slip
      (if isSlipMsg l then r.finish octets.length
      else Receiver.remainLoop { r with nbytes := maxlen } i loop data ret
        (maxlen - octets.length)) received delivered) := by
  obtain ⟨hmaxlen, hmeets⟩ := hmeets
  by_cases hmsg : isSlipMsg l = true
  · rw [if_pos hmsg] at hmeets ⊢
    obtain ⟨packet, hpacket⟩ := hmeets
    have hdecode : packetOf .slip r.buf octets.length = packet := by
      rw [packetOf, hbuf, oscSlipDecode_onePacket hpacket]
    exact inv_deliver (List.length_pos_of_ne_nil hl) hlastfd hdecode hreceived hothers
      (settled_slip hsettled hpacket)
  · rw [if_neg hmsg] at hmeets ⊢
    have hremain : (0 : ℤ) < maxlen - octets.length := by omega
    rw [Receiver.remainLoop, if_pos hremain]
    exact ⟨octets, hdata, ⟨before, hreceived, hsettled⟩, hothers, hbuf, hlastfd,
      ⟨hmeets.1, rfl, rfl⟩, hremain⟩

end Outcomes

section Steps

variable {framing : Framing} {maxlen : ℕ} {w : World} {i : ℕ} {loop : List ℕ} {l : List Octet}

theorem inv_firstOctets (h : ∀ j, Settled framing (w.received j) (w.delivered j)) (hl : l ≠ [])
    (hmeets : framing = .countPrefix ∧ CountMeets maxlen l ∨
      framing = .slip ∧ SlipMeets maxlen l l) :
    Inv framing maxlen (worldAfter framing
      (w.receiver.firstOctets framing maxlen i loop l l.length)
      (update w.received i (w.received i ++ l)) w.delivered) := by
  have hreceived : update w.received i (w.received i ++ l) i = w.received i ++ l :=
    update_self _ _ _
  have hothers : ∀ j, j ≠ i →
      Settled framing (update w.received i (w.received i ++ l) j) (w.delivered j) := by
    intro j hj
    rw [update_of_ne hj]
    exact h j
  have hbuf := w.receiver.buf.octets_store_zero l
  have hdata : (0 : ℤ) + l.length = l.length := Int.zero_add _
  rcases hmeets with ⟨rfl, hmeets⟩ | ⟨rfl, hmeets⟩
  · have hstart := hmeets.prefix_le
    have hfits := hmeets.fits
    have hlt := hmeets.maxlen_lt
    have hcount : Memory.count (w.receiver.buf.store 0 l) = countOf l := by
      rw [Memory.count, ← Memory.take_octets _ hstart, hbuf, countOf]
    have hlong : ¬ (maxlen + 0xfffffffc) % 0x100000000 < countOf l := by omega
    have hint : toInt (countOf l) = countOf l := if_pos (by omega)
    rw [Receiver.firstOctets]
    simp only [hcount, if_neg hlong, hint]
    exact inv_countPrefix hmeets hdata rfl rfl hbuf hreceived (h i) hothers
  · have hint : toInt maxlen = maxlen := if_pos hmeets.1
    rw [Receiver.firstOctets]
    simp only [hint]
    exact inv_slip hmeets hl hdata rfl hbuf hreceived (h i) hothers

theorem inv_moreOctets {octets : List Octet} {remain : ℤ}
    (h : Reading framing maxlen w i octets remain) (hl : l ≠ []) (hle : l.length ≤ remain)
    (hmeets : framing = .slip → SlipMeets maxlen (octets ++ l) l) :
    Inv framing maxlen (worldAfter framing
      (w.receiver.moreOctets framing i loop octets.length remain l)
      (update w.received i (w.received i ++ l)) w.delivered) := by
  obtain ⟨before, hbefore, hsettled⟩ := h.received
  have hreceived : update w.received i (w.received i ++ l) i =
      before ++ (octets ++ l) := by
    rw [update_self, hbefore, List.append_assoc]
  have hothers : ∀ j, j ≠ i →
      Settled framing (update w.received i (w.received i ++ l) j) (w.delivered j) := by
    intro j hj
    rw [update_of_ne hj]
    exact h.others j hj
  have hbuf : Memory.octets (w.receiver.buf.store octets.length l) (octets ++ l).length =
      octets ++ l := by
    rw [List.length_append, Memory.octets_store, h.buf]
  have hdata : (octets.length : ℤ) + l.length = (octets ++ l).length := by
    rw [List.length_append]
    exact (Int.natCast_add _ _).symm
  have hpart := h.part
  cases framing with
  | none => exact hpart.elim
  | countPrefix =>
    obtain ⟨hcount, hnbytes, hremain⟩ := hpart
    have hsame := countOf_append hcount.prefix_le l
    have hmeets' : CountMeets maxlen (octets ++ l) := by
      have hstart := hcount.prefix_le
      refine ⟨?_, ?_, ?_, ?_, hcount.maxlen_lt⟩
      · rw [List.length_append]
        omega
      · rw [hsame]
        exact hcount.pos
      · rw [hsame]
        exact hcount.fits
      · rw [hsame, List.length_append]
        omega
    have hleft : remain - l.length =
        (countOf (octets ++ l) : ℤ) + 4 - (octets ++ l).length := by
      rw [hsame, hremain, ← hdata]
      omega
    show Inv .countPrefix maxlen (worldAfter .countPrefix (Receiver.remainLoop { w.receiver with
      buf := w.receiver.buf.store octets.length l } i loop octets.length l.length
        (remain - l.length)) _ _)
    rw [hleft]
    exact inv_countPrefix hmeets' hdata (by rw [hsame]; exact hnbytes) h.lastfd hbuf hreceived
      hsettled hothers
  | slip =>
    obtain ⟨-, hnbytes, hremain⟩ := hpart
    have hne : octets ++ l ≠ [] := by
      intro hnil
      exact hl (List.append_eq_nil_iff.mp hnil).2
    have hleft : remain - l.length = (maxlen : ℤ) - (octets ++ l).length := by
      rw [hremain, ← hdata]
      omega
    have hret : w.receiver.nbytes - (remain - l.length) = (octets ++ l).length := by
      rw [hleft, hnbytes]
      omega
    have hinv : Inv .slip maxlen (worldAfter .slip
        (if isSlipMsg l then Receiver.finish { w.receiver with
          buf := w.receiver.buf.store octets.length l } (octets ++ l).length
        else Receiver.remainLoop { w.receiver with
          buf := w.receiver.buf.store octets.length l
          nbytes := maxlen } i loop octets.length l.length (maxlen - (octets ++ l).length))
        (update w.received i (w.received i ++ l)) w.delivered) :=
      inv_slip (hmeets rfl) hne hdata h.lastfd hbuf hreceived hsettled hothers
    have hmeets' := (hmeets rfl).2
    rw [Receiver.moreOctets]
    simp only [hret]
    by_cases hmsg : isSlipMsg l = true
    · rw [if_pos hmsg] at hinv ⊢
      exact hinv
    · rw [if_neg hmsg] at hmeets' hinv ⊢
      have hnonzero : ¬ remain - l.length = 0 := by omega
      rw [if_neg hnonzero, hleft]
      rw [← hnbytes] at hinv ⊢
      exact hinv

theorem settled_nil (framing : Framing) : Settled framing [] [] := by
  cases framing with
  | slip => rfl
  | countPrefix => exact ⟨rfl, fun packet hpacket => nomatch hpacket⟩
  | none => exact trivial

theorem Inv.next {w' : World} {a : Answer} (h : Inv framing maxlen w)
    (hpossible : Possible maxlen w.receiver a) (hmeets : WholePackets framing maxlen w.receiver a)
    (hnext : w.next framing maxlen a = some w') : Inv framing maxlen w' := by
  obtain ⟨outcome, hstep, rfl⟩ := Option.map_eq_some_iff.mp hnext
  obtain ⟨⟨o, buf, nbytes, control⟩, received, delivered⟩ := w
  show Inv framing maxlen (worldAfter framing outcome (World.receivedAfter _ a)
    (World.deliveredBefore _ a))
  cases control with
  | select =>
    cases a with
    | ready fds =>
      simp only [Receiver.step] at hstep
      split at hstep
      · cases hstep
        exact h
      · cases hstep
        exact inv_fdLoop h _
    | timeout =>
      cases hstep
      exact inv_finish (Int.le_refl 0) h
    | failed =>
      cases hstep
      exact inv_finish (by decide) h
    | accepted | octets | readable | notReadable => cases hstep
  | accept loop =>
    cases a with
    | accepted client =>
      cases hstep
      apply inv_fdLoop
      intro i
      show Settled framing (update received client [] i)
        (update delivered client [] i)
      by_cases hi : i = client
      · rw [hi, update_self, update_self]
        exact settled_nil framing
      · rw [update_of_ne hi, update_of_ne hi]
        exact h i
    | failed =>
      cases hstep
      exact inv_fdLoop h loop
    | ready | timeout | octets | readable | notReadable => cases hstep
  | recv i loop =>
    cases a with
    | octets l =>
      cases l with
      | nil =>
        cases hstep
        have hsame : update received i (received i ++ []) = received := by
          rw [List.append_nil, update_eq_self]
        show Inv framing maxlen (worldAfter framing _
          (update received i (received i ++ [])) delivered)
        rw [hsame, Receiver.closed]
        split
        · exact inv_fdLoop h []
        · exact inv_fdLoop h loop
      | cons b l =>
        cases hstep
        exact inv_firstOctets h (List.cons_ne_nil b l) (hmeets.resolve_left (List.cons_ne_nil b l))
    | failed => exact hmeets.elim
    | ready | timeout | accepted | readable | notReadable => cases hstep
  | poll i loop data ret remain =>
    cases a with
    | readable =>
      cases hstep
      obtain ⟨octets, hdata, hreading⟩ := h
      exact ⟨octets, hdata, hreading.received, hreading.others, hreading.buf, hreading.lastfd,
        hreading.part, hreading.pos⟩
    | notReadable => exact hmeets.elim
    | failed => exact hmeets.elim
    | ready | timeout | accepted | octets => cases hstep
  | recvMore i loop data remain =>
    cases a with
    | octets l =>
      obtain ⟨hl, hslip⟩ := hmeets
      cases l with
      | nil => exact absurd rfl hl
      | cons b l =>
        cases hstep
        obtain ⟨octets, hdata, hreading⟩ := h
        obtain rfl : data = octets.length := hdata
        have hbuf : buf.octets octets.length = octets := hreading.buf
        rw [Int.toNat_natCast, hbuf] at hslip
        exact inv_moreOctets ⟨hreading.received, hreading.others, hreading.buf, hreading.lastfd,
          hreading.part, hreading.pos⟩ hl hpossible hslip
    | failed => exact hmeets.elim
    | ready | timeout | accepted | readable | notReadable => cases hstep

end Steps

theorem Run.inv {framing : Framing} {maxlen : ℕ} {w : World}
    (h : Run framing maxlen (WholePackets framing maxlen) w) : Inv framing maxlen w := by
  induction h with
  | start hcontrol _ =>
    rw [Inv, hcontrol]
    exact fun _ => settled_nil framing
  | step _ hpossible hmeets hnext ih => exact ih.next hpossible hmeets hnext

section Streams

variable {received coming octets : List Octet} {packets delivered : List (List Octet)}

theorem Inv.split {framing : Framing} {maxlen : ℕ} {w : World} (h : Inv framing maxlen w) (i : ℕ) :
    ∃ before octets, w.received i = before ++ octets ∧
      Settled framing before (w.delivered i) ∧
      (octets = [] ∨ ∃ nbytes remain, PartOfPacket framing maxlen octets nbytes remain ∧
        0 < remain) := by
  have hreading {j : ℕ} {octets : List Octet} {remain : ℤ}
      (hr : Reading framing maxlen w j octets remain) :
      ∃ before octets, w.received i = before ++ octets ∧ Settled framing before (w.delivered i) ∧
        (octets = [] ∨ ∃ nbytes remain, PartOfPacket framing maxlen octets nbytes remain ∧
          0 < remain) := by
    by_cases hi : i = j
    · obtain ⟨before, hbefore, hsettled⟩ := hr.received
      rw [hi]
      exact ⟨before, octets, hbefore, hsettled, .inr ⟨_, _, hr.part, hr.pos⟩⟩
    · exact ⟨w.received i, [], (List.append_nil _).symm, hr.others i hi, .inl rfl⟩
  have hidle (hs : ∀ i, Settled framing (w.received i) (w.delivered i)) :
      ∃ before octets, w.received i = before ++ octets ∧ Settled framing before (w.delivered i) ∧
        (octets = [] ∨ ∃ nbytes remain, PartOfPacket framing maxlen octets nbytes remain ∧
          0 < remain) :=
    ⟨w.received i, [], (List.append_nil _).symm, hs i, .inl rfl⟩
  rw [Inv] at h
  split at h
  · obtain ⟨octets, -, hr⟩ := h
    exact hreading hr
  · obtain ⟨octets, -, hr⟩ := h
    exact hreading hr
  · exact hidle h

theorem frame_countPrefix_prefix {packet packet' rest rest' : List Octet}
    (hpacket : packet.length < 0x100000000) (hpacket' : packet'.length < 0x100000000)
    (h : frame .countPrefix packet ++ rest = frame .countPrefix packet' ++ rest') :
    packet = packet' ∧ rest = rest' := by
  have hlength : packet.length = packet'.length := by
    have hcount : countOf (frame .countPrefix packet ++ rest) = packet.length :=
      countOf_frame hpacket
    rw [← hcount, h, countOf_frame hpacket']
  obtain ⟨hframe, hrest⟩ := List.append_inj h (by
    rw [length_frame_countPrefix, length_frame_countPrefix, hlength])
  refine ⟨?_, hrest⟩
  rw [frame, frame, hlength] at hframe
  exact List.append_cancel_left hframe

theorem frame_countPrefix_ne_nil (packet : List Octet) : frame .countPrefix packet ≠ [] := by
  intro hnil
  have hlength := length_frame_countPrefix packet
  rw [hnil, List.length_nil] at hlength
  omega

theorem rest_of_countPrefix (hdelivered : ∀ packet ∈ delivered, packet.length < 0x100000000)
    (hpackets : ∀ packet ∈ packets, packet.length < 0x100000000)
    (h : delivered.flatMap (frame .countPrefix) ++ octets =
      packets.flatMap (frame .countPrefix)) :
    ∃ rest, packets = delivered ++ rest ∧ octets = rest.flatMap (frame .countPrefix) := by
  induction delivered generalizing packets with
  | nil => exact ⟨packets, rfl, h⟩
  | cons packet delivered ih =>
    rw [List.flatMap_cons, List.append_assoc] at h
    cases packets with
    | nil =>
      rw [List.flatMap_nil, List.append_eq_nil_iff] at h
      exact absurd h.1 (frame_countPrefix_ne_nil packet)
    | cons packet' packets =>
      rw [List.flatMap_cons] at h
      obtain ⟨rfl, hrest⟩ := frame_countPrefix_prefix (hdelivered packet List.mem_cons_self)
        (hpackets packet' List.mem_cons_self) h
      obtain ⟨rest, rfl, hoctets⟩ := ih (fun p hp => hdelivered p (List.mem_cons_of_mem _ hp))
        (fun p hp => hpackets p (List.mem_cons_of_mem _ hp)) hrest
      exact ⟨rest, rfl, hoctets⟩

theorem delivered_countPrefix {maxlen : ℕ} (h : Settled .countPrefix received delivered)
    (hpart : octets = [] ∨
      ∃ nbytes remain, PartOfPacket .countPrefix maxlen octets nbytes remain ∧ 0 < remain)
    (hpackets : ∀ packet ∈ packets, packet.length < 0x100000000)
    (hstream : received ++ octets ++ coming = packets.flatMap (frame .countPrefix)) :
    delivered <+: packets ∧ (coming = [] → delivered = packets) := by
  obtain ⟨hreceived, hdelivered⟩ : received = delivered.flatMap (frame .countPrefix) ∧
    ∀ packet ∈ delivered, packet.length < 0x100000000 := h
  rw [hreceived, List.append_assoc] at hstream
  obtain ⟨rest, rfl, hrest⟩ := rest_of_countPrefix hdelivered hpackets hstream
  refine ⟨List.prefix_append _ _, ?_⟩
  rintro rfl
  rw [List.append_nil] at hrest
  cases rest with
  | nil => rw [List.append_nil]
  | cons packet rest =>
    have hpacket := hpackets packet (List.mem_append_right _ List.mem_cons_self)
    rw [List.flatMap_cons] at hrest
    rcases hpart with hnil | ⟨nbytes, remain, ⟨-, -, hremain⟩, hpos⟩
    · rw [hnil] at hrest
      exact absurd (List.append_eq_nil_iff.mp hrest.symm).1 (frame_countPrefix_ne_nil packet)
    · have hcount : countOf (frame .countPrefix packet ++ rest.flatMap (frame .countPrefix)) =
          packet.length := countOf_frame hpacket
      have hlength := congrArg List.length hrest
      rw [← hrest] at hcount
      rw [List.length_append, length_frame_countPrefix] at hlength
      omega

theorem delivered_slip {maxlen : ℕ} (h : Settled .slip received delivered)
    (hpart : octets = [] ∨
      ∃ nbytes remain, PartOfPacket .slip maxlen octets nbytes remain ∧ 0 < remain)
    (hpackets : ∀ packet ∈ packets, packet ≠ [])
    (hstream : received ++ octets ++ coming = packets.flatMap (frame .slip)) :
    delivered <+: packets ∧ (coming = [] → delivered = packets) := by
  have hreceived : Slip.cut ([], []) received = (delivered.map Slip.escape, []) := h
  have hcut := Slip.cut_encode hpackets (s := ([], [])) rfl
  have hframe : packets.flatMap Slip.encode = packets.flatMap (frame .slip) := rfl
  rw [hframe, ← hstream, List.append_assoc, Slip.cut_append, hreceived, List.nil_append] at hcut
  constructor
  · apply Slip.prefix_of_map_escape
    have hstart := Slip.cut_packets (delivered.map Slip.escape, []) (octets ++ coming)
    rw [hcut] at hstart
    exact hstart
  · rintro rfl
    have hnone : (Slip.cut ([], []) octets).1 = [] := by
      rcases hpart with rfl | ⟨nbytes, remain, ⟨hnone, -⟩, -⟩
      · rfl
      · exact hnone
    have hshift := Slip.cut_shift (s := ([], [])) (delivered.map Slip.escape) octets
    rw [List.append_nil] at hcut hshift
    rw [hshift, hnone, List.append_nil] at hcut
    exact (List.map_inj_right fun _ _ heq => Slip.escape_injective heq).mp (congrArg Prod.fst hcut)

end Streams

/-- If the octets of each call are those of one packet, the packets of each connection are
delivered in their order, and all of them when the connection has given the whole stream. -/
theorem delivered_of_run {framing : Framing} {maxlen : ℕ} {w : World}
    (h : Run framing maxlen (WholePackets framing maxlen) w) (hframing : framing ≠ .none) (i : ℕ)
    {packets : List (List Octet)} {coming : List Octet}
    (hpackets : ∀ packet ∈ packets, packet ≠ [] ∧ packet.length < 0x100000000)
    (hstream : w.received i ++ coming = packets.flatMap (frame framing)) :
    w.delivered i <+: packets ∧ (coming = [] → w.delivered i = packets) := by
  obtain ⟨before, octets, hreceived, hsettled, hpart⟩ := h.inv.split i
  rw [hreceived] at hstream
  cases framing with
  | none => exact absurd rfl hframing
  | countPrefix =>
    exact delivered_countPrefix hsettled hpart (fun packet hp => (hpackets packet hp).2) hstream
  | slip =>
    exact delivered_slip hsettled hpart (fun packet hp => (hpackets packet hp).1) hstream

section TwoPackets

def simpleMessage (b : Octet) : List Octet := [0x2f, b, 0, 0, 0x2c, 0, 0, 0]

def waitingServer : Receiver where
  o := { maxfd := 4, servfd := 3, lastfd := -1, count := 1, fds := {3, 4} }
  buf := fun _ => 0
  nbytes := 0
  control := .select

def waiting : World := ⟨waitingServer, fun _ => [], fun _ => []⟩

def twoPackets : List (List Octet) := [simpleMessage 0x61, simpleMessage 0x62]

section Answers

variable {framing : Framing} {maxlen : ℕ} {meets : Receiver → Answer → Prop} {w : World} {a : Answer}

abbrev World.answered (framing : Framing) (maxlen : ℕ) (w : World) (a : Answer)
    (h : (w.next framing maxlen a).isSome = true) : World :=
  (w.next framing maxlen a).get h

theorem Run.answered (h : Run framing maxlen meets w) (hpossible : Possible maxlen w.receiver a)
    (hmeets : meets w.receiver a) (hnext : (w.next framing maxlen a).isSome = true) :
    Run framing maxlen meets (w.answered framing maxlen a hnext) :=
  h.step hpossible hmeets (Option.some_get hnext).symm

theorem possible_readable (maxlen : ℕ) (r : Receiver) : Possible maxlen r .readable := by
  obtain ⟨o, buf, nbytes, control⟩ := r
  cases control <;> trivial

theorem wholePackets_readable (framing : Framing) (maxlen : ℕ) (r : Receiver) :
    WholePackets framing maxlen r .readable := by
  obtain ⟨o, buf, nbytes, control⟩ := r
  cases control <;> trivial

end Answers

/-- Two packets are in the result of a single `recv`: the second one is lost. -/
theorem not_delivered_twoPackets :
    ¬ ∀ w, Run .countPrefix 1480 (fun _ _ => True) w → ∀ i packets coming,
      (∀ packet ∈ packets, packet ≠ [] ∧ packet.length < 0x100000000) →
      w.received i ++ coming = packets.flatMap (frame .countPrefix) →
      w.delivered i <+: packets ∧ (coming = [] → w.delivered i = packets) := by
  intro h
  have hwaiting : Run .countPrefix 1480 (fun _ _ => True) waiting := .start rfl rfl
  have hready : ({4} : Finset ℕ) ⊆ {3, 4} := by decide
  have hselected := @Run.answered _ _ _ _ (.ready {4}) hwaiting hready trivial rfl
  have hlength : (twoPackets.flatMap (frame .countPrefix)).length ≤ 1480 := by decide
  have hreceived := @Run.answered _ _ _ _ (.octets _) hselected hlength trivial (by decide +kernel)
  have hall := h _ hreceived 4 twoPackets [] (by decide) (by decide +kernel)
  exact absurd (hall.2 rfl) (by decide +kernel)

theorem delivered_of_run_twoParts :
    ∃ w, Run .countPrefix 1480 (WholePackets .countPrefix 1480) w ∧ w.delivered 4 =
      [simpleMessage 0x61] := by
  let octets := frame .countPrefix (simpleMessage 0x61)
  have hwaiting : Run .countPrefix 1480 (WholePackets .countPrefix 1480) waiting := .start rfl rfl
  have hready : ({4} : Finset ℕ) ⊆ {3, 4} := by decide
  have hselected := @Run.answered _ _ _ _ (.ready {4}) hwaiting hready trivial rfl
  have hfirst : (octets.take 7).length ≤ 1480 := by decide
  have hmeets : CountMeets 1480 (octets.take 7) :=
    ⟨by decide, by decide, by decide, by decide, by decide⟩
  have hpart := @Run.answered _ _ _ _ (.octets (octets.take 7)) hselected hfirst
    (.inr (.inl ⟨rfl, hmeets⟩)) (by decide +kernel)
  have hpolled := hpart.answered (possible_readable 1480 _)
    (wholePackets_readable .countPrefix 1480 _) (by decide +kernel)
  have hrest : ∀ w : World, w.receiver.control = .recvMore 4 [] 7 5 →
      Possible 1480 w.receiver (.octets (octets.drop 7)) ∧
        WholePackets .countPrefix 1480 w.receiver (.octets (octets.drop 7)) := by
    intro w hw
    simp only [Possible, WholePackets, hw]
    exact ⟨by decide, by decide, nofun⟩
  have hreceived := hpolled.answered (hrest _ (by decide +kernel)).1 (hrest _ (by decide +kernel)).2
    (by decide +kernel)
  have hall := @delivered_of_run _ _ _ hreceived (by decide) 4 [simpleMessage 0x61] []
    (by decide) (by decide +kernel)
  exact ⟨_, hreceived, hall.2 rfl⟩

end TwoPackets

end Incudine.Osc
