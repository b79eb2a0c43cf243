import Mathlib.Data.List.Basic

/-!
# Serial Line IP

The escapes of the framing of packets over serial lines, and the packets of a stream of octets.
-/

namespace Incudine.Slip

def endOctet : UInt8 := 0xc0

def esc : UInt8 := 0xdb

def escEnd : UInt8 := 0xdc

def escEsc : UInt8 := 0xdd

def escapeOctet (b : UInt8) : List UInt8 :=
  if b = endOctet then [esc, escEnd] else if b = esc then [esc, escEsc] else [b]

def escape (packet : List UInt8) : List UInt8 := packet.flatMap escapeOctet

def unescapeOctet (b : UInt8) : List UInt8 :=
  if b = escEnd then [endOctet] else if b = escEsc then [esc] else []

def unescape : List UInt8 → List UInt8
  | [] => []
  | [b] => if b = esc then [] else [b]
  | b :: c :: bs =>
    if b = esc then unescapeOctet c ++ unescape bs else b :: unescape (c :: bs)

variable {packet : List UInt8}

section Escape

@[simp] theorem escape_nil : escape [] = [] := rfl

theorem escape_cons (b : UInt8) (packet : List UInt8) :
    escape (b :: packet) = escapeOctet b ++ escape packet := rfl

theorem unescape_cons {b : UInt8} (h : b ≠ esc) (bs : List UInt8) :
    unescape (b :: bs) = b :: unescape bs := by
  cases bs with
  | nil => exact if_neg h
  | cons c bs => rw [unescape, if_neg h]

theorem unescape_escapeOctet (b : UInt8) (bs : List UInt8) :
    unescape (escapeOctet b ++ bs) = b :: unescape bs := by
  rw [escapeOctet]
  by_cases hend : b = endOctet
  · rw [if_pos hend, hend]
    rfl
  · rw [if_neg hend]
    by_cases hesc : b = esc
    · rw [if_pos hesc, hesc]
      rfl
    · rw [if_neg hesc]
      exact unescape_cons hesc bs

theorem unescape_escape (packet : List UInt8) : unescape (escape packet) = packet := by
  induction packet with
  | nil => rfl
  | cons b packet ih => rw [escape_cons, unescape_escapeOctet, ih]

theorem escape_injective : Function.Injective escape :=
  Function.LeftInverse.injective unescape_escape

theorem endOctet_notMem_escapeOctet (b : UInt8) : endOctet ∉ escapeOctet b := by
  rw [escapeOctet]
  by_cases hend : b = endOctet
  · rw [if_pos hend]
    decide
  · rw [if_neg hend]
    by_cases hesc : b = esc
    · rw [if_pos hesc]
      decide
    · rw [if_neg hesc, List.mem_singleton]
      exact fun h => hend h.symm

theorem endOctet_notMem_escape (packet : List UInt8) : endOctet ∉ escape packet := by
  intro h
  obtain ⟨b, -, hb⟩ := List.mem_flatMap.mp h
  exact endOctet_notMem_escapeOctet b hb

theorem escape_ne_nil (h : packet ≠ []) : escape packet ≠ [] := by
  intro hnil
  apply h
  rw [← unescape_escape packet, hnil]
  rfl

end Escape

/-- An octet ends the current packet, if it is not empty, or goes to its end. -/
def cutStep (s : List (List UInt8) × List UInt8) (b : UInt8) : List (List UInt8) × List UInt8 :=
  if b = endOctet then (if s.2 = [] then s else (s.1 ++ [s.2], [])) else (s.1, s.2 ++ [b])

/-- The escaped packets of a stream and the octets of the one that has not ended. -/
def cut (s : List (List UInt8) × List UInt8) (bs : List UInt8) :
    List (List UInt8) × List UInt8 :=
  bs.foldl cutStep s

section Cut

variable {s : List (List UInt8) × List UInt8} {bs : List UInt8}

theorem cut_append (s : List (List UInt8) × List UInt8) (bs cs : List UInt8) :
    cut s (bs ++ cs) = cut (cut s bs) cs :=
  List.foldl_append

theorem cutStep_packets (s : List (List UInt8) × List UInt8) (b : UInt8) :
    s.1 <+: (cutStep s b).1 := by
  rw [cutStep]
  split
  · split
    · exact List.prefix_rfl
    · exact List.prefix_append _ _
  · exact List.prefix_rfl

theorem cut_packets (s : List (List UInt8) × List UInt8) (bs : List UInt8) :
    s.1 <+: (cut s bs).1 := by
  induction bs generalizing s with
  | nil => exact List.prefix_rfl
  | cons b bs ih =>
    have hstep := cutStep_packets s b
    exact hstep.trans (ih (cutStep s b))

theorem cut_shift (packets : List (List UInt8)) (bs : List UInt8) :
    cut (packets ++ s.1, s.2) bs = (packets ++ (cut s bs).1, (cut s bs).2) := by
  induction bs generalizing s with
  | nil => rfl
  | cons b bs ih =>
    have hstep : cutStep (packets ++ s.1, s.2) b =
        (packets ++ (cutStep s b).1, (cutStep s b).2) := by
      simp only [cutStep]
      split
      · split
        · rfl
        · simp only [List.append_assoc]
      · rfl
    rw [cut, List.foldl_cons, hstep]
    exact ih

theorem cut_notMem (h : endOctet ∉ bs) : cut s bs = (s.1, s.2 ++ bs) := by
  induction bs generalizing s with
  | nil =>
    rw [List.append_nil]
    rfl
  | cons b bs ih =>
    rw [List.mem_cons, not_or] at h
    have hstep : cutStep s b = (s.1, s.2 ++ [b]) := if_neg fun hb => h.1 hb.symm
    rw [cut, List.foldl_cons, hstep]
    exact (ih h.2).trans (by rw [List.append_assoc]; rfl)

theorem cut_ends (h : s.2 = []) (hends : ∀ b ∈ bs, b = endOctet) : cut s bs = s := by
  induction bs with
  | nil => rfl
  | cons b bs ih =>
    have hstep : cutStep s b = s := by
      rw [cutStep, if_pos (hends b List.mem_cons_self), if_pos h]
    rw [cut, List.foldl_cons, hstep]
    exact ih fun c hc => hends c (List.mem_cons_of_mem _ hc)

theorem cut_escape (h : s.2 = []) (hpacket : packet ≠ []) :
    cut s (escape packet ++ [endOctet]) = (s.1 ++ [escape packet], []) := by
  rw [cut_append, cut_notMem (endOctet_notMem_escape packet), h, List.nil_append]
  have hne : escape packet ≠ [] := escape_ne_nil hpacket
  show cutStep (s.1, escape packet) endOctet = _
  rw [cutStep, if_pos rfl, if_neg hne]

end Cut

def OnePacket (packet octets : List UInt8) : Prop :=
  packet ≠ [] ∧ ∃ before after, octets = before ++ (escape packet ++ endOctet :: after) ∧
    (before = [] ∨ before = [endOctet]) ∧ ∀ b ∈ after, b = endOctet

theorem OnePacket.cut_eq {octets : List UInt8} (h : OnePacket packet octets)
    {s : List (List UInt8) × List UInt8} (hs : s.2 = []) :
    cut s octets = (s.1 ++ [escape packet], []) := by
  obtain ⟨hpacket, before, after, rfl, hbefore, hafter⟩ := h
  have hends : ∀ b ∈ before, b = endOctet := by
    rcases hbefore with rfl | rfl
    · exact fun b hb => nomatch hb
    · exact fun b hb => List.mem_singleton.mp hb
  rw [cut_append, cut_ends hs hends, List.append_cons, cut_append, cut_escape hs hpacket]
  exact cut_ends rfl hafter

/-- A packet with an end octet on both sides. -/
def encode (packet : List UInt8) : List UInt8 := endOctet :: (escape packet ++ [endOctet])

theorem onePacket_encode (h : packet ≠ []) : OnePacket packet (encode packet) :=
  ⟨h, [endOctet], [], rfl, Or.inr rfl, fun _ hb => nomatch hb⟩

theorem cut_encode {packets : List (List UInt8)} (h : ∀ p ∈ packets, p ≠ [])
    {s : List (List UInt8) × List UInt8} (hs : s.2 = []) :
    cut s (packets.flatMap encode) = (s.1 ++ packets.map escape, []) := by
  induction packets generalizing s with
  | nil =>
    rw [List.map_nil, List.append_nil, ← hs]
    rfl
  | cons p packets ih =>
    rw [List.flatMap_cons, cut_append, (onePacket_encode (h p List.mem_cons_self)).cut_eq hs,
      ih (fun q hq => h q (List.mem_cons_of_mem _ hq)) rfl, List.map_cons, List.append_assoc]
    rfl

theorem prefix_of_map_escape {packets packets' : List (List UInt8)}
    (h : packets.map escape <+: packets'.map escape) : packets <+: packets' := by
  obtain ⟨rest, hrest⟩ := h
  obtain ⟨first, later, rfl, hfirst, -⟩ := List.map_eq_append_iff.mp hrest.symm
  rw [(List.map_inj_right fun _ _ heq => escape_injective heq).mp hfirst]
  exact List.prefix_append _ _

end Incudine.Slip
