import Incudine.MidifileRoundTrip

/-!
# The data of a track chunk

A parser of the events in the data of a track chunk, with running status for the channel messages
only, and the octets that it takes for a list of events.
-/

namespace Incudine.Midifile

open Octets Signals OutputStream

/-- An event of a track: the delta time and the message with its status byte. -/
structure WrittenEvent where
  delta : ℕ
  message : List Octet
  deriving Repr, DecidableEq

def endMessage : List Octet := [0xff, 0x2f, 0x00]

section Parser

/-- The octets of a variable length quantity, and the octets after it. -/
def splitQuantity : List Octet → Option (List Octet × List Octet)
  | [] => none
  | b :: bs =>
    if b < 0x80 then some ([b], bs)
    else (splitQuantity bs).map fun p => (b :: p.1, p.2)

def splitOctets (n : ℕ) (octets : List Octet) : Option (List Octet × List Octet) :=
  if n ≤ octets.length then some (octets.take n, octets.drop n) else none

/-- The length and the data of a meta event or of a system exclusive message. -/
def parseData (octets : List Octet) : Option (List Octet × List Octet) := do
  let (length, rest) ← splitQuantity octets
  let (data, rest) ← splitOctets (quantity length) rest
  return (length ++ data, rest)

def dataBytes (status : Octet) : ℕ :=
  if 0xc0 ≤ status ∧ status < 0xe0 then 1 else 2

def parseChannel (status : Octet) (octets : List Octet) : Option (List Octet × List Octet) := do
  let (data, rest) ← splitOctets (dataBytes status) octets
  return (status :: data, rest)

def parseMeta : List Octet → Option (List Octet × List Octet)
  | [] => none
  | type :: octets => do
    let (data, rest) ← parseData octets
    return (0xff :: type :: data, rest)

def parseSysex (status : Octet) (octets : List Octet) : Option (List Octet × List Octet) := do
  let (data, rest) ← parseData octets
  return (status :: data, rest)

/-- A message, which can omit its status byte if there is a running status. -/
def parseMessage (running : Option Octet) : List Octet → Option (List Octet × List Octet)
  | [] => none
  | octet :: octets =>
    if octet < 0x80 then running.bind fun status => parseChannel status (octet :: octets)
    else if octet < 0xf0 then parseChannel octet octets
    else if octet = 0xff then parseMeta octets
    else if octet = 0xf0 ∨ octet = 0xf7 then parseSysex octet octets
    else none

def runningStatus (message : List Octet) : Option Octet :=
  message.head?.filter fun status => status < 0xf0

def parseEvents : ℕ → Option Octet → List Octet → Option (List WrittenEvent)
  | _, _, [] => some []
  | 0, _, _ :: _ => none
  | fuel + 1, running, octets => do
    let (delta, octets) ← splitQuantity octets
    let (message, octets) ← parseMessage running octets
    let events ← parseEvents fuel (runningStatus message) octets
    return { delta := quantity delta, message } :: events

def parseTrack (data : List Octet) : Option (List WrittenEvent) :=
  parseEvents data.length none data

end Parser

variable {octets : List Octet} {running : Option Octet}

section Messages

variable {rest : List Octet}

theorem splitQuantity_append (h : Delimited octets) (rest : List Octet) :
    splitQuantity (octets ++ rest) = some (octets, rest) := by
  induction octets with
  | nil => exact h.elim
  | cons b bs ih =>
    rw [List.cons_append, splitQuantity]
    cases bs with
    | nil =>
      have hb : b < 0x80 := UInt8.lt_iff_toNat_lt.mpr h
      rw [if_pos hb, List.nil_append]
    | cons c cs =>
      have hb : ¬ b < 0x80 := fun hlt => Nat.not_lt.mpr h.1 (UInt8.lt_iff_toNat_lt.mp hlt)
      rw [if_neg hb, ih h.2, Option.map_some]

theorem splitOctets_append (octets : List Octet) :
    splitOctets octets.length (octets ++ rest) = some (octets, rest) := by
  have hle : octets.length ≤ (octets ++ rest).length := by simp
  rw [splitOctets, if_pos hle, List.take_left, List.drop_left]

theorem parseData_append {length data : List Octet} (h : Delimited length)
    (hlength : quantity length = data.length) :
    parseData (length ++ data ++ rest) = some (length ++ data, rest) := by
  rw [parseData, List.append_assoc, splitQuantity_append h]
  simp [hlength, splitOctets_append]

theorem parseChannel_append {status : Octet} {data : List Octet}
    (h : data.length = dataBytes status) :
    parseChannel status (data ++ rest) = some (status :: data, rest) := by
  rw [parseChannel, ← h, splitOctets_append]
  rfl

/-- A channel message, a meta event or a system exclusive message. -/
inductive Parsable : List Octet → Prop
  | channel (status : Octet) (data : List Octet) :
      0x80 ≤ status.toNat → status.toNat < 0xf0 → data.length = dataBytes status →
      (∀ b ∈ data.head?, b.toNat < 0x80) → Parsable (status :: data)
  | metaEvent (type : Octet) (length data : List Octet) :
      Delimited length → quantity length = data.length →
      Parsable (0xff :: type :: (length ++ data))
  | sysex (status : Octet) (length data : List Octet) :
      status = 0xf0 ∨ status = 0xf7 → Delimited length → quantity length = data.length →
      Parsable (status :: (length ++ data))

theorem parsable_endMessage : Parsable endMessage :=
  .metaEvent 0x2f [0x00] [] (show (0x00 : Octet).toNat < 0x80 by decide) rfl

theorem Complete.parsable {message : List Octet} (h : Complete message) : Parsable message := by
  cases h with
  | twoBytes status data hlow hhigh hdata =>
    have hbytes : dataBytes status = 1 := by
      have hle : 0xc0 ≤ status := UInt8.le_iff_toNat_le.mpr hlow
      have hlt : status < 0xe0 := UInt8.lt_iff_toNat_lt.mpr (Nat.lt_succ_of_le hhigh)
      rw [dataBytes, if_pos ⟨hle, hlt⟩]
    refine .channel status [data] (by omega) (by omega) hbytes.symm ?_
    rintro b ⟨⟩
    exact hdata
  | threeBytes status data1 data2 hstatus hdata =>
    have hbytes : dataBytes status = 2 := by
      have hnot : ¬ (0xc0 ≤ status ∧ status < 0xe0) := by
        rintro ⟨hle, hlt⟩
        have hlow : 0xc0 ≤ status.toNat := UInt8.le_iff_toNat_le.mp hle
        have hhigh : status.toNat < 0xe0 := UInt8.lt_iff_toNat_lt.mp hlt
        omega
      rw [dataBytes, if_neg hnot]
    refine .channel status [data1, data2] (by omega) (by omega) hbytes.symm ?_
    rintro b ⟨⟩
    exact hdata
  | metaEvent type length data _ hlength hquantity =>
    exact .metaEvent type length data hlength hquantity
  | sysex status length data hstatus hlength hquantity =>
    exact .sysex status length data hstatus hlength hquantity

theorem Parsable.status_ge {message : List Octet} (h : Parsable message) :
    0x80 ≤ (message.headD 0).toNat := by
  cases h with
  | channel status data hlow => exact hlow
  | metaEvent type length data => exact (by decide : 0x80 ≤ (0xff : Octet).toNat)
  | sysex status length data hstatus =>
    rcases hstatus with rfl | rfl
    · exact (by decide : 0x80 ≤ (0xf0 : Octet).toNat)
    · exact (by decide : 0x80 ≤ (0xf7 : Octet).toNat)

theorem parseMessage_append {omitted : Bool} {message : List Octet} (h : Parsable message)
    (hrunning : omitted = true → running = some (message.headD 0) ∧ (message.headD 0).toNat < 0xf0) :
    parseMessage running (messageOctets omitted message ++ rest) = some (message, rest) := by
  cases h with
  | channel status data hlow hhigh hlength hdata =>
    have hge : ¬ status < 0x80 := fun hlt => Nat.not_lt.mpr hlow (UInt8.lt_iff_toNat_lt.mp hlt)
    have hlt : status < 0xf0 := UInt8.lt_iff_toNat_lt.mpr hhigh
    cases omitted with
    | false =>
      rw [messageOctets, if_neg Bool.false_ne_true, List.cons_append, parseMessage, if_neg hge,
        if_pos hlt, parseChannel_append hlength]
    | true =>
      obtain ⟨hstatus, -⟩ := hrunning rfl
      rw [messageOctets, if_pos rfl, hstatus]
      cases data with
      | nil =>
        have hpos : 0 < dataBytes status := by
          rw [dataBytes]
          split
          · exact Nat.one_pos
          · exact Nat.two_pos
        exact absurd hlength hpos.ne
      | cons b bs =>
        have hb : b < 0x80 := UInt8.lt_iff_toNat_lt.mpr (hdata b rfl)
        rw [List.tail_cons, List.cons_append, parseMessage, if_pos hb]
        exact parseChannel_append hlength
  | metaEvent type length data hlength hquantity =>
    have homitted : omitted = false := by
      cases omitted with
      | false => rfl
      | true => exact absurd (hrunning rfl).2 (by simp)
    rw [homitted, messageOctets, if_neg Bool.false_ne_true, List.cons_append, List.cons_append,
      parseMessage, if_neg (by decide), if_neg (by decide), if_pos rfl, parseMeta,
      parseData_append hlength hquantity]
    rfl
  | sysex status length data hstatus hlength hquantity =>
    have homitted : omitted = false := by
      cases omitted with
      | false => rfl
      | true =>
        have hchannel := (hrunning rfl).2
        rcases hstatus with rfl | rfl
        · exact absurd hchannel (by simp)
        · exact absurd hchannel (by simp)
    rw [homitted, messageOctets, if_neg Bool.false_ne_true, List.cons_append, parseMessage]
    rcases hstatus with rfl | rfl
    · rw [if_neg (by decide), if_neg (by decide), if_neg (by decide), if_pos (.inl rfl),
        parseSysex, parseData_append hlength hquantity]
      rfl
    · rw [if_neg (by decide), if_neg (by decide), if_neg (by decide), if_pos (.inr rfl),
        parseSysex, parseData_append hlength hquantity]
      rfl

end Messages

section Events

/-- The octets hold the events, for a parser with a running status at the start and another one
at the end. -/
inductive Holds : Option Octet → List Octet → List WrittenEvent → Option Octet → Prop
  | nil (running : Option Octet) : Holds running [] [] running
  | snoc {running running' : Option Octet} {octets : List Octet} {events : List WrittenEvent}
      (delta : ℕ) (omitted : Bool) (message : List Octet) :
      Holds running octets events running' → Parsable message →
      (omitted = true →
        running' = some (message.headD 0) ∧ (message.headD 0).toNat < 0xf0) →
      Holds running (octets ++ eventOctets delta omitted message)
        (events ++ [⟨delta, message⟩]) (runningStatus message)

theorem parseEvents_nil (fuel : ℕ) (running : Option Octet) :
    parseEvents fuel running [] = some [] := by
  cases fuel with
  | zero => rfl
  | succ fuel => rfl

theorem parseEvents_append {running' : Option Octet} {events : List WrittenEvent}
    (h : Holds running octets events running') (fuel : ℕ) (rest : List Octet) :
    parseEvents (events.length + fuel) running (octets ++ rest) =
      (parseEvents fuel running' rest).map (events ++ ·) := by
  induction h generalizing fuel rest with
  | nil => simp
  | @snoc running' octets events delta omitted message _ hmessage homitted ih =>
    have hfuel : (events ++ [WrittenEvent.mk delta message]).length + fuel =
        events.length + (fuel + 1) := by
      simp [Nat.add_assoc, Nat.add_comm 1 fuel]
    rw [hfuel, List.append_assoc, ih]
    obtain ⟨b, bs, hencode⟩ := List.exists_cons_of_length_pos (delimited_encode delta).length_pos
    have hsplit := splitQuantity_append (delimited_encode delta)
      (messageOctets omitted message ++ rest)
    rw [eventOctets, List.append_assoc]
    rw [hencode] at hsplit ⊢
    rw [List.cons_append] at hsplit ⊢
    rw [parseEvents, hsplit]
    swap
    · exact List.cons_ne_nil b _
    have hquantity : quantity (b :: bs) = delta := by rw [← hencode, quantity_encode]
    simp only [Option.bind_eq_bind, Option.bind_some, parseMessage_append hmessage homitted,
      hquantity]
    cases parseEvents fuel (runningStatus message) rest with
    | none => rfl
    | some events' => simp

theorem Holds.length_le {running' : Option Octet} {events : List WrittenEvent}
    (h : Holds running octets events running') : events.length ≤ octets.length := by
  induction h with
  | nil => exact le_rfl
  | @snoc running' octets events delta omitted message _ _ _ ih =>
    have hpos := (delimited_encode delta).length_pos
    rw [List.length_append, List.length_append, eventOctets, List.length_append,
      List.length_singleton]
    omega

theorem Holds.parseTrack {events : List WrittenEvent} (h : Holds none octets events running) :
    Midifile.parseTrack octets = some events := by
  obtain ⟨fuel, hfuel⟩ := Nat.exists_eq_add_of_le h.length_le
  have hparse := parseEvents_append h fuel []
  rwa [List.append_nil, ← hfuel, parseEvents_nil, Option.map_some, List.append_nil] at hparse

end Events

end Incudine.Midifile
