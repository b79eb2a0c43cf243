import Incudine.OscMessage
import Incudine.Slip

/-!
# The receiver of OSC packets

`osc_recv` waits with `select` for the octets of the connections and puts the packets together
in one buffer. A step of the receiver is the answer of the system to the call it waits for.
-/

namespace Incudine.Osc

open Octets

inductive Framing
  | slip
  | countPrefix
  | none
  deriving Repr, DecidableEq

def slipEnd : Octet := 0o300

def slipEsc : Octet := 0o333

def slipEscEnd : Octet := 0o334

def slipEscEsc : Octet := 0o335

def oscSlipEncode (src : List Octet) : List Octet :=
  slipEnd :: (src.flatMap (fun b =>
    if b = slipEnd then [slipEsc, slipEscEnd]
    else if b = slipEsc then [slipEsc, slipEscEsc] else [b]) ++ [slipEnd])

def slipEscaped (b : Octet) : List Octet :=
  if b = slipEscEnd then [slipEnd] else if b = slipEscEsc then [slipEsc] else []

/-- The loop of `osc_slip_decode`; `first` is true at the start of the buffer and `beyond` is the
octet after its end. -/
def slipDecodeLoop (beyond : Octet) : Bool → List Octet → List Octet
  | _, [] => []
  | _, [b] =>
    if b = slipEnd then []
    else if b = slipEsc then slipEscaped beyond else [b]
  | first, b :: c :: bs =>
    if b = slipEnd then (if first then slipDecodeLoop beyond false (c :: bs) else [])
    else if b = slipEsc then slipEscaped c ++ slipDecodeLoop beyond false bs
    else b :: slipDecodeLoop beyond false (c :: bs)

def oscSlipDecode (buf : List Octet) (beyond : Octet) : List Octet :=
  slipDecodeLoop beyond true buf

def isSlipMsg (buf : List Octet) : Bool := slipEnd ∈ buf.drop 1

def frame : Framing → List Octet → List Octet
  | .slip, packet => oscSlipEncode packet
  | .countPrefix, packet => bigEndian 4 packet.length ++ packet
  | .none, packet => packet

def Memory.octets (mem : Memory) (n : ℕ) : List Octet := mem.read 0 n

/-- `htonl(*((uint32_t *) data))`. -/
def Memory.count (mem : Memory) : ℕ := ofBigEndian (mem.octets 4)

def OSC_MSGTOOLONG : ℤ := -2

def OSC_BADMSG : ℤ := -3

structure Fds where
  maxfd : ℕ
  servfd : ℕ
  lastfd : ℤ
  count : ℤ
  fds : Finset ℕ

/-- The calls that `osc_recv` waits for. `loop` are the file descriptors that `FD_LOOP` has not
visited, `data` is an index of the buffer. -/
inductive Control
  | select
  | accept (loop : List ℕ)
  | recv (i : ℕ) (loop : List ℕ)
  | poll (i : ℕ) (loop : List ℕ) (data ret remain : ℤ)
  | recvMore (i : ℕ) (loop : List ℕ) (data remain : ℤ)
  deriving DecidableEq

structure Receiver where
  o : Fds
  buf : Memory
  nbytes : ℤ
  control : Control

/-- The answer of the system to a call: `ready`, `timeout` and `readable`, `notReadable` to
`select`, `octets` (none at the end of the connection) to `recv`. -/
inductive Answer
  | ready (fds : Finset ℕ)
  | timeout
  | accepted (client : ℕ)
  | octets (l : List Octet)
  | readable
  | notReadable
  | failed

/-- The receiver and the value that `osc_recv` returns, if it does. -/
abbrev Outcome := Receiver × Option ℤ

namespace Receiver

/-- `osc_recv` returns and is called again. -/
def finish (r : Receiver) (value : ℤ) : Outcome :=
  ({ r with nbytes := 0, control := .select }, some value)

def fdLoop (r : Receiver) : List ℕ → Outcome
  | [] => if r.nbytes < 0 then r.finish r.nbytes else ({ r with control := .select }, none)
  | i :: loop =>
    if i = r.o.servfd then fdLoop r loop else ({ r with control := .recv i loop }, none)

def remainLoop (r : Receiver) (i : ℕ) (loop : List ℕ) (data ret remain : ℤ) : Outcome :=
  if 0 < remain then ({ r with control := .poll i loop data ret remain }, none)
  else if 0 < r.nbytes then r.finish r.nbytes
  else r.fdLoop loop

def firstOctets (framing : Framing) (maxlen : ℕ) (r : Receiver) (i : ℕ) (loop : List ℕ)
    (l : List Octet) (ret : ℤ) : Outcome :=
  let r := { r with o := { r.o with lastfd := i }, buf := r.buf.store 0 l }
  match framing with
  | .slip =>
    if isSlipMsg l then r.finish ret
    else remainLoop { r with nbytes := toInt maxlen } i loop 0 ret (toInt maxlen - ret)
  | .countPrefix =>
    let nbytes := r.buf.count
    if (maxlen + 0xfffffffc) % 0x100000000 < nbytes then
      remainLoop { r with nbytes := OSC_MSGTOOLONG } i loop 0 ret (toInt maxlen - ret)
    else remainLoop { r with nbytes := toInt nbytes } i loop 0 ret (toInt nbytes + 4 - ret)
  | .none => r.finish ret

def closed (r : Receiver) (i : ℕ) (loop : List ℕ) : Outcome :=
  let count := r.o.count - 1
  let o := { r.o with
    fds := r.o.fds.erase i
    lastfd := if r.o.lastfd = i then -1 else r.o.lastfd
    count := count }
  if count = 0 then fdLoop { r with o := { o with maxfd := o.servfd } } []
  else fdLoop { r with o := o } loop

/-- An error or the end of the connection in a packet. -/
def badMsg (r : Receiver) (i : ℕ) (loop : List ℕ) : Outcome :=
  let count := r.o.count - 1
  let o := { r.o with
    lastfd := if r.o.lastfd = i then -1 else r.o.lastfd
    count := count }
  fdLoop { r with
    o := if count = 0 then { o with maxfd := o.servfd } else o
    nbytes := OSC_BADMSG } loop

/-- The octets of another `recv` for the same packet. -/
def moreOctets (framing : Framing) (r : Receiver) (i : ℕ) (loop : List ℕ) (data remain : ℤ)
    (l : List Octet) : Outcome :=
  let r := { r with buf := r.buf.store data l }
  let remain := remain - l.length
  match framing with
  | .slip =>
    if isSlipMsg l then r.finish (r.nbytes - remain)
    else if remain = 0 then
      remainLoop { r with nbytes := OSC_MSGTOOLONG } i loop data l.length remain
    else remainLoop r i loop data l.length remain
  | _ => remainLoop r i loop data l.length remain

/-- The file descriptors in the order of `FD_LOOP`. -/
def readyLoop (r : Receiver) (fds : Finset ℕ) : List ℕ :=
  (List.range (r.o.maxfd + 1)).filter (· ∈ fds)

/-- A step of the receiver, if the answer is one to the call it waits for. -/
def step (framing : Framing) (maxlen : ℕ) (r : Receiver) (a : Answer) : Option Outcome :=
  match r.control, a with
  | .select, .ready fds =>
    if r.o.servfd ∈ fds then some ({ r with control := .accept (r.readyLoop fds) }, none)
    else some (r.fdLoop (r.readyLoop fds))
  | .select, .timeout => some (r.finish 0)
  | .select, .failed => some (r.finish (-1))
  | .accept loop, .accepted client => some (fdLoop { r with o := { r.o with
      fds := insert client r.o.fds
      count := r.o.count + 1
      maxfd := max client r.o.maxfd } } loop)
  | .accept loop, .failed => some (r.fdLoop loop)
  | .recv i loop, .octets [] => some (r.closed i loop)
  | .recv i loop, .octets l => some (firstOctets framing maxlen r i loop l l.length)
  | .recv i loop, .failed => some (firstOctets framing maxlen r i loop [] (-1))
  | .poll i loop data ret remain, .readable =>
    some ({ r with control := .recvMore i loop (data + ret) remain }, none)
  | .poll _ loop _ _ _, .notReadable => some (fdLoop { r with nbytes := OSC_BADMSG } loop)
  | .poll _ loop _ _ _, .failed => some (fdLoop { r with nbytes := OSC_BADMSG } loop)
  | .recvMore i loop _ _, .octets [] => some (r.badMsg i loop)
  | .recvMore i loop data remain, .octets l => some (moreOctets framing r i loop data remain l)
  | .recvMore i loop _ _, .failed => some (r.badMsg i loop)
  | _, _ => none

end Receiver

/-- The packet in the buffer when `osc_recv` returns `value`. -/
def packetOf (framing : Framing) (buf : Memory) (value : ℕ) : List Octet :=
  match framing with
  | .slip => oscSlipDecode (buf.octets value) (buf value)
  | .countPrefix => (buf.octets (4 + value)).drop 4
  | .none => buf.octets value

/-- The receiver with the octets that each open connection has given and the packets that have
been delivered for it. -/
structure World where
  receiver : Receiver
  received : ℕ → List Octet
  delivered : ℕ → List (List Octet)

namespace World

/-- The octets that the connections have given after an answer. A new connection starts again. -/
def receivedAfter (w : World) (a : Answer) : ℕ → List Octet :=
  match w.receiver.control, a with
  | .accept _, .accepted client => Function.update w.received client []
  | .recv i _, .octets l => Function.update w.received i (w.received i ++ l)
  | .recvMore i _ _ _, .octets l => Function.update w.received i (w.received i ++ l)
  | _, _ => w.received

/-- The packets of the connections before the result of a step. -/
def deliveredBefore (w : World) (a : Answer) : ℕ → List (List Octet) :=
  match w.receiver.control, a with
  | .accept _, .accepted client => Function.update w.delivered client []
  | _, _ => w.delivered

/-- The caller finds a packet of the connection `lastfd` if the value is positive. -/
def deliver (framing : Framing) (outcome : Outcome) (delivered : ℕ → List (List Octet)) :
    ℕ → List (List Octet) :=
  match outcome.2 with
  | some value =>
    if 0 < value then
      let fd := outcome.1.o.lastfd.toNat
      Function.update delivered fd
        (delivered fd ++ [packetOf framing outcome.1.buf value.toNat])
    else delivered
  | none => delivered

def next (framing : Framing) (maxlen : ℕ) (w : World) (a : Answer) : Option World :=
  (w.receiver.step framing maxlen a).map fun outcome => {
    receiver := outcome.1
    received := w.receivedAfter a
    delivered := deliver framing outcome (w.deliveredBefore a) }

end World

def Possible (maxlen : ℕ) (r : Receiver) (a : Answer) : Prop :=
  match r.control, a with
  | .select, .ready fds => fds ⊆ r.o.fds
  | .accept _, .accepted client => client ∉ r.o.fds
  | .recv _ _, .octets l => l.length ≤ maxlen
  | .recvMore _ _ _ remain, .octets l => l.length ≤ remain
  | _, _ => True

/-- The runs of repeated calls of `osc_recv` whose answers meet a condition, with any number of
connections. -/
inductive Run (framing : Framing) (maxlen : ℕ) (meets : Receiver → Answer → Prop) :
    World → Prop
  | start {r : Receiver} (hcontrol : r.control = .select) (hnbytes : r.nbytes = 0) :
      Run framing maxlen meets ⟨r, fun _ => [], fun _ => []⟩
  | step {w w' : World} {a : Answer} (h : Run framing maxlen meets w)
      (hpossible : Possible maxlen w.receiver a) (hmeets : meets w.receiver a)
      (hnext : w.next framing maxlen a = some w') : Run framing maxlen meets w'

def countOf (octets : List Octet) : ℕ := ofBigEndian (octets.take 4)

/-- The octets after the first `recv` of a packet: at least the count, and not more than the
packet. -/
structure CountMeets (maxlen : ℕ) (octets : List Octet) : Prop where
  prefix_le : 4 ≤ octets.length
  pos : 0 < countOf octets
  fits : countOf octets + 4 ≤ maxlen
  length_le : octets.length ≤ 4 + countOf octets
  maxlen_lt : maxlen < 0x80000000

/-- The octets that a call has got after the last ones, `l`: the packet does not end, or it ends
with the end of `l` and not at the first octet of `l`. -/
def SlipMeets (maxlen : ℕ) (octets l : List Octet) : Prop :=
  maxlen < 0x80000000 ∧
    if isSlipMsg l then ∃ packet, Slip.OnePacket packet octets
    else (Slip.cut ([], []) octets).1 = [] ∧ octets.length < maxlen

/-- The octets of a call of `osc_recv` are those of one packet, and they are there when they are
asked for. -/
def WholePackets (framing : Framing) (maxlen : ℕ) (r : Receiver) (a : Answer) : Prop :=
  match r.control, a with
  | .recv _ _, .octets l =>
    l = [] ∨ (framing = .countPrefix ∧ CountMeets maxlen l ∨
      framing = .slip ∧ SlipMeets maxlen l l)
  | .recv _ _, .failed => False
  | .poll _ _ _ _ _, .notReadable => False
  | .poll _ _ _ _ _, .failed => False
  | .recvMore _ _ data _, .octets l =>
    l ≠ [] ∧ (framing = .slip → SlipMeets maxlen (r.buf.octets data.toNat ++ l) l)
  | .recvMore _ _ _ _, .failed => False
  | _, _ => True

section Framing

theorem oscSlipEncode_eq (packet : List Octet) : oscSlipEncode packet = Slip.encode packet := rfl

variable {beyond : Octet} {packet octets after : List Octet}

theorem slipDecodeLoop_escape (first : Bool) (hpacket : first = true → packet ≠ []) :
    slipDecodeLoop beyond first (Slip.escape packet ++ Slip.endOctet :: after) = packet := by
  induction packet generalizing first with
  | nil =>
    cases first with
    | true => exact absurd rfl (hpacket rfl)
    | false =>
      cases after with
      | nil => rfl
      | cons b after => rfl
  | cons b packet ih =>
    have hrest := ih false (fun h => nomatch h)
    rw [Slip.escape_cons, Slip.escapeOctet, List.append_assoc]
    by_cases hend : b = Slip.endOctet
    · rw [if_pos hend, hend]
      exact congrArg (slipEnd :: ·) hrest
    · rw [if_neg hend]
      by_cases hesc : b = Slip.esc
      · rw [if_pos hesc, hesc]
        exact congrArg (slipEsc :: ·) hrest
      · have hstep (c : Octet) (bs : List Octet) : slipDecodeLoop beyond first (b :: c :: bs) =
            b :: slipDecodeLoop beyond false (c :: bs) := by
          have hend' : ¬ b = slipEnd := hend
          have hesc' : ¬ b = slipEsc := hesc
          rw [slipDecodeLoop, if_neg hend', if_neg hesc']
        rw [if_neg hesc, List.singleton_append]
        cases hlist : Slip.escape packet ++ Slip.endOctet :: after with
        | nil => simp at hlist
        | cons c bs => rw [hstep, ← hlist, hrest]

theorem oscSlipDecode_onePacket (h : Slip.OnePacket packet octets) :
    oscSlipDecode octets beyond = packet := by
  obtain ⟨hpacket, before, after, rfl, hbefore, -⟩ := h
  rcases hbefore with rfl | rfl
  · exact slipDecodeLoop_escape true fun _ => hpacket
  · have hdecode : slipDecodeLoop beyond false (Slip.escape packet ++ Slip.endOctet :: after) =
        packet := slipDecodeLoop_escape false fun h => nomatch h
    cases hlist : Slip.escape packet ++ Slip.endOctet :: after with
    | nil => simp at hlist
    | cons c bs =>
      rw [hlist] at hdecode
      exact hdecode

theorem frame_countPrefix_eq (h : octets.length = 4 + countOf octets) :
    frame .countPrefix (octets.drop 4) = octets := by
  have hlength : (octets.take 4).length = 4 := by
    rw [List.length_take]
    omega
  have hcount : (octets.drop 4).length = ofBigEndian (octets.take 4) := by
    rw [List.length_drop, h]
    exact Nat.add_sub_cancel_left 4 _
  have hstart := bigEndian_ofBigEndian (octets.take 4)
  rw [hlength] at hstart
  rw [frame, hcount, hstart, List.take_append_drop]

theorem countOf_append (h : 4 ≤ octets.length) (l : List Octet) :
    countOf (octets ++ l) = countOf octets := by
  rw [countOf, List.take_append_of_le_length h, countOf]

theorem countOf_frame {packet rest : List Octet} (h : packet.length < 0x100000000) :
    countOf (frame .countPrefix packet ++ rest) = packet.length := by
  have hlength : 4 = (bigEndian 4 packet.length).length := (length_bigEndian 4 _).symm
  rw [countOf, frame, List.append_assoc, List.take_append_of_le_length hlength.le,
    List.take_of_length_le hlength.ge, ofBigEndian_bigEndian h]

theorem length_frame_countPrefix (packet : List Octet) :
    (frame .countPrefix packet).length = 4 + packet.length := by
  rw [frame, List.length_append, length_bigEndian]

end Framing

section Memory

variable (mem : Memory)

theorem Memory.take_octets {m n : ℕ} (h : m ≤ n) : (mem.octets n).take m = mem.octets m :=
  mem.take_read 0 h

theorem Memory.octets_store (n : ℕ) (l : List Octet) :
    Memory.octets (mem.store n l) (n + l.length) = mem.octets n ++ l := by
  have hread := mem.read_store 0 n l
  rw [zero_add] at hread
  exact hread

theorem Memory.octets_store_zero (l : List Octet) : Memory.octets (mem.store 0 l) l.length = l :=
  (mem.holds_store 0 l).read_eq

end Memory

end Incudine.Osc
