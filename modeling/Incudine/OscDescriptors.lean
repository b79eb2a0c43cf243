import Incudine.OscReceiver

/-!
# The descriptors of an OSC server

The set, the number and the maximum of the descriptors that `osc_recv` waits for, beside the
connections that are open in the system.
-/

namespace Incudine.Osc

def oscServerFds (servfd : ℕ) : Fds :=
  { maxfd := servfd
    servfd := servfd
    lastfd := -1
    count := 0
    fds := {servfd} }

/-- The descriptors that `osc_close_connections` closes. -/
def Fds.connections (o : Fds) : Finset ℕ := o.fds.filter fun i => i ≤ o.maxfd ∧ i ≠ o.servfd

def oscCloseConnections (o : Fds) : Fds :=
  { o with
    fds := {o.servfd}
    maxfd := o.servfd
    lastfd := -1
    count := 0 }

/-- The receiver with the connections that are open. `idle` is true between two calls of
`osc_recv`. -/
structure Sockets where
  receiver : Receiver
  opened : Finset ℕ
  idle : Bool

namespace Sockets

/-- The connections that are open after the answer to a call, and after what the receiver does
next. -/
def openedAfter (w : Sockets) (a : Answer) : Finset ℕ :=
  match w.receiver.control, a with
  | .accept _, .accepted client => insert client w.opened
  | .recv i _, .octets [] => w.opened.erase i
  | .recvMore i _ _ _, .octets [] => w.opened.erase i
  | .recvMore i _ _ _, .failed => w.opened.erase i
  | _, _ => w.opened

def next (framing : Framing) (maxlen : ℕ) (w : Sockets) (a : Answer) : Option Sockets :=
  (w.receiver.step framing maxlen a).map fun outcome => {
    receiver := outcome.1
    opened := w.openedAfter a
    idle := outcome.2.isSome }

def closeConnections (w : Sockets) : Sockets :=
  { w with
    receiver := { w.receiver with o := oscCloseConnections w.receiver.o }
    opened := w.opened \ w.receiver.o.connections }

/-- The descriptors in the next call of `select`, `accept` or `recv`. -/
def passed (w : Sockets) : Finset ℕ :=
  match w.receiver.control with
  | .select => w.receiver.o.fds.filter (· ≤ w.receiver.o.maxfd)
  | .accept _ => {w.receiver.o.servfd}
  | .recv i _ => {i}
  | .poll i _ _ _ _ => {i}
  | .recvMore i _ _ _ => {i}

/-- What the system promises: the ready descriptors are among the ones of the call and a new
connection has a descriptor that is not in use. -/
def Possible (w : Sockets) (a : Answer) : Prop :=
  match w.receiver.control, a with
  | .select, .ready fds => fds ⊆ w.receiver.o.fds
  | .accept _, .accepted client => client ∉ w.opened ∧ client ≠ w.receiver.o.servfd
  | _, _ => True

/-- The calls of `osc_recv` and of `osc_close_connections` between them. -/
inductive Run (framing : Framing) (maxlen : ℕ) (meets : Sockets → Answer → Prop) :
    Sockets → Prop
  | start (servfd : ℕ) (buf : Memory) :
      Run framing maxlen meets ⟨⟨oscServerFds servfd, buf, 0, .select⟩, ∅, true⟩
  | step {w w' : Sockets} {a : Answer} (h : Run framing maxlen meets w) (hpossible : w.Possible a)
      (hmeets : meets w a) (hnext : w.next framing maxlen a = some w') :
      Run framing maxlen meets w'
  | close {w : Sockets} (h : Run framing maxlen meets w) (hidle : w.idle = true) :
      Run framing maxlen meets w.closeConnections

def EndsBetweenPackets (w : Sockets) (a : Answer) : Prop :=
  match w.receiver.control, a with
  | .recvMore _ _ _ _, .octets l => l ≠ []
  | .recvMore _ _ _ _, .failed => False
  | _, _ => True

/-- The descriptors that are watched are the server and the open connections. -/
structure Bookkeeping (w : Sockets) : Prop where
  watched : w.receiver.o.fds = insert w.receiver.o.servfd w.opened
  count : w.receiver.o.count = w.opened.card
  maxfd : ∀ i ∈ w.receiver.o.fds, i ≤ w.receiver.o.maxfd
  passed : w.passed ⊆ insert w.receiver.o.servfd w.opened

end Sockets

namespace Receiver

/-- The set, the number and the maximum are the ones of the open connections. -/
structure Watches (o : Fds) (opened : Finset ℕ) : Prop where
  watched : o.fds = insert o.servfd opened
  server : o.servfd ∉ opened
  count : o.count = opened.card
  maxfd : ∀ i ∈ o.fds, i ≤ o.maxfd

/-- The descriptors that the loop visits are watched, each one once. -/
def Visits (o : Fds) (loop : List ℕ) : Prop := loop.Nodup ∧ ∀ i ∈ loop, i ∈ o.fds

def Waits (o : Fds) : Control → Prop
  | .select => True
  | .accept loop => Visits o loop
  | .recv i loop => i ≠ o.servfd ∧ Visits o (i :: loop)
  | .poll i loop _ _ _ => i ≠ o.servfd ∧ Visits o (i :: loop)
  | .recvMore i loop _ _ => i ≠ o.servfd ∧ Visits o (i :: loop)

section Loop

variable {framing : Framing} {maxlen : ℕ} {r : Receiver} {i : ℕ} {loop : List ℕ}
  {opened : Finset ℕ}

theorem Visits.tail {o : Fds} (h : Visits o (i :: loop)) : Visits o loop :=
  ⟨h.1.of_cons, fun x hx => h.2 x (List.mem_cons_of_mem i hx)⟩

/-- The outcome of a step with the descriptors `o`. -/
structure Keeps (o : Fds) (outcome : Outcome) : Prop where
  same : outcome.1.o = o
  waits : Waits o outcome.1.control
  returns : outcome.2.isSome → outcome.1.control = .select

theorem keeps_finish {o : Fds} (hr : r.o = o) (value : ℤ) : Keeps o (r.finish value) :=
  ⟨hr, trivial, fun _ => rfl⟩

theorem keeps_fdLoop {o : Fds} (hr : r.o = o) (h : Visits o loop) : Keeps o (r.fdLoop loop) := by
  induction loop with
  | nil =>
    rw [fdLoop]
    split
    · exact keeps_finish hr _
    · exact ⟨hr, trivial, fun hsome => nomatch hsome⟩
  | cons i loop ih =>
    rw [fdLoop]
    split
    · exact ih h.tail
    · rename_i hi
      rw [hr] at hi
      exact ⟨hr, ⟨hi, h⟩, fun hsome => nomatch hsome⟩

theorem keeps_remainLoop {o : Fds} (hr : r.o = o) (hi : i ≠ o.servfd) (h : Visits o (i :: loop))
    (data ret remain : ℤ) : Keeps o (r.remainLoop i loop data ret remain) := by
  rw [remainLoop]
  split
  · exact ⟨hr, ⟨hi, h⟩, fun hsome => nomatch hsome⟩
  · split
    · exact keeps_finish hr _
    · exact keeps_fdLoop hr h.tail

theorem visits_readyLoop {fds : Finset ℕ} (h : fds ⊆ r.o.fds) : Visits r.o (r.readyLoop fds) := by
  refine ⟨List.nodup_range.filter _, fun i hi => ?_⟩
  rw [readyLoop, List.mem_filter] at hi
  exact h (of_decide_eq_true hi.2)

theorem keeps_firstOctets {o : Fds} (hr : { r.o with lastfd := i } = o) (hi : i ≠ o.servfd)
    (h : Visits o (i :: loop)) (l : List Octet) (ret : ℤ) :
    Keeps o (firstOctets framing maxlen r i loop l ret) := by
  cases framing with
  | slip =>
    rw [firstOctets]
    simp only
    split
    · exact keeps_finish hr _
    · exact keeps_remainLoop hr hi h _ _ _
  | countPrefix =>
    rw [firstOctets]
    simp only
    split
    · exact keeps_remainLoop hr hi h _ _ _
    · exact keeps_remainLoop hr hi h _ _ _
  | none => exact keeps_finish hr _

theorem keeps_moreOctets (hi : i ≠ r.o.servfd) (h : Visits r.o (i :: loop)) (data remain : ℤ)
    (l : List Octet) : Keeps r.o (moreOctets framing r i loop data remain l) := by
  have hput (buf : Memory) (nbytes : ℤ) :
      ({ r with buf := buf, nbytes := nbytes } : Receiver).o = r.o := rfl
  cases framing with
  | slip =>
    rw [moreOctets]
    simp only
    split
    · exact keeps_finish (hput _ _) _
    · split
      · exact keeps_remainLoop (hput _ _) hi h _ _ _
      · exact keeps_remainLoop (hput _ _) hi h _ _ _
  | countPrefix => exact keeps_remainLoop (hput _ _) hi h _ _ _
  | none => exact keeps_remainLoop (hput _ _) hi h _ _ _

theorem keeps_closed (hwatches : Watches r.o opened) (hi : i ≠ r.o.servfd)
    (h : Visits r.o (i :: loop)) :
    ∃ o, Keeps o (r.closed i loop) ∧ Watches o (opened.erase i) := by
  have hopened : i ∈ opened := by
    have hmem := h.2 i List.mem_cons_self
    rw [hwatches.watched, Finset.mem_insert] at hmem
    exact hmem.resolve_left hi
  have hfds : r.o.fds.erase i = insert r.o.servfd (opened.erase i) := by
    rw [hwatches.watched, Finset.erase_insert_of_ne hi.symm]
  have hserver : r.o.servfd ∉ opened.erase i := fun hmem =>
    hwatches.server (Finset.mem_of_mem_erase hmem)
  have hpos := Finset.card_pos.mpr ⟨i, hopened⟩
  have hcard : r.o.count - 1 = (opened.erase i).card := by
    rw [hwatches.count, Finset.card_erase_of_mem hopened]
    omega
  rw [closed]
  by_cases hzero : r.o.count - 1 = 0
  · have hempty : opened.erase i = ∅ := by
      rw [hcard] at hzero
      exact Finset.card_eq_zero.mp (by exact_mod_cast hzero)
    simp only [if_pos hzero]
    refine ⟨_, keeps_fdLoop rfl ⟨List.nodup_nil, fun x hx => nomatch hx⟩, hfds, hserver, hcard, ?_⟩
    intro x hx
    rw [hfds, hempty, insert_empty_eq, Finset.mem_singleton] at hx
    exact hx.le
  · simp only [if_neg hzero]
    refine ⟨_, keeps_fdLoop rfl ⟨h.1.of_cons, fun x hx => ?_⟩, hfds, hserver, hcard, ?_⟩
    · have hne : x ≠ i := fun heq => (List.nodup_cons.mp h.1).1 (heq ▸ hx)
      exact Finset.mem_erase.mpr ⟨hne, h.2 x (List.mem_cons_of_mem i hx)⟩
    · exact fun x hx => hwatches.maxfd x (Finset.mem_of_mem_erase hx)

theorem Watches.accepted (hwatches : Watches r.o opened) {client : ℕ} (hclient : client ∉ opened)
    (hserver : client ≠ r.o.servfd) :
    Watches { r.o with
      fds := insert client r.o.fds
      count := r.o.count + 1
      maxfd := max client r.o.maxfd } (insert client opened) := by
  refine ⟨?_, ?_, ?_, ?_⟩
  · show insert client r.o.fds = _
    rw [hwatches.watched, Finset.insert_comm]
  · show r.o.servfd ∉ _
    rw [Finset.mem_insert, not_or]
    exact ⟨hserver.symm, hwatches.server⟩
  · show r.o.count + 1 = _
    rw [hwatches.count, Finset.card_insert_of_notMem hclient, Nat.cast_succ]
  · intro x hx
    rcases Finset.mem_insert.mp hx with rfl | hx
    · exact le_max_left _ _
    · exact (hwatches.maxfd x hx).trans (le_max_right _ _)

end Loop

end Receiver

namespace Sockets

open Receiver

/-- The bookkeeping with the descriptors that the loop visits. -/
structure Inv (w : Sockets) : Prop where
  watches : Watches w.receiver.o w.opened
  waits : Waits w.receiver.o w.receiver.control
  idle : w.idle = true → w.receiver.control = .select

section Runs

variable {framing : Framing} {maxlen : ℕ} {w w' : Sockets}

theorem Inv.bookkeeping (h : w.Inv) : w.Bookkeeping := by
  refine ⟨h.watches.watched, h.watches.count, h.watches.maxfd, ?_⟩
  have hwaits := h.waits
  have hcall {i : ℕ} {loop : List ℕ} (hv : Visits w.receiver.o (i :: loop)) :
      {i} ⊆ insert w.receiver.o.servfd w.opened := by
    rw [Finset.singleton_subset_iff, ← h.watches.watched]
    exact hv.2 i List.mem_cons_self
  rw [passed]
  cases hcontrol : w.receiver.control with
  | select =>
    rw [← h.watches.watched]
    exact Finset.filter_subset _ _
  | accept loop => exact Finset.singleton_subset_iff.mpr (Finset.mem_insert_self _ _)
  | recv i loop =>
    rw [hcontrol] at hwaits
    exact hcall hwaits.2
  | poll i loop data ret remain =>
    rw [hcontrol] at hwaits
    exact hcall hwaits.2
  | recvMore i loop data remain =>
    rw [hcontrol] at hwaits
    exact hcall hwaits.2

section Calls

variable {a : Answer} {outcome : Outcome}

theorem Inv.keeps_select (h : w.Inv) (hcontrol : w.receiver.control = .select)
    (hpossible : w.Possible a) (hstep : w.receiver.step framing maxlen a = some outcome) :
    ∃ o, Keeps o outcome ∧ Watches o (w.openedAfter a) := by
  have hwatches := h.watches
  unfold Possible at hpossible
  rw [hcontrol] at hpossible
  unfold Receiver.step at hstep
  rw [hcontrol] at hstep
  unfold openedAfter
  rw [hcontrol]
  cases a with
  | ready fds =>
    have hvisits := visits_readyLoop hpossible
    simp only at hstep
    split at hstep
    · obtain rfl := Option.some.inj hstep
      exact ⟨_, ⟨rfl, hvisits, fun hsome => nomatch hsome⟩, hwatches⟩
    · obtain rfl := Option.some.inj hstep
      exact ⟨_, keeps_fdLoop rfl hvisits, hwatches⟩
  | timeout | failed =>
    obtain rfl := Option.some.inj hstep
    exact ⟨_, keeps_finish rfl _, hwatches⟩
  | accepted | octets | readable | notReadable => exact nomatch hstep

theorem Inv.keeps_accept {loop : List ℕ} (h : w.Inv)
    (hcontrol : w.receiver.control = .accept loop) (hpossible : w.Possible a)
    (hstep : w.receiver.step framing maxlen a = some outcome) :
    ∃ o, Keeps o outcome ∧ Watches o (w.openedAfter a) := by
  have hwaits := h.waits
  have hwatches := h.watches
  unfold Possible at hpossible
  rw [hcontrol] at hpossible hwaits
  unfold Receiver.step at hstep
  rw [hcontrol] at hstep
  unfold openedAfter
  rw [hcontrol]
  cases a with
  | accepted client =>
    obtain rfl := Option.some.inj hstep
    have hvisits : Visits { w.receiver.o with
        fds := insert client w.receiver.o.fds
        count := w.receiver.o.count + 1
        maxfd := max client w.receiver.o.maxfd } loop :=
      ⟨hwaits.1, fun x hx => Finset.mem_insert_of_mem (hwaits.2 x hx)⟩
    exact ⟨_, keeps_fdLoop rfl hvisits, hwatches.accepted hpossible.1 hpossible.2⟩
  | failed =>
    obtain rfl := Option.some.inj hstep
    exact ⟨_, keeps_fdLoop rfl hwaits, hwatches⟩
  | ready | timeout | octets | readable | notReadable => exact nomatch hstep

theorem Inv.keeps_recv {i : ℕ} {loop : List ℕ} (h : w.Inv)
    (hcontrol : w.receiver.control = .recv i loop)
    (hstep : w.receiver.step framing maxlen a = some outcome) :
    ∃ o, Keeps o outcome ∧ Watches o (w.openedAfter a) := by
  have hwaits := h.waits
  have hwatches := h.watches
  rw [hcontrol] at hwaits
  unfold Receiver.step at hstep
  rw [hcontrol] at hstep
  unfold openedAfter
  rw [hcontrol]
  have hlast (lastfd : ℤ) : Watches { w.receiver.o with lastfd := lastfd } w.opened :=
    ⟨hwatches.watched, hwatches.server, hwatches.count, hwatches.maxfd⟩
  cases a with
  | octets l =>
    cases l with
    | nil =>
      obtain rfl := Option.some.inj hstep
      exact keeps_closed hwatches hwaits.1 hwaits.2
    | cons b l =>
      obtain rfl := Option.some.inj hstep
      exact ⟨_, keeps_firstOctets rfl hwaits.1 hwaits.2 _ _, hlast i⟩
  | failed =>
    obtain rfl := Option.some.inj hstep
    exact ⟨_, keeps_firstOctets rfl hwaits.1 hwaits.2 _ _, hlast i⟩
  | ready | timeout | accepted | readable | notReadable => exact nomatch hstep

theorem Inv.keeps_poll {i : ℕ} {loop : List ℕ} {data ret remain : ℤ} (h : w.Inv)
    (hcontrol : w.receiver.control = .poll i loop data ret remain)
    (hstep : w.receiver.step framing maxlen a = some outcome) :
    ∃ o, Keeps o outcome ∧ Watches o (w.openedAfter a) := by
  have hwaits := h.waits
  have hwatches := h.watches
  rw [hcontrol] at hwaits
  unfold Receiver.step at hstep
  rw [hcontrol] at hstep
  unfold openedAfter
  rw [hcontrol]
  cases a with
  | readable =>
    obtain rfl := Option.some.inj hstep
    exact ⟨_, ⟨rfl, hwaits, fun hsome => nomatch hsome⟩, hwatches⟩
  | notReadable | failed =>
    obtain rfl := Option.some.inj hstep
    refine ⟨w.receiver.o, keeps_fdLoop ?_ hwaits.2.tail, hwatches⟩
    rfl
  | ready | timeout | accepted | octets => exact nomatch hstep

theorem Inv.keeps_recvMore {i : ℕ} {loop : List ℕ} {data remain : ℤ} (h : w.Inv)
    (hcontrol : w.receiver.control = .recvMore i loop data remain)
    (hends : EndsBetweenPackets w a)
    (hstep : w.receiver.step framing maxlen a = some outcome) :
    ∃ o, Keeps o outcome ∧ Watches o (w.openedAfter a) := by
  have hwaits := h.waits
  have hwatches := h.watches
  unfold EndsBetweenPackets at hends
  rw [hcontrol] at hends hwaits
  unfold Receiver.step at hstep
  rw [hcontrol] at hstep
  unfold openedAfter
  rw [hcontrol]
  cases a with
  | octets l =>
    cases l with
    | nil => exact absurd rfl hends
    | cons b l =>
      obtain rfl := Option.some.inj hstep
      exact ⟨_, keeps_moreOctets hwaits.1 hwaits.2 _ _ _, hwatches⟩
  | failed => exact hends.elim
  | ready | timeout | accepted | readable | notReadable => exact nomatch hstep

theorem Inv.keeps (h : w.Inv) (hpossible : w.Possible a) (hends : EndsBetweenPackets w a)
    (hstep : w.receiver.step framing maxlen a = some outcome) :
    ∃ o, Keeps o outcome ∧ Watches o (w.openedAfter a) := by
  cases hcontrol : w.receiver.control with
  | select => exact h.keeps_select hcontrol hpossible hstep
  | accept loop => exact h.keeps_accept hcontrol hpossible hstep
  | recv i loop => exact h.keeps_recv hcontrol hstep
  | poll i loop data ret remain => exact h.keeps_poll hcontrol hstep
  | recvMore i loop data remain => exact h.keeps_recvMore hcontrol hends hstep

end Calls

theorem Inv.next {a : Answer} (h : w.Inv) (hpossible : w.Possible a)
    (hends : EndsBetweenPackets w a) (hnext : w.next framing maxlen a = some w') : w'.Inv := by
  rw [Sockets.next, Option.map_eq_some_iff] at hnext
  obtain ⟨outcome, hstep, rfl⟩ := hnext
  obtain ⟨o, hkeeps, hwatches⟩ := h.keeps hpossible hends hstep
  refine ⟨?_, ?_, hkeeps.returns⟩
  · rw [← hkeeps.same] at hwatches
    exact hwatches
  · rw [← hkeeps.same] at hkeeps
    exact hkeeps.waits

theorem Inv.closeConnections (h : w.Inv) (hidle : w.idle = true) : w.closeConnections.Inv := by
  have hcontrol := h.idle hidle
  have hempty : w.opened \ w.receiver.o.connections = ∅ := by
    rw [Finset.sdiff_eq_empty_iff_subset]
    intro i hi
    have hmem : i ∈ w.receiver.o.fds := by
      rw [h.watches.watched]
      exact Finset.mem_insert_of_mem hi
    have hserver : i ≠ w.receiver.o.servfd := fun heq => h.watches.server (heq ▸ hi)
    exact Finset.mem_filter.mpr ⟨hmem, h.watches.maxfd i hmem, hserver⟩
  refine ⟨?_, ?_, fun _ => hcontrol⟩
  · rw [Sockets.closeConnections, hempty]
    exact ⟨(insert_empty_eq _).symm, Finset.notMem_empty _, rfl, fun i hi =>
      (Finset.mem_singleton.mp hi).le⟩
  · show Waits _ w.receiver.control
    rw [hcontrol]
    trivial

theorem Run.inv (h : Run framing maxlen EndsBetweenPackets w) : w.Inv := by
  induction h with
  | start servfd buf =>
    exact ⟨⟨(insert_empty_eq _).symm, Finset.notMem_empty _, rfl, fun i hi =>
      (Finset.mem_singleton.mp hi).le⟩, trivial, fun _ => rfl⟩
  | step h hpossible hmeets hnext ih => exact ih.next hpossible hmeets hnext
  | close h hidle ih => exact ih.closeConnections hidle

/-- The descriptors in every state that is reached while no connection ends or fails in a
packet. -/
theorem bookkeeping_of_run (h : Run framing maxlen EndsBetweenPackets w) : w.Bookkeeping :=
  h.inv.bookkeeping

/-- The connection 5 ends after five octets of a packet of twelve, and remains in the set. -/
theorem not_bookkeeping : ¬ ∀ (framing : Framing) (maxlen : ℕ) (w : Sockets),
    Run framing maxlen (fun _ _ => True) w → w.Bookkeeping := by
  intro h
  have hstart : Run .countPrefix 1500 (fun _ _ => True) _ := Run.start 3 fun _ => 0
  have hready := Run.step (a := .ready {3}) hstart (Finset.Subset.refl {3}) trivial rfl
  have hclient : 5 ∉ (∅ : Finset ℕ) ∧ 5 ≠ 3 := by decide
  have haccepted := Run.step (a := .accepted 5) hready hclient trivial rfl
  have hsubset : ({5} : Finset ℕ) ⊆ {5, 3} := by decide
  have hready' := Run.step (a := .ready {5}) haccepted hsubset trivial rfl
  have hoctets := Run.step (a := .octets [0, 0, 0, 8, 1]) hready' trivial trivial rfl
  have hreadable := Run.step (a := .readable) hoctets trivial trivial rfl
  have hend := Run.step (a := .octets []) hreadable trivial trivial rfl
  have hwatched := (h _ _ _ hend).watched
  revert hwatched
  decide

/-- The server 3 accepts the connections 5 and 7, and the connection 5 ends between two packets. -/
theorem bookkeeping_accepted : ∃ w : Sockets, w.opened = {7} ∧ w.Bookkeeping := by
  have hstart : Run .countPrefix 1500 EndsBetweenPackets _ := Run.start 3 fun _ => 0
  have hready := Run.step (a := .ready {3}) hstart (Finset.Subset.refl {3}) trivial rfl
  have hfirst : 5 ∉ (∅ : Finset ℕ) ∧ 5 ≠ 3 := by decide
  have haccepted := Run.step (a := .accepted 5) hready hfirst trivial rfl
  have hserver : ({3} : Finset ℕ) ⊆ {5, 3} := by decide
  have hready' := Run.step (a := .ready {3}) haccepted hserver trivial rfl
  have hsecond : 7 ∉ ({5} : Finset ℕ) ∧ 7 ≠ 3 := by decide
  have haccepted' := Run.step (a := .accepted 7) hready' hsecond trivial rfl
  have hsubset : ({5} : Finset ℕ) ⊆ {7, 5, 3} := by decide
  have hending := Run.step (a := .ready {5}) haccepted' hsubset trivial rfl
  have hended := Run.step (a := .octets []) hending trivial trivial rfl
  exact ⟨_, by decide, bookkeeping_of_run hended⟩

end Runs

end Sockets

end Incudine.Osc
