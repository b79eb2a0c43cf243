import Incudine.ConsItems
import Incudine.PairedLists
import Mathlib.Algebra.BigOperators.Group.Finset.Basic

/-!
# Responders

A responder adds a function to the functions of the receiver of a stream. The functions are changed
by a compare-and-swap, the list of the responders with a value that is computed before. The threads
read, swap and update in any order.
-/

namespace Incudine.Responders

open Function PairedLists

/-- A list of functions is not modified: it has an identity and its contents. The first one is
NIL. -/
structure FunctionLists (F : Type*) where
  contents : ℕ → List F
  next : ℕ
  nil : contents 0 = []
  next_pos : 0 < next

section FunctionLists

variable {F : Type*}

def FunctionLists.alloc (l : FunctionLists F) (items : List F) : FunctionLists F × ℕ :=
  ({ contents := update l.contents l.next items
     next := l.next + 1
     nil := (update_of_ne l.next_pos.ne _ _).trans l.nil
     next_pos := Nat.succ_pos _ }, l.next)

def FunctionLists.cons (l : FunctionLists F) (f : F) (old : ℕ) : FunctionLists F × ℕ :=
  l.alloc (f :: l.contents old)

def FunctionLists.remove [DecidableEq F] (l : FunctionLists F) (f : F) (old shared : ℕ) :
    FunctionLists F × ℕ :=
  let items := (l.contents old).filter (· ≠ f)
  if items = [] then (l, 0)
  else if shared < l.next ∧ l.contents shared = items then (l, shared)
  else l.alloc items

theorem FunctionLists.alloc_contents (l : FunctionLists F) (items : List F) :
    (l.alloc items).1.contents (l.alloc items).2 = items :=
  update_self ..

theorem FunctionLists.cons_contents (l : FunctionLists F) (f : F) (old : ℕ) :
    (l.cons f old).1.contents (l.cons f old).2 = f :: l.contents old :=
  l.alloc_contents _

theorem FunctionLists.remove_contents [DecidableEq F] (l : FunctionLists F) (f : F)
    (old shared : ℕ) :
    (l.remove f old shared).1.contents (l.remove f old shared).2 =
      (l.contents old).filter (· ≠ f) := by
  simp only [remove]
  split_ifs with hnil hshared
  · rw [hnil]
    exact l.nil
  · exact hshared.2
  · exact l.alloc_contents _

end FunctionLists

structure Responder (F : Type*) where
  receiver : ℕ
  function : F

/-- The calls. The function is the one returned by `responder-wrapper`, and a responder is an
object returned by `make-responder`. -/
inductive Call (F : Type*) where
  | makeResponder (function : F)
  | addResponder (resp : ℕ)
  | removeResponder (resp : ℕ)
  | removeAllResponders

/-- What a thread has to do. The flag `making` tells that `%add-responder` is called by
`make-responder`; `rest` is what `remove-all-responders` still has to remove. -/
inductive Frame (F : Type*) where
  | idle
  | readReceiver (function : F)
  | storeReceiver (function : F)
  | readList (resp : ℕ) (making : Bool)
  | readFunctions (resp newList : ℕ) (making : Bool)
  | swapAdded (resp newList oldFunctions : ℕ) (making : Bool)
  | storeAdded (resp newList : ℕ) (making : Bool)
  | readFound (resp : ℕ)
  | find (resp : ℕ) (respList : Option ℕ)
  | readRemoved (resp : ℕ) (rest : Option (Option ℕ))
  | readOldFunctions (resp : ℕ) (respList : Option ℕ) (rest : Option (Option ℕ))
  | swapRemoved (resp : ℕ) (respList : Option ℕ) (oldFunctions : ℕ) (rest : Option (Option ℕ))
  | delete (resp : ℕ) (respList : Option ℕ) (rest : Option (Option ℕ))
  | storeRemoved (resp : ℕ) (newList : Option ℕ) (rest : Option (Option ℕ))
  | readAll
  | dolist (rest : Option ℕ)

variable {ι F : Type*}

/-- `remove-responder` returns. -/
def Frame.ofRest : Option (Option ℕ) → Frame F
  | none => .idle
  | some rest => .dolist rest

/-- The responder whose function is added and that is not listed yet. -/
def Frame.adding : Frame F → Multiset ℕ
  | .storeAdded resp _ _ => {resp}
  | _ => 0

/-- The responder whose function is removed and that is still listed. -/
def Frame.removing : Frame F → Finset ℕ
  | .delete resp _ _ => {resp}
  | .storeRemoved resp _ _ => {resp}
  | _ => ∅

def Frame.making : Frame F → Option ℕ
  | .readList resp true => some resp
  | .readFunctions resp _ true => some resp
  | .swapAdded resp _ _ true => some resp
  | .storeAdded resp _ true => some resp
  | _ => none

section Rest

variable (rest : Option (Option ℕ))

@[simp] theorem Frame.adding_ofRest : (ofRest rest : Frame F).adding = 0 := by
  cases rest <;> rfl

@[simp] theorem Frame.removing_ofRest : (ofRest rest : Frame F).removing = ∅ := by
  cases rest <;> rfl

@[simp] theorem Frame.making_ofRest : (ofRest rest : Frame F).making = none := by
  cases rest <;> rfl

end Rest

section Making

variable (resp newList oldFunctions : ℕ) (making : Bool)

@[simp] theorem Frame.making_readList :
    (readList resp making : Frame F).making = if making then some resp else none := by
  cases making <;> rfl

@[simp] theorem Frame.making_readFunctions :
    (readFunctions resp newList making : Frame F).making = if making then some resp else none := by
  cases making <;> rfl

@[simp] theorem Frame.making_swapAdded :
    (swapAdded resp newList oldFunctions making : Frame F).making =
      if making then some resp else none := by
  cases making <;> rfl

@[simp] theorem Frame.making_storeAdded :
    (storeAdded resp newList making : Frame F).making = if making then some resp else none := by
  cases making <;> rfl

end Making

/-- The variables for a stream: `receiver` and `responders` are the values of the hash tables. The
responders in `kept` are made or added and not removed. -/
structure State (ι F : Type*) where
  receiver : Option ℕ
  receivers : ℕ
  functions : ℕ → ℕ
  lists : FunctionLists F
  objects : ℕ → Responder F
  next : ℕ
  responders : Option ℕ
  conses : Conses ℕ
  threads : ι → Frame F
  made : List ℕ
  kept : List ℕ

namespace State

section Values

variable (s : State ι F)

/-- `all-responders`. -/
def listed : List ℕ := s.conses.items s.responders

def receiverFunctions : List F :=
  match s.receiver with
  | some recv => s.lists.contents (s.functions recv)
  | none => []

def function (resp : ℕ) : F := (s.objects resp).function

def functionsOf (resp : ℕ) : ℕ := s.functions (s.objects resp).receiver

end Values

section Step

variable [DecidableEq ι] [DecidableEq F] (s : State ι F) (t : ι)

def goto (frame : Frame F) : State ι F := { s with threads := update s.threads t frame }

def newResponder (recv : ℕ) (f : F) : State ι F :=
  { s with
    objects := update s.objects s.next { receiver := recv, function := f }
    next := s.next + 1
    threads := update s.threads t (.readList s.next true) }

/-- `make-receiver` and the update of the hash table. -/
def newReceiver : State ι F :=
  { s with
    receiver := some s.receivers
    receivers := s.receivers + 1
    functions := update s.functions s.receivers 0 }

def returnResponder (resp : ℕ) (making : Bool) : State ι F :=
  if making then
    { s with
      made := resp :: s.made
      kept := resp :: s.kept
      threads := update s.threads t .idle }
  else s.goto t .idle

def setFunctions (resp : ℕ) (lists : FunctionLists F × ℕ) : State ι F :=
  { s with
    lists := lists.1
    functions := update s.functions (s.objects resp).receiver lists.2 }

/-- An atomic step of a thread, with the list that `remove` can share. -/
def step (shared : ℕ) : State ι F :=
  match s.threads t with
  | .idle => s
  | .readReceiver f =>
    match s.receiver with
    | some recv => s.newResponder t recv f
    | none => s.goto t (.storeReceiver f)
  | .storeReceiver f => s.newReceiver.newResponder t s.receivers f
  | .readList resp making =>
    { s with
      conses := s.conses.cons resp s.responders
      threads := update s.threads t (.readFunctions resp s.conses.next making) }
  | .readFunctions resp newList making =>
    s.goto t (.swapAdded resp newList (s.functionsOf resp) making)
  | .swapAdded resp newList oldFunctions making =>
    if s.functionsOf resp = oldFunctions then
      (s.setFunctions resp (s.lists.cons (s.function resp) oldFunctions)).goto t
        (.storeAdded resp newList making)
    else s.returnResponder t resp making
  | .storeAdded resp newList making =>
    { s with
      responders := some newList
      made := if making then resp :: s.made else s.made
      kept := resp :: s.kept
      threads := update s.threads t .idle }
  | .readFound resp => s.goto t (.find resp s.responders)
  | .find resp respList =>
    s.goto t (if resp ∈ s.conses.items respList then .idle else .readList resp false)
  | .readRemoved resp rest =>
    s.goto t (if s.responders = none then .ofRest rest
      else .readOldFunctions resp s.responders rest)
  | .readOldFunctions resp respList rest =>
    s.goto t (.swapRemoved resp respList (s.functionsOf resp) rest)
  | .swapRemoved resp respList oldFunctions rest =>
    if s.functionsOf resp = oldFunctions then
      { s.setFunctions resp (s.lists.remove (s.function resp) oldFunctions shared) with
        kept := s.kept.filter (· ≠ resp)
        threads := update s.threads t (.delete resp respList rest) }
    else s.goto t (.ofRest rest)
  | .delete resp respList rest =>
    { s with
      conses := (s.conses.delete resp respList).1
      threads := update s.threads t
        (.storeRemoved resp (s.conses.delete resp respList).2 rest) }
  | .storeRemoved _ newList rest =>
    { s with
      responders := newList
      threads := update s.threads t (.ofRest rest) }
  | .readAll => s.goto t (.dolist s.responders)
  | .dolist none => s.goto t .idle
  | .dolist (some c) => s.goto t (.readRemoved (s.conses.car c) (some (s.conses.cdr c)))

end Step

end State

/-- A thread that is not in a call begins one, or a thread in a call makes a step. -/
inductive Action (ι F : Type*) where
  | call (t : ι) (c : Call F)
  | step (t : ι) (shared : ℕ)

def Call.frame : Call F → Frame F
  | .makeResponder f => .readReceiver f
  | .addResponder resp => .readFound resp
  | .removeResponder resp => .readRemoved resp none
  | .removeAllResponders => .readAll

def Call.Has (made : List ℕ) : Call F → Prop
  | .addResponder resp => resp ∈ made
  | .removeResponder resp => resp ∈ made
  | _ => True

section Runs

variable [DecidableEq ι] [DecidableEq F]

/-- The interleavings. -/
inductive Step : State ι F → Action ι F → State ι F → Prop
  | call {s : State ι F} {t : ι} {c : Call F} (hidle : s.threads t = .idle) (hc : c.Has s.made) :
    Step s (.call t c) (s.goto t c.frame)
  | step {s : State ι F} {t : ι} {shared : ℕ} (hbusy : s.threads t ≠ .idle) :
    Step s (.step t shared) (s.step t shared)

/-- No responder is made. The receiver of the stream can exist. -/
structure Initial (s : State ι F) : Prop where
  threads : ∀ t, s.threads t = .idle
  receiver : ∀ recv, s.receiver = some recv → s.functions recv = 0
  next : s.next = 0
  responders : s.responders = none
  conses : s.conses.next = 0
  cdr : ∀ c, s.conses.cdr c = none
  made : s.made = []
  kept : s.kept = []

/-- The states of the runs whose steps meet a condition on the state before them. -/
inductive Reaches (ok : State ι F → Action ι F → Prop) : State ι F → Prop
  | initial {s : State ι F} (h : Initial s) : Reaches ok s
  | step {s s' : State ι F} {a : Action ι F} (h : Reaches ok s) (hok : ok s a)
    (hstep : Step s a s') : Reaches ok s'

theorem Reaches.iterate {ok : State ι F → Action ι F → Prop} {s : State ι F} (h : Reaches ok s)
    (t : ι) (n : ℕ) (hok : ∀ k < n, ok ((fun s => s.step t 0)^[k] s) (.step t 0)) :
    Reaches ok ((fun s => s.step t 0)^[n] s) := by
  induction n with
  | zero => exact h
  | succ n ih =>
    have hreaches := ih fun k hk => hok k (Nat.lt_succ_of_lt hk)
    rw [iterate_succ_apply']
    set s' := (fun s => s.step t 0)^[n] s with hs'
    by_cases hidle : s'.threads t = .idle
    · have hsame : s'.step t 0 = s' := by rw [State.step, hidle]
      rw [hsame]
      exact hreaches
    · exact hreaches.step (hok n (Nat.lt_succ_self n)) (.step hidle)

/-- The functions of the receiver are the ones of the listed responders with multiplicity, no
responder is listed twice, and a responder that was made and not removed is listed. -/
structure Agrees (s : State ι F) : Prop where
  functions : (s.receiverFunctions : Multiset F) = s.listed.map s.function
  nodup : s.listed.Nodup
  kept : ∀ resp ∈ s.kept, resp ∈ s.listed

/-- The purpose of the calls: the lists agree when no call is in progress. -/
def AlwaysAgree (ι F : Type*) [DecidableEq ι] [DecidableEq F]
    (ok : State ι F → Action ι F → Prop) : Prop :=
  ∀ s : State ι F, Reaches ok s → (∀ t, s.threads t = .idle) → Agrees s

end Runs

def State.empty (ι F : Type*) [Inhabited F] : State ι F where
  receiver := none
  receivers := 0
  functions _ := 0
  lists :=
    { contents := fun _ => []
      next := 1
      nil := rfl
      next_pos := Nat.one_pos }
  objects _ := { receiver := 0, function := default }
  next := 0
  responders := none
  conses :=
    { car := fun _ => 0
      cdr := fun _ => none
      next := 0 }
  threads _ := .idle
  made := []
  kept := []

theorem State.empty_initial (ι F : Type*) [Inhabited F] [DecidableEq ι] [DecidableEq F] :
    Initial (State.empty ι F) where
  threads _ := rfl
  receiver := nofun
  next := rfl
  responders := rfl
  conses := rfl
  cdr _ := rfl
  made := rfl
  kept := rfl

def State.run (s : State Unit Bool) (c : Call Bool) : State Unit Bool :=
  (fun s => s.step () 0)^[6] (s.goto () c.frame)

theorem Reaches.run {ok : State Unit Bool → Action Unit Bool → Prop} {s : State Unit Bool}
    (h : Reaches ok s) {c : Call Bool} (hidle : s.threads () = .idle) (hc : c.Has s.made)
    (hcall : ok s (.call () c))
    (hok : ∀ k < 6, ok ((fun s => s.step () 0)^[k] (s.goto () c.frame)) (.step () 0)) :
    Reaches ok (s.run c) :=
  (h.step hcall (.call hidle hc)).iterate () 6 hok

def State.removeFirst (f g : Bool) : State Unit Bool :=
  (((State.empty Unit Bool).run (.makeResponder f)).run (.makeResponder g)).run (.removeResponder 0)

/-- If the responders have the same function, it is removed also for the other one. -/
theorem not_alwaysAgree : ¬ AlwaysAgree Unit Bool fun _ _ => True := by
  intro h
  have hempty : Reaches (fun _ _ => True) (State.empty Unit Bool) :=
    .initial (State.empty_initial Unit Bool)
  have hfirst := hempty.run (c := .makeResponder true) rfl trivial trivial fun _ _ => trivial
  have hsecond := hfirst.run (c := .makeResponder true) rfl trivial trivial fun _ _ => trivial
  have hmade : 0 ∈ (((State.empty Unit Bool).run (.makeResponder true)).run
      (.makeResponder true)).made := by decide
  have hreaches := hsecond.run (c := .removeResponder 0) rfl hmade trivial fun _ _ => trivial
  have hagrees := h (State.removeFirst true true) hreaches fun _ => rfl
  have hfunctions : (State.removeFirst true true).receiverFunctions = [] := by decide
  have hlisted : (State.removeFirst true true).listed = [1] := by decide
  have hcard := hagrees.functions
  rw [hfunctions, hlisted] at hcard
  exact absurd (congrArg Multiset.card hcard) (by decide)

end Incudine.Responders
