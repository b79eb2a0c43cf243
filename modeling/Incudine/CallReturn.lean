import Incudine.RegoTime
import Mathlib.Data.Set.Finite.List
import Mathlib.Tactic.Ring

/-!
# Call and return statements of a score

A score is the body of a `prog*` form. A call statement pushes a closure, that restores TIME and
continues after the statement, and jumps to a label. A return statement calls the closure on the top
of the stack. The recursive expansion of the patterns does not use a stack.
-/

namespace Incudine.CallReturn

open RegoTime

variable {ε : Type*}

/-- A statement of a score. -/
inductive Stmt (ε : Type*) where
  | label (name : String)
  | event (time : ℚ≥0) (function : ε)
  | call (name : String) (time : Option ℚ)
  | ret

inductive Tag where
  | user (name : String)
  | continue (n : ℕ)
  | endOfScore
  deriving DecidableEq

/-- A tag or a form in the expansion of a score. -/
inductive Item (ε : Type*) where
  | tag (tag : Tag)
  | at (time : ℚ≥0) (function : ε)
  | scoreJump (label retLabel : Tag) (time : Option ℚ)
  | funcallPop

def scoreLinesToSexp : ℕ → List (Stmt ε) → List (Item ε)
  | _, [] => []
  | n, .label name :: lines => .tag (.user name) :: scoreLinesToSexp n lines
  | n, .event time function :: lines => .at time function :: scoreLinesToSexp n lines
  | n, .call name time :: lines =>
    .scoreJump (.user name) (.continue n) time :: .tag (.continue n) ::
      scoreLinesToSexp (n + 1) lines
  | n, .ret :: lines => .funcallPop :: scoreLinesToSexp n lines

/-- The body of the `prog*` form. -/
def writeRegofile (score : List (Stmt ε)) : List (Item ε) :=
  scoreLinesToSexp 0 score ++ [.tag .endOfScore]

def go (tag : Tag) : List (Item ε) → Option (List (Item ε))
  | [] => none
  | .tag tag' :: items => if tag' = tag then some items else go tag items
  | _ :: items => go tag items

/-- A function of the stack, with the value of TIME to restore. -/
structure Closure where
  t0 : Option ℚ
  retLabel : Tag

structure State (ε : Type*) where
  rest : List (Item ε)
  stack : List Closure
  slots : Slots
  events : List (ℚ × ε)

section Run

variable (sampleRate spb : ℚ)

def beatsToSeconds (beats : ℚ) : ℚ := spb * beats

def Closure.restore (closure : Closure) (slots : Slots) : Slots :=
  match closure.t0 with
  | some t0 => setRegoTime sampleRate (beatsToSeconds spb) slots t0
  | none => slots

def jumpTime : Option ℚ → Option ℚ
  | some time => if time = 0 then none else some time
  | none => none

def scoreJump (s : State ε) (retLabel : Tag) (time : Option ℚ) (rest : List (Item ε)) : State ε :=
  match jumpTime time with
  | some time =>
    { s with
      rest := rest
      stack := ⟨some s.slots.timeBeats, retLabel⟩ :: s.stack
      slots := setRegoTime sampleRate (beatsToSeconds spb) s.slots (s.slots.timeBeats + time) }
  | none => { s with rest := rest, stack := ⟨none, retLabel⟩ :: s.stack }

def step (body : List (Item ε)) (s : State ε) : Option (State ε) :=
  match s.rest with
  | [] => none
  | .tag _ :: rest => some { s with rest := rest }
  | .at time function :: rest => some { s with
      rest := rest
      events := s.events ++
        [(s.slots.smptime + sampleRate * beatsToSeconds spb time, function)] }
  | .scoreJump label retLabel time :: _ =>
    (go label body).map (scoreJump sampleRate spb s retLabel time)
  | .funcallPop :: _ =>
    match s.stack with
    | [] => none
    | closure :: stack => (go closure.retLabel body).map fun rest => { s with
        rest := rest
        stack := stack
        slots := closure.restore sampleRate spb s.slots }

/-- The start of a score at the time `now` in samples. -/
def initial (now : ℚ) (score : List (Stmt ε)) : State ε where
  rest := writeRegofile score
  stack := [⟨none, .endOfScore⟩]
  slots := ⟨now, now, 0⟩
  events := []

/-- A run where each call continues right after itself, with the stack and TIME that it found. -/
inductive Balanced (body : List (Item ε)) : State ε → State ε → Prop
  | refl {s : State ε} : Balanced body s s
  | step {s s₁ s₂ : State ε}
      (hjump : ∀ label retLabel time rest, s.rest ≠ .scoreJump label retLabel time :: rest)
      (hstep : step sampleRate spb body s = some s₁) (h : Balanced body s₁ s₂) : Balanced body s s₂
  | call {s s₁ s₂ s₃ : State ε} {label retLabel : Tag} {time : Option ℚ} {rest : List (Item ε)}
      (hjump : s.rest = .scoreJump label retLabel time :: .tag retLabel :: rest)
      (hstep : step sampleRate spb body s = some s₁) (h : Balanced body s₁ s₂)
      (hrest : s₂.rest = rest) (hstack : s₂.stack = s.stack) (hslots : s₂.slots = s.slots)
      (h' : Balanced body s₂ s₃) : Balanced body s s₃

end Run

def after (name : String) : List (Stmt ε) → Option (List (Stmt ε))
  | [] => none
  | .label name' :: lines => if name' = name then some lines else after name lines
  | _ :: lines => after name lines

def callTime (chain : List ℚ) : ℚ := chain.foldl (fun time d => max 0 (time + d)) 0

/-- The expansion of the called patterns, where an event comes with the times of its chain of
calls. -/
inductive Expands (score : List (Stmt ε)) :
    List ℚ → List (Stmt ε) → List (List ℚ × ℚ≥0 × ε) → Prop
  | done : Expands score [] [] []
  | ret {chain : List ℚ} {lines : List (Stmt ε)} : Expands score chain (.ret :: lines) []
  | event {chain : List ℚ} {time : ℚ≥0} {function : ε} {lines : List (Stmt ε)}
      {events : List (List ℚ × ℚ≥0 × ε)} (h : Expands score chain lines events) :
      Expands score chain (.event time function :: lines) ((chain, time, function) :: events)
  | call {chain : List ℚ} {name : String} {time : Option ℚ} {lines pattern : List (Stmt ε)}
      {events events' : List (List ℚ × ℚ≥0 × ε)} (hlabel : after name score = some pattern)
      (hpattern : Expands score (chain ++ [time.getD 0]) pattern events)
      (h : Expands score chain lines events') :
      Expands score chain (.call name time :: lines) (events ++ events')

/-- The lines that the control can reach, in a called pattern or in the main part of the score. -/
inductive Live (score : List (Stmt ε)) : Bool → List (Stmt ε) → Prop
  | start : Live score false score
  | event {called : Bool} {time : ℚ≥0} {function : ε} {lines : List (Stmt ε)}
      (h : Live score called (.event time function :: lines)) : Live score called lines
  | call {called : Bool} {name : String} {time : Option ℚ} {lines : List (Stmt ε)}
      (h : Live score called (.call name time :: lines)) : Live score called lines
  | pattern {called : Bool} {name : String} {time : Option ℚ} {lines pattern : List (Stmt ε)}
      (h : Live score called (.call name time :: lines)) (hlabel : after name score = some pattern) :
      Live score true pattern

/-- The lines of a called pattern. -/
inductive Within (score : List (Stmt ε)) (name : String) : List (Stmt ε) → Prop
  | start {lines : List (Stmt ε)} (h : after name score = some lines) : Within score name lines
  | event {time : ℚ≥0} {function : ε} {lines : List (Stmt ε)}
      (h : Within score name (.event time function :: lines)) : Within score name lines
  | call {name' : String} {time : Option ℚ} {lines : List (Stmt ε)}
      (h : Within score name (.call name' time :: lines)) : Within score name lines

def Calls (score : List (Stmt ε)) (name name' : String) : Prop :=
  ∃ time lines, Within score name (.call name' time :: lines)

/-- The labels of the calls exist, the control never falls through a label (also the one at the end
of the score, for a called pattern) and the calls are not recursive. -/
structure WellFormed (score : List (Stmt ε)) : Prop where
  label : ∀ called name time lines, Live score called (.call name time :: lines) →
    ∃ pattern, after name score = some pattern
  noFallThrough : ∀ called name lines, ¬ Live score called (.label name :: lines)
  noEnd : ¬ Live score true []
  notRecursive : ∀ called name time lines, Live score called (.call name time :: lines) →
    ¬ Relation.TransGen (Calls score) name name

variable {name : String} {pattern : List (Stmt ε)}

section Expansion

variable {score lines : List (Stmt ε)}

theorem Within.live {called : Bool} {time : Option ℚ} {lines' : List (Stmt ε)}
    (h : Within score name lines) (hcall : Live score called (.call name time :: lines')) :
    Live score true lines := by
  induction h with
  | start hlabel => exact hcall.pattern hlabel
  | event h ih => exact ih.event
  | call h ih => exact ih.call

theorem mem_of_after {lines : List (Stmt ε)} (h : after name lines = some pattern) :
    .label name ∈ lines := by
  induction lines with
  | nil => cases h
  | cons line lines ih =>
    cases line with
    | label name' =>
      rw [after] at h
      split at h
      next heq => exact heq ▸ List.mem_cons_self
      next => exact List.mem_cons_of_mem _ (ih h)
    | event | call | ret => exact List.mem_cons_of_mem _ (ih h)

def names (score : List (Stmt ε)) : List String :=
  score.filterMap fun
    | .label name => some name
    | _ => none

theorem mem_names (h : after name score = some pattern) : name ∈ names score :=
  List.mem_filterMap.mpr ⟨_, mem_of_after h, rfl⟩

def Called (score : List (Stmt ε)) (name : String) : Prop :=
  ∃ called time lines, Live score called (.call name time :: lines)

theorem WellFormed.finite (h : WellFormed score) : Finite {name // Called score name} := by
  have hsubset : {name | Called score name} ⊆ {name | name ∈ names score} := by
    rintro name ⟨called, time, lines, hlive⟩
    obtain ⟨pattern, hpattern⟩ := h.label _ _ _ _ hlive
    exact mem_names hpattern
  exact ((names score).finite_toSet.subset hsubset).to_subtype

theorem WellFormed.wellFounded (h : WellFormed score) :
    WellFounded fun a b : {name // Called score name} =>
      Relation.TransGen (Calls score) b.1 a.1 := by
  have := h.finite
  have htrans : IsTrans {name // Called score name}
      fun a b => Relation.TransGen (Calls score) b.1 a.1 := ⟨fun _ _ _ hab hbc => hbc.trans hab⟩
  have hirrefl : Std.Irrefl
      fun a b : {name // Called score name} => Relation.TransGen (Calls score) b.1 a.1 := by
    refine ⟨fun a => ?_⟩
    obtain ⟨called, time, lines, hlive⟩ := a.2
    exact h.notRecursive _ _ _ _ hlive
  exact Finite.wellFounded_of_trans_of_irrefl _

theorem exists_expands_of {P : List (Stmt ε) → Prop} {chain : List ℚ}
    (hlabel : ∀ name lines, ¬ P (.label name :: lines))
    (hevent : ∀ time function lines, P (.event time function :: lines) → P lines)
    (hcall : ∀ name time lines, P (.call name time :: lines) → P lines ∧
      ∀ chain, ∃ pattern events, after name score = some pattern ∧
        Expands score chain pattern events)
    (hdone : P [] → chain = []) (h : P lines) : ∃ events, Expands score chain lines events := by
  induction lines with
  | nil => exact hdone h ▸ ⟨[], .done⟩
  | cons line lines ih =>
    cases line with
    | label name => exact absurd h (hlabel name lines)
    | event time function =>
      obtain ⟨events, hevents⟩ := ih (hevent time function lines h)
      exact ⟨_, .event hevents⟩
    | call name time =>
      obtain ⟨hlines, hpattern⟩ := hcall name time lines h
      obtain ⟨pattern, events, hafter, hevents⟩ := hpattern (chain ++ [time.getD 0])
      obtain ⟨events', hevents'⟩ := ih hlines
      exact ⟨_, .call hafter hevents hevents'⟩
    | ret => exact ⟨[], .ret⟩

theorem WellFormed.exists_expands_pattern (h : WellFormed score)
    (name : {name // Called score name}) (chain : List ℚ) :
    ∃ pattern events, after name.1 score = some pattern ∧ Expands score chain pattern events := by
  induction name using h.wellFounded.induction generalizing chain with
  | _ name ih =>
    obtain ⟨called, time, lines, hlive⟩ := name.2
    obtain ⟨pattern, hpattern⟩ := h.label _ _ _ _ hlive
    have hcall : ∀ name' time' lines', Within score name.1 (.call name' time' :: lines') →
        Within score name.1 lines' ∧ ∀ chain, ∃ pattern events, after name' score = some pattern ∧
          Expands score chain pattern events := by
      intro name' time' lines' hwithin
      exact ⟨hwithin.call, ih ⟨name', _, _, _, hwithin.live hlive⟩ (.single ⟨_, _, hwithin⟩)⟩
    obtain ⟨events, hevents⟩ := exists_expands_of
      (fun _ _ hwithin => h.noFallThrough _ _ _ (hwithin.live hlive))
      (fun _ _ _ hwithin => hwithin.event) hcall
      (fun hwithin => absurd (hwithin.live hlive) h.noEnd) (.start hpattern)
    exact ⟨pattern, events, hpattern, hevents⟩

theorem WellFormed.exists_expands (h : WellFormed score) :
    ∃ events, Expands score [] score events :=
  exists_expands_of (fun _ _ hlive => h.noFallThrough _ _ _ hlive)
    (fun _ _ _ hlive => hlive.event)
    (fun name _ _ hlive =>
      ⟨hlive.call, h.exists_expands_pattern ⟨name, _, _, _, hlive⟩⟩)
    (fun _ => rfl) .start

end Expansion

section Points

variable {score lines : List (Stmt ε)} {n : ℕ}

attribute [local simp] scoreLinesToSexp go

def isCall : Stmt ε → Bool
  | .call .. => true
  | .label _ | .event .. | .ret => false

/-- The lines are at the end of the score, after a number of calls. -/
def Point (score : List (Stmt ε)) (n : ℕ) (lines : List (Stmt ε)) : Prop :=
  ∃ before, score = before ++ lines ∧ before.countP isCall = n

theorem Point.next {line : Stmt ε} (h : Point score n (line :: lines)) (hline : isCall line = false) :
    Point score n lines := by
  obtain ⟨before, rfl, hcount⟩ := h
  exact ⟨before ++ [line], by simp, by simp [hcount, hline]⟩

theorem Point.call {name : String} {time : Option ℚ} (h : Point score n (.call name time :: lines)) :
    Point score (n + 1) lines := by
  obtain ⟨before, rfl, hcount⟩ := h
  exact ⟨before ++ [.call name time], by simp, by simp [hcount, isCall]⟩

theorem scoreLinesToSexp_append (n : ℕ) (before lines : List (Stmt ε)) :
    scoreLinesToSexp n (before ++ lines) =
      scoreLinesToSexp n before ++ scoreLinesToSexp (n + before.countP isCall) lines := by
  induction before generalizing n with
  | nil => rfl
  | cons line before ih =>
    cases line with
    | call =>
      simp only [List.cons_append, scoreLinesToSexp, ih, isCall, List.countP_cons, if_true]
      rw [Nat.add_right_comm, Nat.add_assoc]
    | label | event | ret => simp [scoreLinesToSexp, ih, isCall]

theorem lt_of_continue_mem {k : ℕ} (h : .tag (.continue k) ∈ scoreLinesToSexp n lines) :
    n ≤ k ∧ k < n + lines.countP isCall := by
  induction lines generalizing n with
  | nil => cases h
  | cons line lines ih =>
    cases line with
    | call name time =>
      simp only [scoreLinesToSexp, List.mem_cons, reduceCtorEq, false_or, Item.tag.injEq,
        Tag.continue.injEq] at h
      rw [List.countP_cons_of_pos rfl]
      obtain rfl | h := h
      · omega
      · have := ih h
        omega
    | label | event | ret =>
      simp only [scoreLinesToSexp, List.mem_cons, reduceCtorEq, false_or, Item.tag.injEq] at h
      rw [List.countP_cons_of_neg (by simp [isCall])]
      exact ih h

theorem end_not_mem (n : ℕ) (lines : List (Stmt ε)) :
    .tag .endOfScore ∉ scoreLinesToSexp n lines := by
  induction lines generalizing n with
  | nil => exact List.not_mem_nil
  | cons line lines ih => cases line <;> simp [scoreLinesToSexp, ih]

theorem go_append {tag : Tag} {items : List (Item ε)} (h : .tag tag ∉ items)
    (items' : List (Item ε)) : go tag (items ++ items') = go tag items' := by
  induction items with
  | nil => rfl
  | cons item items ih =>
    rw [List.mem_cons, not_or] at h
    cases item with
    | tag tag' =>
      have hne : tag' ≠ tag := fun heq => h.1 (heq ▸ rfl)
      rw [List.cons_append, go, if_neg hne]
      exact ih h.2
    | «at» | scoreJump | funcallPop => exact ih h.2

theorem go_end (score : List (Stmt ε)) : go .endOfScore (writeRegofile score) = some [] := by
  rw [writeRegofile, go_append (end_not_mem 0 score), go, if_pos rfl]

theorem go_continue {time : Option ℚ} (h : Point score n (.call name time :: lines)) :
    go (.continue n) (writeRegofile score) =
      some (scoreLinesToSexp (n + 1) lines ++ [.tag .endOfScore]) := by
  obtain ⟨before, rfl, hcount⟩ := h
  have hnot : .tag (.continue n) ∉ scoreLinesToSexp 0 before := by
    intro hmem
    have := lt_of_continue_mem hmem
    omega
  rw [writeRegofile, scoreLinesToSexp_append, hcount, Nat.zero_add, List.append_assoc,
    go_append hnot, scoreLinesToSexp]
  simp [go]

theorem go_user_lines (h : after name lines = some pattern) (n : ℕ) (items : List (Item ε)) :
    ∃ before, lines = before ++ pattern ∧
      go (.user name) (scoreLinesToSexp n lines ++ items) =
        some (scoreLinesToSexp (n + before.countP isCall) pattern ++ items) := by
  induction lines generalizing n with
  | nil => cases h
  | cons line lines ih =>
    cases line with
    | label name' =>
      rw [after] at h
      split at h
      next heq =>
        obtain rfl := Option.some.inj h
        exact ⟨[.label name'], rfl, by simp [scoreLinesToSexp, go, heq, isCall]⟩
      next hne =>
        obtain ⟨before, hlines, hgo⟩ := ih h n
        refine ⟨.label name' :: before, by rw [hlines, List.cons_append], ?_⟩
        rw [List.countP_cons_of_neg (by simp [isCall]), ← hgo]
        simp [scoreLinesToSexp, go, hne]
    | call name' time =>
      obtain ⟨before, hlines, hgo⟩ := ih h (n + 1)
      refine ⟨.call name' time :: before, by rw [hlines, List.cons_append], ?_⟩
      rw [List.countP_cons_of_pos rfl, Nat.add_comm _ 1, ← Nat.add_assoc, ← hgo]
      simp [scoreLinesToSexp, go]
    | event time function =>
      obtain ⟨before, hlines, hgo⟩ := ih h n
      exact ⟨.event time function :: before, by rw [hlines, List.cons_append], hgo⟩
    | ret =>
      obtain ⟨before, hlines, hgo⟩ := ih h n
      exact ⟨.ret :: before, by rw [hlines, List.cons_append], hgo⟩

theorem go_user (h : after name score = some pattern) :
    ∃ n, Point score n pattern ∧ go (.user name) (writeRegofile score) =
      some (scoreLinesToSexp n pattern ++ [.tag .endOfScore]) := by
  obtain ⟨before, hscore, hgo⟩ := go_user_lines h 0 [.tag .endOfScore]
  rw [Nat.zero_add] at hgo
  exact ⟨_, ⟨before, hscore, rfl⟩, hgo⟩

end Points

section Simulation

variable {sampleRate spb : ℚ} {score lines : List (Stmt ε)} {slots : Slots} {time : ℚ}

theorem callTime_append (chain : List ℚ) (d : ℚ) :
    callTime (chain ++ [d]) = max 0 (callTime chain + d) := by
  rw [callTime, List.foldl_append]
  rfl

theorem callTime_eq_sum {chain : List ℚ} (h : ∀ chain', chain' <+: chain → 0 ≤ chain'.sum) :
    callTime chain = chain.sum := by
  induction chain using List.reverseRecOn with
  | nil => rfl
  | append_singleton chain d ih =>
    have hchain := ih fun chain' hle => h chain' (hle.trans (List.prefix_append _ _))
    have hsum := h _ (List.prefix_refl _)
    rw [List.sum_append, List.sum_singleton] at hsum
    rw [callTime_append, hchain, List.sum_append, List.sum_singleton, max_eq_right hsum]

theorem scoreJump_eq (s : State ε) (hslots : s.slots.Holds sampleRate (beatsToSeconds spb) time) (retLabel : Tag)
    (d : Option ℚ) (rest : List (Item ε)) :
    ∃ closure slots, scoreJump sampleRate spb s retLabel d rest =
        ⟨rest, closure :: s.stack, slots, s.events⟩ ∧
      closure.retLabel = retLabel ∧ closure.restore sampleRate spb slots = s.slots ∧
      slots.Holds sampleRate (beatsToSeconds spb) (max 0 (time + d.getD 0)) ∧
      slots.smptime0 = s.slots.smptime0 := by
  have hunchanged : d.getD 0 = 0 → s.slots.Holds sampleRate (beatsToSeconds spb) (max 0 (time + d.getD 0)) := by
    intro hd
    rw [hd, add_zero, max_eq_right hslots.nonneg]
    exact hslots
  have hnone : jumpTime d = none → ∃ closure slots, scoreJump sampleRate spb s retLabel d rest =
        ⟨rest, closure :: s.stack, slots, s.events⟩ ∧
      closure.retLabel = retLabel ∧ closure.restore sampleRate spb slots = s.slots ∧
      slots.Holds sampleRate (beatsToSeconds spb) (max 0 (time + d.getD 0)) ∧
      slots.smptime0 = s.slots.smptime0 := by
    intro hjump
    have hd : d.getD 0 = 0 := by
      cases d with
      | none => rfl
      | some d =>
        rw [jumpTime] at hjump
        split at hjump
        next h => exact h
        next => cases hjump
    exact ⟨⟨none, retLabel⟩, s.slots, by rw [scoreJump, hjump], rfl, rfl, hunchanged hd, rfl⟩
  cases d with
  | none => exact hnone rfl
  | some d =>
    by_cases hd : d = 0
    · exact hnone (if_pos hd)
    · have hjump : jumpTime (some d) = some d := if_neg hd
      refine ⟨⟨some s.slots.timeBeats, retLabel⟩,
        setRegoTime sampleRate (beatsToSeconds spb) s.slots (s.slots.timeBeats + d), by rw [scoreJump, hjump], rfl,
        hslots.restore _, ?_, rfl⟩
      rw [← hslots.timeBeats]
      exact holds_setRegoTime _ _

def eventAt (sampleRate spb smptime0 : ℚ) : List ℚ × ℚ≥0 × ε → ℚ × ε
  | (chain, time, function) =>
    (smptime0 + sampleRate * beatsToSeconds spb (time + callTime chain), function)

theorem Expands.balanced {chain : List ℚ} {events : List (List ℚ × ℚ≥0 × ε)}
    (h : Expands score chain lines events) {n : ℕ} (hpoint : Point score n lines)
    {closure : Closure} {stack : List Closure}
    (hslots : slots.Holds sampleRate (beatsToSeconds spb) (callTime chain)) {rest : List (Item ε)}
    (hgo : go closure.retLabel (writeRegofile score) = some rest)
    (hmain : chain = [] → rest = [] ∧ closure.t0 = none) (log : List (ℚ × ε)) :
    ∃ stack', (chain ≠ [] → stack' = stack) ∧ Balanced sampleRate spb (writeRegofile score)
      ⟨scoreLinesToSexp n lines ++ [.tag .endOfScore], closure :: stack, slots, log⟩
      ⟨rest, stack', closure.restore sampleRate spb slots,
        log ++ events.map (eventAt sampleRate spb slots.smptime0)⟩ := by
  induction h generalizing n closure stack slots rest log with
  | done =>
    obtain ⟨rfl, ht0⟩ := hmain rfl
    refine ⟨closure :: stack, fun hne => absurd rfl hne, .step nofun rfl ?_⟩
    rw [Closure.restore, ht0, List.map_nil, List.append_nil]
    exact .refl
  | @ret chain lines =>
    have hstep : step sampleRate spb (writeRegofile score)
        ⟨scoreLinesToSexp n (.ret :: lines) ++ [.tag .endOfScore], closure :: stack, slots, log⟩ =
        some ⟨rest, stack, closure.restore sampleRate spb slots, log⟩ := by
      simp only [scoreLinesToSexp, List.cons_append, step, hgo, Option.map_some]
    refine ⟨stack, fun _ => rfl, .step nofun hstep ?_⟩
    rw [List.map_nil, List.append_nil]
    exact .refl
  | @event chain time function lines events h ih =>
    have hevent : (slots.smptime + sampleRate * beatsToSeconds spb time, function) =
        eventAt sampleRate spb slots.smptime0 (chain, time, function) := by
      rw [eventAt, hslots.smptime, beatsToSeconds, beatsToSeconds, beatsToSeconds]
      congr 1
      ring
    have hstep : step sampleRate spb (writeRegofile score)
        ⟨scoreLinesToSexp n (.event time function :: lines) ++ [.tag .endOfScore],
          closure :: stack, slots, log⟩ =
        some ⟨scoreLinesToSexp n lines ++ [.tag .endOfScore], closure :: stack, slots,
          log ++ [eventAt sampleRate spb slots.smptime0 (chain, time, function)]⟩ := by
      rw [← hevent]
      rfl
    obtain ⟨stack', hstack, hbalanced⟩ := ih (hpoint.next rfl) hslots hgo hmain
      (log ++ [eventAt sampleRate spb slots.smptime0 (chain, time, function)])
    rw [List.append_assoc, List.singleton_append, ← List.map_cons] at hbalanced
    exact ⟨stack', hstack, .step nofun hstep hbalanced⟩
  | @call chain name d lines pattern events events' hlabel hpattern h ihpattern ih =>
    obtain ⟨n', hpoint', hgoUser⟩ := go_user hlabel
    have hgoContinue := go_continue hpoint
    obtain ⟨closure', slots', hjump, hret, hrestore, hslots', hsmptime0⟩ := scoreJump_eq
      ⟨scoreLinesToSexp n (.call name d :: lines) ++ [.tag .endOfScore], closure :: stack, slots,
        log⟩ hslots (.continue n) d (scoreLinesToSexp n' pattern ++ [.tag .endOfScore])
    have hstep : step sampleRate spb (writeRegofile score)
        ⟨scoreLinesToSexp n (.call name d :: lines) ++ [.tag .endOfScore], closure :: stack, slots,
          log⟩ =
        some ⟨scoreLinesToSexp n' pattern ++ [.tag .endOfScore], closure' :: closure :: stack,
          slots', log⟩ := by
      rw [← hjump]
      simp only [scoreLinesToSexp, List.cons_append, step, hgoUser, Option.map_some]
    rw [← callTime_append] at hslots'
    rw [← hret] at hgoContinue
    have hne : chain ++ [d.getD 0] ≠ [] := List.append_ne_nil_of_right_ne_nil _ (List.cons_ne_nil _ _)
    obtain ⟨stack₁, hstack₁, hbalanced₁⟩ := @ihpattern slots' n' hpoint' closure'
      (closure :: stack) hslots' _ hgoContinue (fun hnil => absurd hnil hne) log
    obtain ⟨stack₂, hstack₂, hbalanced₂⟩ := ih hpoint.call hslots hgo hmain
      (log ++ events.map (eventAt sampleRate spb slots.smptime0))
    rw [hsmptime0, hrestore, hstack₁ hne] at hbalanced₁
    rw [List.append_assoc, ← List.map_append] at hbalanced₂
    exact ⟨stack₂, hstack₂, .call rfl hstep hbalanced₁ rfl rfl rfl hbalanced₂⟩

/-- The produced events are the recursive expansion of the called patterns, where an event is at its
time plus the value of TIME in its chain of calls, that is the sum of the times of the calls if no
partial sum is negative (TIME is never negative). Each call continues right after itself with the
TIME that it found. -/
theorem run_eq_expansion (sampleRate spb now : ℚ) (h : WellFormed score) :
    ∃ events final, Expands score [] score events ∧
      Balanced sampleRate spb (writeRegofile score) (initial now score) final ∧
      final.rest = [] ∧ final.slots = (initial now score).slots ∧
      final.events = events.map (fun (chain, time, function) =>
        (now + sampleRate * beatsToSeconds spb (time + callTime chain), function)) ∧
      ∀ event ∈ events, (∀ chain, chain <+: event.1 → 0 ≤ chain.sum) →
        callTime event.1 = event.1.sum := by
  obtain ⟨events, hevents⟩ := h.exists_expands
  have hslots : (initial now score).slots.Holds sampleRate (beatsToSeconds spb) (callTime []) :=
    ⟨rfl, by simp [initial, beatsToSeconds, callTime], le_refl 0⟩
  have hpoint : Point score 0 score := ⟨[], rfl, rfl⟩
  obtain ⟨stack, -, hbalanced⟩ := @Expands.balanced _ _ _ _ _ _ _ _ hevents _ hpoint
    ⟨none, .endOfScore⟩ [] hslots _ (go_end score) (fun _ => ⟨rfl, rfl⟩) []
  exact ⟨events, _, hevents, hbalanced, rfl, rfl, rfl, fun event _ => callTime_eq_sum⟩

end Simulation

/-- The score `call p d`, `return`, `p`, `0 function`, `return`. -/
def oneCall (d : ℚ) : List (Stmt Unit) :=
  [.call "p" (some d), .ret, .label "p", .event 0 (), .ret]

theorem expands_oneCall (d : ℚ) : Expands (oneCall d) [] (oneCall d) [([d], 0, ())] :=
  .call rfl (.event .ret) .ret

/-- The pattern `p` is called at the time 2 and calls the pattern `q` three beats later. -/
def nestedCalls : List (Stmt Unit) :=
  [.call "p" (some 2), .ret, .label "p", .call "q" (some 3), .event 1 (), .ret,
    .label "q", .event 0 (), .ret]

theorem live_nestedCalls {called : Bool} {lines : List (Stmt Unit)}
    (h : Live nestedCalls called lines) :
    called = false ∧ (lines = nestedCalls ∨ lines = nestedCalls.drop 1) ∨
      called = true ∧ (lines = nestedCalls.drop 3 ∨ lines = nestedCalls.drop 4 ∨
        lines = nestedCalls.drop 5 ∨ lines = nestedCalls.drop 7 ∨ lines = nestedCalls.drop 8) := by
  induction h with
  | start => exact .inl ⟨rfl, .inl rfl⟩
  | event h ih | call h ih =>
    obtain ⟨rfl, heq | heq⟩ | ⟨rfl, heq | heq | heq | heq | heq⟩ := ih <;> cases heq <;>
      simp [nestedCalls]
  | pattern h hlabel ih =>
    obtain ⟨-, heq | heq⟩ | ⟨-, heq | heq | heq | heq | heq⟩ := ih <;> cases heq <;>
      obtain rfl := Option.some.inj hlabel <;> simp [nestedCalls]

theorem within_nestedCalls {lines : List (Stmt Unit)} (h : Within nestedCalls name lines) :
    name = "p" ∧ (lines = nestedCalls.drop 3 ∨ lines = nestedCalls.drop 4 ∨
        lines = nestedCalls.drop 5) ∨
      name = "q" ∧ (lines = nestedCalls.drop 7 ∨ lines = nestedCalls.drop 8) := by
  induction h with
  | start h =>
    simp only [nestedCalls, after] at h
    split_ifs at h with hp hq
    · exact .inl ⟨hp.symm, .inl (Option.some.inj h).symm⟩
    · exact .inr ⟨hq.symm, .inl (Option.some.inj h).symm⟩
  | event h ih | call h ih =>
    obtain ⟨rfl, heq | heq | heq⟩ | ⟨rfl, heq | heq⟩ := ih <;> cases heq <;> simp [nestedCalls]

theorem calls_nestedCalls {name' : String} (h : Calls nestedCalls name name') :
    name = "p" ∧ name' = "q" := by
  obtain ⟨time, lines, hwithin⟩ := h
  obtain ⟨rfl, heq | heq | heq⟩ | ⟨-, heq | heq⟩ := within_nestedCalls hwithin <;> cases heq
  exact ⟨rfl, rfl⟩

theorem wellFormed_nestedCalls : WellFormed nestedCalls where
  label called name time lines h := by
    obtain ⟨-, heq | heq⟩ | ⟨-, heq | heq | heq | heq | heq⟩ := live_nestedCalls h <;> cases heq
    · exact ⟨_, rfl⟩
    · exact ⟨_, rfl⟩
  noFallThrough called name lines h := by
    obtain ⟨-, heq | heq⟩ | ⟨-, heq | heq | heq | heq | heq⟩ := live_nestedCalls h <;> cases heq
  noEnd h := by
    obtain ⟨-, heq | heq⟩ | ⟨-, heq | heq | heq | heq | heq⟩ := live_nestedCalls h <;> cases heq
  notRecursive called name time lines h hrec := by
    obtain ⟨_, hfirst, -⟩ := Relation.TransGen.head'_iff.mp hrec
    obtain ⟨_, -, hlast⟩ := Relation.TransGen.tail'_iff.mp hrec
    exact absurd ((calls_nestedCalls hfirst).1.symm.trans (calls_nestedCalls hlast).2) (by decide)

theorem run_eq_expansion_nestedCalls : ∃ final,
    Balanced 48000 (1 / 2) (writeRegofile nestedCalls) (initial 0 nestedCalls) final ∧
      final.rest = [] ∧ final.events = [(120000, ()), (72000, ())] := by
  obtain ⟨events, final, hevents, hbalanced, hrest, -, hfinal, -⟩ :=
    run_eq_expansion 48000 (1 / 2) 0 wellFormed_nestedCalls
  have hexpansion : events = [([2, 3], 0, ()), ([2], 1, ())] := by
    cases hevents with
    | call hlabel hpattern h =>
      cases h
      obtain rfl := Option.some.inj hlabel
      cases hpattern with
      | call hlabel' hpattern' h' =>
        obtain rfl := Option.some.inj hlabel'
        cases hpattern' with
        | event h₀ =>
          cases h₀
          cases h' with
          | event h₁ =>
            cases h₁
            rfl
  refine ⟨final, hbalanced, hrest, ?_⟩
  rw [hfinal, hexpansion]
  norm_num [callTime, beatsToSeconds]

/-- The event of a pattern called at the time -1 is not before the start of the score. -/
theorem run_negative_time : ∃ events final,
    Expands (oneCall (-1)) [] (oneCall (-1)) events ∧
      Balanced 1 1 (writeRegofile (oneCall (-1))) (initial 0 (oneCall (-1))) final ∧
      final.rest = [] ∧
      final.events ≠ events.map fun (chain, time, function) =>
        (0 + 1 * beatsToSeconds 1 (time + chain.sum), function) := by
  have hslots : (initial 0 (oneCall (-1))).slots.Holds 1 (beatsToSeconds 1) (callTime []) :=
    ⟨rfl, by simp [initial, beatsToSeconds, callTime], le_refl 0⟩
  obtain ⟨stack, -, hbalanced⟩ := @Expands.balanced _ _ _ _ _ _ _ _ (expands_oneCall (-1)) _
    ⟨[], rfl, rfl⟩ ⟨none, .endOfScore⟩ [] hslots _ (go_end _) (fun _ => ⟨rfl, rfl⟩) []
  refine ⟨_, _, expands_oneCall (-1), hbalanced, rfl, ?_⟩
  simp [eventAt, callTime, beatsToSeconds, initial]

end Incudine.CallReturn
