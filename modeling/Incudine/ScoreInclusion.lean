import Incudine.RegoTime
import Mathlib.Tactic.NormNum

/-!
# Included scores

A score is the sequence of the statements that it performs, where included files and expansions of
macros are nested scores. The tempo envelopes are foreign objects, thus TEMPO changes the envelope
for all the variables that refer to it.
-/

namespace Incudine.ScoreInclusion

open RegoTime

variable {E φ : Type*}

/-- A change of TIME or TEMPO-ENV, where the new value can depend on TIME. -/
inductive Change (E : Type*) where
  | time (value : ℚ → ℚ)
  | tempo (tempoEnv : ℚ → E)
  | setTempoEnv (tempoEnv : ℚ → E)

inductive Score (E φ : Type*) where
  | done
  | event (atBeat : ℚ → ℚ) (function : φ) (rest : Score E φ)
  | assign (change : Change E) (rest : Score E φ)
  | inclusion (timeOffset : Option (ℚ → ℚ)) (bindings : List (Change E)) (body rest : Score E φ)

/-- The variable TEMPO-ENV refers to an envelope of the heap. `time` and `smptime1` are the special
variables `__time__` and `__smptime1__`, that are not bound by the generated code. -/
structure State (E φ : Type*) where
  slots : Slots
  time : Option ℚ
  smptime1 : Option ℚ
  tempoEnv : ℕ
  heap : ℕ → E
  next : ℕ
  events : List (ℚ × φ)

def State.envelope (s : State E φ) : E := s.heap s.tempoEnv

section Run

variable (sampleRate : ℚ) (beatsToSeconds : E → ℚ → ℚ)

def Change.apply (change : Change E) (s : State E φ) : State E φ :=
  match change with
  | time value => { s with
      slots := setRegoTime sampleRate (beatsToSeconds s.envelope) s.slots (value s.slots.timeBeats) }
  | tempo tempoEnv => { s with
      heap := Function.update s.heap s.tempoEnv (tempoEnv s.slots.timeBeats) }
  | setTempoEnv tempoEnv => { s with
      heap := Function.update s.heap s.next (tempoEnv s.slots.timeBeats)
      tempoEnv := s.next
      next := s.next + 1 }

def scheduleAt (atBeat : ℚ → ℚ) (function : φ) (s : State E φ) : State E φ := { s with
  events := s.events ++
    [(s.slots.smptime + sampleRate * beatsToSeconds s.envelope (atBeat s.slots.timeBeats),
      function)] }

def offsetSamples (envelope : E) : Option ℚ → ℚ
  | some timeOffset => sampleRate * beatsToSeconds envelope timeOffset
  | none => 0

def localTempo (timeOffset : Option ℚ) (s : State E φ) : State E φ :=
  let smptime := s.slots.smptime + offsetSamples sampleRate beatsToSeconds s.envelope timeOffset
  { s with
    slots := { s.slots with smptime := smptime, smptime0 := smptime }
    smptime1 := some 0
    heap := Function.update s.heap s.next s.envelope
    tempoEnv := s.next
    next := s.next + 1 }

def applyBindings (bindings : List (Change E)) (s : State E φ) : State E φ :=
  bindings.foldl (fun s change => change.apply sampleRate beatsToSeconds s) s

/-- The bindings and the initialization of an included score. -/
def enter (timeOffset : Option (ℚ → ℚ)) (bindings : List (Change E)) (s : State E φ) :
    State E φ :=
  localTempo sampleRate beatsToSeconds (timeOffset.map (· s.slots.timeBeats))
    (applyBindings sampleRate beatsToSeconds bindings s)

/-- The end of an included score, where `parent` is the state before the inclusion. -/
def leave (parent s : State E φ) : State E φ := { s with
  time := some parent.slots.timeBeats
  slots := { s.slots with smptime := parent.slots.smptime, smptime0 := parent.slots.smptime0 }
  tempoEnv := parent.tempoEnv }

def run : Score E φ → State E φ → State E φ
  | .done, s => s
  | .event atBeat function rest, s =>
    run rest (scheduleAt sampleRate beatsToSeconds atBeat function s)
  | .assign change rest, s => run rest (change.apply sampleRate beatsToSeconds s)
  | .inclusion timeOffset bindings body rest, s =>
    run rest (leave s (run body (enter sampleRate beatsToSeconds timeOffset bindings s)))

def included (timeOffset : Option (ℚ → ℚ)) (bindings : List (Change E)) (body : Score E φ)
    (s : State E φ) : State E φ :=
  leave s (run sampleRate beatsToSeconds body
    (enter sampleRate beatsToSeconds timeOffset bindings s))

/-- The start of a score at the time `now` in samples. -/
def initial (now : ℚ) (defaultTempoEnv : E) : State E φ where
  slots := ⟨now, now, 0⟩
  time := none
  smptime1 := none
  tempoEnv := 0
  heap := fun _ => defaultTempoEnv
  next := 1
  events := []

/-- The run of a score gets to the rest of a score, that is also included at any depth. -/
inductive Reaches : Score E φ → State E φ → Score E φ → State E φ → Prop
  | refl {score : Score E φ} {s : State E φ} : Reaches score s score s
  | event {atBeat : ℚ → ℚ} {function : φ} {rest score : Score E φ} {s s' : State E φ}
      (h : Reaches rest (scheduleAt sampleRate beatsToSeconds atBeat function s) score s') :
      Reaches (.event atBeat function rest) s score s'
  | assign {change : Change E} {rest score : Score E φ} {s s' : State E φ}
      (h : Reaches rest (change.apply sampleRate beatsToSeconds s) score s') :
      Reaches (.assign change rest) s score s'
  | body {timeOffset : Option (ℚ → ℚ)} {bindings : List (Change E)} {body rest score : Score E φ}
      {s s' : State E φ}
      (h : Reaches body (enter sampleRate beatsToSeconds timeOffset bindings s) score s') :
      Reaches (.inclusion timeOffset bindings body rest) s score s'
  | rest {timeOffset : Option (ℚ → ℚ)} {bindings : List (Change E)} {body rest score : Score E φ}
      {s s' : State E φ}
      (h : Reaches rest (included sampleRate beatsToSeconds timeOffset bindings body s) score s') :
      Reaches (.inclusion timeOffset bindings body rest) s score s'

def laterEvents (rest : Score E φ) (s : State E φ) : List (ℚ × φ) :=
  (run sampleRate beatsToSeconds rest { s with events := [] }).events

end Run

/-- What a score can see of the state. -/
@[ext]
structure View (E : Type*) where
  slots : Slots
  envelope : E

def State.view (s : State E φ) : View E := ⟨s.slots, s.envelope⟩

/-- The envelope of the parent after the bindings of an included score, that is changed until the
variable refers to another envelope. -/
def leakedTempo (time : ℚ) (envelope : E) : List (Change E) → E
  | [] => envelope
  | .time value :: bindings => leakedTempo (max 0 (value time)) envelope bindings
  | .tempo tempoEnv :: bindings => leakedTempo time (tempoEnv time) bindings
  | .setTempoEnv _ :: _ => envelope

def Change.beats (time : ℚ) : Change E → ℚ
  | .time value => max 0 (value time)
  | .tempo _ => time
  | .setTempoEnv _ => time

def Score.beats : Score E φ → ℚ → ℚ
  | .done, time => time
  | .event _ _ rest, time => rest.beats time
  | .assign change rest, time => rest.beats (change.beats time)
  | .inclusion _ bindings body rest, time =>
    rest.beats (body.beats (bindings.foldl Change.beats time))

section Eval

variable (sampleRate : ℚ) (beatsToSeconds : E → ℚ → ℚ)

def Change.eval (change : Change E) (v : View E) : View E :=
  match change with
  | time value =>
    ⟨setRegoTime sampleRate (beatsToSeconds v.envelope) v.slots (value v.slots.timeBeats), v.envelope⟩
  | tempo tempoEnv => ⟨v.slots, tempoEnv v.slots.timeBeats⟩
  | setTempoEnv tempoEnv => ⟨v.slots, tempoEnv v.slots.timeBeats⟩

def View.enter (timeOffset : Option (ℚ → ℚ)) (bindings : List (Change E)) (v : View E) : View E :=
  let v' := bindings.foldl (fun v change => change.eval sampleRate beatsToSeconds v) v
  let smptime := v'.slots.smptime +
    offsetSamples sampleRate beatsToSeconds v'.envelope (timeOffset.map (· v.slots.timeBeats))
  ⟨{ v'.slots with smptime := smptime, smptime0 := smptime }, v'.envelope⟩

def View.leave (bindings : List (Change E)) (parent v : View E) : View E :=
  ⟨{ v.slots with smptime := parent.slots.smptime, smptime0 := parent.slots.smptime0 },
    leakedTempo parent.slots.timeBeats parent.envelope bindings⟩

def Score.final : Score E φ → View E → View E
  | .done, v => v
  | .event _ _ rest, v => rest.final v
  | .assign change rest, v => rest.final (change.eval sampleRate beatsToSeconds v)
  | .inclusion timeOffset bindings body rest, v =>
    rest.final (v.leave bindings
      (body.final (v.enter sampleRate beatsToSeconds timeOffset bindings)))

def Score.events : Score E φ → View E → List (ℚ × φ)
  | .done, _ => []
  | .event atBeat function rest, v =>
    (v.slots.smptime + sampleRate * beatsToSeconds v.envelope (atBeat v.slots.timeBeats), function) ::
      rest.events v
  | .assign change rest, v => rest.events (change.eval sampleRate beatsToSeconds v)
  | .inclusion timeOffset bindings body rest, v =>
    body.events (v.enter sampleRate beatsToSeconds timeOffset bindings) ++
      rest.events (v.leave bindings
        (body.final sampleRate beatsToSeconds
          (v.enter sampleRate beatsToSeconds timeOffset bindings)))

end Eval

section Kept

variable {sampleRate : ℚ} {beatsToSeconds : E → ℚ → ℚ} {s : State E φ} {r : ℕ} {e : E}

/-- The variable TEMPO-ENV does not refer to the envelope `r`, whose content is `e`. -/
structure Kept (r : ℕ) (e : E) (s : State E φ) : Prop where
  lt : r < s.next
  ne : r ≠ s.tempoEnv
  heap : s.heap r = e

theorem Kept.apply (h : Kept r e s) (change : Change E) :
    Kept r e (change.apply sampleRate beatsToSeconds s) := by
  cases change with
  | time value => exact ⟨h.lt, h.ne, h.heap⟩
  | tempo tempoEnv => exact ⟨h.lt, h.ne, (Function.update_of_ne h.ne _ _).trans h.heap⟩
  | setTempoEnv tempoEnv =>
    exact ⟨Nat.lt_succ_of_lt h.lt, h.lt.ne, (Function.update_of_ne h.lt.ne _ _).trans h.heap⟩

theorem Kept.applyBindings (h : Kept r e s) (bindings : List (Change E)) :
    Kept r e (applyBindings sampleRate beatsToSeconds bindings s) := by
  induction bindings generalizing s with
  | nil => exact h
  | cons change bindings ih => exact ih (h.apply change)

theorem kept_localTempo (timeOffset : Option ℚ) (hlt : r < s.next) (hheap : s.heap r = e) :
    Kept r e (localTempo sampleRate beatsToSeconds timeOffset s) :=
  ⟨Nat.lt_succ_of_lt hlt, hlt.ne, (Function.update_of_ne hlt.ne _ _).trans hheap⟩

theorem Kept.enter (h : Kept r e s) (timeOffset : Option (ℚ → ℚ)) (bindings : List (Change E)) :
    Kept r e (enter sampleRate beatsToSeconds timeOffset bindings s) :=
  kept_localTempo _ (h.applyBindings bindings).lt (h.applyBindings bindings).heap

theorem Kept.run (h : Kept r e s) (score : Score E φ) :
    Kept r e (run sampleRate beatsToSeconds score s) := by
  induction score generalizing s with
  | done => exact h
  | event atBeat function rest ih => exact ih ⟨h.lt, h.ne, h.heap⟩
  | assign change rest ih => exact ih (h.apply change)
  | inclusion timeOffset bindings body rest ihbody ih =>
    have hbody : Kept r e (ScoreInclusion.run sampleRate beatsToSeconds body
        (ScoreInclusion.enter sampleRate beatsToSeconds timeOffset bindings s)) :=
      ihbody (h.enter timeOffset bindings)
    exact ih ⟨hbody.lt, h.ne, hbody.heap⟩

theorem applyBindings_leakedTempo (hlt : s.tempoEnv < s.next) (bindings : List (Change E)) :
    s.tempoEnv < (applyBindings sampleRate beatsToSeconds bindings s).next ∧
      (applyBindings sampleRate beatsToSeconds bindings s).heap s.tempoEnv =
        leakedTempo s.slots.timeBeats s.envelope bindings := by
  induction bindings generalizing s with
  | nil => exact ⟨hlt, rfl⟩
  | cons change bindings ih =>
    cases change with
    | time value => exact @ih ((Change.time value).apply sampleRate beatsToSeconds s) hlt
    | tempo tempoEnv =>
      have h := @ih ((Change.tempo tempoEnv).apply sampleRate beatsToSeconds s) hlt
      have henvelope : ((Change.tempo tempoEnv).apply sampleRate beatsToSeconds s).envelope =
          tempoEnv s.slots.timeBeats := Function.update_self _ _ _
      rw [henvelope] at h
      exact h
    | setTempoEnv tempoEnv =>
      have hkept : Kept s.tempoEnv s.envelope
          ((Change.setTempoEnv tempoEnv).apply sampleRate beatsToSeconds s) :=
        ⟨Nat.lt_succ_of_lt hlt, hlt.ne, Function.update_of_ne hlt.ne _ _⟩
      have h : Kept s.tempoEnv s.envelope
          (applyBindings sampleRate beatsToSeconds (.setTempoEnv tempoEnv :: bindings) s) :=
        hkept.applyBindings bindings
      exact ⟨h.lt, h.heap⟩

theorem kept_body (hlt : s.tempoEnv < s.next) (timeOffset : Option (ℚ → ℚ))
    (bindings : List (Change E)) (body : Score E φ) :
    Kept s.tempoEnv (leakedTempo s.slots.timeBeats s.envelope bindings)
      (run sampleRate beatsToSeconds body
        (enter sampleRate beatsToSeconds timeOffset bindings s)) := by
  obtain ⟨hlt', hheap⟩ :=
    @applyBindings_leakedTempo _ _ sampleRate beatsToSeconds _ hlt bindings
  exact (kept_localTempo _ hlt' hheap).run body

end Kept

section Refinement

variable {sampleRate : ℚ} {beatsToSeconds : E → ℚ → ℚ} {s : State E φ}

theorem lt_apply (hlt : s.tempoEnv < s.next) (change : Change E) :
    (change.apply sampleRate beatsToSeconds s).tempoEnv <
      (change.apply sampleRate beatsToSeconds s).next := by
  cases change with
  | time value => exact hlt
  | tempo tempoEnv => exact hlt
  | setTempoEnv tempoEnv => exact Nat.lt_succ_self _

theorem lt_enter (timeOffset : Option (ℚ → ℚ)) (bindings : List (Change E)) :
    (enter sampleRate beatsToSeconds timeOffset bindings s).tempoEnv <
      (enter sampleRate beatsToSeconds timeOffset bindings s).next :=
  Nat.lt_succ_self _

theorem lt_included (hlt : s.tempoEnv < s.next) (timeOffset : Option (ℚ → ℚ))
    (bindings : List (Change E)) (body : Score E φ) :
    (included sampleRate beatsToSeconds timeOffset bindings body s).tempoEnv <
      (included sampleRate beatsToSeconds timeOffset bindings body s).next :=
  (kept_body hlt timeOffset bindings body).lt

theorem view_apply (change : Change E) (s : State E φ) :
    (change.apply sampleRate beatsToSeconds s).view =
      change.eval sampleRate beatsToSeconds s.view := by
  cases change with
  | time value => rfl
  | tempo tempoEnv => exact View.ext rfl (Function.update_self _ _ _)
  | setTempoEnv tempoEnv => exact View.ext rfl (Function.update_self _ _ _)

theorem view_applyBindings (bindings : List (Change E)) (s : State E φ) :
    (applyBindings sampleRate beatsToSeconds bindings s).view =
      bindings.foldl (fun v change => change.eval sampleRate beatsToSeconds v) s.view := by
  induction bindings generalizing s with
  | nil => rfl
  | cons change bindings ih =>
    rw [List.foldl_cons, ← view_apply, ← ih]
    rfl

theorem view_localTempo (timeOffset : Option ℚ) (s : State E φ) :
    (localTempo sampleRate beatsToSeconds timeOffset s).view =
      ⟨{ s.view.slots with
          smptime := s.view.slots.smptime +
            offsetSamples sampleRate beatsToSeconds s.view.envelope timeOffset
          smptime0 := s.view.slots.smptime +
            offsetSamples sampleRate beatsToSeconds s.view.envelope timeOffset },
        s.view.envelope⟩ :=
  View.ext rfl (Function.update_self _ _ _)

theorem view_enter (timeOffset : Option (ℚ → ℚ)) (bindings : List (Change E)) (s : State E φ) :
    (enter sampleRate beatsToSeconds timeOffset bindings s).view =
      s.view.enter sampleRate beatsToSeconds timeOffset bindings := by
  rw [enter, view_localTempo, view_applyBindings]
  rfl

theorem view_leave (hlt : s.tempoEnv < s.next) (timeOffset : Option (ℚ → ℚ))
    (bindings : List (Change E)) (body : Score E φ) :
    (included sampleRate beatsToSeconds timeOffset bindings body s).view =
      s.view.leave bindings (run sampleRate beatsToSeconds body
        (enter sampleRate beatsToSeconds timeOffset bindings s)).view :=
  View.ext rfl (kept_body hlt timeOffset bindings body).heap

theorem events_applyBindings (bindings : List (Change E)) (s : State E φ) :
    (applyBindings sampleRate beatsToSeconds bindings s).events = s.events := by
  induction bindings generalizing s with
  | nil => rfl
  | cons change bindings ih =>
    have happly : (change.apply sampleRate beatsToSeconds s).events = s.events := by
      cases change <;> rfl
    exact (ih _).trans happly

theorem run_refines (score : Score E φ) (hlt : s.tempoEnv < s.next) :
    (run sampleRate beatsToSeconds score s).view =
        score.final sampleRate beatsToSeconds s.view ∧
      (run sampleRate beatsToSeconds score s).events =
        s.events ++ score.events sampleRate beatsToSeconds s.view := by
  induction score generalizing s with
  | done => exact ⟨rfl, (List.append_nil _).symm⟩
  | event atBeat function rest ih =>
    obtain ⟨hview, hevents⟩ := @ih (scheduleAt sampleRate beatsToSeconds atBeat function s) hlt
    refine ⟨hview, hevents.trans ?_⟩
    rw [scheduleAt, List.append_assoc, List.singleton_append]
    rfl
  | assign change rest ih =>
    obtain ⟨hview, hevents⟩ := ih (lt_apply hlt change)
    rw [view_apply] at hview hevents
    rw [run, Score.final, Score.events, hevents]
    refine ⟨hview, ?_⟩
    cases change <;> rfl
  | inclusion timeOffset bindings body rest ihbody ih =>
    obtain ⟨hviewBody, heventsBody⟩ := ihbody (lt_enter timeOffset bindings (s := s))
    obtain ⟨hview, hevents⟩ := ih (lt_included hlt timeOffset bindings body)
    rw [view_leave hlt, hviewBody, view_enter] at hview hevents
    rw [view_enter] at heventsBody
    refine ⟨hview, hevents.trans ?_⟩
    have hparent : (included sampleRate beatsToSeconds timeOffset bindings body s).events =
        (run sampleRate beatsToSeconds body
          (enter sampleRate beatsToSeconds timeOffset bindings s)).events := rfl
    have henter : (enter sampleRate beatsToSeconds timeOffset bindings s).events = s.events :=
      events_applyBindings bindings s
    rw [hparent, heventsBody, henter, List.append_assoc]
    rfl

theorem laterEvents_eq (rest : Score E φ) (hlt : s.tempoEnv < s.next) :
    laterEvents sampleRate beatsToSeconds rest s =
      rest.events sampleRate beatsToSeconds s.view :=
  (run_refines rest (s := { s with events := [] }) hlt).2

theorem Reaches.lt {score score' : Score E φ} {s' : State E φ}
    (h : Reaches sampleRate beatsToSeconds score s score' s') (hlt : s.tempoEnv < s.next) :
    s'.tempoEnv < s'.next := by
  induction h with
  | refl => exact hlt
  | event h ih => exact ih hlt
  | assign h ih => exact ih (lt_apply hlt _)
  | body h ih => exact ih (lt_enter _ _)
  | rest h ih => exact ih (lt_included hlt _ _ _)

end Refinement

section Leaks

variable {sampleRate : ℚ} {beatsToSeconds : E → ℚ → ℚ} {s : State E φ}

theorem timeBeats_foldl (bindings : List (Change E)) (v : View E) :
    (bindings.foldl (fun v change => change.eval sampleRate beatsToSeconds v) v).slots.timeBeats =
      bindings.foldl Change.beats v.slots.timeBeats := by
  induction bindings generalizing v with
  | nil => rfl
  | cons change bindings ih =>
    rw [List.foldl_cons, List.foldl_cons, ih]
    cases change <;> rfl

theorem timeBeats_final (score : Score E φ) (v : View E) :
    (score.final sampleRate beatsToSeconds v).slots.timeBeats = score.beats v.slots.timeBeats := by
  induction score generalizing v with
  | done => rfl
  | event atBeat function rest ih => exact ih v
  | assign change rest ih =>
    rw [Score.final, ih, Score.beats]
    cases change <;> rfl
  | inclusion timeOffset bindings body rest ihbody ih =>
    have henter : (v.enter sampleRate beatsToSeconds timeOffset bindings).slots.timeBeats =
        bindings.foldl Change.beats v.slots.timeBeats := timeBeats_foldl bindings v
    rw [Score.final, ih, Score.beats, View.leave, ihbody, henter]

theorem view_included (hlt : s.tempoEnv < s.next) (timeOffset : Option (ℚ → ℚ))
    (bindings : List (Change E)) (body : Score E φ) :
    (included sampleRate beatsToSeconds timeOffset bindings body s).view =
      ⟨{ s.slots with
          timeBeats := body.beats (bindings.foldl Change.beats s.slots.timeBeats) },
        leakedTempo s.slots.timeBeats s.envelope bindings⟩ := by
  have hbody : (run sampleRate beatsToSeconds body
      (enter sampleRate beatsToSeconds timeOffset bindings s)).view = _ :=
    (run_refines body (lt_enter timeOffset bindings)).1
  have htime : (s.view.enter sampleRate beatsToSeconds timeOffset bindings).slots.timeBeats =
      bindings.foldl Change.beats s.slots.timeBeats := timeBeats_foldl bindings s.view
  have hfinal := @timeBeats_final _ _ sampleRate beatsToSeconds body
    (s.view.enter sampleRate beatsToSeconds timeOffset bindings)
  rw [htime] at hfinal
  rw [view_leave hlt, hbody, view_enter, ← hfinal]
  rfl

/-- The parent finds TIME, its sample offsets and TEMPO-ENV as before the inclusion. -/
structure Restored (s s' : State E φ) : Prop where
  slots : s'.slots = s.slots
  tempoEnv : s'.tempoEnv = s.tempoEnv
  envelope : s'.envelope = s.envelope

/-- An inclusion, at any depth, restores TIME and TEMPO-ENV of the parent, and the events of any rest
of the parent are not changed, if and only if the assignments of TIME in the included score lead
again to the value of the parent and the bindings do not change the tempo of the parent. -/
theorem restored_iff {score body rest : Score E φ} {timeOffset : Option (ℚ → ℚ)}
    {bindings : List (Change E)} {now : ℚ} {defaultTempoEnv : E}
    (h : Reaches sampleRate beatsToSeconds score (initial now defaultTempoEnv)
      (.inclusion timeOffset bindings body rest) s) :
    (Restored s (included sampleRate beatsToSeconds timeOffset bindings body s) ∧
      ∀ later : Score E φ,
        laterEvents sampleRate beatsToSeconds later
            (included sampleRate beatsToSeconds timeOffset bindings body s) =
          laterEvents sampleRate beatsToSeconds later s) ↔
    body.beats (bindings.foldl Change.beats s.slots.timeBeats) = s.slots.timeBeats ∧
      leakedTempo s.slots.timeBeats s.envelope bindings = s.envelope := by
  have hlt : s.tempoEnv < s.next := h.lt (Nat.zero_lt_one)
  have hview := @view_included _ _ sampleRate beatsToSeconds _ hlt timeOffset bindings body
  constructor
  · rintro ⟨⟨hslots, -, henvelope⟩, -⟩
    have htime := congrArg (fun v => v.slots.timeBeats) hview
    have hleaked := congrArg View.envelope hview
    exact ⟨htime.symm.trans (congrArg Slots.timeBeats hslots), hleaked.symm.trans henvelope⟩
  · rintro ⟨htime, hleaked⟩
    rw [htime, hleaked] at hview
    refine ⟨⟨congrArg View.slots hview, rfl, congrArg View.envelope hview⟩, fun later => ?_⟩
    rw [laterEvents_eq later (lt_included hlt timeOffset bindings body), laterEvents_eq later hlt,
      hview]
    rfl

/-- The included score `(incf time 3)`, `0 function`, `(decf time 3)` at the offset of two beats,
where TIME is 1 in the parent. -/
theorem restored_iff_decf :
    let body : Score ℚ Unit :=
      .assign (.time (· + 3)) (.event (fun _ => 0) () (.assign (.time (· - 3)) .done))
    let parent : State ℚ Unit := (Change.time fun _ => 1).apply 48000 (· * ·) (initial 0 (1 / 2))
    Restored parent (included 48000 (· * ·) (some fun _ => 2) [] body parent) := by
  intro body parent
  have hreaches : Reaches 48000 (· * ·)
      (.assign (.time fun _ => 1) (.inclusion (some fun _ => 2) [] body .done)) (initial 0 (1 / 2))
      (.inclusion (some fun _ => 2) [] body .done) parent := .assign .refl
  refine ((restored_iff hreaches).mpr ⟨?_, rfl⟩).1
  norm_num [body, parent, Score.beats, Change.beats, Change.apply, setRegoTime]

/-- After the included score `(setf time 3)`, the event `0 function` of the parent that follows
`(incf time 1)` is at the beat 4 instead of 1. -/
theorem inclusion_leaks :
    let rest : Score ℚ Unit := .assign (.time (· + 1)) (.event (fun _ => 0) () .done)
    let body : Score ℚ Unit := .assign (.time fun _ => 3) .done
    let parent : State ℚ Unit := initial 0 1
    Reaches 1 (· * ·) (.inclusion none [] body rest) parent (.inclusion none [] body rest) parent ∧
      ¬ Restored parent (included 1 (· * ·) none [] body parent) ∧
      laterEvents 1 (· * ·) rest (included 1 (· * ·) none [] body parent) ≠
        laterEvents 1 (· * ·) rest parent := by
  intro rest body parent
  refine ⟨.refl, fun h => ?_, ?_⟩
  · have htime := congrArg Slots.timeBeats h.slots
    norm_num [body, parent, included, leave, run, enter, localTempo, applyBindings, Change.apply,
      setRegoTime, initial] at htime
  · norm_num [rest, body, parent, laterEvents, included, leave, run, enter, localTempo, applyBindings,
      Change.apply, setRegoTime, initial, scheduleAt, offsetSamples,
      State.envelope]

end Leaks

end Incudine.ScoreInclusion
