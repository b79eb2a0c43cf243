import Incudine.VoicerRuns

/-!
# Steal

A full voicer asks a voice to end before a new one is allocated: the first node without the mark in
the direction of the steal function. A voice released after the start of its DSP has been asked
without the mark, so it can be found.
-/

namespace Incudine.Voices

open DoublyLinked Function Pool VoiceQueues

set_option linter.unusedSectionVars false

variable {τ : Type} [DecidableEq τ]

section Quiet

variable {v v' : Voicer τ} {n : ℕ} {t : τ}

structure Quiet (v v' : Voicer τ) : Prop where
  polyphony : v'.polyphony = v.polyphony
  freed : v'.freed = v.freed
  toRelease : ∀ m, (v'.nodes m).toRelease = (v.nodes m).toRelease

theorem Quiet.trans {v'' : Voicer τ} (h : Quiet v v') (h' : Quiet v' v'') : Quiet v v'' where
  polyphony := h'.polyphony.trans h.polyphony
  freed := h'.freed.trans h.freed
  toRelease m := (h'.toRelease m).trans (h.toRelease m)

theorem quiet_linkNode (h : v.linkNode n = some v') : Quiet v v' := by
  rw [Voicer.linkNode] at h
  split at h
  next =>
    obtain rfl := Option.some.inj h
    exact ⟨rfl, rfl, fun _ => rfl⟩
  next =>
    obtain ⟨last, -, rfl⟩ := Option.map_eq_some_iff.mp h
    exact ⟨rfl, rfl, congrFun (field_setNode_eq Node.toRelease rfl)⟩

theorem quiet_addObject (h : v.addObject t n = some v') : Quiet v v' := by
  rw [Voicer.addObject] at h
  split at h
  next =>
    obtain ⟨_, -, rfl⟩ := Option.map_eq_some_iff.mp h
    exact ⟨rfl, rfl, fun _ => rfl⟩
  next =>
    simp only [Option.bind_eq_bind, Option.bind_eq_some_iff] at h
    obtain ⟨_, -, _, -, _, -, _, -, h⟩ := h
    obtain rfl := Option.some.inj h
    exact ⟨rfl, rfl, fun _ => rfl⟩

theorem quiet_addNode (h : v.addNode t n = some v') : Quiet v v' := by
  simp only [Voicer.addNode, Option.bind_eq_bind, Option.bind_eq_some_iff] at h
  obtain ⟨v₁, hlink, v₂, hadd, h⟩ := h
  obtain rfl := Option.some.inj h
  have hquiet := (quiet_linkNode hlink).trans (quiet_addObject hadd)
  exact ⟨hquiet.polyphony, hquiet.freed, hquiet.toRelease⟩

theorem quiet_nodePoolPop (h : v.nodePoolPop = some (n, v')) : Quiet v v' := by
  rw [Voicer.nodePoolPop] at h
  have hexpanded : Quiet v (if v.nodePool = [] then v.expandLocalNodePool 0 else v) := by
    split <;> exact ⟨rfl, rfl, fun _ => rfl⟩
  generalize (if v.nodePool = [] then v.expandLocalNodePool 0 else v) = expanded at h hexpanded
  split at h
  next => cases h
  next =>
    obtain ⟨rfl, rfl⟩ := Prod.mk.inj (Option.some.inj h)
    exact ⟨hexpanded.polyphony, hexpanded.freed, hexpanded.toRelease⟩

theorem quiet_addPending {entry : Entry} (h : v.addPending t entry n = some v') : Quiet v v' := by
  obtain ⟨_, -, rfl⟩ := Option.map_eq_some_iff.mp h
  exact ⟨rfl, rfl, fun _ => rfl⟩

theorem allocate_quiet {c : ℕ} (h : v.allocate t = some ((n, c), v')) :
    v'.polyphony = v.polyphony ∧ v'.freed = v.freed ∧
      ∀ m, m ≠ n → (v'.nodes m).toRelease = (v.nodes m).toRelease := by
  simp only [Voicer.allocate, Voicer.triggerFunction, Option.bind_eq_bind, Option.bind_eq_some_iff]
    at h
  obtain ⟨⟨new, v₁⟩, hpop, ⟨freeHook, v₂⟩, hhook, v₃, hadd, h⟩ := h
  obtain ⟨_, -, hhook⟩ := Option.map_eq_some_iff.mp hhook
  obtain ⟨-, rfl⟩ := Prod.mk.inj hhook
  obtain ⟨hnew, rfl⟩ := Prod.mk.inj (Option.some.inj h)
  obtain ⟨rfl, -⟩ := Prod.mk.inj hnew
  have hpopped := quiet_nodePoolPop hpop
  have hadded := quiet_addNode hadd
  refine ⟨hadded.polyphony.trans hpopped.polyphony, hadded.freed.trans hpopped.freed, fun m hm => ?_⟩
  rw [hadded.toRelease, ← hpopped.toRelease]
  exact congrArg Node.toRelease (nodes_setNode_of_ne hm v₁ _)

theorem freeVoiceNode_asks {position : Position} (h : v.freeVoiceNode (some n) position = some v') :
    v'.polyphony = v.polyphony ∧ v'.freed = v.freed ++ (v.nodes n).value.toList ∧
      (v'.nodes n).toRelease = true := by
  simp only [Voicer.freeVoiceNode, Option.bind_eq_bind, Option.bind_eq_some_iff] at h
  obtain ⟨entry, -, ⟨entry', pool⟩, -, v₁, hadd, h⟩ := h
  obtain rfl := Option.some.inj h
  have hquiet := quiet_addPending hadd
  have hnodes : v₁.nodes = v.nodes := by
    obtain ⟨_, -, rfl⟩ := Option.map_eq_some_iff.mp hadd
    rfl
  refine ⟨hquiet.polyphony, ?_, ?_⟩
  · rw [← hnodes]
    exact congrArg (· ++ (v₁.nodes n).value.toList) hquiet.freed
  · exact congrArg Node.toRelease (nodes_setNode_self _ n _)

theorem removeNode_polyphony (h : v.removeNode n = some v') : v'.polyphony = v.polyphony := by
  obtain ⟨v₁, hpush, rfl⟩ := Option.map_eq_some_iff.mp h
  obtain ⟨_, -, rfl⟩ := Option.map_eq_some_iff.mp hpush
  have hnext : (v.unlinkNext n).polyphony = v.polyphony := by
    rw [Voicer.unlinkNext]
    split <;> rfl
  have hprev : ((v.unlinkNext n).unlinkPrev n).polyphony = (v.unlinkNext n).polyphony := by
    rw [Voicer.unlinkPrev]
    split <;> rfl
  exact hprev.trans hnext

theorem releaseNode_polyphony (h : v.releaseNode t = some v') : v'.polyphony = v.polyphony := by
  rw [Voicer.releaseNode] at h
  split at h
  next => rw [Option.some.inj h]
  next =>
    split at h
    next => cases h
    next =>
      split at h
      all_goals
        split at h
        next => cases h
        next =>
          have hpolyphony := removeNode_polyphony h
          exact hpolyphony

theorem releaseObject_polyphony {checked : Bool} (h : Voicer.releaseObject checked v t = some v') :
    v'.polyphony = v.polyphony := by
  rw [Voicer.releaseObject] at h
  split at h
  next => rw [Option.some.inj h]
  next =>
    split at h
    next =>
      split at h
      next => cases h
      next => rw [Option.some.inj h]
    next =>
      split at h
      next => rw [Option.some.inj h]
      next =>
        obtain ⟨v₁, hadd, rfl⟩ := Option.map_eq_some_iff.mp h
        refine Eq.trans ?_ (quiet_addPending hadd).polyphony
        rw [Voicer.freeOrMark]
        split <;> rfl

theorem stealVoice_polyphony {position : Position} (h : v.stealVoice position = some v') :
    v'.polyphony = v.polyphony := by
  obtain ⟨node, -, hfree⟩ := Option.bind_eq_some_iff.mp h
  cases node with
  | none => rw [Option.some.inj hfree]
  | some n => exact (freeVoiceNode_asks hfree).1

theorem unsafeTrigger_full {position : Position} {c : ℕ} (hfull : v.fullP = true)
    (hposition : v.stealFunction = some position)
    (h : v.unsafeTrigger t = some (some (n, c), v')) :
    ∃ v₁, v.stealVoice position = some v₁ ∧ v₁.allocate t = some ((n, c), v') := by
  rw [Voicer.unsafeTrigger, if_pos hfull, hposition] at h
  obtain ⟨⟨new, v₂⟩, hbind, hp⟩ := Option.map_eq_some_iff.mp h
  obtain ⟨v₁, hsteal, hallocate⟩ := Option.bind_eq_some_iff.mp hbind
  obtain ⟨hnew, rfl⟩ := Prod.mk.inj hp
  obtain rfl := Option.some.inj hnew
  exact ⟨v₁, hsteal, hallocate⟩

theorem unsafeTrigger_polyphony {new : Option (ℕ × ℕ)} (h : v.unsafeTrigger t = some (new, v')) :
    v'.polyphony = v.polyphony := by
  have hallocate : ∀ {v₁ : Voicer τ} {p : (ℕ × ℕ) × Voicer τ}, v₁.allocate t = some p →
      p.2.polyphony = v₁.polyphony := fun h => (allocate_quiet h).1
  rw [Voicer.unsafeTrigger] at h
  split at h
  next =>
    split at h
    next position _ =>
      obtain ⟨p, hbind, hp⟩ := Option.map_eq_some_iff.mp h
      obtain ⟨v₁, hsteal, halloc⟩ := Option.bind_eq_some_iff.mp hbind
      obtain ⟨-, rfl⟩ := Prod.mk.inj hp
      exact (hallocate halloc).trans (stealVoice_polyphony hsteal)
    next =>
      obtain ⟨-, rfl⟩ := Prod.mk.inj (Option.some.inj h)
      rfl
  next =>
    obtain ⟨p, halloc, hp⟩ := Option.map_eq_some_iff.mp h
    obtain ⟨-, rfl⟩ := Prod.mk.inj hp
    exact hallocate halloc

end Quiet

theorem step_polyphony {checked : Bool} {s s' : System τ} {event : Event τ}
    (h : s.step checked event = some s') (hevent : ∀ value, event ≠ .setPolyphony value) :
    s'.voicer.polyphony = s.voicer.polyphony := by
  cases event with
  | trigger tag =>
    obtain ⟨⟨new, v'⟩, htrigger, hs⟩ := Option.map_eq_some_iff.mp h
    have hpolyphony := unsafeTrigger_polyphony htrigger
    cases new <;> exact hs ▸ hpolyphony
  | release tag =>
    obtain ⟨v', hrelease, rfl⟩ := Option.map_eq_some_iff.mp h
    exact releaseObject_polyphony hrelease
  | setPolyphony value => exact absurd rfl (hevent value)
  | setStealVoiceMode mode =>
    obtain rfl := Option.some.inj h
    rfl
  | action dsp id =>
    obtain ⟨d, -, rfl⟩ := Option.map_eq_some_iff.mp h
    dsimp only
    split <;> rfl
  | freeHook dsp =>
    obtain ⟨d, -, hfree⟩ := Option.bind_eq_some_iff.mp h
    obtain ⟨v', hrelease, rfl⟩ := Option.map_eq_some_iff.mp hfree
    have hpolyphony := releaseNode_polyphony hrelease
    exact hpolyphony

section Unasked

variable {q : Queues ℕ} {n : ℕ}

def unasked (q : Queues ℕ) : List ℕ := q.objects (fun _ => ()) ()

theorem mem_unasked : n ∈ unasked q ↔ n ∈ q.order ∧ n ∉ q.releasing := by
  rw [unasked, Queues.mem_objects]
  exact and_congr_right fun _ => and_iff_right rfl

theorem length_unasked_release (hq : q.Valid) (hn : n ∈ q.order) (hr : n ∉ q.releasing) :
    (unasked (q.release n)).length + 1 = (unasked q).length := by
  have hmem : n ∈ unasked q := mem_unasked.mpr ⟨hn, hr⟩
  rw [unasked, hq.objects_release]
  exact List.length_erase_add_one hmem

theorem length_unasked_releaseFirst (hq : q.Valid) (tag : ℕ → τ) (t : τ) :
    (unasked (q.releaseFirst tag t)).length ≤ (unasked q).length := by
  rw [Queues.releaseFirst]
  cases hfirst : (q.objects tag t).head? with
  | none => exact Nat.le_refl _
  | some n =>
    obtain ⟨hn, -, hr⟩ := Queues.mem_objects.mp (List.mem_of_mem_head? hfirst)
    have hlength := length_unasked_release hq hn hr
    exact Nat.le_of_succ_le (Nat.le_of_eq hlength)

theorem length_unasked_remove (hq : q.Valid) (n : ℕ) :
    (unasked (q.remove n)).length ≤ (unasked q).length := by
  rw [unasked, hq.objects_remove]
  exact List.length_erase_le

theorem length_unasked_add (hq : q.Valid) (hn : n ∉ q.order) :
    (unasked (q.add n)).length = (unasked q).length + 1 := by
  rw [unasked, hq.objects_add hn, if_pos rfl, List.length_append, List.length_singleton]
  rfl

theorem length_unasked_le (q : Queues ℕ) : (unasked q).length ≤ q.order.length :=
  List.length_filter_le _ _

end Unasked

section Sparing

variable {checked : Bool} {s s' : System τ} {event : Event τ} {q : Queues ℕ} {n : ℕ}
  {position : Position} {owner : ℕ → Option (Owner τ)}

instance (v : Voicer τ) (n : ℕ) : Decidable (v.Pending n) :=
  decidable_of_iff ((v.objectHash (v.tag n)).any fun entry => decide (n ∈ items entry.pending))
    (by simp [Voicer.Pending, Option.any_eq_true])

def Position.nodes : Position → List ℕ → List ℕ
  | .first, l => l
  | .last, l => l.reverse

theorem mem_nodes {l : List ℕ} : n ∈ position.nodes l ↔ n ∈ l := by
  cases position with
  | first => exact Iff.rfl
  | last => exact List.mem_reverse

theorem liveNode_eq (mark : ℕ → Bool) (q : Queues ℕ) (position : Position) :
    liveNode mark q position = (position.nodes q.order).find? fun n => !mark n := by
  cases position <;> rfl

/-- A voice that has been asked to end without the mark comes after a voice not asked to end. -/
def Voicer.Spares (v : Voicer τ) (position : Position) (l : List ℕ) : Prop :=
  ∀ l₁ n l₂, position.nodes l = l₁ ++ n :: l₂ → v.Pending n → (v.nodes n).toRelease = false →
    ∃ m ∈ l₁, ¬ v.Pending m

/-- The steps of the runs. The polyphony is not changed. -/
def Sparing (s : System τ) : Event τ → Prop
  | .trigger _ => s.voicer.fullP = true → ∀ position, s.voicer.stealFunction = some position →
      ∀ l, Linked s.voicer l → s.voicer.Spares position l
  | .setPolyphony _ => False
  | _ => True

/-- The first voice in the direction of the steal function that has not been asked to end, if any,
and no other one, is asked to end. -/
def Voicer.Asks (v v' : Voicer τ) (position : Position) (l : List ℕ) : Prop :=
  (∃ l₁ n l₂, position.nodes l = l₁ ++ n :: l₂ ∧ ¬ v.Pending n ∧ (∀ m ∈ l₁, v.Pending m) ∧
    (∀ m ∈ l, v'.Pending m ↔ v.Pending m ∨ m = n) ∧ (v'.nodes n).toRelease = true ∧
    v'.freed = v.freed ++ (v.nodes n).value.toList) ∨
  (∀ m ∈ l, v.Pending m) ∧ (∀ m ∈ l, v'.Pending m) ∧
    (∀ m ∈ l, (v'.nodes m).toRelease = (v.nodes m).toRelease) ∧ v'.freed = v.freed

theorem Represents.not_releasing_of_spares
    (hrep : Represents s.voicer q (freeHooks s.dsps) owner)
    (hspares : s.voicer.Spares position q.order)
    (hlive : liveNode (fun n => (s.voicer.nodes n).toRelease) q position = some n) :
    n ∉ q.releasing ∧ ∃ l₁ l₂, position.nodes q.order = l₁ ++ n :: l₂ ∧
      ∀ m ∈ l₁, m ∈ q.releasing := by
  rw [liveNode_eq] at hlive
  obtain ⟨hmark, l₁, l₂, hnodes, hmarked⟩ := List.find?_eq_some_iff_append.mp hlive
  have horder : ∀ m ∈ position.nodes q.order, m ∈ q.order := fun m hm => mem_nodes.mp hm
  have hbefore : ∀ m ∈ l₁, m ∈ q.releasing := by
    intro m hm
    have hmem : m ∈ position.nodes q.order := hnodes ▸ List.mem_append_left _ hm
    exact hrep.filed.toRelease m (horder m hmem) (by simpa using hmarked m hm)
  refine ⟨fun hr => ?_, l₁, l₂, hnodes, hbefore⟩
  have hmem : n ∈ position.nodes q.order :=
    hnodes ▸ List.mem_append_right _ List.mem_cons_self
  obtain ⟨m, hm, hpending⟩ := hspares l₁ n l₂ hnodes
    ((hrep.pending_iff (horder n hmem)).mpr hr) (by simpa using hmark)
  have hmem' : m ∈ position.nodes q.order := hnodes ▸ List.mem_append_left _ hm
  exact hpending ((hrep.pending_iff (horder m hmem')).mpr (hbefore m hm))

theorem Represents.unasked_eq_nil (hrep : Represents s.voicer q (freeHooks s.dsps) owner)
    (hlive : liveNode (fun n => (s.voicer.nodes n).toRelease) q position = none) :
    unasked q = [] := by
  rw [liveNode_eq, List.find?_eq_none] at hlive
  refine List.eq_nil_iff_forall_not_mem.mpr fun n hn => ?_
  obtain ⟨horder, hr⟩ := mem_unasked.mp hn
  exact hr (hrep.filed.toRelease n horder (by simpa using hlive n (mem_nodes.mpr horder)))

theorem Kept.safe_trigger {tag : τ} (hkept : Kept s q) (h : Sparing s (.trigger tag)) :
    Safe checked s (.trigger tag) := by
  obtain ⟨owner, hrep⟩ := hkept.represents
  intro hfull position hposition n hn hpending
  have hfind := hrep.findLiveNode position
  rw [hn] at hfind
  have hlive := (Option.some.inj hfind).symm
  have hspares := h hfull position hposition q.order hrep.linked
  exact (hrep.not_releasing_of_spares hspares hlive).1
    ((hrep.pending_iff (liveNode_mem hlive)).mp hpending)

theorem safe_release {tag : τ} (h : s.step checked (.release tag) = some s') :
    Safe checked s (.release tag) := by
  intro hchecked
  obtain ⟨v', hrelease, -⟩ := Option.map_eq_some_iff.mp h
  rw [Voicer.releaseFunctionDefault, if_pos rfl, Voicer.releaseObject, hchecked] at hrelease
  by_cases hempty : s.voicer.emptyP = true
  · exact .inl (of_decide_eq_true hempty)
  · rw [if_neg hempty] at hrelease
    cases hentry : s.voicer.objectHash tag with
    | none =>
      rw [hentry] at hrelease
      cases hrelease
    | some entry => exact .inr ⟨entry, rfl⟩

theorem Kept.safe (hkept : Kept s q) (hsparing : Sparing s event)
    (hstep : s.step checked event = some s') : Safe checked s event := by
  cases event with
  | trigger tag => exact hkept.safe_trigger hsparing
  | release tag => exact safe_release hstep
  | setPolyphony value => trivial
  | setStealVoiceMode mode => trivial
  | action dsp id => trivial
  | freeHook dsp => trivial

theorem Kept.length_unasked {q' : Queues ℕ} (hkept : Kept s q) (hsparing : Sparing s event)
    (hpolyphony : 1 ≤ s.voicer.polyphony) (hlength : (unasked q).length ≤ s.voicer.polyphony)
    (hchange : Change s s' q q' event) : (unasked q').length ≤ s.voicer.polyphony := by
  obtain ⟨owner, hrep⟩ := hkept.represents
  cases event with
  | trigger tag =>
    obtain ⟨-, -, rfl⟩ | ⟨n, c, hrefused, hn, -, rfl, -⟩ := hchange
    · exact hlength
    · have hsafe : Safe true s (.trigger tag) := hkept.safe_trigger hsparing
      have hvalid : (q.releaseOption
          (stolen s.voicer (fun n => (s.voicer.nodes n).toRelease) q)).Valid :=
        hrep.valid.releaseOption fun m hm =>
          ⟨stolen_mem hm, hrep.not_releasing_of_stolen hsafe hm⟩
      rw [length_unasked_add hvalid (by rwa [Queues.order_releaseOption])]
      by_cases hfull : s.voicer.fullP = true
      · cases hstolen : stolen s.voicer (fun n => (s.voicer.nodes n).toRelease) q with
        | some m =>
          have hreleased := length_unasked_release hrep.valid (stolen_mem hstolen)
            (hrep.not_releasing_of_stolen hsafe hstolen)
          exact Nat.le_trans (Nat.le_of_eq hreleased) hlength
        | none =>
          have hnil : unasked q = [] := by
            rw [Voicer.refused, hfull, Bool.true_and] at hrefused
            obtain ⟨position, hposition⟩ := Option.isSome_iff_exists.mp
              (Option.isNone_eq_false_iff.mp hrefused)
            rw [stolen, if_pos hfull, hposition, Option.bind_some] at hstolen
            exact hrep.unasked_eq_nil hstolen
          rw [Queues.releaseOption, hnil]
          exact hpolyphony
      · have hcount : ¬ s.voicer.polyphony ≤ s.voicer.count := fun hle =>
          hfull (decide_eq_true hle)
        rw [stolen, if_neg hfull]
        have hle := length_unasked_le q
        rw [hrep.count] at hcount
        exact Nat.lt_of_le_of_lt hle (Nat.lt_of_not_le hcount)
  | release tag =>
    obtain ⟨-, rfl, -⟩ := hchange
    exact Nat.le_trans (length_unasked_releaseFirst hrep.valid _ _) hlength
  | setPolyphony value => exact hsparing.elim
  | setStealVoiceMode mode =>
    obtain ⟨-, rfl, -⟩ := hchange
    exact hlength
  | action dsp id =>
    obtain ⟨d, -, -, rfl, -⟩ := hchange
    exact hlength
  | freeHook dsp =>
    obtain ⟨d, n, -, -, -, rfl, -⟩ := hchange
    exact Nat.le_trans (length_unasked_remove hrep.valid n) hlength

theorem Run.sparing (h : Run checked Sparing s) (hpolyphony : 1 ≤ s.voicer.polyphony) :
    ∃ q, Kept s q ∧ (unasked q).length ≤ s.voicer.polyphony := by
  induction h with
  | start nodes polyphony stealFunction =>
    exact ⟨_, kept_start nodes polyphony stealFunction, Nat.zero_le _⟩
  | @step s s' event h henabled hok hstep ih =>
    have hsame : s'.voicer.polyphony = s.voicer.polyphony := by
      refine step_polyphony hstep fun value heq => ?_
      rw [heq] at hok
      exact hok
    rw [hsame] at hpolyphony
    obtain ⟨q, hkept, hlength⟩ := ih hpolyphony
    obtain ⟨s₁, q', hstep', hrep, hchange⟩ := hkept.step henabled (hkept.safe hok hstep)
    obtain rfl := Option.some.inj (hstep.symm.trans hstep')
    refine ⟨q', ⟨hrep, hkept.change henabled hchange⟩, ?_⟩
    rw [hsame]
    exact hkept.length_unasked hok hpolyphony hlength hchange

theorem Change.order {q' : Queues ℕ} (h : Change s s' q q' event) :
    q'.order.Sublist q.order ∨
      ∃ tag n, event = .trigger tag ∧ n ∉ q.order ∧ q'.order = q.order ++ [n] := by
  cases event with
  | trigger tag =>
    obtain ⟨-, -, rfl⟩ | ⟨n, c, -, hn, -, rfl, -⟩ := h
    · exact .inl (List.Sublist.refl _)
    · refine .inr ⟨tag, n, rfl, hn, ?_⟩
      rw [Queues.add, Queues.order_releaseOption]
  | release tag =>
    obtain ⟨-, rfl, -⟩ := h
    rw [Queues.releaseFirst, Queues.order_releaseOption]
    exact .inl (List.Sublist.refl _)
  | setPolyphony value =>
    obtain ⟨-, rfl, -⟩ := h
    exact .inl (List.Sublist.refl _)
  | setStealVoiceMode mode =>
    obtain ⟨-, rfl, -⟩ := h
    exact .inl (List.Sublist.refl _)
  | action dsp id =>
    obtain ⟨d, -, -, rfl, -⟩ := h
    exact .inl (List.Sublist.refl _)
  | freeHook dsp =>
    obtain ⟨d, n, -, -, -, rfl, -⟩ := h
    exact .inl List.erase_sublist

theorem Kept.asks {tag : τ} (hkept : Kept s q) (hfull : s.voicer.fullP = true)
    (hposition : s.voicer.stealFunction = some position) (hsparing : Sparing s (.trigger tag)) :
    ∃ s', s.step checked (.trigger tag) = some s' ∧
      s.voicer.Asks s'.voicer position q.order := by
  obtain ⟨owner, hrep⟩ := hkept.represents
  have hsafe : Safe checked s (.trigger tag) := hkept.safe_trigger hsparing
  have hspares := hsparing hfull position hposition q.order hrep.linked
  obtain ⟨hrefused, -⟩ | ⟨n, c, v', owner', -, htrigger, hn, hrep', -⟩ :=
    hrep.unsafeTrigger tag s.dsps.length fun m => hrep.not_releasing_of_stolen hsafe
  · rw [Voicer.refused, hposition, Option.isNone_some, Bool.and_false] at hrefused
    cases hrefused
  · refine ⟨⟨v', s.dsps ++ [⟨tag, n, c, none, false⟩]⟩, ?_, ?_⟩
    · rw [System.step, System.trigger, htrigger]
      rfl
    have hstolen : stolen s.voicer (fun n => (s.voicer.nodes n).toRelease) q =
        liveNode (fun n => (s.voicer.nodes n).toRelease) q position := by
      rw [stolen, if_pos hfull, hposition, Option.bind_some]
    rw [hstolen] at hrep'
    obtain ⟨v₁, hsteal, hallocate⟩ := unsafeTrigger_full hfull hposition htrigger
    obtain ⟨-, hfreed, hmarks⟩ := allocate_quiet hallocate
    rw [Voicer.stealVoice, hrep.findLiveNode, Option.bind_some] at hsteal
    have hne : ∀ m ∈ q.order, m ≠ n := by
      rintro m hm rfl
      exact hn hm
    cases hlive : liveNode (fun n => (s.voicer.nodes n).toRelease) q position with
    | some m =>
      rw [hlive] at hrep' hsteal
      obtain ⟨hr, l₁, l₂, hnodes, hbefore⟩ := hrep.not_releasing_of_spares hspares hlive
      obtain ⟨-, hfreed₁, hmark⟩ := freeVoiceNode_asks hsteal
      have hm := liveNode_mem hlive
      refine .inl ⟨l₁, m, l₂, hnodes, fun hpending => hr ((hrep.pending_iff hm).mp hpending),
        fun k hk => ?_, fun k hk => ?_, ?_, hfreed.trans hfreed₁⟩
      · have hk' : k ∈ position.nodes q.order := hnodes ▸ List.mem_append_left _ hk
        exact (hrep.pending_iff (mem_nodes.mp hk')).mpr (hbefore k hk)
      · rw [hrep'.pending_iff (List.mem_append_left _ hk), hrep.pending_iff hk]
        exact List.mem_append.trans (or_congr_right List.mem_singleton)
      · rw [hmarks m (hne m hm), hmark]
    | none =>
      rw [hlive] at hrep' hsteal
      obtain rfl := Option.some.inj hsteal
      have hnil := hrep.unasked_eq_nil hlive
      have hall : ∀ m ∈ q.order, m ∈ q.releasing := fun m hm => by
        by_contra hr
        have hmem : m ∈ unasked q := mem_unasked.mpr ⟨hm, hr⟩
        rw [hnil] at hmem
        cases hmem
      refine .inr ⟨fun m hm => (hrep.pending_iff hm).mpr (hall m hm), fun m hm => ?_,
        fun m hm => hmarks m (hne m hm), hfreed⟩
      exact (hrep'.pending_iff (List.mem_append_left _ hm)).mpr (hall m hm)

end Sparing

section Results

variable {checked : Bool} {s : System τ}

/-- In every run where a full voicer meets the condition before a trigger, the voices not asked to end
are at most as many as the polyphony and the trigger asks the first of them in the direction of the
steal function. The list of the nodes is in the order of the triggers. -/
theorem asks_of_sparing (h : Run checked Sparing s) (hpolyphony : 1 ≤ s.voicer.polyphony) :
    ∃ l, Linked s.voicer l ∧
      (l.filter fun n => ¬ s.voicer.Pending n).length ≤ s.voicer.polyphony ∧
      (∀ event s', s.Enabled event → Sparing s event → s.step checked event = some s' →
        s'.voicer.polyphony = s.voicer.polyphony ∧ ∃ l', Linked s'.voicer l' ∧
          (l'.Sublist l ∨ ∃ tag n, event = .trigger tag ∧ n ∉ l ∧ l' = l ++ [n])) ∧
      ∀ tag position, s.voicer.fullP = true → s.voicer.stealFunction = some position →
        Sparing s (.trigger tag) →
        ∃ s', s.step checked (.trigger tag) = some s' ∧ s.voicer.Asks s'.voicer position l := by
  obtain ⟨q, hkept, hlength⟩ := h.sparing hpolyphony
  obtain ⟨owner, hrep⟩ := hkept.represents
  refine ⟨q.order, hrep.linked, ?_, fun event s' henabled hsparing hstep => ?_,
    fun tag position hfull hposition hsparing => hkept.asks hfull hposition hsparing⟩
  · have hfilter : (q.order.filter fun n => ¬ s.voicer.Pending n) = unasked q := by
      refine List.filter_congr fun n hn => decide_eq_decide.mpr ?_
      rw [hrep.pending_iff hn]
      exact (and_iff_right rfl).symm
    rw [hfilter]
    exact hlength
  · obtain ⟨s₁, q', hstep', ⟨owner', hrep'⟩, hchange⟩ :=
      hkept.step henabled (hkept.safe hsparing hstep)
    obtain rfl := Option.some.inj (hstep.symm.trans hstep')
    refine ⟨step_polyphony hstep fun value heq => ?_, q'.order, hrep'.linked, hchange.order⟩
    rw [heq] at hsparing
    exact hsparing

def System.room (s : System τ) : Event τ → Bool
  | .trigger _ => !s.voicer.fullP
  | .setPolyphony _ => false
  | _ => true

/-- The triggers of the events do not find the voicer full. -/
def System.roomy (checked : Bool) : List (Event τ) → System τ → Bool
  | [], _ => true
  | event :: events, s => s.room event && (s.step checked event).all (roomy checked events)

theorem Run.perform_roomy (h : Run checked Sparing s) {events : List (Event τ)} {s' : System τ}
    (hroomy : s.roomy checked events = true) (hperform : s.perform checked events = some s') :
    Run checked Sparing s' := by
  induction events generalizing s with
  | nil =>
    obtain rfl := Option.some.inj hperform
    exact h
  | cons event events ih =>
    rw [System.perform] at hperform
    rw [System.roomy, Bool.and_eq_true] at hroomy
    split at hperform
    next henabled =>
      obtain ⟨s₁, hstep, hperform⟩ := Option.bind_eq_some_iff.mp hperform
      rw [hstep, Option.all_some] at hroomy
      obtain ⟨hevent, hroomy⟩ := hroomy
      refine ih (h.step henabled ?_ hstep) hroomy hperform
      cases event with
      | trigger tag =>
        intro hfull
        rw [System.room, hfull] at hevent
        cases hevent
      | setPolyphony value => cases hevent
      | _ => trivial
    next => cases hperform

/-- Of three voices, the second one is released. The next trigger asks the first one. -/
theorem asks_of_sparing_three : ∃ s s' : System ℕ, Run true Sparing s ∧
    s.voicer.freed = [1001] ∧ s.step true (.trigger 3) = some s' ∧ s'.voicer.freed = [1001, 1000] ∧
      ∃ l, Linked s.voicer l ∧ s.voicer.Asks s'.voicer .first l := by
  let events : List (Event ℕ) :=
    [.trigger 0, .trigger 1, .trigger 2, .action 0 1000, .action 1 1001, .release 1]
  let check : System ℕ → Bool := fun s =>
    s.voicer.polyphony = 3 ∧ s.voicer.fullP = true ∧ s.voicer.stealFunction = some .first ∧
      s.voicer.first = some 0 ∧ ¬ s.voicer.Pending 0 ∧ s.voicer.freed = [1001] ∧
      (s.step true (.trigger 3)).any fun s' => s'.voicer.freed = [1001, 1000]
  have hperform : ((System.perform true events
      ⟨.makeVoicer (fun _ => ⟨none, 0, false, none, none⟩) 3 (some .first), []⟩).any check) =
        true := by
    decide
  obtain ⟨s, hs, hcheck⟩ := (Option.any_eq_true _ _).mp hperform
  obtain ⟨hpolyphony, hfull, hposition, hfirst, hlive, hfreed, htrigger⟩ := of_decide_eq_true hcheck
  obtain ⟨s₁, hs₁, hfreed'⟩ := (Option.any_eq_true _ _).mp htrigger
  have hrun : Run true Sparing s := (Run.start _ _ _).perform_roomy (by decide) hs
  obtain ⟨l, hlinked, -, -, hasks⟩ := asks_of_sparing hrun (by omega)
  obtain ⟨s', hstep, hthree⟩ := hasks 3 .first hfull hposition (by
    rintro - position hposition' l hlinked l₁ n l₂ hnodes hpending -
    obtain rfl := Option.some.inj (hposition.symm.trans hposition')
    have hhead : (l₁ ++ n :: l₂).head? = some 0 := hnodes ▸ hlinked.first.symm.trans hfirst
    cases l₁ with
    | nil =>
      obtain rfl := Option.some.inj hhead
      exact absurd hpending hlive
    | cons m l₁ =>
      obtain rfl := Option.some.inj hhead
      exact ⟨0, List.mem_cons_self, hlive⟩)
  obtain rfl := Option.some.inj (hs₁.symm.trans hstep)
  exact ⟨s, s₁, hrun, hfreed, hs₁, of_decide_eq_true hfreed', l, hlinked, hthree⟩

/-- The first voice is released after the start of its DSP. The trigger that finds the voicer full
asks it again, and the second voice is not asked. -/
theorem trigger_asks_released : ∃ s s' : System Bool,
    Run true (fun _ event => ∀ value, event ≠ .setPolyphony value) s ∧ s.voicer.fullP = true ∧
    s.voicer.stealFunction = some .first ∧ s.step true (.trigger false) = some s' ∧
    Linked s.voicer [0, 1] ∧ ¬ s.voicer.Asks s'.voicer .first [0, 1] := by
  let check : System Bool → Bool := fun s =>
    s.voicer.fullP = true ∧ s.voicer.stealFunction = some .first ∧ s.voicer.first = some 0 ∧
      s.voicer.last = some 1 ∧ s.voicer.next 0 = some 1 ∧ s.voicer.prev 0 = none ∧
      s.voicer.next 1 = none ∧ s.voicer.prev 1 = some 0 ∧ s.voicer.Pending 0 ∧
      ¬ s.voicer.Pending 1 ∧ (s.step true (.trigger false)).any fun s' => ¬ s'.voicer.Pending 1
  have hperform : ((System.perform true
      [.trigger true, .action 0 1000, .release true, .trigger false]
      ⟨.makeVoicer (fun _ => ⟨none, true, false, none, none⟩) 2 (some .first), []⟩).any check) =
        true := by
    decide
  obtain ⟨s, hs, hcheck⟩ := (Option.any_eq_true _ _).mp hperform
  obtain ⟨hfull, hposition, hfirst, hlast, hnext₀, hprev₀, hnext₁, hprev₁, hpending, hlive,
    htrigger⟩ := of_decide_eq_true hcheck
  obtain ⟨s', hs', hlive'⟩ := (Option.any_eq_true _ _).mp htrigger
  refine ⟨s, s', (Run.start _ _ _).perform (fun _ event hevent value heq => ?_) hs, hfull, hposition,
    hs', ⟨⟨hprev₀, hnext₀, hprev₁, hnext₁, trivial⟩, hfirst, hlast, by decide⟩, ?_⟩
  · rw [heq] at hevent
    simp at hevent
  rintro (⟨l₁, n, l₂, hnodes, hn, -, hasked, -⟩ | ⟨hall, -⟩)
  · have hmem : n ∈ [0, 1] := by
      rw [show [0, 1] = l₁ ++ n :: l₂ from hnodes]
      exact List.mem_append_right _ List.mem_cons_self
    have hn' : s'.voicer.Pending n := (hasked n hmem).mpr (.inr rfl)
    obtain rfl | rfl : n = 0 ∨ n = 1 := by simpa using hmem
    · exact hn hpending
    · exact of_decide_eq_true hlive' hn'
  · exact hlive (hall 1 (by decide))

end Results

end Incudine.Voices
