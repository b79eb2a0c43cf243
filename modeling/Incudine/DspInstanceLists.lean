import Incudine.DspInstance

/-!
# Owners of the instances

Each instance has one owner: a holder of a list or a use of a node. The instances on the list of a
holder are the ones it owns, each on its own cons.
-/

namespace Incudine.DspInstance

open Function Conses

inductive Place
  | list (v : Holder)
  | node (use : ℕ)
  deriving DecidableEq

/-- The conses of the instances form the list. -/
def State.Holds (s : State) (l : Option ℕ) (ds : List ℕ) : Prop :=
  Chain s.conses.cdr l (ds.map fun d => (s.dsps d).poolPtr)

structure Lists (s : State) (owner : ℕ → Place) : Prop where
  cdr_lt : ∀ c c', s.conses.cdr c = some c' → c' < s.conses.next
  ptr_lt : ∀ d < s.dspCount, (s.dsps d).poolPtr < s.conses.next
  car_ptr : ∀ d < s.dspCount, s.conses.car (s.dsps d).poolPtr = .dsp d
  holds : ∀ v, ∃ ds, s.Holds (s.lists v) ds ∧
    (∀ d, d ∈ ds ↔ d < s.dspCount ∧ owner d = .list v) ∧ ∀ rt, v = .pool rt → ds.length = s.poolSize rt
  pool : ∀ d < s.dspCount, ∀ rt, owner d = .list (.pool rt) → (s.dsps d).realTimeP = rt

structure SameLists (s s' : State) (owner : ℕ → Place) : Prop where
  next_le : s.conses.next ≤ s'.conses.next
  car : ∀ c < s.conses.next, s'.conses.car c = s.conses.car c
  cdr : ∀ d < s.dspCount, ∀ v, owner d = .list v →
    s'.conses.cdr (s.dsps d).poolPtr = s.conses.cdr (s.dsps d).poolPtr
  cdr_lt : ∀ c c', s'.conses.cdr c = some c' → c' < s'.conses.next
  poolPtr : ∀ d, (s'.dsps d).poolPtr = (s.dsps d).poolPtr
  realTimeP : ∀ d, (s'.dsps d).realTimeP = (s.dsps d).realTimeP
  dspCount : s'.dspCount = s.dspCount
  poolSize : s'.poolSize = s.poolSize
  lists : s'.lists = s.lists

section

variable {s s' : State} {owner owner' : ℕ → Place} {v : Holder} {d e c : ℕ} {l : Option ℕ}
  {ds : List ℕ} {p : Place}

theorem State.Holds.nodup (h : s.Holds l ds) : ds.Nodup := List.Nodup.of_map _ (Chain.nodup h)

@[simp] theorem resize_pool (rt : Bool) (f : ℕ → ℕ) :
    s.resize (.pool rt) f rt = f (s.poolSize rt) := update_self ..

theorem resize_of_ne {rt : Bool} (hne : v ≠ .pool rt) (f : ℕ → ℕ) :
    s.resize v f rt = s.poolSize rt := by
  cases v with
  | pool rt' => exact update_of_ne (fun heq => hne (congrArg Holder.pool heq.symm)) _ _
  | instances => rfl
  | scheduled => rfl

section

variable (h : Lists s owner)
include h

theorem Lists.ptr_inj (hd : d < s.dspCount) (he : e < s.dspCount)
    (heq : (s.dsps d).poolPtr = (s.dsps e).poolPtr) : d = e := by
  have hcar := h.car_ptr d hd
  rw [heq, h.car_ptr e he] at hcar
  exact (Car.dsp.inj hcar).symm

theorem Lists.object_ptr (hd : d < s.dspCount) : s.object (s.dsps d).poolPtr = some d := by
  rw [State.object, h.car_ptr d hd]

theorem Lists.ptr_not_mem (hd : d < s.dspCount) (hds : ∀ e ∈ ds, e < s.dspCount) (hnot : d ∉ ds) :
    (s.dsps d).poolPtr ∉ ds.map fun e => (s.dsps e).poolPtr := by
  intro hmem
  obtain ⟨e, he, heq⟩ := List.mem_map.mp hmem
  exact hnot (h.ptr_inj hd (hds e he) heq.symm ▸ he)

theorem Lists.lt_next (hds : ∀ d ∈ ds, d < s.dspCount) :
    ∀ c ∈ ds.map fun d => (s.dsps d).poolPtr, c < s.conses.next := by
  intro c hc
  obtain ⟨d, hd, rfl⟩ := List.mem_map.mp hc
  exact h.ptr_lt d (hds d hd)

theorem Lists.congr (heq : ∀ d < s.dspCount, ∀ v, owner' d = .list v ↔ owner d = .list v) :
    Lists s owner' := by
  refine ⟨h.cdr_lt, h.ptr_lt, h.car_ptr, fun v => ?_, fun d hd rt howner => ?_⟩
  · obtain ⟨ds, hholds, hmem, hsize⟩ := h.holds v
    refine ⟨ds, hholds, fun d => ?_, hsize⟩
    rw [hmem d]
    exact and_congr_right fun hd => (heq d hd v).symm
  · exact h.pool d hd rt ((heq d hd _).mp howner)

theorem Lists.same (hsame : SameLists s s' owner) : Lists s' owner := by
  refine ⟨hsame.cdr_lt, fun d hd => ?_, fun d hd => ?_, fun v => ?_, fun d hd rt howner => ?_⟩
  · rw [hsame.dspCount] at hd
    rw [hsame.poolPtr]
    exact Nat.lt_of_lt_of_le (h.ptr_lt d hd) hsame.next_le
  · rw [hsame.dspCount] at hd
    rw [hsame.poolPtr, hsame.car _ (h.ptr_lt d hd)]
    exact h.car_ptr d hd
  · obtain ⟨ds, hholds, hmem, hsize⟩ := h.holds v
    refine ⟨ds, ?_, ?_, ?_⟩
    · rw [State.Holds, hsame.lists]
      simp only [hsame.poolPtr]
      refine Chain.congr hholds fun c hc => ?_
      obtain ⟨d, hd, rfl⟩ := List.mem_map.mp hc
      obtain ⟨hlt, howner⟩ := (hmem d).mp hd
      exact hsame.cdr d hlt v howner
    · rw [hsame.dspCount]
      exact hmem
    · rw [hsame.poolSize]
      exact hsize
  · rw [hsame.dspCount] at hd
    rw [hsame.realTimeP]
    exact h.pool d hd rt howner

theorem Lists.of_nodes (hconses : s'.conses = s.conses) (hdsps : s'.dsps = s.dsps)
    (hcount : s'.dspCount = s.dspCount) (hsize : s'.poolSize = s.poolSize)
    (hlists : s'.lists = s.lists) : Lists s' owner := by
  refine h.same ⟨?_, fun c _ => ?_, fun d _ v _ => ?_, ?_, fun d => ?_, fun d => ?_, hcount, hsize,
    hlists⟩
  · rw [hconses]
  · rw [hconses]
  · rw [hconses]
  · rw [hconses]
    exact h.cdr_lt
  · rw [hdsps]
  · rw [hdsps]

theorem Lists.lists_lt (v : Holder) : ∀ c ∈ s.lists v, c < s.conses.next := by
  intro c hc
  obtain ⟨ds, hholds, hmem, -⟩ := h.holds v
  cases ds with
  | nil =>
    rw [chain_nil.mp hholds] at hc
    cases hc
  | cons d ds =>
    rw [(chain_cons.mp hholds).1] at hc
    rw [← Option.some.inj hc]
    exact h.ptr_lt d ((hmem d).mp List.mem_cons_self).1

theorem Lists.push (hd : d < s.dspCount) (hfree : ∀ w, owner d ≠ .list w)
    (hrt : ∀ rt, v = .pool rt → (s.dsps d).realTimeP = rt) :
    Lists (s.push v d) (update owner d (.list v)) := by
  have hlt : ∀ {w} {ds : List ℕ}, (∀ e, e ∈ ds ↔ e < s.dspCount ∧ owner e = .list w) →
      (s.dsps d).poolPtr ∉ ds.map fun e => (s.dsps e).poolPtr := by
    intro w ds hmem
    exact h.ptr_not_mem hd (fun e he => ((hmem e).mp he).1) fun hin => hfree w ((hmem d).mp hin).2
  refine ⟨lt_of_update h.cdr_lt (Nat.le_refl _) (h.lists_lt v), h.ptr_lt, h.car_ptr, fun w => ?_,
    fun e he rt howner => ?_⟩
  · obtain ⟨ds, hholds, hmem, hsize⟩ := h.holds w
    by_cases heq : w = v
    · subst heq
      refine ⟨d :: ds, ?_, fun e => ?_, fun rt hw => ?_⟩
      · change Chain (update s.conses.cdr (s.dsps d).poolPtr (s.lists w))
          (update s.lists w (some (s.dsps d).poolPtr) w) _
        rw [update_self]
        refine .cons ?_
        rw [update_self]
        exact Chain.update hholds (hlt hmem) _
      · by_cases hed : e = d
        · subst hed
          simp only [List.mem_cons_self, update_self, and_true, true_iff]
          exact hd
        · rw [List.mem_cons, update_of_ne hed, hmem e]
          simp only [hed, false_or]
          rfl
      · subst hw
        change ds.length + 1 = s.resize (.pool rt) (· + 1) rt
        rw [resize_pool, hsize rt rfl]
    · refine ⟨ds, ?_, fun e => ?_, fun rt hw => ?_⟩
      · change Chain (update s.conses.cdr (s.dsps d).poolPtr (s.lists v))
          (update s.lists v (some (s.dsps d).poolPtr) w) _
        rw [update_of_ne heq]
        exact Chain.update hholds (hlt hmem) _
      · by_cases hed : e = d
        · subst hed
          rw [hmem e, update_self]
          constructor
          · exact fun hin => absurd hin.2 (hfree w)
          · exact fun hin => absurd (Place.list.inj hin.2).symm heq
        · rw [hmem e, update_of_ne hed]
          rfl
      · subst hw
        change ds.length = s.resize v (· + 1) rt
        rw [resize_of_ne (Ne.symm heq), hsize rt rfl]
  · by_cases hed : e = d
    · subst hed
      rw [update_self] at howner
      exact hrt rt (Place.list.inj howner)
    · rw [update_of_ne hed] at howner
      exact h.pool e he rt howner

theorem Lists.pop (hv : s.lists v = some c) (hp : ∀ w, p ≠ .list w) :
    ∃ d, c = (s.dsps d).poolPtr ∧ d < s.dspCount ∧ owner d = .list v ∧ s.object c = some d ∧
      Lists (s.pop v c) (update owner d p) := by
  obtain ⟨ds, hholds, hmem, hsize⟩ := h.holds v
  cases ds with
  | nil =>
    rw [hv] at hholds
    cases hholds
  | cons d ds =>
    obtain ⟨hhead, htail⟩ := chain_cons.mp hholds
    rw [hv] at hhead
    obtain rfl := Option.some.inj hhead
    obtain ⟨hd, howner⟩ := (hmem d).mp List.mem_cons_self
    have hnot : d ∉ ds := (List.nodup_cons.mp (State.Holds.nodup hholds)).1
    refine ⟨d, rfl, hd, howner, h.object_ptr hd, h.cdr_lt, h.ptr_lt, h.car_ptr, fun w => ?_,
      fun e he rt howner => ?_⟩
    · by_cases heq : w = v
      · subst heq
        refine ⟨ds, ?_, fun e => ?_, fun rt hw => ?_⟩
        · change Chain s.conses.cdr (update s.lists w (s.conses.cdr (s.dsps d).poolPtr) w) _
          rw [update_self]
          exact htail
        · by_cases hed : e = d
          · subst hed
            rw [update_self]
            exact ⟨fun hin => absurd hin hnot, fun hin => absurd hin.2 (hp w)⟩
          · rw [update_of_ne hed]
            have he := hmem e
            rw [List.mem_cons, or_iff_right hed] at he
            exact he
        · subst hw
          change ds.length = s.resize (.pool rt) (· - 1) rt
          rw [resize_pool, ← hsize rt rfl]
          rfl
      · obtain ⟨es, hes, hmemw, hsizew⟩ := h.holds w
        refine ⟨es, ?_, fun e => ?_, fun rt hw => ?_⟩
        · change Chain s.conses.cdr (update s.lists v (s.conses.cdr (s.dsps d).poolPtr) w) _
          rw [update_of_ne heq]
          exact hes
        · by_cases hed : e = d
          · subst hed
            rw [hmemw e, howner]
            change _ ↔ e < s.dspCount ∧ update owner e p e = .list w
            rw [update_self]
            constructor
            · exact fun hin => absurd (Place.list.inj hin.2).symm heq
            · exact fun hin => absurd hin.2 (hp w)
          · rw [hmemw e, update_of_ne hed]
            rfl
        · subst hw
          change es.length = s.resize v (· - 1) rt
          rw [resize_of_ne (Ne.symm heq), hsizew rt rfl]
    · by_cases hed : e = d
      · subst hed
        rw [update_self] at howner
        exact absurd howner (hp _)
      · rw [update_of_ne hed] at howner
        exact h.pool e he rt howner

end

/-- The object of a pool that has just been created. -/
def State.newObject (s : State) (rt : Bool) : State :=
  { s with
    conses := s.conses.cons (.dsp s.dspCount) none
    dsps := update s.dsps s.dspCount
      { name := 0
        realTimeP := rt
        poolPtr := s.conses.next
        freeHook := s.conses.next
        freeFunctionP := false }
    dspCount := s.dspCount + 1 }

theorem expand_eq (rt : Bool) : s.expand rt = (s.newObject rt).push (.pool rt) s.dspCount := by
  simp [State.expand, State.newObject, State.push, State.resize, Conses.cons, Conses.setCdr]

theorem newObject_poolPtr (hd : d < s.dspCount) (rt : Bool) :
    ((s.newObject rt).dsps d).poolPtr = (s.dsps d).poolPtr := by
  change (update s.dsps s.dspCount _ d).poolPtr = _
  rw [update_of_ne (Nat.ne_of_lt hd)]

theorem Lists.newObject (h : Lists s owner) (rt : Bool) (hp : ∀ w, p ≠ .list w) :
    Lists (s.newObject rt) (update owner s.dspCount p) := by
  have hself : (s.newObject rt).dsps s.dspCount = _ := update_self ..
  have hcases : ∀ {d}, d < (s.newObject rt).dspCount → d = s.dspCount ∨ d < s.dspCount := by
    intro d hd
    have hle := Nat.le_of_lt_succ hd
    exact (Nat.eq_or_lt_of_le hle)
  refine ⟨lt_of_update h.cdr_lt (Nat.le_succ _) nofun, fun d hd => ?_, fun d hd => ?_, fun v => ?_,
    fun d hd rt' howner => ?_⟩
  · rcases hcases hd with rfl | hd
    · rw [hself]
      exact Nat.lt_succ_self _
    · rw [newObject_poolPtr hd]
      exact Nat.lt_succ_of_lt (h.ptr_lt d hd)
  · rcases hcases hd with rfl | hd
    · rw [hself]
      exact update_self ..
    · rw [newObject_poolPtr hd]
      change update s.conses.car s.conses.next _ _ = _
      rw [update_of_ne (Nat.ne_of_lt (h.ptr_lt d hd))]
      exact h.car_ptr d hd
  · obtain ⟨ds, hholds, hmem, hsize⟩ := h.holds v
    have hmap : (ds.map fun d => ((s.newObject rt).dsps d).poolPtr) =
        ds.map fun d => (s.dsps d).poolPtr :=
      List.map_congr_left fun d hd => newObject_poolPtr ((hmem d).mp hd).1 rt
    refine ⟨ds, ?_, fun d => ?_, hsize⟩
    · rw [State.Holds, hmap]
      refine Chain.alloc hholds (fun c hc => ?_) _ none
      obtain ⟨d, hd, rfl⟩ := List.mem_map.mp hc
      exact h.ptr_lt d ((hmem d).mp hd).1
    · rw [hmem d]
      constructor
      · rintro ⟨hd, howner⟩
        rw [update_of_ne (Nat.ne_of_lt hd)]
        exact ⟨Nat.lt_succ_of_lt hd, howner⟩
      · rintro ⟨hd, howner⟩
        rcases hcases hd with rfl | hd
        · rw [update_self] at howner
          exact absurd howner (hp v)
        · rw [update_of_ne (Nat.ne_of_lt hd)] at howner
          exact ⟨hd, howner⟩
  · rcases hcases hd with rfl | hd
    · rw [update_self] at howner
      exact absurd howner (hp _)
    · rw [update_of_ne (Nat.ne_of_lt hd)] at howner
      change (update s.dsps s.dspCount _ d).realTimeP = _
      rw [update_of_ne (Nat.ne_of_lt hd)]
      exact h.pool d hd rt' howner

theorem Lists.expand (h : Lists s owner) (rt : Bool) :
    Lists (s.expand rt) (update owner s.dspCount (.list (.pool rt))) := by
  have hself : (s.newObject rt).dsps s.dspCount = _ := update_self ..
  have hpush := (h.newObject (p := .node 0) rt nofun).push (v := .pool rt) (Nat.lt_succ_self _)
    (by rw [update_self]; exact nofun) (fun rt' heq => by rw [hself]; exact Holder.pool.inj heq)
  rw [update_idem] at hpush
  rw [expand_eq]
  exact hpush

theorem Lists.cons (h : Lists s owner) {a : Car} (hconses : s'.conses = s.conses.cons a l)
    (hl : ∀ c ∈ l, c < s.conses.next) (hptr : ∀ d, (s'.dsps d).poolPtr = (s.dsps d).poolPtr)
    (hrt : ∀ d, (s'.dsps d).realTimeP = (s.dsps d).realTimeP) (hcount : s'.dspCount = s.dspCount)
    (hsize : s'.poolSize = s.poolSize) (hlists : s'.lists = s.lists) : Lists s' owner := by
  refine h.same ⟨?_, fun c hc => ?_, fun d hd v _ => ?_, ?_, hptr, hrt, hcount, hsize, hlists⟩
  all_goals rw [hconses]
  · exact Nat.le_succ _
  · exact update_of_ne (Nat.ne_of_lt hc) _ _
  · exact update_of_ne (Nat.ne_of_lt (h.ptr_lt d hd)) _ _
  · exact lt_of_update h.cdr_lt (Nat.le_succ _) fun c hc => Nat.lt_succ_of_lt (hl c hc)

/-- The nodes and the conses that are not of an instance are the same in the two states. -/
structure Extends (s s' : State) : Prop where
  next_le : s.conses.next ≤ s'.conses.next
  car : ∀ c < s.conses.next, s'.conses.car c = s.conses.car c
  cdr : ∀ c < s.conses.next, (∀ d, s.conses.car c ≠ .dsp d) → s'.conses.cdr c = s.conses.cdr c
  nodes : s'.nodes = s.nodes
  uses : s'.uses = s.uses
  useCount : s'.useCount = s.useCount
  calls : s'.calls = s.calls
  returned : s'.returned = s.returned
  scheduledCount : s.scheduledCount ≤ s'.scheduledCount

theorem Extends.refl (s : State) : Extends s s :=
  ⟨Nat.le_refl _, fun _ _ => rfl, fun _ _ _ => rfl, rfl, rfl, rfl, rfl, rfl, Nat.le_refl _⟩

theorem Extends.trans {s'' : State} (h : Extends s s') (h' : Extends s' s'') : Extends s s'' where
  next_le := Nat.le_trans h.next_le h'.next_le
  car c hc := (h'.car c (Nat.lt_of_lt_of_le hc h.next_le)).trans (h.car c hc)
  cdr c hc hcar := by
    have hcar' : ∀ d, s'.conses.car c ≠ .dsp d := by
      rw [h.car c hc]
      exact hcar
    exact (h'.cdr c (Nat.lt_of_lt_of_le hc h.next_le) hcar').trans (h.cdr c hc hcar)
  nodes := h'.nodes.trans h.nodes
  uses := h'.uses.trans h.uses
  useCount := h'.useCount.trans h.useCount
  calls := h'.calls.trans h.calls
  returned := h'.returned.trans h.returned
  scheduledCount := Nat.le_trans h.scheduledCount h'.scheduledCount

theorem Extends.of_lists {f : Holder → Option ℕ} (h : Extends { s with lists := f } s') :
    Extends s s' :=
  ⟨h.next_le, h.car, h.cdr, h.nodes, h.uses, h.useCount, h.calls, h.returned,
    h.scheduledCount⟩

section

variable (hnodes : s'.nodes = s.nodes) (huses : s'.uses = s.uses) (hcount : s'.useCount = s.useCount)
  (hcalls : s'.calls = s.calls) (hreturned : s'.returned = s.returned)
  (hscheduled : s'.scheduledCount = s.scheduledCount)

include hnodes huses hcount hcalls hreturned hscheduled

theorem extends_cons {a : Car} (hconses : s'.conses = s.conses.cons a l) : Extends s s' := by
  refine ⟨?_, fun c hc => ?_, fun c hc hcar => ?_, hnodes, huses, hcount, hcalls, hreturned,
    hscheduled.ge⟩
  all_goals rw [hconses]
  · exact Nat.le_succ _
  · exact update_of_ne (Nat.ne_of_lt hc) _ _
  · exact update_of_ne (Nat.ne_of_lt hc) _ _

theorem Lists.extends_setCdr (h : Lists s owner) (hd : d < s.dspCount) (l : Option ℕ)
    (hconses : s'.conses = s.conses.setCdr (s.dsps d).poolPtr l) : Extends s s' := by
  refine ⟨?_, fun c hc => ?_, fun c hc hcar => ?_, hnodes, huses, hcount, hcalls, hreturned,
    hscheduled.ge⟩
  all_goals rw [hconses]
  · exact Nat.le_refl _
  · rfl
  · have hne : c ≠ (s.dsps d).poolPtr := fun heq => hcar d (heq ▸ h.car_ptr d hd)
    exact update_of_ne hne _ _

end

@[simp] theorem freeDspInstance_dsps :
    (s.freeDspInstance d).dsps e = (s.setDummyFunctions d).dsps e := rfl

theorem setDummyFunctions_dsps : (s.setDummyFunctions d).dsps e =
    { s.dsps e with freeFunctionP := (s.dsps e).freeFunctionP && decide (e ≠ d) } := by
  change update s.dsps d _ e = _
  by_cases heq : e = d
  · subst heq
    simp
  · simp [heq]

theorem freeDspInstance_cdr : (s.freeDspInstance d).conses.cdr =
    update s.conses.cdr (s.dsps d).poolPtr (s.lists (.pool (s.dsps d).realTimeP)) := by
  change update s.conses.cdr ((s.setDummyFunctions d).dsps d).poolPtr _ = _
  rw [setDummyFunctions_dsps]
  rfl

section

variable (h : Lists s owner)
include h

theorem Lists.setCdr (hconses : s'.conses = s.conses.setCdr c l) (hl : ∀ c ∈ l, c < s.conses.next)
    (hc : ∀ d < s.dspCount, ∀ v, owner d = .list v → (s.dsps d).poolPtr ≠ c)
    (hdsps : s'.dsps = s.dsps) (hcount : s'.dspCount = s.dspCount)
    (hsize : s'.poolSize = s.poolSize) (hlists : s'.lists = s.lists) : Lists s' owner := by
  refine h.same ⟨?_, fun c hc => ?_, fun d hd v howner => ?_, ?_, fun d => ?_, fun d => ?_, hcount,
    hsize, hlists⟩
  · rw [hconses]
    exact Nat.le_refl _
  · rw [hconses]
    rfl
  · rw [hconses]
    exact update_of_ne (hc d hd v howner) _ _
  · rw [hconses]
    exact lt_of_update h.cdr_lt (Nat.le_refl _) hl
  · rw [hdsps]
  · rw [hdsps]

theorem Lists.makeDspInstance (rt : Bool) (hp : ∀ w, p ≠ .list w) :
    ∃ d s' owner', s.makeDspInstance rt = some (d, s') ∧ Lists s' owner' ∧ Extends s s' ∧
      d < s'.dspCount ∧ (s'.dsps d).realTimeP = rt ∧ owner' d = p ∧
      s.dspCount ≤ s'.dspCount ∧ (∀ e < s.dspCount, s'.dsps e = s.dsps e) ∧
      (d < s.dspCount → owner d = .list (.pool rt)) ∧
      (∀ c, s.conses.next ≤ c → c < s'.conses.next → ∃ e, s'.conses.car c = .dsp e) ∧
      ∀ e < s'.dspCount, e ≠ d →
        e < s.dspCount ∧ owner' e = owner e ∨ ¬ e < s.dspCount ∧ owner' e = .list (.pool rt) := by
  obtain ⟨s₁, owner₁, hs₁, hlists, hextends, hle, hdsps, hnew, howner, hsize⟩ : ∃ s₁ owner₁,
      s₁ = (if s.poolSize rt = 0 then s.expand rt else s) ∧ Lists s₁ owner₁ ∧ Extends s s₁ ∧
      s.dspCount ≤ s₁.dspCount ∧ (∀ e < s.dspCount, s₁.dsps e = s.dsps e) ∧
      (∀ c, s.conses.next ≤ c → c < s₁.conses.next → ∃ e, s₁.conses.car c = .dsp e) ∧
      (∀ e < s₁.dspCount, e < s.dspCount ∧ owner₁ e = owner e ∨ ¬ e < s.dspCount ∧
        owner₁ e = .list (.pool rt)) ∧ s₁.poolSize rt ≠ 0 := by
    by_cases hzero : s.poolSize rt = 0
    · refine ⟨s.expand rt, _, (if_pos hzero).symm, h.expand rt,
        extends_cons rfl rfl rfl rfl rfl rfl rfl, Nat.le_succ _, fun e he => ?_,
        fun c hle hlt => ⟨s.dspCount, ?_⟩, fun e he => ?_, ?_⟩
      · exact update_of_ne (Nat.ne_of_lt he) _ _
      · obtain rfl := Nat.eq_of_le_of_lt_succ hle hlt
        exact update_self ..
      · rcases Nat.eq_or_lt_of_le (Nat.le_of_lt_succ he) with rfl | he
        · exact Or.inr ⟨Nat.lt_irrefl _, update_self ..⟩
        · exact Or.inl ⟨he, update_of_ne (Nat.ne_of_lt he) _ _⟩
      · change update s.poolSize rt (s.poolSize rt + 1) rt ≠ 0
        rw [update_self]
        exact Nat.succ_ne_zero _
    · exact ⟨s, owner, (if_neg hzero).symm, h, .refl s, Nat.le_refl _, fun _ _ => rfl,
        fun c hle hlt => absurd hle (Nat.not_le.mpr hlt), fun e he => Or.inl ⟨he, rfl⟩, hzero⟩
  obtain ⟨c, hc⟩ : ∃ c, s₁.lists (.pool rt) = some c := by
    obtain ⟨ds, hholds, -, hlength⟩ := hlists.holds (.pool rt)
    cases ds with
    | nil => exact absurd (hlength rt rfl).symm hsize
    | cons e ds => exact ⟨_, (chain_cons.mp hholds).1⟩
  obtain ⟨d, hcd, hd, hpool, hobject, hpop⟩ := hlists.pop hc hp
  have hrt := hlists.pool d hd rt hpool
  have hset : Lists { s₁.pop (.pool rt) c with conses := s₁.conses.setCdr c none }
      (update owner₁ d p) := by
    refine hpop.setCdr (c := c) (l := none) rfl nofun (fun e he v howner heq => ?_) rfl rfl rfl rfl
    have hed : e = d := hlists.ptr_inj he hd (heq.trans hcd)
    rw [hed, update_self] at howner
    exact hp v howner
  refine ⟨d, _, _, ?_, hset, hextends.trans ?_, hd, hrt, update_self .., hle, hdsps, fun hlt => ?_,
    hnew, fun e he hne => ?_⟩
  · rw [State.makeDspInstance, State.popCons, ← hs₁]
    simp only [hc]
    change (do
      let d ← s₁.object c
      some (d, { s₁.pop (.pool rt) c with conses := s₁.conses.setCdr c none })) = _
    rw [hobject]
    rfl
  · exact hlists.extends_setCdr rfl rfl rfl rfl rfl rfl hd none (hcd ▸ rfl)
  · rcases howner d hd with ⟨-, heq⟩ | ⟨hnot, -⟩
    · rw [← heq, hpool]
    · exact absurd hlt hnot
  · rw [update_of_ne hne]
    exact howner e he

theorem Lists.setDummyFunctions (d : ℕ) : Lists (s.setDummyFunctions d) owner := by
  refine h.same ⟨Nat.le_refl _, fun _ _ => rfl, fun _ _ _ _ => rfl, h.cdr_lt, fun e => ?_,
    fun e => ?_, rfl, rfl, rfl⟩
  all_goals rw [setDummyFunctions_dsps]

theorem Lists.freeDspInstance (hd : d < s.dspCount) (hfree : ∀ w, owner d ≠ .list w) :
    Lists (s.freeDspInstance d) (update owner d (.list (.pool (s.dsps d).realTimeP))) ∧
      Extends s (s.freeDspInstance d) := by
  have hptr : ((s.setDummyFunctions d).dsps d).poolPtr = (s.dsps d).poolPtr := by
    rw [setDummyFunctions_dsps]
  constructor
  · refine (h.setDummyFunctions d).push hd hfree fun rt heq => ?_
    rw [setDummyFunctions_dsps]
    exact Holder.pool.inj heq
  · refine h.extends_setCdr rfl rfl rfl rfl rfl rfl hd (s.lists (.pool (s.dsps d).realTimeP)) ?_
    rw [← hptr]
    rfl

theorem Lists.deallocDspInstances (hl : s.Holds l ds) {fuel : ℕ} (hfuel : ds.length ≤ fuel)
    (hds : ∀ d ∈ ds, d < s.dspCount ∧ ∀ w, owner d ≠ .list w) :
    ∃ s', State.deallocDspInstances fuel l (l.bind s.conses.cdr) s = some s' ∧ Extends s s' ∧
      s'.conses.next = s.conses.next ∧ s'.dspCount = s.dspCount ∧
      (∀ e, ∃ b, s'.dsps e = { s.dsps e with freeFunctionP := b }) ∧
      Lists s' fun d => if d ∈ ds then .list (.pool (s.dsps d).realTimeP) else owner d := by
  induction ds generalizing s owner l fuel with
  | nil =>
    obtain rfl := chain_nil.mp hl
    refine ⟨s, by cases fuel <;> rfl, .refl s, rfl, rfl, fun e => ⟨_, rfl⟩, ?_⟩
    simpa using h
  | cons d ds ih =>
    obtain ⟨rfl, htail⟩ := chain_cons.mp hl
    obtain ⟨fuel, rfl⟩ := Nat.exists_eq_succ_of_ne_zero (Nat.ne_of_gt (Nat.lt_of_lt_of_le
      (Nat.succ_pos _) hfuel))
    obtain ⟨hd, hfree⟩ := hds d List.mem_cons_self
    have hnot : d ∉ ds := (List.nodup_cons.mp hl.nodup).1
    obtain ⟨hlists, hextends⟩ := h.freeDspInstance hd hfree
    have hrest : (s.freeDspInstance d).Holds (s.conses.cdr (s.dsps d).poolPtr) ds := by
      have hptr := h.ptr_not_mem hd (fun e he => (hds e (List.mem_cons_of_mem _ he)).1) hnot
      have hchain := Chain.update htail hptr (s.lists (.pool (s.dsps d).realTimeP))
      have hmap : (ds.map fun e => ((s.freeDspInstance d).dsps e).poolPtr) =
          ds.map fun e => (s.dsps e).poolPtr := by
        refine List.map_congr_left fun e _ => ?_
        rw [freeDspInstance_dsps, setDummyFunctions_dsps]
      rw [State.Holds, hmap, freeDspInstance_cdr]
      exact hchain
    obtain ⟨s', hs', hextends', hnext, hcount, hdsps, hlists'⟩ := ih hlists hrest
      (Nat.le_of_succ_le_succ hfuel) fun e he => by
        have hne : e ≠ d := fun heq => hnot (heq ▸ he)
        rw [update_of_ne hne]
        exact hds e (List.mem_cons_of_mem _ he)
    refine ⟨s', ?_, hextends.trans hextends', hnext, hcount, fun e => ?_, ?_⟩
    · rw [State.deallocDspInstances, h.object_ptr hd]
      exact hs'
    · obtain ⟨b, hb⟩ := hdsps e
      refine ⟨b, ?_⟩
      rw [hb, freeDspInstance_dsps, setDummyFunctions_dsps]
    · refine hlists'.congr fun e _ v => ?_
      rw [freeDspInstance_dsps, setDummyFunctions_dsps]
      by_cases heq : e = d
      · subst heq
        simp [hnot]
      · simp [heq]

theorem Lists.remove (v : Holder) (hv : ∀ rt, v ≠ .pool rt) :
    Lists { s with lists := update s.lists v none } fun d =>
      if owner d = .list v then .node 0 else owner d := by
  refine ⟨h.cdr_lt, h.ptr_lt, h.car_ptr, fun w => ?_, fun d hd rt howner => ?_⟩
  · by_cases heq : w = v
    · subst heq
      refine ⟨[], ?_, fun d => ?_, fun rt hw => absurd hw (hv rt)⟩
      · change Chain s.conses.cdr (update s.lists w none w) _
        rw [update_self]
        exact .nil
      · simp only [List.not_mem_nil, false_iff]
        rintro ⟨-, howner⟩
        split_ifs at howner with hd
        exact hd howner
    · obtain ⟨ds, hholds, hmem, hsize⟩ := h.holds w
      refine ⟨ds, ?_, fun d => ?_, hsize⟩
      · change Chain s.conses.cdr (update s.lists v none w) _
        rw [update_of_ne heq]
        exact hholds
      · rw [hmem d]
        refine and_congr_right fun _ => ?_
        split_ifs with hd
        · rw [hd]
          exact ⟨fun heq' => absurd (Place.list.inj heq').symm heq, nofun⟩
        · rfl
  · split_ifs at howner
    exact h.pool d hd rt howner

theorem Lists.move {v w : Holder} (hv : ∀ rt, v ≠ .pool rt) (hw : ∀ rt, w ≠ .pool rt) (hne : v ≠ w)
    (hempty : s.lists w = none) (hlists : s'.lists = update (update s.lists v none) w (s.lists v))
    (hconses : s'.conses = s.conses) (hdsps : s'.dsps = s.dsps) (hcount : s'.dspCount = s.dspCount)
    (hsize : s'.poolSize = s.poolSize) :
    Lists s' fun d => if owner d = .list v then .list w else owner d := by
  have hw' : ∀ d < s.dspCount, owner d ≠ .list w := by
    intro d hd howner
    obtain ⟨ds, hholds, hmem, -⟩ := h.holds w
    rw [hempty] at hholds
    cases ds with
    | nil => cases (hmem d).mpr ⟨hd, howner⟩
    | cons => cases hholds
  obtain ⟨es, hes, hmemv, -⟩ := h.holds v
  refine ⟨?_, ?_, ?_, fun u => ?_, fun d hd rt howner => ?_⟩
  · rw [hconses]
    exact h.cdr_lt
  · rw [hconses, hdsps, hcount]
    exact h.ptr_lt
  · rw [hconses, hdsps, hcount]
    exact h.car_ptr
  · simp only [State.Holds, hconses, hdsps, hcount, hlists]
    by_cases huw : u = w
    · subst huw
      refine ⟨es, ?_, fun d => ?_, fun rt heq => absurd heq (hw rt)⟩
      · rw [update_self]
        exact hes
      · rw [hmemv d]
        refine and_congr_right fun hd => ?_
        split_ifs with howner
        · exact iff_of_true howner rfl
        · exact iff_of_false howner (hw' d hd)
    · obtain ⟨ds, hholds, hmem, hsize'⟩ := (h.remove v hv).holds u
      rw [update_of_ne huw, hsize]
      refine ⟨ds, hholds, fun d => ?_, hsize'⟩
      rw [hmem d]
      refine and_congr_right fun _ => ?_
      split_ifs with howner
      · exact iff_of_false nofun fun heq => huw (Place.list.inj heq).symm
      · rfl
  · rw [hcount] at hd
    rw [hdsps]
    split_ifs at howner with heq
    · exact absurd (Place.list.inj howner) (hw rt)
    · exact h.pool d hd rt howner

theorem Lists.dealloc (v : Holder) (hv : ∀ rt, v ≠ .pool rt) :
    ∃ s', { s with lists := update s.lists v none }.dealloc (s.lists v) = some s' ∧ Extends s s' ∧
      s'.conses.next = s.conses.next ∧ s'.dspCount = s.dspCount ∧
      (∀ e, ∃ b, s'.dsps e = { s.dsps e with freeFunctionP := b }) ∧
      Lists s' fun d =>
        if owner d = .list v then .list (.pool (s.dsps d).realTimeP) else owner d := by
  obtain ⟨ds, hholds, hmem, -⟩ := h.holds v
  have hlength := Chain.length_le hholds (h.lt_next fun d hd => ((hmem d).mp hd).1)
  rw [List.length_map] at hlength
  obtain ⟨s', hs', hextends, hnext, hcount, hdsps, hlists⟩ := (h.remove v hv).deallocDspInstances (l := s.lists v)
    hholds hlength fun d hd => by
      obtain ⟨hd, howner⟩ := (hmem d).mp hd
      rw [if_pos howner]
      exact ⟨hd, nofun⟩
  refine ⟨s', hs', hextends.of_lists, hnext, hcount, hdsps, hlists.congr fun d hd w => ?_⟩
  rw [hcount] at hd
  have hiff : d ∈ ds ↔ owner d = .list v := (hmem d).trans (and_iff_right hd)
  by_cases howner : owner d = .list v
  · rw [if_pos howner, if_pos (hiff.mpr howner)]
  · rw [if_neg howner, if_neg (fun hin => howner (hiff.mp hin)), if_neg howner]

end

end

end Incudine.DspInstance
