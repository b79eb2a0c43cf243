import Incudine.VoicerInvariant

/-!
# Runs of a voicer

The events of a voicer and of its DSPs in any order. The representation of the voices is kept if
a trigger does not steal a voice that has been released already.
-/

namespace Incudine.Voices

open DoublyLinked Function Pool VoiceQueues

set_option linter.unusedSectionVars false

variable {τ : Type} [DecidableEq τ]

/-- The tlist ends with its last cons. -/
structure WellFormed (tl : Tlist ℕ) : Prop where
  last : tl.last = tl.cells.getLast?.map Prod.fst
  nodup : (tl.cells.map Prod.fst).Nodup

def items (tl : Tlist ℕ) : List ℕ := tl.cells.map Prod.snd

/-- The nodes `l` of the list are in one tlist of their tag, once, and not in the node pool. -/
structure Consistent (v : Voicer τ) (l : List ℕ) : Prop where
  linked : Linked v l
  count : l.length = v.count
  once : ∀ n ∈ l, ∃ entry, v.objectHash (v.tag n) = some entry ∧
    (items entry.object ++ items entry.pending).count n = 1
  pool : ∀ n ∈ l, n ∉ v.nodePool.map Prod.snd
  wellFormed : ∀ t entry, v.objectHash t = some entry →
    WellFormed entry.object ∧ WellFormed entry.pending

def Voicer.Pending (v : Voicer τ) (n : ℕ) : Prop :=
  ∃ entry, v.objectHash (v.tag n) = some entry ∧ n ∈ items entry.pending

section Represents

variable {v : Voicer τ} {q : Queues ℕ} {freeHooks : ℕ → Option ℕ} {owner : ℕ → Option (Owner τ)}
  {n : ℕ}

theorem Represents.consistent (h : Represents v q freeHooks owner) : Consistent v q.order where
  linked := h.linked
  count := h.count.symm
  once n hn := by
    obtain ⟨entry, hentry⟩ := h.filed.entry n hn
    refine ⟨entry, hentry, ?_⟩
    have hobject : items entry.object = _ := (h.filed.object _ entry hentry).items
    have hpending : items entry.pending = _ := (h.filed.pending _ entry hentry).items
    rw [hobject, hpending]
    have hnodup : (q.objects v.tag (v.tag n) ++ q.pendings v.tag (v.tag n)).Nodup := by
      refine List.nodup_append'.mpr ⟨h.valid.order.filter _, h.valid.releasing.filter _,
        fun m hm hm' => ?_⟩
      exact (Queues.mem_objects.mp hm).2.2 (Queues.mem_pendings.mp hm').1
    refine List.count_eq_one_of_mem hnodup (List.mem_append.mpr ?_)
    by_cases hr : n ∈ q.releasing
    · exact .inr (Queues.mem_pendings.mpr ⟨hr, rfl⟩)
    · exact .inl (Queues.mem_objects.mpr ⟨hn, rfl, hr⟩)
  pool := h.pooled.disjoint
  wellFormed t entry hentry :=
    ⟨⟨(h.filed.object t entry hentry).last, (h.filed.object t entry hentry).nodup⟩,
      ⟨(h.filed.pending t entry hentry).last, (h.filed.pending t entry hentry).nodup⟩⟩

theorem Represents.pending_iff (h : Represents v q freeHooks owner) (hn : n ∈ q.order) :
    v.Pending n ↔ n ∈ q.releasing := by
  obtain ⟨entry, hentry⟩ := h.filed.entry n hn
  have hpending : items entry.pending = _ := (h.filed.pending _ entry hentry).items
  constructor
  · rintro ⟨entry', hentry', hmem⟩
    obtain rfl : entry' = entry := Option.some.inj (hentry'.symm.trans hentry)
    rw [hpending] at hmem
    exact (Queues.mem_pendings.mp hmem).1
  · intro hr
    exact ⟨entry, hentry, hpending ▸ Queues.mem_pendings.mpr ⟨hr, rfl⟩⟩

end Represents

section Dsps

variable {s : System τ} {dsp : ℕ} {d d' : Dsp τ} {l : List (Dsp τ)}

def live (l : List (Dsp τ)) : List (Dsp τ) := l.filter fun d => !d.ended

def freeHooks (l : List (Dsp τ)) (dsp : ℕ) : Option ℕ :=
  (l[dsp]?).bind fun d => if d.ended then none else some d.freeHook

theorem freeHooks_append (l : List (Dsp τ)) (d : Dsp τ) (hd : d.ended = false) :
    freeHooks (l ++ [d]) = update (freeHooks l) l.length (some d.freeHook) := by
  funext k
  obtain rfl | hne := eq_or_ne k l.length
  · rw [update_self, freeHooks, List.getElem?_concat_length, Option.bind_some, hd]
    rfl
  · rw [update_of_ne hne, freeHooks, freeHooks]
    obtain hlt | hgt := Nat.lt_or_gt_of_ne hne
    · rw [List.getElem?_append_left hlt]
    · rw [List.getElem?_eq_none (by simp; omega), List.getElem?_eq_none (Nat.le_of_lt hgt)]

theorem freeHooks_eq (h : l[dsp]? = some d) :
    freeHooks l dsp = if d.ended then none else some d.freeHook := by
  rw [freeHooks, h, Option.bind_some]

theorem freeHooks_set (h : l[dsp]? = some d) (d' : Dsp τ) :
    freeHooks (l.set dsp d') =
      update (freeHooks l) dsp (if d'.ended then none else some d'.freeHook) := by
  have hlt : dsp < l.length := (List.getElem?_eq_some_iff.mp h).1
  funext k
  obtain rfl | hne := eq_or_ne k dsp
  · rw [update_self, freeHooks, List.getElem?_set_self hlt, Option.bind_some]
  · rw [update_of_ne hne, freeHooks, List.getElem?_set_ne hne.symm, freeHooks]

theorem exists_append_of_getElem? (h : l[dsp]? = some d) :
    ∃ l₁ l₂, l = l₁ ++ d :: l₂ ∧ ∀ d', l.set dsp d' = l₁ ++ d' :: l₂ := by
  obtain ⟨hlt, rfl⟩ := List.getElem?_eq_some_iff.mp h
  refine ⟨l.take dsp, l.drop (dsp + 1), ?_, fun d' => ?_⟩
  · rw [← List.drop_eq_getElem_cons hlt, List.take_append_drop]
  · rw [List.set_eq_take_append_cons_drop, if_pos hlt]

end Dsps

section Run

variable {checked : Bool} {s s' : System τ} {event : Event τ}

/-- The states reached by the events that meet a condition. -/
inductive Run (checked : Bool) (ok : System τ → Event τ → Prop) : System τ → Prop
  | start (nodes : ℕ → Node τ) (polyphony : ℕ) (stealFunction : Option Position) :
      Run checked ok ⟨.makeVoicer nodes polyphony stealFunction, []⟩
  | step {s s' : System τ} {event : Event τ} (h : Run checked ok s) (henabled : s.Enabled event)
      (hok : ok s event) (hstep : s.step checked event = some s') : Run checked ok s'

theorem Run.perform {ok : System τ → Event τ → Prop} (h : Run checked ok s)
    {events : List (Event τ)} (hok : ∀ s, ∀ event ∈ events, ok s event)
    (hperform : s.perform checked events = some s') : Run checked ok s' := by
  induction events generalizing s with
  | nil =>
    obtain rfl := Option.some.inj hperform
    exact h
  | cons event events ih =>
    rw [System.perform] at hperform
    split at hperform
    next henabled =>
      obtain ⟨s₁, hstep, hperform⟩ := Option.bind_eq_some_iff.mp hperform
      exact ih (h.step henabled (hok s event List.mem_cons_self) hstep)
        (fun s event hevent => hok s event (List.mem_cons_of_mem _ hevent)) hperform
    next => cases hperform

/-- A trigger does not steal a voice that has been released, and the tag of a release is in the hash
table if the types are checked. -/
def Safe (checked : Bool) (s : System τ) : Event τ → Prop
  | .trigger _ => s.voicer.fullP = true → ∀ position, s.voicer.stealFunction = some position →
      ∀ n, s.voicer.findLiveNode position = some (some n) → ¬ s.voicer.Pending n
  | .release tag => checked = true → s.voicer.count = 0 ∨
      ∃ entry, s.voicer.objectHash tag = some entry
  | _ => True

/-- The queues of the voices of a system, with a DSP for each voice of a tag. -/
structure Kept (s : System τ) (q : Queues ℕ) : Prop where
  represents : ∃ owner, Represents s.voicer q (freeHooks s.dsps) owner
  tags : ((live s.dsps).map Dsp.tag).Perm (q.order.map s.voicer.tag)

def Change (s s' : System τ) (q q' : Queues ℕ) : Event τ → Prop
  | .trigger tag => s.voicer.refused = true ∧ s' = s ∧ q' = q ∨
      ∃ n freeHook, s.voicer.refused = false ∧ n ∉ q.order ∧
        s'.dsps = s.dsps ++ [⟨tag, n, freeHook, none, false⟩] ∧
        q' = (q.releaseOption
          (stolen s.voicer (fun n => (s.voicer.nodes n).toRelease) q)).add n ∧
        s'.voicer.tag n = tag ∧ (s'.voicer.nodes n).value = none ∧
        Effect s.voicer s'.voicer q.order
  | .release tag => s'.dsps = s.dsps ∧ q' = q.releaseFirst s.voicer.tag tag ∧
      Effect s.voicer s'.voicer q.order
  | .setPolyphony _ => s'.dsps = s.dsps ∧ q' = q ∧ Effect s.voicer s'.voicer q.order
  | .setStealVoiceMode _ => s'.dsps = s.dsps ∧ q' = q ∧ Effect s.voicer s'.voicer q.order
  | .action dsp id => ∃ d, s.dsps[dsp]? = some d ∧
      s'.dsps = s.dsps.set dsp { d with id := some id } ∧ q' = q ∧ s'.voicer.tag = s.voicer.tag ∧
      ∀ n, (s'.voicer.nodes n).value = (s.voicer.nodes n).value ∨
        (s.voicer.nodes n).toRelease = false ∧ n = d.node ∧ (s'.voicer.nodes n).value = some id
  | .freeHook dsp => ∃ d n, s.dsps[dsp]? = some d ∧ q.next s.voicer.tag d.tag = some n ∧
      s'.dsps = s.dsps.set dsp { d with ended := true } ∧ q' = q.remove n ∧
      Effect s.voicer s'.voicer q.order

theorem represents_start (nodes : ℕ → Node τ) (polyphony : ℕ) (stealFunction : Option Position) :
    ∃ owner, Represents (.makeVoicer nodes polyphony stealFunction) ⟨[], []⟩ (freeHooks ([] : List (Dsp τ)))
      owner := by
  have hconses : ((List.range polyphony).map fun i => (i, i)).map Prod.fst = List.range polyphony := by
    rw [List.map_map]
    exact List.map_id _
  have hnodes : ((List.range polyphony).map fun i => (i, i)).map Prod.snd = List.range polyphony := by
    rw [List.map_map]
    exact List.map_id _
  have hnot : ∀ c, polyphony ≤ c → ¬ c < polyphony := fun c hle => Nat.not_lt.mpr hle
  refine ⟨fun c => if c < polyphony then some .nodePool else none,
    ⟨trivial, rfl, rfl, List.nodup_nil⟩,
    ⟨⟨List.nodup_range', fun c hc => if_neg (hnot c (List.mem_range'_1.mp hc).1),
      fun c hc => (List.mem_range'_1.mp hc).2, fun c hle => if_neg (hnot c ?_), Nat.succ_pos 11⟩,
      hconses ▸ List.nodup_range, fun entry hentry => if_pos ?_, hnodes ▸ List.nodup_range,
      fun _ => nofun, fun _ => nofun, fun n hn => ?_, fun _ _ => nofun⟩,
    ⟨fun _ _ => nofun, fun _ _ => nofun, fun _ => nofun, fun _ => nofun⟩,
    ⟨List.nodup_nil, List.nodup_nil, fun _ => nofun⟩, rfl⟩
  · exact Nat.le_of_add_right_le hle
  · have hmem : entry.1 ∈ List.range polyphony := hconses ▸ List.mem_map_of_mem hentry
    exact List.mem_range.mp hmem
  · exact List.mem_range.mp (hnodes ▸ hn)

theorem kept_start (nodes : ℕ → Node τ) (polyphony : ℕ) (stealFunction : Option Position) :
    Kept ⟨.makeVoicer nodes polyphony stealFunction, []⟩ ⟨[], []⟩ :=
  ⟨represents_start nodes polyphony stealFunction, .nil⟩

theorem Represents.not_releasing_of_stolen {q : Queues ℕ} {owner : ℕ → Option (Owner τ)}
    (hrep : Represents s.voicer q (freeHooks s.dsps) owner) {tag : τ} {n : ℕ}
    (hsafe : Safe checked s (.trigger tag))
    (hstolen : stolen s.voicer (fun n => (s.voicer.nodes n).toRelease) q = some n) :
    n ∉ q.releasing := by
  intro hmem
  have hn := stolen_mem hstolen
  rw [stolen] at hstolen
  split at hstolen
  next hfull =>
    obtain ⟨position, hsteal, hlive⟩ := Option.bind_eq_some_iff.mp hstolen
    have hfind := hrep.findLiveNode position
    rw [hlive] at hfind
    exact hsafe hfull position hsteal n hfind ((hrep.pending_iff hn).mpr hmem)
  next => cases hstolen

theorem Represents.step {q : Queues ℕ} {owner : ℕ → Option (Owner τ)}
    (hrep : Represents s.voicer q (freeHooks s.dsps) owner)
    (hdsps : ∀ d ∈ live s.dsps, ∃ n ∈ q.order, s.voicer.tag n = d.tag) (henabled : s.Enabled event)
    (hsafe : Safe checked s event) :
    ∃ s' q', s.step checked event = some s' ∧
      (∃ owner, Represents s'.voicer q' (freeHooks s'.dsps) owner) ∧ Change s s' q q' event := by
  cases event with
  | trigger tag =>
    have hr : ∀ n, stolen s.voicer (fun n => (s.voicer.nodes n).toRelease) q = some n →
        n ∉ q.releasing := fun n hstolen => hrep.not_releasing_of_stolen hsafe hstolen
    obtain ⟨hrefused, htrigger⟩ | ⟨n, c, v', owner', hrefused, htrigger, hn, hrep', htag, hvalue,
      heffect⟩ := hrep.unsafeTrigger tag s.dsps.length hr
    · refine ⟨s, q, ?_, ⟨owner, hrep⟩, .inl ⟨hrefused, rfl, rfl⟩⟩
      rw [System.step, System.trigger, htrigger]
      rfl
    · refine ⟨⟨v', s.dsps ++ [⟨tag, n, c, none, false⟩]⟩, _, ?_, ⟨owner', ?_⟩,
        .inr ⟨n, c, hrefused, hn, rfl, rfl, htag, hvalue, heffect⟩⟩
      · rw [System.step, System.trigger, htrigger]
        rfl
      · rw [freeHooks_append _ _ rfl]
        exact hrep'
  | release tag =>
    obtain ⟨v', owner', hrelease, hrep', heffect⟩ := hrep.releaseObject hsafe
    refine ⟨⟨v', s.dsps⟩, _, ?_, ⟨owner', hrep'⟩, rfl, rfl, heffect⟩
    rw [System.step, Voicer.releaseFunctionDefault, if_pos rfl, hrelease]
    rfl
  | setPolyphony value =>
    obtain ⟨owner', hrep', heffect⟩ := hrep.setPolyphony value
    exact ⟨⟨s.voicer.setPolyphony value, s.dsps⟩, q, rfl, ⟨owner', hrep'⟩, rfl, rfl, heffect⟩
  | setStealVoiceMode mode =>
    exact ⟨⟨{ s.voicer with stealFunction := mode }, s.dsps⟩, q, rfl,
      ⟨owner, hrep.settings s.voicer.polyphony s.voicer.availableNodes mode s.voicer.freed⟩, rfl, rfl,
      effect_of_eq (by rfl) (by rfl) _⟩
  | action dsp id =>
    obtain ⟨d, hd, -⟩ := henabled
    have hhooks : freeHooks (s.dsps.set dsp { d with id := some id }) = freeHooks s.dsps := by
      rw [freeHooks_set hd, ← freeHooks_eq hd]
      exact update_eq_self _ _
    refine ⟨⟨if (s.voicer.nodes d.node).toRelease then s.voicer.objectFree (some id)
        else s.voicer.setNode d.node { s.voicer.nodes d.node with value := some id },
      s.dsps.set dsp { d with id := some id }⟩, q, ?_, ⟨owner, ?_⟩, d, hd, rfl, rfl, ?_, fun n => ?_⟩
    · rw [System.step, System.action, hd, Option.map_some]
    · rw [hhooks]
      split
      next => exact hrep.settings _ _ _ _
      next => exact hrep.setNode rfl rfl rfl (hrep.filed.toRelease d.node)
    · split
      next => rfl
      next => exact field_setNode_eq Node.tag rfl
    · split
      next => exact .inl rfl
      next hmark =>
        obtain rfl | hne := eq_or_ne n d.node
        · exact .inr ⟨eq_false_of_ne_true hmark, rfl, by rw [nodes_setNode_self]⟩
        · exact .inl (by rw [nodes_setNode_of_ne hne])
  | freeHook dsp =>
    obtain ⟨d, hd, hended⟩ := henabled
    have hlive : d ∈ live s.dsps :=
      List.mem_filter.mpr ⟨List.mem_of_getElem? hd, by rw [hended]; rfl⟩
    obtain ⟨m, hm, htag⟩ := hdsps d hlive
    obtain ⟨n, hnext⟩ := Queues.exists_next hm s.voicer.tag
    rw [htag] at hnext
    obtain ⟨v', owner', hrelease, hrep', heffect⟩ := hrep.releaseNode hnext
    have hhook : freeHooks s.dsps dsp = some d.freeHook := by
      rw [freeHooks_eq hd, hended]
      rfl
    refine ⟨⟨{ v' with genericPool := v'.genericPool.pushCons d.freeHook },
      s.dsps.set dsp { d with ended := true }⟩, q.remove n, ?_,
      ⟨update owner' d.freeHook none, ?_⟩, d, n, hd, hnext, rfl, rfl,
      heffect.trans (effect_of_eq (by rfl) (by rfl) q.order) (fun _ hm => hm) fun _ hm => hm⟩
    · rw [System.step, System.freeHook, hd, Option.bind_some, Voicer.releaseFunctionDefault,
        if_neg (by simp), hrelease]
      rfl
    · rw [freeHooks_set hd]
      exact hrep'.pushFreeHook hhook

theorem Kept.step {q : Queues ℕ} (h : Kept s q) (henabled : s.Enabled event)
    (hsafe : Safe checked s event) :
    ∃ s' q', s.step checked event = some s' ∧
      (∃ owner, Represents s'.voicer q' (freeHooks s'.dsps) owner) ∧ Change s s' q q' event := by
  obtain ⟨owner, hrep⟩ := h.represents
  exact hrep.step (fun d hd => List.mem_map.mp (h.tags.subset (List.mem_map_of_mem hd))) henabled
    hsafe

theorem live_append (l : List (Dsp τ)) {d : Dsp τ} (hd : d.ended = false) :
    live (l ++ [d]) = live l ++ [d] := by
  rw [live, List.filter_append, live, List.filter_singleton, hd]
  rfl

theorem live_set {l : List (Dsp τ)} {dsp : ℕ} {d : Dsp τ} (hd : l[dsp]? = some d) :
    ∃ l₁ l₂, live l = l₁ ++ (live [d] ++ l₂) ∧
      ∀ d', live (l.set dsp d') = l₁ ++ (live [d'] ++ l₂) := by
  obtain ⟨l₁, l₂, hl, hset⟩ := exists_append_of_getElem? hd
  have hlive : ∀ d', live (l₁ ++ d' :: l₂) = live l₁ ++ (live [d'] ++ live l₂) := by
    intro d'
    rw [live, List.filter_append, ← List.singleton_append, List.filter_append]
    rfl
  exact ⟨live l₁, live l₂, hl ▸ hlive d, fun d' => hset d' ▸ hlive d'⟩

theorem Kept.change {q q' : Queues ℕ} (h : Kept s q) (henabled : s.Enabled event)
    (hchange : Change s s' q q' event) :
    ((live s'.dsps).map Dsp.tag).Perm (q'.order.map s'.voicer.tag) := by
  have hsame : s'.dsps = s.dsps → q'.order = q.order → Effect s.voicer s'.voicer q.order →
      ((live s'.dsps).map Dsp.tag).Perm (q'.order.map s'.voicer.tag) := by
    intro hdsps horder heffect
    rw [hdsps, horder, List.map_congr_left heffect.tag]
    exact h.tags
  cases event with
  | trigger tag =>
    obtain ⟨-, rfl, rfl⟩ | ⟨n, c, -, hn, hdsps, rfl, htag, -, heffect⟩ := hchange
    · exact h.tags
    · rw [hdsps, Queues.add, Queues.order_releaseOption, live_append _ rfl, List.map_append,
        List.map_append, List.map_singleton, List.map_singleton, htag,
        List.map_congr_left heffect.tag]
      exact h.tags.append_right [tag]
  | release tag =>
    obtain ⟨hdsps, rfl, heffect⟩ := hchange
    exact hsame hdsps (Queues.order_releaseOption _ _) heffect
  | setPolyphony value =>
    obtain ⟨hdsps, rfl, heffect⟩ := hchange
    exact hsame hdsps rfl heffect
  | setStealVoiceMode mode =>
    obtain ⟨hdsps, rfl, heffect⟩ := hchange
    exact hsame hdsps rfl heffect
  | action dsp id =>
    obtain ⟨d, hd, hdsps, rfl, htag, -⟩ := hchange
    obtain ⟨l₁, l₂, hlive, hset⟩ := live_set hd
    have htags := h.tags
    have hd' : (live [{ d with id := some id }]).map Dsp.tag = (live [d]).map Dsp.tag := by
      rw [live, live, List.filter_singleton, List.filter_singleton]
      cases d.ended <;> rfl
    rw [hlive, List.map_append, List.map_append, ← hd', ← List.map_append, ← List.map_append,
      ← hset] at htags
    rw [hdsps, htag]
    exact htags
  | freeHook dsp =>
    obtain ⟨d, n, hd, hnext, hdsps, rfl, heffect⟩ := hchange
    obtain ⟨d', hd', hended⟩ := henabled
    obtain rfl : d' = d := Option.some.inj (hd'.symm.trans hd)
    obtain ⟨owner, hrep⟩ := h.represents
    obtain ⟨hn, htag⟩ := hrep.valid.mem_of_next hnext
    obtain ⟨l₁, l₂, hlive, hset⟩ := live_set hd
    have htags := h.tags
    have hsingleton : live [d'] = [d'] := by
      rw [live, List.filter_singleton, hended]
      rfl
    rw [hlive, hsingleton, List.singleton_append] at htags
    have hremoved : (q.remove n).order.map s'.voicer.tag = (q.order.erase n).map s.voicer.tag :=
      List.map_congr_left fun m hm => heffect.tag m (List.mem_of_mem_erase hm)
    rw [hdsps, hset, hremoved]
    have hleft : ((l₁ ++ d' :: l₂).map Dsp.tag).Perm (d'.tag :: (l₁ ++ l₂).map Dsp.tag) :=
      List.perm_middle.map Dsp.tag
    have hright : (q.order.map s.voicer.tag).Perm
        (d'.tag :: (q.order.erase n).map s.voicer.tag) := by
      rw [← htag]
      exact (List.perm_cons_erase hn).map s.voicer.tag
    exact List.Perm.cons_inv ((hleft.symm.trans htags).trans hright)

theorem Run.kept (h : Run checked (Safe checked) s) : ∃ q, Kept s q := by
  induction h with
  | start nodes polyphony stealFunction => exact ⟨_, kept_start nodes polyphony stealFunction⟩
  | step h henabled hok hstep ih =>
    obtain ⟨q, hkept⟩ := ih
    obtain ⟨s', q', hstep', hrep, hchange⟩ := hkept.step henabled hok
    have hkept' : Kept s' q' := ⟨hrep, hkept.change henabled hchange⟩
    obtain rfl := Option.some.inj (hstep.symm.trans hstep')
    exact ⟨q', hkept'⟩

/-- In every run where no trigger steals a released voice (and no release has an unknown tag, if the
types are checked), the voicer is consistent after each event and no event signals an error. -/
theorem consistent_of_safe (h : Run checked (Safe checked) s) :
    (∃ l, Consistent s.voicer l) ∧ ∀ event, s.Enabled event → Safe checked s event →
      ∃ s', s.step checked event = some s' ∧ ∃ l, Consistent s'.voicer l := by
  obtain ⟨q, hkept⟩ := h.kept
  obtain ⟨owner, hrep⟩ := hkept.represents
  refine ⟨⟨q.order, hrep.consistent⟩, fun event henabled hsafe => ?_⟩
  obtain ⟨s', q', hstep, ⟨owner', hrep'⟩, -⟩ := hkept.step henabled hsafe
  exact ⟨s', hstep, q'.order, hrep'.consistent⟩

theorem consistent_of_safe_steal :
    ∃ s : System Unit, Run true (Safe true) s ∧ s.dsps.length = 2 ∧ ∃ l, Consistent s.voicer l := by
  have hstart : @Run Unit _ true (Safe true) _ :=
    .start (fun _ => ⟨none, (), false, none, none⟩) 1 (some .first)
  have htrigger : @Run Unit _ true (Safe true) _ :=
    @Run.step _ _ _ _ _ _ (.trigger ()) hstart trivial (fun hfull => by cases hfull) rfl
  have hsteal := @Run.step _ _ _ _ _ _ (.trigger ()) htrigger trivial (by
    intro _ position hposition n hn
    cases hposition
    cases hn
    rintro ⟨entry, hentry, hmem⟩
    cases hentry
    cases hmem) rfl
  exact ⟨_, hsteal, rfl, (consistent_of_safe hsteal).1⟩

def emptySystem (polyphony : ℕ) (stealFunction : Option Position) : System Unit :=
  ⟨.makeVoicer (fun _ => ⟨none, (), false, none, none⟩) polyphony stealFunction, []⟩

/-- The voice of the only DSP is released and then stolen from the empty object tlist, that is cut by
hand. -/
theorem trigger_error :
    ∃ s : System Unit, Run false (fun _ _ => True) s ∧ s.step false (.trigger ()) = none := by
  have hperform : (((emptySystem 1 (some .last)).perform false
      [.trigger (), .action 0 1000, .release ()]).any
        fun s => (s.step false (.trigger ())).isNone) = true := by decide
  obtain ⟨s, hs, hnone⟩ := (Option.any_eq_true _ _).mp hperform
  exact ⟨s, (Run.start _ _ _).perform (fun _ _ _ => trivial) hs, Option.isNone_iff_eq_none.mp hnone⟩

end Run

end Incudine.Voices
