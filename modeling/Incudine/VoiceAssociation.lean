import Incudine.VoicerRuns

/-!
# Voices and DSPs

The free hook of a DSP knows only the tag: the node to remove is the one of the voice released
before the others or, if none is released, the oldest one. The nodes remain the ones of the DSPs if
the DSPs of each tag end in this order.
-/

namespace Incudine.Voices

open DoublyLinked Function Pool VoiceQueues

set_option linter.unusedSectionVars false

variable {τ : Type} [DecidableEq τ] {checked : Bool} {s s' : System τ} {event : Event τ}
  {q : Queues ℕ} {dsp : ℕ} {d : Dsp τ}

def System.Alive (s : System τ) (dsp : ℕ) : Prop := ∃ d, s.dsps[dsp]? = some d ∧ d.ended = false

def System.tag (s : System τ) (dsp : ℕ) : Option τ := (s.dsps[dsp]?).map Dsp.tag

def System.node (s : System τ) (dsp : ℕ) : ℕ := ((s.dsps[dsp]?).map Dsp.node).getD 0

def System.mark (s : System τ) (dsp : ℕ) : Bool := (s.voicer.nodes (s.node dsp)).toRelease

/-- The DSPs that have not ended, in the order of the triggers and of the releases, after an event. -/
def record (s : System τ) (q : Queues ℕ) : Event τ → Queues ℕ
  | .trigger _ =>
    if s.voicer.refused then q else (q.releaseOption (stolen s.voicer s.mark q)).add s.dsps.length
  | .release tag => q.releaseFirst s.tag (some tag)
  | .freeHook dsp => q.remove dsp
  | _ => q

/-- A DSP ends before the DSPs of the same tag released after it and, if none of them has been released,
before those triggered after it. An action performed after the free hook of its DSP does not set the
value of a node used again. -/
def Ordered (checked : Bool) (s : System τ) (q : Queues ℕ) : Event τ → Prop
  | .freeHook dsp => q.next s.tag (s.tag dsp) = some dsp
  | .action dsp _ => s.Alive dsp ∨ s.mark dsp = true ∨ ∀ dsp' ∈ q.order, s.node dsp' ≠ s.node dsp
  | event => Safe checked s event

/-- The states reached by the events that meet the condition, with the order of the DSPs. -/
inductive OrderedRun (checked : Bool) : System τ → Queues ℕ → Prop
  | start (nodes : ℕ → Node τ) (polyphony : ℕ) (stealFunction : Option Position) :
      OrderedRun checked ⟨.makeVoicer nodes polyphony stealFunction, []⟩ ⟨[], []⟩
  | step {s s' : System τ} {q : Queues ℕ} {event : Event τ} (h : OrderedRun checked s q)
      (henabled : s.Enabled event) (hordered : Ordered checked s q event)
      (hstep : s.step checked event = some s') : OrderedRun checked s' (record s q event)

/-- The nodes `l` of the list and the DSPs that have not ended correspond one to one, and the value
of a node is the id of its DSP. -/
structure Associated (s : System τ) (l : List ℕ) : Prop where
  linked : Linked s.voicer l
  mem : ∀ dsp, s.Alive dsp → s.node dsp ∈ l
  unique : ∀ n ∈ l, ∃! dsp, s.Alive dsp ∧ s.node dsp = n
  value : ∀ n ∈ l, ∀ id, (s.voicer.nodes n).value = some id →
    ∃ (dsp : ℕ) (d : Dsp τ), s.dsps[dsp]? = some d ∧ d.ended = false ∧ d.node = n ∧ d.id = some id

/-- The queues of the voicer are those of the DSPs. -/
structure Mirrors (s : System τ) (q : Queues ℕ) : Prop where
  represents : ∃ owner, Represents s.voicer (q.map s.node) (freeHooks s.dsps) owner
  valid : q.Valid
  alive : ∀ dsp, dsp ∈ q.order ↔ s.Alive dsp
  tag : ∀ dsp ∈ q.order, s.tag dsp = some (s.voicer.tag (s.node dsp))
  value : ∀ dsp ∈ q.order, ∀ id, (s.voicer.nodes (s.node dsp)).value = some id →
    ∃ d, s.dsps[dsp]? = some d ∧ d.id = some id

section Mirrors

theorem mirrors_start (nodes : ℕ → Node τ) (polyphony : ℕ) (stealFunction : Option Position) :
    Mirrors ⟨.makeVoicer nodes polyphony stealFunction, []⟩ ⟨[], []⟩ := by
  refine ⟨represents_start nodes polyphony stealFunction,
    ⟨List.nodup_nil, List.nodup_nil, fun _ => nofun⟩, fun dsp => ⟨nofun, ?_⟩, fun _ => nofun,
    fun _ => nofun⟩
  rintro ⟨d, hd, -⟩
  cases hd

theorem Ordered.safe (h : Ordered checked s q event) : Safe checked s event := by
  cases event with
  | trigger tag => exact h
  | release tag => exact h
  | setPolyphony value => trivial
  | setStealVoiceMode mode => trivial
  | action dsp id => trivial
  | freeHook dsp => trivial

theorem liveNode_map (f : ℕ → ℕ) (mark : ℕ → Bool) (q : Queues ℕ) (position : Position) :
    liveNode mark (q.map f) position = (liveNode (fun n => mark (f n)) q position).map f := by
  cases position with
  | first =>
    rw [liveNode, liveNode, Queues.map, List.find?_map]
    rfl
  | last =>
    rw [liveNode, liveNode, Queues.map, ← List.map_reverse, List.find?_map]
    rfl

theorem stolen_map (v : Voicer τ) (f : ℕ → ℕ) (mark : ℕ → Bool) (q : Queues ℕ) :
    stolen v mark (q.map f) = (stolen v (fun n => mark (f n)) q).map f := by
  rw [stolen, stolen]
  split
  · cases v.stealFunction with
    | none => rfl
    | some position => exact liveNode_map f mark q position
  · rfl

theorem System.node_eq (hd : s.dsps[dsp]? = some d) : s.node dsp = d.node := by
  rw [System.node, hd]
  rfl

theorem System.node_set {d' : Dsp τ} (hd : s.dsps[dsp]? = some d)
    (hdsps : s'.dsps = s.dsps.set dsp d') (hnode : d'.node = d.node) : s'.node = s.node := by
  have hlt := (List.getElem?_eq_some_iff.mp hd).1
  funext dsp'
  obtain rfl | hne := eq_or_ne dsp' dsp
  · have hself : s'.dsps[dsp']? = some d' := by rw [hdsps, List.getElem?_set_self hlt]
    rw [System.node_eq hself, System.node_eq hd, hnode]
  · rw [System.node, System.node, hdsps, List.getElem?_set_ne hne.symm]

section

variable (h : Mirrors s q)
include h

theorem Mirrors.associated : Associated s (q.order.map s.node) := by
  obtain ⟨owner, hrep⟩ := h.represents
  refine ⟨hrep.linked, fun dsp hdsp => List.mem_map_of_mem ((h.alive dsp).mpr hdsp), ?_, ?_⟩
  · intro n hn
    obtain ⟨dsp, hdsp, rfl⟩ := List.mem_map.mp hn
    refine ⟨dsp, ⟨(h.alive dsp).mp hdsp, rfl⟩, fun dsp' hdsp' => ?_⟩
    exact Queues.injOn_of_valid hrep.valid ((h.alive dsp').mpr hdsp'.1) hdsp hdsp'.2
  · intro n hn id hvalue
    obtain ⟨dsp, hdsp, rfl⟩ := List.mem_map.mp hn
    obtain ⟨d, hd, hended⟩ := (h.alive dsp).mp hdsp
    obtain ⟨d', hd', hid⟩ := h.value dsp hdsp id hvalue
    obtain rfl : d' = d := Option.some.inj (hd'.symm.trans hd)
    refine ⟨dsp, d', hd, hended, ?_, hid⟩
    rw [System.node, hd]
    rfl

theorem Mirrors.exists_node (hd : d ∈ live s.dsps) :
    ∃ n ∈ (q.map s.node).order, s.voicer.tag n = d.tag := by
  obtain ⟨hmem, hended⟩ := List.mem_filter.mp hd
  obtain ⟨dsp, hdsp⟩ := List.mem_iff_getElem?.mp hmem
  have halive : dsp ∈ q.order := (h.alive dsp).mpr ⟨d, hdsp, by simpa using hended⟩
  refine ⟨s.node dsp, List.mem_map_of_mem halive, ?_⟩
  have htag := h.tag dsp halive
  rw [System.tag, hdsp] at htag
  exact (Option.some.inj htag).symm

theorem Mirrors.tag_iff (t : τ) (hdsp : dsp ∈ q.order) :
    s.voicer.tag (s.node dsp) = t ↔ s.tag dsp = some t := by
  rw [h.tag dsp hdsp, Option.some_inj]

theorem Mirrors.of_effect {q' : Queues ℕ} (hdsps : s'.dsps = s.dsps)
    (heffect : Effect s.voicer s'.voicer (q.map s.node).order) (horder : q'.order = q.order)
    (hvalid : q'.Valid)
    (hrep : ∃ owner, Represents s'.voicer (q'.map s.node) (freeHooks s'.dsps) owner) :
    Mirrors s' q' := by
  have hnode : s'.node = s.node := by
    funext dsp
    rw [System.node, System.node, hdsps]
  refine ⟨hnode ▸ hrep, hvalid, fun dsp => ?_, fun dsp hdsp => ?_, fun dsp hdsp id hvalue => ?_⟩
  · rw [horder, h.alive, System.Alive, System.Alive, hdsps]
  · rw [horder] at hdsp
    rw [hnode, heffect.tag _ (List.mem_map_of_mem hdsp), ← h.tag dsp hdsp, System.tag, System.tag,
      hdsps]
  · rw [horder] at hdsp
    rw [hnode] at hvalue
    rw [hdsps]
    obtain heq | hnone := heffect.value (s.node dsp)
    · exact h.value dsp hdsp id (heq ▸ hvalue)
    · rw [hnone] at hvalue
      cases hvalue

theorem Mirrors.lt (hdsp : dsp ∈ q.order) : dsp < s.dsps.length := by
  obtain ⟨d, hd, -⟩ := (h.alive dsp).mp hdsp
  exact (List.getElem?_eq_some_iff.mp hd).1

theorem Mirrors.add (hdsps : s'.dsps = s.dsps ++ [d]) (hended : d.ended = false)
    (htag : s'.voicer.tag d.node = d.tag) (hvalue : (s'.voicer.nodes d.node).value = none)
    (heffect : Effect s.voicer s'.voicer (q.map s.node).order) {q' : Queues ℕ}
    (horder : q'.order = q.order) (hvalid : q'.Valid)
    (hrep : ∃ owner, Represents s'.voicer ((q'.map s.node).add d.node) (freeHooks s'.dsps) owner) :
    Mirrors s' (q'.add s.dsps.length) := by
  have hself : s'.dsps[s.dsps.length]? = some d := by
    rw [hdsps, List.getElem?_concat_length]
  have hother : ∀ dsp ∈ q'.order, s'.dsps[dsp]? = s.dsps[dsp]? := fun dsp hdsp => by
    rw [hdsps, List.getElem?_append_left (h.lt (horder ▸ hdsp))]
  have hnode : ∀ dsp ∈ q'.order, s.node dsp = s'.node dsp := fun dsp hdsp => by
    rw [System.node, System.node, hother dsp hdsp]
  have hselfnode : s'.node s.dsps.length = d.node := System.node_eq hself
  have hmem : ∀ dsp ∈ q'.order, s.node dsp ∈ (q.map s.node).order := fun dsp hdsp =>
    List.mem_map_of_mem (horder ▸ hdsp)
  have hnot : s.dsps.length ∉ q'.order := fun hmem => absurd (h.lt (horder ▸ hmem)) (Nat.lt_irrefl _)
  have hmap : (q'.map s.node).add d.node = (q'.add s.dsps.length).map s'.node := by
    rw [← hselfnode, Queues.map_congr hvalid hnode, Queues.add_map]
  refine ⟨hmap ▸ hrep, hvalid.add hnot, fun dsp => ?_, fun dsp hdsp => ?_, fun dsp hdsp id hid => ?_⟩
  · rw [Queues.add, List.mem_append, List.mem_singleton, horder, h.alive]
    constructor
    · rintro (⟨d', hd', hended'⟩ | rfl)
      · have hlt := (List.getElem?_eq_some_iff.mp hd').1
        exact ⟨d', by rw [hdsps, List.getElem?_append_left hlt, hd'], hended'⟩
      · exact ⟨d, hself, hended⟩
    · rintro ⟨d', hd', hended'⟩
      have hlt := (List.getElem?_eq_some_iff.mp hd').1
      rw [hdsps, List.length_append, List.length_singleton] at hlt
      obtain hlt | rfl := Nat.lt_succ_iff_lt_or_eq.mp hlt
      · rw [hdsps, List.getElem?_append_left hlt] at hd'
        exact .inl ⟨d', hd', hended'⟩
      · exact .inr rfl
  · obtain hdsp | hdsp := List.mem_append.mp hdsp
    · have htag' := h.tag dsp (horder ▸ hdsp)
      rw [← hnode dsp hdsp, heffect.tag _ (hmem dsp hdsp), ← htag', System.tag, System.tag,
        hother dsp hdsp]
    · rw [List.mem_singleton.mp hdsp, hselfnode, htag, System.tag, hself, Option.map_some]
  · obtain hdsp | hdsp := List.mem_append.mp hdsp
    · rw [← hnode dsp hdsp] at hid
      rw [hother dsp hdsp]
      obtain heq | hnone := heffect.value (s.node dsp)
      · exact h.value dsp (horder ▸ hdsp) id (heq ▸ hid)
      · rw [hnone] at hid
        cases hid
    · rw [List.mem_singleton.mp hdsp, hselfnode, hvalue] at hid
      cases hid

theorem Mirrors.action {id : ℕ} (hd : s.dsps[dsp]? = some d) (hid : d.id = none)
    (hordered : Ordered checked s q (.action dsp id))
    (hdsps : s'.dsps = s.dsps.set dsp { d with id := some id })
    (htag : s'.voicer.tag = s.voicer.tag)
    (hvalue : ∀ n, (s'.voicer.nodes n).value = (s.voicer.nodes n).value ∨
      (s.voicer.nodes d.node).toRelease = false ∧ n = d.node ∧ (s'.voicer.nodes n).value = some id)
    (hrep : ∃ owner, Represents s'.voicer (q.map s.node) (freeHooks s'.dsps) owner) :
    Mirrors s' q := by
  have hlt := (List.getElem?_eq_some_iff.mp hd).1
  have hself : s'.dsps[dsp]? = some { d with id := some id } := by
    rw [hdsps, List.getElem?_set_self hlt]
  have hother : ∀ dsp', dsp' ≠ dsp → s'.dsps[dsp']? = s.dsps[dsp']? := fun dsp' hne => by
    rw [hdsps, List.getElem?_set_ne hne.symm]
  have hnode : s'.node = s.node := System.node_set hd hdsps rfl
  have htag' : s'.tag = s.tag := by
    funext dsp'
    rw [System.tag, System.tag]
    obtain rfl | hne := eq_or_ne dsp' dsp
    · rw [hself, hd, Option.map_some, Option.map_some]
    · rw [hother dsp' hne]
  refine ⟨hnode ▸ hrep, h.valid, fun dsp' => ?_, fun dsp' hdsp' => ?_, fun dsp' hdsp' id' hid' => ?_⟩
  · rw [h.alive, System.Alive, System.Alive]
    obtain rfl | hne := eq_or_ne dsp' dsp
    · rw [hself, hd]
      simp
    · rw [hother dsp' hne]
  · rw [htag', htag, hnode, h.tag dsp' hdsp']
  · rw [hnode] at hid'
    obtain ⟨owner, hrep'⟩ := h.represents
    obtain heq | ⟨hmark, hn, hsome⟩ := hvalue (s.node dsp')
    · obtain ⟨d', hd', hid''⟩ := h.value dsp' hdsp' id' (heq ▸ hid')
      obtain rfl | hne := eq_or_ne dsp' dsp
      · obtain rfl : d' = d := Option.some.inj (hd'.symm.trans hd)
        rw [hid] at hid''
        cases hid''
      · exact ⟨d', (hother dsp' hne).trans hd', hid''⟩
    · rw [← System.node_eq hd] at hn hmark
      obtain halive | hmarked | hunused := hordered
      · obtain rfl := Queues.injOn_of_valid hrep'.valid hdsp' ((h.alive dsp).mpr halive) hn
        rw [hsome] at hid'
        exact ⟨_, hself, hid'⟩
      · rw [System.mark, hmark] at hmarked
        cases hmarked
      · exact absurd hn (hunused dsp' hdsp')

theorem Mirrors.freeHook (hd : s.dsps[dsp]? = some d) (hdsp : dsp ∈ q.order)
    (hdsps : s'.dsps = s.dsps.set dsp { d with ended := true })
    (heffect : Effect s.voicer s'.voicer (q.map s.node).order)
    (hrep : ∃ owner, Represents s'.voicer ((q.map s.node).remove (s.node dsp)) (freeHooks s'.dsps)
      owner) : Mirrors s' (q.remove dsp) := by
  obtain ⟨owner, hrep'⟩ := h.represents
  have hlt := (List.getElem?_eq_some_iff.mp hd).1
  have hself : s'.dsps[dsp]? = some { d with ended := true } := by
    rw [hdsps, List.getElem?_set_self hlt]
  have hother : ∀ dsp', dsp' ≠ dsp → s'.dsps[dsp']? = s.dsps[dsp']? := fun dsp' hne => by
    rw [hdsps, List.getElem?_set_ne hne.symm]
  have hnode : s'.node = s.node := System.node_set hd hdsps rfl
  have hmem : ∀ dsp', dsp' ∈ (q.remove dsp).order ↔ dsp' ≠ dsp ∧ dsp' ∈ q.order := fun dsp' =>
    h.valid.order.mem_erase_iff
  rw [Queues.remove_map h.valid hrep'.valid hdsp, ← hnode] at hrep
  refine ⟨hrep, h.valid.remove dsp, fun dsp' => ?_, fun dsp' hdsp' => ?_,
    fun dsp' hdsp' id hid => ?_⟩
  · rw [hmem, h.alive, System.Alive, System.Alive]
    obtain rfl | hne := eq_or_ne dsp' dsp
    · rw [hself]
      simp
    · rw [hother dsp' hne, and_iff_right hne]
  · obtain ⟨hne, hdsp'⟩ := (hmem dsp').mp hdsp'
    rw [hnode, heffect.tag _ (List.mem_map_of_mem hdsp'), ← h.tag dsp' hdsp', System.tag, System.tag,
      hother dsp' hne]
  · obtain ⟨hne, hdsp'⟩ := (hmem dsp').mp hdsp'
    rw [hnode] at hid
    rw [hother dsp' hne]
    obtain heq | hnone := heffect.value (s.node dsp')
    · exact h.value dsp' hdsp' id (heq ▸ hid)
    · rw [hnone] at hid
      cases hid

theorem Mirrors.step (henabled : s.Enabled event) (hordered : Ordered checked s q event) :
    ∃ s' q', s.step checked event = some s' ∧ Mirrors s' (record s q event) ∧
      Change s s' (q.map s.node) q' event := by
  obtain ⟨owner, hrep⟩ := h.represents
  obtain ⟨s', q', hstep, hrep', hchange⟩ :=
    hrep.step (fun d hd => h.exists_node hd) henabled hordered.safe
  refine ⟨s', q', hstep, ?_, hchange⟩
  cases event with
  | trigger tag =>
    obtain ⟨hrefused, rfl, rfl⟩ | ⟨n, c, hrefused, hn, hdsps, rfl, htag, hvalue, heffect⟩ := hchange
    · rw [record, if_pos hrefused]
      exact h
    · rw [stolen_map, Queues.releaseOption_map] at hrep'
      have hstolen : ∀ dsp, stolen s.voicer s.mark q = some dsp →
          dsp ∈ q.order ∧ dsp ∉ q.releasing := by
        intro dsp hdsp
        have hnode : stolen s.voicer (fun n => (s.voicer.nodes n).toRelease) (q.map s.node) =
            some (s.node dsp) := by
          rw [stolen_map]
          exact congrArg (Option.map s.node) hdsp
        have hn := stolen_mem hdsp
        have hsafe : Safe checked s (.trigger tag) := hordered
        have hr := hrep.not_releasing_of_stolen hsafe hnode
        exact ⟨hn, fun hmem => hr ((Queues.mem_releasing_map h.valid hrep.valid hn).mpr hmem)⟩
      rw [record, hrefused, if_neg nofun]
      exact h.add hdsps rfl htag hvalue heffect (Queues.order_releaseOption _ _)
        (h.valid.releaseOption hstolen) hrep'
  | release tag =>
    obtain ⟨hdsps, rfl, heffect⟩ := hchange
    rw [Queues.releaseFirst_map h.valid hrep.valid fun dsp hdsp => h.tag_iff tag hdsp] at hrep'
    exact h.of_effect hdsps heffect (Queues.order_releaseOption _ _) (h.valid.releaseFirst _ _) hrep'
  | setPolyphony value =>
    obtain ⟨hdsps, rfl, heffect⟩ := hchange
    exact h.of_effect hdsps heffect rfl h.valid hrep'
  | setStealVoiceMode mode =>
    obtain ⟨hdsps, rfl, heffect⟩ := hchange
    exact h.of_effect hdsps heffect rfl h.valid hrep'
  | action dsp id =>
    obtain ⟨d, hd, hid⟩ := henabled
    obtain ⟨d', hd', hdsps, rfl, htag, hvalue⟩ := hchange
    obtain rfl : d = d' := Option.some.inj (hd.symm.trans hd')
    refine h.action hd hid hordered hdsps htag (fun n => ?_) hrep'
    obtain heq | ⟨hmark, rfl, hsome⟩ := hvalue n
    · exact .inl heq
    · exact .inr ⟨hmark, rfl, hsome⟩
  | freeHook dsp =>
    obtain ⟨d, n, hd, hnext, hdsps, rfl, heffect⟩ := hchange
    have htag : s.tag dsp = some d.tag := by rw [System.tag, hd, Option.map_some]
    have hdsp : q.next s.tag (some d.tag) = some dsp := htag ▸ hordered
    rw [Queues.next_map h.valid hrep.valid fun dsp hdsp => h.tag_iff d.tag hdsp, hdsp,
      Option.map_some] at hnext
    obtain rfl := Option.some.inj hnext
    exact h.freeHook hd (h.valid.mem_of_next hdsp).1 hdsps heffect hrep'

end

theorem OrderedRun.mirrors (h : OrderedRun checked s q) : Mirrors s q := by
  induction h with
  | start nodes polyphony stealFunction => exact mirrors_start nodes polyphony stealFunction
  | step h henabled hordered hstep ih =>
    obtain ⟨s', q', hstep', hmirrors, -⟩ := ih.step henabled hordered
    obtain rfl := Option.some.inj (hstep.symm.trans hstep')
    exact hmirrors

end Mirrors

/-- In every run where the DSPs of each tag end in order and no released voice is stolen, the nodes
are the ones of the DSPs that have not ended. The free hook of a DSP removes the node of that DSP and
a release frees only the ids of DSPs that have not ended. -/
theorem associated_of_ordered (h : OrderedRun checked s q) :
    ∃ l, Associated s l ∧ ∀ event, s.Enabled event → Ordered checked s q event →
      ∃ s' l', s.step checked event = some s' ∧ Associated s' l' ∧
        (∀ dsp, event = .freeHook dsp → s.node dsp ∈ l ∧ l' = l.erase (s.node dsp)) ∧
        (∀ tag, event = .release tag → ∃ ids, s'.voicer.freed = s.voicer.freed ++ ids ∧
          ∀ id ∈ ids, ∃ (dsp : ℕ) (d : Dsp τ), s.dsps[dsp]? = some d ∧ d.ended = false ∧
            d.id = some id) := by
  have hmirrors := h.mirrors
  refine ⟨q.order.map s.node, hmirrors.associated, fun event henabled hordered => ?_⟩
  obtain ⟨s', q', hstep, hmirrors', hchange⟩ := hmirrors.step henabled hordered
  refine ⟨s', _, hstep, hmirrors'.associated, ?_, ?_⟩
  · rintro dsp rfl
    obtain ⟨d, n, hd, -, hdsps, -, -⟩ := hchange
    obtain ⟨owner, hrep⟩ := hmirrors.represents
    have hdsp := (hmirrors.valid.mem_of_next hordered).1
    refine ⟨List.mem_map_of_mem hdsp, ?_⟩
    rw [System.node_set hd hdsps rfl]
    exact (Queues.erase_map hrep.valid.order hdsp).symm
  · rintro tag rfl
    obtain ⟨-, -, heffect⟩ := hchange
    obtain ⟨ids, hids, hvalues⟩ := heffect.freed
    refine ⟨ids, hids, fun id hid => ?_⟩
    obtain ⟨n, hn, hvalue⟩ := hvalues id hid
    obtain ⟨dsp, d, hd, hended, -, hid⟩ := hmirrors.associated.value n hn id hvalue
    exact ⟨dsp, d, hd, hended, hid⟩

/-- Of two voices of a tag, the first one ends. The second one is left, and is freed by a release. -/
theorem associated_of_ordered_two : ∃ (s : System Unit) (q : Queues ℕ),
    OrderedRun true s q ∧ s.dsps.map Dsp.ended = [true, false] ∧
      s.dsps.map Dsp.id = [some 1000, some 1001] ∧ (∃ l, Associated s l ∧ l ≠ []) ∧
      ∃ s' l', s.step true (.release ()) = some s' ∧ Associated s' l' ∧ s'.voicer.freed = [1001] := by
  have hstart : @OrderedRun Unit _ true _ _ :=
    .start (fun _ => ⟨none, (), false, none, none⟩) 2 none
  have htrigger := @OrderedRun.step _ _ _ _ _ _ (.trigger ()) hstart trivial nofun rfl
  have haction := @OrderedRun.step _ _ _ _ _ _ (.action 0 1000) htrigger ⟨_, rfl, rfl⟩
    (.inl ⟨_, rfl, rfl⟩) rfl
  have htrigger' := @OrderedRun.step _ _ _ _ _ _ (.trigger ()) haction trivial nofun rfl
  have haction' := @OrderedRun.step _ _ _ _ _ _ (.action 1 1001) htrigger' ⟨_, rfl, rfl⟩
    (.inl ⟨_, rfl, rfl⟩) rfl
  have hended := @OrderedRun.step _ _ _ _ _ _ (.freeHook 0) haction' ⟨_, rfl, rfl⟩ rfl rfl
  obtain ⟨l, hassociated, hstep⟩ := associated_of_ordered hended
  obtain ⟨s', l', hrelease, hassociated', -, -⟩ := hstep (.release ()) trivial
    fun _ => .inr ⟨_, rfl⟩
  refine ⟨_, _, hended, rfl, rfl, ⟨l, hassociated, ?_⟩, s', l', hrelease, hassociated', ?_⟩
  · rintro rfl
    exact absurd hassociated.linked.first (by decide)
  · obtain rfl := Option.some.inj hrelease
    rfl

/-- Of two voices of a tag, the second one ends before the first one. The free hook removes the node of
the first one, and the next release frees the id of the ended DSP. -/
theorem freeHook_removes_other : ∃ s : System Unit, Run false (fun _ _ => True) s ∧
    (∀ l, ¬ Associated s l) ∧ s.dsps.map Dsp.ended = [false, true] ∧
    s.dsps.map Dsp.id = [some 1000, some 1001] ∧
    ∃ s', s.step false (.release ()) = some s' ∧ s'.voicer.freed = [1001] := by
  let check : System Unit → Bool := fun s =>
    s.voicer.first = some 1 ∧ (s.voicer.nodes 1).value = some 1001 ∧
      s.dsps.map Dsp.ended = [false, true] ∧ s.dsps.map Dsp.id = [some 1000, some 1001] ∧
      (s.step false (.release ())).any fun s' => s'.voicer.freed = [1001]
  have hperform : (((emptySystem 2 none).perform false
      [.trigger (), .trigger (), .action 0 1000, .action 1 1001, .freeHook 1]).any check) = true := by
    decide
  obtain ⟨s, hs, hcheck⟩ := (Option.any_eq_true _ _).mp hperform
  obtain ⟨hfirst, hvalue, hended, hid, hrelease⟩ := of_decide_eq_true hcheck
  obtain ⟨s', hs', hfreed⟩ := (Option.any_eq_true _ _).mp hrelease
  refine ⟨s, (Run.start _ _ _).perform (fun _ _ _ => trivial) hs, fun l hassociated => ?_, hended, hid,
    s', hs', of_decide_eq_true hfreed⟩
  have hmem : 1 ∈ l := List.mem_of_mem_head? (hassociated.linked.first.symm.trans hfirst)
  obtain ⟨dsp, d, hd, halive, -, hid'⟩ := hassociated.value 1 hmem 1001 hvalue
  have hended' : (s.dsps.map Dsp.ended)[dsp]? = some false := by
    rw [List.getElem?_map, hd, Option.map_some, halive]
  have hid'' : (s.dsps.map Dsp.id)[dsp]? = some (some 1001) := by
    rw [List.getElem?_map, hd, Option.map_some, hid']
  rw [hended] at hended'
  rw [hid] at hid''
  match dsp with
  | 0 => cases hid''
  | 1 => cases hended'
  | dsp + 2 => cases hended'

end Incudine.Voices
