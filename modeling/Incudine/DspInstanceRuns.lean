import Incudine.DspInstanceLists

/-!
# Owners of the instances over the runs

The free hook of a node ends with the cons of its instance, and the other conses are the ones of the
user, as long as the lists given to the nodes have no cons of an instance. Then each call of the
hooks ends and gives the instance a new owner.
-/

namespace Incudine.DspInstance

open Function Conses

/-- The functions to call when the node is freed. -/
def Use.hooks (u : Use) : List Car := u.given ++ [u.own]

namespace State

variable (s : State)

/-- The function of the instance has not been called yet in this use of a node. -/
def InUse (n : ℕ) : Prop :=
  (∃ id node, s.nodes id = some node ∧ node.use = n) ∨
    ∃ call, s.calls n = some call ∧ (s.uses n).own ∉ call.called

def At (d : ℕ) : Place → Prop
  | .list v => ∃ cs, Chain s.conses.cdr (s.lists v) cs ∧ .dsp d ∈ cs.map s.conses.car
  | .node n => s.InUse n ∧ (s.uses n).dsp = d

def UserCons (c : ℕ) : Prop := c < s.conses.next ∧ ∃ f, s.conses.car c = .hook f

/-- A proper list without conses of an instance. -/
def UserList (l : Option ℕ) : Prop := ∃ us, Chain s.conses.cdr l us ∧ ∀ c ∈ us, s.UserCons c

structure Sound : Prop where
  /-- Each instance is in exactly one place. -/
  place : ∀ d < s.dspCount, ∃! p, s.At d p
  /-- The lists are proper, with each instance once. -/
  once : ∀ v, ∃ cs, Chain s.conses.cdr (s.lists v) cs ∧ (cs.map s.conses.car).Nodup
  /-- A cached instance is on the list of its DSP. -/
  cached : ∀ d < s.dspCount, ∀ name rt, s.At d (.list (.instances name rt)) →
    (s.dsps d).name = name ∧ (s.dsps d).realTimeP = rt
  /-- The own function of a use is the one of its instance. -/
  own : ∀ n < s.useCount, (∃ name f, (s.uses n).own = .recycle (s.uses n).dsp name f) ∧
    (s.uses n).own ∉ (s.uses n).given
  /-- A use concerns one node, and the hooks of the node are the ones of the use. -/
  node : ∀ id node, s.nodes id = some node → node.use < s.useCount ∧ (s.uses node.use).node = id ∧
    ∃ cs, Chain s.conses.cdr node.freeHook cs ∧ cs.map s.conses.car = (s.uses node.use).hooks
  /-- A call of the hooks ends after the calls of the ones of the use. -/
  call : ∀ n call, s.calls n = some call → ∃ k s',
    run s (List.replicate k (.callHook n)) = some s' ∧ s'.returned n = some (s.uses n).hooks
  returned : ∀ n fs, s.returned n = some fs → fs = (s.uses n).hooks

end State

/-- No cons of an instance is in a list given to a new node, and there is room in the EDF heap for
an event. -/
def Event.Allowed (s : State) : Event → Prop
  | .createNode _ node freeHook _ => s.nodes node = none → s.UserList freeHook
  | .freeNode node ctx => s.nodes node ≠ none → ctx.rtThreadP = true → ctx.heapFullP = false
  | .freeRtDspInstances name ctx =>
    s.lists (.instances name true) ≠ none → ctx.rtThreadP = true → ctx.heapFullP = false
  | _ => True

def AllAllowed : State → List Event → Prop
  | _, [] => True
  | s, e :: es => e.Allowed s ∧ ∀ s', step s e = some s' → AllAllowed s' es

namespace State

variable (s : State)

/-- The cons of an instance is allocated and has its function. -/
def HasClosure (d : ℕ) : Prop :=
  (s.dsps d).freeHook < s.conses.next ∧
    ∃ f, s.conses.car (s.dsps d).freeHook = .recycle d (s.dsps d).name f

/-- What a cached instance needs for its next use, and the number of a scheduled call. -/
def Ready (d : ℕ) : Place → Prop
  | .list (.instances name rt) =>
    (s.dsps d).name = name ∧ (s.dsps d).realTimeP = rt ∧ s.HasClosure d
  | .list (.scheduled k) => k < s.scheduledCount
  | _ => True

/-- The rest of the hooks of a use: conses of the user and the one of the instance. -/
def Remaining (n : ℕ) (called : List Car) (l : Option ℕ) : Prop :=
  s.HasClosure (s.uses n).dsp ∧ (s.uses n).own = s.conses.car (s.dsps (s.uses n).dsp).freeHook ∧
    ∃ us, Chain s.conses.cdr l (us ++ [(s.dsps (s.uses n).dsp).freeHook]) ∧
      (∀ c ∈ us, s.UserCons c) ∧ called ++ us.map s.conses.car = (s.uses n).given

structure CallOk (n : ℕ) (call : Call) : Prop where
  last : ∀ c ∈ call.last, c < s.conses.next ∧ ∀ d, s.conses.car c ≠ .dsp d
  hooks : s.Remaining n call.called (s.nextHook call) ∨
    call.called = (s.uses n).hooks ∧
      ∃ c ∈ call.last, ∃ d name f, s.conses.car c = .recycle d name f

end State

structure Graph (s : State) (owner : ℕ → Place) : Prop where
  recycle : ∀ c < s.conses.next, ∀ d name f, s.conses.car c = .recycle d name f →
    s.conses.cdr c = none
  ready : ∀ d < s.dspCount, s.Ready d (owner d)
  own : ∀ n < s.useCount, (∃ name f, (s.uses n).own = .recycle (s.uses n).dsp name f) ∧
    ∀ a ∈ (s.uses n).given, ∃ f, a = .hook f
  node : ∀ id node, s.nodes id = some node → node.use < s.useCount ∧ (s.uses node.use).node = id ∧
    s.calls node.use = none ∧ s.returned node.use = none ∧
      s.Remaining node.use [] node.freeHook
  call : ∀ n call, s.calls n = some call → n < s.useCount ∧ s.returned n = none ∧ s.CallOk n call
  returned : ∀ n fs, s.returned n = some fs → n < s.useCount ∧ fs = (s.uses n).hooks
  use : ∀ d < s.dspCount, ∀ n, owner d = .node n ↔ s.InUse n ∧ (s.uses n).dsp = d
  dsp_lt : ∀ n, s.InUse n → (s.uses n).dsp < s.dspCount

/-- The lists and the nodes agree about the owners. -/
structure Inv (s : State) (owner : ℕ → Place) : Prop where
  lists : Lists s owner
  graph : Graph s owner

section

variable {s s' : State} {owner owner' : ℕ → Place} {n d : ℕ} {l : Option ℕ} {called : List Car}
  {call : Call}

theorem State.UserCons.ne_dsp {c : ℕ} (h : s.UserCons c) (d : ℕ) : s.conses.car c ≠ .dsp d := by
  obtain ⟨f, hf⟩ := h.2
  rw [hf]
  exact nofun

theorem State.HasClosure.ne_dsp (h : s.HasClosure d) (e : ℕ) :
    s.conses.car (s.dsps d).freeHook ≠ .dsp e := by
  obtain ⟨f, hf⟩ := h.2
  rw [hf]
  exact nofun

theorem Graph.own_not_mem (h : Graph s owner) (hn : n < s.useCount) :
    (s.uses n).own ∉ (s.uses n).given := by
  obtain ⟨⟨name, f, hown⟩, hgiven⟩ := h.own n hn
  intro hmem
  obtain ⟨g, hg⟩ := hgiven _ hmem
  rw [hown] at hg
  cases hg

theorem Graph.own_not_called (h : Graph s owner) (hn : n < s.useCount)
    (hrest : s.Remaining n called l) : (s.uses n).own ∉ called := by
  obtain ⟨-, -, us, -, -, heq⟩ := hrest
  intro hmem
  exact h.own_not_mem hn (heq ▸ List.mem_append_left _ hmem)

theorem Graph.inUse_lt (h : Graph s owner) (huse : s.InUse n) : n < s.useCount := by
  rcases huse with ⟨id, node, hnode, rfl⟩ | ⟨call, hcall, -⟩
  · exact (h.node id node hnode).1
  · exact (h.call n call hcall).1

theorem State.UserCons.extend {c : ℕ} (h : s.UserCons c) (he : Extends s s') : s'.UserCons c := by
  obtain ⟨hlt, f, hf⟩ := h
  exact ⟨Nat.lt_of_lt_of_le hlt he.next_le, f, (he.car c hlt).trans hf⟩

theorem State.HasClosure.extend (h : s.HasClosure d) (he : Extends s s')
    (hname : (s'.dsps d).name = (s.dsps d).name)
    (hhook : (s'.dsps d).freeHook = (s.dsps d).freeHook) : s'.HasClosure d := by
  obtain ⟨hlt, f, hf⟩ := h
  rw [State.HasClosure, hhook, hname]
  exact ⟨Nat.lt_of_lt_of_le hlt he.next_le, f, (he.car _ hlt).trans hf⟩

theorem State.Ready.extend {p : Place} (h : s.Ready d p) (he : Extends s s')
    (hname : (s'.dsps d).name = (s.dsps d).name)
    (hrt : (s'.dsps d).realTimeP = (s.dsps d).realTimeP)
    (hhook : (s'.dsps d).freeHook = (s.dsps d).freeHook) : s'.Ready d p := by
  match p with
  | .list (.instances name rt) =>
    obtain ⟨hn, hr, hclosure⟩ := h
    exact ⟨hname.trans hn, hrt.trans hr, hclosure.extend he hname hhook⟩
  | .list (.pool rt) => trivial
  | .list (.scheduled k) => exact Nat.lt_of_lt_of_le h he.scheduledCount
  | .node n => trivial

theorem State.Remaining.extend (h : s.Remaining n called l) (he : Extends s s')
    (hname : (s'.dsps (s.uses n).dsp).name = (s.dsps (s.uses n).dsp).name)
    (hhook : (s'.dsps (s.uses n).dsp).freeHook = (s.dsps (s.uses n).dsp).freeHook) :
    s'.Remaining n called l := by
  obtain ⟨hclosure, hown, us, hchain, hus, hcalled⟩ := h
  rw [State.Remaining, he.uses, hhook]
  refine ⟨hclosure.extend he hname hhook, ?_, us, hchain.congr fun c hc => ?_,
    fun c hc => (hus c hc).extend he, ?_⟩
  · rw [hown, he.car _ hclosure.1]
  · rcases List.mem_append.mp hc with hc | hc
    · exact he.cdr c (hus c hc).1 (hus c hc).ne_dsp
    · rw [List.mem_singleton.mp hc]
      exact he.cdr _ hclosure.1 hclosure.ne_dsp
  · rw [← hcalled]
    exact congrArg _ (List.map_congr_left fun c hc => he.car c (hus c hc).1)

theorem State.CallOk.extend (h : s.CallOk n call) (he : Extends s s')
    (hdsps : s.Remaining n call.called (s.nextHook call) →
      (s'.dsps (s.uses n).dsp).name = (s.dsps (s.uses n).dsp).name ∧
      (s'.dsps (s.uses n).dsp).freeHook = (s.dsps (s.uses n).dsp).freeHook) :
    s'.CallOk n call := by
  have hnext : s'.nextHook call = s.nextHook call := by
    rw [State.nextHook, State.nextHook]
    cases hlast : call.last with
    | none => rfl
    | some c =>
      obtain ⟨hlt, hcar⟩ := h.last c hlast
      exact he.cdr c hlt hcar
  refine ⟨fun c hc => ?_, ?_⟩
  · obtain ⟨hlt, hcar⟩ := h.last c hc
    refine ⟨Nat.lt_of_lt_of_le hlt he.next_le, ?_⟩
    rw [he.car c hlt]
    exact hcar
  · rw [hnext]
    rcases h.hooks with hrest | ⟨hcalled, c, hc, d, name, f, hcar⟩
    · exact Or.inl (hrest.extend he (hdsps hrest).1 (hdsps hrest).2)
    · refine Or.inr ⟨?_, c, hc, d, name, f, ?_⟩
      · rw [he.uses]
        exact hcalled
      · rw [he.car c (h.last c hc).1]
        exact hcar

theorem Extends.inUse (he : Extends s s') : s'.InUse n ↔ s.InUse n := by
  simp only [State.InUse, he.nodes, he.calls, he.uses]

theorem Graph.owner_eq (h : Graph s owner) (huse : s.InUse n) :
    (s.uses n).dsp < s.dspCount ∧ owner (s.uses n).dsp = .node n :=
  ⟨h.dsp_lt n huse, (h.use _ (h.dsp_lt n huse) n).mpr ⟨huse, rfl⟩⟩

theorem Graph.inUse_of_remaining (h : Graph s owner) (hcall : s.calls n = some call)
    (hrest : s.Remaining n call.called l) : s.InUse n :=
  Or.inr ⟨call, hcall, h.own_not_called (h.call n call hcall).1 hrest⟩

theorem Graph.extend (h : Graph s owner) (he : Extends s s')
    (hnew : ∀ c, s.conses.next ≤ c → c < s'.conses.next → ∀ d name f,
      s'.conses.car c = .recycle d name f → s'.conses.cdr c = none)
    (hcount : s.dspCount ≤ s'.dspCount)
    (hdsps : ∀ d < s.dspCount, ∀ n, owner d = .node n →
      (s'.dsps d).name = (s.dsps d).name ∧ (s'.dsps d).freeHook = (s.dsps d).freeHook)
    (hready : ∀ d < s'.dspCount, s'.Ready d (owner' d))
    (huse : ∀ d < s'.dspCount, ∀ n, owner' d = .node n ↔ d < s.dspCount ∧ owner d = .node n) :
    Graph s' owner' := by
  have hkept : ∀ n, s.InUse n → (s'.dsps (s.uses n).dsp).name = (s.dsps (s.uses n).dsp).name ∧
      (s'.dsps (s.uses n).dsp).freeHook = (s.dsps (s.uses n).dsp).freeHook := by
    intro n hn
    obtain ⟨hlt, howner⟩ := h.owner_eq hn
    exact hdsps _ hlt n howner
  refine ⟨fun c hc d name f hcar => ?_, hready, fun n hn => ?_, fun id node hnode => ?_,
    fun n call hcall => ?_, fun n fs hfs => ?_, fun d hd n => ?_, fun n hn => ?_⟩
  · by_cases hlt : c < s.conses.next
    · rw [he.car c hlt] at hcar
      have hne : ∀ e, s.conses.car c ≠ .dsp e := by
        rw [hcar]
        exact nofun
      rw [he.cdr c hlt hne]
      exact h.recycle c hlt d name f hcar
    · exact hnew c (Nat.le_of_not_lt hlt) hc d name f hcar
  · rw [he.useCount] at hn
    rw [he.uses]
    exact h.own n hn
  · rw [he.nodes] at hnode
    obtain ⟨hlt, hid, hcalls, hreturned, hrest⟩ := h.node id node hnode
    obtain ⟨hname, hhook⟩ := hkept node.use (Or.inl ⟨id, node, hnode, rfl⟩)
    rw [he.useCount, he.uses, he.calls, he.returned]
    exact ⟨hlt, hid, hcalls, hreturned, hrest.extend he hname hhook⟩
  · rw [he.calls] at hcall
    obtain ⟨hlt, hreturned, hok⟩ := h.call n call hcall
    rw [he.useCount, he.returned]
    exact ⟨hlt, hreturned, hok.extend he fun hrest => hkept n (h.inUse_of_remaining hcall hrest)⟩
  · rw [he.returned] at hfs
    rw [he.useCount, he.uses]
    exact h.returned n fs hfs
  · rw [huse d hd n, he.inUse, he.uses]
    constructor
    · rintro ⟨hlt, howner⟩
      exact (h.use d hlt n).mp howner
    · rintro ⟨hn, rfl⟩
      exact h.owner_eq hn
  · rw [he.uses]
    exact Nat.lt_of_lt_of_le (h.dsp_lt n (he.inUse.mp hn)) hcount

theorem Graph.extend_lists (h : Graph s owner) (he : Extends s s')
    (hnext : s'.conses.next = s.conses.next) (hcount : s'.dspCount = s.dspCount)
    (hdsps : ∀ d, (s'.dsps d).name = (s.dsps d).name ∧
      (s'.dsps d).realTimeP = (s.dsps d).realTimeP ∧ (s'.dsps d).freeHook = (s.dsps d).freeHook)
    (howner : ∀ d < s.dspCount, owner' d = owner d ∨
      (∀ n, owner d ≠ .node n) ∧ (∀ n, owner' d ≠ .node n) ∧ s'.Ready d (owner' d)) :
    Graph s' owner' := by
  refine h.extend he (fun c hle hlt => ?_) (Nat.le_of_eq hcount.symm)
    (fun d _ _ _ => ⟨(hdsps d).1, (hdsps d).2.2⟩) (fun d hd => ?_) fun d hd n => ?_
  · rw [hnext] at hlt
    exact absurd hlt (Nat.not_lt.mpr hle)
  · rw [hcount] at hd
    rcases howner d hd with heq | ⟨-, -, hready⟩
    · rw [heq]
      exact (h.ready d hd).extend he (hdsps d).1 (hdsps d).2.1 (hdsps d).2.2
    · exact hready
  · rw [hcount] at hd
    rcases howner d hd with heq | ⟨hne, hne', -⟩
    · rw [heq, and_iff_right hd]
    · exact iff_of_false (hne' n) fun hin => hne n hin.2

end

section Steps

variable {s s' : State} {owner owner' : ℕ → Place} {n d : ℕ} {l : Option ℕ} {called : List Car}
  {call : Call}

section

variable (h : Inv s owner)
include h

theorem Inv.consHook (f : ℕ) (l : Option ℕ) : Inv (s.consHook f l) owner := by
  rw [State.consHook]
  split_ifs with hl
  · have he : Extends s { s with conses := s.conses.cons (.hook f) l } :=
      extends_cons rfl rfl rfl rfl rfl rfl rfl
    refine ⟨h.lists.cons rfl hl (fun _ => rfl) (fun _ => rfl) rfl rfl rfl, h.graph.extend he
      (fun c hle hlt d name g hcar => ?_) (Nat.le_refl _) (fun _ _ _ _ => ⟨rfl, rfl⟩)
      (fun d hd => (h.graph.ready d hd).extend he rfl rfl rfl) fun d hd n => ?_⟩
    · obtain rfl := Nat.eq_of_le_of_lt_succ hle hlt
      change update s.conses.car s.conses.next (.hook f) s.conses.next = _ at hcar
      rw [update_self] at hcar
      cases hcar
    · exact (and_iff_right hd).symm
  · exact h

theorem Inv.redefine (name : ℕ) : Inv (s.redefine name) owner := by
  have he : Extends s (s.redefine name) :=
    ⟨Nat.le_refl _, fun _ _ => rfl, fun _ _ _ => rfl, rfl, rfl, rfl, rfl, rfl, Nat.le_refl _⟩
  refine ⟨h.lists.same ⟨Nat.le_refl _, fun _ _ => rfl, fun _ _ _ _ => rfl, h.lists.cdr_lt,
    fun _ => rfl, fun _ => rfl, rfl, rfl, rfl⟩, ?_⟩
  exact h.graph.extend_lists he rfl rfl (fun _ => ⟨rfl, rfl, rfl⟩) fun _ _ => Or.inl rfl

theorem Inv.dealloc (v : Holder) (hv : ∀ rt, v ≠ .pool rt) :
    ∃ s' owner', { s with lists := update s.lists v none }.dealloc (s.lists v) = some s' ∧
      Inv s' owner' := by
  obtain ⟨s', hs', he, hnext, hcount, hdsps, hlists⟩ := h.lists.dealloc v hv
  refine ⟨s', _, hs', hlists, h.graph.extend_lists he hnext hcount (fun d => ?_) fun d hd => ?_⟩
  · obtain ⟨b, hb⟩ := hdsps d
    rw [hb]
    exact ⟨rfl, rfl, rfl⟩
  · split_ifs with howner
    · refine Or.inr ⟨fun n heq => ?_, nofun, trivial⟩
      rw [howner] at heq
      cases heq
    · exact Or.inl rfl

theorem Inv.scheduled_none : s.lists (.scheduled s.scheduledCount) = none := by
  obtain ⟨ds, hholds, hmem, -⟩ := h.lists.holds (.scheduled s.scheduledCount)
  cases ds with
  | nil => exact chain_nil.mp hholds
  | cons d ds =>
    obtain ⟨hd, howner⟩ := (hmem d).mp List.mem_cons_self
    have hready := h.graph.ready d hd
    rw [howner] at hready
    exact absurd hready (Nat.lt_irrefl _)

theorem Inv.freeNrtDspInstances (name : ℕ) :
    ∃ s' owner', s.freeNrtDspInstances name = some s' ∧ Inv s' owner' :=
  h.dealloc (.instances name false) nofun

theorem Inv.runScheduled (k : ℕ) : ∃ s' owner', s.runScheduled k = some s' ∧ Inv s' owner' :=
  h.dealloc (.scheduled k) nofun

theorem Inv.freeRtDspInstances (name : ℕ) (ctx : Context)
    (hroom : s.lists (.instances name true) ≠ none → ctx.rtThreadP = true → ctx.heapFullP = false) :
    ∃ s' owner', s.freeRtDspInstances name ctx = some s' ∧ Inv s' owner' := by
  cases hlist : s.lists (.instances name true) with
  | none =>
    refine ⟨s, owner, ?_, h⟩
    rw [State.freeRtDspInstances, hlist]
  | some l =>
    obtain ⟨ds, hholds, hmem, -⟩ := h.lists.holds (.instances name true)
    rw [hlist] at hholds
    have hconses := Chain.list hholds (h.lists.lt_next fun d hd => ((hmem d).mp hd).1)
    rw [State.freeRtDspInstances, hlist]
    simp only [hconses, Option.bind_eq_bind, Option.bind_some]
    cases hrt : ctx.rtThreadP with
    | false =>
      obtain ⟨s', owner', hs', hinv⟩ := h.dealloc (.instances name true) nofun
      rw [hlist] at hs'
      exact ⟨s', owner', hs', hinv⟩
    | true =>
      rw [hroom (by rw [hlist]; exact nofun) hrt]
      refine ⟨_, _, rfl, h.lists.move (v := .instances name true)
        (w := .scheduled s.scheduledCount) nofun nofun nofun h.scheduled_none
        (by rw [hlist]) rfl rfl rfl rfl, ?_⟩
      refine h.graph.extend_lists ⟨Nat.le_refl _, fun _ _ => rfl, fun _ _ _ => rfl, rfl, rfl, rfl,
        rfl, rfl, Nat.le_succ _⟩ rfl rfl (fun _ => ⟨rfl, rfl, rfl⟩) fun d hd => ?_
      split_ifs with howner
      · refine Or.inr ⟨fun n heq => ?_, nofun, Nat.lt_succ_self _⟩
        rw [howner] at heq
        cases heq
      · exact Or.inl rfl

theorem Inv.freeNode (id : ℕ) (ctx : Context)
    (hroom : s.nodes id ≠ none → ctx.rtThreadP = true → ctx.heapFullP = false) :
    Inv (s.freeNode id ctx) owner := by
  rw [State.freeNode]
  cases hnode : s.nodes id with
  | none => exact h
  | some node =>
    have hfull : (ctx.rtThreadP && ctx.heapFullP) = false := by
      cases hrt : ctx.rtThreadP with
      | false => rfl
      | true => exact hroom (by rw [hnode]; exact nofun) hrt
    simp only [hfull, Bool.false_eq_true, if_false]
    obtain ⟨hlt, hid, hcalls, hreturned, hrest⟩ := h.graph.node id node hnode
    generalize hs' : ({ s with nodes := update s.nodes id none } : State).setCall node.use
      (some { list := node.freeHook, last := none, called := [] }) = s'
    have hnodes : s'.nodes = update s.nodes id none := by rw [← hs', State.setCall]
    have hcalls' : s'.calls = update s.calls node.use
        (some { list := node.freeHook, last := none, called := [] }) := by
      rw [← hs', State.setCall]
    have huse : ∀ m, s'.InUse m ↔ s.InUse m := by
      intro m
      rw [State.InUse, State.InUse, hnodes, hcalls', ← hs']
      by_cases hm : m = node.use
      · subst hm
        refine iff_of_true (Or.inr ⟨_, update_self .., List.not_mem_nil⟩)
          (Or.inl ⟨id, node, hnode, rfl⟩)
      · rw [update_of_ne hm]
        refine or_congr_left ⟨?_, ?_⟩
        · rintro ⟨id', node', hnode', rfl⟩
          by_cases hid' : id' = id
          · rw [hid', update_self] at hnode'
            cases hnode'
          · rw [update_of_ne hid'] at hnode'
            exact ⟨id', node', hnode', rfl⟩
        · rintro ⟨id', node', hnode', rfl⟩
          have hne : id' ≠ id := by
            rintro rfl
            rw [hnode] at hnode'
            exact hm (congrArg Node.use (Option.some.inj hnode').symm)
          exact ⟨id', node', by rw [update_of_ne hne]; exact hnode', rfl⟩
    refine ⟨h.lists.of_nodes ?_ ?_ ?_ ?_ ?_, ?_⟩
    iterate 5 rw [← hs', State.setCall]
    refine ⟨?_, ?_, ?_, fun id' node' hnode' => ?_, fun m call hcall => ?_, ?_, fun d hd m => ?_,
      fun m hm => ?_⟩
    · rw [← hs']
      exact h.graph.recycle
    · rw [← hs']
      exact h.graph.ready
    · rw [← hs']
      exact h.graph.own
    · rw [hnodes] at hnode'
      by_cases hid' : id' = id
      · rw [hid', update_self] at hnode'
        cases hnode'
      · rw [update_of_ne hid'] at hnode'
        obtain ⟨hlt', hid'', hcalls'', hrest'⟩ := h.graph.node id' node' hnode'
        have hne : node'.use ≠ node.use := by
          intro heq
          rw [heq, hid] at hid''
          exact hid' hid''.symm
        rw [hcalls', update_of_ne hne, ← hs']
        exact ⟨hlt', hid'', hcalls'', hrest'⟩
    · rw [hcalls'] at hcall
      by_cases hm : m = node.use
      · subst hm
        rw [update_self] at hcall
        obtain rfl := Option.some.inj hcall
        rw [← hs']
        exact ⟨hlt, hreturned, nofun, Or.inl hrest⟩
      · rw [update_of_ne hm] at hcall
        obtain ⟨hlt', hreturned', hlast, hhooks⟩ := h.graph.call m call hcall
        rw [← hs']
        exact ⟨hlt', hreturned', hlast, hhooks⟩
    · rw [← hs']
      exact h.graph.returned
    · rw [huse, ← hs']
      rw [← hs'] at hd
      exact h.graph.use d hd m
    · rw [← hs']
      exact h.graph.dsp_lt m ((huse m).mp hm)

end

theorem Graph.node_use_ne {id : ℕ} {node : Node} (h : Graph s owner) (hcall : s.calls n = some call)
    (hnode : s.nodes id = some node) : node.use ≠ n := by
  rintro rfl
  rw [(h.node id node hnode).2.2.1] at hcall
  cases hcall

theorem Graph.setCall {call' : Call} (h : Graph s owner) (owner' : ℕ → Place)
    (hcall : s.calls n = some call)
    (hok : s.CallOk n call')
    (hcalled : (s.uses n).own ∉ call'.called → (s.uses n).own ∉ call.called)
    (hready : ∀ d < s.dspCount, s.Ready d (owner' d))
    (huse : ∀ d < s.dspCount, ∀ m, owner' d = .node m ↔
      owner d = .node m ∧ (m = n → (s.uses n).own ∉ call'.called)) :
    Graph (s.setCall n (some call')) owner' := by
  have hinUse : ∀ m, (s.setCall n (some call')).InUse m ↔
      s.InUse m ∧ (m = n → (s.uses n).own ∉ call'.called) := by
    intro m
    simp only [State.InUse, State.setCall]
    by_cases hm : m = n
    · subst hm
      have hnode : ¬ ∃ id node, s.nodes id = some node ∧ node.use = m :=
        fun ⟨_, _, hnode, huse⟩ => h.node_use_ne hcall hnode huse
      simp only [update_self, Option.some.injEq, exists_eq_left', or_iff_right hnode, forall_const]
      constructor
      · exact fun hnot => ⟨⟨call, hcall, hcalled hnot⟩, hnot⟩
      · exact fun hin => hin.2
    · simp only [update_of_ne hm, hm, false_imp_iff, and_true]
  refine ⟨h.recycle, hready, h.own, fun id node hnode => ?_, fun m call'' hcall'' => ?_, h.returned,
    fun d hd m => ?_, fun m hm => h.dsp_lt m ((hinUse m).mp hm).1⟩
  · obtain ⟨hlt, hid, hcalls, hreturned, hrest⟩ := h.node id node hnode
    have hne := h.node_use_ne hcall hnode
    refine ⟨hlt, hid, ?_, hreturned, hrest⟩
    change update s.calls n _ node.use = _
    rw [update_of_ne hne]
    exact hcalls
  · change update s.calls n (some call') m = _ at hcall''
    by_cases hm : m = n
    · subst hm
      rw [update_self] at hcall''
      obtain rfl := Option.some.inj hcall''
      obtain ⟨hlt, hreturned, -⟩ := h.call m call hcall
      exact ⟨hlt, hreturned, hok.last, hok.hooks⟩
    · rw [update_of_ne hm] at hcall''
      obtain ⟨hlt, hreturned, hlast, hhooks⟩ := h.call m call'' hcall''
      exact ⟨hlt, hreturned, hlast, hhooks⟩
  · rw [huse d hd m, hinUse m, h.use d hd m]
    constructor
    · exact fun hin => ⟨⟨hin.1.1, hin.2⟩, hin.1.2⟩
    · exact fun hin => ⟨⟨hin.1.1, hin.2⟩, hin.1.2⟩

theorem Graph.finish (h : Graph s owner) (hcall : s.calls n = some call)
    (hcalled : call.called = (s.uses n).hooks) :
    Graph { s.setCall n none with returned := update s.returned n (some call.called) } owner := by
  have hown : (s.uses n).own ∈ call.called := by
    rw [hcalled]
    exact List.mem_append_right _ List.mem_cons_self
  have hinUse : ∀ m, State.InUse { s.setCall n none with
      returned := update s.returned n (some call.called) } m ↔ s.InUse m := by
    intro m
    simp only [State.InUse, State.setCall]
    by_cases hm : m = n
    · subst hm
      refine or_congr_right (iff_of_false ?_ ?_)
      · rintro ⟨call', hcall', -⟩
        rw [update_self] at hcall'
        cases hcall'
      · rintro ⟨call', hcall', hnot⟩
        rw [hcall] at hcall'
        obtain rfl := Option.some.inj hcall'
        exact hnot hown
    · rw [update_of_ne hm]
  refine ⟨h.recycle, h.ready, h.own, fun id node hnode => ?_, fun m call' hcall' => ?_,
    fun m fs hfs => ?_, fun d hd m => ?_, fun m hm => h.dsp_lt m ((hinUse m).mp hm)⟩
  · obtain ⟨hlt, hid, hcalls, hreturned, hrest⟩ := h.node id node hnode
    have hne := h.node_use_ne hcall hnode
    refine ⟨hlt, hid, ?_, ?_, hrest⟩
    · change update s.calls n _ node.use = _
      rw [update_of_ne hne]
      exact hcalls
    · change update s.returned n _ node.use = _
      rw [update_of_ne hne]
      exact hreturned
  · change update s.calls n none m = _ at hcall'
    by_cases hm : m = n
    · rw [hm, update_self] at hcall'
      cases hcall'
    · rw [update_of_ne hm] at hcall'
      obtain ⟨hlt, hreturned, hlast, hhooks⟩ := h.call m call' hcall'
      refine ⟨hlt, ?_, hlast, hhooks⟩
      change update s.returned n _ m = _
      rw [update_of_ne hm]
      exact hreturned
  · change update s.returned n _ m = _ at hfs
    by_cases hm : m = n
    · subst hm
      rw [update_self] at hfs
      obtain rfl := Option.some.inj hfs
      exact ⟨(h.call m call hcall).1, hcalled⟩
    · rw [update_of_ne hm] at hfs
      exact h.returned m fs hfs
  · rw [hinUse m]
    exact h.use d hd m

theorem Inv.recycle {f : ℕ} (hlists : Lists s owner) (hgraph : Graph s owner')
    (hd : d < s.dspCount) (hlist : ∀ v, owner d ≠ .list v) (hnode : ∀ m, owner' d ≠ .node m)
    (hother : ∀ e ≠ d, owner' e = owner e) (hclosure : s.HasClosure d) :
    ∃ owner'', Inv (s.recycle d (s.dsps d).name f) owner'' ∧
      Extends s (s.recycle d (s.dsps d).name f) := by
  rw [State.recycle]
  split_ifs
  · have he : Extends s (s.storeDspInstance (s.dsps d).name d) :=
      hlists.extends_setCdr rfl rfl rfl rfl rfl rfl hd
        (s.lists (.instances (s.dsps d).name (s.dsps d).realTimeP)) rfl
    refine ⟨_, ⟨hlists.push (v := .instances (s.dsps d).name (s.dsps d).realTimeP) hd hlist nofun,
      hgraph.extend_lists he rfl rfl (fun _ => ⟨rfl, rfl, rfl⟩) fun e _ => ?_⟩, he⟩
    by_cases hed : e = d
    · subst hed
      rw [update_self]
      exact Or.inr ⟨hnode, nofun, rfl, rfl, hclosure.extend he rfl rfl⟩
    · rw [update_of_ne hed]
      exact Or.inl (hother e hed).symm
  · obtain ⟨hfreed, he⟩ := hlists.freeDspInstance hd hlist
    refine ⟨_, ⟨hfreed, hgraph.extend_lists he rfl rfl (fun e => ?_) fun e _ => ?_⟩, he⟩
    · rw [freeDspInstance_dsps, setDummyFunctions_dsps]
      exact ⟨rfl, rfl, rfl⟩
    · by_cases hed : e = d
      · subst hed
        rw [update_self]
        exact Or.inr ⟨hnode, nofun, trivial⟩
      · rw [update_of_ne hed]
        exact Or.inl (hother e hed).symm

theorem recycle_setCall (d name f : ℕ) (call : Option Call) :
    (s.setCall n call).recycle d name f = (s.recycle d name f).setCall n call := by
  rw [State.recycle, State.recycle]
  by_cases hstored : f = s.functions name ∧ (s.dsps d).freeFunctionP = true
  · rw [if_pos hstored]
    exact if_pos hstored
  · rw [if_neg hstored]
    exact if_neg hstored

theorem Inv.callHook_own (h : Inv s owner) (hcall : s.calls n = some call)
    (hrest : s.Remaining n call.called (s.nextHook call))
    (hchain : Chain s.conses.cdr (s.nextHook call) [(s.dsps (s.uses n).dsp).freeHook])
    (hcalled : call.called = (s.uses n).given) :
    ∃ s' owner' call', s.callHook n = some s' ∧ Inv s' owner' ∧ s'.uses = s.uses ∧
      s'.calls n = some call' ∧ s'.nextHook call' = none := by
  obtain ⟨hd, howner⟩ := h.graph.owner_eq (h.graph.inUse_of_remaining hcall hrest)
  obtain ⟨hclosure, hown, -⟩ := hrest
  obtain ⟨-, f, hf⟩ := id hclosure
  generalize hhook : (s.dsps (s.uses n).dsp).freeHook = c at *
  have hnext : s.nextHook call = some c := (chain_cons.mp hchain).1
  have hhooks : (call.advance c (s.conses.car c)).called = (s.uses n).hooks := by
    rw [Use.hooks, hown, ← hcalled]
    rfl
  have hmem : (s.uses n).own ∈ (call.advance c (s.conses.car c)).called := by
    rw [hhooks]
    exact List.mem_append_right _ List.mem_cons_self
  have hlt : c < s.conses.next := hhook ▸ hclosure.1
  have hok : s.CallOk n (call.advance c (s.conses.car c)) := by
    refine ⟨fun c' hc' => ?_, Or.inr ⟨hhooks, c, rfl, _, _, f, hf⟩⟩
    obtain rfl := Option.some.inj hc'
    exact ⟨hlt, hhook ▸ hclosure.ne_dsp⟩
  have hgraph := h.graph.setCall (update owner (s.uses n).dsp (.list (.pool true)))
    hcall hok (fun hnot => absurd hmem hnot) (fun e he => ?_) fun e he m => ?_
  · have hlists : Lists (s.setCall n (some (call.advance c (s.conses.car c)))) owner :=
      h.lists.of_nodes rfl rfl rfl rfl rfl
    obtain ⟨owner', hinv, he⟩ := Inv.recycle (f := f) hlists hgraph hd
      (by rw [howner]; exact nofun) (by rw [update_self]; exact nofun)
      (fun e he => update_of_ne he _ _) hclosure
    refine ⟨_, owner', call.advance c (s.conses.car c), ?_, hinv, he.uses, ?_, ?_⟩
    · rw [State.callHook, hcall]
      simp only [hnext]
      rw [hf, recycle_setCall]
      rfl
    · rw [he.calls]
      exact update_self ..
    · change (State.recycle _ _ _ f).conses.cdr c = none
      rw [he.cdr c hlt (hhook ▸ hclosure.ne_dsp)]
      exact h.graph.recycle c hlt _ _ f hf
  · by_cases hed : e = (s.uses n).dsp
    · rw [hed, update_self]
      trivial
    · rw [update_of_ne hed]
      exact h.graph.ready e he
  · by_cases hed : e = (s.uses n).dsp
    · subst hed
      rw [update_self, howner]
      refine iff_of_false nofun fun hin => ?_
      exact hin.2 (Place.node.inj hin.1).symm hmem
    · rw [update_of_ne hed]
      refine (and_iff_left_of_imp fun hm heq => ?_).symm
      rw [heq] at hm
      exact absurd ((h.graph.use e he n).mp hm).2.symm hed

theorem Inv.callHook_user {c : ℕ} {us : List ℕ} (h : Inv s owner) (hcall : s.calls n = some call)
    (hrest : s.Remaining n call.called (s.nextHook call))
    (hchain : Chain s.conses.cdr (s.nextHook call) (c :: us ++ [(s.dsps (s.uses n).dsp).freeHook]))
    (hus : ∀ c' ∈ c :: us, s.UserCons c')
    (hcalled : call.called ++ (c :: us).map s.conses.car = (s.uses n).given) :
    ∃ s', s.callHook n = some s' ∧ Inv s' owner ∧ s'.uses = s.uses ∧
      s'.calls n = some (call.advance c (s.conses.car c)) ∧
      Chain s'.conses.cdr (s'.nextHook (call.advance c (s.conses.car c)))
        (us ++ [(s.dsps (s.uses n).dsp).freeHook]) := by
  obtain ⟨hnext, htail⟩ := chain_cons.mp hchain
  obtain ⟨hlt, f, hf⟩ := hus c List.mem_cons_self
  have hrest' : s.Remaining n (call.advance c (s.conses.car c)).called
      (s.nextHook (call.advance c (s.conses.car c))) := by
    refine ⟨hrest.1, hrest.2.1, us, htail, fun c' hc' => hus c' (List.mem_cons_of_mem _ hc'), ?_⟩
    rw [← hcalled]
    exact List.append_assoc ..
  have hnot := h.graph.own_not_called (h.graph.call n call hcall).1 hrest'
  have hok : s.CallOk n (call.advance c (s.conses.car c)) := by
    refine ⟨fun c' hc' => ?_, Or.inl hrest'⟩
    obtain rfl := Option.some.inj hc'
    exact ⟨hlt, (hus c List.mem_cons_self).ne_dsp⟩
  refine ⟨s.setCall n (some (call.advance c (s.conses.car c))), ?_,
    ⟨h.lists.of_nodes rfl rfl rfl rfl rfl, h.graph.setCall owner hcall hok
      (fun _ hin => hnot (List.mem_append_left _ hin)) h.graph.ready fun e he m => ?_⟩, rfl,
    update_self .., htail⟩
  · rw [State.callHook, hcall]
    simp only [hnext]
    rw [hf]
    rfl
  · exact (and_iff_left fun _ => hnot).symm

theorem Inv.callHook (h : Inv s owner) (hcall : s.calls n = some call) :
    ∃ cs s' owner', Chain s.conses.cdr (s.nextHook call) cs ∧ s.callHook n = some s' ∧
      Inv s' owner' ∧ s'.uses = s.uses ∧
      (cs = [] ∧ s'.returned n = some (s.uses n).hooks ∨ ∃ c rest call', cs = c :: rest ∧
        s'.calls n = some call' ∧ Chain s'.conses.cdr (s'.nextHook call') rest) := by
  obtain ⟨hlt, hreturned, hok⟩ := h.graph.call n call hcall
  rcases hok.hooks with hrest | ⟨hcalled, c, hlast, d, name, f, hcar⟩
  · obtain ⟨-, -, us, hchain, hus, hcalled⟩ := id hrest
    cases us with
    | nil =>
      rw [List.map_nil, List.append_nil] at hcalled
      obtain ⟨s', owner', call', hs', hinv, huses, hcall', hnext⟩ :=
        h.callHook_own hcall hrest hchain hcalled
      refine ⟨_, s', owner', hchain, hs', hinv, huses, Or.inr ⟨_, [], call', rfl, hcall', ?_⟩⟩
      rw [hnext]
      exact .nil
    | cons c us =>
      obtain ⟨s', hs', hinv, huses, hcall', htail⟩ := h.callHook_user hcall hrest hchain hus hcalled
      exact ⟨_, s', owner, hchain, hs', hinv, huses, Or.inr ⟨c, _, _, rfl, hcall', htail⟩⟩
  · have hnext : s.nextHook call = none := by
      rw [State.nextHook, hlast]
      exact h.graph.recycle c (hok.last c hlast).1 d name f hcar
    refine ⟨[], { s.setCall n none with returned := update s.returned n (some call.called) }, owner,
      ?_, ?_, ⟨h.lists.of_nodes rfl rfl rfl rfl rfl, h.graph.finish hcall hcalled⟩, rfl,
      Or.inl ⟨rfl, ?_⟩⟩
    · rw [hnext]
      exact .nil
    · rw [State.callHook, hcall]
      simp only [hnext]
      rfl
    · change update s.returned n (some call.called) n = _
      rw [update_self, hcalled]

/-- The conses after the splice of the cons of an instance at the end of the list `us`. -/
structure Spliced (s : State) (us : List ℕ) (hook : ℕ) (l : Option ℕ) (conses : Conses Car) :
    Prop where
  car : conses.car = s.conses.car
  next : conses.next = s.conses.next
  cdr_lt : ∀ c c', conses.cdr c = some c' → c' < conses.next
  chain : Chain conses.cdr l (us ++ [hook])
  cdr : ∀ c, c ∉ us ∨ s.conses.cdr c ≠ none → conses.cdr c = s.conses.cdr c
  other : ∀ m cs e, e ∉ us → Chain s.conses.cdr m (cs ++ [e]) → Chain conses.cdr m (cs ++ [e])

theorem Lists.updateFreeHook {us : List ℕ} {hook : ℕ} (h : Lists s owner)
    (hchain : Chain s.conses.cdr l us) (hus : ∀ c ∈ us, c < s.conses.next)
    (hhook : s.conses.cdr hook = none) (hlt : hook < s.conses.next) (hnot : hook ∉ us) :
    ∃ l' conses, s.updateFreeHook l hook = some (l', { s with conses := conses }) ∧
      Spliced s us hook l' conses := by
  have hsingle : Chain s.conses.cdr (some hook) [hook] := .cons (hhook ▸ .nil)
  cases l with
  | none =>
    cases hchain
    exact ⟨some hook, s.conses, rfl, rfl, rfl, h.cdr_lt, hsingle, fun _ _ => rfl,
      fun _ _ _ _ hm => hm⟩
  | some c =>
    rcases List.eq_nil_or_concat us with rfl | ⟨ws, w, rfl⟩
    · cases hchain
    · rw [List.concat_eq_append] at *
      refine ⟨some c, s.conses.setCdr w (some hook), ?_, rfl, rfl, ?_, ?_, fun e he => ?_,
        fun m cs e he hm => ?_⟩
      · rw [State.updateFreeHook]
        simp [hchain.list hus]
      · exact lt_of_update h.cdr_lt (Nat.le_refl _) fun c' hc' => Option.some.inj hc' ▸ hlt
      · have hne : w ∉ [hook] := by
          intro hmem
          rw [List.mem_singleton] at hmem
          exact hnot (List.mem_append_right _ (List.mem_singleton.mpr hmem.symm))
        have hspliced := hchain.splice hsingle hne
        rwa [List.append_assoc]
      · refine update_of_ne ?_ _ _
        rintro rfl
        rcases he with he | he
        · exact he (List.mem_append_right _ List.mem_cons_self)
        · exact he (chain_nil.mp hchain.drop)
      · have hne : w ≠ e := fun heq => he (heq ▸ List.mem_append_right _ List.mem_cons_self)
        exact hm.update (hchain.not_mem_of_last hm hne) _

theorem State.Remaining.splice {us : List ℕ} {hook : ℕ} {l' : Option ℕ} {conses : Conses Car}
    (h : s.Remaining n called l) (hspliced : Spliced s us hook l' conses)
    (hus : ∀ c ∈ us, s.UserCons c) (hconses : s'.conses = conses) (hdsps : s'.dsps = s.dsps)
    (huses : s'.uses n = s.uses n) : s'.Remaining n called l := by
  obtain ⟨hclosure, hown, ws, hchain, hws, hcalled⟩ := h
  have hnot : (s.dsps (s.uses n).dsp).freeHook ∉ us := by
    intro hmem
    obtain ⟨-, f, hf⟩ := hus _ hmem
    obtain ⟨-, g, hg⟩ := hclosure
    rw [hf] at hg
    cases hg
  rw [State.Remaining, State.HasClosure, huses, hdsps, hconses, hspliced.car, hspliced.next]
  refine ⟨hclosure, hown, ws, hspliced.other _ _ _ hnot hchain, fun c hc => ?_, hcalled⟩
  rw [State.UserCons, hconses, hspliced.car, hspliced.next]
  exact hws c hc

theorem State.CallOk.splice {us : List ℕ} {hook : ℕ} {l' : Option ℕ} {conses : Conses Car}
    (h : s.CallOk n call) (hspliced : Spliced s us hook l' conses)
    (hus : ∀ c ∈ us, s.UserCons c) (hconses : s'.conses = conses) (hdsps : s'.dsps = s.dsps)
    (huses : s'.uses n = s.uses n) : s'.CallOk n call := by
  refine ⟨?_, ?_⟩
  · rw [hconses, hspliced.car, hspliced.next]
    exact h.last
  · rcases h.hooks with hrest | ⟨hcalled, c, hc, d, name, f, hcar⟩
    · have hnext : s'.nextHook call = s.nextHook call := by
        obtain ⟨-, -, ws, hchain, -, -⟩ := hrest
        rw [State.nextHook] at hchain ⊢
        rw [State.nextHook]
        cases hlast : call.last with
        | none => rfl
        | some c =>
          -- The cdr of the last cons of a list is not the one of this cons.
          simp only [hlast] at hchain ⊢
          rw [hconses]
          refine hspliced.cdr c (Or.inr fun hnone => ?_)
          rw [hnone] at hchain
          cases ws <;> cases hchain
      rw [hnext]
      exact Or.inl (hrest.splice hspliced hus hconses hdsps huses)
    · refine Or.inr ⟨?_, c, hc, d, name, f, ?_⟩
      · rw [huses]
        exact hcalled
      · rw [hconses, hspliced.car]
        exact hcar

/-- The state after the creation of a node. -/
structure Started (s s' : State) (u : Use) (l : Option ℕ) (conses : Conses Car) : Prop where
  conses : s'.conses = conses
  dsps : s'.dsps = s.dsps
  dspCount : s'.dspCount = s.dspCount
  poolSize : s'.poolSize = s.poolSize
  lists : s'.lists = s.lists
  scheduledCount : s'.scheduledCount = s.scheduledCount
  nodes : s'.nodes = update s.nodes u.node (some { freeHook := l, use := s.useCount })
  uses : s'.uses = update s.uses s.useCount u
  useCount : s'.useCount = s.useCount + 1
  calls : s'.calls = s.calls
  returned : s'.returned = s.returned

section Started

variable {u : Use} {l' : Option ℕ} {conses : Conses Car} {us : List ℕ} {hook : ℕ}

section

variable (h : Started s s' u l' conses)
include h

theorem Started.uses_self : s'.uses s.useCount = u := by
  rw [h.uses, update_self]

theorem Started.uses_of_lt {m : ℕ} (hm : m < s.useCount) : s'.uses m = s.uses m := by
  rw [h.uses, update_of_ne (Nat.ne_of_lt hm)]

theorem Started.inUse (hgraph : Graph s owner) (hnode : s.nodes u.node = none) (m : ℕ) :
    s'.InUse m ↔ m = s.useCount ∨ s.InUse m := by
  rw [State.InUse, State.InUse, h.nodes, h.calls]
  constructor
  · rintro (⟨id, node, hnode', rfl⟩ | ⟨call, hcall, hnot⟩)
    · by_cases hid : id = u.node
      · rw [hid, update_self] at hnode'
        exact Or.inl (congrArg Node.use (Option.some.inj hnode').symm)
      · rw [update_of_ne hid] at hnode'
        exact Or.inr (Or.inl ⟨id, node, hnode', rfl⟩)
    · rw [h.uses_of_lt (hgraph.call m call hcall).1] at hnot
      exact Or.inr (Or.inr ⟨call, hcall, hnot⟩)
  · rintro (rfl | ⟨id, node, hnode', rfl⟩ | ⟨call, hcall, hnot⟩)
    · exact Or.inl ⟨u.node, _, update_self .., rfl⟩
    · have hid : id ≠ u.node := by
        rintro rfl
        rw [hnode] at hnode'
        cases hnode'
      exact Or.inl ⟨id, node, by rw [update_of_ne hid]; exact hnode', rfl⟩
    · refine Or.inr ⟨call, hcall, ?_⟩
      rw [h.uses_of_lt (hgraph.call m call hcall).1]
      exact hnot

theorem Started.ready {p : Place} (hspliced : Spliced s us hook l' conses) (hready : s.Ready d p) :
    s'.Ready d p := by
  match p with
  | .list (.instances name rt) =>
    simp only [State.Ready, State.HasClosure] at hready ⊢
    rwa [h.dsps, h.conses, hspliced.car, hspliced.next]
  | .list (.pool rt) => trivial
  | .list (.scheduled k) =>
    rw [State.Ready, h.scheduledCount]
    exact hready
  | .node m => trivial

theorem Started.lists_same (hlists : Lists s owner) (hspliced : Spliced s us hook l' conses)
    (hus : ∀ c ∈ us, s.UserCons c) : Lists s' owner := by
  refine hlists.same ⟨?_, fun c _ => ?_, fun e he v _ => ?_, ?_, fun e => ?_, fun e => ?_,
    h.dspCount, h.poolSize, h.lists⟩
  · rw [h.conses, hspliced.next]
  · rw [h.conses, hspliced.car]
  · rw [h.conses]
    exact hspliced.cdr _ (Or.inl fun hmem => (hus _ hmem).ne_dsp e (hlists.car_ptr e he))
  · rw [h.conses]
    exact hspliced.cdr_lt
  · rw [h.dsps]
  · rw [h.dsps]

theorem Started.use_iff {e m : ℕ} (hgraph : Graph s (update owner d (.list (.pool true))))
    (hnode : s.nodes u.node = none) (hu : u.dsp = d) (howner : owner d = .node s.useCount)
    (he : e < s.dspCount) : owner e = .node m ↔ s'.InUse m ∧ (s'.uses m).dsp = e := by
  have hold := hgraph.use e he m
  rw [h.inUse hgraph hnode m]
  by_cases hm : m = s.useCount
  · subst hm
    rw [h.uses_self, hu]
    by_cases hed : e = d
    · subst hed
      exact iff_of_true howner ⟨Or.inl rfl, rfl⟩
    · rw [update_of_ne hed] at hold
      refine iff_of_false (fun heq => ?_) fun hin => hed hin.2.symm
      exact Nat.lt_irrefl _ (hgraph.inUse_lt (hold.mp heq).1)
  · rw [or_iff_right hm]
    have heq : s.InUse m ∧ (s'.uses m).dsp = e ↔ s.InUse m ∧ (s.uses m).dsp = e :=
      and_congr_right fun hin => by rw [h.uses_of_lt (hgraph.inUse_lt hin)]
    rw [heq, ← hold]
    by_cases hed : e = d
    · subst hed
      rw [howner, update_self]
      exact iff_of_false (fun heq => hm (Place.node.inj heq).symm) nofun
    · rw [update_of_ne hed]

theorem Started.graph {name f : ℕ} (hgraph : Graph s (update owner d (.list (.pool true))))
    (hd : d < s.dspCount) (howner : owner d = .node s.useCount) (hclosure : s.HasClosure d)
    (hnode : s.nodes u.node = none) (hspliced : Spliced s us (s.dsps d).freeHook l' conses)
    (hus : ∀ c ∈ us, s.UserCons c) (hu : u.dsp = d) (hgiven : u.given = us.map s.conses.car)
    (hown : u.own = s.conses.car (s.dsps d).freeHook)
    (hf : s.conses.car (s.dsps d).freeHook = .recycle d name f) : Graph s' owner := by
  have hfresh : s.calls s.useCount = none ∧ s.returned s.useCount = none := by
    constructor
    · exact Option.eq_none_iff_forall_not_mem.mpr fun call hcall =>
        Nat.lt_irrefl _ (hgraph.call _ call hcall).1
    · exact Option.eq_none_iff_forall_not_mem.mpr fun fs hfs =>
        Nat.lt_irrefl _ (hgraph.returned _ fs hfs).1
  refine ⟨fun c hc e name' g hcar => ?_, fun e he => ?_, fun m hm => ?_, fun id node hnode' => ?_,
    fun m call hcall => ?_, fun m fs hfs => ?_, fun e he m => ?_, fun m hm => ?_⟩
  · rw [h.conses, hspliced.car] at hcar
    rw [h.conses, hspliced.next] at hc
    rw [h.conses, hspliced.cdr c (Or.inl fun hmem => ?_)]
    · exact hgraph.recycle c hc e name' g hcar
    · obtain ⟨-, f', hf'⟩ := hus c hmem
      rw [hf'] at hcar
      cases hcar
  · rw [h.dspCount] at he
    by_cases hed : e = d
    · rw [hed, howner]
      trivial
    · have hready := hgraph.ready e he
      rw [update_of_ne hed] at hready
      exact h.ready hspliced hready
  · rw [h.useCount] at hm
    rcases Nat.eq_or_lt_of_le (Nat.le_of_lt_succ hm) with rfl | hm
    · rw [h.uses_self, hown, hgiven, hu]
      refine ⟨⟨name, f, hf⟩, fun a ha => ?_⟩
      obtain ⟨c, hc, rfl⟩ := List.mem_map.mp ha
      exact (hus c hc).2
    · rw [h.uses_of_lt hm]
      exact hgraph.own m hm
  · rw [h.nodes] at hnode'
    rw [h.useCount, h.calls, h.returned]
    by_cases hid : id = u.node
    · subst hid
      rw [update_self] at hnode'
      obtain rfl := Option.some.inj hnode'
      rw [State.Remaining, State.HasClosure, h.uses_self, hu, hown, hgiven, h.dsps, h.conses,
        hspliced.car, hspliced.next]
      refine ⟨Nat.lt_succ_self _, rfl, hfresh.1, hfresh.2, hclosure, rfl, us, hspliced.chain,
        fun c hc => ?_, List.nil_append _⟩
      rw [State.UserCons, h.conses, hspliced.car, hspliced.next]
      exact hus c hc
    · rw [update_of_ne hid] at hnode'
      obtain ⟨hlt, hid', hcall, hreturned, hrest⟩ := hgraph.node id node hnode'
      have huse := h.uses_of_lt hlt
      rw [huse]
      exact ⟨Nat.lt_succ_of_lt hlt, hid', hcall, hreturned,
        hrest.splice hspliced hus h.conses h.dsps huse⟩
  · rw [h.calls] at hcall
    obtain ⟨hlt, hreturned, hok⟩ := hgraph.call m call hcall
    rw [h.useCount, h.returned]
    exact ⟨Nat.lt_succ_of_lt hlt, hreturned,
      hok.splice hspliced hus h.conses h.dsps (h.uses_of_lt hlt)⟩
  · rw [h.returned] at hfs
    obtain ⟨hlt, heq⟩ := hgraph.returned m fs hfs
    rw [h.useCount, h.uses_of_lt hlt]
    exact ⟨Nat.lt_succ_of_lt hlt, heq⟩
  · rw [h.dspCount] at he
    exact h.use_iff hgraph hnode hu howner he
  · rw [h.dspCount]
    rcases (h.inUse hgraph hnode m).mp hm with rfl | hm
    · rw [h.uses_self, hu]
      exact hd
    · rw [h.uses_of_lt (hgraph.inUse_lt hm)]
      exact hgraph.dsp_lt m hm

end

end Started

theorem Inv.startNode {us : List ℕ} {id : ℕ} (hlists : Lists s owner)
    (hgraph : Graph s (update owner d (.list (.pool true)))) (hd : d < s.dspCount)
    (howner : owner d = .node s.useCount) (hclosure : s.HasClosure d) (hnode : s.nodes id = none)
    (hchain : Chain s.conses.cdr l us) (hus : ∀ c ∈ us, s.UserCons c) :
    ∃ s', s.startNode id d (us.map s.conses.car) l = some s' ∧ Inv s' owner := by
  obtain ⟨name, f, hf⟩ : ∃ name f, s.conses.car (s.dsps d).freeHook = .recycle d name f :=
    ⟨_, hclosure.2⟩
  have hnot : (s.dsps d).freeHook ∉ us := by
    intro hmem
    obtain ⟨-, g, hg⟩ := hus _ hmem
    rw [hf] at hg
    cases hg
  obtain ⟨l', conses, hupdate, hspliced⟩ := hlists.updateFreeHook hchain
    (fun c hc => (hus c hc).1) (hgraph.recycle _ hclosure.1 d name f hf) hclosure.1 hnot
  generalize hu : ({
    node := id
    dsp := d
    given := us.map s.conses.car
    own := conses.car (s.dsps d).freeHook } : Use) = u
  refine ⟨State.addUse { s with conses := conses } u l', by rw [State.startNode, hupdate, ← hu]; rfl,
    ?_⟩
  have hstarted : Started s (State.addUse { s with conses := conses } u l') u l' conses :=
    ⟨rfl, rfl, rfl, rfl, rfl, rfl, rfl, rfl, rfl, rfl, rfl⟩
  subst hu
  refine ⟨hstarted.lists_same hlists hspliced hus, hstarted.graph hgraph hd howner hclosure hnode
    hspliced hus rfl rfl ?_ hf⟩
  exact congrFun hspliced.car _

/-- An instance has been taken from the cached list or from the pool. -/
structure Taken (s s' : State) (owner : ℕ → Place) (d : ℕ) : Prop where
  extends' : Extends s s'
  lists : Lists s' owner
  graph : Graph s' (update owner d (.list (.pool true)))
  lt : d < s'.dspCount
  owner : owner d = .node s'.useCount
  closure : s'.HasClosure d

theorem Inv.getNextDspInstance (h : Inv s owner) {name c : ℕ} {rt : Bool}
    (hlist : s.lists (.instances name rt) = some c) :
    ∃ d s' owner', s.getNextDspInstance name rt = some (d, s') ∧ Taken s s' owner' d := by
  obtain ⟨d, rfl, hd, howner, hobject, hlists⟩ :=
    h.lists.pop (p := .node s.useCount) hlist nofun
  have hready := h.graph.ready d hd
  rw [howner] at hready
  have he : Extends s (s.pop (.instances name rt) (s.dsps d).poolPtr) :=
    ⟨Nat.le_refl _, fun _ _ => rfl, fun _ _ _ => rfl, rfl, rfl, rfl, rfl, rfl, Nat.le_refl _⟩
  refine ⟨d, s.pop (.instances name rt) (s.dsps d).poolPtr, _, ?_, he, hlists, ?_, hd,
    update_self .., hready.2.2.extend he rfl rfl⟩
  · rw [State.getNextDspInstance, hlist]
    simp only [Option.bind_eq_bind, Option.bind_some, hobject]
    rfl
  · rw [update_idem]
    refine h.graph.extend_lists he rfl rfl (fun _ => ⟨rfl, rfl, rfl⟩) fun e _ => ?_
    by_cases hed : e = d
    · subst hed
      rw [howner, update_self]
      exact Or.inr ⟨nofun, nofun, trivial⟩
    · exact Or.inl (update_of_ne hed _ _)

theorem Inv.makeDspInstance (h : Inv s owner) (name : ℕ) (rt : Bool) :
    ∃ d s' owner', s.makeDspInstance rt = some (d, s') ∧
      Taken s (s'.withDspPreamble name d) owner' d := by
  obtain ⟨d, s', owner', hs', hlists, he, hd, -, howner, hcount, hdsps, hpool, hnew, hcases⟩ :=
    h.lists.makeDspInstance (p := .node s.useCount) rt nofun
  have hother : ∀ e ≠ d, (s'.withDspPreamble name d).dsps e = s'.dsps e :=
    fun e hed => update_of_ne hed _ _
  have hself : (s'.withDspPreamble name d).dsps d = { s'.dsps d with
      name := name
      freeHook := s'.conses.next
      freeFunctionP := true } := update_self ..
  have he' : Extends s' (s'.withDspPreamble name d) :=
    extends_cons rfl rfl rfl rfl rfl rfl rfl
  have hcar : (s'.withDspPreamble name d).conses.car s'.conses.next =
    .recycle d name (s'.functions name) := update_self ..
  have hptr : ∀ e, ((s'.withDspPreamble name d).dsps e).poolPtr = (s'.dsps e).poolPtr ∧
      ((s'.withDspPreamble name d).dsps e).realTimeP = (s'.dsps e).realTimeP := by
    intro e
    by_cases hed : e = d
    · rw [hed, hself]
      exact ⟨rfl, rfl⟩
    · rw [hother e hed]
      exact ⟨rfl, rfl⟩
  refine ⟨d, s', owner', hs', he.trans he', ?_, ?_, hd, ?_, ?_⟩
  · exact hlists.cons (a := .recycle d name (s'.functions name)) (l := none) rfl nofun
      (fun e => (hptr e).1) (fun e => (hptr e).2) rfl rfl rfl
  · refine h.graph.extend (he.trans he') (fun c hle hlt e name' f hc => ?_) hcount
      (fun e he n hn => ?_) (fun e he => ?_) fun e he n => ?_
    · rcases Nat.eq_or_lt_of_le (Nat.le_of_lt_succ hlt) with rfl | hlt
      · exact update_self ..
      · rw [he'.car c hlt] at hc
        obtain ⟨e', he'⟩ := hnew c hle hlt
        rw [he'] at hc
        cases hc
    · have hed : e ≠ d := by
        rintro rfl
        rw [hpool he] at hn
        cases hn
      rw [hother e hed, hdsps e he]
      exact ⟨rfl, rfl⟩
    · by_cases hed : e = d
      · rw [hed, update_self]
        trivial
      · rw [update_of_ne hed]
        rcases hcases e he hed with ⟨hlt, heq⟩ | ⟨-, heq⟩
        · rw [heq]
          refine (h.graph.ready e hlt).extend (‹Extends s s'›.trans he') ?_ ?_ ?_
          all_goals rw [hother e hed, hdsps e hlt]
        · rw [heq]
          trivial
    · by_cases hed : e = d
      · subst hed
        rw [update_self]
        refine iff_of_false nofun fun hin => ?_
        rw [hpool hin.1] at hin
        cases hin.2
      · rw [update_of_ne hed]
        rcases hcases e he hed with ⟨hlt, heq⟩ | ⟨hnot, heq⟩
        · rw [heq, and_iff_right hlt]
        · rw [heq]
          exact iff_of_false nofun fun hin => hnot hin.1
  · rw [howner, (he.trans he').useCount]
  · rw [State.HasClosure, hself]
    exact ⟨Nat.lt_succ_self _, _, hcar⟩

theorem Taken.startNode {us : List ℕ} {id : ℕ} (h : Taken s s' owner d)
    (hnode : s.nodes id = none) (hchain : Chain s.conses.cdr l us) (hus : ∀ c ∈ us, s.UserCons c) :
    ∃ s'', s'.startNode id d (us.map s.conses.car) l = some s'' ∧ Inv s'' owner := by
  have hmap : us.map s.conses.car = us.map s'.conses.car :=
    List.map_congr_left fun c hc => (h.extends'.car c (hus c hc).1).symm
  rw [hmap]
  refine Inv.startNode h.lists h.graph h.lt h.owner h.closure ?_ (hchain.congr fun c hc => ?_)
    fun c hc => (hus c hc).extend h.extends'
  · rw [h.extends'.nodes]
    exact hnode
  · exact h.extends'.cdr c (hus c hc).1 (hus c hc).ne_dsp

theorem Inv.createNode (h : Inv s owner) {name id : ℕ} {ctx : Context}
    (hl : s.nodes id = none → s.UserList l) :
    ∃ s' owner', s.createNode name id l ctx = some s' ∧ Inv s' owner' := by
  rw [State.createNode]
  cases hnode : s.nodes id with
  | some node => exact ⟨s, owner, rfl, h⟩
  | none =>
    obtain ⟨us, hchain, hus⟩ := hl hnode
    have hlist := Chain.list hchain fun c hc => (hus c hc).1
    simp only [hlist, Option.bind_eq_bind, Option.bind_some]
    cases hcached : s.lists (.instances name ctx.allowRtMemoryP) with
    | some c =>
      obtain ⟨d, s', owner', hs', htaken⟩ := h.getNextDspInstance hcached
      obtain ⟨s'', hs'', hinv⟩ := htaken.startNode hnode hchain hus
      rw [hs']
      exact ⟨s'', owner', hs'', hinv⟩
    | none =>
      obtain ⟨d, s', owner', hs', htaken⟩ := h.makeDspInstance name ctx.allowRtMemoryP
      obtain ⟨s'', hs'', hinv⟩ := htaken.startNode hnode hchain hus
      have hnext : s.getNextDspInstance name ctx.allowRtMemoryP = none := by
        rw [State.getNextDspInstance, hcached]
        rfl
      rw [hnext]
      simp only [hs', Option.bind_some]
      exact ⟨s'', owner', hs'', hinv⟩

theorem Inv.step (h : Inv s owner) {e : Event} (he : e.Allowed s) :
    ∃ s' owner', step s e = some s' ∧ Inv s' owner' := by
  cases e with
  | consHook f l => exact ⟨_, owner, rfl, h.consHook f l⟩
  | createNode name node freeHook ctx => exact h.createNode he
  | freeNode node ctx => exact ⟨_, owner, rfl, h.freeNode node ctx he⟩
  | callHook use =>
    cases hcall : s.calls use with
    | none =>
      refine ⟨s, owner, ?_, h⟩
      rw [DspInstance.step, State.callHook, hcall]
    | some call =>
      obtain ⟨cs, s', owner', -, hs', hinv, -⟩ := h.callHook hcall
      exact ⟨s', owner', hs', hinv⟩
  | freeNrtDspInstances name => exact h.freeNrtDspInstances name
  | freeRtDspInstances name ctx => exact h.freeRtDspInstances name ctx he
  | runScheduled k => exact h.runScheduled k
  | redefine name => exact ⟨_, owner, rfl, h.redefine name⟩

end Steps

section Runs

variable {s s' : State} {owner : ℕ → Place} {n d : ℕ} {call : Call}

theorem run_cons (e : Event) (es : List Event) : run s (e :: es) = (step s e).bind fun s' => run s' es :=
  rfl

theorem Inv.run : ∀ (es : List Event) (s : State) (owner : ℕ → Place), Inv s owner → AllAllowed s es →
    ∃ s' owner', DspInstance.run s es = some s' ∧ Inv s' owner' := by
  intro es
  induction es with
  | nil => exact fun s owner h _ => ⟨s, owner, rfl, h⟩
  | cons e es ih =>
    rintro s owner h ⟨he, hes⟩
    obtain ⟨s', owner', hs', hinv⟩ := h.step he
    rw [run_cons, hs']
    exact ih s' owner' hinv (hes s' hs')

theorem Inv.call_ends {cs : List ℕ} (h : Inv s owner) (hcall : s.calls n = some call)
    (hchain : Chain s.conses.cdr (s.nextHook call) cs) : ∃ k s',
      DspInstance.run s (List.replicate k (.callHook n)) = some s' ∧
        s'.returned n = some (s.uses n).hooks := by
  induction cs generalizing s owner call with
  | nil =>
    obtain ⟨cs, s', -, hcs, hs', -, -, hcases⟩ := h.callHook hcall
    obtain rfl := hchain.unique hcs
    rcases hcases with ⟨-, hreturned⟩ | ⟨c, rest, call', hnil, -⟩
    · refine ⟨1, s', ?_, hreturned⟩
      change (s.callHook n).bind some = _
      rw [hs']
      rfl
    · cases hnil
  | cons c cs ih =>
    obtain ⟨es, s', owner', hes, hs', hinv, huses, hcases⟩ := h.callHook hcall
    obtain rfl := hchain.unique hes
    rcases hcases with ⟨hnil, -⟩ | ⟨c', rest, call', heq, hcall', hrest⟩
    · cases hnil
    · obtain ⟨rfl, rfl⟩ := List.cons.inj heq
      obtain ⟨k, s'', hrun, hreturned⟩ := ih hinv hcall' hrest
      refine ⟨k + 1, s'', ?_, ?_⟩
      · rw [List.replicate_succ, run_cons]
        change (s.callHook n).bind _ = _
        rw [hs']
        exact hrun
      · rw [hreturned, huses]

theorem Inv.at_iff (h : Inv s owner) (hd : d < s.dspCount) (p : Place) :
    s.At d p ↔ p = owner d := by
  cases p with
  | node n =>
    rw [State.At, ← h.graph.use d hd n]
    exact eq_comm
  | list v =>
    obtain ⟨ds, hholds, hmem, -⟩ := h.lists.holds v
    have hlist : Place.list v = owner d ↔ d ∈ ds := by
      rw [hmem d, and_iff_right hd]
      exact eq_comm
    rw [hlist]
    constructor
    · rintro ⟨cs, hchain, hcs⟩
      obtain rfl := hchain.unique hholds
      obtain ⟨c, hc, hcar⟩ := List.mem_map.mp hcs
      obtain ⟨e, he, rfl⟩ := List.mem_map.mp hc
      rw [h.lists.car_ptr e ((hmem e).mp he).1] at hcar
      exact Car.dsp.inj hcar ▸ he
    · intro hin
      refine ⟨_, hholds, List.mem_map.mpr ⟨(s.dsps d).poolPtr, List.mem_map_of_mem hin, ?_⟩⟩
      exact h.lists.car_ptr d hd

theorem Inv.sound (h : Inv s owner) : s.Sound := by
  refine ⟨fun d hd => ⟨owner d, (h.at_iff hd _).mpr rfl, fun p hp => (h.at_iff hd p).mp hp⟩,
    fun v => ?_, fun d hd name rt hat => ?_, fun n hn => ⟨(h.graph.own n hn).1, h.graph.own_not_mem hn⟩,
    fun id node hnode => ?_, fun n call hcall => ?_, fun n fs hfs => (h.graph.returned n fs hfs).2⟩
  · obtain ⟨ds, hholds, hmem, -⟩ := h.lists.holds v
    refine ⟨_, hholds, ?_⟩
    have hmap : (ds.map fun d => (s.dsps d).poolPtr).map s.conses.car = ds.map .dsp := by
      rw [List.map_map]
      exact List.map_congr_left fun d hd => h.lists.car_ptr d ((hmem d).mp hd).1
    rw [hmap]
    exact hholds.nodup.map fun d e heq => Car.dsp.inj heq
  · have hready := h.graph.ready d hd
    rw [← (h.at_iff hd _).mp hat] at hready
    exact ⟨hready.1, hready.2.1⟩
  · obtain ⟨hlt, hid, -, -, -, hown, us, hchain, -, hgiven⟩ := h.graph.node id node hnode
    refine ⟨hlt, hid, _, hchain, ?_⟩
    rw [Use.hooks, hown, ← hgiven]
    simp
  · obtain ⟨cs, -, -, hchain, -⟩ := h.callHook hcall
    exact h.call_ends hcall hchain

theorem Inv.expand (h : Inv s owner) (rt : Bool) :
    Inv (s.expand rt) (update owner s.dspCount (.list (.pool rt))) := by
  have he : Extends s (s.expand rt) := extends_cons rfl rfl rfl rfl rfl rfl rfl
  have hdsps : ∀ d < s.dspCount, (s.expand rt).dsps d = s.dsps d :=
    fun d hd => update_of_ne (Nat.ne_of_lt hd) _ _
  refine ⟨h.lists.expand rt, h.graph.extend he (fun c hle hlt d name f hcar => ?_) (Nat.le_succ _)
    (fun d hd _ _ => ?_) (fun d hd => ?_) fun d hd n => ?_⟩
  · obtain rfl := Nat.eq_of_le_of_lt_succ hle hlt
    change update s.conses.car s.conses.next (.dsp s.dspCount) s.conses.next = _ at hcar
    rw [update_self] at hcar
    cases hcar
  · rw [hdsps d hd]
    exact ⟨rfl, rfl⟩
  · rcases Nat.eq_or_lt_of_le (Nat.le_of_lt_succ hd) with rfl | hd
    · rw [update_self]
      trivial
    · rw [update_of_ne (Nat.ne_of_lt hd)]
      refine (h.graph.ready d hd).extend he ?_ ?_ ?_
      all_goals rw [hdsps d hd]
  · rcases Nat.eq_or_lt_of_le (Nat.le_of_lt_succ hd) with rfl | hd
    · rw [update_self]
      exact iff_of_false nofun fun hin => Nat.lt_irrefl _ hin.1
    · rw [update_of_ne (Nat.ne_of_lt hd), and_iff_right hd]

theorem inv_empty : Inv empty fun _ => .node 0 := by
  refine ⟨⟨nofun, nofun, nofun, fun v => ⟨[], .nil, fun d => ?_, fun rt _ => rfl⟩, nofun⟩,
    nofun, nofun, nofun, nofun, nofun, nofun, nofun, ?_⟩
  · exact iff_of_false List.not_mem_nil nofun
  · rintro n (⟨id, node, hnode, -⟩ | ⟨call, hcall, -⟩)
    · cases hnode
    · cases hcall

theorem Inv.iterate (h : Inv s owner) (rt : Bool) (k : ℕ) :
    ∃ owner', Inv ((fun s => s.expand rt)^[k] s) owner' := by
  induction k generalizing s owner with
  | zero => exact ⟨owner, h⟩
  | succ k ih => exact ih (h.expand rt)

/-- From pools of any sizes, a run whose lists of hooks have no cons of an instance, and whose
scheduled events find room in the EDF heap, keeps each instance in one place and calls the hooks of
each freed node. -/
theorem sound_of_run (rtSize nrtSize : ℕ) (events : List Event)
    (h : AllAllowed (initial rtSize nrtSize) events) :
    ∃ s, run (initial rtSize nrtSize) events = some s ∧ s.Sound := by
  obtain ⟨owner, hrt⟩ := inv_empty.iterate true rtSize
  obtain ⟨owner', hinitial⟩ := hrt.iterate false nrtSize
  obtain ⟨s, owner'', hs, hinv⟩ := Inv.run events _ owner' hinitial h
  exact ⟨s, hs, hinv.sound⟩

theorem AllAllowed.cons {e : Event} {es : List Event} (he : e.Allowed s) (hs : step s e = some s')
    (hes : AllAllowed s' es) : AllAllowed s (e :: es) := by
  refine ⟨he, fun s'' hs'' => ?_⟩
  rw [hs] at hs''
  exact Option.some.inj hs'' ▸ hes

end Runs

def rtContext : Context where
  rtThreadP := true
  allowRtMemoryPoolP := true
  heapFullP := false

/-- A node with a list of hooks is freed, and its instance is used again. -/
def reusedInstance : List Event :=
  [.consHook 7 none, .createNode 0 1 (some 2) rtContext, .freeNode 1 rtContext, .callHook 0,
    .callHook 0, .callHook 0, .createNode 0 1 none rtContext]

theorem sound_of_run_reusedInstance : AllAllowed (initial 1 1) reusedInstance ∧
    ∃ s, run (initial 1 1) reusedInstance = some s ∧ s.Sound := by
  have hallowed : AllAllowed (initial 1 1) reusedInstance := by
    refine .cons trivial rfl (.cons (fun _ => ⟨[2], .cons (chain_nil.mpr rfl), ?_⟩) rfl
      (.cons (fun _ _ => rfl) rfl (.cons trivial rfl (.cons trivial rfl (.cons trivial rfl
        (.cons (fun _ => ⟨[], .nil, nofun⟩) rfl trivial))))))
    intro c hc
    obtain rfl := List.mem_singleton.mp hc
    exact ⟨Nat.lt_succ_self 2, 7, rfl⟩
  exact ⟨hallowed, sound_of_run 1 1 reusedInstance hallowed⟩

/-- Two nodes have the same list of hooks, and the first one is freed. -/
def sharedHooks : List Event :=
  [.consHook 7 none, .createNode 0 1 (some 2) rtContext, .createNode 0 2 (some 2) rtContext,
    .freeNode 1 rtContext, .callHook 0, .callHook 0, .callHook 0, .callHook 0]

/-- The first node also calls the hook of the instance that is in use by the second one. -/
theorem sharedHooks_not_sound : ∃ s, run (initial 1 1) sharedHooks = some s ∧ ¬ s.Sound := by
  refine ⟨_, rfl, fun h => ?_⟩
  have hreturned := h.returned 0 [.hook 7, .recycle 0 0 0, .recycle 2 0 0] rfl
  exact absurd hreturned (by decide)

end Incudine.DspInstance
