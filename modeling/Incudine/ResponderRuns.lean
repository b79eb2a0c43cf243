import Incudine.ResponderInvariant
import Mathlib.Data.Fintype.Basic

/-!
# Runs of the responders

Every step that meets the condition preserves the invariant, hence the lists agree in every state of
a run without a call in progress.
-/

namespace Incudine.Responders

open Function PairedLists Conses

variable {ι F : Type*} [DecidableEq ι] [Fintype ι]

section Steps

variable {s : State ι F} {t : ι} {resp newList oldFunctions : ℕ} {making : Bool} {f : F}
  {respList : Option ℕ} {rest : Option (Option ℕ)}

theorem Invariant.newResponder (h : Invariant s) {recv : ℕ} (hrecv : s.receiver = some recv)
    {old : Frame F} (hold : s.threads t = old) (hadding : old.adding = 0)
    (hremoving : old.removing = ∅) : Invariant (s.newResponder t recv f) := by
  have hobject : ∀ x < s.next, (s.newResponder t recv f).objects x = s.objects x := by
    intro x hx
    exact update_of_ne hx.ne _ _
  have hm : Moves s (s.newResponder t recv f) t (.readList s.next true) := by
    refine ⟨rfl, Shrinks.refl h.proper, fun _ hx => hx, fun _ hx => .inl hx, Nat.le_succ _, ?_⟩
    rintro x ⟨⟩
    exact .inr le_rfl
  apply h.quiet hm _ rfl rfl _ rfl _ rfl hold hadding.symm hremoving.symm
  · refine ⟨Nat.lt_succ_self _, ?_⟩
    intro hmade
    exact lt_irrefl _ (h.made_lt _ hmade)
  · intro x hx
    rcases Nat.lt_succ_iff_lt_or_eq.mp hx with hlt | rfl
    · rw [hobject x hlt]
      exact h.receiver x hlt
    · show s.receiver = some (update s.objects s.next ⟨recv, f⟩ s.next).receiver
      rw [update_self]
      exact hrecv
  · intro x hx
    rw [State.function, State.function, hobject x hx]

omit [DecidableEq ι] in
theorem Invariant.newReceiver (h : Invariant s) (hnone : s.receiver = none) :
    Invariant s.newReceiver := by
  have hnext : s.next = 0 := by
    by_contra hne
    have hsome := h.receiver 0 (Nat.pos_of_ne_zero hne)
    rw [hnone] at hsome
    cases hsome
  constructor
  · exact h.proper
  · exact h.valid
  · intro t
    exact (h.frames t).mono h.proper (Shrinks.refl h.proper) (fun _ hx => hx) le_rfl
      fun _ _ hx => hx
  · exact h.making
  · exact h.made_lt
  · intro x hx
    have hx' : x < s.next := hx
    rw [hnext] at hx'
    exact absurd hx' (Nat.not_lt_zero x)
  · exact h.listed_made
  · have hfunctions : s.newReceiver.receiverFunctions = s.receiverFunctions := by
      have hleft : s.newReceiver.receiverFunctions =
          s.lists.contents (update s.functions s.receivers 0 s.receivers) := rfl
      rw [hleft, update_self, s.lists.nil, State.receiverFunctions, hnone]
    rw [hfunctions]
    exact h.consistent

theorem Invariant.readList (h : Invariant s) (hframe : s.threads t = .readList resp making) :
    Invariant { s with
      conses := s.conses.cons resp s.responders
      threads := update s.threads t (.readFunctions resp s.conses.next making) } := by
  have hvalid := h.frames t
  rw [hframe] at hvalid
  set s' : State ι F := { s with
    conses := s.conses.cons resp s.responders
    threads := update s.threads t (.readFunctions resp s.conses.next making) } with hs'
  have hm : Moves s s' t (.readFunctions resp s.conses.next making) := by
    refine ⟨rfl, h.proper.shrinks_cons h.valid, fun _ hx => hx, fun _ hx => .inl hx, le_rfl, ?_⟩
    intro x hx
    rw [hframe, Frame.making_readList]
    rw [Frame.making_readFunctions] at hx
    exact .inl hx
  apply h.quiet hm _ rfl _ h.receiver rfl (fun _ _ => rfl) rfl hframe rfl rfl
  · exact ⟨hvalid, Nat.lt_succ_self _, s.listed, h.proper.items_cons h.valid, h.consistent.nodup⟩
  · exact h.proper.items_cons_of_valid h.valid h.valid

omit [DecidableEq ι] in
theorem Invariant.receiverFunctions_set (h : Invariant s) (hresp : resp < s.next)
    (lists : FunctionLists F × ℕ) :
    (s.setFunctions resp lists).receiverFunctions = lists.1.contents lists.2 := by
  have hrecv := h.receiver resp hresp
  have hset : (s.setFunctions resp lists).receiver = some (s.objects resp).receiver := hrecv
  rw [State.receiverFunctions, hset]
  show lists.1.contents (update s.functions (s.objects resp).receiver lists.2 _) = _
  rw [update_self]

omit [DecidableEq ι] in
theorem Invariant.receiverFunctions_eq (h : Invariant s) (hresp : resp < s.next) :
    s.receiverFunctions = s.lists.contents (s.functionsOf resp) := by
  rw [State.receiverFunctions, h.receiver resp hresp]
  rfl

omit [DecidableEq ι] in
theorem Invariant.leaving_made (h : Invariant s) {x : ℕ} (hx : x ∈ s.leaving) : x ∈ s.made := by
  obtain ⟨t, hx⟩ := mem_leavingOf.mp hx
  have hframe := h.frames t
  revert hx
  unfold Frame.removing
  split
  · intro hx
    rename_i heq
    rw [heq] at hframe
    rw [Finset.mem_singleton.mp hx]
    exact hframe.made
  · intro hx
    rename_i heq
    rw [heq] at hframe
    rw [Finset.mem_singleton.mp hx]
    exact hframe.1.made
  · intro hx
    exact absurd hx (Finset.notMem_empty x)

omit [DecidableEq ι] in
theorem Invariant.entering_made (h : Invariant s) {x : ℕ} (hx : x ∈ s.entering) :
    x ∈ s.made ∨ ∃ t newList, s.threads t = .storeAdded x newList true := by
  obtain ⟨t, hx⟩ := mem_enteringOf.mp hx
  have hframe := h.frames t
  revert hx
  unfold Frame.adding
  split
  · intro hx
    rename_i resp newList making heq
    rw [heq] at hframe
    rw [Multiset.mem_singleton.mp hx]
    cases making with
    | false => exact .inl hframe.1
    | true => exact .inr ⟨t, newList, heq⟩
  · intro hx
    exact absurd hx (Multiset.notMem_zero x)

omit [DecidableEq ι] in
theorem Invariant.fresh (h : Invariant s)
    (hframe : s.threads t = .swapAdded resp newList oldFunctions true) :
    resp ∉ s.listed ∧ resp ∉ s.leaving ∧ resp ∉ s.entering := by
  have hmaking : (s.threads t).making = some resp := by rw [hframe]; rfl
  obtain ⟨-, hmade⟩ := (h.frames t).fresh hmaking
  refine ⟨fun hx => hmade (h.listed_made resp hx), fun hx => hmade (h.leaving_made hx), ?_⟩
  intro hx
  rcases h.entering_made hx with hx | ⟨t', newList', hframe'⟩
  · exact hmade hx
  · have hmaking' : (s.threads t').making = some resp := by rw [hframe']; rfl
    rw [h.making t' t resp hmaking' hmaking, hframe] at hframe'
    cases hframe'

theorem Invariant.swapAdded (h : Invariant s)
    (hframe : s.threads t = .swapAdded resp newList oldFunctions making)
    (hswap : s.functionsOf resp = oldFunctions)
    (hnew : resp ∉ s.listed ∧ resp ∉ s.leaving ∧ resp ∉ s.entering) :
    Invariant ((s.setFunctions resp (s.lists.cons (s.function resp) oldFunctions)).goto t
      (.storeAdded resp newList making)) := by
  have hvalid := h.frames t
  rw [hframe] at hvalid
  obtain ⟨hknows, hlist⟩ := hvalid
  have hresp := hknows.lt h.made_lt
  set s' := (s.setFunctions resp (s.lists.cons (s.function resp) oldFunctions)).goto t
    (.storeAdded resp newList making) with hs'
  have hm : Moves s s' t (.storeAdded resp newList making) := by
    refine ⟨rfl, Shrinks.refl h.proper, fun _ hx => hx, fun _ hx => .inl hx, le_rfl, ?_⟩
    intro x hx
    rw [hframe, Frame.making_swapAdded]
    rw [Frame.making_storeAdded] at hx
    exact .inl hx
  have hfunctions : s'.receiverFunctions = s.function resp :: s.receiverFunctions := by
    have hset := h.receiverFunctions_set hresp (s.lists.cons (s.function resp) oldFunctions)
    rw [FunctionLists.cons_contents, ← hswap, ← h.receiverFunctions_eq hresp] at hset
    rw [hs', ← hswap]
    exact hset
  have hentering : s'.entering = resp ::ₘ s.entering := by
    have hsum : s'.entering + 0 = s.entering + {resp} := hm.entering hframe
    rw [add_zero, add_comm, Multiset.singleton_add] at hsum
    exact hsum
  apply h.of_moves hm ⟨hknows, hlist⟩ h.valid h.receiver h.listed_made
  rw [hfunctions, hentering, hm.leaving_eq hframe rfl]
  exact h.consistent.enter hnew.1 hnew.2.1 hnew.2.2

theorem Invariant.storeAdded (h : Invariant s)
    (hframe : s.threads t = .storeAdded resp newList making)
    (hlive : live (s.conses.items (some newList)) s.leaving = resp ::ₘ live s.listed s.leaving) :
    Invariant { s with
      responders := some newList
      made := if making then resp :: s.made else s.made
      kept := resp :: s.kept
      threads := update s.threads t .idle } := by
  have hvalid := h.frames t
  rw [hframe] at hvalid
  obtain ⟨hknows, hlt, tail, hitems, htail⟩ := hvalid
  set s' : State ι F := { s with
    responders := some newList
    made := if making then resp :: s.made else s.made
    kept := resp :: s.kept
    threads := update s.threads t .idle } with hs'
  have hmade : ∀ x ∈ s.made, x ∈ s'.made := by
    intro x hx
    simp only [hs']
    split_ifs
    · exact List.mem_cons_of_mem _ hx
    · exact hx
  have hresp : resp ∈ s'.made := by
    cases making with
    | false => exact hknows
    | true => exact List.mem_cons_self
  have hm : Moves s s' t .idle := by
    refine ⟨rfl, Shrinks.refl h.proper, hmade, ?_, le_rfl, nofun⟩
    intro x hx
    rw [hframe, Frame.making_storeAdded]
    cases making with
    | false => exact .inl hx
    | true =>
      rcases List.mem_cons.mp hx with rfl | hx
      · exact .inr rfl
      · exact .inl hx
  have hentering : s.entering = resp ::ₘ s'.entering := by
    have hsum : s'.entering + {resp} = s.entering + 0 := hm.entering hframe
    rw [add_zero, add_comm, Multiset.singleton_add] at hsum
    exact hsum.symm
  have hmem : resp ∈ s.entering := by
    rw [hentering]
    exact Multiset.mem_cons_self _ _
  obtain ⟨hlisted, hstay⟩ := h.consistent.entering_new resp hmem
  have hrest : live tail s.leaving = live s.listed s.leaving := by
    rw [hitems, live, List.filter_cons_of_pos (by simpa using hstay), ← Multiset.cons_coe] at hlive
    exact (Multiset.cons_inj_right resp).mp hlive
  have hnot : resp ∉ tail := by
    intro hin
    have hin' := mem_live.mpr ⟨hin, hstay⟩
    rw [hrest] at hin'
    exact hlisted (mem_live.mp hin').1
  have hlisted' : s'.listed = resp :: tail := hitems
  apply h.of_moves hm trivial (valid_some.mpr hlt) h.receiver
  · intro x hx
    rw [hlisted'] at hx
    rcases List.mem_cons.mp hx with rfl | hx
    · exact hresp
    · apply hmade
      by_cases hgone : x ∈ s.leaving
      · exact h.leaving_made hgone
      · have hin := mem_live.mpr ⟨hx, hgone⟩
        rw [hrest] at hin
        exact h.listed_made x (mem_live.mp hin).1
  · have hconsistent := h.consistent
    rw [hentering] at hconsistent
    rw [hm.leaving_eq hframe rfl, hlisted']
    rw [hitems] at hlive
    exact hconsistent.storeEntering hlive (List.nodup_cons.mpr ⟨hnot, htail⟩)

theorem Invariant.swapRemoved [DecidableEq F] (h : Invariant s) {shared : ℕ}
    (hframe : s.threads t = .swapRemoved resp respList oldFunctions rest)
    (hswap : s.functionsOf resp = oldFunctions)
    (hentering : ∀ x ∈ s.entering, s.function x ≠ s.function resp)
    (hlisted : ∀ x ∈ s.listed, x ∉ s.leaving → x ≠ resp → s.function x ≠ s.function resp) :
    Invariant { s.setFunctions resp (s.lists.remove (s.function resp) oldFunctions shared) with
      kept := s.kept.filter (· ≠ resp)
      threads := update s.threads t (.delete resp respList rest) } := by
  have hvalid := h.frames t
  rw [hframe] at hvalid
  have hresp := h.made_lt resp hvalid.made
  set s' : State ι F :=
    { s.setFunctions resp (s.lists.remove (s.function resp) oldFunctions shared) with
      kept := s.kept.filter (· ≠ resp)
      threads := update s.threads t (.delete resp respList rest) } with hs'
  have hm : Moves s s' t (.delete resp respList rest) :=
    ⟨rfl, Shrinks.refl h.proper, fun _ hx => hx, fun _ hx => .inl hx, le_rfl, nofun⟩
  have hfunctions : s'.receiverFunctions =
      s.receiverFunctions.filter (· ≠ s.function resp) := by
    have hset := h.receiverFunctions_set hresp
      (s.lists.remove (s.function resp) oldFunctions shared)
    rw [FunctionLists.remove_contents, ← hswap, ← h.receiverFunctions_eq hresp] at hset
    rw [hs', ← hswap]
    exact hset
  have hleaving : s'.leaving = insert resp s.leaving := by
    ext x
    rw [State.leaving, hm.threads, mem_leavingOf_update, Finset.mem_insert, State.leaving,
      mem_leavingOf]
    have hnone : (s.threads t).removing = ∅ := by rw [hframe]; rfl
    constructor
    · rintro (hx | ⟨t', -, hx⟩)
      · exact .inl (Finset.mem_singleton.mp hx)
      · exact .inr ⟨t', hx⟩
    · rintro (hx | ⟨t', hx⟩)
      · exact .inl (Finset.mem_singleton.mpr hx)
      · refine .inr ⟨t', ?_, hx⟩
        rintro rfl
        rw [hnone] at hx
        exact Finset.notMem_empty x hx
  apply h.of_moves hm _ h.valid h.receiver h.listed_made
  · rw [hfunctions, hm.entering_eq hframe rfl, hleaving, ← Multiset.filter_coe]
    exact h.consistent.leave hentering hlisted
  · exact State.Saved.mono hvalid hm.shrinks hm.made

theorem Invariant.delete (h : Invariant s) (hframe : s.threads t = .delete resp respList rest) :
    Invariant { s with
      conses := (s.conses.delete resp respList).1
      threads := update s.threads t
        (.storeRemoved resp (s.conses.delete resp respList).2 rest) } := by
  have hvalid := h.frames t
  rw [hframe] at hvalid
  have hd := h.proper.delete (a := resp) hvalid.valid
  have hs := hd.shrinks h.proper
  set s' : State ι F := { s with
    conses := (s.conses.delete resp respList).1
    threads := update s.threads t
      (.storeRemoved resp (s.conses.delete resp respList).2 rest) } with hs'
  have hm : Moves s s' t (.storeRemoved resp (s.conses.delete resp respList).2 rest) :=
    ⟨rfl, hs, fun _ hx => hx, fun _ hx => .inl hx, le_rfl, nofun⟩
  obtain ⟨hsublist, hfilter⟩ := hd.items_other h.proper h.valid
  apply h.of_moves hm _ (hs.valid h.valid) h.receiver
  · intro x hx
    exact h.listed_made x (hsublist.subset hx)
  · have hmem : resp ∈ s.leaving := by
      apply mem_leavingOf.mpr
      refine ⟨t, ?_⟩
      rw [hframe]
      exact Finset.mem_singleton_self resp
    rw [hm.entering_eq hframe rfl, hm.leaving_eq hframe rfl]
    exact h.consistent.shrink hmem hsublist hfilter
  · refine ⟨⟨hvalid.made, ?_, ?_, hvalid.rest.mono hs hm.made⟩, ?_⟩
    · intro c hc
      have hlt := hd.result.lt h.proper hvalid.valid c hc
      exact hlt.trans_le hs.next_le
    · show ((s.conses.delete resp respList).1.items (s.conses.delete resp respList).2).Nodup
      rw [hd.items]
      exact hvalid.nodup.filter _
    · show resp ∉ (s.conses.delete resp respList).1.items (s.conses.delete resp respList).2
      rw [hd.items]
      simp

theorem Invariant.storeRemoved (h : Invariant s) {newList : Option ℕ}
    (hframe : s.threads t = .storeRemoved resp newList rest)
    (hlive : live (s.conses.items newList) s.leaving = live s.listed s.leaving) :
    Invariant { s with
      responders := newList
      threads := update s.threads t (.ofRest rest) } := by
  have hvalid := h.frames t
  rw [hframe] at hvalid
  obtain ⟨hsaved, hnot⟩ := hvalid
  set s' : State ι F := { s with
    responders := newList
    threads := update s.threads t (.ofRest rest) } with hs'
  have hm : Moves s s' t (.ofRest rest) := by
    refine ⟨rfl, Shrinks.refl h.proper, fun _ hx => hx, fun _ hx => .inl hx, le_rfl, ?_⟩
    intro x hx
    rw [Frame.making_ofRest] at hx
    cases hx
  have hleaving : ∀ x, x ∈ s.leaving ↔ x ∈ s'.leaving ∨ x = resp := by
    intro x
    have hone : (s.threads t).removing = {resp} := by rw [hframe]; rfl
    rw [State.leaving, State.leaving, hm.threads, mem_leavingOf_update, mem_leavingOf,
      Frame.removing_ofRest]
    constructor
    · rintro ⟨t', hx⟩
      by_cases ht : t' = t
      · rw [ht, hone] at hx
        exact .inr (Finset.mem_singleton.mp hx)
      · exact .inl (.inr ⟨t', ht, hx⟩)
    · rintro ((hx | ⟨t', -, hx⟩) | rfl)
      · exact absurd hx (Finset.notMem_empty x)
      · exact ⟨t', hx⟩
      · exact ⟨t, by rw [hone]; exact Finset.mem_singleton_self x⟩
  apply h.of_moves hm (hsaved.rest.mono hm.shrinks hm.made).frameValid hsaved.valid h.receiver
  · intro x hx
    by_cases hgone : x ∈ s.leaving
    · exact h.leaving_made hgone
    · have hin := mem_live.mpr ⟨hx, hgone⟩
      have hlive' : live s'.listed s.leaving = live s.listed s.leaving := hlive
      rw [hlive'] at hin
      exact h.listed_made x (mem_live.mp hin).1
  · rw [hm.entering_eq hframe (Frame.adding_ofRest rest)]
    exact h.consistent.storeLeaving hleaving hlive hsaved.nodup hnot

end Steps

section Runs

variable [DecidableEq F] {s s' : State ι F} {t : ι}

omit [DecidableEq ι] [DecidableEq F] in
theorem Initial.invariant (h : Initial s) : Invariant s := by
  have hlisted : s.listed = [] := by
    rw [State.listed, h.responders, items_none]
  obtain ⟨hentering, hleaving⟩ := settled_of_idle h.threads
  have hfunctions : s.receiverFunctions = [] := by
    cases hrecv : s.receiver with
    | none => rw [State.receiverFunctions, hrecv]
    | some recv =>
      rw [State.receiverFunctions, hrecv]
      show s.lists.contents (s.functions recv) = []
      rw [h.receiver recv hrecv, s.lists.nil]
  constructor
  · intro c c' hc
    rw [h.cdr c] at hc
    cases hc
  · rw [h.responders]
    exact valid_none _
  · intro t
    rw [h.threads t]
    trivial
  · intro t t' x hx
    rw [h.threads t] at hx
    cases hx
  · rw [h.made]
    nofun
  · rw [h.next]
    nofun
  · rw [hlisted]
    nofun
  · rw [hfunctions, hlisted, hentering, hleaving, h.kept]
    exact ⟨rfl, List.nodup_nil, Multiset.nodup_zero, nofun, nofun⟩

omit [DecidableEq F] in
theorem Invariant.call (h : Invariant s) {c : Call F} (hidle : s.threads t = .idle)
    (hc : c.Has s.made) : Invariant (s.goto t c.frame) := by
  have hframe : s.FrameValid c.frame := by
    cases c with
    | makeResponder f => trivial
    | addResponder resp => exact hc
    | removeResponder resp => exact ⟨hc, trivial⟩
    | removeAllResponders => trivial
  have hnone : c.frame.adding = 0 ∧ c.frame.removing = ∅ ∧ c.frame.making = none := by
    cases c <;> exact ⟨rfl, rfl, rfl⟩
  exact h.goto hidle hframe hnone.1 hnone.2.1 (making_of_none hnone.2.2 _)

theorem Invariant.step (h : Invariant s) (shared : ℕ) (hmeets : Meets s (.step t shared)) :
    Invariant (s.step t shared) := by
  have hvalid := h.frames t
  rw [Meets] at hmeets
  rw [State.step]
  cases hframe : s.threads t with
  | idle => exact h
  | readReceiver f =>
    dsimp only
    cases hrecv : s.receiver with
    | none => exact h.goto hframe trivial rfl rfl (making_of_none rfl _)
    | some recv => exact h.newResponder hrecv hframe rfl rfl
  | storeReceiver f =>
    rw [hframe] at hmeets
    exact (h.newReceiver hmeets).newResponder rfl hframe rfl rfl
  | readList resp making =>
    exact h.readList hframe
  | readFunctions resp newList making =>
    rw [hframe] at hvalid
    have hnext : s.FrameValid (.swapAdded resp newList (s.functionsOf resp) making) := hvalid
    apply h.goto hframe hnext rfl rfl
    intro x hx
    rw [Frame.making_swapAdded] at hx
    rw [Frame.making_readFunctions]
    exact hx
  | swapAdded resp newList oldFunctions making =>
    rw [hframe] at hmeets hvalid
    dsimp only
    by_cases hswap : s.functionsOf resp = oldFunctions
    · rw [if_pos hswap]
      cases making with
      | false => exact h.swapAdded hframe hswap (hmeets hswap)
      | true => exact h.swapAdded hframe hswap (h.fresh hframe)
    · rw [if_neg hswap]
      cases making with
      | false => exact h.goto hframe trivial rfl rfl (making_of_none rfl _)
      | true => exact absurd hmeets hswap
  | storeAdded resp newList making =>
    rw [hframe] at hmeets
    exact h.storeAdded hframe hmeets
  | readFound resp =>
    rw [hframe] at hvalid
    exact h.goto hframe hvalid rfl rfl (making_of_none rfl _)
  | find resp respList =>
    rw [hframe] at hvalid
    dsimp only
    split_ifs
    · exact h.goto hframe trivial rfl rfl (making_of_none rfl _)
    · exact h.goto hframe hvalid rfl rfl (making_of_none rfl _)
  | readRemoved resp rest =>
    rw [hframe] at hvalid
    dsimp only
    split_ifs
    · apply h.goto hframe hvalid.2.frameValid
      · exact Frame.adding_ofRest rest
      · exact Frame.removing_ofRest rest
      · exact making_of_none (Frame.making_ofRest rest) _
    · exact h.goto hframe ⟨hvalid.1, h.valid, h.consistent.nodup, hvalid.2⟩ rfl rfl (making_of_none rfl _)
  | readOldFunctions resp respList rest =>
    rw [hframe] at hvalid
    exact h.goto hframe hvalid rfl rfl (making_of_none rfl _)
  | swapRemoved resp respList oldFunctions rest =>
    rw [hframe] at hmeets hvalid
    dsimp only
    by_cases hswap : s.functionsOf resp = oldFunctions
    · rw [if_pos hswap]
      exact h.swapRemoved hframe hswap (hmeets hswap).1 (hmeets hswap).2
    · rw [if_neg hswap]
      apply h.goto hframe hvalid.rest.frameValid
      · exact Frame.adding_ofRest rest
      · exact Frame.removing_ofRest rest
      · exact making_of_none (Frame.making_ofRest rest) _
  | delete resp respList rest => exact h.delete hframe
  | storeRemoved resp newList rest =>
    rw [hframe] at hmeets
    exact h.storeRemoved hframe hmeets
  | readAll => exact h.goto hframe ⟨h.valid, h.listed_made⟩ rfl rfl (making_of_none rfl _)
  | dolist rest =>
    rw [hframe] at hvalid
    cases rest with
    | none => exact h.goto hframe trivial rfl rfl (making_of_none rfl _)
    | some c =>
      obtain ⟨hc, hmade⟩ := hvalid
      have hlt := valid_some.mp hc
      rw [h.proper.items_some hlt] at hmade
      have hrest : s.RestValid (some (s.conses.cdr c)) :=
        ⟨h.proper.valid_cdr hlt, fun x hx => hmade x (List.mem_cons_of_mem _ hx)⟩
      have hnext : s.FrameValid (.readRemoved (s.conses.car c) (some (s.conses.cdr c))) :=
        ⟨hmade _ List.mem_cons_self, hrest⟩
      exact h.goto hframe hnext rfl rfl (making_of_none rfl _)

theorem Reaches.invariant (h : Reaches Meets s) : Invariant s := by
  induction h with
  | initial h => exact h.invariant
  | step h hmeets hstep ih =>
    cases hstep with
    | call hidle hc => exact ih.call hidle hc
    | step hbusy => exact ih.step _ hmeets

omit [DecidableEq ι] [DecidableEq F] in
theorem Invariant.agrees (h : Invariant s) (hidle : ∀ t, s.threads t = .idle) : Agrees s := by
  obtain ⟨hentering, hleaving⟩ := settled_of_idle hidle
  have hconsistent := h.consistent
  rw [hentering, hleaving] at hconsistent
  obtain ⟨hfunctions, hnodup, hkept⟩ := hconsistent.settled
  exact ⟨hfunctions, hnodup, hkept⟩

end Runs

/-- The two lists agree when no call is in progress, in every run whose steps meet the condition. -/
theorem alwaysAgree_of_meets (ι F : Type*) [DecidableEq ι] [Fintype ι] [DecidableEq F] :
    AlwaysAgree ι F Meets := by
  intro s h hidle
  exact h.invariant.agrees hidle

theorem alwaysAgree_of_meets_removeFirst :
    (State.removeFirst true false).listed = [1] ∧ Agrees (State.removeFirst true false) := by
  have hmade : 0 ∈ (((State.empty Unit Bool).run (.makeResponder true)).run
      (.makeResponder false)).made := by decide
  have hempty : Reaches Meets (State.empty Unit Bool) := .initial (State.empty_initial Unit Bool)
  have hfirst := hempty.run (c := .makeResponder true) rfl trivial trivial (by decide)
  have hsecond := hfirst.run (c := .makeResponder false) rfl trivial trivial (by decide)
  have hreaches := hsecond.run (c := .removeResponder 0) rfl hmade trivial (by decide)
  exact ⟨by decide, alwaysAgree_of_meets Unit Bool _ hreaches fun _ => rfl⟩

end Incudine.Responders
