import Mathlib.Data.List.Nodup
import Mathlib.Data.List.Perm.Basic

/-!
# Queues of voices

The voices in the order of the triggers, and in release phase in the order of the releases. The
voices of a tag end in the order of the releases, and before a release in the order of the triggers.
-/

set_option linter.unusedSectionVars false

namespace Incudine.VoiceQueues

structure Queues (ν : Type*) where
  order : List ν
  releasing : List ν

namespace Queues

variable {ν τ : Type*} [DecidableEq ν] [DecidableEq τ]

def add (q : Queues ν) (n : ν) : Queues ν := { q with order := q.order ++ [n] }

def release (q : Queues ν) (n : ν) : Queues ν := { q with releasing := q.releasing ++ [n] }

def remove (q : Queues ν) (n : ν) : Queues ν := ⟨q.order.erase n, q.releasing.erase n⟩

/-- The voices of a tag that are not in release phase. -/
def objects (tag : ν → τ) (q : Queues ν) (t : τ) : List ν :=
  q.order.filter fun n => tag n = t ∧ n ∉ q.releasing

def pendings (tag : ν → τ) (q : Queues ν) (t : τ) : List ν :=
  q.releasing.filter fun n => tag n = t

/-- The voice of a tag that has to end before the others. -/
def next (tag : ν → τ) (q : Queues ν) (t : τ) : Option ν :=
  (q.pendings tag t).head?.or (q.objects tag t).head?

def releaseOption (q : Queues ν) : Option ν → Queues ν
  | some n => q.release n
  | none => q

def releaseFirst (tag : ν → τ) (q : Queues ν) (t : τ) : Queues ν :=
  q.releaseOption (q.objects tag t).head?

def map {μ : Type*} (f : ν → μ) (q : Queues ν) : Queues μ :=
  ⟨q.order.map f, q.releasing.map f⟩

structure Valid (q : Queues ν) : Prop where
  order : q.order.Nodup
  releasing : q.releasing.Nodup
  subset : ∀ n ∈ q.releasing, n ∈ q.order

section Lemmas

variable {tag tag' : ν → τ} {q : Queues ν} {n : ν} {t : τ}

theorem mem_objects : n ∈ q.objects tag t ↔ n ∈ q.order ∧ tag n = t ∧ n ∉ q.releasing := by
  rw [objects, List.mem_filter, decide_eq_true_iff]

theorem mem_pendings : n ∈ q.pendings tag t ↔ n ∈ q.releasing ∧ tag n = t := by
  rw [pendings, List.mem_filter, decide_eq_true_iff]

theorem objects_congr (h : ∀ n ∈ q.order, tag' n = tag n) :
    q.objects tag' t = q.objects tag t :=
  List.filter_congr fun n hn => by rw [h n hn]

theorem Valid.pendings_congr (hq : q.Valid) (h : ∀ n ∈ q.order, tag' n = tag n) :
    q.pendings tag' t = q.pendings tag t :=
  List.filter_congr fun n hn => by rw [h n (hq.subset n hn)]

theorem Valid.add (hq : q.Valid) (hn : n ∉ q.order) : (q.add n).Valid where
  order := List.nodup_append'.mpr
    ⟨hq.order, List.nodup_singleton n, List.disjoint_singleton.mpr hn⟩
  releasing := hq.releasing
  subset m hm := List.mem_append_left _ (hq.subset m hm)

theorem Valid.objects_add (hq : q.Valid) (hn : n ∉ q.order) (tag : ν → τ) (t : τ) :
    (q.add n).objects tag t =
      if tag n = t then q.objects tag t ++ [n] else q.objects tag t := by
  have hnot : n ∉ q.releasing := fun hr => hn (hq.subset n hr)
  rw [objects, Queues.add, List.filter_append]
  by_cases ht : tag n = t
  · rw [if_pos ht, List.filter_singleton, decide_eq_true ⟨ht, hnot⟩]
    rfl
  · rw [if_neg ht, List.filter_singleton, decide_eq_false fun h => ht h.1]
    exact List.append_nil _

theorem Valid.release (hq : q.Valid) (hn : n ∈ q.order) (hr : n ∉ q.releasing) :
    (q.release n).Valid where
  order := hq.order
  releasing := List.nodup_append'.mpr
    ⟨hq.releasing, List.nodup_singleton n, List.disjoint_singleton.mpr hr⟩
  subset m hm := by
    obtain hm | hm := List.mem_append.mp hm
    · exact hq.subset m hm
    · exact List.mem_singleton.mp hm ▸ hn

theorem Valid.nodup_objects (hq : q.Valid) (tag : ν → τ) (t : τ) : (q.objects tag t).Nodup :=
  hq.order.filter _

theorem Valid.objects_release (hq : q.Valid) (tag : ν → τ) (n : ν) (t : τ) :
    (q.release n).objects tag t = (q.objects tag t).erase n := by
  rw [(hq.nodup_objects tag t).erase_eq_filter, objects, objects, List.filter_filter]
  refine List.filter_congr fun m hm => ?_
  simp only [Queues.release, List.mem_append, List.mem_singleton]
  grind

theorem pendings_release (tag : ν → τ) (q : Queues ν) (n : ν) (t : τ) :
    (q.release n).pendings tag t =
      if tag n = t then q.pendings tag t ++ [n] else q.pendings tag t := by
  rw [pendings, Queues.release, List.filter_append, List.filter_singleton]
  by_cases ht : tag n = t
  · rw [if_pos ht, decide_eq_true ht]
    rfl
  · rw [if_neg ht, decide_eq_false ht]
    exact List.append_nil _

theorem order_releaseOption (q : Queues ν) (n : Option ν) : (q.releaseOption n).order = q.order := by
  cases n <;> rfl

theorem Valid.releaseOption (hq : q.Valid) {m : Option ν}
    (hm : ∀ n, m = some n → n ∈ q.order ∧ n ∉ q.releasing) : (q.releaseOption m).Valid := by
  cases m with
  | none => exact hq
  | some n => exact hq.release (hm n rfl).1 (hm n rfl).2

theorem Valid.releaseFirst (hq : q.Valid) (tag : ν → τ) (t : τ) : (q.releaseFirst tag t).Valid := by
  refine hq.releaseOption fun n hn => ?_
  obtain ⟨horder, -, hr⟩ := mem_objects.mp (List.mem_of_mem_head? hn)
  exact ⟨horder, hr⟩

theorem Valid.remove (hq : q.Valid) (n : ν) : (q.remove n).Valid where
  order := hq.order.erase n
  releasing := hq.releasing.erase n
  subset m hm := by
    rw [Queues.remove, hq.releasing.mem_erase_iff] at hm
    rw [Queues.remove, hq.order.mem_erase_iff]
    exact ⟨hm.1, hq.subset m hm.2⟩

theorem Valid.objects_remove (hq : q.Valid) (tag : ν → τ) (n : ν) (t : τ) :
    (q.remove n).objects tag t = (q.objects tag t).erase n := by
  rw [(hq.nodup_objects tag t).erase_eq_filter, objects, objects, Queues.remove,
    hq.order.erase_eq_filter, List.filter_filter, List.filter_filter]
  refine List.filter_congr fun m hm => ?_
  simp only [hq.releasing.mem_erase_iff]
  grind

theorem Valid.pendings_remove (hq : q.Valid) (tag : ν → τ) (n : ν) (t : τ) :
    (q.remove n).pendings tag t = (q.pendings tag t).erase n := by
  have hnodup : (q.pendings tag t).Nodup := hq.releasing.filter _
  rw [hnodup.erase_eq_filter, pendings, pendings, Queues.remove,
    hq.releasing.erase_eq_filter, List.filter_filter, List.filter_filter]
  exact List.filter_congr fun m hm => Bool.and_comm _ _

theorem exists_next (hn : n ∈ q.order) (tag : ν → τ) : ∃ m, q.next tag (tag n) = some m := by
  rw [next]
  cases hpendings : q.pendings tag (tag n) with
  | cons m l => exact ⟨m, rfl⟩
  | nil =>
    have hobject : n ∈ q.objects tag (tag n) := by
      refine mem_objects.mpr ⟨hn, rfl, fun hr => ?_⟩
      have hpending : n ∈ q.pendings tag (tag n) := mem_pendings.mpr ⟨hr, rfl⟩
      rw [hpendings] at hpending
      cases hpending
    obtain ⟨m, l, hobjects⟩ := List.exists_cons_of_ne_nil (List.ne_nil_of_mem hobject)
    exact ⟨m, by rw [hobjects]; rfl⟩

theorem Valid.mem_of_next (hq : q.Valid) (h : q.next tag t = some n) : n ∈ q.order ∧ tag n = t := by
  obtain hpending | ⟨-, hobject⟩ := Option.or_eq_some_iff.mp h
  · obtain ⟨hn, ht⟩ := mem_pendings.mp (List.mem_of_mem_head? hpending)
    exact ⟨hq.subset n hn, ht⟩
  · obtain ⟨hn, ht, -⟩ := mem_objects.mp (List.mem_of_mem_head? hobject)
    exact ⟨hn, ht⟩

theorem find?_of_imp {p p' : ν → Bool} {l : List ν} (hp : ∀ m ∈ l, p' m → p m)
    (h : l.find? p = some n) (hn : p' n) : l.find? p' = some n := by
  induction l with
  | nil => cases h
  | cons m l ih =>
    rw [List.find?_cons] at h ⊢
    cases hm : p m with
    | true =>
      rw [hm] at h
      cases h
      rw [hn]
    | false =>
      rw [hm] at h
      have hm' : p' m = false := by
        by_contra hne
        rw [hp m List.mem_cons_self (eq_true_of_ne_false hne)] at hm
        cases hm
      rw [hm']
      exact ih (fun m hm => hp m (List.mem_cons_of_mem _ hm)) h

section Steal

variable {mark : ν → Bool}

theorem find?_objects {l : List ν} (hl : ∀ m ∈ l, m ∈ q.order)
    (hmark : ∀ m ∈ q.order, mark m → m ∈ q.releasing)
    (h : l.find? (fun m => !mark m) = some n) (hn : n ∉ q.releasing) (tag : ν → τ) :
    l.find? (fun m => tag m = tag n ∧ m ∉ q.releasing) = some n := by
  refine find?_of_imp (fun m hm hobject => ?_) h (decide_eq_true ⟨rfl, hn⟩)
  rw [Bool.not_eq_true', Bool.eq_false_iff]
  exact fun hmarked => (of_decide_eq_true hobject).2 (hmark m (hl m hm) hmarked)

theorem head?_objects (hmark : ∀ m ∈ q.order, mark m → m ∈ q.releasing)
    (h : q.order.find? (fun m => !mark m) = some n) (hn : n ∉ q.releasing) (tag : ν → τ) :
    (q.objects tag (tag n)).head? = some n := by
  rw [objects, List.head?_filter]
  exact find?_objects (fun _ hm => hm) hmark h hn tag

theorem getLast?_objects (hmark : ∀ m ∈ q.order, mark m → m ∈ q.releasing)
    (h : q.order.reverse.find? (fun m => !mark m) = some n) (hn : n ∉ q.releasing) (tag : ν → τ) :
    (q.objects tag (tag n)).getLast? = some n := by
  rw [objects, ← List.head?_reverse, ← List.filter_reverse, List.head?_filter]
  exact find?_objects (fun _ hm => List.mem_reverse.mp hm) hmark h hn tag

end Steal

end Lemmas

section Map

variable {μ τ' : Type*} [DecidableEq μ] [DecidableEq τ'] {f : ν → μ} {q : Queues ν} {n : ν}
  {tag : μ → τ} {tag' : ν → τ'} {t : τ} {t' : τ'}

theorem injOn_of_valid (hmap : (q.map f).Valid) {a b : ν} (ha : a ∈ q.order) (hb : b ∈ q.order)
    (heq : f a = f b) : a = b :=
  List.inj_on_of_nodup_map hmap.order ha hb heq

theorem mem_releasing_map (hq : q.Valid) (hmap : (q.map f).Valid) (hn : n ∈ q.order) :
    f n ∈ (q.map f).releasing ↔ n ∈ q.releasing := by
  constructor
  · intro hmem
    obtain ⟨m, hm, heq⟩ := List.mem_map.mp hmem
    exact injOn_of_valid hmap (hq.subset m hm) hn heq ▸ hm
  · exact fun hmem => List.mem_map_of_mem hmem

theorem objects_map (hq : q.Valid) (hmap : (q.map f).Valid)
    (htag : ∀ n ∈ q.order, tag (f n) = t ↔ tag' n = t') :
    (q.map f).objects tag t = (q.objects tag' t').map f := by
  rw [objects, objects, map, List.filter_map]
  congr 1
  refine List.filter_congr fun n hn => decide_eq_decide.mpr ?_
  rw [htag n hn]
  exact and_congr_right fun _ => not_congr (mem_releasing_map hq hmap hn)

theorem pendings_map (hq : q.Valid) (htag : ∀ n ∈ q.order, tag (f n) = t ↔ tag' n = t') :
    (q.map f).pendings tag t = (q.pendings tag' t').map f := by
  rw [pendings, pendings, map, List.filter_map]
  congr 1
  exact List.filter_congr fun n hn => decide_eq_decide.mpr (htag n (hq.subset n hn))

theorem next_map (hq : q.Valid) (hmap : (q.map f).Valid)
    (htag : ∀ n ∈ q.order, tag (f n) = t ↔ tag' n = t') :
    (q.map f).next tag t = (q.next tag' t').map f := by
  rw [next, next, objects_map hq hmap htag, pendings_map hq htag, List.head?_map, List.head?_map]
  cases (q.pendings tag' t').head? <;> rfl

theorem releaseOption_map (f : ν → μ) (q : Queues ν) (n : Option ν) :
    (q.map f).releaseOption (n.map f) = (q.releaseOption n).map f := by
  cases n with
  | none => rfl
  | some n => simp [releaseOption, release, map]

theorem add_map (f : ν → μ) (q : Queues ν) (n : ν) : (q.map f).add (f n) = (q.add n).map f := by
  rw [add, add, map, map, List.map_append, List.map_singleton]

theorem releaseFirst_map (hq : q.Valid) (hmap : (q.map f).Valid)
    (htag : ∀ n ∈ q.order, tag (f n) = t ↔ tag' n = t') :
    (q.map f).releaseFirst tag t = (q.releaseFirst tag' t').map f := by
  rw [releaseFirst, releaseFirst, objects_map hq hmap htag, List.head?_map, releaseOption_map]

theorem erase_map {l : List ν} (hl : (l.map f).Nodup) (hn : n ∈ l) :
    (l.map f).erase (f n) = (l.erase n).map f := by
  obtain ⟨l₁, l₂, rfl⟩ := List.append_of_mem hn
  rw [List.map_append, List.map_cons] at hl ⊢
  have hnot : f n ∉ l₁.map f := fun hmem =>
    List.disjoint_of_nodup_append hl hmem List.mem_cons_self
  have hnot' : n ∉ l₁ := fun hmem => hnot (List.mem_map_of_mem hmem)
  rw [List.erase_append_right _ hnot, List.erase_append_right _ hnot', List.erase_cons_head,
    List.erase_cons_head, List.map_append]

theorem remove_map (hq : q.Valid) (hmap : (q.map f).Valid) (hn : n ∈ q.order) :
    (q.map f).remove (f n) = (q.remove n).map f := by
  have horder : (q.order.map f).erase (f n) = (q.order.erase n).map f := erase_map hmap.order hn
  have hreleasing : (q.releasing.map f).erase (f n) = (q.releasing.erase n).map f := by
    by_cases hr : n ∈ q.releasing
    · exact erase_map hmap.releasing hr
    · have hr' : f n ∉ q.releasing.map f := fun hmem =>
        hr ((mem_releasing_map hq hmap hn).mp hmem)
      rw [List.erase_of_not_mem hr, List.erase_of_not_mem hr']
  rw [remove, remove, map, map, horder, hreleasing]

theorem map_congr (hq : q.Valid) {g : ν → μ} (h : ∀ n ∈ q.order, f n = g n) :
    q.map f = q.map g := by
  rw [map, map, List.map_congr_left h, List.map_congr_left fun n hn => h n (hq.subset n hn)]

end Map

end Queues

end Incudine.VoiceQueues
