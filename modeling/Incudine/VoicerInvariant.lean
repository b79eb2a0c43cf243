import Incudine.VoiceQueues
import Incudine.Voicer

/-!
# Representation of the voices

The structures of a voicer hold the same voices: the list of the nodes, the tlists of the tags, the
pools and the counter. The proofs follow the owner of each cons.
-/

namespace Incudine.Voices

open DoublyLinked Function Pool VoiceQueues

set_option linter.unusedSectionVars false

variable {τ : Type} [DecidableEq τ]

/-- The owners of the conses taken from the global pool. -/
inductive Owner (τ : Type) where
  | nodePool
  | entry
  | object (tag : τ)
  | pending (tag : τ)
  | freeHook (dsp : ℕ)

def Voicer.next (v : Voicer τ) (n : ℕ) : Option ℕ := (v.nodes n).next

def Voicer.prev (v : Voicer τ) (n : ℕ) : Option ℕ := (v.nodes n).prev

def Voicer.tag (v : Voicer τ) (n : ℕ) : τ := (v.nodes n).tag

structure Linked (v : Voicer τ) (l : List ℕ) : Prop where
  links : Links v.next v.prev none l none
  first : v.first = l.head?
  last : v.last = l.getLast?
  nodup : l.Nodup

/-- The nodes `l` in use are not in the node pool and each cons has one owner. -/
structure Pooled (v : Voicer τ) (l : List ℕ) (freeHooks : ℕ → Option ℕ)
    (owner : ℕ → Option (Owner τ)) : Prop where
  pool : v.genericPool.Valid owner
  conses : (v.nodePool.map Prod.fst).Nodup
  owned : ∀ entry ∈ v.nodePool, owner entry.1 = some .nodePool
  nodes : (v.nodePool.map Prod.snd).Nodup
  disjoint : ∀ n ∈ l, n ∉ v.nodePool.map Prod.snd
  lt : ∀ n ∈ l, n < v.nextNode
  lt' : ∀ n ∈ v.nodePool.map Prod.snd, n < v.nextNode
  freeHooks : ∀ dsp entry, freeHooks dsp = some entry → owner entry = some (.freeHook dsp)

/-- The tlists of the tags. -/
structure Filed (v : Voicer τ) (q : Queues ℕ) (owner : ℕ → Option (Owner τ)) : Prop where
  object : ∀ t entry, v.objectHash t = some entry →
    entry.object.Holds owner (.object t) (q.objects v.tag t)
  pending : ∀ t entry, v.objectHash t = some entry →
    entry.pending.Holds owner (.pending t) (q.pendings v.tag t)
  entry : ∀ n ∈ q.order, ∃ entry, v.objectHash (v.tag n) = some entry
  toRelease : ∀ n ∈ q.order, (v.nodes n).toRelease → n ∈ q.releasing

/-- The voicer represents the queues of the voices, where `freeHooks` are the conses of the free hooks
of the DSPs. -/
structure Represents (v : Voicer τ) (q : Queues ℕ) (freeHooks : ℕ → Option ℕ)
    (owner : ℕ → Option (Owner τ)) : Prop where
  linked : Linked v q.order
  pooled : Pooled v q.order freeHooks owner
  filed : Filed v q owner
  valid : q.Valid
  count : v.count = q.order.length

section Linked

variable {v v' : Voicer τ} {l l' : List ℕ} {n : ℕ}

/-- Only the links and the ends of the list are changed. -/
structure SameVoices (v v' : Voicer τ) : Prop where
  tag : v'.tag = v.tag
  toRelease : ∀ n, (v'.nodes n).toRelease = (v.nodes n).toRelease
  value : ∀ n, (v'.nodes n).value = (v.nodes n).value
  objectHash : v'.objectHash = v.objectHash
  genericPool : v'.genericPool = v.genericPool
  nodePool : v'.nodePool = v.nodePool
  nextNode : v'.nextNode = v.nextNode
  count : v'.count = v.count
  freed : v'.freed = v.freed

theorem SameVoices.trans {v'' : Voicer τ} (h : SameVoices v v') (h' : SameVoices v' v'') :
    SameVoices v v'' where
  tag := h'.tag.trans h.tag
  toRelease n := (h'.toRelease n).trans (h.toRelease n)
  value n := (h'.value n).trans (h.value n)
  objectHash := h'.objectHash.trans h.objectHash
  genericPool := h'.genericPool.trans h.genericPool
  nodePool := h'.nodePool.trans h.nodePool
  nextNode := h'.nextNode.trans h.nextNode
  count := h'.count.trans h.count
  freed := h'.freed.trans h.freed

theorem Linked.congr (h : Linked v l) (hnext : ∀ n ∈ l, v'.next n = v.next n)
    (hprev : ∀ n ∈ l, v'.prev n = v.prev n) (hfirst : v'.first = v.first)
    (hlast : v'.last = v.last) : Linked v' l where
  links := h.links.congr hnext hprev
  first := hfirst.trans h.first
  last := hlast.trans h.last
  nodup := h.nodup

theorem nodes_setNode_self (v : Voicer τ) (n : ℕ) (node : Node τ) :
    (v.setNode n node).nodes n = node :=
  update_self _ _ _

theorem nodes_setNode_of_ne {m : ℕ} (h : m ≠ n) (v : Voicer τ) (node : Node τ) :
    (v.setNode n node).nodes m = v.nodes m :=
  update_of_ne h _ _

theorem field_setNode {α : Type} (f : Node τ → α) (v : Voicer τ) (n : ℕ) (node : Node τ) :
    (fun m => f ((v.setNode n node).nodes m)) = update (fun m => f (v.nodes m)) n (f node) :=
  comp_update f _ _ _

theorem field_setNode_eq {α : Type} (f : Node τ → α) {node : Node τ} (h : f node = f (v.nodes n)) :
    (fun m => f ((v.setNode n node).nodes m)) = fun m => f (v.nodes m) := by
  rw [field_setNode, h]
  exact update_eq_self n fun m => f (v.nodes m)

theorem sameVoices_setNode {node : Node τ} (htag : node.tag = (v.nodes n).tag)
    (htoRelease : node.toRelease = (v.nodes n).toRelease) (hvalue : node.value = (v.nodes n).value) :
    SameVoices v (v.setNode n node) where
  tag := field_setNode_eq Node.tag htag
  toRelease := congrFun (field_setNode_eq Node.toRelease htoRelease)
  value := congrFun (field_setNode_eq Node.value hvalue)
  objectHash := rfl
  genericPool := rfl
  nodePool := rfl
  nextNode := rfl
  count := rfl
  freed := rfl

theorem sameVoices_ends (v : Voicer τ) (first last : Option ℕ) :
    SameVoices v { v with first := first, last := last } :=
  ⟨rfl, fun _ => rfl, fun _ => rfl, rfl, rfl, rfl, rfl, rfl, rfl⟩

theorem sameVoices_setNext (v : Voicer τ) (n : ℕ) (next : Option ℕ) :
    SameVoices v (v.setNext n next) :=
  sameVoices_setNode rfl rfl rfl

theorem sameVoices_setPrev (v : Voicer τ) (n : ℕ) (prev : Option ℕ) :
    SameVoices v (v.setPrev n prev) :=
  sameVoices_setNode rfl rfl rfl

theorem next_setNext (v : Voicer τ) (n : ℕ) (next : Option ℕ) :
    (v.setNext n next).next = update v.next n next :=
  field_setNode Node.next v n _

theorem prev_setNext (v : Voicer τ) (n : ℕ) (next : Option ℕ) :
    (v.setNext n next).prev = v.prev :=
  field_setNode_eq Node.prev rfl

theorem next_setPrev (v : Voicer τ) (n : ℕ) (prev : Option ℕ) :
    (v.setPrev n prev).next = v.next :=
  field_setNode_eq Node.next rfl

theorem prev_setPrev (v : Voicer τ) (n : ℕ) (prev : Option ℕ) :
    (v.setPrev n prev).prev = update v.prev n prev :=
  field_setNode Node.prev v n _

theorem Linked.linkNode (h : Linked v l) (hcount : v.count = l.length) (hn : n ∉ l)
    (hnext : v.next n = none) (hprev : v.prev n = v.last) :
    ∃ v', v.linkNode n = some v' ∧ Linked v' (l ++ [n]) ∧ SameVoices v v' := by
  have hlinks := h.links.add h.nodup hn (hprev.trans h.last) hnext
  have hnodup : (l ++ [n]).Nodup := List.nodup_append'.mpr
    ⟨h.nodup, List.nodup_singleton n, List.disjoint_singleton.mpr hn⟩
  have hlast : (l ++ [n]).getLast? = some n := by
    rw [List.getLast?_append, List.getLast?_singleton, Option.some_or]
  obtain rfl | ⟨l, p, rfl⟩ := l.eq_nil_or_concat'
  · have hempty : v.emptyP = true := decide_eq_true hcount
    refine ⟨{ v with last := some n, first := some n }, by rw [Voicer.linkNode, if_pos hempty],
      ⟨hlinks, rfl, rfl, hnodup⟩, sameVoices_ends v _ _⟩
  · have hempty : ¬ v.emptyP = true := by
      rw [Voicer.emptyP, hcount, List.length_append, List.length_singleton]
      exact of_decide_eq_false rfl
    have hp : v.last = some p := by
      rw [h.last, List.getLast?_append, List.getLast?_singleton, Option.some_or]
    rw [List.getLast?_append, List.getLast?_singleton, Option.some_or] at hlinks
    refine ⟨{ v with last := some n }.setNext p (some n), ?_, ⟨?_, ?_, hlast.symm, hnodup⟩,
      (sameVoices_ends v v.first (some n)).trans (sameVoices_setNext _ _ _)⟩
    · rw [Voicer.linkNode, if_neg hempty, hp, Option.map_some]
    · rw [next_setNext, prev_setNext]
      exact hlinks
    · refine h.first.trans ?_
      rw [List.head?_append, List.head?_append, List.head?_append]
      cases l <;> rfl

theorem unlinkNext_spec (v : Voicer τ) (n : ℕ) :
    (v.unlinkNext n).next = setLink v.next (v.prev n) (v.next n) ∧
      (v.unlinkNext n).prev = v.prev ∧
      (v.unlinkNext n).first = (if v.prev n = none then v.next n else v.first) ∧
      (v.unlinkNext n).last = v.last ∧ SameVoices v (v.unlinkNext n) := by
  rw [Voicer.unlinkNext]
  cases hprev : (v.nodes n).prev with
  | none =>
    have hprev' : v.prev n = none := hprev
    rw [hprev', if_pos rfl]
    exact ⟨rfl, rfl, rfl, rfl, sameVoices_ends v _ _⟩
  | some prev =>
    have hprev' : v.prev n = some prev := hprev
    rw [hprev', if_neg nofun]
    exact ⟨next_setNext _ _ _, prev_setNext _ _ _, rfl, rfl, sameVoices_setNext _ _ _⟩

theorem unlinkPrev_spec (v : Voicer τ) (n : ℕ) :
    (v.unlinkPrev n).next = v.next ∧
      (v.unlinkPrev n).prev = setLink v.prev (v.next n) (v.prev n) ∧
      (v.unlinkPrev n).first = v.first ∧
      (v.unlinkPrev n).last = (if v.next n = none then v.prev n else v.last) ∧
      SameVoices v (v.unlinkPrev n) := by
  rw [Voicer.unlinkPrev]
  cases hnext : (v.nodes n).next with
  | none =>
    have hnext' : v.next n = none := hnext
    rw [hnext', if_pos rfl]
    exact ⟨rfl, rfl, rfl, rfl, sameVoices_ends v _ _⟩
  | some next =>
    have hnext' : v.next n = some next := hnext
    rw [hnext', if_neg nofun]
    exact ⟨next_setPrev _ _ _, prev_setPrev _ _ _, rfl, rfl, sameVoices_setPrev _ _ _⟩

theorem Linked.unlink (h : Linked v (l ++ n :: l')) :
    Linked ((v.unlinkNext n).unlinkPrev n) (l ++ l') ∧
      SameVoices v ((v.unlinkNext n).unlinkPrev n) := by
  obtain ⟨hprev, hnext, hlinks⟩ := h.links.remove h.nodup
  have hnodup : (l ++ l').Nodup := h.nodup.sublist ((List.sublist_cons_self n l').append_left l)
  have hnot : l.getLast? ≠ some n := by
    intro hlast
    exact List.disjoint_of_nodup_append h.nodup (List.mem_of_getLast? hlast) List.mem_cons_self
  obtain ⟨hnext₁, hprev₁, hfirst₁, hlast₁, hsame₁⟩ := unlinkNext_spec v n
  obtain ⟨hnext₂, hprev₂, hfirst₂, hlast₂, hsame₂⟩ := unlinkPrev_spec (v.unlinkNext n) n
  have hnextn : (v.unlinkNext n).next n = l'.head? := by
    rw [hnext₁, hprev, setLink_of_ne _ _ hnot, hnext]
  rw [hprev, hnext] at hnext₁
  rw [hnextn, hprev₁, hprev] at hprev₂
  rw [hnextn, hprev₁, hprev] at hlast₂
  rw [hprev, hnext] at hfirst₁
  refine ⟨⟨?_, ?_, ?_, hnodup⟩, hsame₁.trans hsame₂⟩
  · rw [hnext₂, hnext₁, hprev₂]
    exact hlinks
  · rw [hfirst₂, hfirst₁, h.first]
    cases l with
    | nil => rfl
    | cons m l => simp
  · rw [hlast₂, hlast₁, h.last]
    cases l' with
    | nil => simp
    | cons m l' => simp [List.getLast?_append, List.getLast?_cons]

end Linked

section Pooled

variable {v v' : Voicer τ} {l : List ℕ} {n : ℕ} {freeHooks : ℕ → Option ℕ}
  {owner owner' : ℕ → Option (Owner τ)}

theorem Pooled.keeps (h : Pooled v l freeHooks owner) (hpool : v'.genericPool.Valid owner')
    (hnodePool : v'.nodePool = v.nodePool) (hnextNode : v'.nextNode = v.nextNode)
    (hkeeps : Keeps owner owner' .nodePool) (hfreeHooks : ∀ dsp, Keeps owner owner' (.freeHook dsp)) :
    Pooled v' l freeHooks owner' where
  pool := hpool
  conses := hnodePool ▸ h.conses
  owned entry hentry := hkeeps _ (h.owned entry (hnodePool ▸ hentry))
  nodes := hnodePool ▸ h.nodes
  disjoint := hnodePool ▸ h.disjoint
  lt := hnextNode ▸ h.lt
  lt' := hnodePool ▸ hnextNode ▸ h.lt'
  freeHooks dsp entry hentry := hfreeHooks dsp entry (h.freeHooks dsp entry hentry)

theorem map_fst_range (a b grow : ℕ) :
    ((List.range grow).map fun i => (a + i, b + i)).map Prod.fst = List.range' a grow := by
  rw [List.map_map, List.range'_eq_map_range]
  rfl

theorem map_snd_range (a b grow : ℕ) :
    ((List.range grow).map fun i => (a + i, b + i)).map Prod.snd = List.range' b grow := by
  rw [List.map_map, List.range'_eq_map_range]
  rfl

theorem Pooled.expand (h : Pooled v l freeHooks owner) (delta : ℕ) :
    ∃ owner', Pooled (v.expandLocalNodePool delta) l freeHooks owner' ∧
      ∀ w, Keeps owner owner' w := by
  let grow := if 0 < delta then delta else 1
  let owner' : ℕ → Option (Owner τ) := fun c =>
    if c ∈ List.range' v.genericPool.next grow then some .nodePool else owner c
  have hnot : ∀ c w, owner c = some w → c ∉ List.range' v.genericPool.next grow := by
    intro c w hc hmem
    rw [h.pool.fresh c (List.mem_range'_1.mp hmem).1] at hc
    cases hc
  have hkeeps : ∀ w, Keeps owner owner' w := by
    intro w c hc
    exact (if_neg (hnot c w hc)).trans hc
  have hconses : (v.expandLocalNodePool delta).nodePool.map Prod.fst =
      List.range' v.genericPool.next grow ++ v.nodePool.map Prod.fst := by
    rw [Voicer.expandLocalNodePool, List.map_append, map_fst_range]
  have hnodes : (v.expandLocalNodePool delta).nodePool.map Prod.snd =
      List.range' v.nextNode grow ++ v.nodePool.map Prod.snd := by
    rw [Voicer.expandLocalNodePool, List.map_append, map_snd_range]
  have hfresh : ∀ n, n < v.nextNode → n ∉ List.range' v.nextNode grow := by
    intro n hn hmem
    exact absurd hn (Nat.not_lt.mpr (List.mem_range'_1.mp hmem).1)
  refine ⟨owner', ⟨⟨h.pool.nodup, fun c hc => ?_, fun c hc => ?_, fun c hle => ?_, h.pool.grow⟩,
    ?_, fun entry hentry => ?_, ?_, fun n hn => ?_, fun n hn => ?_, fun n hn => ?_,
    fun dsp entry hentry => hkeeps _ _ (h.freeHooks dsp entry hentry)⟩, hkeeps⟩
  · have hlt := h.pool.lt c hc
    have hmem : c ∉ List.range' v.genericPool.next grow := fun hmem =>
      absurd hlt (Nat.not_lt.mpr (List.mem_range'_1.mp hmem).1)
    exact (if_neg hmem).trans (h.pool.unowned c hc)
  · exact Nat.lt_add_right _ (h.pool.lt c hc)
  · have hmem : c ∉ List.range' v.genericPool.next grow := fun hmem =>
      absurd (List.mem_range'_1.mp hmem).2 (Nat.not_lt.mpr hle)
    exact (if_neg hmem).trans (h.pool.fresh c (Nat.le_of_add_right_le hle))
  · rw [hconses]
    refine List.nodup_append'.mpr ⟨List.nodup_range', h.conses, fun c hmem hc => ?_⟩
    obtain ⟨entry, hentry, rfl⟩ := List.mem_map.mp hc
    exact hnot _ _ (h.owned entry hentry) hmem
  · obtain hmem | hmem := List.mem_append.mp hentry
    · have hrange : entry.1 ∈ List.range' v.genericPool.next grow := by
        rw [← map_fst_range v.genericPool.next v.nextNode grow]
        exact List.mem_map_of_mem hmem
      exact if_pos hrange
    · exact hkeeps _ _ (h.owned entry hmem)
  · rw [hnodes]
    exact List.nodup_append'.mpr ⟨List.nodup_range', h.nodes,
      fun n hmem hn => hfresh n (h.lt' n hn) hmem⟩
  · rw [hnodes, List.mem_append, not_or]
    exact ⟨hfresh n (h.lt n hn), h.disjoint n hn⟩
  · exact Nat.lt_add_right _ (h.lt n hn)
  · rw [hnodes] at hn
    obtain hmem | hmem := List.mem_append.mp hn
    · exact (List.mem_range'_1.mp hmem).2
    · exact Nat.lt_add_right _ (h.lt' n hmem)

theorem nodePoolPop_of_cons {expanded : Voicer τ} {entry : ℕ × ℕ} {nodePool : List (ℕ × ℕ)}
    (h : (if v.nodePool = [] then v.expandLocalNodePool 0 else v) = expanded)
    (hdata : expanded.nodePool = entry :: nodePool) :
    v.nodePoolPop = some (entry.2, { expanded with
      nodePool := nodePool, genericPool := expanded.genericPool.pushCons entry.1 }) := by
  rw [Voicer.nodePoolPop, h, hdata]

theorem Pooled.nodePoolPop (h : Pooled v l freeHooks owner) :
    ∃ n v' owner', v.nodePoolPop = some (n, v') ∧ Pooled v' l freeHooks owner' ∧ n ∉ l ∧
      n ∉ v'.nodePool.map Prod.snd ∧ n < v'.nextNode ∧ (∀ w, w ≠ .nodePool → Keeps owner owner' w) ∧
      v' = { v with
        nodePool := v'.nodePool, nextNode := v'.nextNode, genericPool := v'.genericPool } := by
  let expanded := if v.nodePool = [] then v.expandLocalNodePool 0 else v
  have hexpanded : ∃ owner', Pooled expanded l freeHooks owner' ∧ ∀ w, Keeps owner owner' w := by
    by_cases hnil : v.nodePool = []
    · have heq : expanded = v.expandLocalNodePool 0 := if_pos hnil
      rw [heq]
      exact h.expand 0
    · have heq : expanded = v := if_neg hnil
      rw [heq]
      exact ⟨owner, h, fun w c hc => hc⟩
  have hframe : expanded = { v with
      nodePool := expanded.nodePool, nextNode := expanded.nextNode,
      genericPool := expanded.genericPool } := by
    by_cases hnil : v.nodePool = []
    · have heq : expanded = v.expandLocalNodePool 0 := if_pos hnil
      rw [heq, Voicer.expandLocalNodePool]
    · have heq : expanded = v := if_neg hnil
      rw [heq]
  have hne : expanded.nodePool ≠ [] := by
    by_cases hnil : v.nodePool = []
    · have heq : expanded = v.expandLocalNodePool 0 := if_pos hnil
      rw [heq, Voicer.expandLocalNodePool]
      exact List.append_ne_nil_of_left_ne_nil (List.cons_ne_nil _ _) _
    · have heq : expanded = v := if_neg hnil
      rwa [heq]
  obtain ⟨owner', hpooled, hkeeps⟩ := hexpanded
  cases hdata : expanded.nodePool with
  | nil => exact absurd hdata hne
  | cons entry nodePool =>
    have howned := hpooled.owned
    have hconses := hpooled.conses
    have hnodes := hpooled.nodes
    have hdisjoint := hpooled.disjoint
    have hlt := hpooled.lt'
    rw [hdata] at howned hconses hnodes hdisjoint hlt
    rw [@nodePoolPop_of_cons τ _ v expanded entry nodePool rfl hdata]
    rw [List.map_cons] at hconses hnodes hdisjoint hlt
    obtain ⟨hnot, hconses⟩ := List.nodup_cons.mp hconses
    obtain ⟨hnot', hnodes⟩ := List.nodup_cons.mp hnodes
    have hentry := howned entry List.mem_cons_self
    refine ⟨entry.2, _, update owner' entry.1 none, rfl,
      ⟨hpooled.pool.pushCons hentry, hconses, fun c hc => ?_, hnodes, fun n hn => ?_, hpooled.lt,
        fun n hn => hlt n (List.mem_cons_of_mem _ hn), fun dsp c hc => ?_⟩, fun hn => ?_, hnot',
      hlt entry.2 List.mem_cons_self, fun w hw => (hkeeps w).trans (keeps_update ?_ none), ?_⟩
    · have hc' : c.1 ≠ entry.1 := fun heq => hnot (heq ▸ List.mem_map_of_mem hc)
      rw [update_of_ne hc']
      exact howned c (List.mem_cons_of_mem _ hc)
    · exact fun hmem => hdisjoint n hn (List.mem_cons_of_mem _ hmem)
    · refine keeps_update ?_ none c (hpooled.freeHooks dsp c hc)
      rw [hentry]
      rintro ⟨⟩
    · exact hdisjoint entry.2 hn List.mem_cons_self
    · rw [hentry]
      exact fun heq => hw (Option.some.inj heq).symm
    · rw [hframe]

theorem Pooled.nodePoolPush (h : Pooled v l freeHooks owner) (hnodup : l.Nodup) (hn : n ∈ l) :
    ∃ v' owner', v.nodePoolPush n = some v' ∧ Pooled v' (l.erase n) freeHooks owner' ∧
      (∀ w, Keeps owner owner' w) ∧
      v' = { v with nodePool := v'.nodePool, genericPool := v'.genericPool } := by
  obtain ⟨entry, pool, hpop, hnone, hpool⟩ := h.pool.popCons Owner.nodePool
  have hkeeps : ∀ w, Keeps owner (update owner entry (some .nodePool)) w :=
    keeps_of_none hnone (some .nodePool)
  refine ⟨{ v with nodePool := (entry, n) :: v.nodePool, genericPool := pool }, _,
    by rw [Voicer.nodePoolPush, hpop, Option.map_some],
    ⟨hpool, ?_, fun c hc => ?_, ?_, fun m hm => ?_, fun m hm => ?_, fun m hm => ?_,
      fun dsp c hc => hkeeps _ _ (h.freeHooks dsp c hc)⟩, hkeeps, rfl⟩
  · refine List.nodup_cons.mpr ⟨fun hmem => ?_, h.conses⟩
    obtain ⟨c, hc, heq⟩ := List.mem_map.mp hmem
    have hcons : c.1 = entry := heq
    have howned := h.owned c hc
    rw [hcons, hnone] at howned
    cases howned
  · obtain rfl | hc := List.mem_cons.mp hc
    · exact update_self _ _ _
    · exact hkeeps _ _ (h.owned c hc)
  · exact List.nodup_cons.mpr ⟨h.disjoint n hn, h.nodes⟩
  · obtain ⟨hne, hm⟩ := hnodup.mem_erase_iff.mp hm
    exact List.not_mem_cons_of_ne_of_not_mem hne (h.disjoint m hm)
  · exact h.lt m (List.mem_of_mem_erase hm)
  · obtain rfl | hm := List.mem_cons.mp hm
    · exact h.lt m hn
    · exact h.lt' m hm

end Pooled

section Filed

variable {v v' : Voicer τ} {q q' : Queues ℕ} {n : ℕ} {t : τ} {entry : Entry}
  {owner owner' : ℕ → Option (Owner τ)}

theorem objectHash_setEntry_self (v : Voicer τ) (t : τ) (entry : Entry) :
    (v.setEntry t entry).objectHash t = some entry :=
  update_self _ _ _

theorem objectHash_setEntry_of_ne {t' : τ} (h : t' ≠ t) (v : Voicer τ) (entry : Entry) :
    (v.setEntry t entry).objectHash t' = v.objectHash t' :=
  update_of_ne h _ _

theorem Filed.congr (h : Filed v q owner) (hq : q.Valid)
    (htag : ∀ n ∈ q.order, v'.tag n = v.tag n)
    (hmark : ∀ n ∈ q.order, (v'.nodes n).toRelease → n ∈ q.releasing)
    (hhash : v'.objectHash = v.objectHash) (hobject : ∀ t, Keeps owner owner' (.object t))
    (hpending : ∀ t, Keeps owner owner' (.pending t)) : Filed v' q owner' where
  object t entry hentry := by
    rw [Queues.objects_congr htag]
    exact (h.object t entry (hhash ▸ hentry)).keeps (hobject t)
  pending t entry hentry := by
    rw [hq.pendings_congr htag]
    exact (h.pending t entry (hhash ▸ hentry)).keeps (hpending t)
  entry n hn := by
    rw [htag n hn, hhash]
    exact h.entry n hn
  toRelease := hmark

theorem Filed.setEntry (h : Filed v q owner)
    (hobject : entry.object.Holds owner' (.object t) (q'.objects v.tag t))
    (hpending : entry.pending.Holds owner' (.pending t) (q'.pendings v.tag t))
    (hobjects : ∀ t', t' ≠ t → q'.objects v.tag t' = q.objects v.tag t')
    (hpendings : ∀ t', t' ≠ t → q'.pendings v.tag t' = q.pendings v.tag t')
    (hkeeps : ∀ t', t' ≠ t → Keeps owner owner' (.object t') ∧ Keeps owner owner' (.pending t'))
    (horder : ∀ n ∈ q'.order, v.tag n = t ∨ n ∈ q.order)
    (hmark : ∀ n ∈ q'.order, (v.nodes n).toRelease → n ∈ q'.releasing) :
    Filed (v.setEntry t entry) q' owner' where
  object t' entry' hentry := by
    obtain rfl | hne := eq_or_ne t' t
    · have heq : entry = entry' := by
        rw [objectHash_setEntry_self] at hentry
        exact Option.some.inj hentry
      exact heq ▸ hobject
    · rw [objectHash_setEntry_of_ne hne] at hentry
      have hholds := (h.object t' entry' hentry).keeps (hkeeps t' hne).1
      rw [← hobjects t' hne] at hholds
      exact hholds
  pending t' entry' hentry := by
    obtain rfl | hne := eq_or_ne t' t
    · have heq : entry = entry' := by
        rw [objectHash_setEntry_self] at hentry
        exact Option.some.inj hentry
      exact heq ▸ hpending
    · rw [objectHash_setEntry_of_ne hne] at hentry
      have hholds := (h.pending t' entry' hentry).keeps (hkeeps t' hne).2
      rw [← hpendings t' hne] at hholds
      exact hholds
  entry n hn := by
    have htag : (v.setEntry t entry).tag n = v.tag n := rfl
    rw [htag]
    obtain heq | hne := eq_or_ne (v.tag n) t
    · exact ⟨entry, by rw [heq, objectHash_setEntry_self]⟩
    · obtain ⟨entry', hentry⟩ := h.entry n ((horder n hn).resolve_left hne)
      exact ⟨entry', by rw [objectHash_setEntry_of_ne hne, hentry]⟩
  toRelease := hmark

end Filed

section Represents

variable {v v' : Voicer τ} {q : Queues ℕ} {n : ℕ} {t : τ} {entry : Entry}
  {freeHooks : ℕ → Option ℕ} {owner owner₁ : ℕ → Option (Owner τ)}

theorem Represents.settings (h : Represents v q freeHooks owner) (polyphony availableNodes : ℕ)
    (stealFunction : Option Position) (freed : List ℕ) :
    Represents { v with
      polyphony := polyphony, availableNodes := availableNodes, stealFunction := stealFunction,
      freed := freed } q freeHooks owner :=
  ⟨⟨h.linked.links, h.linked.first, h.linked.last, h.linked.nodup⟩,
    h.pooled.keeps h.pooled.pool rfl rfl (fun _ hc => hc) (fun _ _ hc => hc),
    h.filed.congr h.valid (fun _ _ => rfl) h.filed.toRelease rfl (fun _ _ hc => hc)
      (fun _ _ hc => hc), h.valid, h.count⟩

theorem Represents.setNode (h : Represents v q freeHooks owner) {node : Node τ}
    (hnext : node.next = v.next n) (hprev : node.prev = v.prev n) (htag : node.tag = v.tag n)
    (hmark : n ∈ q.order → node.toRelease → n ∈ q.releasing) :
    Represents (v.setNode n node) q freeHooks owner := by
  have hnext' : (v.setNode n node).next = v.next := field_setNode_eq Node.next hnext
  have hprev' : (v.setNode n node).prev = v.prev := field_setNode_eq Node.prev hprev
  have htag' : (v.setNode n node).tag = v.tag := field_setNode_eq Node.tag htag
  refine ⟨h.linked.congr (fun m _ => congrFun hnext' m) (fun m _ => congrFun hprev' m) rfl rfl,
    h.pooled.keeps h.pooled.pool rfl rfl (fun _ hc => hc) (fun _ _ hc => hc),
    h.filed.congr h.valid (fun m _ => congrFun htag' m) (fun m hm hmarked => ?_) rfl
      (fun _ _ hc => hc) (fun _ _ hc => hc), h.valid, h.count⟩
  obtain rfl | hne := eq_or_ne m n
  · rw [nodes_setNode_self] at hmarked
    exact hmark hm hmarked
  · rw [nodes_setNode_of_ne hne] at hmarked
    exact h.filed.toRelease m hm hmarked

/-- What an event does to the nodes `l` in use and to their objects. -/
structure Effect (v v' : Voicer τ) (l : List ℕ) : Prop where
  value : ∀ n, (v'.nodes n).value = (v.nodes n).value ∨ (v'.nodes n).value = none
  tag : ∀ n ∈ l, v'.tag n = v.tag n
  freed : ∃ ids, v'.freed = v.freed ++ ids ∧ ∀ id ∈ ids, ∃ n ∈ l, (v.nodes n).value = some id

theorem effect_of_eq (hnodes : v'.nodes = v.nodes) (hfreed : v'.freed = v.freed) (l : List ℕ) :
    Effect v v' l where
  value n := .inl (by rw [hnodes])
  tag n _ := by rw [Voicer.tag, Voicer.tag, hnodes]
  freed := ⟨[], by rw [hfreed, List.append_nil], fun _ => nofun⟩

theorem Effect.trans {v'' : Voicer τ} {l l' : List ℕ} (h : Effect v v' l) (h' : Effect v' v'' l')
    (hl : ∀ n ∈ l', n ∈ l) (hl' : ∀ n ∈ l, n ∈ l') : Effect v v'' l where
  value n := by
    obtain heq' | hnone := h'.value n
    · rw [heq']
      exact h.value n
    · exact .inr hnone
  tag n hn := (h'.tag n (hl' n hn)).trans (h.tag n hn)
  freed := by
    obtain ⟨ids, hids, hvalues⟩ := h.freed
    obtain ⟨ids', hids', hvalues'⟩ := h'.freed
    refine ⟨ids ++ ids', by rw [hids', hids, List.append_assoc], fun id hid => ?_⟩
    obtain hid | hid := List.mem_append.mp hid
    · exact hvalues id hid
    · obtain ⟨n, hn, hvalue⟩ := hvalues' id hid
      obtain heq | hnone := h.value n
      · exact ⟨n, hl n hn, heq ▸ hvalue⟩
      · rw [hnone] at hvalue
        cases hvalue

theorem effect_setNode {l : List ℕ} {node : Node τ} {ids : List ℕ} (hn : n ∈ l)
    (htag : node.tag = v.tag n) (hvalue : node.value = (v.nodes n).value ∨ node.value = none)
    (hids : ∀ id ∈ ids, (v.nodes n).value = some id) :
    Effect v ({ v with freed := v.freed ++ ids }.setNode n node) l where
  value m := by
    obtain rfl | hne := eq_or_ne m n
    · rw [nodes_setNode_self]
      exact hvalue
    · rw [nodes_setNode_of_ne hne]
      exact .inl rfl
  tag m _ := by
    rw [Voicer.tag]
    obtain rfl | hne := eq_or_ne m n
    · rw [nodes_setNode_self, htag]
    · rw [nodes_setNode_of_ne hne]
      rfl
  freed := ⟨ids, rfl, fun id hid => ⟨n, hn, hids id hid⟩⟩

theorem Filed.objects_eq_nil (h : Filed v q owner) (hentry : v.objectHash t = none) :
    q.objects v.tag t = [] := by
  refine List.eq_nil_iff_forall_not_mem.mpr fun n hn => ?_
  obtain ⟨horder, rfl, -⟩ := Queues.mem_objects.mp hn
  obtain ⟨entry, hentry'⟩ := h.entry n horder
  rw [hentry] at hentry'
  cases hentry'

theorem removeNode_spec (hlinked : Linked v q.order) (hpooled : Pooled v q.order freeHooks owner)
    (hfiled : Filed v (q.remove n) owner) (hvalid : q.Valid) (hcount : v.count = q.order.length)
    (hn : n ∈ q.order) :
    ∃ v' owner', v.removeNode n = some v' ∧ Represents v' (q.remove n) freeHooks owner' ∧
      Effect v v' q.order := by
  obtain ⟨l, l', horder⟩ := List.append_of_mem hn
  have hnodup := hvalid.order
  rw [horder] at hnodup hlinked
  have hnot : n ∉ l := fun hmem =>
    List.disjoint_of_nodup_append hnodup hmem List.mem_cons_self
  have herase : (q.remove n).order = l ++ l' := by
    rw [Queues.remove, horder, List.erase_append_right _ hnot, List.erase_cons_head]
  obtain ⟨hlinked', hsame⟩ := hlinked.unlink
  have hpooled₁ : Pooled ((v.unlinkNext n).unlinkPrev n) q.order freeHooks owner :=
    hpooled.keeps (hsame.genericPool.symm ▸ hpooled.pool) hsame.nodePool hsame.nextNode
      (fun _ hc => hc) (fun _ _ hc => hc)
  obtain ⟨v', owner', hpush, hpooled', hkeeps, hframe⟩ := hpooled₁.nodePoolPush hvalid.order hn
  have hnodes : v'.nodes = ((v.unlinkNext n).unlinkPrev n).nodes := by rw [hframe]
  have htag : v'.tag = v.tag := by
    rw [← hsame.tag]
    funext m
    rw [Voicer.tag, Voicer.tag, hnodes]
  have hcount' : v'.count = v.count := by
    rw [← hsame.count, hframe]
  have hfiled' : Filed { v' with count := v'.count - 1 } (q.remove n) owner' := by
    refine hfiled.congr (hvalid.remove n) (fun m _ => congrFun htag m) (fun m hm hmark => ?_) ?_
      (fun _ => hkeeps _) (fun _ => hkeeps _)
    · rw [hnodes, hsame.toRelease] at hmark
      exact hfiled.toRelease m hm hmark
    · rw [← hsame.objectHash, hframe]
  refine ⟨{ v' with count := v'.count - 1 }, owner', by rw [Voicer.removeNode, hpush]; rfl,
    ⟨?_, ?_, hfiled', hvalid.remove n, ?_⟩, fun m => .inl ?_, fun m _ => congrFun htag m,
    [], ?_, List.forall_mem_nil _⟩
  · rw [herase]
    refine hlinked'.congr (fun m _ => ?_) (fun m _ => ?_) (by rw [hframe]) (by rw [hframe])
    · rw [Voicer.next, Voicer.next, hnodes]
    · rw [Voicer.prev, Voicer.prev, hnodes]
  · exact hpooled'.keeps hpooled'.pool rfl rfl (fun _ hc => hc) (fun _ _ hc => hc)
  · rw [hcount', hcount, Queues.remove, List.length_erase_of_mem hn]
  · rw [hnodes, hsame.value]
  · rw [List.append_nil, ← hsame.freed, hframe]

def liveNode (mark : ℕ → Bool) (q : Queues ℕ) : Position → Option ℕ
  | .first => q.order.find? fun n => !mark n
  | .last => q.order.reverse.find? fun n => !mark n

theorem liveNode_mem {mark : ℕ → Bool} {position : Position}
    (h : liveNode mark q position = some n) : n ∈ q.order := by
  cases position with
  | first => exact List.mem_of_find?_eq_some h
  | last => exact List.mem_reverse.mp (List.mem_of_find?_eq_some h)

theorem Filed.addObject (h : Filed v q owner) (hvalid : q.Valid) (hpool : v.genericPool.Valid owner)
    (hn : n ∉ q.order) (hmark : ¬ (v.nodes n).toRelease = true) :
    ∃ v' owner', v.addObject (v.tag n) n = some v' ∧ Filed v' (q.add n) owner' ∧
      v'.genericPool.Valid owner' ∧ (∀ w, Keeps owner owner' w) ∧
      v' = { v with genericPool := v'.genericPool, objectHash := v'.objectHash } := by
  have hobjects := hvalid.objects_add hn v.tag
  have hself : (q.add n).objects v.tag (v.tag n) = q.objects v.tag (v.tag n) ++ [n] :=
    (hobjects _).trans (if_pos rfl)
  have hother : ∀ t', t' ≠ v.tag n → (q.add n).objects v.tag t' = q.objects v.tag t' :=
    fun t' hne => (hobjects t').trans (if_neg fun heq => hne heq.symm)
  have horder : ∀ m ∈ (q.add n).order, v.tag m = v.tag n ∨ m ∈ q.order := by
    intro m hm
    obtain hm | hm := List.mem_append.mp hm
    · exact .inr hm
    · exact .inl (congrArg v.tag (List.mem_singleton.mp hm))
  have hmark' : ∀ m ∈ (q.add n).order, (v.nodes m).toRelease → m ∈ (q.add n).releasing := by
    intro m hm hmarked
    obtain hm | hm := List.mem_append.mp hm
    · exact h.toRelease m hm hmarked
    · rw [List.mem_singleton.mp hm] at hmarked
      exact absurd hmarked hmark
  have hset : ∀ (entry' : Entry) (pool' : ConsPool) (owner' : ℕ → Option (Owner τ)),
      entry'.object.Holds owner' (.object (v.tag n)) (q.objects v.tag (v.tag n) ++ [n]) →
      entry'.pending.Holds owner' (.pending (v.tag n)) (q.pendings v.tag (v.tag n)) →
      (∀ w, Keeps owner owner' w) →
      Filed ({ v with genericPool := pool' }.setEntry (v.tag n) entry') (q.add n) owner' := by
    intro entry' pool' owner' hobject hpending hkeeps
    have hfiled : Filed { v with genericPool := pool' } q owner :=
      h.congr hvalid (fun _ _ => rfl) h.toRelease rfl (fun _ _ hc => hc) (fun _ _ hc => hc)
    exact hfiled.setEntry (hself.symm ▸ hobject) hpending hother (fun _ _ => rfl)
      (fun t' _ => ⟨hkeeps _, hkeeps _⟩) horder hmark'
  cases hentry : v.objectHash (v.tag n) with
  | some entry =>
    obtain ⟨object, pool', c, hadd, hnone, hpool', hobject⟩ :=
      (h.object _ entry hentry).addRight hpool n
    have hkeeps : ∀ w, Keeps owner (update owner c (some (.object (v.tag n)))) w :=
      keeps_of_none hnone _
    refine ⟨{ v with genericPool := pool' }.setEntry (v.tag n) { entry with object := object }, _, ?_,
      hset { entry with object := object } pool' _ hobject
        ((h.pending _ entry hentry).keeps (hkeeps _)) hkeeps, hpool', hkeeps, rfl⟩
    simp only [Voicer.addObject, hentry, hadd, Option.map_some]
  | none =>
    have hobjects_nil := h.objects_eq_nil hentry
    have hpendings_nil : q.pendings v.tag (v.tag n) = [] := by
      refine List.eq_nil_iff_forall_not_mem.mpr fun m hm => ?_
      obtain ⟨hr, htag⟩ := Queues.mem_pendings.mp hm
      obtain ⟨entry, hentry'⟩ := h.entry m (hvalid.subset m hr)
      rw [htag, hentry] at hentry'
      cases hentry'
    obtain ⟨object₁, pool₁, c₁, hmake₁, hc₁, hpool₁, hobject₁⟩ :=
      @holds_makeTlist ℕ _ _ _ hpool Owner.entry (.object (v.tag n))
    obtain ⟨c₂, pool₂, hpop, hc₂, hpool₂⟩ := hpool₁.popCons Owner.entry
    obtain ⟨pending, pool₃, c₃, hmake₃, hc₃, hpool₃, hpending⟩ :=
      @holds_makeTlist ℕ _ _ _ hpool₂ Owner.entry (.pending (v.tag n))
    have hobject₃ := (hobject₁.keeps (keeps_of_none hc₂ (some .entry) _)).keeps
      (keeps_of_none hc₃ (some .entry) _)
    obtain ⟨object, pool', c, hadd, hnone, hpool', hobject⟩ := hobject₃.addLeft hpool₃ n
    refine ⟨{ v with genericPool := pool' }.setEntry (v.tag n) ⟨c₂, object, pending⟩, _, ?_,
      hset _ pool' _ ?_ ?_ fun w => ?_, hpool', fun w => ?_, rfl⟩
    · simp only [Voicer.addObject, hentry, hmake₁, hpop, hmake₃, hadd, Option.bind_eq_bind,
        Option.bind_some]
    · rw [hobjects_nil, List.nil_append]
      exact hobject
    · rw [hpendings_nil]
      exact hpending.keeps (keeps_of_none hnone _ _)
    · exact (((keeps_of_none hc₁ _ w).trans (keeps_of_none hc₂ _ w)).trans
        (keeps_of_none hc₃ _ w)).trans (keeps_of_none hnone _ w)
    · exact (((keeps_of_none hc₁ _ w).trans (keeps_of_none hc₂ _ w)).trans
        (keeps_of_none hc₃ _ w)).trans (keeps_of_none hnone _ w)

theorem addNode_spec (hlinked : Linked v q.order) (hpooled : Pooled v q.order freeHooks owner)
    (hfiled : Filed v q owner) (hvalid : q.Valid) (hcount : v.count = q.order.length)
    (hn : n ∉ q.order) (hpool : n ∉ v.nodePool.map Prod.snd) (hlt : n < v.nextNode)
    (hnext : v.next n = none) (hprev : v.prev n = v.last) (hmark : ¬ (v.nodes n).toRelease = true) :
    ∃ v' owner', v.addNode (v.tag n) n = some v' ∧ Represents v' (q.add n) freeHooks owner' ∧
      v'.tag = v.tag ∧ (∀ m, (v'.nodes m).value = (v.nodes m).value) ∧ v'.freed = v.freed := by
  obtain ⟨v₁, hlink, hlinked₁, hsame⟩ := hlinked.linkNode hcount hn hnext hprev
  have hmark₁ : ¬ (v₁.nodes n).toRelease = true := by rwa [hsame.toRelease]
  have hfiled₁ : Filed v₁ q owner := by
    refine hfiled.congr hvalid (fun m _ => congrFun hsame.tag m) (fun m hm hmarked => ?_)
      hsame.objectHash (fun _ _ hc => hc) (fun _ _ hc => hc)
    rw [hsame.toRelease] at hmarked
    exact hfiled.toRelease m hm hmarked
  obtain ⟨v₂, owner', hadd, hfiled₂, hpool₂, hkeeps, hframe⟩ :=
    hfiled₁.addObject hvalid (hsame.genericPool.symm ▸ hpooled.pool) hn hmark₁
  have hnodes : v₂.nodes = v₁.nodes := by rw [hframe]
  have htag : v₂.tag = v.tag := by
    rw [← hsame.tag]
    funext m
    rw [Voicer.tag, Voicer.tag, hnodes]
  have hnodePool : v₂.nodePool = v.nodePool := by rw [← hsame.nodePool, hframe]
  have hnextNode : v₂.nextNode = v.nextNode := by rw [← hsame.nextNode, hframe]
  have hcount₂ : v₂.count = q.order.length := by rw [← hcount, ← hsame.count, hframe]
  have hpooled₂ : Pooled { v₂ with count := v₂.count + 1 } q.order freeHooks owner' :=
    hpooled.keeps hpool₂ hnodePool hnextNode (hkeeps _) fun _ => hkeeps _
  refine ⟨{ v₂ with count := v₂.count + 1 }, owner', ?_, ⟨?_, ⟨hpooled₂.pool, hpooled₂.conses,
    hpooled₂.owned, hpooled₂.nodes, fun m hm => ?_, fun m hm => ?_, hpooled₂.lt',
    hpooled₂.freeHooks⟩, ?_, hvalid.add hn, ?_⟩, htag, fun m => ?_, ?_⟩
  · rw [hsame.tag] at hadd
    simp only [Voicer.addNode, hlink, hadd, Option.bind_eq_bind, Option.bind_some]
  · refine hlinked₁.congr (fun m _ => ?_) (fun m _ => ?_) (by rw [hframe]) (by rw [hframe])
    · rw [Voicer.next, Voicer.next, hnodes]
    · rw [Voicer.prev, Voicer.prev, hnodes]
  · obtain hm | hm := List.mem_append.mp hm
    · exact hpooled₂.disjoint m hm
    · rw [List.mem_singleton.mp hm, hnodePool]
      exact hpool
  · obtain hm | hm := List.mem_append.mp hm
    · exact hpooled₂.lt m hm
    · rw [List.mem_singleton.mp hm, hnextNode]
      exact hlt
  · exact hfiled₂.congr (hvalid.add hn) (fun _ _ => rfl) hfiled₂.toRelease rfl (fun _ _ hc => hc)
      (fun _ _ hc => hc)
  · rw [hcount₂, Queues.add, List.length_append, List.length_singleton]
  · rw [hnodes, hsame.value]
  · rw [← hsame.freed, hframe]

def Voicer.refused (v : Voicer τ) : Bool := v.fullP && v.stealFunction.isNone

def stolen (v : Voicer τ) (mark : ℕ → Bool) (q : Queues ℕ) : Option ℕ :=
  if v.fullP then v.stealFunction.bind (liveNode mark q) else none

theorem stolen_mem {mark : ℕ → Bool} (h : stolen v mark q = some n) : n ∈ q.order := by
  rw [stolen] at h
  split at h
  next =>
    obtain ⟨position, -, hlive⟩ := Option.bind_eq_some_iff.mp h
    exact liveNode_mem hlive
  next => cases h

section

variable (h : Represents v q freeHooks owner)
include h

theorem Represents.addPending (hn : n ∈ q.order) (hr : n ∉ q.releasing) (htag : v.tag n = t)
    (hentry : v.objectHash t = some entry) {object : Tlist ℕ} {pool : ConsPool}
    (hpool : pool.Valid owner₁)
    (hobject : object.Holds owner₁ (.object t) ((q.objects v.tag t).erase n))
    (hkeeps : ∀ w, w ≠ .object t → Keeps owner owner₁ w) :
    ∃ v' owner', { v with genericPool := pool }.addPending t { entry with object := object } n =
        some v' ∧ Represents v' (q.release n) freeHooks owner' ∧
      v' = { v with genericPool := v'.genericPool, objectHash := v'.objectHash } := by
  have hpending := (h.filed.pending t entry hentry).keeps (hkeeps (.pending t) nofun)
  obtain ⟨pending, pool', c, hadd, hnone, hpool', hpending'⟩ := hpending.addRight hpool n
  have hkeeps₁ : ∀ w, Keeps owner₁ (update owner₁ c (some (.pending t))) w := keeps_of_none hnone _
  have hkeeps' : ∀ w, w ≠ .object t → Keeps owner (update owner₁ c (some (.pending t))) w :=
    fun w hw => (hkeeps w hw).trans (hkeeps₁ w)
  refine ⟨{ v with genericPool := pool' }.setEntry t ⟨entry.cons, object, pending⟩,
    update owner₁ c (some (.pending t)), by rw [Voicer.addPending, hadd]; rfl,
    ⟨⟨h.linked.links, h.linked.first, h.linked.last, h.linked.nodup⟩,
      h.pooled.keeps hpool' rfl rfl (hkeeps' _ nofun) (fun _ => hkeeps' _ nofun), ?_,
      h.valid.release hn hr, h.count⟩, rfl⟩
  have hfiled : Filed { v with genericPool := pool' } q owner :=
    h.filed.congr h.valid (fun _ _ => rfl) h.filed.toRelease rfl (fun _ _ hc => hc)
      (fun _ _ hc => hc)
  have hobjects := h.valid.objects_release v.tag n
  have hpendings := Queues.pendings_release v.tag q n
  refine hfiled.setEntry ?_ ?_ (fun t' hne => ?_) (fun t' hne => ?_) (fun t' hne => ?_)
    (fun _ hm => .inr hm) (fun m hm hmarked => ?_)
  · exact (hobjects t).symm ▸ hobject.keeps (hkeeps₁ _)
  · have hpendings' := hpendings t
    rw [if_pos htag] at hpendings'
    exact hpendings'.symm ▸ hpending'
  · have hnot : n ∉ q.objects v.tag t' := fun hmem =>
      hne ((Queues.mem_objects.mp hmem).2.1.symm.trans htag)
    exact (hobjects t').trans (List.erase_of_not_mem hnot)
  · exact (hpendings t').trans (if_neg fun heq => hne (heq.symm.trans htag))
  · exact ⟨hkeeps' _ fun heq => hne (Owner.object.inj heq), hkeeps' _ nofun⟩
  · exact List.mem_append_left _ (h.filed.toRelease m hm hmarked)

theorem Represents.freeOrMark (hn : n ∈ q.order) (hr : n ∈ q.releasing) :
    Represents (v.freeOrMark n) q freeHooks owner ∧ Effect v (v.freeOrMark n) q.order := by
  rw [Voicer.freeOrMark]
  cases hvalue : (v.nodes n).value with
  | some id =>
    refine ⟨(h.settings v.polyphony v.availableNodes v.stealFunction (v.freed ++ [id])).setNode
      rfl rfl rfl fun _ _ => hr, effect_setNode hn rfl (.inr rfl) fun id' hid => ?_⟩
    rw [List.mem_singleton.mp hid, hvalue]
  | none =>
    refine ⟨h.setNode rfl rfl rfl fun _ _ => hr, ?_⟩
    have heffect := @effect_setNode _ _ v n q.order { v.nodes n with toRelease := true } [] hn rfl
      (.inl rfl) (fun _ => nofun)
    rw [List.append_nil] at heffect
    exact heffect

theorem Represents.releaseObject {checked : Bool}
    (hchecked : checked = true → v.count = 0 ∨ ∃ entry, v.objectHash t = some entry) :
    ∃ v' owner', Voicer.releaseObject checked v t = some v' ∧
      Represents v' (q.releaseFirst v.tag t) freeHooks owner' ∧ Effect v v' q.order := by
  have hsame : q.objects v.tag t = [] →
      Represents v (q.releaseFirst v.tag t) freeHooks owner ∧ Effect v v q.order := by
    intro hnil
    rw [Queues.releaseFirst, hnil]
    exact ⟨h, effect_of_eq rfl rfl _⟩
  rw [Voicer.releaseObject]
  by_cases hcount : v.count = 0
  · have hempty : v.emptyP = true := decide_eq_true hcount
    have horder : q.order = [] := List.length_eq_zero_iff.mp (h.count ▸ hcount)
    rw [if_pos hempty]
    exact ⟨v, owner, rfl, hsame (by rw [Queues.objects, horder, List.filter_nil])⟩
  · have hempty : ¬ v.emptyP = true := fun hempty => hcount (of_decide_eq_true hempty)
    rw [if_neg hempty]
    cases hentry : v.objectHash t with
    | none =>
      have hunchecked : ¬ checked = true := by
        intro heq
        obtain hcount' | ⟨entry, hentry'⟩ := hchecked heq
        · exact hcount hcount'
        · rw [hentry] at hentry'
          cases hentry'
      exact ⟨v, owner, if_neg hunchecked, hsame (h.filed.objects_eq_nil hentry)⟩
    | some entry =>
      have hobject := h.filed.object t entry hentry
      cases hobjects : q.objects v.tag t with
      | nil =>
        rw [hobjects] at hobject
        exact ⟨v, owner, by simp only [hobject.removeLeft_nil], hsame hobjects⟩
      | cons n rest =>
        have hn : n ∈ q.objects v.tag t := hobjects ▸ List.mem_cons_self
        obtain ⟨horder, htag, hr⟩ := Queues.mem_objects.mp hn
        rw [hobjects] at hobject
        obtain ⟨object, pool, c, hremove, hc, hpool, hobject'⟩ := hobject.removeLeft h.pooled.pool
        have hrest : (q.objects v.tag t).erase n = rest := by rw [hobjects, List.erase_cons_head]
        obtain ⟨v₁, owner₁, hadd, hrep, hframe⟩ := h.addPending horder hr htag hentry hpool
          (hrest ▸ hobject') fun w hw => keeps_update (fun heq => hw (Option.some.inj
            (heq.symm.trans hc))) none
        have hfirst : q.releaseFirst v.tag t = q.release n := by
          rw [Queues.releaseFirst, hobjects]
          rfl
        obtain ⟨hrep', heffect⟩ := hrep.freeOrMark horder (List.mem_append_right _
          (List.mem_singleton.mpr rfl))
        refine ⟨v₁.freeOrMark n, owner₁, ?_, hfirst ▸ hrep', ?_⟩
        · simp only [hremove, hadd, Option.map_some]
        · have hnodes : v₁.nodes = v.nodes := by rw [hframe]
          have hfreed : v₁.freed = v.freed := by rw [hframe]
          exact (effect_of_eq hnodes hfreed _).trans heffect (fun _ hm => hm) fun _ hm => hm

theorem Represents.releaseNode (hnext : q.next v.tag t = some n) :
    ∃ v' owner', v.releaseNode t = some v' ∧ Represents v' (q.remove n) freeHooks owner' ∧
      Effect v v' q.order := by
  obtain ⟨hn, htag⟩ := h.valid.mem_of_next hnext
  obtain ⟨entry, hentry⟩ := h.filed.entry n hn
  rw [htag] at hentry
  have hcount : ¬ v.emptyP = true := by
    intro hempty
    have hzero : v.count = 0 := of_decide_eq_true hempty
    rw [h.count, List.length_eq_zero_iff] at hzero
    rw [hzero] at hn
    cases hn
  have hobject := h.filed.object t entry hentry
  have hpending := h.filed.pending t entry hentry
  have hobjects := h.valid.objects_remove v.tag n
  have hpendings := h.valid.pendings_remove v.tag n
  have hobjects_ne : ∀ t', t' ≠ t → (q.remove n).objects v.tag t' = q.objects v.tag t' := by
    intro t' hne
    rw [hobjects]
    exact List.erase_of_not_mem fun hmem => hne ((Queues.mem_objects.mp hmem).2.1.symm.trans htag)
  have hpendings_ne : ∀ t', t' ≠ t → (q.remove n).pendings v.tag t' = q.pendings v.tag t' := by
    intro t' hne
    rw [hpendings]
    exact List.erase_of_not_mem fun hmem => hne ((Queues.mem_pendings.mp hmem).2.symm.trans htag)
  have horder : ∀ m ∈ (q.remove n).order, v.tag m = t ∨ m ∈ q.order :=
    fun m hm => .inr (List.mem_of_mem_erase hm)
  have hmark : ∀ m ∈ (q.remove n).order, (v.nodes m).toRelease → m ∈ (q.remove n).releasing := by
    intro m hm hmarked
    obtain ⟨hne, hm⟩ := h.valid.order.mem_erase_iff.mp hm
    exact h.valid.releasing.mem_erase_iff.mpr ⟨hne, h.filed.toRelease m hm hmarked⟩
  have hremove : ∀ (entry' : Entry) (pool : ConsPool) (owner₁ : ℕ → Option (Owner τ)),
      pool.Valid owner₁ → entry'.object.Holds owner₁ (.object t) ((q.remove n).objects v.tag t) →
      entry'.pending.Holds owner₁ (.pending t) ((q.remove n).pendings v.tag t) →
      (∀ w, w ≠ .object t → w ≠ .pending t → Keeps owner owner₁ w) →
      ∃ v' owner', ({ v with genericPool := pool }.setEntry t entry').removeNode n = some v' ∧
        Represents v' (q.remove n) freeHooks owner' ∧ Effect v v' q.order := by
    intro entry' pool owner₁ hpool hobject' hpending' hkeeps
    have hlinked : Linked ({ v with genericPool := pool }.setEntry t entry') q.order :=
      h.linked.congr (fun _ _ => rfl) (fun _ _ => rfl) rfl rfl
    have hpooled : Pooled ({ v with genericPool := pool }.setEntry t entry') q.order freeHooks
        owner₁ :=
      h.pooled.keeps hpool rfl rfl (hkeeps _ (by simp) (by simp)) fun _ => hkeeps _ (by simp) (by simp)
    have hfiled : Filed { v with genericPool := pool } q owner :=
      h.filed.congr h.valid (fun _ _ => rfl) h.filed.toRelease rfl (fun _ _ hc => hc)
        (fun _ _ hc => hc)
    have hfiled' : Filed ({ v with genericPool := pool }.setEntry t entry') (q.remove n) owner₁ :=
      hfiled.setEntry hobject' hpending' hobjects_ne hpendings_ne
        (fun t' hne => ⟨hkeeps _ (fun heq => hne (Owner.object.inj heq)) (by simp),
          hkeeps _ (by simp) fun heq => hne (Owner.pending.inj heq)⟩) horder hmark
    obtain ⟨v', owner', hsome, hrep, heffect⟩ := removeNode_spec hlinked hpooled hfiled' h.valid
      h.count hn
    have hsame : Effect v ({ v with genericPool := pool }.setEntry t entry') q.order :=
      effect_of_eq (by rfl) (by rfl) _
    exact ⟨v', owner', hsome, hrep, hsame.trans heffect (fun _ hm => hm) fun _ hm => hm⟩
  rw [Voicer.releaseNode, if_neg hcount, hentry]
  rw [Queues.next] at hnext
  cases hps : q.pendings v.tag t with
  | nil =>
    rw [hps] at hpending hnext
    obtain ⟨rest, hos⟩ := List.head?_eq_some_iff.mp hnext
    rw [hos] at hobject
    obtain ⟨object, pool, c, hremoveLeft, hc, hpool, hobject'⟩ := hobject.removeLeft h.pooled.pool
    have hkeeps : ∀ w, w ≠ .object t → Keeps owner (update owner c none) w := fun w hw =>
      keeps_update (fun heq => hw (Option.some.inj (heq.symm.trans hc))) none
    have hempty : entry.pending.emptyP = true := by rw [hpending.emptyP]; rfl
    simp only [hempty, if_true, hremoveLeft]
    refine hremove _ _ _ hpool ?_ ?_ fun w hw _ => hkeeps w hw
    · rw [hobjects, hos, List.erase_cons_head]
      exact hobject'
    · rw [hpendings, hps]
      exact hpending.keeps (hkeeps _ (by simp))
  | cons m ps =>
    rw [hps] at hpending hnext
    obtain rfl : m = n := Option.some.inj hnext
    obtain ⟨pending, pool, c, hremoveLeft, hc, hpool, hpending'⟩ :=
      hpending.removeLeft h.pooled.pool
    have hkeeps : ∀ w, w ≠ .pending t → Keeps owner (update owner c none) w := fun w hw =>
      keeps_update (fun heq => hw (Option.some.inj (heq.symm.trans hc))) none
    have hempty : ¬ entry.pending.emptyP = true := by rw [hpending.emptyP]; rintro ⟨⟩
    have hnot : m ∉ q.objects v.tag t := by
      intro hmem
      have hm : m ∈ q.pendings v.tag t := hps ▸ List.mem_cons_self
      exact (Queues.mem_objects.mp hmem).2.2 (Queues.mem_pendings.mp hm).1
    simp only [hempty, hremoveLeft]
    refine hremove _ _ _ hpool ?_ ?_ fun w _ hw => hkeeps w hw
    · rw [hobjects, List.erase_of_not_mem hnot]
      exact hobject.keeps (hkeeps _ (by simp))
    · rw [hpendings, hps, List.erase_cons_head]
      exact hpending'

theorem Represents.findLiveNode (position : Position) :
    v.findLiveNode position = some (liveNode (fun n => (v.nodes n).toRelease) q position) := by
  cases position with
  | first =>
    rw [Voicer.findLiveNode, h.linked.first]
    exact h.linked.links.find _ (Nat.le_of_eq h.count.symm)
  | last =>
    have hlast : v.last = q.order.reverse.head? := by rw [h.linked.last, List.head?_reverse]
    have hlength : q.order.reverse.length ≤ v.count := by
      rw [List.length_reverse]
      exact Nat.le_of_eq h.count.symm
    rw [Voicer.findLiveNode, hlast]
    exact h.linked.links.reverse.find _ hlength

theorem Represents.removeObject (hentry : v.objectHash (v.tag n) = some entry) {position : Position}
    (hlive : liveNode (fun n => (v.nodes n).toRelease) q position = some n) (hr : n ∉ q.releasing) :
    ∃ object pool owner₁, v.removeObject entry n position =
        some ({ entry with object := object }, pool) ∧ pool.Valid owner₁ ∧
      object.Holds owner₁ (.object (v.tag n)) ((q.objects v.tag (v.tag n)).erase n) ∧
      ∀ w, w ≠ .object (v.tag n) → Keeps owner owner₁ w := by
  have hobject := h.filed.object _ entry hentry
  by_cases hleft : position = .first ∨ entry.object.left = some n
  · have hhead : (q.objects v.tag (v.tag n)).head? = some n := by
      obtain rfl | hleft := hleft
      · exact Queues.head?_objects h.filed.toRelease hlive hr v.tag
      · rw [← hobject.left, hleft]
    obtain ⟨rest, hos⟩ := List.head?_eq_some_iff.mp hhead
    rw [hos] at hobject ⊢
    obtain ⟨object, pool, c, hremove, hc, hpool, hobject'⟩ := hobject.removeLeft h.pooled.pool
    refine ⟨object, pool, _, by rw [Voicer.removeObject, if_pos hleft, hremove], hpool, ?_,
      fun w hw => keeps_update (fun heq => hw (Option.some.inj (heq.symm.trans hc))) none⟩
    rw [List.erase_cons_head]
    exact hobject'
  · obtain ⟨hlast, hne⟩ := not_or.mp hleft
    have hposition : position = .last := by
      cases position with
      | first => exact absurd rfl hlast
      | last => rfl
    have hright : (q.objects v.tag (v.tag n)).getLast? = some n := by
      rw [hposition] at hlive
      exact Queues.getLast?_objects h.filed.toRelease hlive hr v.tag
    obtain ⟨rest, hos⟩ := List.getLast?_eq_some_iff.mp hright
    have hrest : rest ≠ [] := by
      rintro rfl
      rw [hobject.left, hos] at hne
      exact hne rfl
    have hnot : n ∉ rest := by
      have hnodup := h.valid.nodup_objects v.tag (v.tag n)
      rw [hos] at hnodup
      exact fun hmem => List.disjoint_of_nodup_append hnodup hmem (List.mem_singleton.mpr rfl)
    rw [hos] at hobject ⊢
    obtain ⟨object, hcut, hobject'⟩ := hobject.cutRight hrest
    refine ⟨object, v.genericPool, owner, ?_, h.pooled.pool, ?_, fun _ _ _ hc => hc⟩
    · rw [Voicer.removeObject, if_neg hleft, hcut, Option.map_some]
    · rw [List.erase_append_right _ hnot, List.erase_cons_head, List.append_nil]
      exact hobject'

theorem Represents.stealVoice {position : Position}
    (hr : ∀ n, liveNode (fun n => (v.nodes n).toRelease) q position = some n → n ∉ q.releasing) :
    ∃ v' owner', v.stealVoice position = some v' ∧
      Represents v' (q.releaseOption (liveNode (fun n => (v.nodes n).toRelease) q position)) freeHooks
        owner' ∧ Effect v v' q.order := by
  rw [Voicer.stealVoice, h.findLiveNode, Option.bind_some]
  cases hlive : liveNode (fun n => (v.nodes n).toRelease) q position with
  | none => exact ⟨v, owner, rfl, h, effect_of_eq (by rfl) (by rfl) _⟩
  | some n =>
    have hn := liveNode_mem hlive
    obtain ⟨entry, hentry⟩ := h.filed.entry n hn
    obtain ⟨object, pool, owner₁, hremove, hpool, hobject, hkeeps⟩ :=
      h.removeObject hentry hlive (hr n hlive)
    obtain ⟨v₁, owner', hadd, hrep, hframe⟩ :=
      h.addPending hn (hr n hlive) rfl hentry hpool hobject hkeeps
    have hnodes : v₁.nodes = v.nodes := by rw [hframe]
    have hfreed : v₁.freed = v.freed := by rw [hframe]
    have hmem : n ∈ (q.release n).releasing :=
      List.mem_append_right _ (List.mem_singleton.mpr rfl)
    have hrep' : Represents ((v₁.objectFree (v₁.nodes n).value).setNode n
        { v₁.nodes n with toRelease := true, value := none }) (q.release n) freeHooks owner' :=
      (hrep.settings v₁.polyphony v₁.availableNodes v₁.stealFunction
        (v₁.freed ++ (v₁.nodes n).value.toList)).setNode rfl rfl rfl fun _ _ => hmem
    have heffect : Effect v₁ ((v₁.objectFree (v₁.nodes n).value).setNode n
        { v₁.nodes n with toRelease := true, value := none }) q.order :=
      effect_setNode hn rfl (.inr rfl) fun id hid => Option.mem_toList.mp hid
    refine ⟨_, owner', ?_, hrep',
      (effect_of_eq hnodes hfreed _).trans heffect (fun _ hm => hm) fun _ hm => hm⟩
    have hentry' : v.objectHash (v.nodes n).tag = some entry := hentry
    have hadd' : { v with genericPool := pool }.addPending (v.nodes n).tag
        { entry with object := object } n = some v₁ := hadd
    simp only [Voicer.freeVoiceNode, hentry', hremove, hadd', Option.bind_eq_bind,
      Option.bind_some]

theorem Represents.allocate (t : τ) (dsp : ℕ) :
    ∃ n c v' owner', v.allocate t = some ((n, c), v') ∧ n ∉ q.order ∧
      Represents v' (q.add n) (update freeHooks dsp (some c)) owner' ∧ v'.tag n = t ∧
      (v'.nodes n).value = none ∧ Effect v v' q.order := by
  obtain ⟨n, v₁, owner₁, hpop, hpooled₁, hn, hnot, hlt, hkeeps₁, hframe⟩ := h.pooled.nodePoolPop
  obtain ⟨c, pool, hhook, hnone, hpool⟩ := hpooled₁.pool.popCons (Owner.freeHook dsp)
  have hlast : v₁.last = v.last := by rw [hframe]
  have hprev : (if v₁.last = some n then none else v₁.last) = v₁.last := by
    refine if_neg fun heq => hn (List.mem_of_getLast? ?_)
    rw [← h.linked.last, ← hlast, heq]
  let node : Node τ := ⟨none, t, false, none, v₁.last⟩
  have hself : ({ v₁.setNode n node with genericPool := pool } : Voicer τ).nodes n = node :=
    nodes_setNode_self v₁ n node
  have hother : ∀ m, m ≠ n →
      ({ v₁.setNode n node with genericPool := pool } : Voicer τ).nodes m = v.nodes m := by
    intro m hm
    have hnodes : v₁.nodes = v.nodes := by rw [hframe]
    rw [← hnodes]
    exact nodes_setNode_of_ne hm v₁ node
  have hne : ∀ m ∈ q.order, m ≠ n := fun m hm heq => hn (heq ▸ hm)
  have hfirst : v₁.first = v.first := by rw [hframe]
  have hhash : v₁.objectHash = v.objectHash := by rw [hframe]
  have hcount : v₁.count = v.count := by rw [hframe]
  have hfreed : v₁.freed = v.freed := by rw [hframe]
  have hkeeps : ∀ w, w ≠ .nodePool → Keeps owner (update owner₁ c (some (.freeHook dsp))) w :=
    fun w hw => (hkeeps₁ w hw).trans (keeps_of_none hnone _ w)
  have hlinked : Linked { v₁.setNode n node with genericPool := pool } q.order :=
    h.linked.congr (fun m hm => congrArg Node.next (hother m (hne m hm)))
      (fun m hm => congrArg Node.prev (hother m (hne m hm))) hfirst hlast
  have hpooled : Pooled { v₁.setNode n node with genericPool := pool } q.order
      (update freeHooks dsp (some c)) (update owner₁ c (some (.freeHook dsp))) := by
    have hpooled₂ : Pooled { v₁.setNode n node with genericPool := pool } q.order freeHooks
        (update owner₁ c (some (.freeHook dsp))) :=
      hpooled₁.keeps hpool rfl rfl (keeps_of_none hnone _ _) fun _ => keeps_of_none hnone _ _
    refine ⟨hpooled₂.pool, hpooled₂.conses, hpooled₂.owned, hpooled₂.nodes, hpooled₂.disjoint,
      hpooled₂.lt, hpooled₂.lt', fun k entry hentry => ?_⟩
    obtain rfl | hk := eq_or_ne k dsp
    · rw [update_self] at hentry
      obtain rfl := Option.some.inj hentry
      exact update_self _ _ _
    · rw [update_of_ne hk] at hentry
      exact hpooled₂.freeHooks k entry hentry
  have hfiled : Filed { v₁.setNode n node with genericPool := pool } q
      (update owner₁ c (some (.freeHook dsp))) := by
    refine h.filed.congr h.valid (fun m hm => congrArg Node.tag (hother m (hne m hm)))
      (fun m hm hmarked => ?_) hhash (fun _ => hkeeps _ nofun) (fun _ => hkeeps _ nofun)
    rw [hother m (hne m hm)] at hmarked
    exact h.filed.toRelease m hm hmarked
  obtain ⟨v', owner', hadd, hrep, htag, hvalue, hfreed'⟩ := addNode_spec hlinked hpooled hfiled
    h.valid (hcount.trans h.count) hn hnot hlt (congrArg Node.next hself)
    (congrArg Node.prev hself) (by rw [hself]; exact nofun)
  have htagn : ({ v₁.setNode n node with genericPool := pool } : Voicer τ).tag n = t :=
    congrArg Node.tag hself
  refine ⟨n, c, v', owner', ?_, hn, hrep, (congrFun htag n).trans htagn, ?_, fun m => ?_,
    fun m hm => ?_, [], ?_, fun _ => nofun⟩
  · rw [htagn] at hadd
    simp only [Voicer.allocate, hpop, hprev, Voicer.triggerFunction, Option.bind_eq_bind,
      Option.bind_some]
    have hhook' : (v₁.setNode n node).genericPool.popCons = some (c, pool) := hhook
    rw [hhook', Option.map_some, Option.bind_some, hadd, Option.bind_some]
  · rw [hvalue, hself]
  · rw [hvalue]
    obtain rfl | hm := eq_or_ne m n
    · exact .inr (congrArg Node.value hself)
    · exact .inl (congrArg Node.value (hother m hm))
  · exact (congrFun htag m).trans (congrArg Node.tag (hother m (hne m hm)))
  · rw [hfreed', List.append_nil]
    exact hfreed

theorem Represents.unsafeTrigger (t : τ) (dsp : ℕ)
    (hr : ∀ n, stolen v (fun n => (v.nodes n).toRelease) q = some n → n ∉ q.releasing) :
    (v.refused = true ∧ v.unsafeTrigger t = some (none, v)) ∨
    ∃ n c v' owner', v.refused = false ∧ v.unsafeTrigger t = some (some (n, c), v') ∧ n ∉ q.order ∧
      Represents v' ((q.releaseOption (stolen v (fun n => (v.nodes n).toRelease) q)).add n)
        (update freeHooks dsp (some c)) owner' ∧
      v'.tag n = t ∧ (v'.nodes n).value = none ∧ Effect v v' q.order := by
  rw [Voicer.unsafeTrigger, Voicer.refused]
  rw [stolen] at hr ⊢
  by_cases hfull : v.fullP = true
  · rw [if_pos hfull] at hr ⊢
    rw [if_pos hfull, hfull]
    cases hsteal : v.stealFunction with
    | none => exact .inl ⟨rfl, rfl⟩
    | some position =>
      rw [hsteal, Option.bind_some] at hr
      obtain ⟨v₁, owner₁, hstolen, hrep₁, heffect₁⟩ := h.stealVoice hr
      obtain ⟨n, c, v', owner', hallocate, hn, hrep, htag, hvalue, heffect⟩ :=
        hrep₁.allocate t dsp
      rw [Queues.order_releaseOption] at hn heffect
      refine .inr ⟨n, c, v', owner', rfl, ?_, hn, hrep, htag, hvalue,
        heffect₁.trans heffect (fun _ hm => hm) fun _ hm => hm⟩
      simp only [hstolen, Option.bind_some, hallocate, Option.map_some]
  · obtain ⟨n, c, v', owner', hallocate, hn, hrep, htag, hvalue, heffect⟩ := h.allocate t dsp
    rw [if_neg hfull, if_neg hfull, eq_false_of_ne_true hfull]
    exact .inr ⟨n, c, v', owner', rfl, by rw [hallocate]; rfl, hn, hrep, htag, hvalue, heffect⟩

theorem Represents.setPolyphony (value : ℕ) :
    ∃ owner', Represents (v.setPolyphony value) q freeHooks owner' ∧
      Effect v (v.setPolyphony value) q.order := by
  rw [Voicer.setPolyphony]
  by_cases hlt : v.availableNodes < value
  · rw [if_pos hlt]
    obtain ⟨owner', hpooled, hkeeps⟩ := h.pooled.expand (value - v.availableNodes)
    have hexpanded := hpooled.pool.expand ((value - v.availableNodes) * 3)
    exact ⟨owner', ⟨⟨h.linked.links, h.linked.first, h.linked.last, h.linked.nodup⟩,
      hpooled.keeps hexpanded rfl rfl (fun _ hc => hc) (fun _ _ hc => hc),
      h.filed.congr h.valid (fun _ _ => rfl) h.filed.toRelease rfl (fun _ => hkeeps _)
        (fun _ => hkeeps _), h.valid, h.count⟩, effect_of_eq (by rfl) (by rfl) _⟩
  · rw [if_neg hlt]
    exact ⟨owner, h.settings value v.availableNodes v.stealFunction v.freed,
      effect_of_eq (by rfl) (by rfl) _⟩

theorem Represents.pushFreeHook {dsp c : ℕ} (hdsp : freeHooks dsp = some c) :
    Represents { v with genericPool := v.genericPool.pushCons c } q (update freeHooks dsp none)
      (update owner c none) := by
  have howner := h.pooled.freeHooks dsp c hdsp
  have hkeeps : ∀ w, w ≠ .freeHook dsp → Keeps owner (update owner c none) w := fun w hw =>
    keeps_update (fun heq => hw (Option.some.inj (heq.symm.trans howner))) none
  refine ⟨⟨h.linked.links, h.linked.first, h.linked.last, h.linked.nodup⟩,
    ⟨h.pooled.pool.pushCons howner, h.pooled.conses, fun entry hentry => ?_, h.pooled.nodes,
      h.pooled.disjoint, h.pooled.lt, h.pooled.lt', fun k entry hentry => ?_⟩,
    h.filed.congr h.valid (fun _ _ => rfl) h.filed.toRelease rfl (fun _ => hkeeps _ nofun)
      (fun _ => hkeeps _ nofun), h.valid, h.count⟩
  · exact hkeeps .nodePool nofun _ (h.pooled.owned entry hentry)
  · obtain rfl | hk := eq_or_ne k dsp
    · rw [update_self] at hentry
      cases hentry
    · rw [update_of_ne hk] at hentry
      exact hkeeps (.freeHook k) (fun heq => hk (Owner.freeHook.inj heq)) _
        (h.pooled.freeHooks k entry hentry)

end

end Represents

end Incudine.Voices
