import Mathlib.Data.Nat.Notation
import Mathlib.Logic.Function.Basic
import Mathlib.Tactic.SplitIfs

/-!
# Node hash table

The table of the node objects: an array twice as large as the number of nodes, with linear
probing. The items are the node objects themselves, which carry their identifier, their hash
value and the index of their slot. A slot is empty if its node is null, that is if it has no
identifier.
-/

namespace Incudine.NodeGraph

open Function

inductive NodeError where
  | noMoreNodes
  | noTarget
  | noFreeNodes
  | corrupted
  | beforeRoot
  | afterRoot
  | notGroup (id : Option ℕ)
  | loop (src dest : Option ℕ)
  deriving DecidableEq

/-- A computation that does not return a value: it does not terminate within the given number of
steps, it finds nil where a node or a cons is needed, or it signals an error. -/
inductive Failure where
  | diverges
  | typeError
  | nodeError (e : NodeError)
  deriving DecidableEq

abbrev Result := Except Failure

variable {ι : Type} [DecidableEq ι]

structure NodeTable (ι : Type) where
  intHash : ℕ → ℕ
  size : ℕ
  count : ℕ
  items : ℕ → ι
  id : ι → Option ℕ
  hash : ι → ℕ
  index : ι → ℕ

namespace NodeTable

variable (t : NodeTable ι)

/-- The number of slots is twice the size, which is a power of two. -/
def mask : ℕ := 2 * t.size - 1

def Full : Prop := t.count = t.size

instance : Decidable t.Full := inferInstanceAs (Decidable (_ = _))

def nullNodeP (n : ι) : Bool := (t.id n).isNone

def setId (n : ι) (id : Option ℕ) : NodeTable ι := { t with id := update t.id n id }

def setHash (n : ι) (hash : ℕ) : NodeTable ι := { t with hash := update t.hash n hash }

def setIndex (n : ι) (index : ℕ) : NodeTable ι := { t with index := update t.index n index }

def setItem (index : ℕ) (n : ι) : NodeTable ι := { t with items := update t.items index n }

def incCount : NodeTable ι := { t with count := t.count + 1 }

/-- The first slot from `index` that is empty or has the given hash value and key. -/
def indexForLoop (hashId key : ℕ) : ℕ → ℕ → Result ℕ
  | 0, _ => throw .diverges
  | fuel + 1, index =>
    let item := t.items index
    if t.nullNodeP item ∨ hashId = t.hash item ∧ t.id item = some key then pure index
    else indexForLoop hashId key fuel ((index + 1) &&& t.mask)

def indexFor (hashId key : ℕ) : Result ℕ :=
  t.indexForLoop hashId key (2 * t.size) (hashId &&& t.mask)

/-- The node with the given identifier or the null node of the slot where it can be added, with the
index of the slot. A full table is searched from the beginning. -/
def getihash (id : ℕ) : Result (ι × Option ℕ) :=
  if t.Full then
    match (List.range (2 * t.size)).find? fun i => t.id (t.items i) = some id with
    | some i => pure (t.items i, none)
    | none => throw (.nodeError .noMoreNodes)
  else do
    let index ← t.indexFor (t.intHash id) id
    pure (t.items index, some index)

/-- The items that follow a freed one are moved to the first slot where they are looked for. -/
def fixCollisionsLoop : ℕ → NodeTable ι → ℕ → Result (NodeTable ι)
  | 0, _, _ => throw .diverges
  | fuel + 1, t, oldKey =>
    let item := t.items oldKey
    match t.id item with
    | none => pure t
    | some key => do
      let newKey ← t.indexFor (t.hash item) key
      let t := if oldKey = newKey then t
        else (t.setItem oldKey (t.items newKey)).setItem newKey item
      fixCollisionsLoop fuel t ((oldKey + 1) &&& t.mask)

def fixCollisionsFrom (n : ι) : Result (NodeTable ι) :=
  fixCollisionsLoop (2 * t.size) t ((t.index n + 1) &&& t.mask)

def updatedNode (id : ℕ) : Result (ι × NodeTable ι) := do
  match ← t.getihash id with
  | (_, none) => throw .typeError
  | (n, some index) => pure (n, if t.index n = index then t else t.setIndex n index)

theorem updatedNode_eq {t t' : NodeTable ι} {id : ℕ} {n : ι}
    (h : t.updatedNode id = .ok (n, t')) : ∃ index, t' = { t with index := index } ∧ ¬ t.Full := by
  unfold updatedNode getihash at h
  split_ifs at h with hfull
  · cases hfind : (List.range (2 * t.size)).find? fun i => t.id (t.items i) = some id with
    | none =>
      rw [hfind] at h
      cases h
    | some i =>
      rw [hfind] at h
      cases h
  · cases hindex : t.indexFor (t.intHash id) id with
    | error e =>
      rw [hindex] at h
      cases h
    | ok i =>
      rw [hindex] at h
      cases h
      by_cases hi : t.index (t.items i) = i
      · exact ⟨t.index, by rw [if_pos hi], hfull⟩
      · exact ⟨update t.index (t.items i) i, by rw [if_neg hi]; rfl, hfull⟩

def removeNodeFromHash (n : ι) : NodeTable ι :=
  { t with id := update t.id n none, count := t.count - 1 }

end NodeTable

end Incudine.NodeGraph
