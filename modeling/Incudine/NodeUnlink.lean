import Incudine.NodeGraph

/-!
# Unlinking of nodes

The functions that take a node or a group out of the graph. The hooks, the names and the levels
of the gain are left out, and the functions called by the hooks with them.
-/

namespace Incudine.NodeGraph

open Function ThreadedForest

variable {ι F : Type} [DecidableEq ι] [Fintype ι]

namespace Graph

variable (g : Graph ι F)

def groupLastLoop (parent : Option ι) : ℕ → Option ι → Option ι → Result (Option ι)
  | _, none, old => pure old
  | 0, some _, _ => throw .diverges
  | fuel + 1, some curr, old =>
    if g.links.parent curr = parent then pure old
    else groupLastLoop parent fuel (g.links.next curr) (some curr)

def groupLast (group : ι) : Result (Option ι) :=
  g.groupLastLoop (g.links.parent group) (fuel ι) (g.links.next group) none

def dogroupLoop (body : Graph ι F → ι → Result (Graph ι F)) (parent : Option ι) :
    ℕ → Graph ι F → Option ι → Result (Graph ι F)
  | _, g, none => pure g
  | 0, _, some _ => throw .diverges
  | fuel + 1, g, some item =>
    if g.links.parent item = parent then pure g
    else do
      let g ← body g item
      let last ← if g.groupP item then g.groupLast item else pure none
      dogroupLoop body parent fuel g (g.links.next (last.getD item))

def dogroup (body : Graph ι F → ι → Result (Graph ι F)) (group : ι) : Result (Graph ι F) :=
  dogroupLoop body (g.links.parent group) (fuel ι) g (g.links.next group)

def removeNodeFromHash (n : ι) : Graph ι F :=
  { g with
    table := g.table.removeNodeFromHash n
    enableGainP := update g.enableGainP n false }

def unlinkNode (n : ι) : Graph ι F := g.removeNodeFromHash n

def unlinkGroupLoop : ℕ → Graph ι F → ι → Result (Graph ι F)
  | 0, _, _ => throw .diverges
  | fuel + 1, g, group => do
    let g ← g.dogroup (fun g item =>
      if g.groupP item then unlinkGroupLoop fuel g item else pure (g.unlinkNode item)) group
    let g := g.setFuncons group none
    if group = g.root then
      pure (((g.setNext group none).setLast group (some none)).setPauseP group false)
    else pure (g.removeNodeFromHash group)

def unlinkGroup (group : ι) : Result (Graph ι F) := unlinkGroupLoop (fuel ι) g group

/-- The function list after `n₂`, where there is a next node. -/
def funconsAfter (n₂ : ι) : Result (Option ℕ) :=
  match g.links.next n₂ with
  | some _ => g.nodeNextFuncons n₂
  | none => pure none

def unlinkPrev (n₁ n₂ : ι) : Result (Graph ι F) := do
  let prev₁ ← theNode (g.links.prev n₁)
  let g := g.setNext prev₁ (g.links.next n₂)
  if g.pauseP n₁ then pure g
  else do
    let prev ← g.unpausedNodePrev n₁
    let g ← match prev with
      | some prev => do g.updateFunconsFrom prev (← g.funconsAfter n₂) false none
      | none => pure g
    if prev = some prev₁ then pure g else g.updateFunconsFrom prev₁ none true none

def unlinkNext (n₁ n₂ : ι) : Graph ι F :=
  match g.links.next n₁ with
  | some next => g.setPrev next (g.links.prev n₂)
  | none => g

def unlinkNeighbors (n : ι) : Result (Graph ι F) := do
  let g ← g.unlinkPrev n n
  pure (g.unlinkNext n n)

def unlinkGroupNeighbors (n : ι) : Result (Graph ι F) := do
  let last ← g.findLastNode n
  if last = n then g.unlinkNeighbors n
  else do
    let g ← g.unlinkPrev n last
    pure (g.unlinkNext last n)

def prevSister (parent : Option ι) : ℕ → Option ι → Result ι
  | 0, _ => throw .diverges
  | fuel + 1, n => do
    let n ← theNode n
    if g.links.parent n = parent then pure n else prevSister parent fuel (g.links.parent n)

def unlinkParent (n : ι) : Result (Graph ι F) := do
  let parent ← theNode (g.links.parent n)
  if g.lastNodeP parent = some n then
    if g.links.next parent = some n then pure (g.setLast parent (some none))
    else do
      let sister ← g.prevSister (some parent) (fuel ι) (g.links.prev n)
      pure (g.setLast parent (some (some sister)))
  else if g.links.next parent = some n then pure (g.setNext parent (g.links.next n))
  else pure g

def removeGroup (n : ι) : Result (Graph ι F) := do
  let g ← g.unlinkGroupNeighbors n
  g.unlinkGroup n

def removeNode (n : ι) : Result (Graph ι F) := do
  let g ← g.unlinkNeighbors n
  pure (g.unlinkNode n)

def nodeFree (n : ι) : Result (Graph ι F) := do
  if n = g.root then
    let g := { g with lastNodeId := 1 }
    if (g.links.next g.root).isSome then g.unlinkGroup n else pure g
  else
    match g.table.id n with
    | none => pure g
    | some id => do
      let g ← (g.updateLastNodeId id).unlinkParent n
      if g.groupP n then g.removeGroup n
      else do
        let g ← g.removeNode n
        let table ← g.table.fixCollisionsFrom n
        pure (g.setTable table)

end Graph

end Incudine.NodeGraph
