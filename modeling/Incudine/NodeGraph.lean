import Incudine.NodeTable
import Incudine.ThreadedForest
import Mathlib.Data.Fintype.Card

/-!
# Node graph

The tree of the nodes and of the groups, threaded in traversal order, with the list of the
functions to call at every tick. The functions of this file follow the source statement by
statement. They read and write three parts of the state: the links of the tree, the table of the
nodes, and the conses of the function lists. The gain of the nodes, their names, start times,
hooks and controls do not change what the functions do to these parts, and are left out.
-/

namespace Incudine.NodeGraph

open Function ThreadedForest

/-- The function called at every tick for a node: its own function, or the closure of an
envelope segment around it, which calls a done action at the end. -/
inductive TickFunction (ι F : Type) where
  | function (f : F)
  | fadeIn (node : ι)
  | fadeOut (node : ι)
  deriving DecidableEq

/-- The graph. `last` is none for `nil`, `some none` for `:dummy-node`. `funcons` is the address
of a cons in the store `car`, `cdr`, with `conses` the next free address. -/
structure Graph (ι F : Type) where
  root : ι
  links : Links ι
  table : NodeTable ι
  pauseP : ι → Bool
  funcons : ι → Option ℕ
  car : ℕ → TickFunction ι F
  cdr : ℕ → Option ℕ
  conses : ℕ
  function : ι → F
  enableGainP : ι → Bool
  releasePhaseP : ι → Bool
  nodeEnableGainP : Bool
  lastNodeId : ℕ
  lastLargeNodeId : ℕ

inductive AddAction where
  | head
  | tail
  | before
  | after
  deriving DecidableEq

variable {ι F : Type} [DecidableEq ι] [Fintype ι]

def fuel (ι : Type) [Fintype ι] : ℕ := Fintype.card ι + 1

def theNode (n : Option ι) : Result ι :=
  match n with
  | some n => pure n
  | none => throw .typeError

namespace Graph

variable (g : Graph ι F)

def setParent (n : ι) (p : Option ι) : Graph ι F :=
  { g with links := { g.links with parent := update g.links.parent n p } }

def setPrev (n : ι) (p : Option ι) : Graph ι F :=
  { g with links := { g.links with prev := update g.links.prev n p } }

def setNext (n : ι) (p : Option ι) : Graph ι F :=
  { g with links := { g.links with next := update g.links.next n p } }

def setLast (n : ι) (p : Option (Option ι)) : Graph ι F :=
  { g with links := { g.links with last := update g.links.last n p } }

def setPauseP (n : ι) (b : Bool) : Graph ι F := { g with pauseP := update g.pauseP n b }

def setFuncons (n : ι) (c : Option ℕ) : Graph ι F := { g with funcons := update g.funcons n c }

def setTable (t : NodeTable ι) : Graph ι F := { g with table := t }

def setCdr (n : ι) (funcons : Option ℕ) : Result (Graph ι F) :=
  match g.funcons n with
  | some c => pure { g with cdr := update g.cdr c funcons }
  | none => throw .typeError

def setNodeCurrentFunction (n : ι) (fn : TickFunction ι F) : Result (Graph ι F) :=
  match g.funcons n with
  | some c => pure { g with car := update g.car c fn }
  | none => throw .typeError

def nullNodeP (n : ι) : Bool := g.table.nullNodeP n

def groupP (n : ι) : Bool := (g.links.last n).isSome

def lastNodeP (n : ι) : Option ι := (g.links.last n).join

def findLastNodeLoop : ℕ → ι → Result ι
  | 0, _ => throw .diverges
  | fuel + 1, n =>
    match g.lastNodeP n with
    | some last => if g.groupP last then findLastNodeLoop fuel last else pure last
    | none => pure n

def findLastNode (n : ι) : Result ι := g.findLastNodeLoop (fuel ι) n

def pausedParentLoop : ℕ → Option ι → Result (Option ι)
  | _, none => pure none
  | 0, some _ => throw .diverges
  | fuel + 1, some n => if g.pauseP n then pure (some n) else pausedParentLoop fuel (g.links.parent n)

def pausedParent (n : ι) : Result (Option ι) := g.pausedParentLoop (fuel ι) (g.links.parent n)

def pausedNodeP (n : ι) : Result Bool := do
  if g.pauseP n then pure true else pure (← g.pausedParent n).isSome

def unpausedNodePrevLoop : ℕ → ι → Result (Option ι)
  | 0, _ => throw .diverges
  | fuel + 1, n =>
    match g.links.prev n with
    | none => pure none
    | some prev =>
      if g.pauseP prev then unpausedNodePrevLoop fuel prev
      else do
        match ← g.pausedParent prev with
        | some pausedPrev => unpausedNodePrevLoop fuel pausedPrev
        | none => pure (some prev)

def unpausedNodePrev (n : ι) : Result (Option ι) := g.unpausedNodePrevLoop (fuel ι) n

def currentNode (n : ι) : Result ι := if g.pauseP n then g.findLastNode n else pure n

def unpausedNodeNextLoop : ℕ → ι → Result (Option ι)
  | 0, _ => throw .diverges
  | fuel + 1, n =>
    match g.links.next n with
    | none => pure none
    | some next =>
      if g.pauseP next then do unpausedNodeNextLoop fuel (← g.currentNode next)
      else do
        match ← g.pausedParent next with
        | some pausedNext => unpausedNodeNextLoop fuel (← g.currentNode pausedNext)
        | none => pure (some next)

def unpausedNodeNext (n : ι) (rootP : Bool) : Result (Option ι) := do
  g.unpausedNodeNextLoop (fuel ι) (← if rootP then pure n else g.currentNode n)

def updateFuncons (n : ι) (funcons : Option ℕ) : Result (Graph ι F) :=
  if g.groupP n then pure (g.setFuncons n funcons) else g.setCdr n funcons

def previous (n : ι) (pauseP : Bool) : Result (Option ι) :=
  if pauseP then do
    let prev ← theNode (g.links.prev n)
    if (← g.pausedNodeP prev) ∧ prev ≠ g.root then pure (some prev) else pure none
  else g.unpausedNodePrev n

def updatePreviousFunconsLoop (endNode : Option ι) : ℕ → Graph ι F → ι → Bool → Result (Graph ι F)
  | 0, _, _, _ => throw .diverges
  | fuel + 1, g, n, pauseP => do
    match ← g.previous n pauseP with
    | none => pure g
    | some prev =>
      let g ← g.updateFuncons prev (g.funcons n)
      if g.groupP prev ∧ endNode = some prev then pure g
      else updatePreviousFunconsLoop endNode fuel g prev (← g.pausedNodeP prev)

def updatePreviousFuncons (n : ι) (pauseP : Bool) (endNode : Option ι) : Result (Graph ι F) :=
  updatePreviousFunconsLoop endNode (fuel ι) g n pauseP

def updateFunconsFrom (n : ι) (funcons : Option ℕ) (pauseP : Bool) (endNode : Option ι) :
    Result (Graph ι F) := do
  let g ← g.updateFuncons n funcons
  if g.groupP n then g.updatePreviousFuncons n pauseP endNode else pure g

def setNextFuncons (n : ι) (groupP : Bool) (funcons : Option ℕ) : Result (Graph ι F) :=
  if groupP then pure (g.setFuncons n funcons) else g.setCdr n funcons

def updateNextFuncons (n : ι) (groupP pauseP : Bool) : Result (Graph ι F) := do
  if pauseP then
    let next ← theNode (g.links.next n)
    g.setNextFuncons n groupP (g.funcons next)
  else
    match ← g.unpausedNodeNext n false with
    | some next => g.setNextFuncons n groupP (g.funcons next)
    | none => pure g

def nodeNextFuncons (n : ι) : Result (Option ℕ) := do
  match ← g.unpausedNodeNext n false with
  | some next => pure (g.funcons next)
  | none => pure none

def commonSet (group : ι) (id : ℕ) : Graph ι F :=
  let g := g.setTable ((g.table.setId group (some id)).setHash group (g.table.intHash id)).incCount
  (g.setLast group (some none)).setPauseP group false

def makeGroupBefore (group : ι) (id : ℕ) (target : ι) : Result (Option ι × Graph ι F) := do
  if target = g.root then pure (none, g)
  else
    let g := g.commonSet group id
    let g := g.setNext group (some target)
    let g := g.setPrev group (g.links.prev target)
    let g := g.setPrev target (some group)
    let g := g.setNext (← theNode (g.links.prev group)) (some group)
    let g := g.setParent group (g.links.parent target)
    let g := g.setFuncons group (← g.nodeNextFuncons group)
    pure (some group, g)

def makeGroupAfter (group : ι) (id : ℕ) (target : ι) : Result (Option ι × Graph ι F) := do
  if target = g.root then pure (none, g)
  else
    let g := g.commonSet group id
    let g := g.setParent group (g.links.parent target)
    let prev ← g.findLastNode target
    let g := g.setPrev group (some prev)
    let g := g.setNext group (g.links.next prev)
    let g := g.setNext prev (some group)
    let g := g.setFuncons group (← g.nodeNextFuncons group)
    let parent ← theNode (g.links.parent group)
    let g := if g.lastNodeP parent = some target then g.setLast parent (some (some group)) else g
    pure (some group, g)

def makeGroupHead (group : ι) (id : ℕ) (target : ι) : Result (Option ι × Graph ι F) := do
  if g.groupP target then
    let g := g.commonSet group id
    let g := g.setPrev group (some target)
    let g := g.setNext group (g.links.next target)
    let g := g.setNext target (some group)
    let g := g.setParent group (some target)
    let g := match g.links.next group with
      | some next => g.setPrev next (some group)
      | none => g
    let g := if (g.lastNodeP target).isSome then g else g.setLast target (some (some group))
    let g := g.setFuncons group (g.funcons target)
    pure (some group, g)
  else pure (none, g)

def makeGroupTail (group : ι) (id : ℕ) (target : ι) : Result (Option ι × Graph ι F) := do
  if g.groupP target then
    let g := g.commonSet group id
    let last ← g.findLastNode target
    let g := g.setPrev group (some last)
    let g := g.setNext group (g.links.next last)
    let g := g.setNext last (some group)
    let g := g.setLast target (some (some group))
    let g := g.setParent group (some target)
    match g.links.next group with
    | some next =>
      let g := g.setPrev next (some group)
      let g ← g.updateNextFuncons group true (← g.pausedParent target).isSome
      pure (some group, g)
    | none => pure (some group, g)
  else pure (none, g)

def makeGroup (id : ℕ) (addAction : AddAction) (target : ι) : Result (Option ι × Graph ι F) := do
  let (group, table) ← g.table.updatedNode id
  let g := g.setTable table
  if g.nullNodeP group ∧ ¬ g.nullNodeP target then
    match addAction with
    | .before => g.makeGroupBefore group id target
    | .after => g.makeGroupAfter group id target
    | .head => g.makeGroupHead group id target
    | .tail => g.makeGroupTail group id target
  else pure (none, g)

/-- The fade in changes the function called at every tick. -/
def startWithFadeIn (n : ι) : Result (Graph ι F) :=
  if g.nodeEnableGainP ∨ g.enableGainP n then
    if g.nullNodeP n ∨ g.releasePhaseP n then pure g
    else g.setNodeCurrentFunction n (.fadeIn n)
  else pure g

def added (item : ι) : Result (Option ι × Graph ι F) := do
  let g ← (g.setTable g.table.incCount).startWithFadeIn item
  pure (some item, g)

def notAdded (item : ι) : Result (Option ι × Graph ι F) :=
  pure (none, g.setTable (g.table.setId item none))

def addNodeToHead (item target : ι) : Result (Option ι × Graph ι F) := do
  if ¬ g.nullNodeP target ∧ g.groupP target then
    let g := if (g.lastNodeP target).isSome then g else g.setLast target (some (some item))
    let g := g.setNext item (g.links.next target)
    let g := g.setNext target (some item)
    let g := g.setPrev item (some target)
    let g := g.setParent item (some target)
    let g ← match g.links.next item with
      | some next => do
        let g := g.setPrev next (some item)
        match g.funcons target with
        | some c => g.setCdr item (some c)
        | none =>
          if (← g.pausedParent item).isSome ∧ ¬ g.pauseP next then g.setCdr item (g.funcons next)
          else g.setCdr item (← g.nodeNextFuncons item)
      | none => pure g
    let g ← if g.pauseP target then pure g
      else do
        let g := g.setFuncons target (g.funcons item)
        g.updatePreviousFuncons target (← g.pausedParent target).isSome none
    g.added item
  else g.notAdded item

def addNodeToEmptyGroup (item target : ι) : Result (Graph ι F) := do
  let g := g.setNext item (g.links.next target)
  let g := g.setNext target (some item)
  let g := g.setPrev item (some target)
  let g := g.setLast target (some (some item))
  let g ← match g.links.next item with
    | some next =>
      let g := g.setPrev next (some item)
      g.setCdr item ((g.funcons target).or (g.funcons next))
    | none => pure g
  if g.pauseP target then pure g
  else do
    let g := g.setFuncons target (g.funcons item)
    g.updatePreviousFuncons target (← g.pausedParent target).isSome none

def addNodeToTail (item target : ι) : Result (Option ι × Graph ι F) := do
  if ¬ g.nullNodeP target ∧ g.groupP target then
    let last ← g.findLastNode target
    let g := g.setParent item (some target)
    let g ← if (g.lastNodeP target).isSome then do
        let g := g.setPrev item (some last)
        let g := g.setNext item (g.links.next last)
        let g := g.setNext last (some item)
        let g := g.setLast target (some (some item))
        let paused := (← g.pausedParent item).isSome
        let g ← match g.links.next item with
          | some next => (g.setPrev next (some item)).updateNextFuncons item false paused
          | none => pure g
        g.updatePreviousFuncons item paused none
      else g.addNodeToEmptyGroup item target
    g.added item
  else g.notAdded item

def addNodeBefore (item target : ι) : Result (Option ι × Graph ι F) := do
  if ¬ g.nullNodeP target ∧ target ≠ g.root then
    let g := g.setPrev item (g.links.prev target)
    let g := g.setNext item (some target)
    let g := g.setPrev target (some item)
    let g := g.setNext (← theNode (g.links.prev item)) (some item)
    let g := g.setParent item (g.links.parent target)
    let paused := (← g.pausedParent item).isSome
    let g ← if paused ∧ ¬ g.pauseP target then g.setCdr item (g.funcons target)
      else do
        match ← g.unpausedNodeNext item false with
        | some next => g.setCdr item (g.funcons next)
        | none => pure g
    let g ← g.updatePreviousFuncons item paused none
    g.added item
  else g.notAdded item

def addNodeAfter (item target : ι) : Result (Option ι × Graph ι F) := do
  if ¬ g.nullNodeP target then
    let g := g.setParent item (g.links.parent target)
    let prev ← g.findLastNode target
    let g := g.setPrev item (some prev)
    let g := g.setNext item (g.links.next prev)
    let g := g.setNext prev (some item)
    let parent ← theNode (g.links.parent item)
    let g := if g.lastNodeP parent = some target then g.setLast parent (some (some item)) else g
    let paused := (← g.pausedParent item).isSome
    let g ← match g.links.next item with
      | some next => (g.setPrev next (some item)).updateNextFuncons item false paused
      | none => pure g
    let g ← g.updatePreviousFuncons item paused none
    g.added item
  else g.notAdded item

/-- The cons of the node is used again, or allocated if there is none. -/
def initializeNode (item : ι) (perfFn : F) : Graph ι F :=
  let g := g.setPauseP item false
  let g := { g with function := update g.function item perfFn }
  let g := g.setLast item none
  let g := { g with releasePhaseP := update g.releasePhaseP item false }
  match g.funcons item with
  | none =>
    { g with
      funcons := update g.funcons item (some g.conses)
      car := update g.car g.conses (.function perfFn)
      cdr := update g.cdr g.conses none
      conses := g.conses + 1 }
  | some c => { g with car := update g.car c (.function perfFn), cdr := update g.cdr c none }

def maxShortNodeId : ℕ := 0xffff

def updateLastNodeId (id : ℕ) : Graph ι F :=
  if maxShortNodeId < id then { g with lastLargeNodeId := id } else { g with lastNodeId := id }

/-- `node-add` with an action other than `:replace`. The function of the node is the result of
the initialization. -/
def nodeAdd (item : ι) (addAction : AddAction) (target : ι) (id hash : ℕ) (perfFn : F) :
    Result (Option ι × Graph ι F) :=
  if g.table.Full then throw (.nodeError .noMoreNodes)
  else if g.nullNodeP target then throw (.nodeError .noTarget)
  else if g.nullNodeP item then
    let g := g.setTable ((g.table.setHash item hash).setId item (some id))
    let g := (g.updateLastNodeId id).initializeNode item perfFn
    match addAction with
    | .head => g.addNodeToHead item target
    | .tail => g.addNodeToTail item target
    | .before => g.addNodeBefore item target
    | .after => g.addNodeAfter item target
  else pure (none, g)

/-- `play` with an action other than `:replace` and with the given identifier. -/
def play (id : ℕ) (addAction : AddAction) (target : ι) (perfFn : F) :
    Result (Option ι × Graph ι F) := do
  let (item, table) ← g.table.updatedNode id
  (g.setTable table).nodeAdd item addAction target id (g.table.intHash id) perfFn

end Graph

end Incudine.NodeGraph
