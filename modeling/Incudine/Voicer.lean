import Incudine.DoublyLinked
import Incudine.Pool

/-!
# Voicer

The voices are nodes of a doubly linked list, in the object tlist of their tag or in the pending
tlist after a release. The trigger starts a DSP with an action, that stores its id in the node, and
a free hook, that removes a node of the tag. The argument maps change the arguments only and are
left out.
-/

namespace Incudine.Voices

open DoublyLinked Function Pool

variable {τ : Type} [DecidableEq τ]

structure Node (τ : Type) where
  value : Option ℕ
  tag : τ
  toRelease : Bool
  next : Option ℕ
  prev : Option ℕ

inductive Position where
  | first
  | last
  deriving DecidableEq

/-- The cons in the hash table, with its two tlists. -/
structure Entry where
  cons : ℕ
  object : Tlist ℕ
  pending : Tlist ℕ

/-- `nextNode` is the next node from the global pool and `freed` are the ids passed to the function
that frees the objects. -/
structure Voicer (τ : Type) where
  nodes : ℕ → Node τ
  nodePool : List (ℕ × ℕ)
  nextNode : ℕ
  genericPool : ConsPool
  first : Option ℕ
  last : Option ℕ
  objectHash : τ → Option Entry
  polyphony : ℕ
  availableNodes : ℕ
  count : ℕ
  stealFunction : Option Position
  freed : List ℕ

namespace Voicer

def emptyP (v : Voicer τ) : Bool := v.count = 0

def fullP (v : Voicer τ) : Bool := v.polyphony ≤ v.count

def setNode (v : Voicer τ) (n : ℕ) (node : Node τ) : Voicer τ :=
  { v with nodes := update v.nodes n node }

def setEntry (v : Voicer τ) (tag : τ) (entry : Entry) : Voicer τ :=
  { v with objectHash := update v.objectHash tag (some entry) }

/-- The function that frees the objects ignores a node without value. -/
def objectFree (v : Voicer τ) (value : Option ℕ) : Voicer τ :=
  { v with freed := v.freed ++ value.toList }

def expandLocalNodePool (v : Voicer τ) (delta : ℕ) : Voicer τ :=
  let grow := if 0 < delta then delta else 1
  { v with
    nodePool := (List.range grow).map (fun i => (v.genericPool.next + i, v.nextNode + i)) ++ v.nodePool
    nextNode := v.nextNode + grow
    genericPool := { v.genericPool with next := v.genericPool.next + grow } }

def nodePoolPop (v : Voicer τ) : Option (ℕ × Voicer τ) :=
  let v := if v.nodePool = [] then v.expandLocalNodePool 0 else v
  match v.nodePool with
  | [] => none
  | (entry, value) :: nodePool =>
    some (value, { v with nodePool := nodePool, genericPool := v.genericPool.pushCons entry })

def nodePoolPush (v : Voicer τ) (obj : ℕ) : Option (Voicer τ) :=
  v.genericPool.popCons.map fun (entry, pool) =>
    { v with nodePool := (entry, obj) :: v.nodePool, genericPool := pool }

def setNext (v : Voicer τ) (n : ℕ) (next : Option ℕ) : Voicer τ :=
  v.setNode n { v.nodes n with next := next }

def setPrev (v : Voicer τ) (n : ℕ) (prev : Option ℕ) : Voicer τ :=
  v.setNode n { v.nodes n with prev := prev }

def linkNode (v : Voicer τ) (new : ℕ) : Option (Voicer τ) :=
  let v' := { v with last := some new }
  if v.emptyP then some { v' with first := some new }
  else v.last.map fun last => v'.setNext last (some new)

def addObject (v : Voicer τ) (tag : τ) (new : ℕ) : Option (Voicer τ) :=
  match v.objectHash tag with
  | some entry =>
    (entry.object.addRight new v.genericPool).map fun (object, pool) =>
      { v with genericPool := pool }.setEntry tag { entry with object := object }
  | none => do
    let (object, pool) ← makeTlist (α := ℕ) v.genericPool
    let (cons, pool) ← pool.popCons
    let (pending, pool) ← makeTlist pool
    let (object, pool) ← object.addLeft new pool
    some ({ v with genericPool := pool }.setEntry tag ⟨cons, object, pending⟩)

def addNode (v : Voicer τ) (tag : τ) (new : ℕ) : Option (Voicer τ) := do
  let v ← v.linkNode new
  let v ← v.addObject tag new
  some { v with count := v.count + 1 }

def unlinkNext (v : Voicer τ) (obj : ℕ) : Voicer τ :=
  match (v.nodes obj).prev with
  | some prev => v.setNext prev (v.nodes obj).next
  | none => { v with first := (v.nodes obj).next }

def unlinkPrev (v : Voicer τ) (obj : ℕ) : Voicer τ :=
  match (v.nodes obj).next with
  | some next => v.setPrev next (v.nodes obj).prev
  | none => { v with last := (v.nodes obj).prev }

def removeNode (v : Voicer τ) (obj : ℕ) : Option (Voicer τ) :=
  (((v.unlinkNext obj).unlinkPrev obj).nodePoolPush obj).map fun v => { v with count := v.count - 1 }

def addPending (v : Voicer τ) (tag : τ) (entry : Entry) (obj : ℕ) : Option (Voicer τ) :=
  (entry.pending.addRight obj v.genericPool).map fun (pending, pool) =>
    { v with genericPool := pool }.setEntry tag { entry with pending := pending }

/-- The object of a node is freed if its DSP is started, otherwise the node is marked. -/
def freeOrMark (v : Voicer τ) (obj : ℕ) : Voicer τ :=
  match (v.nodes obj).value with
  | some id => (v.objectFree (some id)).setNode obj { v.nodes obj with value := none }
  | none => v.setNode obj { v.nodes obj with toRelease := true }

/-- The release of a voice, where `checked` tells if the types of the entries of the hash table are
checked. -/
def releaseObject (checked : Bool) (v : Voicer τ) (tag : τ) : Option (Voicer τ) :=
  if v.emptyP then some v
  else
    match v.objectHash tag with
    | none => if checked then none else some v
    | some entry =>
      match entry.object.removeLeft v.genericPool with
      | (none, _, _) => some v
      | (some obj, object, pool) =>
        ({ v with genericPool := pool }.addPending tag { entry with object := object } obj).map
          (freeOrMark · obj)

/-- The removal of a voice of a tag, after the end of its DSP. -/
def releaseNode (v : Voicer τ) (tag : τ) : Option (Voicer τ) :=
  if v.emptyP then some v
  else
    match v.objectHash tag with
    | none => none
    | some entry =>
      if entry.pending.emptyP then
        match entry.object.removeLeft v.genericPool with
        | (none, _, _) => none
        | (some obj, object, pool) =>
          removeNode ({ v with genericPool := pool }.setEntry tag { entry with object := object }) obj
      else
        match entry.pending.removeLeft v.genericPool with
        | (none, _, _) => none
        | (some obj, pending, pool) =>
          removeNode ({ v with genericPool := pool }.setEntry tag { entry with pending := pending })
            obj

def releaseFunctionDefault (checked : Bool) (v : Voicer τ) (tag : τ) (objectFreeP : Bool) :
    Option (Voicer τ) :=
  if objectFreeP then releaseObject checked v tag else v.releaseNode tag

def removeObject (v : Voicer τ) (entry : Entry) (node : ℕ) (position : Position) :
    Option (Entry × ConsPool) :=
  if position = .first ∨ entry.object.left = some node then
    match entry.object.removeLeft v.genericPool with
    | (_, object, pool) => some ({ entry with object := object }, pool)
  else
    entry.object.cutRight.map fun object => ({ entry with object := object }, v.genericPool)

def freeVoiceNode (v : Voicer τ) (node : Option ℕ) (position : Position) : Option (Voicer τ) :=
  match node with
  | none => some v
  | some node => do
    let tag := (v.nodes node).tag
    let entry ← v.objectHash tag
    let (entry, pool) ← v.removeObject entry node position
    let v ← { v with genericPool := pool }.addPending tag entry node
    some ((v.objectFree (v.nodes node).value).setNode node
      { v.nodes node with toRelease := true, value := none })

/-- The links are followed at most once for each node. -/
def findLiveNode (v : Voicer τ) (position : Position) : Option (Option ℕ) :=
  match position with
  | .first => find (fun n => (v.nodes n).toRelease) (fun n => (v.nodes n).next) v.count v.first
  | .last => find (fun n => (v.nodes n).toRelease) (fun n => (v.nodes n).prev) v.count v.last

def stealVoice (v : Voicer τ) (position : Position) : Option (Voicer τ) :=
  (v.findLiveNode position).bind fun node => v.freeVoiceNode node position

def triggerFunction (v : Voicer τ) : Option (ℕ × Voicer τ) :=
  v.genericPool.popCons.map fun (freeHook, pool) => (freeHook, { v with genericPool := pool })

/-- The new node and the cons of the free hook. -/
def allocate (v : Voicer τ) (tag : τ) : Option ((ℕ × ℕ) × Voicer τ) := do
  let (new, v) ← v.nodePoolPop
  let prev := if v.last = some new then none else v.last
  let v := v.setNode new ⟨none, tag, false, none, prev⟩
  let (freeHook, v) ← v.triggerFunction
  let v ← v.addNode tag new
  some ((new, freeHook), v)

/-- The trigger does nothing if the voicer is full and there is not a steal function. -/
def unsafeTrigger (v : Voicer τ) (tag : τ) : Option (Option (ℕ × ℕ) × Voicer τ) :=
  if v.fullP then
    match v.stealFunction with
    | some position =>
      ((v.stealVoice position).bind (allocate · tag)).map fun (new, v) => (some new, v)
    | none => some (none, v)
  else (v.allocate tag).map fun (new, v) => (some new, v)

def setPolyphony (v : Voicer τ) (value : ℕ) : Voicer τ :=
  if v.availableNodes < value then
    let delta := value - v.availableNodes
    let v := v.expandLocalNodePool delta
    { v with
      genericPool := v.genericPool.expand (delta * 3)
      availableNodes := value
      polyphony := value }
  else { v with polyphony := value }

/-- A new voicer, where `nodes` are the nodes of the global pool with any content. -/
def makeVoicer (nodes : ℕ → Node τ) (polyphony : ℕ) (stealFunction : Option Position) : Voicer τ where
  nodes := nodes
  nodePool := (List.range polyphony).map fun i => (i, i)
  nextNode := polyphony
  genericPool := ⟨List.range' polyphony (polyphony * 3), polyphony + polyphony * 3, 12⟩
  first := none
  last := none
  objectHash := fun _ => none
  polyphony := polyphony
  availableNodes := polyphony
  count := 0
  stealFunction := stealFunction
  freed := []

end Voicer

/-- A DSP started by a trigger, where `id` is known after the call of the action. -/
structure Dsp (τ : Type) where
  tag : τ
  node : ℕ
  freeHook : ℕ
  id : Option ℕ
  ended : Bool

structure System (τ : Type) where
  voicer : Voicer τ
  dsps : List (Dsp τ)

inductive Event (τ : Type) where
  | trigger (tag : τ)
  | release (tag : τ)
  | setPolyphony (value : ℕ)
  | setStealVoiceMode (mode : Option Position)
  | action (dsp id : ℕ)
  | freeHook (dsp : ℕ)

namespace System

def trigger (s : System τ) (tag : τ) : Option (System τ) :=
  (s.voicer.unsafeTrigger tag).map fun (new, voicer) =>
    match new with
    | some (node, freeHook) => ⟨voicer, s.dsps ++ [⟨tag, node, freeHook, none, false⟩]⟩
    | none => ⟨voicer, s.dsps⟩

/-- The action of a DSP. A node to release is a very short event. -/
def action (s : System τ) (dsp : ℕ) (id : ℕ) : Option (System τ) :=
  (s.dsps[dsp]?).map fun d =>
    { voicer :=
        if (s.voicer.nodes d.node).toRelease then s.voicer.objectFree (some id)
        else s.voicer.setNode d.node { s.voicer.nodes d.node with value := some id }
      dsps := s.dsps.set dsp { d with id := some id } }

def freeHook (checked : Bool) (s : System τ) (dsp : ℕ) : Option (System τ) :=
  (s.dsps[dsp]?).bind fun d =>
    (Voicer.releaseFunctionDefault checked s.voicer d.tag false).map fun v =>
      { voicer := { v with genericPool := v.genericPool.pushCons d.freeHook }
        dsps := s.dsps.set dsp { d with ended := true } }

/-- The events are performed with the lock of the voicer. There is not a next state if an event
signals an error. -/
def step (checked : Bool) (s : System τ) : Event τ → Option (System τ)
  | .trigger tag => s.trigger tag
  | .release tag =>
    (Voicer.releaseFunctionDefault checked s.voicer tag true).map fun v => { s with voicer := v }
  | .setPolyphony value => some { s with voicer := s.voicer.setPolyphony value }
  | .setStealVoiceMode mode => some { s with voicer := { s.voicer with stealFunction := mode } }
  | .action dsp id => s.action dsp id
  | .freeHook dsp => s.freeHook checked dsp

/-- The action and the free hook of a DSP are called once, in any order. -/
def Enabled (s : System τ) : Event τ → Prop
  | .action dsp _ => ∃ d, s.dsps[dsp]? = some d ∧ d.id = none
  | .freeHook dsp => ∃ d, s.dsps[dsp]? = some d ∧ d.ended = false
  | _ => True

instance (s : System τ) (event : Event τ) : Decidable (s.Enabled event) :=
  match event with
  | .action dsp _ => decidable_of_iff ((s.dsps[dsp]?).any fun d => d.id.isNone)
      (by simp [Enabled, Option.any_eq_true])
  | .freeHook dsp => decidable_of_iff ((s.dsps[dsp]?).any fun d => !d.ended)
      (by simp [Enabled, Option.any_eq_true])
  | .trigger _ => instDecidableTrue
  | .release _ => instDecidableTrue
  | .setPolyphony _ => instDecidableTrue
  | .setStealVoiceMode _ => instDecidableTrue

def perform (checked : Bool) : List (Event τ) → System τ → Option (System τ)
  | [], s => some s
  | event :: events, s =>
    if s.Enabled event then (s.step checked event).bind (perform checked events) else none

end System

end Incudine.Voices
