import Incudine.Conses

/-!
# Instances of a DSP

An instance of a DSP is an object of a pool. It keeps one cons for the pool and for the list of the
cached instances, and one cons with the function that recycles it, for the free hook of a node.
-/

namespace Incudine.DspInstance

open Function

/-- The items of the lists. -/
inductive Car
  /-- A function of a hook list given by the user. -/
  | hook (function : ℕ)
  /-- The function of `with-dsp-preamble`, created when the DSP named `name` was defined by
  `function`. -/
  | recycle (dsp name function : ℕ)
  | dsp (d : ℕ)
  deriving DecidableEq

structure Dsp where
  name : ℕ
  realTimeP : Bool
  /-- `pool-ptr` of the included `incudine-object`. -/
  poolPtr : ℕ
  /-- The cons bound to `free-hook-var`. -/
  freeHook : ℕ
  /-- The free function is not the dummy function. -/
  freeFunctionP : Bool

/-- The places that hold a list of conses `dsp-pool-ptr`. -/
inductive Holder
  /-- `cons-pool-data` of `*rt-dsp-instance-pool*` or of `*dsp-instance-pool*`. -/
  | pool (rt : Bool)
  /-- `dsp-properties-rt-instances` or `dsp-properties-nrt-instances`. -/
  | instances (name : ℕ) (rt : Bool)
  /-- The argument of a call of `dealloc-dsp-instances` scheduled by `rt-dsp-free-functions`. -/
  | scheduled (k : ℕ)
  deriving DecidableEq

/-- A node that is not null. The uses of the nodes are numbered. -/
structure Node where
  freeHook : Option ℕ
  use : ℕ

/-- What a node was created with: the functions of `:free-hook` and the one of its instance. -/
structure Use where
  node : ℕ
  dsp : ℕ
  given : List Car
  own : Car

structure Call where
  list : Option ℕ
  /-- The cons whose function has been called last. -/
  last : Option ℕ
  called : List Car

def Call.advance (call : Call) (c : ℕ) (function : Car) : Call :=
  { call with
    last := some c
    called := call.called ++ [function] }

structure State where
  conses : Conses Car
  dsps : ℕ → Dsp
  dspCount : ℕ
  poolSize : Bool → ℕ
  lists : Holder → Option ℕ
  scheduledCount : ℕ
  /-- `symbol-function` of the names. -/
  functions : ℕ → ℕ
  nodes : ℕ → Option Node
  uses : ℕ → Use
  useCount : ℕ
  /-- The calls for each use of a node. -/
  calls : ℕ → Option Call
  /-- The functions called by each call that has returned. -/
  returned : ℕ → Option (List Car)

/-- The thread of an operation and the room left in the EDF heap. -/
structure Context where
  rtThreadP : Bool
  allowRtMemoryPoolP : Bool
  heapFullP : Bool

def Context.allowRtMemoryP (ctx : Context) : Bool := ctx.rtThreadP && ctx.allowRtMemoryPoolP

namespace State

variable (s : State)

/-- The size of a pool after a change of its list. -/
def resize (v : Holder) (f : ℕ → ℕ) : Bool → ℕ :=
  match v with
  | .pool rt => update s.poolSize rt (f (s.poolSize rt))
  | _ => s.poolSize

/-- `(setf (cdr cons) list list cons)`, where the cons is the one of the instance. -/
def push (v : Holder) (d : ℕ) : State :=
  let cons := (s.dsps d).poolPtr
  { s with
    conses := s.conses.setCdr cons (s.lists v)
    lists := update s.lists v (some cons)
    poolSize := s.resize v (· + 1) }

def pop (v : Holder) (cons : ℕ) : State :=
  { s with
    lists := update s.lists v (s.conses.cdr cons)
    poolSize := s.resize v (· - 1) }

def object (c : ℕ) : Option ℕ :=
  match s.conses.car c with
  | .dsp d => some d
  | _ => none

/-- A new object in the pool (`incudine-object-pool-expand-1`). -/
def expand (rt : Bool) : State :=
  let cons := s.conses.next
  { s with
    conses := s.conses.cons (.dsp s.dspCount) (s.lists (.pool rt))
    lists := update s.lists (.pool rt) (some cons)
    dsps := update s.dsps s.dspCount
      { name := 0
        realTimeP := rt
        poolPtr := cons
        freeHook := cons
        freeFunctionP := false }
    dspCount := s.dspCount + 1
    poolSize := update s.poolSize rt (s.poolSize rt + 1) }

def popCons (rt : Bool) : Option (ℕ × State) :=
  let s := if s.poolSize rt = 0 then s.expand rt else s
  match s.lists (.pool rt) with
  | none => none
  | some cons =>
    let s := s.pop (.pool rt) cons
    some (cons, { s with conses := s.conses.setCdr cons none })

def makeDspInstance (rt : Bool) : Option (ℕ × State) := do
  let (cons, s) ← s.popCons rt
  let d ← s.object cons
  return (d, s)

def storeDspInstance (name d : ℕ) : State := s.push (.instances name (s.dsps d).realTimeP) d

def getNextDspInstance (name : ℕ) (rt : Bool) : Option (ℕ × State) := do
  let cons ← s.lists (.instances name rt)
  let d ← s.object cons
  return (d, s.pop (.instances name rt) cons)

def setDummyFunctions (d : ℕ) : State :=
  { s with dsps := update s.dsps d { s.dsps d with freeFunctionP := false } }

def freeDspInstance (d : ℕ) : State :=
  (s.setDummyFunctions d).push (.pool (s.dsps d).realTimeP) d

/-- The loop of `dealloc-dsp-instances`, which has read the cdr of the current cons in advance. The
result is `none` if the loop does not end within `fuel` steps. -/
def deallocDspInstances : ℕ → Option ℕ → Option ℕ → State → Option State
  | _, none, _, s => some s
  | 0, some _, _, _ => none
  | fuel + 1, some curr, old, s => do
    let d ← s.object curr
    let s := s.freeDspInstance d
    deallocDspInstances fuel old (old.bind s.conses.cdr) s

/-- `(dealloc-dsp-instances function list)`. -/
def dealloc (l : Option ℕ) : Option State :=
  deallocDspInstances s.conses.next l (l.bind s.conses.cdr) s

def recycle (d name function : ℕ) : State :=
  if function = s.functions name ∧ (s.dsps d).freeFunctionP then s.storeDspInstance name d
  else s.freeDspInstance d

/-- The call of a function of the free hook. A function of the user has its effects in the next
steps of the run. -/
def funcall : Car → Option State
  | .hook _ => some s
  | .recycle d name function => some (s.recycle d name function)
  | .dsp _ => none

/-- `update-node-hooks` and `update-free-hook`: the cons of the instance follows the last one of the
list that the node received. -/
def updateFreeHook (freeHook : Option ℕ) (hook : ℕ) : Option (Option ℕ × State) :=
  match freeHook with
  | none => some (some hook, s)
  | some l => do
    let conses ← s.conses.list (some l)
    let last ← conses.getLast?
    return (some l, { s with conses := s.conses.setCdr last (some hook) })

def addUse (u : Use) (freeHook : Option ℕ) : State :=
  { s with
    nodes := update s.nodes u.node (some { freeHook := freeHook, use := s.useCount })
    uses := update s.uses s.useCount u
    useCount := s.useCount + 1 }

def startNode (node d : ℕ) (given : List Car) (freeHook : Option ℕ) : Option State := do
  let hook := (s.dsps d).freeHook
  let (freeHook, s) ← s.updateFreeHook freeHook hook
  return s.addUse { node := node, dsp := d, given := given, own := s.conses.car hook } freeHook

def withDspPreamble (name d : ℕ) : State :=
  { s with
    conses := s.conses.cons (.recycle d name (s.functions name)) none
    dsps := update s.dsps d { s.dsps d with
      name := name
      freeHook := s.conses.next
      freeFunctionP := true } }

/-- The body of the function of a DSP for the node and with the list `:free-hook`. -/
def createNode (name node : ℕ) (freeHook : Option ℕ) (ctx : Context) : Option State :=
  match s.nodes node with
  | some _ => some s
  | none => do
    let conses ← s.conses.list freeHook
    let given := conses.map s.conses.car
    match s.getNextDspInstance name ctx.allowRtMemoryP with
    | some (d, s) => s.startNode node d given freeHook
    | none => do
      let (d, s) ← s.makeDspInstance ctx.allowRtMemoryP
      (s.withDspPreamble name d).startNode node d given freeHook

def setCall (use : ℕ) (call : Option Call) : State :=
  { s with calls := update s.calls use call }

def freeNode (node : ℕ) (ctx : Context) : State :=
  match s.nodes node with
  | none => s
  | some n =>
    let s := { s with nodes := update s.nodes node none }
    if ctx.rtThreadP && ctx.heapFullP then s
    else s.setCall n.use (some { list := n.freeHook, last := none, called := [] })

/-- The cons that a call has reached: the cdr is read after the call of the function. -/
def nextHook (call : Call) : Option ℕ :=
  match call.last with
  | none => call.list
  | some c => s.conses.cdr c

def callHook (use : ℕ) : Option State :=
  match s.calls use with
  | none => some s
  | some call =>
    match s.nextHook call with
    | none =>
      let s := s.setCall use none
      some { s with returned := update s.returned use (some call.called) }
    | some c => do
      let s' ← s.funcall (s.conses.car c)
      return s'.setCall use (some (call.advance c (s.conses.car c)))

def freeNrtDspInstances (name : ℕ) : Option State :=
  let l := s.lists (.instances name false)
  { s with lists := update s.lists (.instances name false) none }.dealloc l

def freeRtDspInstances (name : ℕ) (ctx : Context) : Option State :=
  match s.lists (.instances name true) with
  | none => some s
  | some l => do
    let _ ← s.conses.list (some l)
    let s := { s with lists := update s.lists (.instances name true) none }
    if ctx.rtThreadP then
      if ctx.heapFullP then return s
      return { s with
        lists := update s.lists (.scheduled s.scheduledCount) (some l)
        scheduledCount := s.scheduledCount + 1 }
    else s.dealloc (some l)

/-- The call of `dealloc-dsp-instances` after one sample. -/
def runScheduled (k : ℕ) : Option State :=
  { s with lists := update s.lists (.scheduled k) none }.dealloc (s.lists (.scheduled k))

/-- `defun` in the expansion of `dsp!`. -/
def redefine (name : ℕ) : State :=
  { s with functions := update s.functions name (s.functions name + 1) }

def consHook (function : ℕ) (l : Option ℕ) : State :=
  if ∀ c ∈ l, c < s.conses.next then { s with conses := s.conses.cons (.hook function) l } else s

end State

/-- The steps of a run. The expansion of `dsp!` is the steps `freeNrtDspInstances`,
`freeRtDspInstances` and `redefine`, a call of hooks is the steps `callHook` of a use with the
effects of the hooks of the user in between. -/
inductive Event
  | consHook (function : ℕ) (l : Option ℕ)
  | createNode (name node : ℕ) (freeHook : Option ℕ) (ctx : Context)
  | freeNode (node : ℕ) (ctx : Context)
  | callHook (use : ℕ)
  | freeNrtDspInstances (name : ℕ)
  | freeRtDspInstances (name : ℕ) (ctx : Context)
  | runScheduled (k : ℕ)
  | redefine (name : ℕ)

def step (s : State) : Event → Option State
  | .consHook function l => some (s.consHook function l)
  | .createNode name node freeHook ctx => s.createNode name node freeHook ctx
  | .freeNode node ctx => some (s.freeNode node ctx)
  | .callHook use => s.callHook use
  | .freeNrtDspInstances name => s.freeNrtDspInstances name
  | .freeRtDspInstances name ctx => s.freeRtDspInstances name ctx
  | .runScheduled k => s.runScheduled k
  | .redefine name => some (s.redefine name)

def run (s : State) (events : List Event) : Option State := events.foldlM step s

def empty : State where
  conses :=
    { car := fun _ => .hook 0
      cdr := fun _ => none
      next := 0 }
  dsps := fun _ =>
    { name := 0
      realTimeP := false
      poolPtr := 0
      freeHook := 0
      freeFunctionP := false }
  dspCount := 0
  poolSize := fun _ => 0
  lists := fun _ => none
  scheduledCount := 0
  functions := fun _ => 0
  nodes := fun _ => none
  uses := fun _ =>
    { node := 0
      dsp := 0
      given := []
      own := .hook 0 }
  useCount := 0
  calls := fun _ => none
  returned := fun _ => none

/-- The state after the creation of the pools of the given sizes. -/
def initial (rtSize nrtSize : ℕ) : State :=
  (fun s => s.expand false)^[nrtSize] ((fun s => s.expand true)^[rtSize] empty)

end Incudine.DspInstance
