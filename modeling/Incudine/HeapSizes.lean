import Incudine.HeapRuns

/-!
# The size of the heaps and the global size

`schedule-at` compares the next free node with a global size, but the vectors belong to the realtime
heap and to the heaps of a pool, which are made and resized at different times. An operation that
reads or writes outside of a vector has no result.
-/

namespace Incudine.HeapSizes

open EdfHeap HeapVector
open FunctionFifo (nextPowerOfTwo)

variable {T F A : Type*} [LinearOrder T] [Zero T] [Inhabited F]

structure Config where
  poolSize : ℕ
  poolGrow : ℕ
  grow_pos : 0 < poolGrow

/-- `rtEdfHeapSize` is the requested size. The heaps of the calls of `with-schedule` in progress
are taken from the pool. -/
structure State (T F A : Type*) where
  heapSize : ℕ
  rtEdfHeapSize : ℕ
  rtHeap : HeapVector T F A
  pool : List (HeapVector T F A)
  taken : List (HeapVector T F A)

def initialHeapSize (rtEdfHeapSize : ℕ) : ℕ :=
  if 0 < rtEdfHeapSize then
    if powerOfTwo rtEdfHeapSize then rtEdfHeapSize else nextPowerOfTwo rtEdfHeapSize
  else 1024

def State.initial (c : Config) (rtEdfHeapSize : ℕ) : State T F A where
  heapSize := initialHeapSize rtEdfHeapSize
  rtEdfHeapSize := rtEdfHeapSize
  rtHeap := makeHeap (initialHeapSize rtEdfHeapSize)
  pool := List.replicate c.poolSize (makeHeap rtEdfHeapSize)
  taken := []

/-- The current heap is the realtime heap or a temporary one. -/
inductive Target where
  | realtime
  | temporary (index : ℕ)

def State.current (s : State T F A) : Target → Option (HeapVector T F A)
  | .realtime => some s.rtHeap
  | .temporary i => s.taken[i]?

def State.setCurrent (s : State T F A) (v : HeapVector T F A) : Target → State T F A
  | .realtime => { s with rtHeap := v }
  | .temporary i => { s with taken := s.taken.set i v }

def State.maybeResizeRtEdfHeap (s : State T F A) : State T F A :=
  let size := nextPowerOfTwo s.rtEdfHeapSize
  { s with
    heapSize :=
      if size = s.rtHeap.data.length then s.heapSize
      else if s.rtHeap.heapCount < size then size
      else s.heapSize
    rtEdfHeapSize := size
    rtHeap := s.rtHeap.maybeResizeEdfHeap s.rtEdfHeapSize }

def State.heapPoolPop (c : Config) (s : State T F A) : State T F A :=
  let pool :=
    if s.pool = [] then List.replicate c.poolGrow (makeHeap s.rtEdfHeapSize) else s.pool
  match pool with
  | [] => s
  | v :: pool => { s with pool := pool, taken := v.setNextNode rootNode :: s.taken }

def State.heapPoolPush (s : State T F A) (i : ℕ) : State T F A :=
  match s.taken[i]? with
  | some v => { s with pool := v :: s.pool, taken := s.taken.eraseIdx i }
  | none => s

inductive Op (T F A : Type*) where
  | setRtEdfHeapSize (size : ℕ)
  | rtStart
  | heapPoolPop
  | heapPoolPush (index : ℕ)
  | scheduleAt (target : Target) (time : T) (function : F) (args : List A)
  | getHeap (target : Target)

/-- One operation, if it stays in bounds. Nothing happens on a heap that is not taken. -/
def step (c : Config) (s : State T F A) : Op T F A → Option (State T F A)
  | .setRtEdfHeapSize size => some { s with rtEdfHeapSize := size }
  | .rtStart => some s.maybeResizeRtEdfHeap
  | .heapPoolPop => some (s.heapPoolPop c)
  | .heapPoolPush i => some (s.heapPoolPush i)
  | .scheduleAt target t f a =>
    match s.current target with
    | some v => (v.scheduleAt s.heapSize t f a).map fun w => s.setCurrent w target
    | none => some s
  | .getHeap target =>
    match s.current target with
    | some v => v.getHeap.map fun p => s.setCurrent p.2 target
    | none => some s

/-- The operation is in bounds, and it refuses an event only if the heap is full. -/
def StepSafe (c : Config) (s : State T F A) (op : Op T F A) : Prop :=
  (step c s op).isSome ∧ ∀ target t f a v, op = .scheduleAt target t f a →
    s.current target = some v → s.heapSize ≤ v.nextNode → v.data.length ≤ v.nextNode

def Safe (c : Config) : State T F A → List (Op T F A) → Prop
  | _, [] => True
  | s, op :: ops => StepSafe c s op ∧ ∀ s', step c s op = some s' → Safe c s' ops

/-- An event is scheduled in a temporary heap only if the next free node is before the end of the
vector and of the global size, or after both. -/
def RoomAgrees (s : State T F A) (op : Op T F A) : Prop :=
  ∀ i t f a v, op = .scheduleAt (.temporary i) t f a → s.taken[i]? = some v →
    (v.nextNode < s.heapSize ↔ v.nextNode < v.data.length)

/-- The condition on the operations of a run. -/
def AlwaysAgrees (c : Config) : State T F A → List (Op T F A) → Prop
  | _, [] => True
  | s, op :: ops => RoomAgrees s op ∧ ∀ s', step c s op = some s' → AlwaysAgrees c s' ops

/-- The global size is the size of the realtime heap. -/
structure Invariant (s : State T F A) : Prop where
  heapSize_eq : s.heapSize = s.rtHeap.data.length
  rtHeap : s.rtHeap.InBounds
  pool : ∀ v ∈ s.pool, v.InBounds
  taken : ∀ v ∈ s.taken, v.InBounds

omit [LinearOrder T] [Zero T] [Inhabited F] in
theorem State.current_inBounds {s : State T F A} (hs : Invariant s) {target : Target}
    {v : HeapVector T F A} (hv : s.current target = some v) : v.InBounds := by
  cases target with
  | realtime =>
    obtain rfl := Option.some.inj hv
    exact hs.rtHeap
  | temporary i => exact hs.taken v (List.mem_of_getElem? hv)

omit [LinearOrder T] [Zero T] [Inhabited F] in
theorem Invariant.setCurrent {s : State T F A} (hs : Invariant s) {target : Target}
    {v w : HeapVector T F A} (hv : s.current target = some v) (hw : w.InBounds)
    (hdata : w.data = v.data) : Invariant (s.setCurrent w target) := by
  cases target with
  | realtime =>
    obtain rfl := Option.some.inj hv
    exact ⟨hs.heapSize_eq.trans (congrArg List.length hdata.symm), hw, hs.pool, hs.taken⟩
  | temporary i =>
    refine ⟨hs.heapSize_eq, hs.rtHeap, hs.pool, fun x hx => ?_⟩
    rcases List.mem_or_eq_of_mem_set hx with hmem | rfl
    · exact hs.taken x hmem
    · exact hw

omit [LinearOrder T] in
theorem Invariant.maybeResizeRtEdfHeap {s : State T F A} (hs : Invariant s) :
    Invariant s.maybeResizeRtEdfHeap := by
  have hsize := hs.heapSize_eq
  have hkept : ∀ heapSize v, heapSize = v.data.length → v.InBounds →
      Invariant { s with
        heapSize := heapSize
        rtEdfHeapSize := nextPowerOfTwo s.rtEdfHeapSize
        rtHeap := v } := fun _ _ hsize hv => ⟨hsize, hv, hs.pool, hs.taken⟩
  unfold State.maybeResizeRtEdfHeap maybeResizeEdfHeap
  dsimp only
  split_ifs with hsame hadmits
  · exact hkept _ _ hsize hs.rtHeap
  · refine hkept _ _ ?_ (resizeHeap_inBounds hs.rtHeap ?_)
    · rw [resizeHeap_length, nextPowerOfTwo_idem]
    · rwa [nextPowerOfTwo_idem]
  · exact hkept _ _ hsize hs.rtHeap

omit [LinearOrder T] in
theorem Invariant.heapPoolPop {s : State T F A} (hs : Invariant s) (c : Config) :
    Invariant (s.heapPoolPop c) := by
  have hpool : ∀ v ∈ (if s.pool = [] then
      List.replicate c.poolGrow (makeHeap s.rtEdfHeapSize) else s.pool), v.InBounds := by
    intro v hv
    split_ifs at hv
    · rw [List.eq_of_mem_replicate hv]
      exact makeHeap_inBounds _
    · exact hs.pool v hv
  unfold State.heapPoolPop
  dsimp only
  split
  · exact hs
  · next v pool heq =>
    rw [heq] at hpool
    have hv := hpool v List.mem_cons_self
    refine ⟨hs.heapSize_eq, hs.rtHeap, fun x hx => hpool x (List.mem_cons_of_mem v hx), ?_⟩
    intro x hx
    rcases List.mem_cons.mp hx with rfl | hx
    · exact ⟨⟨hv.distinct.nodup, hv.distinct.made⟩, le_rfl, hv.pos.trans hv.bounded⟩
    · exact hs.taken x hx

omit [LinearOrder T] [Zero T] [Inhabited F] in
theorem Invariant.heapPoolPush {s : State T F A} (hs : Invariant s) (i : ℕ) :
    Invariant (s.heapPoolPush i) := by
  unfold State.heapPoolPush
  split
  · next v hv =>
    refine ⟨hs.heapSize_eq, hs.rtHeap, fun x hx => ?_, fun x hx => ?_⟩
    · rcases List.mem_cons.mp hx with rfl | hx
      · exact hs.taken x (List.mem_of_getElem? hv)
      · exact hs.pool x hx
    · exact hs.taken x (List.mem_of_mem_eraseIdx hx)
  · exact hs

theorem Invariant.step {c : Config} {s s' : State T F A} {op : Op T F A} (hs : Invariant s)
    (h : step c s op = some s') : Invariant s' := by
  cases op with
  | setRtEdfHeapSize size =>
    obtain rfl := Option.some.inj h
    exact ⟨hs.heapSize_eq, hs.rtHeap, hs.pool, hs.taken⟩
  | rtStart =>
    obtain rfl := Option.some.inj h
    exact hs.maybeResizeRtEdfHeap
  | heapPoolPop =>
    obtain rfl := Option.some.inj h
    exact hs.heapPoolPop c
  | heapPoolPush i =>
    obtain rfl := Option.some.inj h
    exact hs.heapPoolPush i
  | scheduleAt target t f a =>
    simp only [HeapSizes.step] at h
    cases hcurrent : s.current target with
    | none =>
      rw [hcurrent] at h
      obtain rfl := Option.some.inj h
      exact hs
    | some v =>
      rw [hcurrent] at h
      obtain ⟨w, hw, rfl⟩ := Option.map_eq_some_iff.mp h
      have hv := s.current_inBounds hs hcurrent
      have hstep : HeapVector.Step (fun _ => false) v (.scheduleAt s.heapSize t f a) w :=
        .scheduleAt s.heapSize t f a hw
      exact hs.setCurrent hcurrent (hstep.inBounds hv) (scheduleAt_some hv hw).2.data_eq
  | getHeap target =>
    simp only [HeapSizes.step] at h
    cases hcurrent : s.current target with
    | none =>
      rw [hcurrent] at h
      obtain rfl := Option.some.inj h
      exact hs
    | some v =>
      rw [hcurrent] at h
      obtain ⟨⟨n, w⟩, hw, rfl⟩ := Option.map_eq_some_iff.mp h
      have hv := s.current_inBounds hs hcurrent
      have hstep : HeapVector.Step (fun _ => false) v .getHeap w := .getHeap hw
      exact hs.setCurrent hcurrent (hstep.inBounds hv) (getHeap_some hv hw).2.data_eq

theorem scheduleAt_safe_iff {v : HeapVector T F A} (hv : v.InBounds) (heapSize : ℕ) (t : T)
    (f : F) (a : List A) :
    ((v.scheduleAt heapSize t f a).isSome ∧
      (heapSize ≤ v.nextNode → v.data.length ≤ v.nextNode)) ↔
    (v.nextNode < heapSize ↔ v.nextNode < v.data.length) := by
  constructor
  · rintro ⟨hsome, hfull⟩
    obtain ⟨w, hw⟩ := Option.isSome_iff_exists.mp hsome
    refine ⟨(scheduleAt_some hv hw).1, fun hroom => ?_⟩
    by_contra hge
    have := hfull (by omega)
    omega
  · intro hagree
    obtain ⟨w, hw, -⟩ := scheduleAt_eq hv.distinct hagree.mp t f a
    refine ⟨by rw [hw]; rfl, fun hfull => ?_⟩
    by_contra hlt
    have := hagree.mpr (by omega)
    omega

theorem stepSafe_iff (c : Config) {s : State T F A} (hs : Invariant s) (op : Op T F A) :
    StepSafe c s op ↔ RoomAgrees s op := by
  cases op with
  | setRtEdfHeapSize size | rtStart | heapPoolPop | heapPoolPush i =>
    refine iff_of_true ⟨rfl, ?_⟩ ?_
    · exact fun _ _ _ _ _ h => nomatch h
    · exact fun _ _ _ _ _ h => nomatch h
  | getHeap target =>
    refine iff_of_true ⟨?_, fun _ _ _ _ _ h => nomatch h⟩ fun _ _ _ _ _ h => nomatch h
    simp only [HeapSizes.step]
    cases hcurrent : s.current target with
    | none => rfl
    | some v =>
      have hv := s.current_inBounds hs hcurrent
      obtain ⟨w, hw, -⟩ := getHeap_eq hv.distinct hv.bounded
      simp [hw]
  | scheduleAt target t f a =>
    cases hcurrent : s.current target with
    | none =>
      refine iff_of_true ⟨?_, fun target' _ _ _ v h hv => ?_⟩ fun i _ _ _ v h hv => ?_
      · simp only [HeapSizes.step, hcurrent]
        rfl
      · cases h
        rw [hcurrent] at hv
        cases hv
      · cases h
        exact absurd (hcurrent.symm.trans hv) (by simp)
    | some v =>
      have hsafe : StepSafe c s (.scheduleAt target t f a) ↔
          (v.scheduleAt s.heapSize t f a).isSome ∧
            (s.heapSize ≤ v.nextNode → v.data.length ≤ v.nextNode) := by
        refine and_congr ?_ ⟨fun h => h target t f a v rfl hcurrent, fun h => ?_⟩
        · simp [HeapSizes.step, hcurrent]
        · intro target' _ _ _ v' hop hv'
          cases hop
          obtain rfl := Option.some.inj (hcurrent.symm.trans hv')
          exact h
      rw [hsafe, scheduleAt_safe_iff (s.current_inBounds hs hcurrent)]
      cases target with
      | realtime =>
        obtain rfl := Option.some.inj hcurrent
        refine iff_of_true (by rw [hs.heapSize_eq]) fun _ _ _ _ _ h => nomatch h
      | temporary i =>
        refine ⟨fun h j _ _ _ v' hop hv' => ?_, fun h => h i t f a v rfl hcurrent⟩
        cases hop
        obtain rfl := Option.some.inj (hcurrent.symm.trans hv')
        exact h

theorem safe_iff (c : Config) (ops : List (Op T F A)) :
    ∀ {s : State T F A}, Invariant s → (Safe c s ops ↔ AlwaysAgrees c s ops) := by
  induction ops with
  | nil => exact fun _ => Iff.rfl
  | cons op ops ih =>
    intro s hs
    refine and_congr (stepSafe_iff c hs op) (forall_congr' fun s' => ?_)
    exact forall_congr' fun h => ih (hs.step h)

theorem nextPowerOfTwo_initialHeapSize (n : ℕ) :
    nextPowerOfTwo (initialHeapSize n) = initialHeapSize n := by
  unfold initialHeapSize
  split_ifs with hpos hpow
  · have hzero : n &&& (n - 1) = 0 := by simpa [powerOfTwo] using hpow
    obtain ⟨k, rfl⟩ := (Nat.and_sub_one_eq_zero_iff_isPowerOfTwo hpos.ne').mp hzero
    exact nextPowerOfTwo_two_pow k
  · exact nextPowerOfTwo_idem n
  · exact nextPowerOfTwo_two_pow 10

omit [LinearOrder T] in
theorem initial_invariant (c : Config) (rtEdfHeapSize : ℕ) :
    Invariant (State.initial c rtEdfHeapSize : State T F A) where
  heapSize_eq := by
    simp [State.initial, HeapVector.makeHeap, nextPowerOfTwo_initialHeapSize]
  rtHeap := makeHeap_inBounds _
  pool v hv := by
    rw [List.eq_of_mem_replicate hv]
    exact makeHeap_inBounds _
  taken v hv := absurd hv List.not_mem_nil

/-- The operations of a run are in bounds and refuse an event only if the heap is full, if and
only if the events of the temporary heaps are scheduled where the two sizes agree. -/
theorem heap_accesses_safe_iff (c : Config) (rtEdfHeapSize : ℕ) (ops : List (Op T F A)) :
    Safe c (State.initial c rtEdfHeapSize) ops ↔
      AlwaysAgrees c (State.initial c rtEdfHeapSize) ops :=
  safe_iff c ops (initial_invariant c rtEdfHeapSize)

/-- The realtime heap is enlarged. The vector of a heap of the pool ends after the first event,
but the second one is not refused. -/
theorem not_safe_enlarged :
    ¬ Safe ⟨2, 1, Nat.one_pos⟩ (State.initial ⟨2, 1, Nat.one_pos⟩ 2 : State ℕ Unit Unit)
      [.setRtEdfHeapSize 4, .rtStart, .heapPoolPop, .scheduleAt (.temporary 0) 1 () [],
        .scheduleAt (.temporary 0) 2 () []] := by
  rintro ⟨-, hsafe⟩
  obtain ⟨-, hsafe⟩ := hsafe _ rfl
  obtain ⟨-, hsafe⟩ := hsafe _ rfl
  obtain ⟨-, hsafe⟩ := hsafe _ rfl
  obtain ⟨⟨hsome, -⟩, -⟩ := hsafe _ rfl
  exact absurd hsome (by decide)

end Incudine.HeapSizes
