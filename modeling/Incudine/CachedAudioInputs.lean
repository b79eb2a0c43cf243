import Incudine.RingBufferCalls

/-!
# Cached audio inputs

While Lisp is busy, the C thread caches the inputs of each suspended cycle and counts the cycle. The
Lisp thread recovers the cycles. A step of a thread is a whole call on a ring buffer.
-/

namespace Incudine.JackAudio

open ByteRing CircularArray Function

/-- The bytes of the inputs of a cycle for each channel. -/
abbrev Block (channels : ℕ) := Fin channels → List UInt8

inductive CThread (channels : ℕ)
  | idle
  | writing (block : Block channels) (i : ℕ)

/-- The Lisp thread is not in the body of the loop, reads the inputs from the channel `i` on, or
has run the cycle. -/
inductive LispThread
  | idle
  | reading (i : ℕ)
  | ending

structure State (channels : ℕ) where
  /-- `ja_inputs_cache`, the cycle counter apart. -/
  caches : Fin channels → RingBuffer UInt8
  counter : RingBuffer UInt8
  tmpInputs : List UInt8
  lispInput : Block channels
  c : CThread channels
  lisp : LispThread
  /-- The cycles that the C thread has suspended and the ones that Lisp has recovered. -/
  suspended : List (Block channels)
  recovered : List (Block channels)

inductive Action (channels : ℕ)
  /-- `jack_cycle_wait` returns. -/
  | cycleWait (block : Block channels)
  | writeInput
  | incrementCycleCounter
  | hasCachedInputs
  | readInput
  | audioCycle
  | inputsFromCacheEnd

def suspendedCycle : UInt8 := 0

section Step

variable {channels : ℕ} (bufferBytes : ℕ)

/-- One step of `ja_process_thread_with_cached_inputs` or of `recover-suspended-audio-cycles`. -/
def step (s : State channels) : Action channels → Option (State channels)
  | .cycleWait block =>
    match s.c with
    | .idle =>
      if ∀ i, (block i).length = bufferBytes then
        some { s with c := .writing block 0, suspended := s.suspended ++ [block] }
      else none
    | .writing .. => none
  | .writeInput =>
    match s.c with
    | .idle => none
    | .writing block i =>
      if h : i < channels then
        let cache := ((s.caches ⟨i, h⟩).write (block ⟨i, h⟩) (UInt32.ofNat bufferBytes)).1
        some { s with
          caches := update s.caches ⟨i, h⟩ cache
          c := .writing block (i + 1) }
      else none
  | .incrementCycleCounter =>
    match s.c with
    | .idle => none
    | .writing _ i =>
      if i = channels then
        some { s with counter := (s.counter.write [suspendedCycle] 1).1, c := .idle }
      else none
  | .hasCachedInputs =>
    match s.lisp with
    | .idle => if s.counter.readSpace = 0 then none else some { s with lisp := .reading 0 }
    | _ => none
  | .readInput =>
    match s.lisp with
    | .reading i =>
      if h : i < channels then
        let (bytes, cache) := (s.caches ⟨i, h⟩).read (UInt32.ofNat bufferBytes)
        let tmpInputs := bytes ++ s.tmpInputs.drop bytes.length
        some { s with
          caches := update s.caches ⟨i, h⟩ cache
          tmpInputs := tmpInputs
          lispInput := update s.lispInput ⟨i, h⟩ tmpInputs
          lisp := .reading (i + 1) }
      else none
    | _ => none
  | .audioCycle =>
    match s.lisp with
    | .reading i =>
      if i = channels then
        some { s with recovered := s.recovered ++ [s.lispInput], lisp := .ending }
      else none
    | _ => none
  | .inputsFromCacheEnd =>
    match s.lisp with
    | .ending => some { s with counter := (s.counter.read 1).2, lisp := .idle }
    | _ => none

def WholeInputs (s : State channels) : Action channels → Prop
  | .writeInput =>
    match s.c with
    | .idle => True
    | .writing _ i => ∀ h : i < channels, bufferBytes ≤ (s.caches ⟨i, h⟩).writeSpace.toNat
  | _ => True

end Step

def CThread.stored {channels : ℕ} (c : CThread channels) (suspended : ℕ) (i : Fin channels) : ℕ :=
  match c with
  | .idle => suspended
  | .writing _ j => if i < j then suspended else suspended - 1

def CThread.complete {channels : ℕ} (c : CThread channels) (suspended : ℕ) : ℕ :=
  match c with
  | .idle => suspended
  | .writing .. => suspended - 1

def LispThread.taken (lisp : LispThread) (recovered i : ℕ) : ℕ :=
  match lisp with
  | .reading j => if i < j then recovered + 1 else recovered
  | _ => recovered

def LispThread.counted (lisp : LispThread) (recovered : ℕ) : ℕ :=
  match lisp with
  | .ending => recovered - 1
  | _ => recovered

def inputs {channels : ℕ} (cycles : List (Block channels)) (i : Fin channels) : List UInt8 :=
  cycles.flatMap fun block => block i

def CThread.Ready {channels : ℕ} (suspended : List (Block channels)) : CThread channels → Prop
  | .idle => True
  | .writing block i => i ≤ channels ∧ ∃ before, suspended = before ++ [block]

def LispThread.Ready {channels : ℕ} (s : State channels) : LispThread → Prop
  | .idle => True
  | .reading i => i ≤ channels ∧ ∀ k : Fin channels, k < i →
      (s.suspended[s.recovered.length]?).map (fun block => block k) = some (s.lispInput k)
  | .ending => 0 < s.recovered.length

structure Invariant {channels : ℕ} (bufferBytes : ℕ) (s : State channels) : Prop where
  lengths : ∀ block ∈ s.suspended, ∀ i, (block i).length = bufferBytes
  tmpInputs : s.tmpInputs.length = bufferBytes
  c : s.c.Ready s.suspended
  lisp : s.lisp.Ready s
  caches : ∀ i, ∃ size, Holds size (s.caches i)
    (inputs ((s.suspended.take (s.c.stored s.suspended.length i)).drop
      (s.lisp.taken s.recovered.length i)) i)
  counter : ∃ size l, Holds size s.counter l ∧
    l.length + s.lisp.counted s.recovered.length ≤ s.c.complete s.suspended.length ∧
    (s.lisp = .idle ∨ 0 < l.length)
  recovered : s.recovered <+: s.suspended

section Inputs

variable {channels : ℕ} {cycles : List (Block channels)} {i : Fin channels} {r w : ℕ}

theorem inputs_drop (hr : r < w) (hw : w ≤ cycles.length) :
    ∃ h : r < cycles.length, inputs ((cycles.take w).drop r) i =
      cycles[r] i ++ inputs ((cycles.take w).drop (r + 1)) i := by
  have hlength : r < (cycles.take w).length := by
    rw [List.length_take]
    omega
  refine ⟨by omega, ?_⟩
  rw [List.drop_eq_getElem_cons hlength, List.getElem_take, inputs, List.flatMap_cons]
  rfl

theorem inputs_take (hr : r ≤ w) (hw : w < cycles.length) :
    inputs ((cycles.take (w + 1)).drop r) i =
      inputs ((cycles.take w).drop r) i ++ cycles[w] i := by
  have hlength : r ≤ (cycles.take w).length := by
    rw [List.length_take]
    omega
  rw [List.take_add_one, List.getElem?_eq_getElem hw, Option.toList_some,
    List.drop_append_of_le_length hlength, inputs, List.flatMap_append]
  simp only [List.flatMap_singleton]
  rfl

end Inputs

section Steps

variable {channels bufferBytes : ℕ} {s s' : State channels}

section

variable (h : Invariant bufferBytes s)
include h

theorem Invariant.recovered_lt (hlisp : s.lisp ≠ .idle) (hnot : s.lisp ≠ .ending) :
    s.recovered.length < s.c.complete s.suspended.length := by
  obtain ⟨size, l, -, hcount, hpositive⟩ := h.counter
  have hcounted : s.lisp.counted s.recovered.length = s.recovered.length := by
    cases hl : s.lisp with
    | idle | reading => rfl
    | ending => exact absurd hl hnot
  rcases hpositive with hidle | hpositive
  · exact absurd hidle hlisp
  · omega

theorem Invariant.cycleWait {block : Block channels}
    (hstep : step bufferBytes s (.cycleWait block) = some s') : Invariant bufferBytes s' := by
  rcases hc : s.c with _ | ⟨b, j⟩
  · simp only [step, hc] at hstep
    split_ifs at hstep with hlengths
    cases hstep
    have hcomplete : s.c.complete s.suspended.length = s.suspended.length := by rw [hc]; rfl
    have hle : s.recovered.length ≤ s.suspended.length := h.recovered.length_le
    constructor
    · intro b hb
      rcases List.mem_append.mp hb with hb | hb
      · exact h.lengths b hb
      · rw [List.mem_singleton.mp hb]
        exact hlengths
    · exact h.tmpInputs
    · exact ⟨Nat.zero_le _, s.suspended, rfl⟩
    · cases hl : s.lisp with
      | idle => trivial
      | ending =>
        have hready := h.lisp
        rw [hl] at hready
        exact hready
      | reading i =>
        have hready := h.lisp
        have hlt := h.recovered_lt (by rw [hl]; exact LispThread.noConfusion)
          (by rw [hl]; exact LispThread.noConfusion)
        rw [hcomplete] at hlt
        rw [hl] at hready
        refine ⟨hready.1, fun k hk => ?_⟩
        rw [List.getElem?_append_left hlt]
        exact hready.2 k hk
    · intro i
      obtain ⟨size, hholds⟩ := h.caches i
      refine ⟨size, ?_⟩
      have hstored : (CThread.writing block 0).stored (s.suspended ++ [block]).length i =
          s.c.stored s.suspended.length i := by
        rw [hc, List.length_append]
        simp only [CThread.stored, List.length_singleton, Nat.add_sub_cancel, Nat.not_lt_zero,
          if_false]
      have hle' : s.c.stored s.suspended.length i ≤ s.suspended.length := by
        rw [hc]
        exact le_rfl
      rw [hstored, List.take_append_of_le_length hle']
      exact hholds
    · obtain ⟨size, l, hholds, hcount, hpositive⟩ := h.counter
      refine ⟨size, l, hholds, ?_, hpositive⟩
      rw [hcomplete] at hcount
      show _ ≤ (s.suspended ++ [block]).length - 1
      rw [List.length_append, List.length_singleton, Nat.add_sub_cancel]
      exact hcount
    · exact h.recovered.trans (List.prefix_append _ _)
  · simp only [step, hc] at hstep
    cases hstep

theorem Invariant.taken_le (i : Fin channels) :
    s.lisp.taken s.recovered.length i ≤ s.c.complete s.suspended.length := by
  obtain ⟨size, l, -, hcount, hpositive⟩ := h.counter
  cases hl : s.lisp with
  | idle =>
    rw [hl] at hcount
    exact (Nat.le_add_left _ _).trans hcount
  | ending =>
    rw [hl] at hcount hpositive
    have hready := h.lisp
    rw [hl] at hready
    have hlength : 0 < l.length := hpositive.resolve_left LispThread.noConfusion
    have hone : 0 < s.recovered.length := hready
    simp only [LispThread.counted] at hcount
    simp only [LispThread.taken]
    omega
  | reading j =>
    have hlt := h.recovered_lt (by rw [hl]; exact LispThread.noConfusion)
      (by rw [hl]; exact LispThread.noConfusion)
    simp only [LispThread.taken]
    split_ifs <;> omega

theorem Invariant.writeInput (hbytes : bufferBytes < 2 ^ 32)
    (hwhole : WholeInputs bufferBytes s .writeInput)
    (hstep : step bufferBytes s .writeInput = some s') : Invariant bufferBytes s' := by
  rcases hc : s.c with _ | ⟨block, j⟩ <;> simp only [step, hc, reduceCtorEq] at hstep
  split_ifs at hstep with hj
  cases hstep
  have hready := h.c
  rw [hc] at hready
  obtain ⟨-, before, hbefore⟩ := hready
  rw [WholeInputs, hc] at hwhole
  have hroom := hwhole hj
  have hlength : s.suspended.length = before.length + 1 := by
    rw [hbefore, List.length_append, List.length_singleton]
  have hsize : (block ⟨j, hj⟩).length = bufferBytes := by
    apply h.lengths
    rw [hbefore]
    exact List.mem_append_right _ (List.mem_singleton_self block)
  have hword : (block ⟨j, hj⟩).length = (UInt32.ofNat bufferBytes).toNat := by
    rw [hsize, UInt32.toNat_ofNat']
    exact (Nat.mod_eq_of_lt hbytes).symm
  refine ⟨h.lengths, h.tmpInputs, ⟨hj, before, hbefore⟩, h.lisp, ?_, ?_, h.recovered⟩
  · intro i
    obtain ⟨size, hholds⟩ := h.caches i
    refine ⟨size, ?_⟩
    have htaken := h.taken_le i
    rw [hc] at hholds htaken
    simp only [CThread.complete] at htaken
    by_cases hi : i = ⟨j, hj⟩
    · subst hi
      have hold : (CThread.writing block j).stored s.suspended.length ⟨j, hj⟩ =
          before.length := by
        simp only [CThread.stored, Nat.lt_irrefl, if_false, hlength, Nat.add_sub_cancel]
      have hnew : (CThread.writing block (j + 1)).stored s.suspended.length ⟨j, hj⟩ =
          before.length + 1 := by
        simp only [CThread.stored, Nat.lt_succ_self, if_true, hlength]
      have hlast : s.suspended[before.length] = block := by
        simp only [hbefore, List.getElem_append_right le_rfl, Nat.sub_self,
          List.getElem_cons_zero]
      rw [hold] at hholds
      have htaken' : s.lisp.taken s.recovered.length j ≤ before.length := by
        rw [hlength] at htaken
        exact htaken
      have hinputs := @inputs_take _ s.suspended ⟨j, hj⟩ (s.lisp.taken s.recovered.length j)
        before.length htaken' (by omega)
      have hwrite := (hholds.write hword).1
      have hspace := hholds.writeSpace
      have hfits : (block ⟨j, hj⟩).take (size - 1 - (inputs ((s.suspended.take
          before.length).drop (s.lisp.taken s.recovered.length j)) ⟨j, hj⟩).length) =
            block ⟨j, hj⟩ := by
        apply List.take_of_length_le
        rw [hsize, ← hspace]
        exact hroom
      rw [hfits] at hwrite
      show Holds size (update s.caches ⟨j, hj⟩ _ ⟨j, hj⟩) _
      rw [update_self, hnew, hinputs, hlast]
      exact hwrite
    · have hne : (i : ℕ) ≠ j := fun heq => hi (Fin.ext heq)
      have hsame : (CThread.writing block (j + 1)).stored s.suspended.length i =
          (CThread.writing block j).stored s.suspended.length i := by
        simp only [CThread.stored]
        split_ifs <;> omega
      show Holds size (update s.caches ⟨j, hj⟩ _ i) _
      rw [update_of_ne hi, hsame]
      exact hholds
  · have hcount := h.counter
    rw [hc] at hcount
    exact hcount

theorem Invariant.incrementCycleCounter
    (hstep : step bufferBytes s .incrementCycleCounter = some s') : Invariant bufferBytes s' := by
  rcases hc : s.c with _ | ⟨block, j⟩ <;> simp only [step, hc, reduceCtorEq] at hstep
  split_ifs at hstep with hj
  cases hstep
  have hready := h.c
  rw [hc] at hready
  obtain ⟨-, before, hbefore⟩ := hready
  have hlength : s.suspended.length = before.length + 1 := by
    rw [hbefore, List.length_append, List.length_singleton]
  refine ⟨h.lengths, h.tmpInputs, trivial, h.lisp, ?_, ?_, h.recovered⟩
  · intro i
    obtain ⟨size, hholds⟩ := h.caches i
    refine ⟨size, ?_⟩
    have hsame : CThread.idle.stored s.suspended.length i =
        s.c.stored s.suspended.length i := by
      rw [hc]
      simp only [CThread.stored, hj, i.isLt, if_true]
    rw [hsame]
    exact hholds
  · obtain ⟨size, l, hholds, hcount, hpositive⟩ := h.counter
    obtain ⟨hwrite, -⟩ := @Holds.write _ _ _ _ hholds [suspendedCycle] 1 rfl
    refine ⟨size, _, hwrite, ?_, ?_⟩
    · have htake : (([suspendedCycle] : List UInt8).take (size - 1 - l.length)).length ≤ 1 :=
        List.length_take_le' _ _
      rw [hc] at hcount
      simp only [CThread.complete] at hcount ⊢
      rw [List.length_append]
      omega
    · rw [List.length_append]
      exact hpositive.imp_right fun hl => by omega

theorem Invariant.hasCachedInputs (hstep : step bufferBytes s .hasCachedInputs = some s') :
    Invariant bufferBytes s' := by
  rcases hl : s.lisp with _ | _ | _ <;> simp only [step, hl, reduceCtorEq] at hstep
  split_ifs at hstep with hzero
  cases hstep
  have hcaches := h.caches
  have hcounter := h.counter
  rw [hl] at hcaches hcounter
  refine ⟨h.lengths, h.tmpInputs, h.c, ⟨Nat.zero_le _, fun k hk => absurd hk (Nat.not_lt_zero _)⟩,
    ?_, ?_, h.recovered⟩
  · intro i
    simp only [LispThread.taken, Nat.not_lt_zero, if_false] at hcaches ⊢
    exact hcaches i
  · obtain ⟨size, l, hholds, hcount, -⟩ := hcounter
    refine ⟨size, l, hholds, hcount, Or.inr ?_⟩
    rw [← hholds.readSpace]
    exact Nat.pos_of_ne_zero fun heq => hzero (UInt32.toNat_inj.mp heq)

theorem Invariant.readInput (hbytes : bufferBytes < 2 ^ 32)
    (hstep : step bufferBytes s .readInput = some s') : Invariant bufferBytes s' := by
  rcases hl : s.lisp with _ | j | _ <;> simp only [step, hl, reduceCtorEq] at hstep
  split_ifs at hstep with hj
  cases hstep
  have hready := h.lisp
  have hlt := h.recovered_lt (by rw [hl]; exact LispThread.noConfusion)
    (by rw [hl]; exact LispThread.noConfusion)
  rw [hl] at hready
  have hword : (UInt32.ofNat bufferBytes).toNat = bufferBytes := by
    rw [UInt32.toNat_ofNat']
    exact Nat.mod_eq_of_lt hbytes
  have hstored : ∀ i, s.c.complete s.suspended.length ≤ s.c.stored s.suspended.length i ∧
      s.c.stored s.suspended.length i ≤ s.suspended.length := by
    intro i
    rcases hc : s.c with _ | ⟨block, k⟩
    · exact ⟨le_rfl, le_rfl⟩
    · simp only [CThread.complete, CThread.stored]
      split_ifs <;> omega
  obtain ⟨size, hholds⟩ := h.caches ⟨j, hj⟩
  have htaken : s.lisp.taken s.recovered.length j = s.recovered.length := by
    simp only [hl, LispThread.taken, Nat.lt_irrefl, if_false]
  obtain ⟨hle, hle'⟩ := hstored ⟨j, hj⟩
  have hinputs := @inputs_drop _ s.suspended ⟨j, hj⟩ s.recovered.length
    (s.c.stored s.suspended.length ⟨j, hj⟩) (by omega) (by omega)
  obtain ⟨hindex, hinputs⟩ := hinputs
  have hblock : (s.suspended[s.recovered.length] ⟨j, hj⟩).length = bufferBytes :=
    h.lengths _ (List.getElem_mem hindex) _
  rw [htaken, hinputs] at hholds
  have hpeek : (s.caches ⟨j, hj⟩).peek (UInt32.ofNat bufferBytes) =
      s.suspended[s.recovered.length] ⟨j, hj⟩ := by
    rw [hholds.peek, hword, List.take_left' hblock]
  have hread := hholds.read (UInt32.ofNat bufferBytes)
  rw [hword, List.drop_left' hblock] at hread
  have htmp : s.suspended[s.recovered.length] ⟨j, hj⟩ ++ s.tmpInputs.drop bufferBytes =
      s.suspended[s.recovered.length] ⟨j, hj⟩ := by
    rw [List.drop_of_length_le h.tmpInputs.le, List.append_nil]
  simp only [RingBuffer.read, hpeek, hblock, htmp]
  refine ⟨h.lengths, hblock, h.c, ⟨hj, ?_⟩, ?_, ?_, h.recovered⟩
  · intro k hk
    show _ = some (update s.lispInput ⟨j, hj⟩ _ k)
    by_cases hkj : k = ⟨j, hj⟩
    · subst hkj
      rw [update_self, List.getElem?_eq_getElem hindex, Option.map_some]
    · have hne : (k : ℕ) ≠ j := fun heq => hkj (Fin.ext heq)
      rw [update_of_ne hkj]
      exact hready.2 k (by omega)
  · intro i
    by_cases hi : i = ⟨j, hj⟩
    · subst hi
      refine ⟨size, ?_⟩
      have htaken' : (LispThread.reading (j + 1)).taken s.recovered.length j =
          s.recovered.length + 1 := by
        simp only [LispThread.taken, Nat.lt_succ_self, if_true]
      show Holds size (update s.caches ⟨j, hj⟩ _ ⟨j, hj⟩) _
      rw [update_self, htaken']
      exact hread
    · have hne : (i : ℕ) ≠ j := fun heq => hi (Fin.ext heq)
      obtain ⟨size', hholds'⟩ := h.caches i
      refine ⟨size', ?_⟩
      have hsame : (LispThread.reading (j + 1)).taken s.recovered.length i =
          s.lisp.taken s.recovered.length i := by
        simp only [hl, LispThread.taken]
        split_ifs <;> omega
      show Holds size' (update s.caches ⟨j, hj⟩ _ i) _
      rw [update_of_ne hi, hsame]
      exact hholds'
  · obtain ⟨size', l, hcounter, hcount, hpositive⟩ := h.counter
    rw [hl] at hcount hpositive
    exact ⟨size', l, hcounter, hcount, Or.inr (hpositive.resolve_left LispThread.noConfusion)⟩

theorem Invariant.audioCycle (hstep : step bufferBytes s .audioCycle = some s') :
    Invariant bufferBytes s' := by
  rcases hl : s.lisp with _ | j | _ <;> simp only [step, hl, reduceCtorEq] at hstep
  split_ifs at hstep with hj
  cases hstep
  have hready := h.lisp
  have hlt := h.recovered_lt (by rw [hl]; exact LispThread.noConfusion)
    (by rw [hl]; exact LispThread.noConfusion)
  rw [hl] at hready
  have hcomplete : s.c.complete s.suspended.length ≤ s.suspended.length := by
    cases s.c with
    | idle => exact le_rfl
    | writing => exact Nat.sub_le _ _
  have hindex : s.recovered.length < s.suspended.length := by omega
  have hseen : s.lispInput = s.suspended[s.recovered.length] := by
    funext k
    have hk := hready.2 k (by rw [hj]; exact k.isLt)
    rw [List.getElem?_eq_getElem hindex, Option.map_some] at hk
    exact (Option.some.inj hk).symm
  have hlength : (s.recovered ++ [s.lispInput]).length = s.recovered.length + 1 := by
    rw [List.length_append, List.length_singleton]
  refine ⟨h.lengths, h.tmpInputs, h.c, ?_, ?_, ?_, ?_⟩
  · show 0 < (s.recovered ++ [s.lispInput]).length
    omega
  · intro i
    obtain ⟨size, hholds⟩ := h.caches i
    refine ⟨size, ?_⟩
    have hsame : LispThread.ending.taken (s.recovered ++ [s.lispInput]).length i =
        s.lisp.taken s.recovered.length i := by
      simp only [hl, hlength, LispThread.taken, hj, i.isLt, if_true]
    rw [hsame]
    exact hholds
  · obtain ⟨size, l, hholds, hcount, hpositive⟩ := h.counter
    rw [hl] at hcount hpositive
    refine ⟨size, l, hholds, ?_, Or.inr (hpositive.resolve_left LispThread.noConfusion)⟩
    simp only [LispThread.counted, hlength, Nat.add_sub_cancel]
    exact hcount
  · have hstart := List.prefix_iff_eq_take.mp h.recovered
    show s.recovered ++ [s.lispInput] <+: s.suspended
    rw [hstart, hseen, ← List.take_succ_eq_append_getElem hindex]
    exact List.take_prefix _ _

theorem Invariant.inputsFromCacheEnd (hstep : step bufferBytes s .inputsFromCacheEnd = some s') :
    Invariant bufferBytes s' := by
  rcases hl : s.lisp with _ | _ | _ <;> simp only [step, hl, reduceCtorEq] at hstep
  cases hstep
  have hready := h.lisp
  have hcaches := h.caches
  rw [hl] at hready hcaches
  refine ⟨h.lengths, h.tmpInputs, h.c, trivial, hcaches, ?_, h.recovered⟩
  obtain ⟨size, l, hholds, hcount, hpositive⟩ := h.counter
  rw [hl] at hcount hpositive
  have hread := hholds.read 1
  refine ⟨size, _, hread, ?_, Or.inl rfl⟩
  have hone : (1 : UInt32).toNat = 1 := rfl
  have hlength := hpositive.resolve_left LispThread.noConfusion
  have hpositive' : 0 < s.recovered.length := hready
  simp only [LispThread.counted] at hcount ⊢
  rw [List.length_drop, hone]
  omega

end

end Steps

/-- The state after `ja_alloc_input_cache`. -/
structure Initial {channels : ℕ} (bufferBytes : ℕ) (s : State channels) : Prop where
  caches : ∀ i, ∃ memory size, create memory size = some (s.caches i)
  counter : ∃ memory, create memory 32 = some s.counter
  tmpInputs : s.tmpInputs.length = bufferBytes
  c : s.c = .idle
  lisp : s.lisp = .idle
  suspended : s.suspended = []
  recovered : s.recovered = []

def WholeSteps {channels : ℕ} (bufferBytes : ℕ) : State channels → State channels → Prop :=
  Relation.ReflTransGen fun s s' =>
    ∃ a, WholeInputs bufferBytes s a ∧ step bufferBytes s a = some s'

section Runs

variable {channels bufferBytes : ℕ} {s s' : State channels}

theorem Initial.invariant (h : Initial bufferBytes s) : Invariant bufferBytes s where
  lengths := by
    rw [h.suspended]
    exact fun block hblock => absurd hblock List.not_mem_nil
  tmpInputs := h.tmpInputs
  c := by
    rw [h.c]
    trivial
  lisp := by
    rw [h.lisp]
    trivial
  caches := by
    intro i
    obtain ⟨memory, size, hcreate⟩ := h.caches i
    refine ⟨(s.caches i).size.toNat, ?_⟩
    rw [h.suspended, List.take_nil, List.drop_nil]
    exact holds_create hcreate
  counter := by
    obtain ⟨memory, hcreate⟩ := h.counter
    refine ⟨_, [], holds_create hcreate, ?_, Or.inl h.lisp⟩
    rw [h.lisp, h.recovered]
    exact Nat.zero_le _
  recovered := by
    rw [h.recovered]
    exact List.nil_prefix

theorem Invariant.step (h : Invariant bufferBytes s) (hbytes : bufferBytes < 2 ^ 32)
    {a : Action channels} (hwhole : WholeInputs bufferBytes s a)
    (hstep : JackAudio.step bufferBytes s a = some s') : Invariant bufferBytes s' := by
  cases a with
  | cycleWait block => exact h.cycleWait hstep
  | writeInput => exact h.writeInput hbytes hwhole hstep
  | incrementCycleCounter => exact h.incrementCycleCounter hstep
  | hasCachedInputs => exact h.hasCachedInputs hstep
  | readInput => exact h.readInput hbytes hstep
  | audioCycle => exact h.audioCycle hstep
  | inputsFromCacheEnd => exact h.inputsFromCacheEnd hstep

/-- The recovered cycles are the first suspended ones, each with its inputs, if all the inputs
find room in their caches. -/
theorem recovered_prefix_of_run (hbytes : bufferBytes < 2 ^ 32) (h : Initial bufferBytes s)
    (hrun : WholeSteps bufferBytes s s') : s'.recovered <+: s'.suspended := by
  suffices hinv : Invariant bufferBytes s' from hinv.recovered
  induction hrun with
  | refl => exact h.invariant
  | tail _ hstep ih =>
    obtain ⟨a, hwhole, hstep⟩ := hstep
    exact ih.step hbytes hwhole hstep

end Runs

def run {channels : ℕ} (bufferBytes : ℕ) (s : State channels) (actions : List (Action channels)) :
    Option (State channels) :=
  actions.foldlM (step bufferBytes) s

def suspendOne (block : List UInt8) : List (Action 1) :=
  [.cycleWait fun _ => block, .writeInput, .incrementCycleCounter]

def recoverOne : List (Action 1) :=
  [.hasCachedInputs, .readInput, .audioCycle, .inputsFromCacheEnd]

section Partial

variable {bufferBytes size size' : ℕ} {s : State 1} {l n : List UInt8}

theorem run_suspendOne (hc : s.c = .idle) {block : List UInt8} (h : block.length = bufferBytes) :
    run bufferBytes s (suspendOne block) = some { s with
      caches := update s.caches 0
        ((s.caches 0).write block (UInt32.ofNat bufferBytes)).1
      counter := (s.counter.write [suspendedCycle] 1).1
      c := .idle
      suspended := s.suspended ++ [fun _ => block] } := by
  simp [run, suspendOne, step, hc, h]

theorem run_recoverOne (hlisp : s.lisp = .idle) (hcount : s.counter.readSpace ≠ 0)
    {bytes : List UInt8} (hpeek : (s.caches 0).peek (UInt32.ofNat bufferBytes) = bytes) :
    run bufferBytes s recoverOne = some { s with
      caches := update s.caches 0 ((s.caches 0).read (UInt32.ofNat bufferBytes)).2
      counter := (s.counter.read 1).2
      tmpInputs := bytes ++ s.tmpInputs.drop bytes.length
      lispInput := update s.lispInput 0 (bytes ++ s.tmpInputs.drop bytes.length)
      lisp := .idle
      recovered := s.recovered ++
        [update s.lispInput 0 (bytes ++ s.tmpInputs.drop bytes.length)] } := by
  simp [run, recoverOne, step, hlisp, hcount, RingBuffer.read, hpeek]

theorem run_append (s : State 1) (actions actions' : List (Action 1)) :
    run bufferBytes s (actions ++ actions') =
      (run bufferBytes s actions).bind fun s => run bufferBytes s actions' :=
  List.foldlM_append

/-- The bytes in a cache and the suspended cycles in the counter. -/
structure Cached (s : State 1) (size size' : ℕ) (l : List UInt8) (n : ℕ) : Prop where
  c : s.c = .idle
  lisp : s.lisp = .idle
  cache : Holds size (s.caches 0) l
  counter : Holds size' s.counter (List.replicate n suspendedCycle)

theorem Cached.suspend {n : ℕ} (h : Cached s size size' l n) (hbytes : bufferBytes < 2 ^ 32)
    {block : List UInt8} (hblock : block.length = bufferBytes) (hn : n + 1 < size') :
    ∃ s', run bufferBytes s (suspendOne block) = some s' ∧
      Cached s' size size' (l ++ block.take (size - 1 - l.length)) (n + 1) ∧
      s'.suspended = s.suspended ++ [fun _ => block] ∧ s'.recovered = s.recovered ∧
      s'.tmpInputs = s.tmpInputs := by
  have hword : block.length = (UInt32.ofNat bufferBytes).toNat := by
    rw [hblock, UInt32.toNat_ofNat']
    exact (Nat.mod_eq_of_lt hbytes).symm
  refine ⟨_, run_suspendOne h.c hblock, ⟨rfl, h.lisp, ?_, ?_⟩, rfl, rfl, rfl⟩
  · show Holds size (update s.caches 0 _ 0) _
    rw [update_self]
    exact (h.cache.write hword).1
  · have hwrite := (@Holds.write _ _ _ _ h.counter [suspendedCycle] 1 rfl).1
    have hroom : 1 ≤ size' - 1 - (List.replicate n suspendedCycle).length := by
      rw [List.length_replicate]
      omega
    rw [List.take_of_length_le (by rw [List.length_singleton]; exact hroom),
      ← List.replicate_succ'] at hwrite
    exact hwrite

theorem Cached.recover {n : ℕ} (h : Cached s size size' l (n + 1)) (hbytes : bufferBytes < 2 ^ 32) :
    ∃ s', run bufferBytes s recoverOne = some s' ∧
      Cached s' size size' (l.drop bufferBytes) n ∧ s'.suspended = s.suspended ∧
      s'.tmpInputs = l.take bufferBytes ++ s.tmpInputs.drop (l.take bufferBytes).length ∧
      s'.recovered = s.recovered ++ [fun _ => s'.tmpInputs] := by
  have hword : (UInt32.ofNat bufferBytes).toNat = bufferBytes := by
    rw [UInt32.toNat_ofNat']
    exact Nat.mod_eq_of_lt hbytes
  have hpeek : (s.caches 0).peek (UInt32.ofNat bufferBytes) = l.take bufferBytes := by
    rw [h.cache.peek, hword]
  have hcount : s.counter.readSpace ≠ 0 := by
    intro hzero
    have hspace := h.counter.readSpace
    rw [hzero, List.length_replicate] at hspace
    exact absurd hspace (Nat.succ_ne_zero n).symm
  refine ⟨_, run_recoverOne h.lisp hcount hpeek, ⟨h.c, rfl, ?_, ?_⟩, rfl, rfl, ?_⟩
  · show Holds size (update s.caches 0 _ 0) _
    rw [update_self]
    have hread := h.cache.read (UInt32.ofNat bufferBytes)
    rw [hword] at hread
    exact hread
  · exact h.counter.read 1
  · have hinput (tmpInputs : List UInt8) :
        update s.lispInput 0 tmpInputs = fun _ => tmpInputs := by
      funext i
      rw [Subsingleton.elim i 0, update_self]
    exact congrArg (fun input => s.recovered ++ [input]) (hinput _)

def twoCycles (first second : List UInt8) : List (Action 1) :=
  suspendOne first ++ (suspendOne second ++ (recoverOne ++ recoverOne))

theorem run_twoCycles (h : Cached s size size' [] 0) (hsize' : 2 < size')
    (hbytes : bufferBytes < 2 ^ 32) {first second : List UInt8}
    (hfirst : first.length = bufferBytes) (hsecond : second.length = bufferBytes)
    (htmp : s.tmpInputs.length = bufferBytes) (hone : bufferBytes < size)
    (htwo : size ≤ 2 * bufferBytes) :
    ∃ s', run bufferBytes s (twoCycles first second) = some s' ∧
      s'.suspended = s.suspended ++ [fun _ => first, fun _ => second] ∧
      s'.recovered = s.recovered ++ [fun _ => first,
        fun _ => second.take (size - 1 - bufferBytes) ++ first.drop (size - 1 - bufferBytes)] := by
  obtain ⟨s₁, hrun₁, h₁, hsuspended₁, hrecovered₁, htmp₁⟩ := h.suspend hbytes hfirst (by omega)
  rw [List.nil_append, List.length_nil, Nat.sub_zero, List.take_of_length_le (by omega)] at h₁
  obtain ⟨s₂, hrun₂, h₂, hsuspended₂, hrecovered₂, htmp₂⟩ := h₁.suspend hbytes hsecond (by omega)
  rw [hfirst] at h₂
  obtain ⟨s₃, hrun₃, h₃, hsuspended₃, htmp₃, hrecovered₃⟩ := h₂.recover hbytes
  rw [List.take_left' hfirst, hfirst, htmp₂, htmp₁, List.drop_of_length_le htmp.le,
    List.append_nil] at htmp₃
  rw [List.drop_left' hfirst] at h₃
  obtain ⟨s₄, hrun₄, -, hsuspended₄, htmp₄, hrecovered₄⟩ := h₃.recover hbytes
  have hpart : (second.take (size - 1 - bufferBytes)).take bufferBytes =
      second.take (size - 1 - bufferBytes) :=
    List.take_of_length_le (by rw [List.length_take]; omega)
  have hlength : (second.take (size - 1 - bufferBytes)).length = size - 1 - bufferBytes := by
    rw [List.length_take]
    omega
  rw [hpart, hlength, htmp₃] at htmp₄
  refine ⟨s₄, ?_, ?_, ?_⟩
  · rw [twoCycles, run_append, hrun₁, Option.bind_some, run_append, hrun₂, Option.bind_some,
      run_append, hrun₃, Option.bind_some, hrun₄]
  · rw [hsuspended₄, hsuspended₃, hsuspended₂, hsuspended₁, List.append_assoc]
    rfl
  · rw [hrecovered₄, hrecovered₃, hrecovered₂, hrecovered₁, htmp₃, htmp₄, List.append_assoc]
    rfl

end Partial

def oneChannel (bufferBytes : ℕ) : State 1 where
  caches := fun _ => ⟨fun _ => 0, 0, 0, 65536, 65535⟩
  counter := ⟨fun _ => 0, 0, 0, 32, 31⟩
  tmpInputs := List.replicate bufferBytes 0
  lispInput := fun _ => []
  c := .idle
  lisp := .idle
  suspended := []
  recovered := []

theorem oneChannel_initial (bufferBytes : ℕ) : Initial bufferBytes (oneChannel bufferBytes) where
  caches := fun _ => ⟨fun _ => 0, 63360, rfl⟩
  counter := ⟨fun _ => 0, rfl⟩
  tmpInputs := List.length_replicate
  c := rfl
  lisp := rfl
  suspended := rfl
  recovered := rfl

theorem recovered_prefix_of_run_two : ∃ s', WholeSteps 4 (oneChannel 4) s' ∧
    s'.recovered.map (fun block => block 0) = [[1, 2, 3, 4], [5, 6, 7, 8]] ∧
      s'.recovered <+: s'.suspended := by
  have hroom : 4 ≤ ((oneChannel 4).caches 0).writeSpace.toNat := by decide
  have hwait : WholeSteps 4 (oneChannel 4) _ :=
    Relation.ReflTransGen.refl.tail ⟨.cycleWait fun _ => [1, 2, 3, 4], trivial, rfl⟩
  have hwrite := hwait.tail ⟨.writeInput, fun _ => hroom, rfl⟩
  have hcount := hwrite.tail ⟨.incrementCycleCounter, trivial, rfl⟩
  have hbegin := hcount.tail ⟨.hasCachedInputs, trivial, rfl⟩
  have hwait₂ := hbegin.tail ⟨.cycleWait fun _ => [5, 6, 7, 8], trivial, rfl⟩
  have hread := hwait₂.tail ⟨.readInput, trivial, rfl⟩
  have hwrite₂ := hread.tail ⟨.writeInput, by
    change ∀ h : 0 < 1, 4 ≤ _
    decide +kernel, rfl⟩
  have hcycle := hwrite₂.tail ⟨.audioCycle, trivial, rfl⟩
  have hcount₂ := hcycle.tail ⟨.incrementCycleCounter, trivial, rfl⟩
  have hend := hcount₂.tail ⟨.inputsFromCacheEnd, trivial, rfl⟩
  have hbegin₂ := hend.tail ⟨.hasCachedInputs, trivial, rfl⟩
  have hread₂ := hbegin₂.tail ⟨.readInput, trivial, rfl⟩
  have hcycle₂ := hread₂.tail ⟨.audioCycle, trivial, rfl⟩
  exact ⟨_, hcycle₂, rfl, recovered_prefix_of_run (by decide) (oneChannel_initial 4) hcycle₂⟩

theorem not_sublist_of_ne {first second mixed : List UInt8} (h : mixed ≠ second) :
    ¬ ([fun _ => first, fun _ => mixed] : List (Block 1)).Sublist
      [fun _ => first, fun _ => second] := by
  intro hsublist
  have hequal := hsublist.eq_of_length rfl
  exact h (congrFun (List.cons.inj (List.cons.inj hequal).2).1 0)

/-- Two cycles of 8192 frames: the last byte of the second one is a byte of the first one. -/
theorem twoCycles_mixed : ∃ s', run 32768 (oneChannel 32768)
      (twoCycles (List.replicate 32768 0) (List.replicate 32768 1)) = some s' ∧
    ¬ s'.recovered.Sublist s'.suspended := by
  have hcached : Cached (oneChannel 32768) 65536 32 [] 0 := by
    have hcache : create (fun _ => (0 : UInt8)) 63360 = some ⟨fun _ => 0, 0, 0, 65536, 65535⟩ := rfl
    have hcounter : create (fun _ => (0 : UInt8)) 32 = some ⟨fun _ => 0, 0, 0, 32, 31⟩ := rfl
    exact ⟨rfl, rfl, holds_create hcache, holds_create hcounter⟩
  have hlength (byte : UInt8) : (List.replicate 32768 byte).length = 32768 := List.length_replicate
  obtain ⟨s', hrun, hsuspended, hrecovered⟩ := run_twoCycles hcached (by decide) (by decide)
    (hlength 0) (hlength 1) (hlength 0) (by decide) (by decide)
  refine ⟨s', hrun, ?_⟩
  have hmixed : (List.replicate 32768 (1 : UInt8)).take (65536 - 1 - 32768) ++
      (List.replicate 32768 0).drop (65536 - 1 - 32768) ≠ List.replicate 32768 1 := by
    intro hequal
    have hold : (0 : UInt8) ∈ (List.replicate 32768 (1 : UInt8)).take (65536 - 1 - 32768) ++
        (List.replicate 32768 0).drop (65536 - 1 - 32768) := by
      rw [List.drop_replicate]
      exact List.mem_append_right _ (List.mem_replicate.mpr ⟨by decide, rfl⟩)
    rw [hequal] at hold
    exact absurd (List.eq_of_mem_replicate hold) (by decide)
  rw [hsuspended, hrecovered]
  exact not_sublist_of_ne hmixed

end Incudine.JackAudio
