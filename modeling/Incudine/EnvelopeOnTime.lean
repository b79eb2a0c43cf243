import Incudine.EnvelopeGenerator

/-!
# The times of the segments

The fraction of a sample that a segment does not use is carried to the next one. A segment is
started at the truncated time of its breakpoint, however many segments precede it.
-/

namespace Incudine

namespace EnvelopeGenerator

variable {K : Type} [Field K] [LinearOrder K] [FloorRing K]

def segmentSamples (g : EnvelopeGenerator K) (timeScale : K) (k : ℕ) : K :=
  g.env.data (k * 3 + 1) * timeScale * g.sampleRate

def breakpoint (g : EnvelopeGenerator K) (timeScale : K) (k : ℕ) : K :=
  ∑ j ∈ Finset.range k, g.segmentSamples timeScale j

/-- The segment after the node `k` is started by the sample that changes `s` into `s'`. -/
def Starts (s s' : State K) (k : ℕ) : Prop :=
  ∃ x, s'.starts = x :: s.starts ∧ x.node = k

/-- Each segment is started once, at the time of its breakpoint, and the end is reached once. -/
structure OnTime (g : EnvelopeGenerator K) (gate timeScale : K)
    (controls : ℕ → List (Control K)) : Prop where
  segments : ∀ k, k + 1 < g.env.points →
    ∃ n, Starts (g.run gate timeScale controls n) (g.run gate timeScale controls (n + 1)) k ∧
      |(n : K) - g.breakpoint timeScale k| < 1
  once : ∀ n, (g.run gate timeScale controls n).starts.length ≤ g.env.points - 1
  done : ∃ n, (g.run gate timeScale controls (n + 1)).values.1 =
      g.env.levelAt (g.env.points - 1) ∧
    ∀ m, (g.run gate timeScale controls m).doneCalls = if n < m then 1 else 0

/-- The variables after the start of `k` segments. -/
structure Placed (g : EnvelopeGenerator K) (timeScale : K) (k : ℕ) (remain : ℤ) (carry : K)
    (s : State K) : Prop where
  gate : s.gate = 1
  oldGate : s.oldGate = 1
  timeScale : s.timeScale = timeScale
  index : s.index = 3 * k
  node : s.currNode = k - 1
  remain : s.remain = remain
  sustain : s.sustain = false
  doneP : s.doneP = false
  doneCalls : s.doneCalls = 0
  carry : s.carry = carry
  starts : s.starts.length = k

section Places

variable {g : EnvelopeGenerator K} {timeScale : K} {k : ℕ} {remain : ℤ} {carry : K} {s : State K}

omit [LinearOrder K] [FloorRing K] in
theorem Placed.setLevel (h : Placed g timeScale k remain carry s) (trig : Bool) (level : K) :
    Placed g timeScale k remain carry { s with gateTrig := trig, level := level } :=
  ⟨h.gate, h.oldGate, h.timeScale, h.index, h.node, h.remain, h.sustain, h.doneP, h.doneCalls,
    h.carry, h.starts⟩

omit [LinearOrder K] [FloorRing K] in
theorem Placed.not_held (h : Placed g timeScale k remain carry s) :
    ¬ (s.doneP = true ∨ s.sustain = true) := by
  rw [h.doneP, h.sustain]
  simp

theorem placed_initial [IsStrictOrderedRing K] (timeScale : K) :
    Placed g timeScale 0 0 0 (g.initial 1 timeScale) := by
  have htrig : decide ((0 : K) < 1) = true := decide_eq_true one_pos
  have hrestart : ¬ (1 : K) ≤ 0 := not_le.mpr one_pos
  have hrelease : ¬ releaseBeforeSustainP (1 : K) false (-1) g.env.releaseNode :=
    fun h => one_ne_zero h.1
  have hneg : (-1 : K) < 1 := by linarith [one_pos (α := K)]
  have hsustain : ¬ ((0 : ℤ) ≤ -1 ∧ toSustainP (1 : K) (-1) g.env.releaseNode) := by omega
  simp only [initial, nextIndex, bindings, updateLevel, begin, htrig, hrestart, and_false, if_false,
    if_true, if_neg hrelease, if_neg hneg.ne', if_neg hneg.not_gt, decide_eq_false hsustain,
    and_self]
  exact ⟨rfl, rfl, rfl, rfl, rfl, rfl, rfl, rfl, rfl, rfl, rfl⟩

theorem applyAll_gate {controls : List (Control K)} (hgate : s.gate = 1) (hold : s.oldGate = 1)
    [IsStrictOrderedRing K] (hcontrols : ∀ c ∈ controls, c = .gate 1) :
    ∃ trig level, g.applyAll s controls = { s with gateTrig := trig, level := level } := by
  induction controls generalizing s with
  | nil => exact ⟨s.gateTrig, s.level, rfl⟩
  | cons c controls ih =>
    have hc : c = .gate 1 := hcontrols c List.mem_cons_self
    have happly : g.apply s c = { s with gateTrig := true, level := s.frame.level } := by
      have htrig : decide ((0 : K) < 1) = true := decide_eq_true one_pos
      rw [hc, apply, updateLevel]
      cases s
      simp only at hgate hold
      subst hgate hold
      simp only [htrig, le_refl, and_self, if_true]
    obtain ⟨trig, level, h⟩ := @ih { s with gateTrig := true, level := s.frame.level } hgate hold
      fun d hd => hcontrols d (List.mem_cons_of_mem c hd)
    refine ⟨trig, level, ?_⟩
    rw [applyAll, List.foldl_cons, happly]
    exact h

theorem Placed.next (h : Placed g timeScale k remain carry s) (hremain : 1 < remain) :
    Placed g timeScale k (if remain = 3 ∧ g.dataSize ≤ 3 * k + 1 then 1 else remain - 1) carry
        (g.sample s) ∧ (g.sample s).frame.stop = s.frame.stop ∧
      (g.sample s).starts = s.starts := by
  have hsample : g.sample s = g.nextPoint s := by
    rw [sample, if_neg h.not_held, if_neg (by rw [h.remain]; omega)]
  rw [hsample]
  refine ⟨⟨h.gate, h.oldGate, h.timeScale, h.index, h.node, ?_, h.sustain, h.doneP, h.doneCalls,
    h.carry, h.starts⟩, ?_, rfl⟩
  · simp only [nextPoint, h.remain, h.index]
  · simp only [nextPoint]
    rw [g.functions.stop_update]

theorem Placed.start (h : Placed g timeScale k remain carry s) (hremain : remain ≤ 1)
    (hw : g.env.WellFormed) (hk : k + 1 < g.env.points) (hrelease : g.env.releaseNode ≠ k) {o : ℤ}
    (ho : o = if k + 2 = g.env.points then 1 else 0) {x : K}
    (hx : x = g.segmentSamples timeScale k + (carry + o * (1 / 2)) + (-o : ℤ)) :
    Placed g timeScale (k + 1) ((max 1 ⌊x⌋).toNat + o) (x - ⌊x⌋) (g.sample s) ∧
      (g.sample s).frame.stop = g.env.levelAt (k + 1) ∧ Starts s (g.sample s) k := by
  have hsize := g.dataSize_eq hw (by omega)
  have hnode : s.currNode + 1 = k := by rw [h.node]; ring
  have hindex : s.index + 1 = 3 * k + 1 := by rw [h.index]
  have hjump : ¬ jumpToLoopNodeP s.gate (s.currNode + 1) g.env.loopNode g.env.releaseNode :=
    fun hjump => hrelease (hjump.2.1.symm.trans hnode)
  have hsustain : ¬ toSustainP s.gate (s.currNode + 1) g.env.releaseNode :=
    fun hsustain => hrelease (hsustain.1.symm.trans hnode)
  have hsample : g.sample s =
      g.startSegment { s with index := s.index + 1, currNode := s.currNode + 1 } := by
    rw [sample, if_neg h.not_held, if_pos (by rw [h.remain]; exact hremain), endSegment]
    simp only [if_neg (by omega : ¬ g.dataSize ≤ s.index + 1), if_neg hjump, if_neg hsustain]
  have hoffset : (3 * (k : ℤ) + 1) / g.lastDurIndex = o := by
    rw [ho, lastDurIndex, hsize]
    split
    · rename_i hlast
      have hself : 3 * (g.env.points : ℤ) - 2 - 3 = 3 * k + 1 := by omega
      rw [hself, Int.ediv_self (by omega)]
    · rename_i hlast
      exact Int.ediv_eq_zero_of_lt (by omega) (by omega)
  have hdur : g.smpRef (3 * k + 1) * s.timeScale * g.sampleRate + (s.carry + o * (1 / 2)) +
      (-o : ℤ) = x := by
    have hplace : (3 * (k : ℤ) + 1).toNat = k * 3 + 1 := by omega
    rw [hx, h.timeScale, h.carry, smpRef, hplace, segmentSamples]
  have hlevel : g.smpRef (3 * k + 1 + 1) = g.env.levelAt (k + 1) := by
    have hplace : (3 * (k : ℤ) + 1 + 1).toNat = k * 3 + 2 := by omega
    rw [smpRef, hplace, Envelope.levelAt, levelIndex_add_one]
  rw [hsample]
  refine ⟨⟨h.gate, h.oldGate, h.timeScale, ?_, ?_, ?_, h.sustain, h.doneP, h.doneCalls, ?_, ?_⟩,
    ?_, ⟨k, some (3 * k + 1), 3 * k + 1 + 1, 3 * k + 1 + 2⟩, ?_, rfl⟩
  · simp only [startSegment, updateDur, hindex]
    push_cast
    ring
  · simp only [startSegment, updateDur, hnode]
    push_cast
    ring
  · simp only [startSegment, updateDur, hindex, hoffset, nextDur, hdur]
  · simp only [startSegment, updateDur, hindex, hoffset, nextDur, hdur]
  · simp only [startSegment, updateDur, List.length_cons, h.starts]
  · simp only [startSegment, updateDur, hindex, hlevel]
    rw [g.functions.stop_init]
  · simp only [startSegment, updateDur, hindex, hnode]

theorem Placed.finish (h : Placed g timeScale k remain carry s) (hremain : remain ≤ 1)
    (hsize : g.dataSize ≤ 3 * k + 1) :
    g.sample s = { s with
      index := s.index + 1
      doneCalls := 1
      doneP := true
      carry := 0
      frame := { s.frame with level := s.frame.stop }
      values := (s.frame.stop, s.pos) } := by
  have hend : g.dataSize ≤ s.index + 1 := by
    rw [h.index]
    exact hsize
  rw [sample, if_neg h.not_held, if_pos (by rw [h.remain]; exact hremain), endSegment]
  simp only [if_pos hend, h.doneCalls, Nat.zero_add]

end Places

section Times

variable [IsStrictOrderedRing K] {g : EnvelopeGenerator K} {timeScale : K}
  {controls : ℕ → List (Control K)} {k n : ℕ} {remain : ℤ} {carry : K}

theorem run_placed (hcontrols : ∀ n, ∀ c ∈ controls n, c = .gate 1)
    (h : Placed g timeScale k remain carry (g.run 1 timeScale controls n)) :
    ∃ s, Placed g timeScale k remain carry s ∧
      s.frame = (g.run 1 timeScale controls n).frame ∧
      s.starts = (g.run 1 timeScale controls n).starts ∧
      g.run 1 timeScale controls (n + 1) = g.sample s := by
  obtain ⟨trig, level, happly⟩ := applyAll_gate (g := g) h.gate h.oldGate (hcontrols n)
  exact ⟨_, h.setLevel trig level, rfl, rfl, by rw [run, happly]⟩

theorem run_wait (hcontrols : ∀ n, ∀ c ∈ controls n, c = .gate 1)
    (hsize : 3 * (k : ℤ) + 1 < g.dataSize)
    (h : Placed g timeScale k remain carry (g.run 1 timeScale controls n)) (m : ℕ)
    (hm : (m : ℤ) < remain) :
    Placed g timeScale k (remain - m) carry (g.run 1 timeScale controls (n + m)) := by
  induction m with
  | zero =>
    rw [Nat.cast_zero, sub_zero]
    exact h
  | succ m ih =>
    push_cast at hm
    obtain ⟨s, hs, -, -, hrun⟩ := run_placed hcontrols (ih (by omega))
    have hnext := (hs.next (by omega)).1
    rw [if_neg (fun hlast => not_le.mpr hsize hlast.2)] at hnext
    rw [← Nat.add_assoc, hrun, Nat.cast_add, Nat.cast_one, ← sub_sub]
    exact hnext

/-- The sample before the start of the segment after the node `k`. -/
structure Arrives (g : EnvelopeGenerator K) (timeScale : K) (controls : ℕ → List (Control K))
    (k n : ℕ) : Prop where
  time : (n : ℤ) = ⌊g.breakpoint timeScale k⌋
  placed : ∃ remain ≤ 1, Placed g timeScale k remain (Int.fract (g.breakpoint timeScale k))
    (g.run 1 timeScale controls n)
  before : ∀ m ≤ n, (g.run 1 timeScale controls m).doneCalls = 0 ∧
    (g.run 1 timeScale controls m).starts.length ≤ k

theorem arrives_zero : Arrives g timeScale controls 0 0 := by
  have hzero : g.breakpoint timeScale 0 = 0 := Finset.sum_range_zero _
  have hplaced : Placed g timeScale 0 0 0 (g.run 1 timeScale controls 0) :=
    placed_initial timeScale
  refine ⟨by rw [hzero, Int.floor_zero, Nat.cast_zero], ⟨0, zero_le_one, ?_⟩, fun m hm => ?_⟩
  · rw [hzero, Int.fract_zero]
    exact hplaced
  · rw [Nat.le_zero.mp hm]
    exact ⟨hplaced.doneCalls, hplaced.starts.le⟩

theorem Arrives.succ (hcontrols : ∀ n, ∀ c ∈ controls n, c = .gate 1) (hw : g.env.WellFormed)
    (h : Arrives g timeScale controls k n) (hk : k + 2 < g.env.points)
    (hrelease : g.env.releaseNode ≠ k) (hlong : 2 ≤ g.segmentSamples timeScale k) :
    ∃ n', Arrives g timeScale controls (k + 1) n' := by
  have hsize : 3 * ((k + 1 : ℕ) : ℤ) + 1 < g.dataSize := by
    rw [g.dataSize_eq hw (by omega)]
    omega
  obtain ⟨remain, hremain, hplaced⟩ := h.placed
  obtain ⟨s, hs, -, -, hrun⟩ := run_placed hcontrols hplaced
  have hbreakpoint : g.breakpoint timeScale (k + 1) =
    g.breakpoint timeScale k + g.segmentSamples timeScale k := Finset.sum_range_succ _ k
  let x := g.breakpoint timeScale (k + 1) - ⌊g.breakpoint timeScale k⌋
  have hx : x = g.segmentSamples timeScale k +
      (Int.fract (g.breakpoint timeScale k) + (0 : ℤ) * (1 / 2)) + (-0 : ℤ) := by
    simp only [x, hbreakpoint, Int.fract]
    push_cast
    ring
  have hfloor : ⌊x⌋ = ⌊g.breakpoint timeScale (k + 1)⌋ - ⌊g.breakpoint timeScale k⌋ :=
    Int.floor_sub_intCast _ _
  have hfract : x - ⌊x⌋ = Int.fract (g.breakpoint timeScale (k + 1)) := by
    rw [hfloor, Int.fract]
    push_cast
    ring
  have htwo : 2 ≤ ⌊x⌋ := by
    have hnonneg := Int.fract_nonneg (g.breakpoint timeScale k)
    rw [Int.le_floor, hx]
    push_cast
    linarith
  obtain ⟨hstart, -, -⟩ := hs.start hremain hw (by omega) hrelease (if_neg (by omega)).symm hx
  have hdur : ((max 1 ⌊x⌋).toNat : ℤ) + 0 = ⌊x⌋ := by omega
  rw [hdur, hfract, ← hrun] at hstart
  have hwait := run_wait hcontrols hsize hstart
  have hlast := hwait (⌊x⌋.toNat - 1) (by omega)
  refine ⟨n + 1 + (⌊x⌋.toNat - 1), ?_, ⟨_, ?_, hlast⟩, fun m hm => ?_⟩
  · have htime := h.time
    omega
  · omega
  · rcases Nat.lt_or_ge n m with hlt | hle
    · have hm' := hwait (m - (n + 1)) (by omega)
      have hsum : n + 1 + (m - (n + 1)) = m := by omega
      rw [hsum] at hm'
      exact ⟨hm'.doneCalls, hm'.starts.le⟩
    · obtain ⟨hdone, hstarts⟩ := h.before m hle
      exact ⟨hdone, hstarts.trans (Nat.le_succ k)⟩

/-- The variables after the end. -/
structure Finished (g : EnvelopeGenerator K) (s : State K) : Prop where
  gate : s.gate = 1
  oldGate : s.oldGate = 1
  doneP : s.doneP = true
  doneCalls : s.doneCalls = 1
  starts : s.starts.length = g.env.points - 1

section

variable (hcontrols : ∀ n, ∀ c ∈ controls n, c = .gate 1)
include hcontrols

theorem Finished.run (h : Finished g (g.run 1 timeScale controls n)) (m : ℕ) :
    Finished g (g.run 1 timeScale controls (n + m)) := by
  induction m with
  | zero => exact h
  | succ m ih =>
    obtain ⟨trig, level, happly⟩ :=
      applyAll_gate (g := g) ih.gate ih.oldGate (hcontrols (n + m))
    rw [← Nat.add_assoc, EnvelopeGenerator.run, happly, sample, if_pos (Or.inl ih.doneP)]
    exact ⟨ih.gate, ih.oldGate, ih.doneP, ih.doneCalls, ih.starts⟩

theorem run_last (hw : g.env.WellFormed) (hpoints : 2 ≤ g.env.points) (r n : ℕ) {remain : ℤ}
    (hr : remain ≤ r + 1)
    (h : Placed g timeScale (g.env.points - 1) remain carry (g.run 1 timeScale controls n)) :
    ∃ d ≥ n, (∀ m, n ≤ m → m ≤ d → (g.run 1 timeScale controls m).doneCalls = 0 ∧
        (g.run 1 timeScale controls m).starts.length ≤ g.env.points - 1) ∧
      Finished g (g.run 1 timeScale controls (d + 1)) ∧
      (g.run 1 timeScale controls (d + 1)).values.1 =
        (g.run 1 timeScale controls n).frame.stop := by
  have hsize : g.dataSize ≤ 3 * ((g.env.points - 1 : ℕ) : ℤ) + 1 := by
    rw [g.dataSize_eq hw hpoints]
    omega
  induction r generalizing n remain with
  | zero =>
    obtain ⟨s, hs, hframe, -, hrun⟩ := run_placed hcontrols h
    rw [hs.finish (by omega) hsize] at hrun
    refine ⟨n, le_rfl, fun m hnm hmn => ?_, ?_, ?_⟩
    · rw [Nat.le_antisymm hmn hnm]
      exact ⟨h.doneCalls, h.starts.le⟩
    · rw [hrun]
      exact ⟨hs.gate, hs.oldGate, rfl, rfl, hs.starts⟩
    · rw [hrun, ← hframe]
  | succ r ih =>
    by_cases hone : remain ≤ r + 1
    · exact ih n hone h
    · obtain ⟨s, hs, hframe, -, hrun⟩ := run_placed hcontrols h
      obtain ⟨hnext, hstop, -⟩ := hs.next (by omega)
      rw [← hrun] at hnext hstop
      obtain ⟨d, hd, hbefore, hfinished, hvalue⟩ :=
        ih (n + 1) (by split <;> push_cast at hr ⊢ <;> omega) hnext
      refine ⟨d, Nat.le_of_succ_le hd, fun m hnm hmd => ?_, hfinished, ?_⟩
      · rcases hnm.lt_or_eq with hlt | rfl
        · exact hbefore m hlt hmd
        · exact ⟨h.doneCalls, h.starts.le⟩
      · rw [hvalue, hstop, hframe]

theorem Arrives.starts (hw : g.env.WellFormed) (h : Arrives g timeScale controls k n)
    (hk : k + 1 < g.env.points) (hrelease : g.env.releaseNode ≠ k) :
    Starts (g.run 1 timeScale controls n) (g.run 1 timeScale controls (n + 1)) k ∧
      |(n : K) - g.breakpoint timeScale k| < 1 := by
  obtain ⟨remain, hremain, hplaced⟩ := h.placed
  obtain ⟨s, hs, -, hlist, hrun⟩ := run_placed hcontrols hplaced
  obtain ⟨-, -, x, hx, hnode⟩ := hs.start hremain hw hk hrelease rfl rfl
  refine ⟨⟨x, by rw [hrun, hx, hlist], hnode⟩, ?_⟩
  have htime : (n : K) = ⌊g.breakpoint timeScale k⌋ := by
    rw [← h.time, Int.cast_natCast]
  have hnonneg := Int.fract_nonneg (g.breakpoint timeScale k)
  have hlt := Int.fract_lt_one (g.breakpoint timeScale k)
  rw [Int.fract] at hnonneg hlt
  rw [htime, abs_lt]
  constructor <;> linarith

theorem Arrives.finish (hw : g.env.WellFormed) (hpoints : 2 ≤ g.env.points)
    (h : Arrives g timeScale controls (g.env.points - 2) n)
    (hrelease : g.env.releaseNode ≠ (g.env.points - 2 : ℕ)) :
    ∃ d, (∀ m ≤ d, (g.run 1 timeScale controls m).doneCalls = 0 ∧
        (g.run 1 timeScale controls m).starts.length ≤ g.env.points - 1) ∧
      (∀ m, d < m → Finished g (g.run 1 timeScale controls m)) ∧
      (g.run 1 timeScale controls (d + 1)).values.1 = g.env.levelAt (g.env.points - 1) := by
  obtain ⟨remain, hremain, hplaced⟩ := h.placed
  obtain ⟨s, hs, -, -, hrun⟩ := run_placed hcontrols hplaced
  have hlast : g.env.points - 2 + 1 = g.env.points - 1 := by omega
  obtain ⟨hstart, hstop, -⟩ := hs.start hremain hw (by omega) hrelease
    (if_pos (by omega)).symm rfl
  rw [← hrun, hlast] at hstart hstop
  obtain ⟨d, hd, hbefore, hfinished, hvalue⟩ :=
    run_last hcontrols hw hpoints _ (n + 1) le_rfl hstart
  refine ⟨d, fun m hm => ?_, fun m hm => ?_, hvalue.trans hstop⟩
  · rcases Nat.lt_or_ge n m with hlt | hle
    · exact hbefore m hlt hm
    · obtain ⟨hdone, hstarts⟩ := h.before m hle
      exact ⟨hdone, hstarts.trans (by omega)⟩
  · have hend := hfinished.run hcontrols (m - (d + 1))
    have hsum : d + 1 + (m - (d + 1)) = m := by omega
    rw [hsum] at hend
    exact hend

end

/-- The segments are on time if the gate is one, each segment lasts at least two samples and the
release node is not a node with a segment. -/
theorem segmentsOnTime (hw : g.env.WellFormed) (hpoints : 2 ≤ g.env.points)
    (hcontrols : ∀ n, ∀ c ∈ controls n, c = .gate 1)
    (hrelease : ∀ k : ℕ, k + 1 < g.env.points → g.env.releaseNode ≠ k)
    (hlong : ∀ k, k + 1 < g.env.points → 2 ≤ g.segmentSamples timeScale k) :
    OnTime g 1 timeScale controls := by
  have harrives (k : ℕ) (hk : k + 2 ≤ g.env.points) : ∃ n, Arrives g timeScale controls k n := by
    induction k with
    | zero => exact ⟨0, arrives_zero⟩
    | succ k ih =>
      obtain ⟨n, hn⟩ := ih (by omega)
      exact hn.succ hcontrols hw (by omega) (hrelease k (by omega)) (hlong k (by omega))
  obtain ⟨n, hn⟩ := harrives (g.env.points - 2) (by omega)
  obtain ⟨d, hbefore, hafter, hvalue⟩ :=
    hn.finish hcontrols hw hpoints (hrelease _ (by omega))
  refine ⟨fun k hk => ?_, fun m => ?_, d, hvalue, fun m => ?_⟩
  · obtain ⟨m, hm⟩ := harrives k (by omega)
    exact ⟨m, hm.starts hcontrols hw hk (hrelease k hk)⟩
  · rcases Nat.lt_or_ge d m with hlt | hle
    · exact (hafter m hlt).starts.le
    · exact (hbefore m hle).2
  · by_cases hlt : d < m
    · rw [if_pos hlt, (hafter m hlt).doneCalls]
    · rw [if_neg hlt, (hbefore m (not_lt.mp hlt)).1]

end Times

/-- The steps of one and two seconds, at four samples for each second. -/
def unsustainedSteps : EnvelopeGenerator ℚ where
  env := GenEnvelope.twoStepsEnvelope
  restartLevel := none
  sampleRate := 4
  functions := GenEnvelope.stepFunctions

theorem segmentsOnTime_unsustainedSteps : OnTime unsustainedSteps 1 1 fun _ => [.gate 1] := by
  refine segmentsOnTime GenEnvelope.wellFormed_twoStepsEnvelope (by decide)
    (fun _ c hc => List.mem_singleton.mp hc) (fun k _ hk => ?_) (fun k hk => ?_)
  · have hneg : (-1 : ℤ) = k := hk
    omega
  · match k with
    | 0 | 1 => decide +kernel
    | k + 2 =>
      have hlt : k + 2 + 1 < 3 := hk
      omega

end EnvelopeGenerator

end Incudine
