import Incudine.EnvelopeGenerator

/-!
# The place in the envelope

The index of the data and the node are two views of one place. They agree while the envelope plays
if no custom release arrives in the last segment, or after the end, and if each jump goes to a
segment.
-/

namespace Incudine

namespace EnvelopeGenerator

variable {K : Type}

def SegmentStart.SameSegment (x : SegmentStart) : Prop :=
  (x.dur = some (3 * x.node + 1) ∨ x.dur = none) ∧ x.level = 3 * x.node + 2 ∧
    x.curve = 3 * x.node + 3

structure Inside (g : EnvelopeGenerator K) (s : State K) : Prop where
  index : s.doneP = false → s.index = 3 * (s.currNode + 1)
  reads : ∀ i ∈ s.reads, 0 ≤ i ∧ i < g.dataSize
  starts : ∀ x ∈ s.starts, x.SameSegment

section Conditions

variable [Field K] [LinearOrder K] [FloorRing K]

def endTime (g : EnvelopeGenerator K) (timeScale : K) (k : ℕ) : K :=
  ∑ j ∈ Finset.range (k + 1), timeScale * g.smpRef (j * 3 + 1)

/-- A custom release arrives before the last segment, or it does nothing after the end. -/
def ReleaseMeets (g : EnvelopeGenerator K) (s : State K) (gate : K) : Prop :=
  gate < -1 →
    if s.currNode + 1 = g.lastPoint then s.doneP = true else s.index = 3 * (s.currNode + 1)

def Control.Meets (g : EnvelopeGenerator K) (s : State K) : Control K → Prop
  | .gate x => g.ReleaseMeets s x
  | .timeScale _ => g.ReleaseMeets s s.gate
  | .location l => ∃ k, k + 1 < g.env.points ∧
      l * (1 / g.sampleRate) < g.endTime s.timeScale k - 1 / g.sampleRate

/-- The node of the loop is the begin of a segment if it is the next node. -/
def SampleMeets (g : EnvelopeGenerator K) (s : State K) : Prop :=
  s.doneP = false → s.sustain = false → s.remain ≤ 1 → s.index + 1 < g.dataSize →
    jumpToLoopNodeP s.gate (s.currNode + 1) g.env.loopNode g.env.releaseNode →
    g.env.loopNode + 1 < g.env.points

instance (g : EnvelopeGenerator K) (s : State K) (gate : K) : Decidable (g.ReleaseMeets s gate) :=
  inferInstanceAs (Decidable (_ → _))

instance (g : EnvelopeGenerator K) (s : State K) : Decidable (g.SampleMeets s) :=
  inferInstanceAs (Decidable (_ → _ → _ → _ → _ → _))

/-- The controls before a sample, and the sample. -/
def AllMeet (g : EnvelopeGenerator K) : State K → List (Control K) → Prop
  | s, [] => g.SampleMeets s
  | s, c :: controls => c.Meets g s ∧ AllMeet g (g.apply s c) controls

end Conditions

structure Playing (g : EnvelopeGenerator K) (s : State K) : Prop where
  notDone : s.doneP = false
  index : s.index = 3 * (s.currNode + 1)
  lower : -1 ≤ s.currNode
  upper : s.currNode + 2 ≤ g.env.points
  start : s.currNode = -1 → s.remain ≤ 1 ∧ s.sustain = false

structure Ending (g : EnvelopeGenerator K) (s : State K) : Prop where
  notDone : s.doneP = false
  size : g.dataSize ≤ s.index
  index : 3 * (s.currNode + 1) ≤ s.index
  remain : s.remain ≤ 1
  sustain : s.sustain = false

structure Invariant (g : EnvelopeGenerator K) (s : State K) : Prop where
  phase : s.doneP = true ∨ Playing g s ∨ Ending g s
  same : s.currIndex = s.prevIndex
  reads : ∀ i ∈ s.reads, 0 ≤ i ∧ i < g.dataSize
  starts : ∀ x ∈ s.starts, x.SameSegment

section Levels

variable {g : EnvelopeGenerator K} {s : State K}

theorem Invariant.congr {s' : State K} (h : Invariant g s) (hdone : s'.doneP = s.doneP)
    (hindex : s'.index = s.index) (hnode : s'.currNode = s.currNode)
    (hremain : s'.remain = s.remain) (hsustain : s.sustain = false → s'.sustain = false)
    (hsame : s'.currIndex = s'.prevIndex) (hreads : ∀ i ∈ s'.reads, 0 ≤ i ∧ i < g.dataSize)
    (hstarts : s'.starts = s.starts) : Invariant g s' := by
  refine ⟨?_, hsame, hreads, hstarts ▸ h.starts⟩
  rcases h.phase with hdone' | hplay | hend
  · exact Or.inl (hdone.trans hdone')
  · refine Or.inr (Or.inl ⟨hdone.trans hplay.notDone, ?_, ?_, ?_, fun hstart => ?_⟩)
    · rw [hindex, hnode, hplay.index]
    · rw [hnode]
      exact hplay.lower
    · rw [hnode]
      exact hplay.upper
    · rw [hnode] at hstart
      rw [hremain]
      exact ⟨(hplay.start hstart).1, hsustain (hplay.start hstart).2⟩
  · refine Or.inr (Or.inr ⟨hdone.trans hend.notDone, ?_, ?_, ?_, hsustain hend.sustain⟩)
    · rw [hindex]
      exact hend.size
    · rw [hindex, hnode]
      exact hend.index
    · rw [hremain]
      exact hend.remain

theorem Invariant.restart (h : Invariant g s) (hpoints : 2 ≤ g.env.points) :
    Invariant g (g.restart s) := by
  refine ⟨Or.inr (Or.inl ⟨rfl, ?_, ?_, ?_, fun _ => ⟨zero_le_one, rfl⟩⟩), rfl,
    h.reads, h.starts⟩ <;> simp only [EnvelopeGenerator.restart, nextIndex, if_pos] <;> omega

theorem Invariant.toLastSegment (h : Invariant g s) (hpoints : 2 ≤ g.env.points)
    (hsize : g.dataSize = 3 * g.env.points - 2) {dur : ℕ}
    (hindex : s.index = 3 * (s.currNode + 1)) :
    Invariant g (g.toLastSegment
      { s with dur := dur, remain := dur - 1, currNode := s.currNode + 1 }) := by
  have hlevel : s.index + (g.lastPoint - 1 - (s.currNode + 1)) * 3 + 2 =
      3 * (g.lastPoint - 1) + 2 := by omega
  refine ⟨?_, rfl, ?_, ?_⟩
  · by_cases hdone : s.doneP = true
    · exact Or.inl hdone
    · refine Or.inr (Or.inl ⟨Bool.eq_false_of_not_eq_true hdone, ?_, ?_, ?_, ?_⟩) <;>
        simp only [EnvelopeGenerator.toLastSegment, jumpNode, lastPoint] <;> omega
  · simp only [EnvelopeGenerator.toLastSegment, jumpNode, hlevel]
    refine List.forall_mem_cons.mpr ⟨?_, List.forall_mem_cons.mpr ⟨?_, h.reads⟩⟩ <;>
      rw [lastPoint, hsize] <;> omega
  · simp only [EnvelopeGenerator.toLastSegment, jumpNode, hlevel]
    exact List.forall_mem_cons.mpr ⟨⟨Or.inr rfl, rfl, by ring⟩, h.starts⟩

variable [Field K]

theorem Invariant.releaseBeforeSustain (h : Invariant g s)
    (hsize : g.dataSize = 3 * g.env.points - 2) (hsustain : s.sustain = false)
    (hnode : 0 < g.env.releaseNode ∧ s.currNode < g.env.releaseNode) :
    Invariant g (g.releaseBeforeSustain s) := by
  refine ⟨?_, h.same, h.reads, h.starts⟩
  rcases h.phase with hdone | hplay | hend
  · exact Or.inl hdone
  · have hindex := hplay.index
    by_cases hrelease : g.env.releaseNode + 1 ≤ g.env.points
    · refine Or.inr (Or.inl ⟨hplay.notDone, ?_, ?_, ?_, fun _ => ⟨zero_le_one, hsustain⟩⟩) <;>
        simp only [EnvelopeGenerator.releaseBeforeSustain, jumpNode] <;> omega
    · refine Or.inr (Or.inr ⟨hplay.notDone, ?_, ?_, zero_le_one, hsustain⟩) <;>
        simp only [EnvelopeGenerator.releaseBeforeSustain, jumpNode] <;> omega
  · have hindex := hend.index
    have hend' := hend.size
    refine Or.inr (Or.inr ⟨hend.notDone, ?_, ?_, zero_le_one, hsustain⟩) <;>
      simp only [EnvelopeGenerator.releaseBeforeSustain, jumpNode] <;> omega

theorem Invariant.immediateCutoff (h : Invariant g s)
    (hsize : g.dataSize = 3 * g.env.points - 2) : Invariant g (g.immediateCutoff s) := by
  refine ⟨?_, h.same, h.reads, h.starts⟩
  rcases h.phase with hdone | hplay | hend
  · exact Or.inl hdone
  · have hindex := hplay.index
    refine Or.inr (Or.inr ⟨hplay.notDone, ?_, ?_, zero_le_one, rfl⟩) <;>
      simp only [EnvelopeGenerator.immediateCutoff, jumpNode, lastPoint] <;> omega
  · have hindex := hend.index
    refine Or.inr (Or.inr ⟨hend.notDone, ?_, ?_, zero_le_one, rfl⟩) <;>
      simp only [EnvelopeGenerator.immediateCutoff, jumpNode, lastPoint] <;> omega

variable [LinearOrder K]

theorem Invariant.begin (h : Invariant g s) (hpoints : 2 ≤ g.env.points)
    (hsize : g.dataSize = 3 * g.env.points - 2) (hindex : s.index = 0) :
    Invariant g (g.begin s) := by
  rcases h.phase with hdone | hplay | hend
  · rw [EnvelopeGenerator.begin]
    split
    · exact ⟨Or.inl hdone, h.same, List.forall_mem_cons.mpr ⟨by omega, h.reads⟩, h.starts⟩
    · exact ⟨Or.inl hdone, h.same, h.reads, h.starts⟩
  · have hplace := hplay.index
    have hnode : s.currNode = -1 := by omega
    obtain ⟨hremain, hsustain⟩ := hplay.start hnode
    rw [EnvelopeGenerator.begin]
    split
    · have hneg : ¬ (0 ≤ s.currNode ∧ toSustainP s.gate s.currNode g.env.releaseNode) := by omega
      exact h.congr rfl rfl rfl rfl (fun _ => decide_eq_false hneg) h.same
        (List.forall_mem_cons.mpr ⟨by omega, h.reads⟩) rfl
    · refine ⟨Or.inr (Or.inr ⟨hplay.notDone, le_rfl, ?_, hremain, hsustain⟩), h.same, h.reads,
        h.starts⟩
      simp only [hnode, hsize]
      omega
  · have hend' := hend.size
    omega

variable [FloorRing K]

theorem Invariant.customRelease (h : Invariant g s) (hpoints : 2 ≤ g.env.points)
    (hsize : g.dataSize = 3 * g.env.points - 2) (hgate : s.gate < -1)
    (hmeets : g.ReleaseMeets s s.gate) : Invariant g (g.customRelease s) := by
  have hmeets' := hmeets hgate
  rw [EnvelopeGenerator.customRelease]
  by_cases hlast : s.currNode + 1 = g.lastPoint
  · rw [if_pos hlast] at hmeets'
    simp only [if_pos hlast]
    exact ⟨Or.inl hmeets', h.same, h.reads, h.starts⟩
  · rw [if_neg hlast] at hmeets'
    have hjump := @Invariant.toLastSegment K g s h hpoints hsize (g.customDuration s.gate) hmeets'
    simp only [if_neg hlast]
    exact hjump.congr rfl rfl rfl rfl (fun _ => rfl) hjump.same hjump.reads rfl

theorem Invariant.updateLevel (h : Invariant g s) (hpoints : 2 ≤ g.env.points)
    (hsize : g.dataSize = 3 * g.env.points - 2) (hmeets : g.ReleaseMeets s s.gate) :
    Invariant g (g.updateLevel s) := by
  have hold : Invariant g { s with oldGate := s.gate } :=
    h.congr rfl rfl rfl rfl id h.same h.reads rfl
  rw [EnvelopeGenerator.updateLevel]
  simp only
  split
  · exact h.congr rfl rfl rfl rfl id h.same h.reads rfl
  split
  · rename_i hrelease
    exact hold.releaseBeforeSustain hsize hrelease.2.1 hrelease.2.2
  split
  · exact hold.immediateCutoff hsize
  split
  · rename_i hgate
    exact hold.customRelease hpoints hsize hgate hmeets
  split
  · rename_i hbegin
    exact hold.begin hpoints hsize hbegin.1
  split
  · exact hold.restart hpoints
  split
  · exact h.congr rfl rfl rfl rfl (fun _ => rfl) h.same h.reads rfl
  split
  · exact h.congr rfl rfl rfl rfl (fun _ => rfl) h.same h.reads rfl
  · rename_i hchange
    exact absurd (Or.inr h.same) hchange

theorem Invariant.locateSegment (h : Invariant g s) (hsize : g.dataSize = 3 * g.env.points - 2)
    {i : ℕ} (hi : i + 1 < g.env.points) (location : ℕ) (posTime endTime : K) :
    Invariant g (g.locateSegment location i posTime endTime s) := by
  refine ⟨Or.inr (Or.inl ⟨rfl, ?_, ?_, ?_, ?_⟩), rfl, ?_, ?_⟩
  · simp only [EnvelopeGenerator.locateSegment]
    omega
  · simp only [EnvelopeGenerator.locateSegment]
    omega
  · simp only [EnvelopeGenerator.locateSegment]
    omega
  · simp only [EnvelopeGenerator.locateSegment]
    omega
  · simp only [EnvelopeGenerator.locateSegment, updateDur, List.forall_mem_cons]
    refine ⟨?_, ?_, ?_, ?_, h.reads⟩
    · omega
    · omega
    · split <;> omega
    · omega
  · refine List.forall_mem_cons.mpr ⟨⟨Or.inl ?_, ?_, ?_⟩, h.starts⟩ <;> simp only <;> ring_nf

theorem Invariant.locate {location : ℕ} {posTime : K} {k : ℕ} (hk : k + 1 < g.env.points)
    (hsize : g.dataSize = 3 * g.env.points - 2)
    (hlocation : posTime < g.endTime s.timeScale k - 1 / g.sampleRate) (n i : ℕ)
    (hn : n + i = g.env.points) (hi : i ≤ k) (h : Invariant g s) :
    Invariant g (g.locate location posTime n i
      (∑ j ∈ Finset.range i, s.timeScale * g.smpRef (j * 3 + 1)) s) := by
  induction n generalizing i s with
  | zero => omega
  | succ n ih =>
    have hread : Invariant g { s with reads := ((i : ℤ) * 3 + 1) :: s.reads } :=
      h.congr rfl rfl rfl rfl id h.same (List.forall_mem_cons.mpr ⟨by omega, h.reads⟩) rfl
    have hsum := Finset.sum_range_succ (fun j : ℕ => s.timeScale * g.smpRef (j * 3 + 1)) i
    rw [EnvelopeGenerator.locate, ← hsum]
    split
    · exact hread.locateSegment hsize (by omega) _ _ _
    · rename_i hnot
      have hne : i ≠ k := by
        rintro rfl
        exact hnot hlocation
      exact @ih { s with reads := ((i : ℤ) * 3 + 1) :: s.reads } hlocation (i + 1) (by omega)
        (by omega) hread

theorem Invariant.apply (h : Invariant g s) (hpoints : 2 ≤ g.env.points)
    (hsize : g.dataSize = 3 * g.env.points - 2) {c : Control K} (hmeets : c.Meets g s) :
    Invariant g (g.apply s c) := by
  cases c with
  | gate x =>
    have hgate : Invariant g { s with gate := x, gateTrig := decide (0 < x) } :=
      h.congr rfl rfl rfl rfl id h.same h.reads rfl
    exact hgate.updateLevel hpoints hsize hmeets
  | timeScale x =>
    have hscale : Invariant g { s with timeScale := x } :=
      h.congr rfl rfl rfl rfl id h.same h.reads rfl
    exact hscale.updateLevel hpoints hsize hmeets
  | location l =>
    obtain ⟨k, hk, hlocation⟩ := hmeets
    exact Invariant.locate hk hsize hlocation g.env.points 0 rfl (Nat.zero_le k) h

theorem playing_startSegment (hsize : g.dataSize = 3 * g.env.points - 2)
    (hdone : s.doneP = false) (hindex : s.index = 3 * s.currNode + 1) (hlower : 0 ≤ s.currNode)
    (hupper : s.currNode + 2 ≤ g.env.points) (hreads : ∀ i ∈ s.reads, 0 ≤ i ∧ i < g.dataSize)
    (hstarts : ∀ x ∈ s.starts, x.SameSegment) :
    Invariant g (g.startSegment s) ∧ Playing g (g.startSegment s) := by
  have hplay : Playing g (g.startSegment s) := by
    refine ⟨hdone, ?_, ?_, hupper, ?_⟩ <;> simp only [startSegment, updateDur] <;> omega
  refine ⟨⟨Or.inr (Or.inl hplay), rfl, ?_, ?_⟩, hplay⟩
  · simp only [startSegment, updateDur, List.forall_mem_cons]
    refine ⟨?_, ?_, ?_, hreads⟩ <;> omega
  · simp only [startSegment, updateDur, hindex]
    exact List.forall_mem_cons.mpr ⟨⟨Or.inl rfl, by ring, by ring⟩, hstarts⟩

theorem Invariant.endSegment (h : Invariant g s) (hsize : g.dataSize = 3 * g.env.points - 2)
    (hmeets : g.SampleMeets s) (hdone : s.doneP = false) (hsustain : s.sustain = false)
    (hremain : s.remain ≤ 1) : Invariant g (g.endSegment s) ∧
      ((g.endSegment s).doneP = false → Playing g (g.endSegment s)) := by
  by_cases hend : g.dataSize ≤ s.index + 1
  · simp only [EnvelopeGenerator.endSegment, if_pos hend]
    exact ⟨⟨Or.inl rfl, h.same, h.reads, h.starts⟩, fun hfalse => nomatch hfalse⟩
  · have hplay : Playing g s := by
      rcases h.phase with hdone' | hplay | hending
      · exact nomatch hdone.symm.trans hdone'
      · exact hplay
      · have hlast := hending.size
        omega
    have hindex := hplay.index
    have hlower := hplay.lower
    simp only [EnvelopeGenerator.endSegment, if_neg hend]
    split
    · rename_i hjump
      have hloop := hmeets hdone hsustain hremain (not_le.mp hend) hjump
      have hnode := hjump.1
      have hstart := @playing_startSegment K g (jumpNode g.env.loopNode
        { s with index := s.index + 1, currNode := s.currNode + 1 }) _ _ _ hsize hdone
        (by simp only [jumpNode]; omega) hnode (by simp only [jumpNode]; omega) h.reads h.starts
      exact ⟨hstart.1, fun _ => hstart.2⟩
    · split
      · have hstart := @playing_startSegment K g
          { s with index := s.index + 1, currNode := s.currNode + 1, sustain := true } _ _ _ hsize
          hdone (by simp only; omega) (by simp only; omega) (by simp only; omega) h.reads h.starts
        exact ⟨hstart.1, fun _ => hstart.2⟩
      · have hstart := @playing_startSegment K g
          { s with index := s.index + 1, currNode := s.currNode + 1 } _ _ _ hsize hdone
          (by simp only; omega) (by simp only; omega) (by simp only; omega) h.reads h.starts
        exact ⟨hstart.1, fun _ => hstart.2⟩

theorem Invariant.sample (h : Invariant g s) (hsize : g.dataSize = 3 * g.env.points - 2)
    (hmeets : g.SampleMeets s) :
    Invariant g (g.sample s) ∧ ((g.sample s).doneP = false → Playing g (g.sample s)) := by
  rw [EnvelopeGenerator.sample]
  by_cases hheld : s.doneP = true ∨ s.sustain = true
  · rw [if_pos hheld]
    refine ⟨h.congr rfl rfl rfl rfl id h.same h.reads rfl, fun hdone => ?_⟩
    have hsustain : s.sustain = true := hheld.resolve_left (by rw [hdone]; exact Bool.false_ne_true)
    rcases h.phase with hdone' | hplay | hend
    · exact nomatch hdone.symm.trans hdone'
    · exact ⟨hdone, hplay.index, hplay.lower, hplay.upper, hplay.start⟩
    · exact nomatch hsustain.symm.trans hend.sustain
  · rw [if_neg hheld]
    rw [not_or, Bool.not_eq_true, Bool.not_eq_true] at hheld
    obtain ⟨hdone, hsustain⟩ := hheld
    by_cases hremain : s.remain ≤ 1
    · rw [if_pos hremain]
      exact h.endSegment hsize hmeets hdone hsustain hremain
    · rw [if_neg hremain]
      have hplay : Playing g s := by
        rcases h.phase with hdone' | hplay | hend
        · exact nomatch hdone.symm.trans hdone'
        · exact hplay
        · exact absurd hend.remain hremain
      have hnext : Playing g (g.nextPoint s) :=
        ⟨hdone, hplay.index, hplay.lower, hplay.upper, fun hstart =>
          absurd (hplay.start hstart).1 hremain⟩
      exact ⟨⟨Or.inr (Or.inl hnext), h.same, h.reads, h.starts⟩, fun _ => hnext⟩

theorem invariant_initial (hpoints : 2 ≤ g.env.points) (hsize : g.dataSize = 3 * g.env.points - 2)
    (gate timeScale : K) : Invariant g (g.initial gate timeScale) := by
  have hbindings : Invariant g (bindings gate timeScale) := by
    refine ⟨Or.inr (Or.inl ⟨rfl, rfl, le_rfl, ?_, fun _ => ⟨zero_le_one, rfl⟩⟩), rfl,
      (fun _ hi => nomatch hi), (fun _ hx => nomatch hx)⟩
    simp only [bindings]
    omega
  have hmeets : g.ReleaseMeets (bindings gate timeScale) gate := by
    intro _
    rw [if_neg (by simp only [bindings, lastPoint]; omega)]
    rfl
  have hlevel := hbindings.updateLevel hpoints hsize hmeets
  exact hlevel.congr rfl rfl rfl rfl id hlevel.same hlevel.reads rfl

theorem Invariant.applyAll {controls : List (Control K)} (h : Invariant g s)
    (hpoints : 2 ≤ g.env.points) (hsize : g.dataSize = 3 * g.env.points - 2)
    (hmeets : g.AllMeet s controls) :
    Invariant g (g.applyAll s controls) ∧ g.SampleMeets (g.applyAll s controls) := by
  induction controls generalizing s with
  | nil => exact ⟨h, hmeets⟩
  | cons c controls ih => exact ih (h.apply hpoints hsize hmeets.1) hmeets.2

theorem invariant_run {gate timeScale : K} {controls : ℕ → List (Control K)} {n : ℕ}
    (hpoints : 2 ≤ g.env.points) (hsize : g.dataSize = 3 * g.env.points - 2)
    (hmeets : ∀ m < n, g.AllMeet (g.run gate timeScale controls m) (controls m)) :
    Invariant g (g.run gate timeScale controls n) := by
  induction n with
  | zero => exact invariant_initial hpoints hsize gate timeScale
  | succ n ih =>
    have hrun := ih fun m hm => hmeets m (hm.trans (Nat.lt_succ_self n))
    obtain ⟨happly, hsample⟩ := hrun.applyAll hpoints hsize (hmeets n (Nat.lt_succ_self n))
    exact (happly.sample hsize hsample).1

/-- The generator is inside the envelope at every sample if every control and every sample before
it meets its condition. -/
theorem inside_of_run (hw : g.env.WellFormed) (hpoints : 2 ≤ g.env.points) {gate timeScale : K}
    {controls : ℕ → List (Control K)} {n : ℕ}
    (hmeets : ∀ m ≤ n, g.AllMeet (g.run gate timeScale controls m) (controls m)) :
    Inside g (g.run gate timeScale controls (n + 1)) := by
  have hsize := g.dataSize_eq hw hpoints
  have hrun := invariant_run hpoints hsize fun m hm => hmeets m (Nat.le_of_lt hm)
  obtain ⟨happly, hsample⟩ := hrun.applyAll hpoints hsize (hmeets n le_rfl)
  obtain ⟨hnext, hplay⟩ := happly.sample hsize hsample
  exact ⟨fun hdone => (hplay hdone).index, hnext.reads, hnext.starts⟩

end Levels

def oneStep : EnvelopeGenerator ℚ where
  env := ⟨fun i => [0, 1, 1, segStepFunc].getD i 0, 1, 2, 4, -1, -1⟩
  restartLevel := none
  sampleRate := 4
  functions := GenEnvelope.stepFunctions

def sustainedSteps : EnvelopeGenerator ℚ where
  env := ⟨fun i => [0, 1, 1, segStepFunc, 1, 0, segStepFunc].getD i 0, 2, 3, 7, -1, 1⟩
  restartLevel := none
  sampleRate := 4
  functions := GenEnvelope.stepFunctions

theorem wellFormed_oneStep : oneStep.env.WellFormed :=
  ⟨rfl, by simp [oneStep]⟩

/-- The second custom release in the last segment reads the index -1. -/
theorem not_inside : ¬ ∀ (g : EnvelopeGenerator ℚ) (gate timeScale : ℚ)
    (controls : ℕ → List (Control ℚ)) (n : ℕ), g.env.WellFormed → 2 ≤ g.env.points →
    Inside g (g.run gate timeScale controls (n + 1)) := by
  intro h
  have hreads := (h oneStep 1 1 (fun n => if n = 0 then [] else [.gate (-2)]) 2 wellFormed_oneStep
    le_rfl).reads (-1) (by decide +kernel)
  exact absurd hreads.1 (by decide)

theorem wellFormed_sustainedSteps : sustainedSteps.env.WellFormed :=
  ⟨rfl, by simp [sustainedSteps, Finset.sum_range_succ]; norm_num⟩

theorem inside_sustainedSteps : Inside sustainedSteps (sustainedSteps.run 1 1
    (fun n => if n = 2 then [.gate (-3 / 2)] else []) (3 + 1)) := by
  have hmeets (m : ℕ) (hm : m ≤ 3) : sustainedSteps.AllMeet
      (sustainedSteps.run 1 1 (fun n => if n = 2 then [.gate (-3 / 2)] else []) m)
      (if m = 2 then [.gate (-3 / 2)] else []) := by
    match m with
    | 0 | 1 | 3 =>
      show sustainedSteps.SampleMeets _
      decide +kernel
    | 2 =>
      constructor
      · show sustainedSteps.ReleaseMeets _ _
        decide +kernel
      · show sustainedSteps.SampleMeets _
        decide +kernel
    | m + 4 => omega
  exact inside_of_run wellFormed_sustainedSteps (by decide) hmeets

end EnvelopeGenerator

end Incudine
