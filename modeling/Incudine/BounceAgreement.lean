import Incudine.BounceFrames
import Mathlib.Algebra.Ring.Int.Defs

/-!
# Agreement of the renderers

The renderers make the same steps if they read the same input frames. The renderer of a buffer holds
the last frame of a short input. The inputs of the ticks are found with an engine that records them.
-/

namespace Incudine.Bounce

section Agreement

variable {σ α : Type} [Zero α]

/-- The renderers write the same frames and leave the same state. The engine is arbitrary, so its
state may record each step with the input frame of the step. The body is called before the first
frame, hence it does not read the input. -/
def Agree (cfg : Config) (channels : ℕ) (src : Option (Source α)) (frames : ℕ) : Prop :=
  ∀ (σ : Type) (e : Engine σ α) (fuel : ℕ) (function : List α → Memory σ α → Memory σ α)
    (m : Memory σ α) (inputBus outData : ℕ → α) (start : ℕ),
    (src.isSome → ∀ input input' m, function input m = function input' m) →
    Clean e fuel channels (inputs (bufferInput src) 0 frames) (function [] (e.reset m)) →
    (bounceToBuffer e fuel channels src outData start frames function m).map
        (fun x => (samples x.1 (start * channels) (frames * channels), x.2)) =
      bounceToDisk e fuel channels cfg src inputBus frames function m

theorem bufferInput_eq_diskInput {src : Source α} {k : ℕ} (hk : k < src.frames) :
    bufferInput (some src) k = diskInput (some src) k := by
  have hne : src.frames ≠ 0 := Nat.ne_of_gt (Nat.zero_lt_of_lt hk)
  rw [bufferInput, if_neg hne, diskInput, if_pos hk, Nat.min_eq_left (Nat.le_sub_one_of_lt hk)]

theorem bufferInput_eq_diskInput_iff {src : Source α} {k : ℕ} (hk : src.frames ≤ k) :
    bufferInput (some src) k = diskInput (some src) k ↔
      src.frames = 0 ∨
        ∀ ch < src.channels, src.data ((src.frames - 1) * src.channels + ch) = 0 := by
  rw [bufferInput, diskInput, if_neg (Nat.not_lt_of_le hk)]
  by_cases hzero : src.frames = 0
  · simp [hzero]
  · have hlast : min k (src.frames - 1) = src.frames - 1 := by omega
    rw [if_neg hzero, hlast, or_iff_right hzero, frameAt]
    constructor
    · intro h ch hch
      have hmem : src.data ((src.frames - 1) * src.channels + ch) ∈ List.replicate src.channels 0 :=
        h ▸ List.mem_map.mpr ⟨ch, List.mem_range.mpr hch, rfl⟩
      exact List.eq_of_mem_replicate hmem
    · intro h
      refine List.eq_replicate_iff.mpr ⟨by simp, fun x hx => ?_⟩
      obtain ⟨ch, hch, rfl⟩ := List.mem_map.mp hx
      exact h ch (List.mem_range.mp hch)

theorem bufferInput_eq_diskInput_all (src : Option (Source α)) (frames : ℕ) :
    (∀ k < frames, bufferInput src k = diskInput src k) ↔
      ∀ s ∈ src, frames ≤ s.frames ∨ s.frames = 0 ∨
        ∀ ch < s.channels, s.data ((s.frames - 1) * s.channels + ch) = 0 := by
  cases src with
  | none => exact ⟨fun _ => nofun, fun _ _ _ => rfl⟩
  | some src =>
    constructor
    · intro h s hs
      obtain rfl := Option.some.inj hs
      rcases Nat.lt_or_ge src.frames frames with hlt | hge
      · exact Or.inr ((bufferInput_eq_diskInput_iff (Nat.le_refl _)).mp (h _ hlt))
      · exact Or.inl hge
    · intro h k hk
      rcases Nat.lt_or_ge k src.frames with hlt | hge
      · exact bufferInput_eq_diskInput hlt
      · refine (bufferInput_eq_diskInput_iff hge).mpr ((h src rfl).resolve_left ?_)
        omega

/-- The input of each tick and the one at the end, without events. -/
def recorder : Engine (List (List α)) α where
  heapEmptyP := fun _ => false
  dueP := fun _ => false
  dueP_of_heapEmptyP := fun _ _ => rfl
  callEvent := fun _ m => m
  fifoEmptyP := fun _ => true
  fromWorldFifoEmptyP := fun _ => true
  callFunction := fun _ m => m
  callFromWorldFunction := fun _ m => m
  computeTick := fun input m => { m with state := m.state ++ [input] }
  incfSampleCounter := id
  dirtyNodesP := fun _ => false
  freeDirtyNodes := fun _ m => m
  freeDirtyNodes_of_empty := fun _ _ _ => rfl
  reset := fun m => { m with state := [] }
  freeRoot := fun input m => { m with state := m.state ++ [input] }
  cleanup := fun _ m => m

variable {channels : ℕ}

theorem clean_recorder : ∀ (input : List (List α)) (m : Memory (List (List α)) α),
    Clean recorder 0 channels input m
  | [], _ => trivial
  | _ :: input, _ => fun _ _ => ⟨rfl, clean_recorder input _⟩

omit [Zero α] in
theorem finish_recorder (input : List α) (m : Memory (List (List α)) α) :
    finish recorder 0 input m = some (m.state ++ [input]) := rfl

theorem render_recorder (input : List (List α)) (m : Memory (List (List α)) α) :
    ∃ r, render recorder 0 channels input m = some r ∧ r.1.state = m.state ++ input := by
  induction input generalizing m with
  | nil => exact ⟨_, rfl, by simp⟩
  | cons frame input ih =>
    let m' := endOfFrame recorder channels (recorder.computeTick frame m)
    obtain ⟨r, hr, hstate⟩ := ih m'
    have hframe : renderFrame recorder 0 channels frame m =
        some (m', frameAt channels m.output 0) := rfl
    refine ⟨(r.1, frameAt channels m.output 0 ++ r.2), ?_, ?_⟩
    · simp only [render, hframe, hr, Option.bind_eq_bind, Option.bind_some]
      rfl
    · rw [hstate]
      exact List.append_assoc m.state [frame] input

theorem Agree.inputs_eq {cfg : Config} {src : Option (Source α)} {frames : ℕ}
    (h : Agree cfg channels src frames) (hchannels : 0 < channels) (hframes : 0 < frames) :
    inputs (bufferInput src) 0 frames = inputs (diskInput src) 0 frames := by
  let m : Memory (List (List α)) α := ⟨[], fun _ => 0⟩
  have heq := h _ recorder 0 (fun _ m => m) m (fun _ => 0) (fun _ => 0) 0 (fun _ _ _ _ => rfl)
    (clean_recorder _ _)
  rw [bounceToBuffer_eq src _ 0 hframes, bounceToDisk_eq cfg src _ hframes hchannels _ _
    (clean_recorder _ _)] at heq
  obtain ⟨r, hr, hstate⟩ := @render_recorder _ _ channels (inputs (bufferInput src) 0 frames)
    (recorder.reset m)
  obtain ⟨r', hr', hstate'⟩ := @render_recorder _ _ channels (inputs (diskInput src) 0 frames)
    (recorder.reset m)
  simp only [hr, hr', Option.bind_some, finish_recorder, Option.map_some, hstate, hstate',
    Option.some.injEq, Prod.mk.injEq] at heq
  exact (List.append_inj' heq.2 rfl).1

theorem writeToDisk_zero_recorder {bufsize n : ℕ} {body' : Disk (List (List α)) α →
      Option (Bool × Disk (List (List α)) α)} {read : Disk (List (List α)) α → Disk (List (List α)) α}
    {input : ℕ → List α} {ok : ℕ → List α → Reader α → Prop} {s : Disk (List (List α)) α}
    (hdvd : channels ∣ bufsize)
    (hread : ∀ k s, ok k s.input s.reader → ∃ r, read s = { s with input := input k, reader := r } ∧
      ok (k + 1) (input k) r)
    (hok : ok 0 s.input s.reader) (hwriter : WriterOk channels bufsize [] s)
    (hstate : s.memory.state = []) :
    ∃ file, writeToDisk recorder 0 (fun s => nrtLoop recorder 0 channels bufsize false (read s)) body'
        n 0 true s = some (file, inputs input 0 n ++ [if n = 0 then s.input else input (n - 1)]) := by
  obtain ⟨r, hr, hrecord⟩ := @render_recorder _ _ channels (inputs input 0 n) s.memory
  have hrel := writeToDiskLoop_rel hdvd hread n 0 s [] hok hwriter (clean_recorder _ _)
  rw [hr] at hrel
  cases hx : writeToDiskLoop (fun s => nrtLoop recorder 0 channels bufsize false (read s)) n s with
  | none =>
    rw [hx] at hrel
    cases hrel
  | some x =>
    rw [hx] at hrel
    cases hrel with
    | some hrel =>
      obtain ⟨-, hmemory, hinput, -⟩ := hrel
      rw [zero_add] at hinput
      refine ⟨if 0 < x.2.count then x.2.file ++ (List.range x.2.count).map x.2.data else x.2.file, ?_⟩
      simp only [writeToDisk, hx, Option.bind_eq_bind, Option.bind_some, if_true, Nat.sub_zero,
        writeToDiskLoop, finish_recorder, hmemory, hinput, hrecord, hstate, List.nil_append]
      rfl

theorem bounceToDisk_zero_recorder (cfg : Config) (src : Option (Source α)) (inputBus : ℕ → α)
    (hchannels : 0 < channels) (m : Memory (List (List α)) α) :
    ∃ file record, bounceToDisk recorder 0 channels cfg src inputBus 0 (fun _ m => m) m =
        some (file, record) ∧
      (record.length = 1 → ∃ src' ∈ src, record = [frameAt src'.channels inputBus 0]) := by
  obtain ⟨hdvd, hpos⟩ := cfg.dvd_bufsize hchannels
  have hpad : decide ((0 : ℤ) ≤ 0) = true := rfl
  let reader : Reader α := ⟨fun _ => 0, 0, 0, 0, false⟩
  let disk : List α → Disk (List (List α)) α := fun input =>
    ⟨recorder.reset m, input, reader, fun _ => 0, 0, []⟩
  have hwriter : ∀ input, WriterOk channels (cfg.bufsize channels) [] (disk input) :=
    fun _ => ⟨rfl, hpos, Nat.dvd_zero _⟩
  cases src with
  | none =>
    let maxFrames := cfg.sampleRate * max cfg.guardSize 0 - 0
    let ok : ℕ → List α → Reader α → Prop := fun _ input _ => input = []
    have hread : ∀ k (s : Disk (List (List α)) α), ok k s.input s.reader →
        ∃ r, s = { s with input := diskInput none k, reader := r } ∧ ok (k + 1) [] r :=
      fun k s h => ⟨s.reader, by rw [diskInput, ← show s.input = [] from h], rfl⟩
    obtain ⟨file, hfile⟩ := @writeToDisk_zero_recorder _ _ channels (cfg.bufsize channels) maxFrames
      (nrtLoop recorder 0 channels (cfg.bufsize channels) false) _ _ ok (disk []) hdvd hread rfl
      (hwriter []) rfl
    refine ⟨file, _, hfile, fun hlength => ?_⟩
    have hmax : 0 < maxFrames :=
      Nat.mul_pos cfg.sampleRate_pos (Nat.lt_of_lt_of_le cfg.guardSize_pos (Nat.le_max_left _ _))
    simp only [inputs, List.length_append, List.length_map, List.length_range', List.length_singleton]
      at hlength
    omega
  | some src =>
    obtain ⟨hin, hinpos⟩ := cfg.dvd_bufsize src.channels_pos
    have hok : ReaderOk src 0 (frameAt src.channels inputBus 0) reader :=
      ⟨by simp [reader], fun _ => ⟨Nat.zero_le _, by simp [reader], Nat.zero_le _, Nat.dvd_zero _,
        by simp [reader]⟩⟩
    obtain ⟨file, hfile⟩ := @writeToDisk_zero_recorder _ _ channels (cfg.bufsize channels) src.frames
      (fun s => nrtLoop recorder 0 channels (cfg.bufsize channels) false
        (readInput src (cfg.bufsize src.channels) s)) _ _ _
      (disk (frameAt src.channels inputBus 0)) hdvd (fun k s h => readInput_spec hin hinpos h) hok
      (hwriter _) rfl
    refine ⟨file, _, hfile, fun hlength => ⟨src, rfl, ?_⟩⟩
    have hzero : src.frames = 0 := by
      simpa [inputs] using hlength
    simp [inputs, hzero, disk]

theorem Agree.frames_pos [Nontrivial α] {cfg : Config} {src : Option (Source α)} {frames : ℕ}
    (h : Agree cfg channels src frames) (hchannels : 0 < channels) : 0 < frames := by
  rcases Nat.eq_zero_or_pos frames with rfl | hpos
  · obtain ⟨a, ha⟩ := exists_ne (0 : α)
    let m : Memory (List (List α)) α := ⟨[], fun _ => 0⟩
    have heq := h _ recorder 0 (fun _ m => m) m (fun _ => a) (fun _ => 0) 0 (fun _ _ _ _ => rfl)
      (clean_recorder _ _)
    obtain ⟨file, record, hdisk, hrecord⟩ :=
      bounceToDisk_zero_recorder cfg src (fun _ => a) hchannels m
    have hbuffer : bounceToBuffer recorder 0 channels src (fun _ => 0) 0 0 (fun _ m => m) m =
        some (fun _ => 0, [zeroedInput src]) := rfl
    rw [Int.natCast_zero, hdisk, hbuffer, Option.map_some, Option.some.injEq, Prod.mk.injEq] at heq
    obtain ⟨src', hsrc, hinput⟩ := hrecord (by rw [← heq.2]; rfl)
    obtain rfl := Option.mem_def.mp hsrc
    have hframe := List.singleton_injective (heq.2.trans hinput)
    have hmem : a ∈ List.replicate src'.channels 0 := by
      rw [zeroedInput] at hframe
      rw [hframe]
      exact List.mem_map.mpr ⟨0, List.mem_range.mpr src'.channels_pos, rfl⟩
    exact absurd (List.eq_of_mem_replicate hmem) ha
  · exact hpos

def config : Config where
  sndfileBufferSize := 4
  sndfileBufferSize_pos := by decide
  sampleSize := 8
  sampleSize_pos := by decide
  guardSize := 1
  guardSize_pos := by decide
  sampleRate := 2
  sampleRate_pos := by decide

def shortInput : Source ℤ where
  channels := 1
  channels_pos := by decide
  frames := 1
  data := fun _ => 1

/-- Two frames are rendered. The renderer of a buffer reads the frame twice. -/
theorem not_agree_shortInput : ¬ Agree config 1 (some shortInput) 2 := by
  intro h
  have heq := h.inputs_eq (by decide) (by decide)
  have hheld : inputs (bufferInput (some shortInput)) 0 2 = [[1], [1]] := rfl
  have hsilence : inputs (diskInput (some shortInput)) 0 2 = [[1], [0]] := rfl
  rw [hheld, hsilence] at heq
  simp at heq

end Agreement

/-- The renderers agree exactly if there are some frames to render and a short input is empty or
ends with silence. -/
theorem agree_iff {α : Type} [Zero α] [Nontrivial α] (cfg : Config) {channels : ℕ}
    (hchannels : 0 < channels) (src : Option (Source α)) (frames : ℕ) :
    Agree cfg channels src frames ↔ 0 < frames ∧ ∀ s ∈ src, frames ≤ s.frames ∨ s.frames = 0 ∨
      ∀ ch < s.channels, s.data ((s.frames - 1) * s.channels + ch) = 0 := by
  rw [← bufferInput_eq_diskInput_all]
  constructor
  · intro h
    have hpos := h.frames_pos hchannels
    refine ⟨hpos, fun k hk => ?_⟩
    have hinputs := List.map_inj_left.mp (h.inputs_eq hchannels hpos)
    exact hinputs k (List.mem_range'_1.mpr ⟨Nat.zero_le _, by omega⟩)
  · rintro ⟨hpos, hinput⟩ σ e fuel function m inputBus outData start hfunction hclean
    have hinputs : inputs (bufferInput src) 0 frames = inputs (diskInput src) 0 frames := by
      refine List.map_congr_left fun k hk => hinput k ?_
      have := (List.mem_range'_1.mp hk).2
      omega
    have hbody : function (zeroedInput src) (e.reset m) = function [] (e.reset m) := by
      cases src with
      | none => rfl
      | some s => exact hfunction rfl _ _ _
    rw [bounceToBuffer_eq src outData start hpos, hbody,
      hinput (frames - 1) (Nat.sub_one_lt_of_lt hpos), hinputs]
    rw [hinputs] at hclean
    exact (bounceToDisk_eq cfg src inputBus hpos hchannels function m hclean).symm

def fadedInput : Source ℤ where
  channels := 1
  channels_pos := by decide
  frames := 2
  data := fun i => if i = 0 then 1 else 0

theorem agree_iff_fadedInput : Agree config 1 (some fadedInput) 5 := by
  refine (agree_iff config (by decide) (some fadedInput) 5).mpr ⟨by decide, fun s hs => ?_⟩
  obtain rfl := Option.some.inj hs
  exact .inr (.inr (by decide))

end Incudine.Bounce
