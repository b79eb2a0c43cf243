import Incudine.SoundfileMerge

/-!
# Condition of the combinations

The concatenation copies the inputs if the blocks are a multiple of the channels and fit in the
buffer.
-/

namespace Incudine.SoundfileMerge

variable {K : Type*} [CommRing K]

section Concatenation

variable {sndfileBufferSize : ℕ} {sf : Soundfile K}

omit [CommRing K] in
theorem map_range_getD (l : List K) (d : K) {start n : ℕ} (h : start + n ≤ l.length) :
    (List.range n).map (fun i => l.getD (start + i) d) = (l.drop start).take n := by
  apply List.ext_getElem
  · simp
    omega
  · intro i hi hi'
    simp only [List.length_map, List.length_range] at hi
    simp [List.getElem?_eq_getElem (by omega : start + i < l.length)]

theorem copyLoop_eq (hpos : 0 < sndfileBufferSize) (hdvd : sf.channels ∣ sndfileBufferSize)
    {fuel k : ℕ} (hfuel : sf.samples.length - k * sndfileBufferSize + 1 ≤ fuel) (buf : ℕ → K) :
    ∃ buf' stores, copyLoop sf.channels sndfileBufferSize fuel (sf.streamAt sndfileBufferSize k) buf =
        some (buf', sf.samples.drop (k * sndfileBufferSize), stores) ∧
      ∀ size, (∀ stored ∈ stores, stored ≤ size) ↔ ∀ j ≥ k,
        j = k ∨ j * sndfileBufferSize < sf.samples.length + sndfileBufferSize →
          sf.storeSize sndfileBufferSize j ≤ size := by
  induction fuel generalizing k buf with
  | zero => omega
  | succ fuel ih =>
    obtain ⟨read, hread, hvalue⟩ : ∃ read : ℕ → K,
        foreignRead (sf.streamAt sndfileBufferSize k) buf sndfileBufferSize =
          (sf.streamAt sndfileBufferSize (k + 1), read,
            min sndfileBufferSize (sf.samples.length - k * sndfileBufferSize),
            sf.storeSize sndfileBufferSize k) ∧
        ∀ i < min sndfileBufferSize (sf.samples.length - k * sndfileBufferSize),
          read i = sf.samples.getD (k * sndfileBufferSize + i) 0 :=
      ⟨_, foreignRead_eq hdvd k buf, fun i hi => if_pos ⟨by omega, by omega⟩⟩
    have hmul : (k + 1) * sndfileBufferSize = k * sndfileBufferSize + sndfileBufferSize :=
      Nat.succ_mul _ _
    rw [copyLoop]
    simp only [hread]
    by_cases hend : sf.samples.length ≤ k * sndfileBufferSize
    · refine ⟨read, [sf.storeSize sndfileBufferSize k], ?_, fun size => ?_⟩
      · rw [if_neg (by omega), List.drop_eq_nil_of_le hend]
      · rw [List.forall_mem_singleton]
        refine ⟨fun h j hj hreached => ?_, fun h => h k le_rfl (.inl rfl)⟩
        have hlt : ¬ k < j := fun hlt => by
          have hle := Nat.mul_le_mul_right sndfileBufferSize hlt
          rw [Nat.succ_eq_add_one] at hle
          omega
        rwa [le_antisymm (Nat.le_of_not_lt hlt) hj]
    · obtain ⟨buf', stores, hloop, hstores⟩ := @ih (k + 1) (by omega) read
      refine ⟨buf', sf.storeSize sndfileBufferSize k :: stores, ?_, fun size => ?_⟩
      · have hwrite : sf.channels ∣
            min sndfileBufferSize (sf.samples.length - k * sndfileBufferSize) := by
          rcases min_choice sndfileBufferSize (sf.samples.length - k * sndfileBufferSize) with
            hmin | hmin
          · rwa [hmin]
          · rw [hmin]
            exact Nat.dvd_sub sf.channels_dvd (hdvd.mul_left k)
        have htake : (List.range (min sndfileBufferSize
            (sf.samples.length - k * sndfileBufferSize))).map read =
              (sf.samples.drop (k * sndfileBufferSize)).take sndfileBufferSize := by
          rw [List.map_congr_left fun i hi => hvalue i (List.mem_range.mp hi),
            map_range_getD sf.samples 0 (by omega), ← List.length_drop, List.take_eq_take_iff,
            min_assoc, min_self]
        rw [if_pos (by omega), hloop, Option.map_some, foreignWrite, if_pos hwrite, htake, hmul,
          ← List.drop_drop, List.take_append_drop]
      · rw [List.forall_mem_cons, hstores]
        constructor
        · rintro ⟨hk, hnext⟩ j hj hreached
          rcases hj.lt_or_eq with hlt | rfl
          · exact hnext j hlt (.inr (hreached.resolve_left (by omega)))
          · exact hk
        · intro h
          refine ⟨h k le_rfl (.inl rfl), fun j hj hreached => h j (by omega) (.inr ?_)⟩
          rcases hreached with rfl | hreached
          · omega
          · exact hreached

theorem copyLoop_none (h : ¬ (0 < sndfileBufferSize ∧ sf.channels ∣ sndfileBufferSize)) (fuel : ℕ)
    (buf : ℕ → K) :
    ∃ buf', copyLoop sf.channels sndfileBufferSize (fuel + 1) (openStream sf) buf =
      some (buf', [], [0]) := by
  have hitems : (foreignRead (openStream sf) buf sndfileBufferSize).2.2 = (0, 0) := by
    by_cases hdvd : sf.channels ∣ sndfileBufferSize
    · have hzero : sndfileBufferSize = 0 := Nat.eq_zero_of_not_pos fun hpos => h ⟨hpos, hdvd⟩
      simp [foreignRead, hzero]
    · simp [foreignRead, openStream, hdvd]
  obtain ⟨sf', read, hread⟩ : ∃ sf' read,
      foreignRead (openStream sf) buf sndfileBufferSize = (sf', read, 0, 0) :=
    ⟨_, _, Prod.ext rfl (Prod.ext rfl hitems)⟩
  refine ⟨read, ?_⟩
  rw [copyLoop]
  simp only [hread, lt_irrefl, if_false]

variable {channels : ℕ} {inputs : List (Soundfile K)}

theorem copyInputs_eq (hpos : 0 < sndfileBufferSize) (hdvd : channels ∣ sndfileBufferSize)
    (hchannels : ∀ sf ∈ inputs, sf.channels = channels) {fuel : ℕ}
    (hfuel : ∀ sf ∈ inputs, sf.samples.length < fuel) (buf : ℕ → K) :
    ∃ stores, copyInputs channels sndfileBufferSize fuel inputs buf =
        some (inputs.flatMap (·.samples), stores) ∧
      ∀ size, (∀ stored ∈ stores, stored ≤ size) ↔ ∀ sf ∈ inputs,
        ∀ k, k * sndfileBufferSize < sf.samples.length + sndfileBufferSize →
          sf.storeSize sndfileBufferSize k ≤ size := by
  induction inputs generalizing buf with
  | nil => exact ⟨[], rfl, by simp⟩
  | cons sf inputs ih =>
    have hsf := hchannels sf List.mem_cons_self
    subst hsf
    have hlength := hfuel sf List.mem_cons_self
    obtain ⟨buf', stores, hloop, hstores⟩ := @copyLoop_eq K _ _ _ hpos hdvd fuel 0 (by omega) buf
    obtain ⟨stores', hinputs, hstores'⟩ := ih
      (fun sf hsf => hchannels sf (List.mem_cons_of_mem _ hsf))
      (fun sf hsf => hfuel sf (List.mem_cons_of_mem _ hsf)) buf'
    refine ⟨stores ++ stores', ?_, fun size => ?_⟩
    · rw [← openStream_eq, Nat.zero_mul, List.drop_zero] at hloop
      rw [copyInputs, hloop, Option.bind_some]
      simp only [hinputs, Option.map_some, List.flatMap_cons]
    · rw [List.forall_mem_append, hstores, hstores', List.forall_mem_cons]
      refine and_congr_left' ⟨fun h k hk => h k (Nat.zero_le k) (.inr hk), fun h k _ hk => h k ?_⟩
      rcases hk with rfl | hk
      · omega
      · exact hk

theorem copyInputs_none (h : ¬ (0 < sndfileBufferSize ∧ channels ∣ sndfileBufferSize))
    (hchannels : ∀ sf ∈ inputs, sf.channels = channels) (fuel : ℕ) (buf : ℕ → K) :
    copyInputs channels sndfileBufferSize (fuel + 1) inputs buf =
      some ([], inputs.map fun _ => 0) := by
  induction inputs generalizing buf with
  | nil => rfl
  | cons sf inputs ih =>
    have hsf := hchannels sf List.mem_cons_self
    subst hsf
    obtain ⟨buf', hloop⟩ := copyLoop_none h fuel buf
    rw [copyInputs, hloop, Option.bind_some]
    simp only [ih (fun sf hsf => hchannels sf (List.mem_cons_of_mem _ hsf)) buf', Option.map_some]
    rfl

end Concatenation

section Result

variable {bufferSize sndfileBufferSize : ℕ} {scaleBy : Option K} {first : Soundfile K}
  {rest : List (Soundfile K)}

omit [CommRing K] in
theorem checkSoundfilesToCombine_eq (hchannels : ∀ sf ∈ rest, sf.channels = first.channels) :
    checkSoundfilesToCombine first rest =
      if ∀ sf ∈ rest, sf.sampleRate = first.sampleRate then
        some (first.sampleRate, first.channels)
      else none := by
  rw [checkSoundfilesToCombine]
  congr 1
  simp only [List.all_eq_true, Bool.and_eq_true, decide_eq_true_eq, eq_iff_iff]
  exact forall₂_congr fun sf hsf => and_iff_left (hchannels sf hsf)

theorem mixes_iff (hpos : 0 < bufferSize) (hdvd : first.channels ∣ bufferSize)
    (hchannels : ∀ sf ∈ rest, sf.channels = first.channels) (buf tmp : ℕ → K) :
    Mixes bufferSize scaleBy first rest buf tmp ↔
      (∀ sf ∈ rest, sf.sampleRate = first.sampleRate) ∧
        Clean bufferSize scaleBy first rest buf := by
  have hcheck := checkSoundfilesToCombine_eq hchannels
  by_cases hrate : ∀ sf ∈ rest, sf.sampleRate = first.sampleRate
  · rw [if_pos hrate] at hcheck
    have hmerge : ∀ fuel ≥ longest first rest + 2,
        merge fuel bufferSize scaleBy first rest buf tmp =
          some ((List.range (longest first rest)).map
            (output bufferSize scaleBy first rest buf)) := by
      intro fuel hfuel
      have hloop := @mixLoop_eq K _ bufferSize scaleBy first rest buf hpos hdvd hchannels fuel 0
        bufferSize hpos (by omega) tmp
      simp only [Nat.zero_mul, Nat.sub_zero, Nat.zero_add, ← openStream_eq] at hloop
      rw [merge, hcheck, Option.bind_some]
      exact hloop
    have hlist : (List.range (longest first rest)).map (output bufferSize scaleBy first rest buf) =
        (List.range (longest first rest)).map (mixed scaleBy first rest) ↔
          Clean bufferSize scaleBy first rest buf := by
      rw [← output_eq_mixed_iff hpos, List.map_inj_left]
      simp only [List.mem_range]
    rw [and_iff_right hrate, ← hlist]
    constructor
    · rintro ⟨fuel, h⟩
      have hboth := (hmerge (max fuel (longest first rest + 2)) (le_max_right _ _)).symm.trans
        (h _ (le_max_left _ _))
      exact Option.some_inj.mp hboth
    · intro h
      refine ⟨longest first rest + 2, fun fuel hfuel => ?_⟩
      rw [hmerge fuel hfuel, h]
  · rw [if_neg hrate] at hcheck
    refine iff_of_false ?_ fun h => hrate h.1
    rintro ⟨fuel, h⟩
    have hnone := h fuel le_rfl
    rw [merge, hcheck] at hnone
    cases hnone

theorem concatenates_iff (hchannels : ∀ sf ∈ rest, sf.channels = first.channels) (buf : ℕ → K) :
    Concatenates bufferSize sndfileBufferSize first rest buf ↔
      (∀ sf ∈ rest, sf.sampleRate = first.sampleRate) ∧
        Fits bufferSize sndfileBufferSize first rest := by
  have hcheck := checkSoundfilesToCombine_eq hchannels
  have hchannels' : ∀ sf ∈ first :: rest, sf.channels = first.channels :=
    List.forall_mem_cons.mpr ⟨rfl, hchannels⟩
  by_cases hrate : ∀ sf ∈ rest, sf.sampleRate = first.sampleRate
  swap
  · rw [if_neg hrate] at hcheck
    refine iff_of_false ?_ fun h => hrate h.1
    rintro ⟨fuel, h⟩
    obtain ⟨stores, hnone, -⟩ := h fuel le_rfl
    rw [concatenate, hcheck] at hnone
    cases hnone
  rw [if_pos hrate] at hcheck
  have hconcatenate (fuel : ℕ) : concatenate fuel sndfileBufferSize first rest buf =
      copyInputs first.channels sndfileBufferSize fuel (first :: rest) buf := by
    rw [concatenate, hcheck]
    rfl
  rw [and_iff_right hrate, Fits]
  by_cases hblock : 0 < sndfileBufferSize ∧ first.channels ∣ sndfileBufferSize
  · rw [if_pos hblock]
    have hcopy (fuel : ℕ) (hfuel : longest first rest + 1 ≤ fuel) :=
      copyInputs_eq hblock.1 hblock.2 hchannels'
        (fun sf hsf => Nat.lt_of_lt_of_le (Nat.lt_succ_of_le (le_longest sf hsf)) hfuel) buf
    constructor
    · rintro ⟨fuel, h⟩
      obtain ⟨stores, hcopied, hstores⟩ := hcopy (max fuel (longest first rest + 1))
        (le_max_right _ _)
      obtain ⟨stores', hresult, hle⟩ := h (max fuel (longest first rest + 1)) (le_max_left _ _)
      rw [hconcatenate, hcopied] at hresult
      cases hresult
      exact (hstores bufferSize).mp hle
    · intro h
      refine ⟨longest first rest + 1, fun fuel hfuel => ?_⟩
      obtain ⟨stores, hcopied, hstores⟩ := hcopy fuel hfuel
      exact ⟨stores, (hconcatenate fuel).trans hcopied, (hstores bufferSize).mpr h⟩
  · rw [if_neg hblock]
    have hcopy (fuel : ℕ) := copyInputs_none hblock hchannels' fuel buf
    have hempty : ([] : List K) = (first :: rest).flatMap (·.samples) ↔
        ∀ sf ∈ first :: rest, sf.samples = [] := by
      rw [eq_comm, List.flatMap_eq_nil_iff]
    rw [← hempty]
    constructor
    · rintro ⟨fuel, h⟩
      obtain ⟨stores, hresult, -⟩ := h (fuel + 1) (Nat.le_succ fuel)
      rw [hconcatenate, hcopy] at hresult
      exact (Prod.mk.inj (Option.some_inj.mp hresult)).1
    · intro h
      refine ⟨1, fun fuel hfuel => ⟨(first :: rest).map fun _ => 0, ?_, ?_⟩⟩
      · obtain ⟨fuel, rfl⟩ : ∃ fuel', fuel = fuel' + 1 := ⟨fuel - 1, by omega⟩
        rw [hconcatenate, hcopy, h]
      · simp

/-- The two functions combine the files if the sample rates are equal, no old sample survives in the
buffer of the mix and the blocks of the concatenation fit. -/
theorem combines_iff (hpos : 0 < bufferSize) (hdvd : first.channels ∣ bufferSize)
    (hchannels : ∀ sf ∈ rest, sf.channels = first.channels) (buf tmp : ℕ → K) :
    Mixes bufferSize scaleBy first rest buf tmp ∧
        Concatenates bufferSize sndfileBufferSize first rest buf ↔
      (∀ sf ∈ rest, sf.sampleRate = first.sampleRate) ∧ Clean bufferSize scaleBy first rest buf ∧
        Fits bufferSize sndfileBufferSize first rest := by
  rw [mixes_iff hpos hdvd hchannels, concatenates_iff hchannels]
  constructor
  · rintro ⟨⟨hrate, hclean⟩, -, hfits⟩
    exact ⟨hrate, hclean, hfits⟩
  · rintro ⟨hrate, hclean, hfits⟩
    exact ⟨⟨hrate, hclean⟩, hrate, hfits⟩

end Result

def monoFile (samples : List ℤ) : Soundfile ℤ where
  sampleRate := 48000
  channels := 1
  samples := samples
  channels_pos := Nat.one_pos
  channels_dvd := Nat.one_dvd _
  clearP _ := false

theorem combines_iff_monoFile :
    Mixes 4 none (monoFile [1, 2, 3]) [monoFile [5]] (fun _ => 7) (fun _ => 7) ∧
      Concatenates 4 4 (monoFile [1, 2, 3]) [monoFile [5]] fun _ => 7 := by
  refine (combines_iff (by decide) (Nat.one_dvd 4) (by decide) _ _).mpr ⟨by decide, ?_, ?_⟩
  · intro q hq hend
    exact absurd hend (Nat.not_le.mpr hq)
  · intro sf _ k _
    exact storeSize_le sf 4 k

/-- The old contents of the buffer are added to the second sample if the first file is shorter. -/
theorem not_mixes :
    ¬ Mixes 2 none (monoFile [1]) [monoFile [2, 3]] (fun _ => 7) fun _ => 7 := by
  rw [mixes_iff (by decide) (Nat.one_dvd 2) (by decide)]
  rintro ⟨-, hclean⟩
  have hold := hclean 1 (by decide) (by decide) rfl
  revert hold
  decide

example : merge 3 2 none (monoFile [1]) [monoFile [2, 3]] (fun _ => 7) (fun _ => 7) =
    some [3, 10] := by
  decide

end Incudine.SoundfileMerge
