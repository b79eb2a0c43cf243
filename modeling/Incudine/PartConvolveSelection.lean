import Incudine.PartConvolveOutput
import Mathlib.Data.Fin.VecNotation
import Mathlib.Tactic.FinCases

/-!
# Selection of the response

`make-part-convolve-buffer` reads whole partitions from the first frame on, without a check of the
end of the buffer. The output is the convolution with the selected frames if what follows them is
silence and no shift is pending in the FFT. Impulses in the first block show the converse.
-/

namespace Incudine.PartConvolve

open BlockConvolution

section Selection

variable {K : Type*} [Field K]

def selectedFrames (buf : Buffer K) (start : ℕ) (frames : Option ℕ) : ℕ :=
  min (frames.getD buf.frames) (buf.frames - start)

def selection (buf : Buffer K) (start ch i : ℕ) : K := buf.data ((start + i) * buf.channels + ch)

variable {partsize : ℕ}

/-- The output is the convolution with the selected frames, with a delay of a partition. -/
structure ConvolvesWith (plan : FftPlan K (2 * partsize)) (pvbuf : Stft.Pvbuffer K) (buf : Buffer K)
    (start : ℕ) (frames : Option ℕ) : Prop where
  output_eq : ∀ (input : ℕ → K), ∀ ch < buf.channels, ∀ n,
    partConvolve plan pvbuf input ch n =
      conv (signal input) (selection buf start ch) (selectedFrames buf start frames) (n - partsize)
  direct_eq : buf.channels = 1 → start = 0 → selectedFrames buf start frames = buf.frames →
    ∀ (input : ℕ → K) n, partConvolve plan pvbuf input 0 n =
      if n < partsize then 0 else directConvolve buf input (n - partsize)

/-- For each memory after the end of the buffer, the buffer of the response is made and works, also
with a shift that is pending in the FFT of the pool. -/
def Convolves (plan : FftPlan K (2 * partsize)) (hpartsize : 0 < partsize) (shift : ℤ)
    (buf : Buffer K) (start : ℕ) (frames : Option ℕ) : Prop :=
  ∀ memory after, ∃ pvbuf,
    makePartConvolveBuffer plan hpartsize memory shift buf after start frames = some pvbuf ∧
      ConvolvesWith plan pvbuf buf start frames

/-- The frames that are read after the selected ones are in the buffer and are silent. -/
def SilentAfter (buf : Buffer K) (partsize start : ℕ) (frames : Option ℕ) : Prop :=
  ∀ i, selectedFrames buf start frames ≤ i → i < partitions buf partsize frames * partsize →
    start + i < buf.frames ∧ ∀ ch < buf.channels, selection buf start ch i = 0

omit [Field K] in
theorem le_partitions_mul (buf : Buffer K) (hpartsize : 0 < partsize) (frames : Option ℕ) :
    min (frames.getD buf.frames) buf.frames ≤ partitions buf partsize frames * partsize := by
  have hceil : ∀ n, n ≤ (n + partsize - 1) / partsize * partsize := by
    intro n
    have hdiv := Nat.div_add_mod' (n + partsize - 1) partsize
    have hmod := Nat.mod_lt (n + partsize - 1) hpartsize
    omega
  cases frames with
  | none =>
    rw [Option.getD_none, Nat.min_self]
    exact hceil buf.frames
  | some frames => exact hceil (min frames buf.frames)

omit [Field K] in
theorem selectedFrames_le (buf : Buffer K) (hpartsize : 0 < partsize) (start : ℕ)
    (frames : Option ℕ) :
    selectedFrames buf start frames ≤ partitions buf partsize frames * partsize := by
  have hle := le_partitions_mul buf hpartsize frames
  rw [selectedFrames]
  omega

omit [Field K] in
theorem partitions_pos (buf : Buffer K) (hpartsize : 0 < partsize) {frames : Option ℕ}
    (hframes : ∀ n ∈ frames, 0 < n) : 0 < partitions buf partsize frames := by
  have hle := le_partitions_mul buf hpartsize frames
  have hbuf := buf.frames_pos
  have hpos : 0 < frames.getD buf.frames := by
    cases frames with
    | none => exact hbuf
    | some frames => exact hframes frames rfl
  exact Nat.pos_of_mul_pos_right (Nat.lt_of_lt_of_le (by omega) hle)

omit [Field K] in
theorem response_of_lt (buf : Buffer K) (after : ℕ → K) {start ch i : ℕ} (hch : ch < buf.channels)
    (hi : start + i < buf.frames) : response buf after start ch i = selection buf start ch i := by
  have hmul := Nat.mul_le_mul_right buf.channels hi
  rw [Nat.succ_mul] at hmul
  rw [response, Buffer.value, Buffer.size, if_pos (by omega), selection]

omit [Field K] in
theorem response_of_le (buf : Buffer K) (after : ℕ → K) {start ch i : ℕ}
    (hi : buf.frames ≤ start + i) :
    response buf after start ch i = after ((start + i) * buf.channels + ch) := by
  have hmul := Nat.mul_le_mul_right buf.channels hi
  rw [response, Buffer.value, Buffer.size, if_neg (by omega)]

omit [Field K] in
theorem response_of_selected {buf : Buffer K} {start : ℕ} {frames : Option ℕ} (after : ℕ → K)
    {ch i : ℕ} (hch : ch < buf.channels) (hi : i < selectedFrames buf start frames) :
    response buf after start ch i = selection buf start ch i := by
  rw [selectedFrames] at hi
  exact response_of_lt buf after hch (by omega)

theorem partArray_eq {h : ℕ → ℕ → K} {shift : ℤ}
    (hshift : ((2 * partsize : ℕ) : ℤ) ∣ shift ∨ ∀ i < partsize, h 0 i = 0) (ch p : ℕ) {j : ℕ}
    (hj : j < 2 * partsize) :
    partArray partsize shift h ch p j = padded partsize (part partsize (h ch) p) j := by
  rw [partArray]
  split_ifs with hfirst
  · obtain ⟨rfl, rfl⟩ := hfirst
    rcases hshift with ⟨c, hc⟩ | hsilent
    · rw [hc, CircularShift.toNat_emod_eq hj (-c) (by rw [mul_neg, sub_eq_add_neg])]
    · have hzero : ∀ i, padded partsize (part partsize (h 0) 0) i = 0 := by
        intro i
        rw [padded, part, Nat.zero_mul, Nat.zero_add]
        split_ifs with hi
        · exact hsilent i hi
        · rfl
      rw [hzero, hzero]
  · rfl

variable [CharZero K]

theorem partConvolve_conv {plan : FftPlan K (2 * partsize)} {pvbuf : Stft.Pvbuffer K}
    {channels parts : ℕ} {h : ℕ → ℕ → K} {shift : ℤ}
    (hpv : Partitioned plan pvbuf channels parts (partArray partsize shift h)) (hparts : 0 < parts)
    (hpartsize : 0 < partsize)
    (hshift : ((2 * partsize : ℕ) : ℤ) ∣ shift ∨ ∀ i < partsize, h 0 i = 0) (input : ℕ → K) {ch : ℕ}
    (hch : ch < channels) (n : ℕ) :
    partConvolve plan pvbuf input ch n =
      conv (signal input) (h ch) (parts * partsize) (n - partsize) := by
  have hposition : (((n / partsize : ℕ) : ℤ) - 1) * partsize + (n % partsize : ℕ) = n - partsize := by
    have hdiv := Nat.div_add_mod' n partsize
    zify at hdiv
    push_cast
    linarith
  rw [partConvolve_overlapped hpv hparts hpartsize hch, ← hposition,
    ← overlap_add (Nat.mod_lt n hpartsize)]
  have hcircular : ∀ q i (a : ℕ → K), circular (2 * partsize) a (partArray partsize shift h ch q) i =
      circular (2 * partsize) a (padded partsize (part partsize (h ch) q)) i :=
    fun q i a => circular_congr a (fun j hj => partArray_eq hshift ch q hj) i
  simp only [overlapped, hcircular]

/-- The frames after the selected ones are silent, and the pending shift does not move the first
part. -/
structure Meets (buf : Buffer K) (partsize : ℕ) (shift : ℤ) (start : ℕ) (frames : Option ℕ) :
    Prop where
  channels_le : buf.channels ≤ Stft.maximumChannelNumber + 1
  silent : SilentAfter buf partsize start frames
  unshifted : ((2 * partsize : ℕ) : ℤ) ∣ shift ∨
    ∀ i < partsize, i < selectedFrames buf start frames → selection buf start 0 i = 0

section Sufficient

variable {plan : FftPlan K (2 * partsize)} {buf : Buffer K} {shift : ℤ} {start : ℕ}
  {frames : Option ℕ}

omit [CharZero K] in
theorem SilentAfter.response_eq (h : SilentAfter buf partsize start frames) (after : ℕ → K)
    {ch i : ℕ} (hch : ch < buf.channels) (hle : selectedFrames buf start frames ≤ i)
    (hlt : i < partitions buf partsize frames * partsize) : response buf after start ch i = 0 := by
  obtain ⟨hinside, hsilence⟩ := h i hle hlt
  rw [response_of_lt buf after hch hinside]
  exact hsilence ch hch

omit [CharZero K] in
theorem SilentAfter.conv_eq (h : SilentAfter buf partsize start frames) (hpartsize : 0 < partsize)
    (after : ℕ → K) (x : ℤ → K) {ch : ℕ} (hch : ch < buf.channels) (n : ℤ) :
    conv x (response buf after start ch) (partitions buf partsize frames * partsize) n =
      conv x (selection buf start ch) (selectedFrames buf start frames) n := by
  rw [conv_eq_of_zero x (selectedFrames_le buf hpartsize start frames)
    fun i hle hlt => h.response_eq after hch hle hlt]
  refine Finset.sum_congr rfl fun i hi => ?_
  exact congrArg (x (n - i) * ·) (response_of_selected after hch (Finset.mem_range.mp hi))

theorem Meets.convolves (h : Meets buf partsize shift start frames) (hpartsize : 0 < partsize)
    (hframes : ∀ n ∈ frames, 0 < n) : Convolves plan hpartsize shift buf start frames := by
  intro memory after
  have hparts := partitions_pos buf hpartsize hframes
  obtain ⟨pvbuf, hmake, hpv⟩ := makePartConvolveBuffer_partitioned plan hpartsize memory shift buf
    after start h.channels_le hparts
  have hfirst : ((2 * partsize : ℕ) : ℤ) ∣ shift ∨
      ∀ i < partsize, response buf after start 0 i = 0 := by
    refine h.unshifted.imp_right fun hsilent i hi => ?_
    rcases Nat.lt_or_ge i (selectedFrames buf start frames) with hlt | hle
    · rw [response_of_selected after buf.channels_pos hlt]
      exact hsilent i hi hlt
    · refine h.silent.response_eq after buf.channels_pos hle ?_
      exact hi.trans_le (Nat.le_mul_of_pos_left partsize hparts)
  have houtput : ∀ (input : ℕ → K), ∀ ch < buf.channels, ∀ n, partConvolve plan pvbuf input ch n =
      conv (signal input) (selection buf start ch) (selectedFrames buf start frames)
        (n - partsize) := by
    intro input ch hch n
    rw [partConvolve_conv hpv hparts hpartsize hfirst input hch,
      h.silent.conv_eq hpartsize after _ hch]
  refine ⟨pvbuf, hmake, houtput, fun hchannels hstart hall input n => ?_⟩
  rw [houtput input 0 (hchannels ▸ Nat.one_pos), hall]
  split_ifs with hn
  · refine Finset.sum_eq_zero fun m _ => ?_
    rw [signal, if_neg (by omega), zero_mul]
  · have hsize : buf.size = buf.frames := by rw [Buffer.size, hchannels, Nat.mul_one]
    have hselection : selection buf start 0 = buf.data := by
      funext i
      rw [selection, hstart, hchannels, Nat.zero_add, Nat.mul_one, Nat.add_zero]
    rw [directConvolve_eq, hselection, hsize, Nat.cast_sub (Nat.le_of_not_lt hn)]

end Sufficient

section Impulses

variable {parts : ℕ} {v : ℕ → ℕ → K} {m₀ m : ℕ}

omit [CharZero K]

theorem sum_impulse (hm₀ : m₀ < partsize) {q : ℕ} (hq : q < parts) (i : ℕ) :
    ∑ q' ∈ Finset.range parts, circular (2 * partsize)
      (padded partsize (block partsize (fun k => if k = m₀ then 1 else 0) ((q : ℤ) - q'))) (v q') i =
        v q ((i + (2 * partsize - m₀)) % (2 * partsize)) := by
  rw [Finset.sum_eq_single q]
  · rw [padded_block_impulse hm₀, sub_self, if_pos rfl, circular_impulse _ (by omega)]
  · intro q' _ hne
    rw [padded_block_impulse hm₀, if_neg (by omega)]
    simp [circular]
  · exact fun h => absurd (Finset.mem_range.mpr hq) h

theorem sum_impulse_of_ne (hm₀ : m₀ < partsize) {t : ℤ} (ht : ∀ q < parts, t ≠ q) (i : ℕ) :
    ∑ q' ∈ Finset.range parts, circular (2 * partsize)
      (padded partsize (block partsize (fun k => if k = m₀ then 1 else 0) (t - q'))) (v q') i = 0 := by
  refine Finset.sum_eq_zero fun q' hq' => ?_
  have hne := ht q' (Finset.mem_range.mp hq')
  rw [padded_block_impulse hm₀, if_neg (by omega)]
  simp [circular]

variable (v) in
theorem overlapped_impulse (hm₀ : m₀ < partsize) (p : ℕ) :
    overlapped partsize parts v (fun k => if k = m₀ then 1 else 0) p m =
      (if p < parts then v p ((m + (2 * partsize - m₀)) % (2 * partsize)) else 0) +
        if 0 < p ∧ p ≤ parts then
          v (p - 1) ((partsize + m + (2 * partsize - m₀)) % (2 * partsize))
        else 0 := by
  rw [overlapped]
  congr 1
  · split_ifs with hp
    · exact sum_impulse hm₀ hp m
    · exact sum_impulse_of_ne hm₀ (by omega) m
  · split_ifs with hp
    · have hprevious : (p : ℤ) - 1 = (p - 1 : ℕ) := by omega
      rw [hprevious]
      exact sum_impulse hm₀ (by omega) (partsize + m)
    · exact sum_impulse_of_ne hm₀ (by omega) (partsize + m)

end Impulses

section Necessary

variable {plan : FftPlan K (2 * partsize)} {hpartsize : 0 < partsize} {buf : Buffer K} {shift : ℤ}
  {start : ℕ} {frames : Option ℕ}

omit [CharZero K] in
theorem Convolves.channels_le (h : Convolves plan hpartsize shift buf start frames) :
    buf.channels ≤ Stft.maximumChannelNumber + 1 := by
  by_contra hlt
  obtain ⟨pvbuf, hmake, -⟩ := h (fun _ => 0) fun _ => 0
  rw [makePartConvolveBuffer_of_lt _ _ _ _ _ _ _ (Nat.lt_of_not_le hlt)] at hmake
  exact Option.some_ne_none _ hmake.symm

/-- The response to an impulse in the first block. -/
theorem Convolves.impulse (h : Convolves plan hpartsize shift buf start frames)
    (hframes : ∀ n ∈ frames, 0 < n) (after : ℕ → K) {ch m₀ m : ℕ} (hch : ch < buf.channels)
    (hm₀ : m₀ < partsize) (hm : m < partsize) (p : ℕ) :
    ((if p < partitions buf partsize frames then
        partArray partsize shift (response buf after start) ch p
          ((m + (2 * partsize - m₀)) % (2 * partsize))
      else 0) +
      if 0 < p ∧ p ≤ partitions buf partsize frames then
        partArray partsize shift (response buf after start) ch (p - 1)
          ((partsize + m + (2 * partsize - m₀)) % (2 * partsize))
      else 0) =
    conv (fun k => if k = m₀ then 1 else 0) (selection buf start ch)
      (selectedFrames buf start frames) (p * partsize + m : ℕ) := by
  obtain ⟨pvbuf, hmake, hwith⟩ := h (fun _ => 0) after
  have hparts := partitions_pos buf hpartsize hframes
  obtain ⟨pvbuf', hmake', hpv⟩ := makePartConvolveBuffer_partitioned plan hpartsize (fun _ => 0) shift
    buf after start h.channels_le hparts
  have hpvbuf : pvbuf' = pvbuf := Option.some.inj (hmake'.symm.trans hmake)
  rw [hpvbuf] at hpv
  let impulse : ℕ → K := fun n => if n = m₀ then 1 else 0
  have himpulse : signal impulse = fun k : ℤ => if k = m₀ then 1 else 0 := by
    funext k
    simp only [signal, impulse]
    split_ifs <;> first | rfl | omega
  have houtput := hwith.output_eq impulse ch hch ((p + 1) * partsize + m)
  have hdiv : ((p + 1) * partsize + m) / partsize = p + 1 := by
    rw [Nat.mul_comm, Nat.mul_add_div hpartsize, Nat.div_eq_of_lt hm, Nat.add_zero]
  have hmod : ((p + 1) * partsize + m) % partsize = m := by
    rw [Nat.mul_comm, Nat.mul_add_mod, Nat.mod_eq_of_lt hm]
  have hblock : ((p + 1 : ℕ) : ℤ) - 1 = p := by omega
  have htime : (((p + 1) * partsize + m : ℕ) : ℤ) - partsize = (p * partsize + m : ℕ) := by
    push_cast
    ring
  rw [partConvolve_overlapped hpv hparts hpartsize hch, hdiv, hmod, hblock, htime, himpulse,
    overlapped_impulse _ hm₀] at houtput
  exact houtput

variable (h : Convolves plan hpartsize shift buf start frames) (hframes : ∀ n ∈ frames, 0 < n)
  (after : ℕ → K)
include h hframes

theorem Convolves.first_eq {ch m : ℕ} (hch : ch < buf.channels) (hm : m < partsize) :
    partArray partsize shift (response buf after start) ch 0 m =
      if m < selectedFrames buf start frames then selection buf start ch m else 0 := by
  have houtput := h.impulse hframes after hch hpartsize hm 0
  rw [if_pos (partitions_pos buf hpartsize hframes), if_neg (by omega), add_zero, Nat.sub_zero,
    Nat.add_mod_right, Nat.mod_eq_of_lt (by omega), Nat.zero_mul] at houtput
  have htime : ((0 + m : ℕ) : ℤ) = (0 : ℕ) + m := by omega
  rw [houtput, htime]
  split_ifs with hin
  · exact conv_impulse _ 0 hin
  · exact conv_impulse_of_le _ 0 (Nat.le_of_not_lt hin)

theorem Convolves.first_eq_zero {ch i : ℕ} (hch : ch < buf.channels) (hi : partsize < i)
    (hlt : i < 2 * partsize) : partArray partsize shift (response buf after start) ch 0 i = 0 := by
  have houtput := @Convolves.impulse _ _ _ _ _ _ _ _ _ _ h hframes after ch (partsize - 1)
    (i - partsize - 1) hch (by omega) (by omega) 0
  have hindex : i - partsize - 1 + (2 * partsize - (partsize - 1)) = i := by omega
  rw [if_pos (partitions_pos buf hpartsize hframes), if_neg (by omega), add_zero, hindex,
    Nat.mod_eq_of_lt hlt] at houtput
  rw [houtput]
  refine Finset.sum_eq_zero fun j _ => ?_
  have hne : ¬ (((0 * partsize + (i - partsize - 1) : ℕ) : ℤ) - j = (partsize - 1 : ℕ)) := by omega
  exact (congrArg (· * _) (if_neg hne)).trans (zero_mul _)

theorem Convolves.next_eq {ch p m : ℕ} (hch : ch < buf.channels) (hm : m < partsize) (hp : 0 < p)
    (hle : p ≤ partitions buf partsize frames) (hend : selectedFrames buf start frames ≤ p * partsize + m) :
    (if p < partitions buf partsize frames then response buf after start ch (p * partsize + m)
      else 0) + partArray partsize shift (response buf after start) ch (p - 1) (partsize + m) = 0 := by
  have houtput := h.impulse hframes after hch hpartsize hm p
  have htime : ((p * partsize + m : ℕ) : ℤ) = (0 : ℕ) + (p * partsize + m : ℕ) := by omega
  have hpart : partArray partsize shift (response buf after start) ch p m =
      response buf after start ch (p * partsize + m) := by
    rw [partArray, if_neg (by omega), padded_of_lt hm, part]
  have hbound : 0 < p ∧ p ≤ partitions buf partsize frames := ⟨hp, hle⟩
  simp only [if_pos hbound] at houtput
  rw [Nat.sub_zero, Nat.add_mod_right, Nat.add_mod_right, Nat.mod_eq_of_lt (by omega),
    Nat.mod_eq_of_lt (by omega), hpart, htime, conv_impulse_of_le _ 0 hend] at houtput
  exact houtput

omit h hframes hpartsize [CharZero K] in
theorem partArray_perm (hpartsize : 0 < partsize) (h : ℕ → ℕ → K) :
    ((List.range (2 * partsize)).map (partArray partsize shift h 0 0)).Perm
      ((List.range (2 * partsize)).map (padded partsize (part partsize (h 0) 0))) := by
  set l := (List.range (2 * partsize)).map (padded partsize (part partsize (h 0) 0)) with hl
  have hlength : l.length = 2 * partsize := by simp [hl]
  have hrotated : (List.range (2 * partsize)).map (partArray partsize shift h 0 0) =
      FftStream.rotated l shift := by
    apply List.ext_getElem
    · rw [FftStream.rotated, List.length_rotate, hlength, List.length_map, List.length_range]
    · intro i hi hi'
      have hlt := Int.emod_lt_of_pos ((i : ℤ) - shift) (show (0 : ℤ) < (2 * partsize : ℕ) by omega)
      rw [FftStream.getElem_rotated, hlength, List.getD_eq_getElem _ _ (by omega)]
      simp [hl, partArray]
  rw [hrotated]
  exact List.rotate_perm _ _

theorem Convolves.first_of_lt {i : ℕ} (hi : i < partsize)
    (hin : i < selectedFrames buf start frames) :
    partArray partsize shift (response buf after start) 0 0 i =
      padded partsize (part partsize (response buf after start 0) 0) i := by
  rw [h.first_eq hframes after buf.channels_pos hi, if_pos hin, padded_of_lt hi, part, Nat.zero_mul,
    Nat.zero_add, response_of_selected after buf.channels_pos hin]

/-- If what is read of the first part after the selected frames is silent, so is the middle of the
rotated array. -/
theorem Convolves.middle_eq_zero
    (hsilent : ∀ i, selectedFrames buf start frames ≤ i → i < partsize →
      response buf after start 0 i = 0) :
    partArray partsize shift (response buf after start) 0 0 partsize = 0 := by
  refine eq_zero_of_perm (s := min (selectedFrames buf start frames) partsize)
    (partArray_perm hpartsize (response buf after start)).symm (by omega) ?_ ?_ partsize (by omega)
    (by omega)
  · intro i hi
    exact (h.first_of_lt hframes after (by omega) (by omega)).symm
  · intro i hle hlt
    rcases Nat.lt_or_ge i partsize with hin | hout
    · rw [padded_of_lt hin, part, Nat.zero_mul, Nat.zero_add]
      exact hsilent i (by omega) hin
    · exact padded_of_le hout _

/-- Another part is read after the end of the buffer. -/
theorem Convolves.partitions_eq (hlt : selectedFrames buf start frames < partsize) :
    partitions buf partsize frames = 1 := by
  by_contra hne
  have hparts := partitions_pos buf hpartsize hframes
  have hmin : partsize < min (frames.getD buf.frames) buf.frames := by
    by_contra hnot
    have hdiv : partitions buf partsize frames ≤ 1 := by
      refine Nat.le_of_lt_succ ((Nat.div_lt_iff_lt_mul hpartsize).mpr ?_)
      cases frames <;> simp only [Option.getD_none, Option.getD_some] at hnot ⊢ <;> omega
    omega
  have hend : buf.frames < start + partsize := by
    rw [selectedFrames] at hlt
    omega
  have hstart : ∀ i, selectedFrames buf start frames ≤ i → buf.frames ≤ start + i := by
    intro i hi
    rw [selectedFrames] at hi hlt
    omega
  let after : ℕ → K := fun i => if i = (start + partsize) * buf.channels then 1 else 0
  have hmiddle := h.middle_eq_zero hframes after fun i hi hin => by
    have hmul := Nat.mul_lt_mul_of_pos_right (Nat.add_lt_add_left hin start) buf.channels_pos
    rw [response_of_le buf after (hstart i hi)]
    exact if_neg (by omega)
  have hnext := h.next_eq hframes after buf.channels_pos hpartsize Nat.one_pos hparts (by omega)
  rw [if_pos (by omega), Nat.sub_self, Nat.add_zero, Nat.add_zero, hmiddle, add_zero, Nat.one_mul,
    response_of_le buf after (by omega)] at hnext
  exact one_ne_zero ((if_pos rfl).symm.trans hnext)

theorem Convolves.middle_zero :
    partArray partsize shift (response buf after start) 0 0 partsize = 0 := by
  rcases Nat.lt_or_ge (selectedFrames buf start frames) partsize with hlt | hge
  · have hnext := h.next_eq hframes after buf.channels_pos hpartsize Nat.one_pos
      (h.partitions_eq hframes hlt).ge (by omega)
    rwa [if_neg (h.partitions_eq hframes hlt).not_gt, zero_add] at hnext
  · exact h.middle_eq_zero hframes after fun i hi hin => by omega

theorem Convolves.first_silent {i : ℕ} (hi : i < partsize)
    (hle : selectedFrames buf start frames ≤ i) : response buf after start 0 i = 0 := by
  have hzero := eq_zero_of_perm (s := min (selectedFrames buf start frames) partsize)
    (@partArray_perm _ _ _ shift hpartsize (response buf after start)) (by omega)
    (fun i hi => h.first_of_lt hframes after (by omega) (by omega)) ?_ i (by omega) (by omega)
  · rwa [padded_of_lt hi, part, Nat.zero_mul, Nat.zero_add] at hzero
  · intro j hle hlt
    rcases Nat.lt_trichotomy j partsize with hin | rfl | hout
    · rw [h.first_eq hframes after buf.channels_pos hin, if_neg (by omega)]
    · exact h.middle_zero hframes after
    · exact h.first_eq_zero hframes after buf.channels_pos hout hlt

theorem Convolves.response_eq_zero {ch i : ℕ} (hch : ch < buf.channels)
    (hle : selectedFrames buf start frames ≤ i)
    (hlt : i < partitions buf partsize frames * partsize) : response buf after start ch i = 0 := by
  have hdiv := Nat.div_add_mod' i partsize
  have hmod := Nat.mod_lt i hpartsize
  have hblock : i / partsize < partitions buf partsize frames := Nat.div_lt_of_lt_mul (by rwa [Nat.mul_comm])
  rcases Nat.eq_zero_or_pos (i / partsize) with hzero | hpos
  · rw [hzero, Nat.zero_mul, Nat.zero_add] at hdiv
    rcases Nat.eq_zero_or_pos ch with rfl | hother
    · exact h.first_silent hframes after (by omega) hle
    · have hfirst := h.first_eq hframes after hch (show i < partsize by omega)
      rwa [if_neg (by omega), partArray, if_neg (by omega), padded_of_lt (by omega), part,
        Nat.zero_mul, Nat.zero_add] at hfirst
  · have hnext := h.next_eq hframes after hch hmod hpos hblock.le (by omega)
    rw [if_pos hblock, hdiv] at hnext
    have htail : partArray partsize shift (response buf after start) ch (i / partsize - 1)
        (partsize + i % partsize) = 0 := by
      by_cases hfirst : ch = 0 ∧ i / partsize - 1 = 0
      · rw [hfirst.1, hfirst.2]
        rcases Nat.eq_zero_or_pos (i % partsize) with hmiddle | hrest
        · rw [hmiddle]
          exact h.middle_zero hframes after
        · exact h.first_eq_zero hframes after buf.channels_pos (by omega) (by omega)
      · rw [partArray, if_neg hfirst, padded_of_le (by omega)]
    rwa [htail, add_zero] at hnext

theorem Convolves.silentAfter : SilentAfter buf partsize start frames := by
  intro i hle hlt
  have hinside : start + i < buf.frames := by
    by_contra hnot
    have hone := h.response_eq_zero hframes (fun _ => 1) buf.channels_pos hle hlt
    rw [response_of_le buf _ (Nat.le_of_not_lt hnot)] at hone
    exact one_ne_zero hone
  refine ⟨hinside, fun ch hch => ?_⟩
  rw [← response_of_lt buf (fun _ => 0) hch hinside]
  exact h.response_eq_zero hframes _ hch hle hlt

theorem Convolves.unshifted : ((2 * partsize : ℕ) : ℤ) ∣ shift ∨
    ∀ i < partsize, i < selectedFrames buf start frames → selection buf start 0 i = 0 := by
  by_cases hdvd : ((2 * partsize : ℕ) : ℤ) ∣ shift
  · exact .inl hdvd
  right
  have hpos : (0 : ℤ) < (2 * partsize : ℕ) := by omega
  have hnonneg := Int.emod_nonneg (-shift) hpos.ne'
  have hlt := Int.emod_lt_of_pos (-shift) hpos
  have hturn : (-shift) % (2 * partsize : ℕ) ≠ 0 :=
    fun hzero => hdvd (Int.dvd_neg.mp (Int.dvd_of_emod_eq_zero hzero))
  have hsame : ∀ i < 2 * partsize, partArray partsize shift (response buf (fun _ => 0) start) 0 0 i =
      padded partsize (part partsize (response buf (fun _ => 0) start 0) 0) i := by
    intro i hi
    rcases Nat.lt_trichotomy i partsize with hin | rfl | hout
    · rcases Nat.lt_or_ge i (selectedFrames buf start frames) with hsel | hsel
      · exact h.first_of_lt hframes _ hin hsel
      · rw [h.first_eq hframes _ buf.channels_pos hin, if_neg (by omega), padded_of_lt hin, part,
          Nat.zero_mul, Nat.zero_add, h.first_silent hframes _ hin hsel]
    · rw [h.middle_zero hframes, padded_of_le le_rfl]
    · rw [h.first_eq_zero hframes _ buf.channels_pos hout hi, padded_of_le (by omega)]
  have hzero := @eq_zero_of_turned K _ partsize ((-shift) % (2 * partsize : ℕ)).toNat
    (part partsize (response buf (fun _ => 0) start 0) 0) (by omega) (by omega) fun i hi => by
      rw [← hsame i hi, partArray, if_pos ⟨rfl, rfl⟩]
      congr 1
      have hcast : (((i + ((-shift) % (2 * partsize : ℕ)).toNat) % (2 * partsize) : ℕ) : ℤ) =
          ((i : ℤ) - shift) % (2 * partsize : ℕ) := by
        rw [Int.natCast_emod, Int.natCast_add, Int.toNat_of_nonneg hnonneg, Int.add_emod_emod,
          Int.sub_eq_add_neg]
      rw [← hcast, Int.toNat_natCast]
  intro i hi hin
  have hpart := hzero i hi
  rwa [part, Nat.zero_mul, Nat.zero_add, response_of_selected _ buf.channels_pos hin] at hpart

end Necessary

end Selection

def plan : FftPlan ℚ (2 * 2) where
  forward := fun a => ![(a 0 + a 1 + a 2 + a 3, 0), (a 0 - a 2, a 3 - a 1), (a 0 - a 1 + a 2 - a 3, 0)]
  inverse := fun a => ![(a 0).1 + 2 * (a 1).1 + (a 2).1, (a 0).1 - 2 * (a 1).2 - (a 2).1,
    (a 0).1 - 2 * (a 1).1 + (a 2).1, (a 0).1 + 2 * (a 1).2 - (a 2).1]
  inverse_add := by
    intro a b
    funext i
    fin_cases i <;> simp <;> ring
  inverse_mul := by
    intro a b i
    fin_cases i <;> simp [complexMul, circular, Finset.sum_range_succ] <;> ring

def buffer : Buffer ℚ where
  frames := 2
  frames_pos := Nat.two_pos
  channels := 1
  channels_pos := Nat.one_pos
  data := fun _ => 1

/-- With the size two of a partition, the second frame is read. -/
theorem not_convolves_buffer : ¬ Convolves plan Nat.two_pos 0 buffer 0 (some 1) := by
  intro h
  have hsilent := h.silentAfter (by simp) 1 (by decide) (by decide)
  exact absurd (hsilent.2 0 (by decide)) one_ne_zero

/-- The partitioned convolution is the convolution exactly if the partitions end with the selected
frames, or with silence after them, and the shift that is pending in the FFT does not move the first
part of the first channel. -/
theorem convolves_iff {K : Type*} [Field K] [CharZero K] {partsize : ℕ} (hpartsize : 0 < partsize)
    (plan : FftPlan K (2 * partsize)) (shift : ℤ) (buf : Buffer K) (start : ℕ) {frames : Option ℕ}
    (hframes : ∀ n ∈ frames, 0 < n) :
    Convolves plan hpartsize shift buf start frames ↔ Meets buf partsize shift start frames := by
  constructor
  · intro h
    exact ⟨h.channels_le, h.silentAfter hframes, h.unshifted hframes⟩
  · intro h
    exact h.convolves hpartsize hframes

theorem convolves_iff_buffer : Convolves plan Nat.two_pos 0 buffer 0 (some 2) ∧
    ¬ Convolves plan Nat.two_pos 1 buffer 0 (some 2) := by
  constructor
  · rw [convolves_iff Nat.two_pos plan 0 buffer 0 (by simp)]
    refine ⟨by decide, ?_, .inl (dvd_zero _)⟩
    intro i hle hlt
    have hselected : selectedFrames buffer 0 (some 2) = 2 := rfl
    have hpartitions : partitions buffer 2 (some 2) = 1 := rfl
    omega
  · rw [convolves_iff Nat.two_pos plan 1 buffer 0 (by simp)]
    intro h
    rcases h.unshifted with hdvd | hsilent
    · exact absurd hdvd (by decide)
    · exact one_ne_zero (hsilent 0 Nat.two_pos (by decide))

end Incudine.PartConvolve
