import Incudine.PartConvolveBuffer
import Mathlib.Algebra.BigOperators.Pi
import Mathlib.Tactic.Linarith

/-!
# Output of the convolvers

After each block of inputs, the frequency delay line contains the spectra of the last blocks from
its head on, and the output buffer contains the next outputs with the tail of the last block.
-/

namespace Incudine.PartConvolve

open BlockConvolution CircularArray Finset ForeignMemory Function

variable {K : Type*} [Field K]

section Spectra

variable {size : ℕ} (plan : FftPlan K size)

/-- The bins have the products of the spectrum of a block. -/
def Represents (spectrum : Fin (size / 2 + 1) → K × K) (a : ℕ → K) : Prop :=
  ∀ (b : ℕ → K) (i : Fin size),
    plan.inverse (fun k => complexMul (spectrum k) (plan.forward (fun j => b j) k)) i =
      size * circular size a b i

theorem represents_forward (a : ℕ → K) : Represents plan (plan.forward fun j => a j) a :=
  fun b i => plan.inverse_mul a b i

theorem inverse_zero : plan.inverse 0 = 0 := by
  have h := plan.inverse_add 0 0
  rw [add_zero] at h
  exact left_eq_add.mp h

theorem represents_zero : Represents plan 0 (fun _ => 0) := by
  intro b i
  have hmul : (fun k => complexMul ((0 : Fin (size / 2 + 1) → K × K) k)
      (plan.forward (fun j => b j) k)) = 0 := by
    funext k
    simp [complexMul]
  rw [hmul, inverse_zero]
  simp [circular]

theorem inverse_sum {ι : Type*} (s : Finset ι) (g : ι → Fin (size / 2 + 1) → K × K) :
    plan.inverse (∑ q ∈ s, g q) = ∑ q ∈ s, plan.inverse (g q) := by
  classical
  induction s using Finset.induction_on with
  | empty => exact inverse_zero plan
  | insert q s hq ih => rw [Finset.sum_insert hq, Finset.sum_insert hq, plan.inverse_add, ih]

end Spectra

section Products

variable (fdlBeg irBeg : ℕ → K)

theorem multiplyPartition_spec : ∀ n out fdl ir (mem : ℕ → K), ∃ mem',
    multiplyPartition fdlBeg irBeg n out (fdl, ir, mem) = (fdl + 2 * n, ir + 2 * n, mem') ∧
      (∀ i, i < out ∨ out + 2 * n ≤ i → mem' i = mem i) ∧
      ∀ k < n, (mem' (out + 2 * k), mem' (out + 2 * k + 1)) =
        (mem (out + 2 * k), mem (out + 2 * k + 1)) +
          complexMul (fdlBeg (fdl + 2 * k), fdlBeg (fdl + 2 * k + 1))
            (irBeg (ir + 2 * k), irBeg (ir + 2 * k + 1)) := by
  intro n
  induction n with
  | zero => exact fun out fdl ir mem => ⟨mem, rfl, fun _ _ => rfl, nofun⟩
  | succ n ih =>
    intro out fdl ir mem
    let a := (fdlBeg fdl, fdlBeg (fdl + 1))
    let b := (irBeg ir, irBeg (ir + 1))
    let mem₁ := update mem out (mem out + (a.1 * b.1 - a.2 * b.2))
    let mem₂ := update mem₁ (out + 1) (mem₁ (out + 1) + (a.1 * b.2 + a.2 * b.1))
    have hone : mem₁ (out + 1) = mem (out + 1) := update_of_ne (by omega) _ _
    have hout : mem₂ out = mem out + (a.1 * b.1 - a.2 * b.2) :=
      (update_of_ne (by omega) _ _).trans (update_self _ _ _)
    have hout' : mem₂ (out + 1) = mem (out + 1) + (a.1 * b.2 + a.2 * b.1) :=
      (update_self _ _ _).trans (congrArg (· + _) hone)
    have hother : ∀ i, i ≠ out → i ≠ out + 1 → mem₂ i = mem i := fun i h₁ h₂ =>
      (update_of_ne h₂ _ _).trans (update_of_ne h₁ _ _)
    obtain ⟨mem', heq, hsame, hprod⟩ := ih (out + 2) (fdl + 2) (ir + 2) mem₂
    refine ⟨mem', ?_, fun i hi => ?_, fun k hk => ?_⟩
    · have hfdl : fdl + 2 + 2 * n = fdl + 2 * (n + 1) := by omega
      have hir : ir + 2 + 2 * n = ir + 2 * (n + 1) := by omega
      rw [← hfdl, ← hir]
      exact heq
    · rw [hsame i (by omega), hother i (by omega) (by omega)]
    · cases k with
      | zero =>
        simp only [Nat.mul_zero, Nat.add_zero]
        rw [hsame out (by omega), hsame (out + 1) (by omega), hout, hout']
        rfl
      | succ k =>
        have hk' := hprod k (by omega)
        have h₁ : ∀ m, m + 2 + 2 * k = m + 2 * (k + 1) := fun m => by omega
        simp only [h₁] at hk'
        rw [hk', hother _ (by omega) (by omega), hother _ (by omega) (by omega)]

theorem multiplyPartition_bins (size fdl ir : ℕ) (mem : ℕ → K) : ∃ mem',
    multiplyPartition fdlBeg irBeg (2 * (size / 2 + 1) / 2) 0 (fdl, ir, mem) =
      (fdl + 2 * (size / 2 + 1), ir + 2 * (size / 2 + 1), mem') ∧
      bins size mem' = bins size mem + fun k =>
        complexMul (bins size (fun i => fdlBeg (fdl + i)) k) (bins size (fun i => irBeg (ir + i)) k) := by
  rw [Nat.mul_div_cancel_left _ Nat.two_pos]
  obtain ⟨mem', heq, -, hprod⟩ := multiplyPartition_spec fdlBeg irBeg (size / 2 + 1) 0 fdl ir mem
  refine ⟨mem', heq, ?_⟩
  funext k
  have hk := hprod k k.isLt
  simp only [Nat.zero_add] at hk
  exact hk

theorem multiplyPartitionsLoop_bins {size parts blockSize : ℕ}
    (hblock : blockSize = 2 * (size / 2 + 1)) (hparts : 0 < parts) :
    ∀ n a ir (mem : ℕ → K), bins size (multiplyPartitionsLoop fdlBeg irBeg (blockSize * parts) blockSize n
        (a % parts * blockSize, ir, mem)).2.2 =
      bins size mem + ∑ q ∈ range n, fun k =>
        complexMul (bins size (fun i => fdlBeg ((a + q) % parts * blockSize + i)) k)
          (bins size (fun i => irBeg (ir + q * blockSize + i)) k) := by
  intro n
  induction n with
  | zero => exact fun a ir mem => by simp [multiplyPartitionsLoop]
  | succ n ih =>
    intro a ir mem
    obtain ⟨mem', heq, hbins⟩ :=
      multiplyPartition_bins fdlBeg irBeg size (a % parts * blockSize) ir mem
    rw [← hblock] at heq
    have hnext : (if blockSize * parts ≤ a % parts * blockSize + blockSize then 0
        else a % parts * blockSize + blockSize) = (a + 1) % parts * blockSize := by
      have hpos : 0 < blockSize := by omega
      have hlt := Nat.mod_lt a hparts
      rw [← Nat.succ_mul, Nat.mul_comm blockSize, ← Nat.mod_add_mod]
      rcases Nat.lt_or_ge (a % parts + 1) parts with h | h
      · rw [if_neg (Nat.not_le_of_lt (Nat.mul_lt_mul_of_pos_right h hpos)), Nat.mod_eq_of_lt h]
      · have hlast : a % parts + 1 = parts := Nat.le_antisymm hlt h
        rw [if_pos (Nat.mul_le_mul_right _ h), hlast, Nat.mod_self, Nat.zero_mul]
    simp only [multiplyPartitionsLoop, heq, hnext]
    rw [ih, hbins, Finset.sum_range_succ', add_assoc]
    congr 1
    refine (add_comm _ _).trans (congrArg₂ (· + ·) ?_ ?_)
    · refine Finset.sum_congr rfl fun q _ => ?_
      have hq : a + 1 + q = a + (q + 1) := by omega
      have hir : ir + blockSize + q * blockSize = ir + (q + 1) * blockSize := by ring
      rw [hq, hir]
    · simp

theorem pconvMultiplyPartitions_bins {size parts blockSize : ℕ}
    (hblock : blockSize = 2 * (size / 2 + 1)) (hparts : 0 < parts) (a : ℕ) (mem : ℕ → K) :
    bins size (pconvMultiplyPartitions mem fdlBeg irBeg (blockSize * parts)
        (a % parts * blockSize) blockSize parts) =
      ∑ q ∈ range parts, fun k =>
        complexMul (bins size (fun i => fdlBeg ((a + q) % parts * blockSize + i)) k)
          (bins size (fun i => irBeg (q * blockSize + i)) k) := by
  have hzero : bins size (applyZeroPadding mem 0 blockSize) = 0 := by
    have hcongr : bins size (applyZeroPadding mem 0 blockSize) = bins size fun _ => 0 :=
      bins_congr fun i hi => if_pos ⟨Nat.zero_le _, hblock ▸ hi⟩
    rw [hcongr]
    rfl
  rw [pconvMultiplyPartitions, multiplyPartitionsLoop_bins fdlBeg irBeg hblock hparts, hzero, zero_add]
  simp only [Nat.zero_add]

end Products

theorem cell_inj {channels q q' ch ch' : ℕ} (hch : ch < channels) (hch' : ch' < channels)
    (h : q * channels + ch = q' * channels + ch') : q = q' ∧ ch = ch' := by
  have hmod := congrArg (· % channels) h
  simp only [Nat.add_mod, Nat.mul_mod_left, Nat.zero_add, Nat.mod_eq_of_lt hch,
    Nat.mod_eq_of_lt hch'] at hmod
  refine ⟨Nat.eq_of_mul_eq_mul_right (Nat.zero_lt_of_lt hch) ?_, hmod⟩
  omega

/-- The cells of the other channels do not change. The first half of the channel gets the sum of the
result and of the old tail, the second one the tail of the result. -/
theorem updateOutput_spec {partsize channels ch : ℕ} (hch : ch < channels) (ifftOutbuf : ℕ → K) :
    ∀ n i (outbuf : ℕ → K), n + i = partsize →
      let result := updateOutput channels ifftOutbuf n i (partsize + i) (i * channels + ch)
        ((partsize + i) * channels + ch) outbuf
      (∀ q, ∀ ch' < channels, ch' ≠ ch → result (q * channels + ch') = outbuf (q * channels + ch')) ∧
      (∀ q, q < i ∨ partsize ≤ q ∧ q < partsize + i →
        result (q * channels + ch) = outbuf (q * channels + ch)) ∧
      ∀ q, i ≤ q → q < partsize →
        result (q * channels + ch) = ifftOutbuf q + outbuf ((partsize + q) * channels + ch) ∧
          result ((partsize + q) * channels + ch) = ifftOutbuf (partsize + q) := by
  intro n
  induction n with
  | zero =>
    intro i outbuf hi
    exact ⟨fun _ _ _ _ => rfl, fun _ _ => rfl, fun q _ _ => by omega⟩
  | succ n ih =>
    intro i outbuf hi
    let outbuf₁ := update outbuf (i * channels + ch)
      (ifftOutbuf i + outbuf ((partsize + i) * channels + ch))
    let outbuf₂ := update outbuf₁ ((partsize + i) * channels + ch) (ifftOutbuf (partsize + i))
    have hother : ∀ q, ∀ ch' < channels, ch' ≠ ch ∨ q ≠ i ∧ q ≠ partsize + i →
        outbuf₂ (q * channels + ch') = outbuf (q * channels + ch') := by
      intro q ch' hch' hne
      have h₁ : q * channels + ch' ≠ (partsize + i) * channels + ch := fun h => by
        have := cell_inj hch' hch h
        omega
      have h₂ : q * channels + ch' ≠ i * channels + ch := fun h => by
        have := cell_inj hch' hch h
        omega
      exact (update_of_ne h₁ _ _).trans (update_of_ne h₂ _ _)
    have hfirst : outbuf₂ (i * channels + ch) =
        ifftOutbuf i + outbuf ((partsize + i) * channels + ch) := by
      have hne : i * channels + ch ≠ (partsize + i) * channels + ch := fun h => by
        have := cell_inj hch hch h
        omega
      exact (update_of_ne hne _ _).trans (update_self _ _ _)
    have hsecond : outbuf₂ ((partsize + i) * channels + ch) = ifftOutbuf (partsize + i) :=
      update_self _ _ _
    obtain ⟨hchannels, hsame, hresult⟩ := ih (i + 1) outbuf₂ (by omega)
    have hk : i * channels + ch + channels = (i + 1) * channels + ch := by ring
    have hl : (partsize + i) * channels + ch + channels = (partsize + (i + 1)) * channels + ch := by
      ring
    simp only [updateOutput, hk, hl]
    refine ⟨fun q ch' hch' hne => ?_, fun q hq => ?_, fun q hle hlt => ?_⟩
    · exact (hchannels q ch' hch' hne).trans (hother q ch' hch' (Or.inl hne))
    · exact (hsame q (by omega)).trans (hother q ch hch (Or.inr (by omega)))
    · rcases Nat.eq_or_lt_of_le hle with rfl | hlt'
      · exact ⟨(hsame i (by omega)).trans hfirst, (hsame (partsize + i) (by omega)).trans hsecond⟩
      · obtain ⟨hhead, htail⟩ := hresult q hlt' hlt
        rw [hother _ _ hch (Or.inr (by omega))] at hhead
        exact ⟨hhead, htail⟩

def signal (input : ℕ → K) (n : ℤ) : K := if 0 ≤ n then input n.toNat else 0

theorem signal_natCast (input : ℕ → K) (n : ℕ) : signal input n = input n := by
  simp [signal]

theorem padded_block_neg {partsize : ℕ} (input : ℕ → K) {k : ℤ} (hk : k < 0) :
    padded partsize (block partsize (signal input) k) = fun _ => 0 := by
  funext i
  rw [padded]
  split_ifs with hi
  · have hmul : k * partsize ≤ -1 * partsize :=
      Int.mul_le_mul_of_nonneg_right (by omega) (Int.natCast_nonneg _)
    rw [block, signal, if_neg (by omega)]
  · rfl

/-- The result of the inverse transform after the block `t`. -/
def blockOutput (partsize parts : ℕ) (v : ℕ → ℕ → K) (input : ℕ → K) (t : ℤ) (j : ℕ) : K :=
  ∑ q ∈ range parts, ((2 * partsize : ℕ) : K) * circular (2 * partsize)
    (padded partsize (block partsize (signal input) (t - q))) (v q) j

theorem blockOutput_neg {partsize parts : ℕ} (v : ℕ → ℕ → K) (input : ℕ → K) {t : ℤ} (ht : t < 0)
    (j : ℕ) : blockOutput partsize parts v input t j = 0 := by
  refine Finset.sum_eq_zero fun q _ => ?_
  rw [padded_block_neg input (by omega)]
  simp [circular]

section Convolver

variable {partsize : ℕ} (plan : FftPlan K (2 * partsize)) (pvbuf : Stft.Pvbuffer K)
  (channels parts : ℕ) (v : ℕ → ℕ → ℕ → K) (input : ℕ → K)

/-- The frequency delay line: the spectrum of the block at distance `q` from the block `t`. -/
def Delayed (fdl : ℕ → K) (a : ℕ) (t : ℤ) (q : ℕ) : Prop :=
  Represents plan (bins (2 * partsize) fun i => fdl ((a + q) % parts * pvbuf.blockSize + i))
    (padded partsize (block partsize (signal input) (t - q)))

/-- The state before the input `i` of the block `t`. -/
structure Convolver.Holds (s : Convolver K) (t i : ℕ) : Prop where
  inputIndex_eq : s.inputIndex = i
  padIndex_eq : s.padIndex = partsize + i
  outputIndex_eq : s.outputIndex = i * channels
  fftInbuf_eq : ∀ j < i, s.fftInbuf j = input (t * partsize + j) ∧ s.fftInbuf (partsize + j) = 0
  fdl_eq : ∃ a, s.fdlHead = a % parts * pvbuf.blockSize ∧
    ∀ q, 0 < q → q < parts → Delayed plan pvbuf parts input s.fdl a t q
  outbuf_eq : ∀ ch < channels, ∀ m < partsize,
    s.outbuf (m * channels + ch) = blockOutput partsize parts (v ch) input (t - 1) m +
      blockOutput partsize parts (v ch) input (t - 2) (partsize + m) ∧
    s.outbuf ((partsize + m) * channels + ch) =
      blockOutput partsize parts (v ch) input (t - 1) (partsize + m)

variable {plan pvbuf channels parts v input}

theorem updateFdlHead_eq {a blockSize : ℕ} (hparts : 0 < parts) (hblock : 0 < blockSize) :
    updateFdlHead (a % parts * blockSize) blockSize (blockSize * parts - blockSize) =
      (a + (parts - 1)) % parts * blockSize := by
  have hlt := Nat.mod_lt a hparts
  rw [updateFdlHead, ← Nat.mod_add_mod]
  split_ifs with hpos
  · have hmod : 0 < a % parts := Nat.pos_of_mul_pos_right hpos
    have hprevious : (a % parts + (parts - 1)) % parts = a % parts - 1 := by
      rw [Nat.mod_eq_sub_mod (by omega), Nat.mod_eq_of_lt (by omega)]
      omega
    rw [hprevious, Nat.sub_one_mul]
  · have hmod : a % parts = 0 := by
      by_contra hne
      exact hpos (Nat.mul_pos (Nat.pos_of_ne_zero hne) hblock)
    rw [hmod, Nat.zero_add, Nat.mod_eq_of_lt (by omega), Nat.sub_one_mul, Nat.mul_comm]

theorem updateFdl_delayed {fdl fftOutbuf : ℕ → K} {a t : ℕ}
    (hblock : pvbuf.blockSize = 2 * (2 * partsize / 2 + 1))
    (hfdl : ∀ q, 0 < q → q < parts → Delayed plan pvbuf parts input fdl a t q)
    (hout : bins (2 * partsize) fftOutbuf = plan.forward fun j =>
      padded partsize (block partsize (signal input) t) j) :
    ∀ q < parts, Delayed plan pvbuf parts input
      (updateFdl fdl fftOutbuf (a % parts * pvbuf.blockSize) pvbuf.blockSize) a t q := by
  intro q hq
  rcases Nat.eq_zero_or_pos q with rfl | hpos
  · have hbins : bins (2 * partsize) (fun i => updateFdl fdl fftOutbuf (a % parts * pvbuf.blockSize)
        pvbuf.blockSize ((a + 0) % parts * pvbuf.blockSize + i)) = bins (2 * partsize) fftOutbuf :=
      bins_congr fun i hi => dotimes_update_add _ _ _ (hblock ▸ hi)
    rw [Delayed, hbins, hout, Nat.cast_zero, sub_zero]
    exact represents_forward plan _
  · have hother : bins (2 * partsize) (fun i => updateFdl fdl fftOutbuf (a % parts * pvbuf.blockSize)
        pvbuf.blockSize ((a + q) % parts * pvbuf.blockSize + i)) =
          bins (2 * partsize) fun i => fdl ((a + q) % parts * pvbuf.blockSize + i) := by
      refine bins_congr fun i hi => dotimes_update_of_not _ _ _ ?_
      have hne : a % parts ≠ (a + q) % parts := slot_ne (by omega) (by omega)
      rcases Nat.lt_or_gt_of_ne hne with hlt | hgt
      · right
        have hmul := Nat.mul_le_mul_right pvbuf.blockSize hlt
        rw [Nat.succ_mul] at hmul
        omega
      · left
        have hmul := Nat.mul_le_mul_right pvbuf.blockSize hgt
        rw [Nat.succ_mul] at hmul
        omega
    rw [Delayed, hother]
    exact hfdl q hpos hq

theorem delayed_succ {fdl : ℕ → K} {a t : ℕ}
    (hfdl : ∀ q < parts, Delayed plan pvbuf parts input fdl a t q) :
    ∀ q, 0 < q → q < parts →
      Delayed plan pvbuf parts input fdl (a + (parts - 1)) (t + 1 : ℕ) q := by
  intro q hpos hq
  have hprevious := hfdl (q - 1) (by omega)
  have hindex : (a + (parts - 1) + q) % parts = (a + (q - 1)) % parts := by
    have hsum : a + (parts - 1) + q = a + (q - 1) + parts := by omega
    rw [hsum, Nat.add_mod_right]
  have hdistance : ((t + 1 : ℕ) : ℤ) - q = t - (q - 1 : ℕ) := by omega
  rw [Delayed, hindex, hdistance]
  exact hprevious

theorem pconvUpdateInput_holds {s : Convolver K} {t i : ℕ}
    (hs : s.Holds plan pvbuf channels parts v input t i) (hi : i < partsize) :
    ∀ j < i + 1, (pconvUpdateInput (input (t * partsize + i)) s).fftInbuf j =
        input (t * partsize + j) ∧
      (pconvUpdateInput (input (t * partsize + i)) s).fftInbuf (partsize + j) = 0 := by
  intro j hj
  rw [pconvUpdateInput, hs.inputIndex_eq, hs.padIndex_eq]
  simp only
  rcases Nat.lt_succ_iff_lt_or_eq.mp hj with hlt | rfl
  · obtain ⟨hinput, hzero⟩ := hs.fftInbuf_eq j hlt
    rw [update_of_ne (by omega), update_of_ne (by omega),
      update_of_ne (by omega), update_of_ne (by omega)]
    exact ⟨hinput, hzero⟩
  · rw [update_of_ne (by omega), update_self, update_self]
    exact ⟨rfl, rfl⟩

theorem pconvUpdateFrame_frame (channels : ℕ) (mult : K) (s : Convolver K) {ch : ℕ}
    (hch : ch < channels) :
    (pconvUpdateFrame channels mult s).frame ch = mult * s.outbuf (s.outputIndex + ch) := by
  have hframe := dotimes_update_add 0 (fun ch => mult * s.outbuf (s.outputIndex + ch)) s.frame hch
  simp only [Nat.zero_add] at hframe
  exact hframe

section

variable (hpv : Partitioned plan pvbuf channels parts v)
include hpv

theorem Convolver.holds_init :
    (Convolver.init pvbuf).Holds plan pvbuf channels parts v input 0 0 := by
  constructor
  · rfl
  · rw [Convolver.init, hpv.fftSize_eq, Nat.mul_div_cancel_left _ Nat.two_pos]
    rfl
  · exact (Nat.zero_mul _).symm
  · exact nofun
  · refine ⟨0, ?_, fun q hq _ => ?_⟩
    · rw [Nat.zero_mod, Nat.zero_mul]
      rfl
    · rw [Delayed, padded_block_neg input (by omega)]
      exact represents_zero plan
  · intro ch _ m _
    rw [blockOutput_neg _ _ (by omega), blockOutput_neg _ _ (by omega),
      blockOutput_neg _ _ (by omega), add_zero]
    exact ⟨rfl, rfl⟩

theorem ifftExecute_eq (hparts : 0 < parts) {ch : ℕ} (hch : ch < channels) {fdl : ℕ → K} {a : ℕ}
    {t : ℤ} (hfdl : ∀ q < parts, Delayed plan pvbuf parts input fdl a t q) (mem outbuf : ℕ → K)
    {j : ℕ} (hj : j < 2 * partsize) :
    ifftExecute plan (pconvMultiplyPartitions mem fdl (pvbuf.data ch) pvbuf.size
        (a % parts * pvbuf.blockSize) pvbuf.blockSize parts) outbuf j =
      blockOutput partsize parts (v ch) input t j := by
  rw [ifftExecute, dif_pos hj, hpv.size_eq,
    pconvMultiplyPartitions_bins _ _ hpv.blockSize_eq hparts, inverse_sum, Finset.sum_apply,
    blockOutput]
  refine Finset.sum_congr rfl fun q hq => ?_
  have hlt := Finset.mem_range.mp hq
  rw [hpv.data_eq ch hch q hlt]
  exact hfdl q hlt _ ⟨j, hj⟩

theorem convolveChannel_dotimes (hparts : 0 < parts) {s : Convolver K} {a : ℕ} {t : ℤ}
    (hhead : s.fdlHead = a % parts * pvbuf.blockSize)
    (hfdl : ∀ q < parts, Delayed plan pvbuf parts input s.fdl a t q) :
    ∀ n ≤ channels, ∃ ifftInbuf ifftOutbuf outbuf,
      dotimes (convolveChannel plan pvbuf partsize (partsize * channels)) n s =
        { s with
          ifftInbuf := ifftInbuf
          ifftOutbuf := ifftOutbuf
          outbuf := outbuf } ∧
      (∀ ch < channels, n ≤ ch → ∀ q, outbuf (q * channels + ch) = s.outbuf (q * channels + ch)) ∧
      ∀ ch < n, ∀ m < partsize,
        outbuf (m * channels + ch) = blockOutput partsize parts (v ch) input t m +
          s.outbuf ((partsize + m) * channels + ch) ∧
        outbuf ((partsize + m) * channels + ch) =
          blockOutput partsize parts (v ch) input t (partsize + m) := by
  intro n
  induction n with
  | zero => exact fun _ => ⟨s.ifftInbuf, s.ifftOutbuf, s.outbuf, rfl, fun _ _ _ _ => rfl, nofun⟩
  | succ n ih =>
    intro hn
    obtain ⟨ifftInbuf, ifftOutbuf, outbuf, heq, hsame, hresult⟩ := ih (Nat.le_of_succ_le hn)
    have hlt : n < channels := hn
    let mem := pconvMultiplyPartitions ifftInbuf s.fdl (pvbuf.data n) pvbuf.size s.fdlHead
      pvbuf.blockSize pvbuf.frames
    let result := ifftExecute plan mem ifftOutbuf
    have hifft : ∀ j < 2 * partsize, result j = blockOutput partsize parts (v n) input t j := by
      intro j hj
      simp only [result, mem, hhead, hpv.frames_eq]
      exact ifftExecute_eq hpv hparts hlt hfdl _ _ hj
    obtain ⟨hchannels, -, hout⟩ := updateOutput_spec hlt result partsize 0 outbuf (Nat.add_zero _)
    have hzero : 0 * channels + n = n := by omega
    simp only [hzero, Nat.add_zero, Nat.add_comm (partsize * channels) n] at hchannels hout
    refine ⟨mem, result, pconvUpdateOutput partsize n channels outbuf (partsize * channels) result,
      ?_, fun ch hch hle q => ?_, fun ch hch m hm => ?_⟩
    · rw [dotimes, heq, convolveChannel, hpv.channels_eq]
    · exact (hchannels q ch hch (by omega)).trans (hsame ch hch (Nat.le_of_succ_le hle) q)
    · rcases Nat.lt_succ_iff_lt_or_eq.mp hch with hch' | rfl
      · have hother : ∀ q, pconvUpdateOutput partsize n channels outbuf (partsize * channels) result
            (q * channels + ch) = outbuf (q * channels + ch) :=
          fun q => hchannels q ch (Nat.lt_trans hch' hlt) (Nat.ne_of_lt hch')
        rw [hother, hother]
        exact hresult ch hch' m hm
      · obtain ⟨hfirst, hsecond⟩ := hout m (Nat.zero_le _) hm
        rw [hsame ch hlt (Nat.le_refl _), hifft m (by omega)] at hfirst
        rw [hifft (partsize + m) (by omega)] at hsecond
        exact ⟨hfirst, hsecond⟩

theorem Convolver.Holds.tick_of_lt {s : Convolver K} {t i : ℕ}
    (hs : s.Holds plan pvbuf channels parts v input t i) (hi : i + 1 < partsize) :
    (s.tick plan pvbuf (input (t * partsize + i))).Holds plan pvbuf channels parts v input t
      (i + 1) := by
  have hhalf : pvbuf.fftSize / 2 = partsize := by
    rw [hpv.fftSize_eq, Nat.mul_div_cancel_left _ Nat.two_pos]
  have hinbuf := pconvUpdateInput_holds hs (Nat.lt_of_succ_lt hi)
  have hnot : ¬ partsize ≤ s.inputIndex + 1 := by
    rw [hs.inputIndex_eq]
    omega
  have htick : s.tick plan pvbuf (input (t * partsize + i)) = pconvUpdateFrame pvbuf.channels
      pvbuf.scaleFactor (pconvUpdateInput (input (t * partsize + i)) s) := by
    rw [Convolver.tick, hhalf]
    exact if_neg hnot
  rw [htick]
  refine ⟨congrArg (· + 1) hs.inputIndex_eq, ?_, ?_, hinbuf, hs.fdl_eq, hs.outbuf_eq⟩
  · exact congrArg (· + 1) hs.padIndex_eq
  · rw [Nat.succ_mul, ← hs.outputIndex_eq, ← hpv.channels_eq]
    rfl

theorem Convolver.Holds.tick_of_eq (hparts : 0 < parts) {s : Convolver K} {t i : ℕ}
    (hs : s.Holds plan pvbuf channels parts v input t i) (hi : i + 1 = partsize) :
    (s.tick plan pvbuf (input (t * partsize + i))).Holds plan pvbuf channels parts v input (t + 1)
      0 := by
  have hhalf : pvbuf.fftSize / 2 = partsize := by
    rw [hpv.fftSize_eq, Nat.mul_div_cancel_left _ Nat.two_pos]
  have houtbufHalf : pvbuf.channels * pvbuf.fftSize / 2 = partsize * channels := by
    rw [hpv.channels_eq, hpv.fftSize_eq, Nat.mul_left_comm, Nat.mul_div_cancel_left _ Nat.two_pos,
      Nat.mul_comm]
  have hinbuf := pconvUpdateInput_holds hs (by omega)
  obtain ⟨a, hhead, hfdl⟩ := hs.fdl_eq
  let s₁ := pconvUpdateFrame pvbuf.channels pvbuf.scaleFactor
    (pconvUpdateInput (input (t * partsize + i)) s)
  let fftOutbuf := fftExecute plan s₁.fftInbuf s₁.fftOutbuf
  have hout : bins (2 * partsize) fftOutbuf = plan.forward fun j =>
      padded partsize (block partsize (signal input) t) j := by
    rw [bins_fftExecute]
    congr 1
    funext j
    rw [padded]
    split_ifs with hj
    · have hposition : (t : ℤ) * partsize + (j : ℕ) = (t * partsize + j : ℕ) := by push_cast; rfl
      rw [block, hposition, signal_natCast]
      exact (hinbuf j (by omega)).1
    · have hindex : (j : ℕ) = partsize + (j - partsize) := by omega
      have hlt := j.isLt
      rw [hindex]
      exact (hinbuf (j - partsize) (by omega)).2
  let s₂ : Convolver K := { s₁ with
    fftOutbuf := fftOutbuf
    fdl := updateFdl s₁.fdl fftOutbuf s₁.fdlHead pvbuf.blockSize }
  have hdelayed : ∀ q < parts, Delayed plan pvbuf parts input s₂.fdl a t q := by
    have hstore := updateFdl_delayed hpv.blockSize_eq hfdl hout
    rw [← hhead] at hstore
    exact hstore
  obtain ⟨ifftInbuf, ifftOutbuf, outbuf, heq, -, hresult⟩ :=
    @convolveChannel_dotimes _ _ _ plan pvbuf channels parts v input hpv hparts s₂ a t hhead hdelayed
      channels (Nat.le_refl _)
  have htick : s.tick plan pvbuf (input (t * partsize + i)) = { s₂ with
      ifftInbuf := ifftInbuf
      ifftOutbuf := ifftOutbuf
      outbuf := outbuf
      fdlHead := updateFdlHead s.fdlHead pvbuf.blockSize (pvbuf.size - pvbuf.blockSize)
      inputIndex := 0
      padIndex := partsize
      outputIndex := 0 } := by
    have hend : partsize ≤ s.inputIndex + 1 := by
      rw [hs.inputIndex_eq]
      omega
    rw [← hpv.channels_eq] at heq
    rw [Convolver.tick, hhalf, houtbufHalf, ← hpv.channels_eq]
    refine (if_pos hend).trans ?_
    exact congrArg (fun s' : Convolver K => { s' with
      fdlHead := updateFdlHead s'.fdlHead pvbuf.blockSize (pvbuf.size - pvbuf.blockSize)
      inputIndex := 0
      padIndex := partsize
      outputIndex := 0 }) heq
  rw [htick]
  refine ⟨rfl, rfl, (Nat.zero_mul _).symm, fun _ hlt => absurd hlt (Nat.not_lt_zero _), ⟨a + (parts - 1), ?_, delayed_succ hdelayed⟩,
    fun ch hch m hm => ?_⟩
  · have hblock := hpv.blockSize_eq
    rw [hhead, hpv.size_eq]
    exact updateFdlHead_eq hparts (by omega)
  · obtain ⟨hfirst, hsecond⟩ := hresult ch hch m hm
    have hlast : ((t + 1 : ℕ) : ℤ) - 1 = t := by omega
    have hprevious : ((t + 1 : ℕ) : ℤ) - 2 = t - 1 := by omega
    rw [hlast, hprevious]
    refine ⟨hfirst.trans (congrArg (_ + ·) ?_), hsecond⟩
    exact (hs.outbuf_eq ch hch m hm).2

theorem Convolver.holds_run (hparts : 0 < parts) (hpartsize : 0 < partsize) (n : ℕ) :
    (Convolver.run plan pvbuf input n).Holds plan pvbuf channels parts v input (n / partsize)
      (n % partsize) := by
  induction n with
  | zero =>
    rw [Nat.zero_div, Nat.zero_mod]
    exact Convolver.holds_init hpv
  | succ n ih =>
    have hlt := Nat.mod_lt n hpartsize
    have hposition : n = n / partsize * partsize + n % partsize := (Nat.div_add_mod' n partsize).symm
    have hinput : input n = input (n / partsize * partsize + n % partsize) := congrArg input hposition
    rw [Convolver.run, hinput]
    rcases Nat.lt_or_ge (n % partsize + 1) partsize with hnext | hend
    · have hdiv : (n + 1) / partsize = n / partsize := by
        refine Nat.div_eq_of_lt_le ?_ ?_
        · omega
        · rw [Nat.succ_mul]
          omega
      have hmod : (n + 1) % partsize = n % partsize + 1 := by
        rw [← Nat.mod_add_mod, Nat.mod_eq_of_lt hnext]
      rw [hdiv, hmod]
      exact ih.tick_of_lt hpv hnext
    · have hlast : n % partsize + 1 = partsize := by omega
      have hdiv : (n + 1) / partsize = n / partsize + 1 := by
        refine Nat.div_eq_of_lt_le ?_ ?_
        · rw [Nat.succ_mul]
          omega
        · rw [Nat.succ_mul, Nat.succ_mul]
          omega
      have hmod : (n + 1) % partsize = 0 := by
        rw [← Nat.mod_add_mod, hlast, Nat.mod_self]
      rw [hdiv, hmod]
      exact ih.tick_of_eq hpv hparts hlast

end

variable (plan pvbuf) in
theorem convolveChannel_frame (halfSize outbufHalf : ℕ) (s : Convolver K) : ∀ n,
    (dotimes (convolveChannel plan pvbuf halfSize outbufHalf) n s).frame = s.frame
  | 0 => rfl
  | n + 1 => convolveChannel_frame halfSize outbufHalf s n

variable (plan pvbuf) in
theorem Convolver.tick_frame (s : Convolver K) (value : K) {ch : ℕ} (hch : ch < pvbuf.channels) :
    (s.tick plan pvbuf value).frame ch = pvbuf.scaleFactor * s.outbuf (s.outputIndex + ch) := by
  have hframe := pconvUpdateFrame_frame pvbuf.channels pvbuf.scaleFactor (pconvUpdateInput value s) hch
  rw [Convolver.tick]
  simp only
  split_ifs
  · simp only [convolveChannel_frame]
    exact hframe
  · exact hframe

/-- The sum of the first half of a block and of the second half of the previous one. -/
def overlapped (partsize parts : ℕ) (v : ℕ → ℕ → K) (x : ℤ → K) (t : ℤ) (m : ℕ) : K :=
  ∑ q ∈ range parts, circular (2 * partsize) (padded partsize (block partsize x (t - q))) (v q) m +
    ∑ q ∈ range parts, circular (2 * partsize) (padded partsize (block partsize x (t - 1 - q))) (v q)
      (partsize + m)

theorem blockOutput_add [CharZero K] (hpartsize : 0 < partsize) (v : ℕ → ℕ → K) (t : ℤ) (m : ℕ) :
    (1 / (2 * partsize : ℕ) : K) * (blockOutput partsize parts v input t m +
        blockOutput partsize parts v input (t - 1) (partsize + m)) =
      overlapped partsize parts v (signal input) t m := by
  have hne : ((2 * partsize : ℕ) : K) ≠ 0 := Nat.cast_ne_zero.mpr (by omega)
  rw [blockOutput, blockOutput, ← Finset.mul_sum, ← Finset.mul_sum, ← mul_add, ← mul_assoc,
    one_div_mul_cancel hne, one_mul, overlapped]

theorem partConvolve_overlapped [CharZero K] (hpv : Partitioned plan pvbuf channels parts v)
    (hparts : 0 < parts) (hpartsize : 0 < partsize) {ch : ℕ} (hch : ch < channels) (n : ℕ) :
    partConvolve plan pvbuf input ch n =
      overlapped partsize parts (v ch) (signal input) ((n / partsize : ℕ) - 1) (n % partsize) := by
  have hrun := @Convolver.holds_run _ _ _ plan pvbuf channels parts v input hpv hparts hpartsize n
  have hlt := Nat.mod_lt n hpartsize
  have hprevious : ((n / partsize : ℕ) : ℤ) - 2 = (n / partsize : ℕ) - 1 - 1 := by ring
  have hch' : ch < pvbuf.channels := hpv.channels_eq ▸ hch
  rw [partConvolve, if_pos hch', Convolver.run, Convolver.tick_frame plan pvbuf _ _ hch',
    hrun.outputIndex_eq, (hrun.outbuf_eq ch hch _ hlt).1, hpv.scaleFactor_eq, hprevious,
    blockOutput_add hpartsize]

end Convolver

section Direct

variable (kernel : ℕ → K)

theorem directConv_eq (data : ℕ → K) (last : ℕ) : ∀ n index kernelPos sum, index + n = last →
    directConv kernel data last index kernelPos sum = (kernelPos + n,
      sum + ∑ i ∈ range n, data (index + i) * kernel (kernelPos + i)) := by
  intro n
  induction n with
  | zero =>
    intro index kernelPos sum hlast
    rw [directConv, if_neg (by omega)]
    simp
  | succ n ih =>
    intro index kernelPos sum hlast
    rw [directConv, if_pos (by omega), ih _ _ _ (by omega), Finset.sum_range_succ', ← add_assoc]
    have hindex : ∀ i, index + 1 + i = index + (i + 1) := fun i => by omega
    have hkernel : ∀ i, kernelPos + 1 + i = kernelPos + (i + 1) := fun i => by omega
    simp only [hindex, hkernel, Nat.add_zero]
    congr 1
    ring

/-- The delay line contains the last inputs from the position on. -/
structure Delay.Holds (s : Delay K) (size : ℕ) (input : ℕ → K) (n : ℕ) : Prop where
  pos_lt : s.pos < size
  data_eq : ∀ m, 0 < m → m < size → s.data ((s.pos + m) % size) = signal input (n - m)

variable {kernel} {size : ℕ} {input : ℕ → K}

theorem Delay.Holds.tick {s : Delay K} {n : ℕ} (hs : s.Holds size input n) :
    (s.tick kernel size (input n)).1 = conv (signal input) kernel size n ∧
      (s.tick kernel size (input n)).2.Holds size input (n + 1) := by
  have hpos := hs.pos_lt
  let data := update s.data s.pos (input n)
  have hdata : ∀ m < size, data ((s.pos + m) % size) = signal input (n - m) := by
    intro m hm
    rcases Nat.eq_zero_or_pos m with rfl | hm'
    · rw [Nat.add_zero, Nat.mod_eq_of_lt hpos, Nat.cast_zero, sub_zero, signal_natCast]
      exact update_self _ _ _
    · have hne : s.pos % size ≠ (s.pos + m) % size := slot_ne (by omega) (by omega)
      rw [Nat.mod_eq_of_lt hpos] at hne
      exact (update_of_ne hne.symm _ _).trans (hs.data_eq m hm' hm)
  have hfirst := directConv_eq kernel data size (size - (s.pos + 1)) (s.pos + 1) 1
    (input n * kernel 0) (by omega)
  have hsecond := fun sum => directConv_eq kernel data s.pos s.pos 0 (1 + (size - (s.pos + 1))) sum
    (Nat.zero_add _)
  constructor
  · have hsize : size = 1 + (size - (s.pos + 1)) + s.pos := by omega
    have hconv : conv (signal input) kernel size n =
        ∑ m ∈ range size, data ((s.pos + m) % size) * kernel m :=
      Finset.sum_congr rfl fun m hm => by rw [hdata m (Finset.mem_range.mp hm)]
    have hsum : (s.tick kernel size (input n)).1 = input n * kernel 0 +
        (∑ i ∈ range (size - (s.pos + 1)), data (s.pos + 1 + i) * kernel (1 + i)) +
        ∑ i ∈ range s.pos, data (0 + i) * kernel (1 + (size - (s.pos + 1)) + i) := by
      rw [Delay.tick]
      simp only [data] at hfirst hsecond ⊢
      rw [hfirst]
      simp only
      rw [hsecond]
    rw [hsum, hconv]
    conv_rhs => rw [hsize]
    rw [Finset.sum_range_add, Finset.sum_range_add, Finset.sum_range_one, ← hsize]
    congr 1
    · congr 1
      · rw [Nat.add_zero, Nat.mod_eq_of_lt hpos]
        exact congrArg (· * kernel 0) (update_self s.pos (input n) s.data).symm
      · refine Finset.sum_congr rfl fun i hi => ?_
        have hlt := Finset.mem_range.mp hi
        rw [← Nat.add_assoc, Nat.mod_eq_of_lt (by omega)]
    · refine Finset.sum_congr rfl fun i hi => ?_
      have hlt := Finset.mem_range.mp hi
      have hwrap : s.pos + (1 + (size - (s.pos + 1)) + i) = i + size := by omega
      rw [hwrap, Nat.add_mod_right, Nat.mod_eq_of_lt (by omega), Nat.zero_add]
  · have hnext : (s.tick kernel size (input n)).2 =
        { data := data
          pos := (if s.pos = 0 then size else s.pos) - 1 } := rfl
    rw [hnext]
    refine ⟨?_, fun m hm hlt => ?_⟩
    · simp only
      split_ifs <;> omega
    · have hindex : ((if s.pos = 0 then size else s.pos) - 1 + m) % size =
          (s.pos + (m - 1)) % size := by
        split_ifs with hzero
        · have hwrap : size - 1 + m = s.pos + (m - 1) + size := by omega
          rw [hwrap, Nat.add_mod_right]
        · congr 1
          omega
      have hdistance : (n : ℤ) - (m - 1 : ℕ) = (n + 1 : ℕ) - m := by omega
      rw [← hdistance]
      simp only [hindex]
      exact hdata (m - 1) (by omega)

theorem Delay.holds_run (hsize : 0 < size) (n : ℕ) :
    (Delay.run kernel size input n).Holds size input n := by
  induction n with
  | zero =>
    refine ⟨hsize, fun m hm _ => ?_⟩
    rw [signal, if_neg (by omega)]
    rfl
  | succ n ih => exact ih.tick.2

end Direct

omit [Field K] in
theorem Buffer.size_pos (buf : Buffer K) : 0 < buf.size :=
  Nat.mul_pos buf.frames_pos buf.channels_pos

theorem directConvolve_eq (buf : Buffer K) (input : ℕ → K) (n : ℕ) :
    directConvolve buf input n = conv (signal input) buf.data buf.size n :=
  (Delay.holds_run buf.size_pos n).tick.1

end Incudine.PartConvolve
