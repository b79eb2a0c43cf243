import Incudine.BufferFromTextfile
import Mathlib.Algebra.Order.Field.Basic
import Mathlib.Algebra.Field.Rat
import Mathlib.Algebra.Order.Ring.Rat

/-!
# Buffers filled with a sequence

The loop that stores a sequence in a buffer computes the maximum of the absolute values from the
second value on. Another loop divides the stored values by it. The values are elements of an ordered
field.
-/

namespace Incudine.Buffers

open FrameMemory Function

variable {K : Type*} [Field K] [LinearOrder K]

/-- A function that fills the buffer has the first sample, the number of the samples and the data;
the other results are the multiplier for the normalization, if any, and whether to normalize. -/
inductive Object (K : Type*)
  | function (fill : ℕ → ℕ → (ℕ → K) → (ℕ → K) × Option K × Bool)
  | list (seq : List K)
  | file (file : File K)
  | vector (seq : List K)
  | envelope (fill : ℕ → ℕ → (ℕ → K) → (ℕ → K) × Option K × Bool)

def Buffer.size (buffer : Buffer K) : ℕ := buffer.frames * buffer.channels

/-- `(if end (min end size) size)`. -/
def Buffer.stop (buffer : Buffer K) : Option ℕ → ℕ
  | some stop => min stop buffer.size
  | none => buffer.size

def nextMax (j : K) : Option K → K
  | none => 0
  | some m => max |j| m

/-- The loop that stores the sequence, with the last value of `max` if any. -/
def fillLoop (stop : ℕ) : ℕ → List K → Option K → (ℕ → K) → (ℕ → K) × Option K
  | _, [], max, data => (data, max)
  | i, j :: seq, max, data =>
    if i < stop then fillLoop stop (i + 1) seq (some (nextMax j max)) (update data i j)
    else (data, max)

def scaleLoop (stop : ℕ) (scale : K) : ℕ → List K → (ℕ → K) → (ℕ → K)
  | _, [], data => data
  | i, _ :: seq, data =>
    if i < stop then scaleLoop stop scale (i + 1) seq (update data i (data i * scale))
    else data

/-- `loop-sequence`, or nothing if there is an error: the maximum is not a number or the division by
zero. -/
def loopSequence (buffer : Buffer K) (seq : List K) (start : ℕ) (stop : Option ℕ)
    (normalizeP : Bool) : Option (Buffer K) :=
  let r := fillLoop (buffer.stop stop) start seq none buffer.data
  if normalizeP then
    r.2.bind fun max =>
      if max = 1 then some { buffer with data := r.1 }
      else if max = 0 then none
      else some { buffer with data := scaleLoop (buffer.stop stop) (1 / max) start seq r.1 }
  else some { buffer with data := r.1 }

def fillFunction (buffer : Buffer K) (fill : ℕ → ℕ → (ℕ → K) → (ℕ → K) × Option K × Bool)
    (start : ℕ) (stop : Option ℕ) (normalizeP : Option Bool) : Buffer K :=
  if start < buffer.stop stop then
    let (data, mult, normP) := fill start (buffer.stop stop - start) buffer.data
    match normalizeP.getD normP, mult with
    | true, some mult =>
      if mult = 1 then { buffer with data := data }
      else { buffer with
        data := fun i => if start ≤ i ∧ i < buffer.stop stop then data i * mult else data i }
    | _, _ => { buffer with data := data }
  else buffer

/-- `fill-buffer`. The first arguments are the ones of `set-buffer-from-sndfile`; `normalizeP` is
none if the keyword is not supplied. -/
def fillBuffer (fuel sndfileBufferSize : ℕ) (memory : ℕ → K) (buffer : Buffer K) (obj : Object K)
    (start : ℕ) (stop : Option ℕ) (sndfileStart : ℕ) (channelMap : List (ℕ × ℕ))
    (normalizeP : Option Bool) : Option (Buffer K) :=
  match obj with
  | .function fill => some (fillFunction buffer fill start stop normalizeP)
  -- An empty list is not a `cons`.
  | .list [] => some buffer
  | .list seq => loopSequence buffer seq start stop (normalizeP.getD false)
  | .file file =>
    let stop :=
      match stop with
      | some stop => min stop buffer.frames
      | none => buffer.frames
    setBufferFromSndfile fuel sndfileBufferSize memory buffer file sndfileStart start stop channelMap
  | .vector seq => loopSequence buffer seq start stop (normalizeP.getD false)
  | .envelope fill =>
    some (fillFunction buffer fill start stop (some (normalizeP.getD false)))

def Buffer.stored (buffer : Buffer K) (seq : List K) (start : ℕ) (stop : Option ℕ) : List K :=
  seq.take (buffer.stop stop - start)

/-- The stored values are proportional to the given ones and the greatest absolute value is one. -/
structure Normalized (stored : List K) (start : ℕ) (buffer buffer' : Buffer K) : Prop where
  frames : buffer'.frames = buffer.frames
  channels : buffer'.channels = buffer.channels
  proportional : ∃ factor, 0 < factor ∧
    ∀ k x, stored[k]? = some x → buffer'.data (start + k) = factor * x
  greatest : IsGreatest {y | ∃ k < stored.length, y = |buffer'.data (start + k)|} 1
  outside : ∀ i, i < start ∨ start + stored.length ≤ i → buffer'.data i = buffer.data i

section Loops

variable {stop : ℕ}

theorem fillLoop_eq (i : ℕ) (seq : List K) (max : Option K) (data : ℕ → K) :
    fillLoop stop i seq max data =
      (store 1 i (seq.take (stop - i)).length (fun k _ => (seq.take (stop - i))[k]?) data,
        (seq.take (stop - i)).foldl (fun max j => some (nextMax j max)) max) := by
  induction seq generalizing i max data with
  | nil => simp [fillLoop]
  | cons j seq ih =>
    rw [fillLoop]
    by_cases hi : i < stop
    · obtain ⟨n, hn⟩ : ∃ n, stop - i = n + 1 := ⟨stop - i - 1, by omega⟩
      have hnext : stop - (i + 1) = n := by omega
      rw [if_pos hi, ih, hn, hnext, List.take_succ_cons, List.foldl_cons, List.length_cons,
        @store_succ K _ _ i (fun k _ => (j :: seq.take n)[k]?) j rfl]
      simp only [List.getElem?_cons_succ]
    · have hzero : stop - i = 0 := by omega
      simp [hi, hzero]

omit [LinearOrder K] in
theorem scaleLoop_eq (scale : K) (i : ℕ) (seq : List K) (data : ℕ → K) :
    scaleLoop stop scale i seq data =
      store 1 i (seq.take (stop - i)).length (fun k _ => some (data (i + k) * scale)) data := by
  induction seq generalizing i data with
  | nil => simp [scaleLoop]
  | cons j seq ih =>
    rw [scaleLoop]
    by_cases hi : i < stop
    · obtain ⟨n, hn⟩ : ∃ n, stop - i = n + 1 := ⟨stop - i - 1, by omega⟩
      have hnext : stop - (i + 1) = n := by omega
      rw [if_pos hi, ih, hn, hnext, List.take_succ_cons, List.length_cons,
        @store_succ K _ _ i (fun k _ => some (data (i + k) * scale)) _ rfl]
      refine store_congr fun k _ _ => ?_
      rw [update_of_ne (by omega), Nat.add_assoc, Nat.add_comm 1]
    · have hzero : stop - i = 0 := by omega
      simp [hi, hzero]

end Loops

theorem foldl_nextMax (m : K) (xs : List K) :
    ∃ r, xs.foldl (fun max j => some (nextMax j max)) (some m) = some r ∧ m ≤ r ∧
      (∀ x ∈ xs, |x| ≤ r) ∧ (r = m ∨ ∃ x ∈ xs, r = |x|) := by
  induction xs generalizing m with
  | nil => exact ⟨m, rfl, le_rfl, nofun, .inl rfl⟩
  | cons x xs ih =>
    obtain ⟨r, hr, hle, hxs, hmem⟩ := ih (max |x| m)
    refine ⟨r, hr, (le_max_right _ _).trans hle, ?_, ?_⟩
    · intro y hy
      rcases List.mem_cons.mp hy with rfl | hy
      · exact (le_max_left _ _).trans hle
      · exact hxs y hy
    · rcases hmem with rfl | ⟨y, hy, rfl⟩
      · rcases max_choice |x| m with hmax | hmax
        · exact .inr ⟨x, List.mem_cons_self, hmax⟩
        · exact .inl hmax
      · exact .inr ⟨y, List.mem_cons_of_mem _ hy, rfl⟩

section Normalize

variable {buffer : Buffer K} {seq : List K} {start : ℕ} {stop : Option ℕ} {first max : K}
  {rest : List K}

def Buffer.scaled (buffer : Buffer K) (stored : List K) (start : ℕ) (factor : K) : Buffer K :=
  { buffer with
    data := store 1 start stored.length (fun k _ => (stored[k]?).map (· * factor)) buffer.data }

omit [LinearOrder K] in
theorem scaled_data {stored : List K} {factor x : K} {k : ℕ} (hx : stored[k]? = some x) :
    (buffer.scaled stored start factor).data (start + k) = x * factor := by
  have hstored := @store_value K 1 0 start stored.length k
    (fun k _ => (stored[k]?).map (· * factor)) buffer.data (List.getElem?_eq_some_iff.mp hx).1
    Nat.zero_lt_one (x * factor) (by rw [hx, Option.map_some])
  rwa [Nat.mul_one, Nat.add_zero] at hstored

theorem loopSequence_eq (hstored : buffer.stored seq start stop = first :: rest)
    (hmax : rest.foldl (fun max j => some (nextMax j max)) (some 0) = some max) :
    loopSequence buffer seq start stop true =
      if max = 0 then none else some (buffer.scaled (first :: rest) start (1 / max)) := by
  rw [Buffer.stored] at hstored
  have hfold : (first :: rest).foldl (fun max j => some (nextMax j max)) none = some max := hmax
  rw [loopSequence, fillLoop_eq]
  simp only [scaleLoop_eq, hstored, hfold, if_true, Option.bind_some]
  by_cases hone : max = 1
  · subst hone
    rw [if_pos rfl, if_neg one_ne_zero, Buffer.scaled]
    simp
  rw [if_neg hone]
  by_cases hzero : max = 0
  · rw [if_pos hzero, if_pos hzero]
  rw [if_neg hzero, if_neg hzero, Buffer.scaled]
  congr 2
  funext i
  by_cases hi : start ≤ i / 1 ∧ i / 1 < start + (first :: rest).length
  · have hk : i - start < (first :: rest).length := by
      rw [Nat.div_one] at hi
      omega
    have hvalue := List.getElem?_eq_getElem hk
    have hindex : start + (i - start) = i := by
      rw [Nat.div_one] at hi
      omega
    have hstore (value : ℕ → ℕ → Option K) (memory : ℕ → K) {x : K} (hx : value (i - start) 0 = some x) :
        store 1 start (first :: rest).length value memory i = x := by
      have happly := @store_value K 1 0 start (first :: rest).length (i - start) value memory hk
        Nat.zero_lt_one x hx
      rwa [Nat.mul_one, Nat.add_zero, hindex] at happly
    rw [hstore _ _ rfl, hindex, hstore _ _ hvalue, hstore _ _ (by rw [hvalue, Option.map_some])]
  · rw [store_outside (by omega), store_outside (by omega), store_outside (by omega)]

variable [IsStrictOrderedRing K]

theorem normalized_scaled {stored : List K} (hpos : 0 < max) (hle : ∀ x ∈ stored, |x| ≤ max)
    (hmem : ∃ x ∈ stored, max = |x|) :
    Normalized stored start buffer (buffer.scaled stored start (1 / max)) where
  frames := rfl
  channels := rfl
  proportional := by
    refine ⟨1 / max, one_div_pos.mpr hpos, fun k x hx => ?_⟩
    rw [scaled_data hx, mul_comm]
  greatest := by
    constructor
    · obtain ⟨x, hx, hmax⟩ := hmem
      obtain ⟨k, hk, rfl⟩ := List.mem_iff_getElem.mp hx
      refine ⟨k, hk, ?_⟩
      rw [scaled_data (List.getElem?_eq_getElem hk), abs_mul, ← hmax,
        abs_of_pos (one_div_pos.mpr hpos), mul_one_div_cancel hpos.ne']
    · rintro y ⟨k, hk, rfl⟩
      rw [scaled_data (List.getElem?_eq_getElem hk), abs_mul, abs_of_pos (one_div_pos.mpr hpos),
        mul_one_div, div_le_one hpos]
      exact hle _ (List.getElem_mem hk)
  outside := by
    intro i hi
    simp only [Buffer.scaled]
    exact store_outside (by rwa [Nat.div_one])

theorem loopSequence_normalized (hstored : buffer.stored seq start stop = first :: rest)
    (hne : ∃ x ∈ first :: rest, x ≠ 0) :
    (∃ buffer', loopSequence buffer seq start stop true = some buffer' ∧
      Normalized (first :: rest) start buffer buffer') ↔ ∃ x ∈ rest, |first| ≤ |x| := by
  obtain ⟨max, hmax, hnneg, hle, hmem⟩ := foldl_nextMax (0 : K) rest
  have hloop := loopSequence_eq hstored hmax
  constructor
  · rintro ⟨buffer', hbuffer, hnormalized⟩
    rw [hloop] at hbuffer
    by_cases hzero : max = 0
    · rw [if_pos hzero] at hbuffer
      cases hbuffer
    rw [if_neg hzero] at hbuffer
    obtain rfl := Option.some_inj.mp hbuffer
    have hpos : 0 < max := lt_of_le_of_ne hnneg (Ne.symm hzero)
    obtain ⟨x, hx, rfl⟩ := hmem.resolve_left hzero
    have hfirst := hnormalized.greatest.2 ⟨0, Nat.succ_pos _, rfl⟩
    rw [scaled_data rfl, abs_mul, abs_of_pos (one_div_pos.mpr hpos), mul_one_div,
      div_le_one hpos] at hfirst
    exact ⟨x, hx, hfirst⟩
  · rintro ⟨x, hx, hfirst⟩
    have hle' : ∀ y ∈ first :: rest, |y| ≤ max := by
      intro y hy
      rcases List.mem_cons.mp hy with rfl | hy
      · exact hfirst.trans (hle x hx)
      · exact hle y hy
    obtain ⟨y, hy, hne⟩ := hne
    have hpos : 0 < max := (abs_pos.mpr hne).trans_le (hle' y hy)
    obtain ⟨z, hz, hmax⟩ := hmem.resolve_left hpos.ne'
    rw [hloop, if_neg hpos.ne']
    exact ⟨_, rfl, normalized_scaled hpos hle' ⟨z, List.mem_cons_of_mem _ hz, hmax⟩⟩

end Normalize

section Result

variable (fuel sndfileBufferSize : ℕ) (memory : ℕ → K) (buffer : Buffer K) (start sndfileStart : ℕ)
  (stop : Option ℕ) (channelMap : List (ℕ × ℕ))

theorem fillBuffer_sequence {obj : Object K} {seq : List K} (hobj : obj = .list seq ∨ obj = .vector seq)
    (hseq : seq ≠ []) :
    fillBuffer fuel sndfileBufferSize memory buffer obj start stop sndfileStart channelMap (some true) =
      loopSequence buffer seq start stop true := by
  rcases hobj with rfl | rfl
  · cases seq with
    | nil => exact absurd rfl hseq
    | cons j seq => rfl
  · rfl

/-- The values are normalized if the absolute value of the first one is not greater than the other
ones. -/
theorem fillBuffer_normalized_iff [IsStrictOrderedRing K] {obj : Object K} {seq : List K}
    (hobj : obj = .list seq ∨ obj = .vector seq)
    (hne : ∃ x ∈ buffer.stored seq start stop, x ≠ 0) :
    (∃ buffer', fillBuffer fuel sndfileBufferSize memory buffer obj start stop sndfileStart channelMap
        (some true) = some buffer' ∧
      Normalized (buffer.stored seq start stop) start buffer buffer') ↔
      ∃ first ∈ (buffer.stored seq start stop).head?, ∃ x ∈ (buffer.stored seq start stop).tail,
        |first| ≤ |x| := by
  cases hstored : buffer.stored seq start stop with
  | nil =>
    obtain ⟨x, hx, -⟩ := hne
    rw [hstored] at hx
    cases hx
  | cons first rest =>
    have hseq : seq ≠ [] := by
      rintro rfl
      rw [Buffer.stored, List.take_nil] at hstored
      cases hstored
    rw [hstored] at hne
    rw [fillBuffer_sequence fuel sndfileBufferSize memory buffer start sndfileStart stop channelMap hobj
      hseq, loopSequence_normalized hstored hne]
    simp

end Result

def monoBuffer : Buffer ℚ := ⟨3, 1, fun _ => 0⟩

theorem fillBuffer_normalized_monoBuffer :
    ∃ buffer', fillBuffer 0 0 (fun _ => 0) monoBuffer (.list [1, -2, 1]) 0 none 0 [] (some true) =
        some buffer' ∧ Normalized (monoBuffer.stored [1, -2, 1] 0 none) 0 monoBuffer buffer' :=
  (fillBuffer_normalized_iff 0 0 (fun _ => 0) monoBuffer 0 0 none [] (.inl rfl)
    ⟨1, by decide, by decide⟩).mpr ⟨1, rfl, -2, by decide, by decide +kernel⟩

/-- The first value is the greatest. -/
theorem fillBuffer_not_normalized :
    ¬ ∃ buffer', fillBuffer 0 0 (fun _ => 0) monoBuffer (.list [2, 1]) 0 none 0 [] (some true) =
        some buffer' ∧ Normalized (monoBuffer.stored [2, 1] 0 none) 0 monoBuffer buffer' := by
  rw [fillBuffer_sequence 0 0 (fun _ => 0) monoBuffer 0 0 none [] (.inl rfl)
    (List.cons_ne_nil 2 [1])]
  have hstored : monoBuffer.stored [2, 1] 0 none = [2, 1] := rfl
  rw [hstored, loopSequence_normalized hstored ⟨2, List.mem_cons_self, by decide⟩]
  rintro ⟨x, hx, hle⟩
  obtain rfl := List.mem_singleton.mp hx
  revert hle
  decide +kernel

end Incudine.Buffers
