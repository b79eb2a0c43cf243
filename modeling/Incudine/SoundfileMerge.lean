import Incudine.FrameMemory
import Mathlib.Algebra.BigOperators.Group.List.Basic
import Mathlib.Algebra.Ring.Basic
import Mathlib.Algebra.Ring.Int.Defs
import Mathlib.Data.List.MinMax

/-!
# Combination of sound files

The mix accumulates the blocks of the inputs in a buffer, which is reused for the next block. The
concatenation copies the blocks of the inputs one after the other. The contents of the buffers are
interleaved samples.
-/

namespace Incudine.SoundfileMerge

variable {K : Type*} [CommRing K]

/-- A sound file. The library possibly clears the samples that are requested by the read number `i`
but not read, because the file is ended. -/
structure Soundfile (K : Type*) where
  sampleRate : ℕ
  channels : ℕ
  samples : List K
  channels_pos : 0 < channels
  channels_dvd : channels ∣ samples.length
  clearP : ℕ → Bool

/-- An input stream: the file, the number of the reads and the number of the samples that have been
read. -/
structure Stream (K : Type*) where
  file : Soundfile K
  reads : ℕ
  position : ℕ

def openStream (file : Soundfile K) : Stream K := ⟨file, 0, 0⟩

/-- `foreign-read`: the stream, the buffer, the items and the number of the samples that are stored
in the buffer. The size has to be a multiple of the channels. -/
def foreignRead (sf : Stream K) (buffer : ℕ → K) (bufferSize : ℕ) :
    Stream K × (ℕ → K) × ℕ × ℕ :=
  if sf.file.channels ∣ bufferSize then
    let items := min bufferSize (sf.file.samples.length - sf.position)
    let stored := if sf.file.clearP sf.reads then bufferSize else items
    ({ sf with reads := sf.reads + 1, position := sf.position + items },
      fun i =>
        if i < items then sf.file.samples.getD (sf.position + i) 0
        else if i < stored then 0
        else buffer i,
      items, stored)
  else ({ sf with reads := sf.reads + 1 }, buffer, 0, 0)

def foreignWrite (channels : ℕ) (buffer : ℕ → K) (bufferSize : ℕ) : List K :=
  if channels ∣ bufferSize then (List.range bufferSize).map buffer else []

def checkSoundfilesToCombine (first : Soundfile K) (rest : List (Soundfile K)) : Option (ℕ × ℕ) :=
  if rest.all fun sf => sf.sampleRate = first.sampleRate && sf.channels = first.channels then
    some (first.sampleRate, first.channels)
  else none

/-- The loop of `concatenate` for an input: the buffer, the written samples and the sizes of the
stores in the buffer. -/
def copyLoop (channels sndfileBufferSize : ℕ) :
    ℕ → Stream K → (ℕ → K) → Option ((ℕ → K) × List K × List ℕ)
  | 0, _, _ => none
  | fuel + 1, sf, buf =>
    match foreignRead sf buf sndfileBufferSize with
    | (sf, buf, items, stored) =>
      if 0 < items then
        (copyLoop channels sndfileBufferSize fuel sf buf).map fun (buf', written, stores) =>
          (buf', foreignWrite channels buf items ++ written, stored :: stores)
      else some (buf, [], [stored])

def copyInputs (channels sndfileBufferSize fuel : ℕ) :
    List (Soundfile K) → (ℕ → K) → Option (List K × List ℕ)
  | [], _ => some ([], [])
  | input :: inputs, buf =>
    (copyLoop channels sndfileBufferSize fuel (openStream input) buf).bind
      fun (buf, written, stores) =>
        (copyInputs channels sndfileBufferSize fuel inputs buf).map fun (written', stores') =>
          (written ++ written', stores ++ stores')

/-- `concatenate`: the written samples and the sizes of the stores in the temporary buffer. The
blocks have the size `*sndfile-buffer-size*`. -/
def concatenate (fuel sndfileBufferSize : ℕ) (first : Soundfile K) (rest : List (Soundfile K))
    (buf : ℕ → K) : Option (List K × List ℕ) :=
  (checkSoundfilesToCombine first rest).bind fun (_, channels) =>
    copyInputs channels sndfileBufferSize fuel (first :: rest) buf

def addInput (bufferSize : ℕ) (acc : (ℕ → K) × (ℕ → K) × ℕ × List (Stream K)) (input : Stream K) :
    (ℕ → K) × (ℕ → K) × ℕ × List (Stream K) :=
  match acc, foreignRead input acc.2.1 bufferSize with
  | (buf, _, items, rest), (input, tmp, tmpItems, _) =>
    (fun i => if i < tmpItems then buf i + tmp i else buf i, tmp, max items tmpItems,
      rest ++ [input])

def scaleItems (scaleBy : Option K) (items : ℕ) (buf : ℕ → K) : ℕ → K :=
  match scaleBy with
  | some scale => fun i => if i < items then buf i * scale else buf i
  | none => buf

def mixLoop (channels bufferSize : ℕ) (scaleBy : Option K) :
    ℕ → ℕ → Stream K → List (Stream K) → (ℕ → K) → (ℕ → K) → Option (List K)
  | 0, _, _, _, _, _ => none
  | fuel + 1, items, first, rest, buf, tmp =>
    if 0 < items then
      match foreignRead first buf bufferSize with
      | (first, buf, items, _) =>
        match rest.foldl (addInput bufferSize) (buf, tmp, items, []) with
        | (buf, tmp, items, rest) =>
          let buf := scaleItems scaleBy items buf
          (mixLoop channels bufferSize scaleBy fuel items first rest buf tmp).map
            (foreignWrite channels buf items ++ ·)
    else some []

def merge (fuel bufferSize : ℕ) (scaleBy : Option K) (first : Soundfile K)
    (rest : List (Soundfile K)) (buf tmp : ℕ → K) : Option (List K) :=
  (checkSoundfilesToCombine first rest).bind fun (_, channels) =>
    mixLoop channels bufferSize scaleBy fuel bufferSize (openStream first) (rest.map openStream)
      buf tmp

section Specification

/-- The sample number `q`, zero after the end. -/
def Soundfile.sample (sf : Soundfile K) (q : ℕ) : K := sf.samples.getD q 0

def longest (first : Soundfile K) (rest : List (Soundfile K)) : ℕ :=
  rest.foldl (fun n sf => max n sf.samples.length) first.samples.length

/-- The sum of the samples times the scale factor. -/
def mixed (scaleBy : Option K) (first : Soundfile K) (rest : List (Soundfile K)) (q : ℕ) : K :=
  ((first :: rest).map (·.sample q)).sum * scaleBy.getD 1

def Mixes (bufferSize : ℕ) (scaleBy : Option K) (first : Soundfile K) (rest : List (Soundfile K))
    (buf tmp : ℕ → K) : Prop :=
  ∃ fuel, ∀ fuel' ≥ fuel, merge fuel' bufferSize scaleBy first rest buf tmp =
    some ((List.range (longest first rest)).map (mixed scaleBy first rest))

/-- With enough fuel, the samples of the inputs are written, and the stores are inside the temporary
buffer. -/
def Concatenates (bufferSize sndfileBufferSize : ℕ) (first : Soundfile K)
    (rest : List (Soundfile K)) (buf : ℕ → K) : Prop :=
  ∃ fuel, ∀ fuel' ≥ fuel, ∃ stores, concatenate fuel' sndfileBufferSize first rest buf =
    some ((first :: rest).flatMap (·.samples), stores) ∧ ∀ stored ∈ stores, stored ≤ bufferSize

/-- After the end of the first input, the old sample in the same place of the buffer vanishes unless
the library clears it. -/
def Clean (bufferSize : ℕ) (scaleBy : Option K) (first : Soundfile K) (rest : List (Soundfile K))
    (buf : ℕ → K) : Prop :=
  ∀ q < longest first rest, first.samples.length ≤ q → first.clearP (q / bufferSize) = false →
    (if q < bufferSize then buf q else mixed scaleBy first rest (q - bufferSize)) *
      scaleBy.getD 1 = 0

def Soundfile.storeSize (sf : Soundfile K) (sndfileBufferSize k : ℕ) : ℕ :=
  if sf.clearP k then sndfileBufferSize
  else min sndfileBufferSize (sf.samples.length - k * sndfileBufferSize)

/-- The size of the blocks is a positive multiple of the channels and the stores are not greater
than the temporary buffer; otherwise there is nothing to copy. -/
def Fits (bufferSize sndfileBufferSize : ℕ) (first : Soundfile K) (rest : List (Soundfile K)) : Prop :=
  if 0 < sndfileBufferSize ∧ first.channels ∣ sndfileBufferSize then
    ∀ sf ∈ first :: rest, ∀ k, k * sndfileBufferSize < sf.samples.length + sndfileBufferSize →
      sf.storeSize sndfileBufferSize k ≤ bufferSize
  else ∀ sf ∈ first :: rest, sf.samples = []

end Specification

section Blocks

variable {bufferSize : ℕ} {sf first : Soundfile K} {rest : List (Soundfile K)} {buf tmp : ℕ → K}

def Soundfile.streamAt (sf : Soundfile K) (bufferSize b : ℕ) : Stream K :=
  ⟨sf, b, min (b * bufferSize) sf.samples.length⟩

omit [CommRing K] in
theorem openStream_eq (sf : Soundfile K) (bufferSize : ℕ) :
    openStream sf = sf.streamAt bufferSize 0 := by
  simp [openStream, Soundfile.streamAt]

omit [CommRing K] in
theorem storeSize_le (sf : Soundfile K) (sndfileBufferSize k : ℕ) :
    sf.storeSize sndfileBufferSize k ≤ sndfileBufferSize := by
  rw [Soundfile.storeSize]
  split_ifs
  · exact le_rfl
  · exact Nat.min_le_left _ _

theorem sample_eq_zero {q : ℕ} (hq : sf.samples.length ≤ q) : sf.sample q = 0 := by
  rw [Soundfile.sample, List.getD_eq_getElem?_getD, List.getElem?_eq_none hq, Option.getD_none]

theorem foreignRead_eq (hdvd : sf.channels ∣ bufferSize) (b : ℕ) (buf : ℕ → K) :
    foreignRead (sf.streamAt bufferSize b) buf bufferSize =
      (sf.streamAt bufferSize (b + 1),
        fun i =>
          if i < bufferSize ∧ b * bufferSize + i < sf.samples.length then sf.sample (b * bufferSize + i)
          else if sf.clearP b ∧ i < bufferSize then 0
          else buf i,
        min bufferSize (sf.samples.length - b * bufferSize), sf.storeSize bufferSize b) := by
  have hitems : min bufferSize (sf.samples.length - min (b * bufferSize) sf.samples.length) =
      min bufferSize (sf.samples.length - b * bufferSize) := by omega
  have hposition : min (b * bufferSize) sf.samples.length +
      min bufferSize (sf.samples.length - b * bufferSize) =
        min ((b + 1) * bufferSize) sf.samples.length := by
    rw [Nat.succ_mul]
    omega
  simp only [foreignRead, Soundfile.streamAt, if_pos hdvd, hitems, hposition, Prod.mk.injEq, true_and]
  refine ⟨funext fun i => ?_, rfl⟩
  by_cases hin : i < bufferSize ∧ b * bufferSize + i < sf.samples.length
  · rw [if_pos (by omega), if_pos hin, min_eq_left (by omega)]
    rfl
  · rw [if_neg (by omega), if_neg hin]
    by_cases hclear : sf.clearP b = true
    · simp only [hclear, if_true, true_and]
    · simp only [hclear, if_false, false_and, Bool.false_eq_true]
      rw [if_neg (by omega)]

theorem foldl_addInput (hdvd : ∀ sf ∈ rest, sf.channels ∣ bufferSize) (b : ℕ) (buf tmp : ℕ → K)
    (items : ℕ) (streams : List (Stream K)) :
    ∃ tmp', (rest.map (·.streamAt bufferSize b)).foldl (addInput bufferSize)
        (buf, tmp, items, streams) =
      (fun i => buf i + if i < bufferSize then (rest.map (·.sample (b * bufferSize + i))).sum else 0,
        tmp',
        rest.foldl (fun n sf => max n (min bufferSize (sf.samples.length - b * bufferSize))) items,
        streams ++ rest.map (·.streamAt bufferSize (b + 1))) := by
  induction rest generalizing buf tmp items streams with
  | nil => exact ⟨tmp, by simp⟩
  | cons sf rest ih =>
    obtain ⟨read, hread, hvalue⟩ : ∃ read : ℕ → K,
        foreignRead (sf.streamAt bufferSize b) tmp bufferSize =
          (sf.streamAt bufferSize (b + 1), read,
            min bufferSize (sf.samples.length - b * bufferSize), sf.storeSize bufferSize b) ∧
        ∀ i, i < bufferSize ∧ b * bufferSize + i < sf.samples.length →
          read i = sf.sample (b * bufferSize + i) :=
      ⟨_, foreignRead_eq (hdvd sf List.mem_cons_self) b tmp, fun i hi => if_pos hi⟩
    obtain ⟨tmp', htmp⟩ := ih (fun sf hsf => hdvd sf (List.mem_cons_of_mem _ hsf))
      (fun i => if i < min bufferSize (sf.samples.length - b * bufferSize) then buf i + read i
        else buf i) read (max items (min bufferSize (sf.samples.length - b * bufferSize)))
      (streams ++ [sf.streamAt bufferSize (b + 1)])
    refine ⟨tmp', ?_⟩
    simp only [List.map_cons, List.foldl_cons, addInput, hread]
    rw [htmp, List.append_assoc, List.singleton_append]
    congr 1
    funext i
    simp only [List.sum_cons]
    by_cases hi : i < bufferSize
    · by_cases hin : b * bufferSize + i < sf.samples.length
      · rw [if_pos (by omega), hvalue i ⟨hi, hin⟩, if_pos hi, if_pos hi, add_assoc]
      · rw [if_neg (by omega), if_pos hi, if_pos hi, sample_eq_zero (by omega), zero_add]
    · rw [if_neg (by omega), if_neg hi, if_neg hi]

omit [CommRing K] in
theorem foldl_items (n c : ℕ) :
    rest.foldl (fun n sf => max n (min bufferSize (sf.samples.length - c))) (min bufferSize (n - c)) =
      min bufferSize (rest.foldl (fun n sf => max n sf.samples.length) n - c) := by
  induction rest generalizing n with
  | nil => rfl
  | cons sf rest ih =>
    have hmax : max (min bufferSize (n - c)) (min bufferSize (sf.samples.length - c)) =
        min bufferSize (max n sf.samples.length - c) := by
      rw [← min_max_distrib_left, Nat.sub_max_sub_right]
    rw [List.foldl_cons, hmax, ih, List.foldl_cons]

omit [CommRing K] in
theorem channels_dvd_longest (hchannels : ∀ sf ∈ rest, sf.channels = first.channels) :
    first.channels ∣ longest first rest := by
  have hdvd (n : ℕ) (hn : first.channels ∣ n) :
      first.channels ∣ rest.foldl (fun n sf => max n sf.samples.length) n := by
    induction rest generalizing n with
    | nil => exact hn
    | cons sf rest ih =>
      refine ih (fun sf hsf => hchannels sf (List.mem_cons_of_mem _ hsf)) _ ?_
      have hlength := hchannels sf List.mem_cons_self ▸ sf.channels_dvd
      change first.channels ∣ max n sf.samples.length
      rcases max_choice n sf.samples.length with hmax | hmax
      · rwa [hmax]
      · rwa [hmax]
  exact hdvd _ first.channels_dvd

variable {scaleBy : Option K}

def nextBuffer (bufferSize : ℕ) (scaleBy : Option K) (first : Soundfile K)
    (rest : List (Soundfile K)) (b : ℕ) (buf : ℕ → K) : ℕ → K := fun i =>
  let sum :=
    (if i < bufferSize ∧ b * bufferSize + i < first.samples.length then
      first.sample (b * bufferSize + i)
    else if first.clearP b ∧ i < bufferSize then 0
    else buf i) +
      if i < bufferSize then (rest.map (·.sample (b * bufferSize + i))).sum else 0
  if i < min bufferSize (longest first rest - b * bufferSize) then sum * scaleBy.getD 1 else sum

def bufferAt (bufferSize : ℕ) (scaleBy : Option K) (first : Soundfile K)
    (rest : List (Soundfile K)) (buf : ℕ → K) : ℕ → (ℕ → K)
  | 0 => buf
  | b + 1 => nextBuffer bufferSize scaleBy first rest b
      (bufferAt bufferSize scaleBy first rest buf b)

/-- The written sample number `q`. -/
def output (bufferSize : ℕ) (scaleBy : Option K) (first : Soundfile K) (rest : List (Soundfile K))
    (buf : ℕ → K) (q : ℕ) : K :=
  bufferAt bufferSize scaleBy first rest buf (q / bufferSize + 1) (q % bufferSize)

theorem scaleItems_eq (items : ℕ) (buf : ℕ → K) :
    scaleItems scaleBy items buf = fun i => if i < items then buf i * scaleBy.getD 1 else buf i := by
  cases scaleBy with
  | none => simp [scaleItems]
  | some scale => rfl

theorem mixLoop_succ (hdvd : ∀ sf ∈ first :: rest, sf.channels ∣ bufferSize) (channels fuel b : ℕ)
    {items : ℕ} (hitems : 0 < items) (buf tmp : ℕ → K) :
    ∃ tmp', mixLoop channels bufferSize scaleBy (fuel + 1) items (first.streamAt bufferSize b)
        (rest.map (·.streamAt bufferSize b)) buf tmp =
      (mixLoop channels bufferSize scaleBy fuel
        (min bufferSize (longest first rest - b * bufferSize)) (first.streamAt bufferSize (b + 1))
        (rest.map (·.streamAt bufferSize (b + 1)))
        (nextBuffer bufferSize scaleBy first rest b buf) tmp').map
          (foreignWrite channels (nextBuffer bufferSize scaleBy first rest b buf)
            (min bufferSize (longest first rest - b * bufferSize)) ++ ·) := by
  have hread := foreignRead_eq (hdvd first List.mem_cons_self) b buf
  obtain ⟨tmp', hfold⟩ := foldl_addInput (fun sf hsf => hdvd sf (List.mem_cons_of_mem _ hsf)) b
    (fun i => if i < bufferSize ∧ b * bufferSize + i < first.samples.length then
        first.sample (b * bufferSize + i)
      else if first.clearP b ∧ i < bufferSize then 0 else buf i) tmp
    (min bufferSize (first.samples.length - b * bufferSize)) []
  refine ⟨tmp', ?_⟩
  rw [mixLoop, if_pos hitems, hread]
  simp only [hfold, foldl_items, List.nil_append, scaleItems_eq]
  rfl

end Blocks

section Mix

variable {bufferSize : ℕ} {scaleBy : Option K} {first : Soundfile K} {rest : List (Soundfile K)}
  {buf : ℕ → K}

omit [CommRing K] in
theorem le_longest : ∀ sf ∈ first :: rest, sf.samples.length ≤ longest first rest := by
  have hfold (n : ℕ) : n ≤ rest.foldl (fun n sf => max n sf.samples.length) n ∧
      ∀ sf ∈ rest, sf.samples.length ≤ rest.foldl (fun n sf => max n sf.samples.length) n := by
    induction rest generalizing n with
    | nil => exact ⟨le_rfl, nofun⟩
    | cons sf rest ih =>
      obtain ⟨hle, hrest⟩ := ih (max n sf.samples.length)
      refine ⟨(le_max_left _ _).trans hle, fun sf' hsf => ?_⟩
      rcases List.mem_cons.mp hsf with rfl | hsf
      · exact (le_max_right _ _).trans hle
      · exact hrest sf' hsf
  intro sf hsf
  rcases List.mem_cons.mp hsf with rfl | hsf
  · exact (hfold _).1
  · exact (hfold _).2 sf hsf

theorem mixLoop_eq (hpos : 0 < bufferSize) (hdvd : first.channels ∣ bufferSize)
    (hchannels : ∀ sf ∈ rest, sf.channels = first.channels) {fuel b items : ℕ} (hitems : 0 < items)
    (hfuel : longest first rest - b * bufferSize + 2 ≤ fuel) (tmp : ℕ → K) :
    mixLoop first.channels bufferSize scaleBy fuel items (first.streamAt bufferSize b)
        (rest.map (·.streamAt bufferSize b)) (bufferAt bufferSize scaleBy first rest buf b) tmp =
      some ((List.range (longest first rest - b * bufferSize)).map fun j =>
        output bufferSize scaleBy first rest buf (b * bufferSize + j)) := by
  have hdvd' : ∀ sf ∈ first :: rest, sf.channels ∣ bufferSize := by
    intro sf hsf
    rcases List.mem_cons.mp hsf with rfl | hsf
    · exact hdvd
    · rwa [hchannels sf hsf]
  induction fuel generalizing b items tmp with
  | zero => omega
  | succ fuel ih =>
    obtain ⟨tmp', hloop⟩ := @mixLoop_succ K _ bufferSize first rest scaleBy hdvd' first.channels fuel b
      items hitems (bufferAt bufferSize scaleBy first rest buf b) tmp
    rw [hloop]
    by_cases hend : longest first rest ≤ b * bufferSize
    · obtain ⟨fuel, rfl⟩ : ∃ fuel', fuel = fuel' + 1 := ⟨fuel - 1, by omega⟩
      have hzero : longest first rest - b * bufferSize = 0 := by omega
      simp [hzero, mixLoop, foreignWrite]
    · have hmul : (b + 1) * bufferSize = b * bufferSize + bufferSize := Nat.succ_mul _ _
      have hlength : longest first rest - b * bufferSize =
          min bufferSize (longest first rest - b * bufferSize) +
            (longest first rest - (b + 1) * bufferSize) := by omega
      have hwrite : first.channels ∣ min bufferSize (longest first rest - b * bufferSize) := by
        rcases min_choice bufferSize (longest first rest - b * bufferSize) with hmin | hmin
        · rwa [hmin]
        · rw [hmin]
          exact Nat.dvd_sub (channels_dvd_longest hchannels) (hdvd.mul_left b)
      have hnext := @ih (b + 1) (min bufferSize (longest first rest - b * bufferSize)) (by omega)
        (by omega) tmp'
      rw [bufferAt] at hnext
      rw [hnext, Option.map_some, foreignWrite, if_pos hwrite]
      conv_rhs => rw [hlength, List.range_add, List.map_append, List.map_map]
      congr 2
      · refine List.map_congr_left fun j hj => ?_
        have hlt : j < bufferSize := by
          have hj' := List.mem_range.mp hj
          omega
        rw [output, FrameMemory.div_index hlt, FrameMemory.mod_index hlt]
        rfl
      · refine List.map_congr_left fun j hj => ?_
        have hj' := List.mem_range.mp hj
        have hindex : (b + 1) * bufferSize + j =
            b * bufferSize + (min bufferSize (longest first rest - b * bufferSize) + j) := by omega
        rw [hindex]
        rfl

theorem output_eq (hpos : 0 < bufferSize) {q : ℕ} (hq : q < longest first rest) :
    output bufferSize scaleBy first rest buf q =
      ((if q < first.samples.length then first.sample q
      else if first.clearP (q / bufferSize) then 0
      else if q < bufferSize then buf q
      else output bufferSize scaleBy first rest buf (q - bufferSize)) +
        (rest.map (·.sample q)).sum) * scaleBy.getD 1 := by
  have hindex := Nat.div_add_mod' q bufferSize
  have hlt := Nat.mod_lt q hpos
  have hbefore : bufferAt bufferSize scaleBy first rest buf (q / bufferSize) (q % bufferSize) =
      if q < bufferSize then buf q
      else output bufferSize scaleBy first rest buf (q - bufferSize) := by
    cases hb : q / bufferSize with
    | zero =>
      have hq : q < bufferSize := (Nat.div_eq_zero_iff.mp hb).resolve_left hpos.ne'
      rw [if_pos hq, Nat.mod_eq_of_lt hq]
      rfl
    | succ b =>
      rw [hb, Nat.succ_mul] at hindex
      have hsub : q - bufferSize = b * bufferSize + q % bufferSize := by omega
      rw [if_neg (by omega), output, hsub, FrameMemory.div_index hlt, FrameMemory.mod_index hlt]
  rw [output, bufferAt, nextBuffer]
  simp only [hindex, hlt, true_and, and_true, if_true, hbefore]
  rw [if_pos (by omega)]

theorem output_eq_mixed_iff (hpos : 0 < bufferSize) :
    (∀ q < longest first rest, output bufferSize scaleBy first rest buf q = mixed scaleBy first rest q) ↔
      Clean bufferSize scaleBy first rest buf := by
  constructor
  · intro h q hq hend hclear
    have hsample := h q hq
    rw [output_eq hpos hq, mixed, if_neg (by omega), hclear, if_neg Bool.false_ne_true, List.map_cons,
      List.sum_cons, sample_eq_zero hend, zero_add, add_mul, add_eq_right] at hsample
    by_cases hfirst : q < bufferSize
    · rwa [if_pos hfirst] at hsample ⊢
    · rw [if_neg hfirst] at hsample ⊢
      rwa [← h (q - bufferSize) (by omega)]
  · intro h q
    induction q using Nat.strong_induction_on with
    | _ q ih =>
      intro hq
      rw [output_eq hpos hq, mixed, List.map_cons, List.sum_cons]
      by_cases hend : q < first.samples.length
      · rw [if_pos hend]
      · rw [if_neg hend, sample_eq_zero (Nat.le_of_not_lt hend)]
        cases hclear : first.clearP (q / bufferSize) with
        | true => rw [if_pos rfl]
        | false =>
          have hold := h q hq (Nat.le_of_not_lt hend) hclear
          rw [if_neg Bool.false_ne_true, add_mul, zero_add, add_eq_right]
          by_cases hfirst : q < bufferSize
          · rwa [if_pos hfirst] at hold ⊢
          · rw [if_neg hfirst] at hold ⊢
            rwa [ih (q - bufferSize) (by omega) (by omega)]

end Mix

end Incudine.SoundfileMerge
