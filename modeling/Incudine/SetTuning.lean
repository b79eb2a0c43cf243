import Incudine.SclFile
import Incudine.Tuning

/-!
# Change of a tuning

The reference of a tuning is changed before the notes, and the notes are converted in the arrays of
the tuning. After an error the tuning is the old one only if the values already stored are the same.
The samples are the elements of a field.
-/

namespace Incudine.SetTuning

open Function SclFile

structure Scale (C : Type) [Zero C] where
  degrees : ℕ
  cents : ℕ → C
  ratios : ℕ → ℚ
  degrees_pos : 0 < degrees
  degrees_le : degrees ≤ 128
  cents_zero : cents 0 = 0
  ratios_zero : ratios 0 = 1

structure TuningSlots (C K : Type) [Zero C] where
  description : List Char
  scale : Scale C
  sampleRatios : ℕ → K
  keynumBase : ℕ
  degreeIndex : ℕ
  freqBase : K
  tempValue1 : K
  tempValue2 : K
  data : ℕ → K

/-- The state after a call, also if there is an error. -/
inductive Outcome (σ : Type) where
  | error (state : σ)
  | ok (state : σ)

variable {C D K : Type} [Zero C]

def Scale.set (scale : Scale C) (i : ℕ) (cent : C) (ratio : ℚ) : Scale C :=
  { scale with
    cents := update scale.cents (i + 1) cent
    ratios := update scale.ratios (i + 1) ratio
    cents_zero := by rw [update_of_ne (Nat.succ_ne_zero i).symm, scale.cents_zero]
    ratios_zero := by rw [update_of_ne (Nat.succ_ne_zero i).symm, scale.ratios_zero] }

@[simp] theorem Scale.set_cents (scale : Scale C) (i : ℕ) (cent : C) (ratio : ℚ) :
    (scale.set i cent ratio).cents = update scale.cents (i + 1) cent := rfl

@[simp] theorem Scale.set_ratios (scale : Scale C) (i : ℕ) (cent : C) (ratio : ℚ) :
    (scale.set i cent ratio).ratios = update scale.ratios (i + 1) ratio := rfl

section Notes

variable (ops : PitchOps C D)

def centAndRatio : Pitch C D → Option (C × ℚ)
  | .single pch => (ops.ratioOfCents pch).map fun ratio => (pch, ratio)
  | .rational pch =>
    if 0 < pch then (ops.centsOfRatio pch).map fun cent => (cent, pch) else none
  | .double pch => do
    let pch ← ops.singleOfDouble pch
    (ops.ratioOfCents pch).map fun ratio => (pch, ratio)
  | .other => none

def sclNotesToCentsAndRatios : ℕ → List (Pitch C D) → Scale C → Outcome (Scale C)
  | _, [], scale => .ok scale
  | i, pch :: notes, scale =>
    match centAndRatio ops pch with
    | none => .error scale
    | some (cent, ratio) => sclNotesToCentsAndRatios (i + 1) notes (scale.set i cent ratio)

end Notes

section Frequencies

variable [Field K]

def tuningUpdateSampleRatios (t : TuningSlots C K) : TuningSlots C K :=
  let len := t.scale.degrees
  let sampleRatios := fun i => if i < len then (t.scale.ratios (i + 1) : K) else t.sampleRatios i
  { t with sampleRatios := update sampleRatios 128 (1 / sampleRatios (len - 1)) }

namespace TuningSlots

variable (t : TuningSlots C K)

def previousDegree (deg : ℕ) : ℕ := (((deg : ℤ) - 1) % t.scale.degrees).toNat

/-- The keys below the given one, with the last frequency of the unison. -/
def updateLower : ℕ → ℕ → K → (ℕ → K) → K × (ℕ → K)
  | 0, _, temp, data => (temp, data)
  | k + 1, deg, temp, data =>
    let data := update data k (temp * t.sampleRatios deg)
    let temp := if deg = 0 ∧ 0 < k then temp * t.sampleRatios 128 else temp
    updateLower k (t.previousDegree deg) temp data

/-- The keys from `k`, with the number of the keys that are left. -/
def updateUpper : ℕ → ℕ → ℕ → K → (ℕ → K) → K × (ℕ → K)
  | 0, _, _, temp, data => (temp, data)
  | left + 1, k, deg, temp, data =>
    let temp := if deg = 0 then data (k - 1) else temp
    updateUpper left (k + 1) ((deg + 1) % t.scale.degrees) temp
      (update data k (temp * t.sampleRatios deg))

end TuningSlots

def updateTuningData (t : TuningSlots C K) : TuningSlots C K :=
  let kbase := t.keynumBase
  let degree := t.previousDegree t.degreeIndex
  let data := update t.data kbase t.freqBase
  let temp := t.freqBase * (1 / t.sampleRatios degree)
  let (temp1, data) := t.updateLower kbase (t.previousDegree degree) temp data
  let (temp2, data) :=
    t.updateUpper (127 - kbase) (kbase + 1) ((degree + 1) % t.scale.degrees) temp data
  { t with
    tempValue1 := temp1
    tempValue2 := temp2
    data := data }

end Frequencies

/-- The slots of a tuning with real samples. -/
structure TuningSlots.Represents (t : TuningSlots C ℝ) (tuning : Tuning) : Prop where
  degrees_eq : t.scale.degrees = tuning.degrees
  sampleRatio_eq : ∀ i < tuning.degrees, t.sampleRatios i = tuning.sampleRatio i
  last_eq : t.sampleRatios 128 = 1 / tuning.sampleRatio (tuning.degrees - 1)
  keynumBase_eq : t.keynumBase = tuning.keynumBase
  degreeIndex_eq : t.degreeIndex = tuning.degreeIndex
  freqBase_eq : t.freqBase = tuning.freqBase

section Represents

variable {t : TuningSlots C ℝ} {tuning : Tuning} (h : t.Represents tuning)
include h

theorem TuningSlots.Represents.previousDegree (deg : ℕ) :
    t.previousDegree deg = tuning.previousDegree deg := by
  rw [TuningSlots.previousDegree, Tuning.previousDegree, h.degrees_eq]

theorem TuningSlots.Represents.updateLower (k : ℕ) {deg : ℕ} (hdeg : deg < tuning.degrees) (temp : ℝ)
    (data : ℕ → ℝ) :
    (t.updateLower k deg temp data).2 = tuning.updateLower k deg temp data := by
  induction k generalizing deg temp data with
  | zero => rfl
  | succ k ih =>
    rw [TuningSlots.updateLower, Tuning.updateLower, h.sampleRatio_eq deg hdeg, h.last_eq,
      h.previousDegree]
    exact ih (Tuning.previousDegree_lt deg) _ _

theorem TuningSlots.Represents.updateUpper (left k : ℕ) {deg : ℕ} (hdeg : deg < tuning.degrees)
    (temp : ℝ) (data : ℕ → ℝ) :
    (t.updateUpper left k deg temp data).2 = tuning.updateUpper left k deg temp data := by
  induction left generalizing k deg temp data with
  | zero => rfl
  | succ left ih =>
    rw [TuningSlots.updateUpper, Tuning.updateUpper, h.sampleRatio_eq deg hdeg, h.degrees_eq]
    exact ih (k + 1) (Nat.mod_lt _ tuning.degrees_pos) _ _

/-- The frequencies are those of the tuning in real arithmetic. -/
theorem TuningSlots.Represents.updateTuningData :
    (SetTuning.updateTuningData t).data = tuning.updateTuningData t.data := by
  have hdegree : t.previousDegree t.degreeIndex = tuning.degreeIntervalIndex := by
    rw [h.degreeIndex_eq, h.previousDegree]
    rfl
  have hlt : tuning.degreeIntervalIndex < tuning.degrees := Tuning.degreeIntervalIndex_lt
  simp only [SetTuning.updateTuningData, Tuning.updateTuningData, hdegree, h.previousDegree,
    h.keynumBase_eq, h.freqBase_eq, h.degrees_eq, h.sampleRatio_eq _ hlt,
    h.updateLower _ (Tuning.previousDegree_lt _),
    h.updateUpper _ _ (Nat.mod_lt _ tuning.degrees_pos)]

end Represents

theorem tuningUpdateSampleRatios_represents {t : TuningSlots C ℝ} {tuning : Tuning}
    (hdegrees : t.scale.degrees = tuning.degrees)
    (hratios : ∀ i ≤ tuning.degrees, (t.scale.ratios i : ℝ) = tuning.ratios i)
    (hkeynum : t.keynumBase = tuning.keynumBase) (hdegree : t.degreeIndex = tuning.degreeIndex)
    (hfreq : t.freqBase = tuning.freqBase) : (tuningUpdateSampleRatios t).Represents tuning := by
  have hpos := tuning.degrees_pos
  have hle := tuning.degrees_le
  refine ⟨hdegrees, fun i hi => ?_, ?_, hkeynum, hdegree, hfreq⟩
  · simp only [tuningUpdateSampleRatios]
    rw [update_of_ne (by omega), if_pos (by omega)]
    exact hratios (i + 1) hi
  · simp only [tuningUpdateSampleRatios, update_self, hdegrees]
    rw [if_pos (by omega), hratios _ (by omega)]
    rfl

def limitedLength (length : ℕ) : ℕ := if 128 < length then 128 else length

def limitedNotes (notes : List (Pitch C D)) (length : ℕ) : List (Pitch C D) :=
  if 128 < length then notes.take 128 else notes

def limitedDescription (description : List Char) (length : ℕ) : List Char :=
  if 128 < length then
    description.rdropWhile (fun c => c = '.' ∨ c = ' ' ∨ c = '\t') ++
      ". Number of notes reduced to 128.".toList
  else description

theorem limitedLength_pos {length : ℕ} (h : 0 < length) : 0 < limitedLength length := by
  rw [limitedLength]
  split_ifs <;> omega

theorem limitedLength_le (length : ℕ) : limitedLength length ≤ 128 := by
  rw [limitedLength]
  split_ifs <;> omega

/-- The arrays of another scale. The memory of the cents is not initialized, apart from the unison
that is set before the notes. -/
def newScale (memory : ℕ → C) (length : ℕ) (h : 0 < length) : Scale C where
  degrees := limitedLength length
  cents := update memory 0 0
  ratios _ := 1
  degrees_pos := limitedLength_pos h
  degrees_le := limitedLength_le length
  cents_zero := update_self 0 0 memory
  ratios_zero := rfl

def maybeRewriteTuningCentsAndRatios (memory : ℕ → C) (scale : Scale C) (length : ℕ)
    (h : 0 < length) : Scale C :=
  if limitedLength length = scale.degrees then scale else newScale memory length h

section Change

variable [Field K] (ops : PitchOps C D) (memory : ℕ → C)

/-- `set-tuning-notes`. The length is positive, and the type of the number of degrees of the tuning
is `(integer 1 127)`. -/
def setTuningNotes (t : TuningSlots C K) (notes : List (Pitch C D)) (length : ℕ)
    (description : List Char) : Outcome (TuningSlots C K) :=
  if h : 0 < length then
    if t.scale.degrees = 128 then .error t
    else
      let scale := maybeRewriteTuningCentsAndRatios memory t.scale length h
      match sclNotesToCentsAndRatios ops 0 (limitedNotes notes length) scale with
      | .error scale => .error { t with scale := scale }
      | .ok scale =>
        .ok (updateTuningData { tuningUpdateSampleRatios { t with scale := scale } with
          description := limitedDescription description length })
  else .error t

inductive NotesOrFile (C D : Type) where
  | notes (notes : List (Pitch C D))
  | file (lines : Option (List (List Char)))

structure Arguments (C D K : Type) where
  notesOrFile : NotesOrFile C D
  description : Option (List Char)
  keynumBase : Option ℤ
  freqBase : Option K
  degreeIndex : Option ℤ

variable [LinearOrder K]

def Arguments.WellTyped (args : Arguments C D K) : Prop :=
  (∀ k ∈ args.keynumBase, 0 ≤ k ∧ k ≤ 127) ∧ (∀ k ∈ args.degreeIndex, 0 ≤ k ∧ k ≤ 127) ∧
    ∀ f ∈ args.freqBase, 0 ≤ f ∧ f ≤ 20000

instance (args : Arguments C D K) : Decidable args.WellTyped := by
  unfold Arguments.WellTyped
  infer_instance

/-- The notes, their number and the description. -/
def Arguments.loaded (args : Arguments C D K) : Option (List (Pitch C D) × ℕ × List Char) :=
  match args.notesOrFile with
  | .notes notes => some (notes, notes.length, args.description.getD [])
  | .file lines => loadSclfile ops lines

def setReference (t : TuningSlots C K) (args : Arguments C D K) : TuningSlots C K :=
  { t with
    keynumBase := (args.keynumBase.map Int.toNat).getD t.keynumBase
    degreeIndex := (args.degreeIndex.map Int.toNat).getD t.degreeIndex
    freqBase := args.freqBase.getD t.freqBase }

def setTuning (t : TuningSlots C K) (args : Arguments C D K) : Outcome (TuningSlots C K) :=
  if args.WellTyped then
    let t := setReference t args
    match args.loaded ops with
    | none => .error t
    | some (notes, length, description) => setTuningNotes ops memory t notes length description
  else .error t

end Change

section Notes

variable {ops : PitchOps C D} {notes : List (Pitch C D)} {scale s : Scale C} {i : ℕ}

def Valid (ops : PitchOps C D) (pch : Pitch C D) : Bool := (centAndRatio ops pch).isSome

/-- The entries of the scale before the first invalid note are the ones of the notes. -/
def InPlace (ops : PitchOps C D) (scale : Scale C) (i : ℕ) (notes : List (Pitch C D)) : Prop :=
  ∀ j pch, (notes.takeWhile (Valid ops))[j]? = some pch →
    centAndRatio ops pch = some (scale.cents (i + j + 1), scale.ratios (i + j + 1))

theorem Scale.set_eq_iff {cent : C} {ratio : ℚ} :
    scale.set i cent ratio = scale ↔
      (cent, ratio) = (scale.cents (i + 1), scale.ratios (i + 1)) := by
  rw [Prod.mk.injEq]
  constructor
  · intro h
    have hcents := congrFun (congrArg Scale.cents h) (i + 1)
    have hratios := congrFun (congrArg Scale.ratios h) (i + 1)
    rw [set_cents, update_self] at hcents
    rw [set_ratios, update_self] at hratios
    exact ⟨hcents, hratios⟩
  · rintro ⟨rfl, rfl⟩
    simp only [Scale.set, update_eq_self]

theorem inPlace_cons {pch : Pitch C D} (hpch : Valid ops pch) :
    InPlace ops scale i (pch :: notes) ↔
      centAndRatio ops pch = some (scale.cents (i + 1), scale.ratios (i + 1)) ∧
        InPlace ops scale (i + 1) notes := by
  rw [InPlace, List.takeWhile_cons, hpch]
  constructor
  · intro h
    refine ⟨h 0 pch rfl, fun j pch' hj => ?_⟩
    have := h (j + 1) pch' hj
    rwa [show i + (j + 1) = i + 1 + j by omega] at this
  · rintro ⟨hfirst, hrest⟩ j pch' hj
    cases j with
    | zero =>
      obtain rfl : pch = pch' := Option.some.inj hj
      exact hfirst
    | succ j =>
      rw [show i + (j + 1) = i + 1 + j by omega]
      exact hrest j pch' hj

theorem sclNotesToCentsAndRatios_all (h : ∀ pch ∈ notes, Valid ops pch) :
    sclNotesToCentsAndRatios ops i notes scale ≠ .error s := by
  induction notes generalizing i scale with
  | nil => exact fun h => nomatch h
  | cons pch notes ih =>
    obtain ⟨⟨cent, ratio⟩, hpch⟩ := Option.isSome_iff_exists.mp (h pch List.mem_cons_self)
    rw [sclNotesToCentsAndRatios, hpch]
    exact ih fun pch hpch => h pch (List.mem_cons_of_mem _ hpch)

theorem sclNotesToCentsAndRatios_error (h : ∃ pch ∈ notes, Valid ops pch = false) :
    ∃ s, sclNotesToCentsAndRatios ops i notes scale = .error s ∧ s.degrees = scale.degrees ∧
      (∀ j ≤ i, s.cents j = scale.cents j ∧ s.ratios j = scale.ratios j) ∧
      (s = scale ↔ InPlace ops scale i notes) := by
  induction notes generalizing i scale with
  | nil => exact nomatch h
  | cons pch notes ih =>
    rw [sclNotesToCentsAndRatios]
    cases hpch : centAndRatio ops pch with
    | none =>
      have hvalid : Valid ops pch = false := by
        rw [Valid, hpch]
        rfl
      refine ⟨scale, rfl, rfl, fun j _ => ⟨rfl, rfl⟩, iff_of_true rfl fun j pch' hj => ?_⟩
      rw [List.takeWhile_cons, hvalid] at hj
      exact nomatch hj
    | some value =>
      obtain ⟨cent, ratio⟩ := value
      have hvalid : Valid ops pch = true := by
        rw [Valid, hpch]
        rfl
      have hrest : ∃ pch ∈ notes, Valid ops pch = false := by
        obtain ⟨pch', hmem, hinvalid⟩ := h
        rcases List.mem_cons.mp hmem with rfl | hmem
        · rw [hvalid] at hinvalid
          exact nomatch hinvalid
        · exact ⟨pch', hmem, hinvalid⟩
      obtain ⟨s, hs, hdegrees, hframe, hiff⟩ := @ih (scale.set i cent ratio) (i + 1) hrest
      refine ⟨s, hs, hdegrees, fun j hj => ?_, ?_⟩
      · have hset := hframe j (by omega)
        rwa [Scale.set_cents, Scale.set_ratios, update_of_ne (by omega),
          update_of_ne (by omega)] at hset
      · rw [inPlace_cons hvalid, hpch, Option.some.injEq, ← Scale.set_eq_iff]
        constructor
        · intro heq
          have hset : scale.set i cent ratio = scale := by
            obtain ⟨hcents, hratios⟩ := hframe (i + 1) le_rfl
            rw [heq, Scale.set_cents, update_self] at hcents
            rw [heq, Scale.set_ratios, update_self] at hratios
            rw [Scale.set_eq_iff, hcents, hratios]
          rw [hset] at hiff
          exact ⟨hset, hiff.mp heq⟩
        · rintro ⟨hset, hplace⟩
          rw [hset] at hiff
          exact hiff.mpr hplace

end Notes

section Errors

variable [Field K] {ops : PitchOps C D} {memory : ℕ → C} {t : TuningSlots C K}
  {notes : List (Pitch C D)} {length : ℕ} {description : List Char}

def Rejected (t : TuningSlots C K) (length : ℕ) : Prop := length = 0 ∨ t.scale.degrees = 128

/-- The conversion doesn't change the entries that it stores before an error. -/
def SameEntries (ops : PitchOps C D) (t : TuningSlots C K) (notes : List (Pitch C D))
    (length : ℕ) : Prop :=
  limitedLength length = t.scale.degrees ∧ InPlace ops t.scale 0 (limitedNotes notes length)

theorem setTuningNotes_rejected (h : Rejected t length) :
    setTuningNotes ops memory t notes length description = .error t := by
  rw [setTuningNotes]
  by_cases hlength : 0 < length
  · rw [dif_pos hlength, if_pos (h.resolve_left hlength.ne')]
  · rw [dif_neg hlength]

theorem setTuningNotes_valid {s : TuningSlots C K} (h : ¬ Rejected t length)
    (hvalid : ∀ pch ∈ limitedNotes notes length, Valid ops pch) :
    setTuningNotes ops memory t notes length description ≠ .error s := by
  obtain ⟨hlength, hdegrees⟩ := not_or.mp h
  rw [setTuningNotes, dif_pos (Nat.pos_of_ne_zero hlength), if_neg hdegrees]
  simp only
  split
  · rename_i scale hscale
    exact absurd hscale (sclNotesToCentsAndRatios_all hvalid)
  · exact fun h => nomatch h

theorem setTuningNotes_invalid (h : ¬ Rejected t length)
    (hinvalid : ∃ pch ∈ limitedNotes notes length, Valid ops pch = false) :
    ∃ scale, setTuningNotes ops memory t notes length description =
        .error { t with scale := scale } ∧
      (scale = t.scale ↔ SameEntries ops t notes length) := by
  obtain ⟨hlength, hdegrees⟩ := not_or.mp h
  have hpos := Nat.pos_of_ne_zero hlength
  obtain ⟨scale, hscale, hdegrees', -, hiff⟩ := @sclNotesToCentsAndRatios_error _ _ _ ops
    (limitedNotes notes length) (maybeRewriteTuningCentsAndRatios memory t.scale length hpos) 0
    hinvalid
  refine ⟨scale, ?_, ?_⟩
  · rw [setTuningNotes, dif_pos hpos, if_neg hdegrees]
    simp only
    rw [hscale]
  · rw [SameEntries]
    rw [maybeRewriteTuningCentsAndRatios] at hdegrees' hiff
    by_cases hsame : limitedLength length = t.scale.degrees
    · rw [if_pos hsame] at hiff
      rw [hiff, and_iff_right hsame]
    · rw [if_neg hsame] at hdegrees'
      refine iff_of_false (fun heq => hsame ?_) fun hand => hsame hand.1
      rw [← heq, hdegrees']
      rfl

variable [LinearOrder K] {args : Arguments C D K}

/-- The given values are already the reference of the tuning. -/
def SameReference (t : TuningSlots C K) (args : Arguments C D K) : Prop :=
  (∀ k ∈ args.keynumBase, k = t.keynumBase) ∧ (∀ k ∈ args.degreeIndex, k = t.degreeIndex) ∧
    ∀ f ∈ args.freqBase, f = t.freqBase

theorem toNat_getD_eq_iff {k? : Option ℤ} {n : ℕ} (h : ∀ k ∈ k?, 0 ≤ k ∧ k ≤ 127) :
    (k?.map Int.toNat).getD n = n ↔ ∀ k ∈ k?, k = n := by
  cases k? with
  | none => exact iff_of_true rfl fun k hk => nomatch hk
  | some k =>
    have hk := h k rfl
    rw [Option.map_some, Option.getD_some]
    constructor
    · rintro heq _ ⟨⟩
      omega
    · intro heq
      have := heq k rfl
      omega

theorem setReference_eq_iff (h : args.WellTyped) :
    setReference t args = t ↔ SameReference t args := by
  have hfreq : args.freqBase.getD t.freqBase = t.freqBase ↔
      ∀ f ∈ args.freqBase, f = t.freqBase := by
    cases args.freqBase with
    | none => exact iff_of_true rfl fun f hf => nomatch hf
    | some f => exact ⟨fun heq _ hf => Option.some.inj hf ▸ heq, fun heq => heq f rfl⟩
  rw [SameReference, ← toNat_getD_eq_iff h.1, ← toNat_getD_eq_iff h.2.1, ← hfreq]
  constructor
  · intro heq
    exact ⟨congrArg TuningSlots.keynumBase heq, congrArg TuningSlots.degreeIndex heq,
      congrArg TuningSlots.freqBase heq⟩
  · rintro ⟨hkeynum, hdegree, hfreq⟩
    rw [setReference, hkeynum, hdegree, hfreq]

/-- The notes are accepted, and all the ones that are not dropped are valid. -/
def Accepted (ops : PitchOps C D) (t : TuningSlots C K) (args : Arguments C D K) : Prop :=
  ∃ notes length description, args.loaded ops = some (notes, length, description) ∧
    ¬ Rejected t length ∧ ∀ pch ∈ limitedNotes notes length, Valid ops pch

/-- The values that are stored before an error are the ones of the tuning. -/
def AlreadyStored (ops : PitchOps C D) (t : TuningSlots C K) (args : Arguments C D K) : Prop :=
  SameReference t args ∧ ∀ notes length description,
    args.loaded ops = some (notes, length, description) → ¬ Rejected t length →
      SameEntries ops t notes length

omit [Field K] [LinearOrder K] in
theorem accepted_iff (h : args.loaded ops = some (notes, length, description)) :
    Accepted ops t args ↔
      ¬ Rejected t length ∧ ∀ pch ∈ limitedNotes notes length, Valid ops pch := by
  rw [Accepted, h]
  constructor
  · rintro ⟨_, _, _, ⟨⟩, haccepted⟩
    exact haccepted
  · exact fun haccepted => ⟨_, _, _, rfl, haccepted⟩

omit [Field K] [LinearOrder K] in
theorem alreadyStored_iff (h : args.loaded ops = some (notes, length, description)) :
    AlreadyStored ops t args ↔
      SameReference t args ∧ (¬ Rejected t length → SameEntries ops t notes length) := by
  rw [AlreadyStored, h]
  refine and_congr Iff.rfl ⟨fun hstored => hstored _ _ _ rfl, ?_⟩
  rintro hstored _ _ _ ⟨⟩
  exact hstored

theorem error_iff {σ : Type} {s₀ t : σ} :
    (∀ s, Outcome.error s₀ = .error s → s = t) ↔ s₀ = t := by
  constructor
  · exact fun h => h s₀ rfl
  · rintro h _ ⟨⟩
    exact h

omit [Field K] [LinearOrder K] in
theorem setReference_scale_eq_iff {scale : Scale C} :
    { setReference t args with scale := scale } = t ↔
      setReference t args = t ∧ scale = t.scale := by
  constructor
  · intro h
    have hscale : scale = t.scale := congrArg TuningSlots.scale h
    rw [hscale] at h
    exact ⟨h, hscale⟩
  · rintro ⟨href, hscale⟩
    rw [hscale, href]

/-- An error leaves the tuning unchanged iff it is an error in the types of the reference or the
values that are stored before it are already in the tuning. -/
theorem setTuning_atomic_iff (ops : PitchOps C D) (memory : ℕ → C) (t : TuningSlots C K)
    (args : Arguments C D K) :
    (∀ s, setTuning ops memory t args = .error s → s = t) ↔
      ¬ args.WellTyped ∨ Accepted ops t args ∨ AlreadyStored ops t args := by
  rw [setTuning]
  by_cases htypes : args.WellTyped
  swap
  · rw [if_neg htypes]
    exact iff_of_true (error_iff.mpr rfl) (.inl htypes)
  rw [if_pos htypes, or_iff_right (not_not.mpr htypes)]
  simp only
  cases hloaded : args.loaded ops with
  | none =>
    have hnot : ¬ Accepted ops t args := by
      rintro ⟨_, _, _, hsome, -⟩
      exact nomatch hloaded.symm.trans hsome
    rw [or_iff_right hnot, AlreadyStored, ← setReference_eq_iff htypes, hloaded,
      and_iff_left (fun _ _ _ h => nomatch h)]
    exact error_iff
  | some loaded =>
    obtain ⟨notes, length, description⟩ := loaded
    simp only
    rw [accepted_iff hloaded, alreadyStored_iff hloaded, ← setReference_eq_iff htypes]
    by_cases hrejected : Rejected t length
    · rw [setTuningNotes_rejected (show Rejected (setReference t args) length from hrejected),
        error_iff, or_iff_right (fun h => h.1 hrejected), and_iff_left (absurd hrejected)]
    have hrejected' : ¬ Rejected (setReference t args) length := hrejected
    by_cases hvalid : ∀ pch ∈ limitedNotes notes length, Valid ops pch
    · exact iff_of_true (fun s hs => absurd hs (setTuningNotes_valid hrejected' hvalid))
        (.inl ⟨hrejected, hvalid⟩)
    · have hinvalid : ∃ pch ∈ limitedNotes notes length, Valid ops pch = false := by
        push Not at hvalid
        simpa only [Bool.not_eq_true] using hvalid
      obtain ⟨scale, hscale, hiff⟩ :=
        @setTuningNotes_invalid _ _ _ _ _ ops memory _ notes length description hrejected' hinvalid
      rw [hscale, error_iff, or_iff_right (fun h => hvalid h.2), imp_iff_right hrejected,
        setReference_scale_eq_iff]
      exact and_congr Iff.rfl hiff

def octaveOps : PitchOps ℚ ℚ where
  ratioOfCents c := some (2 ^ (c / 1200).floor)
  centsOfRatio q := some (1200 * Nat.log 2 q.num.toNat)
  singleOfDouble x := some x
  singleOfRational q := some q
  readFromString _ := some .other

/-- The tuning with one octave, where the frequency of the key 69 is 440. -/
def octaves : TuningSlots ℚ ℚ where
  description := []
  scale :=
    { degrees := 1
      cents := fun i => 1200 * i
      ratios := fun i => 2 ^ i
      degrees_pos := Nat.one_pos
      degrees_le := by decide
      cents_zero := by norm_num
      ratios_zero := by norm_num }
  sampleRatios i := if i = 128 then 1 / 2 else 2
  keynumBase := 69
  degreeIndex := 0
  freqBase := 440
  tempValue1 := 440 / 2 ^ 70
  tempValue2 := 440 * 2 ^ 57
  data k := 440 * 2 ^ ((k : ℤ) - 69)

def twoOctaves : Arguments ℚ ℚ ℚ where
  notesOrFile := .notes [.rational 4, .other]
  description := none
  keynumBase := none
  freqBase := none
  degreeIndex := none

/-- The number of degrees of the tuning is changed by the call with an invalid note. -/
theorem not_setTuning_atomic : ¬ ∀ (t : TuningSlots ℚ ℚ) (args : Arguments ℚ ℚ ℚ)
    (s : TuningSlots ℚ ℚ), setTuning octaveOps (fun _ => 0) t args = .error s → s = t := by
  intro h
  have hvalid : twoOctaves.WellTyped :=
    ⟨fun _ hk => (nomatch hk), fun _ hk => (nomatch hk), fun _ hf => (nomatch hf)⟩
  have hrejected : ¬ Rejected (setReference octaves twoOctaves) 2 := by
    rintro (hlength | hdegrees)
    · exact nomatch hlength
    · exact absurd hdegrees (by decide)
  have hinvalid : ∃ pch ∈ limitedNotes [.rational 4, .other] 2, Valid octaveOps pch = false :=
    ⟨.other, List.mem_cons_of_mem _ List.mem_cons_self, rfl⟩
  obtain ⟨scale, hscale, hiff⟩ := @setTuningNotes_invalid _ _ _ _ _ octaveOps (fun _ => 0)
    (setReference octaves twoOctaves) [.rational 4, .other] 2 [] hrejected hinvalid
  have hcall := h octaves twoOctaves _ (by rw [setTuning, if_pos hvalid]; exact hscale)
  exact absurd (hiff.mp (congrArg TuningSlots.scale hcall)).1 (by decide)

end Errors

end Incudine.SetTuning
