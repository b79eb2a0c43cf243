import Mathlib.Data.Fin.Basic
import Mathlib.Tactic.Ring

/-!
# Analysis bins

The parts of the bins of an abuffer are loaded and stored by four functions with a compiler macro
each. If the index of the bin is a constant, the imaginary part is loaded from the next bin.
-/

namespace Incudine.AnalysisBins

open Function

inductive SampleType
  | singleFloat
  | doubleFloat

def foreignSampleSize : SampleType → ℕ
  | .singleFloat => 4
  | .doubleFloat => 8

def foreignComplexSize (type : SampleType) : ℕ := 2 * foreignSampleSize type

/-- `data offset` is the sample at an offset in octets. -/
structure Abuffer (α : Type*) where
  data : ℕ → α
  nbins : ℕ

/-- The function or its compiler macro with a constant or a variable index. -/
inductive Form
  | function
  | constantIndex
  | variableIndex
  deriving DecidableEq

variable {α : Type*}

def memRef (data : ℕ → α) (offset : ℕ) : α := data offset

def setMemRef (data : ℕ → α) (offset : ℕ) (value : α) : ℕ → α := update data offset value

section Source

variable (type : SampleType)

def abufferRealpartOffset : Form → ℕ → ℕ
  | .function, nbin => nbin * foreignComplexSize type
  | .constantIndex, nbin => nbin * foreignComplexSize type
  | .variableIndex, nbin => nbin * foreignComplexSize type

def abufferRealpart (form : Form) (obj : Abuffer α) (nbin : ℕ) : α :=
  memRef obj.data (abufferRealpartOffset type form nbin)

def setAbufferRealpartOffset : Form → ℕ → ℕ
  | .function, nbin => nbin * foreignComplexSize type
  | .constantIndex, nbin => nbin * foreignComplexSize type
  | .variableIndex, nbin => nbin * foreignComplexSize type

def setAbufferRealpart (form : Form) (obj : Abuffer α) (nbin : ℕ) (value : α) : Abuffer α :=
  { obj with data := setMemRef obj.data (setAbufferRealpartOffset type form nbin) value }

def abufferImagpartOffset : Form → ℕ → ℕ
  | .function, nbin => nbin * foreignComplexSize type + foreignSampleSize type
  | .constantIndex, nbin => nbin * foreignComplexSize type + foreignComplexSize type
  | .variableIndex, nbin => nbin * foreignComplexSize type + foreignSampleSize type

def abufferImagpart (form : Form) (obj : Abuffer α) (nbin : ℕ) : α :=
  memRef obj.data (abufferImagpartOffset type form nbin)

def setAbufferImagpartOffset : Form → ℕ → ℕ
  | .function, nbin => nbin * foreignComplexSize type + foreignSampleSize type
  | .constantIndex, nbin => nbin * foreignComplexSize type + foreignSampleSize type
  | .variableIndex, nbin => nbin * foreignComplexSize type + foreignSampleSize type

def setAbufferImagpart (form : Form) (obj : Abuffer α) (nbin : ℕ) (value : α) : Abuffer α :=
  { obj with data := setMemRef obj.data (setAbufferImagpartOffset type form nbin) value }

end Source

inductive Part
  | real
  | imag
  deriving DecidableEq

/-- A load or a store of a part of a bin. -/
structure Access (nbins : ℕ) where
  storeP : Bool
  part : Part
  form : Form
  nbin : Fin nbins

variable {nbins : ℕ}

def Access.offset (type : SampleType) (a : Access nbins) : ℕ :=
  match a.storeP, a.part with
  | false, .real => abufferRealpartOffset type a.form a.nbin
  | true, .real => setAbufferRealpartOffset type a.form a.nbin
  | false, .imag => abufferImagpartOffset type a.form a.nbin
  | true, .imag => setAbufferImagpartOffset type a.form a.nbin

/-- An access with the value to store. A load returns its result. -/
def Access.step (type : SampleType) (a : Access nbins) (value : α) (obj : Abuffer α) :
    Abuffer α × Option α :=
  match a.storeP, a.part with
  | false, .real => (obj, some (abufferRealpart type a.form obj a.nbin))
  | true, .real => (setAbufferRealpart type a.form obj a.nbin value, none)
  | false, .imag => (obj, some (abufferImagpart type a.form obj a.nbin))
  | true, .imag => (setAbufferImagpart type a.form obj a.nbin value, none)

def results (type : SampleType) (values : ℕ → α) :
    ℕ → List (Access nbins) → Abuffer α → List (Option α)
  | _, [], _ => []
  | i, a :: accesses, obj =>
    let (obj, result) := a.step type (values i) obj
    result :: results type values (i + 1) accesses obj

abbrev Bins (α : Type*) := ℕ × Part → α

/-- A store changes a part of a bin and a load returns the last value of it. -/
def Access.stepBins (a : Access nbins) (value : α) (bins : Bins α) : Bins α × Option α :=
  if a.storeP then (update bins (a.nbin, a.part) value, none)
  else (bins, some (bins (a.nbin, a.part)))

def binResults (values : ℕ → α) : ℕ → List (Access nbins) → Bins α → List (Option α)
  | _, [], _ => []
  | i, a :: accesses, bins =>
    let (bins, result) := a.stepBins (values i) bins
    result :: binResults values (i + 1) accesses bins

def partOffset (type : SampleType) : ℕ × Part → ℕ
  | (nbin, .real) => nbin * foreignComplexSize type
  | (nbin, .imag) => nbin * foreignComplexSize type + foreignSampleSize type

/-- For any contents of the abuffer and any values to store, the loads return the last values of the
parts, and the accesses are inside the data of the bins. -/
def Coherent (type : SampleType) (α : Type*) (accesses : List (Access nbins)) : Prop :=
  (∀ (obj : Abuffer α) (values : ℕ → α), obj.nbins = nbins →
    results type values 0 accesses obj =
      binResults values 0 accesses fun key => obj.data (partOffset type key)) ∧
  ∀ a ∈ accesses, a.offset type + foreignSampleSize type ≤ nbins * foreignComplexSize type

/-- The imaginary part is not loaded through the constant form. -/
def Access.Meets (a : Access nbins) : Prop :=
  ¬ (a.storeP = false ∧ a.part = .imag ∧ a.form = .constantIndex)

instance (a : Access nbins) : Decidable a.Meets := inferInstanceAs (Decidable (¬ _))

section Offsets

variable {type : SampleType} {a : Access nbins} {value : α} {obj : Abuffer α}

theorem foreignSampleSize_pos (type : SampleType) : 0 < foreignSampleSize type := by
  cases type with
  | singleFloat => decide
  | doubleFloat => decide

theorem partOffset_injective (type : SampleType) : Injective (partOffset type) := by
  have hpos := foreignSampleSize_pos type
  have hdouble (n : ℕ) : n * foreignComplexSize type = foreignSampleSize type * (2 * n) := by
    rw [foreignComplexSize]
    ring
  have hnext (n : ℕ) : n * foreignComplexSize type + foreignSampleSize type =
      foreignSampleSize type * (2 * n + 1) := by
    rw [hdouble]
    ring
  rintro ⟨n, part⟩ ⟨m, part'⟩ heq
  cases part with
  | real =>
    cases part' with
    | real =>
      rw [partOffset, partOffset, hdouble, hdouble] at heq
      have hmul := Nat.eq_of_mul_eq_mul_left hpos heq
      rw [show n = m by omega]
    | imag =>
      rw [partOffset, partOffset, hdouble, hnext] at heq
      have hmul := Nat.eq_of_mul_eq_mul_left hpos heq
      omega
  | imag =>
    cases part' with
    | real =>
      rw [partOffset, partOffset, hnext, hdouble] at heq
      have hmul := Nat.eq_of_mul_eq_mul_left hpos heq
      omega
    | imag =>
      rw [partOffset, partOffset, hnext, hnext] at heq
      have hmul := Nat.eq_of_mul_eq_mul_left hpos heq
      rw [show n = m by omega]

theorem Access.offset_eq (h : a.Meets) : a.offset type = partOffset type (a.nbin, a.part) := by
  obtain ⟨storeP, part, form, nbin⟩ := a
  cases storeP with
  | true => cases part <;> cases form <;> rfl
  | false =>
    cases part with
    | real => cases form <;> rfl
    | imag =>
      cases form with
      | constantIndex => exact absurd ⟨rfl, rfl, rfl⟩ h
      | function | variableIndex => rfl

theorem Access.offset_next (h : ¬ a.Meets) : a.offset type = partOffset type (a.nbin + 1, .real) := by
  obtain ⟨storeP, part, form, nbin⟩ := a
  obtain ⟨rfl, rfl, rfl⟩ := not_not.mp h
  show _ = (_ + 1) * _
  rw [Nat.succ_mul]
  rfl

theorem Access.step_eq : a.step type value obj =
    if a.storeP then ({ obj with data := update obj.data (a.offset type) value }, none)
    else (obj, some (obj.data (a.offset type))) := by
  obtain ⟨storeP, part, form, nbin⟩ := a
  cases storeP <;> cases part <;> rfl

theorem Access.offset_le (h : a.Meets) :
    a.offset type + foreignSampleSize type ≤ nbins * foreignComplexSize type := by
  have hlt : (a.nbin + 1) * foreignComplexSize type ≤ nbins * foreignComplexSize type :=
    Nat.mul_le_mul_right _ a.nbin.isLt
  have hsize : foreignComplexSize type = 2 * foreignSampleSize type := rfl
  rw [Nat.succ_mul] at hlt
  rw [offset_eq h]
  cases a.part with
  | real =>
    rw [partOffset]
    omega
  | imag =>
    rw [partOffset]
    omega

end Offsets

section Runs

variable {type : SampleType} {values : ℕ → α} {accesses : List (Access nbins)} {obj : Abuffer α}

theorem Access.step_stepBins {a : Access nbins} (h : a.Meets) (value : α) {bins : Bins α}
    (hbins : bins = fun key => obj.data (partOffset type key)) :
    (a.stepBins value bins).1 = (fun key => (a.step type value obj).1.data (partOffset type key)) ∧
      (a.step type value obj).2 = (a.stepBins value bins).2 := by
  rw [Access.step_eq, Access.stepBins, offset_eq h]
  cases a.storeP with
  | true =>
    refine ⟨?_, rfl⟩
    funext key
    simp only [if_true]
    by_cases hkey : key = ((a.nbin : ℕ), a.part)
    · rw [hkey, update_self, update_self]
    · have hne : partOffset type key ≠ partOffset type ((a.nbin : ℕ), a.part) :=
        (partOffset_injective type).ne hkey
      rw [update_of_ne hkey, update_of_ne hne, hbins]
  | false =>
    simp only [Bool.false_eq_true, if_false, hbins]
    exact ⟨trivial, trivial⟩

theorem results_eq (h : ∀ a ∈ accesses, a.Meets) (i : ℕ) {bins : Bins α}
    (hbins : bins = fun key => obj.data (partOffset type key)) :
    results type values i accesses obj = binResults values i accesses bins := by
  induction accesses generalizing i obj bins with
  | nil => rfl
  | cons a accesses ih =>
    obtain ⟨hnext, hresult⟩ := Access.step_stepBins (h a List.mem_cons_self) (values i) hbins
    rw [results, binResults]
    simp only [hresult]
    rw [ih (fun b hb => h b (List.mem_cons_of_mem a hb)) (i + 1) hnext]

def partData (type : SampleType) (x y : α) (offset : ℕ) : α :=
  if offset % foreignComplexSize type = 0 then x else y

theorem partData_partOffset (x y : α) (n : ℕ) (part : Part) :
    partData type x y (partOffset type (n, part)) = if part = .real then x else y := by
  have hpos := foreignSampleSize_pos type
  have hlt : foreignSampleSize type < foreignComplexSize type := by
    rw [foreignComplexSize]
    omega
  cases part with
  | real => rw [partData, partOffset, Nat.mul_mod_left]; rfl
  | imag =>
    rw [partData, partOffset, Nat.mul_add_mod', Nat.mod_eq_of_lt hlt, if_neg (by omega)]
    rfl

theorem meets_of_results {x y : α} (hne : x ≠ y) (i : ℕ)
    (hvalues : ∀ k (hk : k < accesses.length), values (i + k) =
      if accesses[k].part = .real then x else y)
    (hdata : obj.data = partData type x y)
    (h : results type values i accesses obj =
      binResults values i accesses fun key => obj.data (partOffset type key)) :
    ∀ a ∈ accesses, a.Meets := by
  induction accesses generalizing i obj with
  | nil => exact fun a ha => absurd ha List.not_mem_nil
  | cons a accesses ih =>
    have hvalue : values i = if a.part = .real then x else y := hvalues 0 (Nat.succ_pos _)
    rw [results, binResults] at h
    obtain ⟨hhead, htail⟩ := List.cons.inj h
    have hresult : (a.step type (values i) obj).2 =
      (a.stepBins (values i) fun key => obj.data (partOffset type key)).2 := hhead
    have hmeets : a.Meets := by
      by_contra hbad
      have hoffset := @Access.offset_next _ type _ hbad
      obtain ⟨hload, himag, -⟩ := not_not.mp hbad
      rw [Access.step_eq, Access.stepBins, hload, himag, hoffset, hdata] at hresult
      simp only [Bool.false_eq_true, if_false, partData_partOffset, Option.some.injEq] at hresult
      exact hne hresult
    obtain ⟨hnext, -⟩ := Access.step_stepBins hmeets (values i)
      (rfl : (fun key => obj.data (partOffset type key)) = _)
    have hsame : (a.step type (values i) obj).1.data = partData type x y := by
      rw [Access.step_eq, Access.offset_eq hmeets]
      cases a.storeP with
      | false => exact hdata
      | true =>
        simp only [if_true]
        rw [hdata, update_eq_self_iff, partData_partOffset, hvalue]
    have hrest := ih (i + 1) (fun k hk => by
      have hk' := hvalues (k + 1) (Nat.succ_lt_succ hk)
      rwa [← Nat.add_assoc, Nat.add_right_comm] at hk') hsame
      (hnext ▸ htail)
    intro b hb
    rcases List.mem_cons.mp hb with rfl | hb
    · exact hmeets
    · exact hrest b hb

end Runs

/-- The accesses are coherent exactly if no imaginary part is loaded through the constant form. -/
theorem coherent_iff [Nontrivial α] (type : SampleType) (accesses : List (Access nbins)) :
    Coherent type α accesses ↔ ∀ a ∈ accesses, a.Meets := by
  constructor
  · rintro ⟨hresults, -⟩
    obtain ⟨x, y, hne⟩ := exists_pair_ne α
    let values (k : ℕ) : α :=
      match accesses[k]? with
      | some a => if a.part = .real then x else y
      | none => x
    have hvalues : ∀ k (hk : k < accesses.length), values (0 + k) =
        if accesses[k].part = .real then x else y := by
      intro k hk
      simp only [values, Nat.zero_add, List.getElem?_eq_getElem hk]
    exact meets_of_results hne 0 hvalues rfl
      (hresults ⟨partData type x y, nbins⟩ values rfl)
  · intro h
    exact ⟨fun obj values _ => results_eq h 0 rfl, fun a ha => Access.offset_le (h a ha)⟩

/-- A store and a load of the imaginary part of the first bin through two forms. -/
def storeAndLoad (form : Form) : List (Access 2) :=
  [⟨true, .imag, .function, 0⟩, ⟨false, .imag, form, 0⟩]

theorem coherent_iff_variable : Coherent .doubleFloat ℤ (storeAndLoad .variableIndex) :=
  (coherent_iff .doubleFloat (storeAndLoad .variableIndex)).mpr (by decide)

theorem not_coherent : ¬ Coherent .doubleFloat ℤ (storeAndLoad .constantIndex) := by
  rintro ⟨hresults, -⟩
  have hloads := hresults ⟨fun _ => 0, 2⟩ (fun _ => 1) rfl
  simp [results, binResults, storeAndLoad, Access.step, Access.stepBins, abufferImagpart,
    setAbufferImagpart, memRef, setMemRef, abufferImagpartOffset, setAbufferImagpartOffset,
    foreignSampleSize, foreignComplexSize] at hloads

end Incudine.AnalysisBins
