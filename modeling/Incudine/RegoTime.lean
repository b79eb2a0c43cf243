import Mathlib.Algebra.Order.Ring.Unbundled.Rat

/-!
# Local time of a score

The foreign slots of a score hold the time of the next event in samples, the time offset in samples
and TIME in beats.
-/

namespace Incudine.RegoTime

structure Slots where
  smptime : ℚ
  smptime0 : ℚ
  timeBeats : ℚ

/-- The assignment of TIME, where `beatsToSeconds` is the conversion of the tempo envelope. -/
def setRegoTime (sampleRate : ℚ) (beatsToSeconds : ℚ → ℚ) (slots : Slots) (value : ℚ) : Slots :=
  { slots with
    smptime := slots.smptime0 + sampleRate * beatsToSeconds (max 0 value)
    timeBeats := max 0 value }

section Holds

variable {sampleRate time : ℚ} {beatsToSeconds : ℚ → ℚ} {slots : Slots}

structure Slots.Holds (sampleRate : ℚ) (beatsToSeconds : ℚ → ℚ) (slots : Slots) (time : ℚ) :
    Prop where
  timeBeats : slots.timeBeats = time
  smptime : slots.smptime = slots.smptime0 + sampleRate * beatsToSeconds time
  nonneg : 0 ≤ time

theorem holds_setRegoTime (slots : Slots) (value : ℚ) :
    (setRegoTime sampleRate beatsToSeconds slots value).Holds sampleRate beatsToSeconds
      (max 0 value) :=
  ⟨rfl, rfl, le_max_left 0 value⟩

theorem Slots.Holds.restore (h : slots.Holds sampleRate beatsToSeconds time) (value : ℚ) :
    setRegoTime sampleRate beatsToSeconds
      (setRegoTime sampleRate beatsToSeconds slots value) slots.timeBeats = slots := by
  have hmax : max 0 slots.timeBeats = slots.timeBeats :=
    max_eq_right (h.timeBeats ▸ h.nonneg)
  simp only [setRegoTime, hmax]
  rw [h.timeBeats, ← h.smptime, ← h.timeBeats]

end Holds

end Incudine.RegoTime
