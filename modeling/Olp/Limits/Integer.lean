import Olp.Text

/-!
# Whole numbers in script arguments and stored state

The cost scripts of `internal/limits/scripts` refuse a number they could not hold exactly, with a
shortcut for short texts.  They read the number that a text spells (`parseSafeUnsignedInteger_eq`).
-/

namespace Olp.Limits

open Text

/-- `MAX_SAFE_INTEGER`, the largest integer a Lua number counts to exactly. -/
def maxSafeInteger : Nat := 9007199254740991

/-- `MAX_SAFE_INTEGER_TEXT`. -/
def maxSafeIntegerText : Text := "9007199254740991".toList

/-- The digits of a number without leading zeros, with `0` for none. -/
def normalizeDigits (raw : Text) : Text :=
  if trimLeading raw = [] then ['0'] else trimLeading raw

/-- A normalised digit string past `MAX_SAFE_INTEGER_TEXT`, by length and then
byte by byte. -/
def overMax (normalized : Text) : Prop :=
  maxSafeIntegerText.length < normalized.length ∨
    normalized.length = maxSafeIntegerText.length ∧ maxSafeIntegerText < normalized

instance (t : Text) : Decidable (overMax t) := inferInstanceAs (Decidable (_ ∨ _))

/-- `parse_safe_unsigned_integer` of the cost scripts. -/
def parseSafeUnsignedInteger : Option Text → Option Nat
  | none => none
  | some raw =>
    if raw = [] ∨ ¬ IsDigits raw then none
    -- fifteen digits or fewer always fit exactly
    else if raw.length < 16 then some (value raw)
    else if overMax (normalizeDigits raw) then none
    else some (value (normalizeDigits raw))

/-- The number a text spells, when it is a whole number within the exact range. -/
def safeInteger (raw : Text) : Option Nat :=
  if raw ≠ [] ∧ IsDigits raw ∧ value raw ≤ maxSafeInteger then some (value raw) else none

/-! ## The check reads the number -/

theorem value_maxSafeIntegerText : value maxSafeIntegerText = maxSafeInteger := by decide

variable (raw : Text)

@[simp] theorem value_normalizeDigits : value (normalizeDigits raw) = value raw := by
  unfold normalizeDigits
  split
  · rename_i h
    rw [← value_trimLeading raw, h]
    rfl
  · exact value_trimLeading raw

theorem isDigits_normalizeDigits {raw : Text} (h : IsDigits raw) :
    IsDigits (normalizeDigits raw) := by
  unfold normalizeDigits
  split
  · decide
  · exact h.trimLeading

/-- The textual comparison with the largest safe integer is the comparison of the
numbers. -/
theorem overMax_normalizeDigits {raw : Text} (h : IsDigits raw) :
    overMax (normalizeDigits raw) ↔ maxSafeInteger < value raw := by
  have hmax : IsDigits maxSafeIntegerText := by decide
  have hmaxz : NoLeadingZero maxSafeIntegerText := by decide
  have hd := isDigits_normalizeDigits h
  rw [← value_maxSafeIntegerText, ← value_normalizeDigits raw]
  by_cases hz : trimLeading raw = []
  · have hn : normalizeDigits raw = ['0'] := by simp [normalizeDigits, hz]
    rw [hn]
    decide
  · have hn : normalizeDigits raw = trimLeading raw := by simp [normalizeDigits, hz]
    have hnz : NoLeadingZero (normalizeDigits raw) := hn ▸ noLeadingZero_trimLeading raw
    rcases Nat.lt_trichotomy (normalizeDigits raw).length maxSafeIntegerText.length with
      hlt | heq | hgt
    · have := value_lt_of_length_lt hd hmax hmaxz hlt
      exact iff_of_false (by rintro (h | h) <;> omega) (by omega)
    · rw [overMax, lt_iff_value_lt hmax hd heq.symm]
      simp [heq]
    · exact iff_of_true (.inl hgt) (value_lt_of_length_lt hmax hd hnz hgt)

/-- The check of the cost scripts reads the number a text spells: what is short enough for
the shortcut is within the exact range. -/
theorem parseSafeUnsignedInteger_eq : parseSafeUnsignedInteger (some raw) = safeInteger raw := by
  by_cases hd : IsDigits raw
  · by_cases hlen : raw.length < 16
    · have hlt : value raw < 10 ^ 15 :=
        (value_lt hd).trans_le (Nat.pow_le_pow_right (by decide) (by omega))
      have hle : value raw ≤ maxSafeInteger := by
        rw [maxSafeInteger]
        omega
      simp [parseSafeUnsignedInteger, safeInteger, hd, hlen, hle]
    · simp only [parseSafeUnsignedInteger, safeInteger, hd, hlen, overMax_normalizeDigits hd,
        value_normalizeDigits]
      grind
  · simp [parseSafeUnsignedInteger, safeInteger, hd]

/-! ## Numbers the scripts write themselves -/

variable {n : Nat}

@[simp] theorem safeInteger_ofNat (h : n ≤ maxSafeInteger) : safeInteger (ofNat n) = some n := by
  simp [safeInteger, isDigits_ofNat, h]

theorem safeInteger_le {raw : Text} (h : safeInteger raw = some n) : n ≤ maxSafeInteger := by
  unfold safeInteger at h
  split at h
  · rename_i hc
    obtain rfl : value raw = n := by simpa using h
    exact hc.2.2
  · simp at h

theorem parseSafeUnsignedInteger_le {raw : Option Text}
    (h : parseSafeUnsignedInteger raw = some n) : n ≤ maxSafeInteger := by
  cases raw with
  | none => simp [parseSafeUnsignedInteger] at h
  | some raw => exact safeInteger_le (parseSafeUnsignedInteger_eq raw ▸ h)

end Olp.Limits
