import Olp.Limits.Integer

/-!
# Decimals as text

`reconcile_cost.lua` keeps balances as decimal text of any precision and compares
them digit by digit.  This module transcribes `normalize_decimal`, `decimal_parts`
and `compare_decimal` and relates them to the exact numbers the texts spell:

* `decimal?_of_normalizeDecimal`: normalising a text does not change its number;
* `normalizeDecimal_idem`: a normal text is its own normal text;
* `compareDecimal_eq`: the comparison of texts is the comparison of numbers.
-/

namespace Olp.Limits

open Text List

/-! ## Plain decimals -/

/-- The two sides of a plain decimal; a text that ends in its point is none. -/
def plainDecimal (raw : Text) : Option (Text × Text) :=
  match splitDecimal raw with
  | none => none
  | some (whole, point, fraction) =>
    if point = true ∧ fraction = [] then none else some (whole, fraction)

def decimal? (raw : Text) : Option ℚ := (plainDecimal raw).map fun p => rat p.1 p.2

/-- Two sides written as one text, without a point when there is no fraction. -/
def join (whole fraction : Text) : Text :=
  if fraction = [] then whole else whole ++ '.' :: fraction

variable {raw whole fraction : Text}

theorem plainDecimal_eq_some (h : plainDecimal raw = some (whole, fraction)) :
    IsDigits whole ∧ whole ≠ [] ∧ IsDigits fraction ∧ raw = join whole fraction := by
  unfold plainDecimal at h
  split at h
  · simp at h
  · rename_i w point f hs
    obtain ⟨hw, hne, hf, hraw⟩ := splitDecimal_eq_some hs
    split at h
    · simp at h
    · rename_i hpoint
      obtain ⟨rfl, rfl⟩ : w = whole ∧ f = fraction := by simpa using h
      refine ⟨hw, hne, hf, ?_⟩
      rcases hraw with ⟨-, rfl, rfl⟩ | ⟨rfl, rfl⟩
      · simp [join]
      · have : f ≠ [] := fun e => hpoint ⟨rfl, e⟩
        simp [join, this]

theorem plainDecimal_join (hw : IsDigits whole) (hne : whole ≠ []) (hf : IsDigits fraction) :
    plainDecimal (join whole fraction) = some (whole, fraction) := by
  unfold join
  split
  · rename_i h
    simp [plainDecimal, splitDecimal_digits hw hne, h]
  · rename_i h
    simp [plainDecimal, splitDecimal_point hw hne hf, h]

variable {t : Text}

theorem plainDecimal_cut (hne : t.takeWhile (· ≠ '.') ≠ [])
    (hint : IsDigits (t.takeWhile (· ≠ '.'))) (hfrac : IsDigits ((t.dropWhile (· ≠ '.')).drop 1))
    (hpoint : '.' ∈ t → (t.dropWhile (· ≠ '.')).drop 1 ≠ []) :
    plainDecimal t = some (t.takeWhile (· ≠ '.'), (t.dropWhile (· ≠ '.')).drop 1) := by
  have hsplit : t.takeWhile (· ≠ '.') ++ t.dropWhile (· ≠ '.') = t :=
    takeWhile_append_dropWhile
  generalize hw : t.takeWhile (· ≠ '.') = whole at *
  cases hd : t.dropWhile (· ≠ '.') with
  | nil =>
    rw [hd, append_nil] at hsplit
    subst hsplit
    simp [plainDecimal, splitDecimal_digits hint hne]
  | cons c fraction =>
    have hc : c = '.' := by
      have := head?_dropWhile_not (fun c : Char => decide (c ≠ '.')) t
      rw [hd] at this
      simpa using this
    subst hc
    rw [hd] at hsplit hfrac hpoint
    simp only [drop_succ_cons, drop_zero] at hfrac hpoint ⊢
    have hf : fraction ≠ [] := hpoint (by simp [← hsplit])
    conv_lhs => rw [← hsplit]
    simp [plainDecimal, splitDecimal_point hint hne hfrac, hf]

theorem cut_join (hw : IsDigits whole) :
    (join whole fraction).takeWhile (· ≠ '.') = whole ∧
      ((join whole fraction).dropWhile (· ≠ '.')).drop 1 = fraction := by
  have hall : ∀ c ∈ whole, decide (c ≠ '.') = true := by
    intro c hc
    have := hw c hc
    simp only [decide_eq_true_eq]
    rintro rfl
    simp [Char.isDigit] at this
  unfold join
  split
  · rename_i hnil
    rw [takeWhile_eq_self_iff.2 hall, dropWhile_eq_nil_iff.2 hall, hnil]
    exact ⟨rfl, rfl⟩
  · rw [takeWhile_append_of_pos hall, dropWhile_append_of_pos hall]
    simp

theorem decimal?_digits (hd : IsDigits t) (hne : t ≠ []) : decimal? t = some (value t : ℚ) := by
  simp [decimal?, plainDecimal, splitDecimal_digits hd hne, rat]

theorem rat_trimTrailing (whole fraction : Text) :
    rat whole (trimTrailing fraction) = rat whole fraction := by
  have hle := length_trimTrailing_le fraction
  have hpow : (10 : ℚ) ^ fraction.length
      = 10 ^ (trimTrailing fraction).length
        * 10 ^ (fraction.length - (trimTrailing fraction).length) := by
    rw [← pow_add, Nat.add_sub_cancel' hle]
  rw [rat, rat, value_trimTrailing fraction, hpow]
  push_cast
  field_simp

/-! ## The script's functions -/

/-- `normalize_decimal`. -/
def normalizeDecimal : Option Text → Option Text
  | none => none
  | some raw =>
    if raw.length = 0 ∨ 96 < raw.length then none
    else
      match splitDecimal raw with
      | none => none
      | some (whole, _, fraction) =>
        if raw.getLast? = some '.' then none
        else some (join (normalizeDigits whole) (trimTrailing fraction))

/-- `decimal_parts`. -/
def decimalParts (raw : Option Text) : Option (Text × Text) :=
  (normalizeDecimal raw).bind fun normalized =>
    (splitDecimal normalized).map fun p => (p.1, p.2.2)

/-- A fraction filled with zeros to a number of digits. -/
def fill (digits : Nat) (fraction : Text) : Text :=
  fraction ++ List.replicate (digits - fraction.length) '0'

/-- `compare_decimal`. -/
def compareDecimal (left right : Option Text) : Option Int :=
  match decimalParts left, decimalParts right with
  | some (leftInteger, leftFraction), some (rightInteger, rightFraction) =>
    if leftInteger.length ≠ rightInteger.length then
      some (if leftInteger.length < rightInteger.length then -1 else 1)
    else if leftInteger ≠ rightInteger then
      some (if leftInteger < rightInteger then -1 else 1)
    else
      let digits := max leftFraction.length rightFraction.length
      if fill digits leftFraction = fill digits rightFraction then some 0
      else some (if fill digits leftFraction < fill digits rightFraction then -1 else 1)
  | _, _ => none

/-! ## Normal texts -/

theorem normalizeDigits_eq (h : IsDigits t) : normalizeDigits t = ofNat (value t) := by
  unfold normalizeDigits
  rw [trimLeading_eq h]
  by_cases hz : value t = 0
  · simp [hz]
  · simp [hz]

/-- `normalize_decimal` as a function of the two sides of a plain decimal. -/
theorem normalizeDecimal_eq (raw : Text) :
    normalizeDecimal (some raw) =
      if raw.length ≤ 96 then
        (plainDecimal raw).map fun p => join (ofNat (value p.1)) (trimTrailing p.2)
      else none := by
  by_cases hlen : raw.length ≤ 96
  · cases hs : splitDecimal raw with
    | none => simp [normalizeDecimal, plainDecimal, hs]
    | some p =>
      obtain ⟨whole, point, fraction⟩ := p
      obtain ⟨hw, hne, hf, hraw⟩ := splitDecimal_eq_some hs
      have hpos : raw.length ≠ 0 := by
        rcases hraw with ⟨-, -, rfl⟩ | ⟨-, rfl⟩ <;> simp [hne]
      -- the text ends in its point exactly when a point has no fraction
      have hlast : raw.getLast? = some '.' ↔ point = true ∧ fraction = [] := by
        rcases hraw with ⟨rfl, rfl, rfl⟩ | ⟨rfl, rfl⟩
        · simp only [Bool.false_eq_true, false_and, iff_false]
          intro h
          have := hw '.' (mem_of_getLast? h)
          simp at this
        · simp only [true_and]
          constructor
          · intro h
            by_contra hne'
            rw [getLast?_append_cons, getLast?_cons_of_ne_nil hne'] at h
            have := hf '.' (mem_of_getLast? h)
            simp at this
          · rintro rfl
            simp
      simp only [normalizeDecimal, plainDecimal, hs, hpos, Nat.not_lt.2 hlen, hlen, hlast,
        normalizeDigits_eq hw, or_self, if_false, if_true]
      split <;> rfl
  · simp [normalizeDecimal, hlen, Nat.lt_of_not_le hlen]

theorem length_ofNat_value_le (h : IsDigits t) (hne : t ≠ []) :
    (ofNat (value t)).length ≤ t.length :=
  length_ofNat_le (length_pos_iff.2 hne) (value_lt h)

theorem trimTrailing_idem (t : Text) : trimTrailing (trimTrailing t) = trimTrailing t :=
  rdropWhile_idempotent _ _

/-- What `normalize_decimal` answers: the normal text of the same number, which is
no longer than what it was given. -/
theorem normalizeDecimal_eq_some (h : normalizeDecimal (some raw) = some t) :
    ∃ whole fraction, plainDecimal raw = some (whole, fraction) ∧ raw.length ≤ 96 ∧
      t = join (ofNat (value whole)) (trimTrailing fraction) ∧ t.length ≤ raw.length ∧
      plainDecimal t = some (ofNat (value whole), trimTrailing fraction) := by
  rw [normalizeDecimal_eq] at h
  split at h
  · rename_i hlen
    obtain ⟨⟨whole, fraction⟩, hp, rfl⟩ := Option.map_eq_some_iff.1 h
    obtain ⟨hw, hne, hf, rfl⟩ := plainDecimal_eq_some hp
    refine ⟨whole, fraction, hp, hlen, rfl, ?_,
      plainDecimal_join (isDigits_ofNat _) (ofNat_ne_nil _) hf.trimTrailing⟩
    have h₁ := length_ofNat_value_le hw hne
    have h₂ := length_trimTrailing_le fraction
    unfold join
    split
    · split <;> simp <;> omega
    · rename_i hne'
      have hfr : fraction ≠ [] := fun e => hne' (by simp [e, trimTrailing])
      simp [hfr]
      omega
  · simp at h

theorem decimal?_of_normalizeDecimal (h : normalizeDecimal (some raw) = some t) :
    decimal? t = decimal? raw := by
  obtain ⟨whole, fraction, hp, -, -, -, ht⟩ := normalizeDecimal_eq_some h
  rw [decimal?, decimal?, hp, ht, Option.map_some, Option.map_some, rat_trimTrailing]
  simp [rat]

theorem normalizeDecimal_idem (h : normalizeDecimal (some raw) = some t) :
    normalizeDecimal (some t) = some t := by
  obtain ⟨whole, fraction, -, hlen, ht, hle, hp⟩ := normalizeDecimal_eq_some h
  rw [normalizeDecimal_eq, if_pos (hle.trans hlen), hp, Option.map_some, value_ofNat,
    trimTrailing_idem, ht]

/-! ## Comparison -/

variable {f : Text} {digits : Nat}

theorem length_fill (h : f.length ≤ digits) : (fill digits f).length = digits := by
  simp [fill]
  omega

theorem isDigits_fill (h : IsDigits f) (digits : Nat) : IsDigits (fill digits f) :=
  isDigits_append.2 ⟨h, isDigits_replicate _⟩

theorem value_fill (digits : Nat) (f : Text) :
    value (fill digits f) = value f * 10 ^ (digits - f.length) := by
  simp [fill, value_append]

theorem rat_fill (h : f.length ≤ digits) :
    rat whole f * 10 ^ digits
      = ((value whole * 10 ^ digits + value (fill digits f) : Nat) : ℚ) := by
  have hpow : (10 : ℚ) ^ digits = 10 ^ f.length * 10 ^ (digits - f.length) := by
    rw [← pow_add, Nat.add_sub_cancel' h]
  rw [value_fill, rat, Nat.cast_add, Nat.cast_mul, Nat.cast_mul, Nat.cast_pow, Nat.cast_pow,
    Nat.cast_ofNat, add_mul]
  congr 1
  rw [hpow]
  field_simp

/-- Two numbers compare as their digits do, once their fractions are filled to one
length. -/
theorem rat_lt_iff {w w' f' : Text} (h : f.length ≤ digits) (h' : f'.length ≤ digits) :
    rat w f < rat w' f' ↔ value w * 10 ^ digits + value (fill digits f)
      < value w' * 10 ^ digits + value (fill digits f') := by
  have hpos : (0 : ℚ) < 10 ^ digits := by positivity
  rw [← mul_lt_mul_iff_left₀ hpos, rat_fill h, rat_fill h', Nat.cast_lt]

theorem decimalParts_eq (hlen : raw.length ≤ 96) (h : plainDecimal raw = some (whole, fraction)) :
    decimalParts (some raw) = some (ofNat (value whole), trimTrailing fraction) := by
  obtain ⟨-, -, hf, -⟩ := plainDecimal_eq_some h
  rw [decimalParts, normalizeDecimal_eq, if_pos hlen, h, Option.map_some, Option.bind_some]
  unfold join
  split
  · rename_i hnil
    simp [splitDecimal_digits (isDigits_ofNat _) (ofNat_ne_nil _), hnil]
  · simp [splitDecimal_point (isDigits_ofNat _) (ofNat_ne_nil _) hf.trimTrailing]

theorem ofNat_lt_of_length_lt {m n : Nat} (h : (ofNat m).length < (ofNat n).length) : m < n := by
  have hn : n ≠ 0 := by
    rintro rfl
    have := length_pos_iff.2 (ofNat_ne_nil m)
    simp only [ofNat_zero, length_singleton] at h
    omega
  simpa using value_lt_of_length_lt (isDigits_ofNat m) (isDigits_ofNat n) (noLeadingZero_ofNat hn) h

/-- The comparison of two texts is that of the numbers they spell. -/
theorem compareDecimal_eq {left right : Text} {a b : ℚ} (hl : left.length ≤ 96)
    (hr : right.length ≤ 96) (ha : decimal? left = some a) (hb : decimal? right = some b) :
    compareDecimal (some left) (some right)
      = some (if a < b then -1 else if b < a then 1 else 0) := by
  obtain ⟨⟨w, f⟩, hp, rfl⟩ := Option.map_eq_some_iff.1 ha
  obtain ⟨⟨w', f'⟩, hp', rfl⟩ := Option.map_eq_some_iff.1 hb
  have hf := (plainDecimal_eq_some hp).2.2.1.trimTrailing
  have hf' := (plainDecimal_eq_some hp').2.2.1.trimTrailing
  simp only [compareDecimal, decimalParts_eq hl hp, decimalParts_eq hr hp']
  rw [← rat_trimTrailing w f, ← rat_trimTrailing w' f']
  generalize trimTrailing f = f at *
  generalize trimTrailing f' = f' at *
  set digits := max f.length f'.length
  have h₁ : f.length ≤ digits := le_max_left _ _
  have h₂ : f'.length ≤ digits := le_max_right _ _
  have hv : value (fill digits f) < 10 ^ digits := by
    simpa [length_fill h₁] using value_lt (isDigits_fill hf digits)
  have hv' : value (fill digits f') < 10 ^ digits := by
    simpa [length_fill h₂] using value_lt (isDigits_fill hf' digits)
  -- a smaller whole side decides, whatever the fractions are
  have hwhole : ∀ {m n x y : Nat}, m < n → x < 10 ^ digits →
      m * 10 ^ digits + x < n * 10 ^ digits + y := fun {m n x y} hmn hx => by
    have : (m + 1) * 10 ^ digits ≤ n * 10 ^ digits := Nat.mul_le_mul_right _ hmn
    rw [Nat.add_mul, Nat.one_mul] at this
    omega
  have hless : value w < value w' → rat w f < rat w' f' ∧ ¬ rat w' f' < rat w f := fun h => by
    rw [rat_lt_iff h₁ h₂, rat_lt_iff h₂ h₁]
    have := hwhole (y := value (fill digits f')) h hv
    omega
  have hmore : value w' < value w → ¬ rat w f < rat w' f' ∧ rat w' f' < rat w f := fun h => by
    rw [rat_lt_iff h₁ h₂, rat_lt_iff h₂ h₁]
    have := hwhole (y := value (fill digits f)) h hv'
    omega
  split
  · rename_i hlen
    split
    · rename_i hlt
      simp [hless (ofNat_lt_of_length_lt hlt)]
    · rename_i hge
      simp [hmore (ofNat_lt_of_length_lt (by omega))]
  · rename_i hlen
    rw [not_ne_iff] at hlen
    split
    · rename_i hne
      have hlex := lt_iff_value_lt (isDigits_ofNat (value w)) (isDigits_ofNat (value w')) hlen
      rw [value_ofNat, value_ofNat] at hlex
      split
      · rename_i hlt
        simp [hless (hlex.1 hlt)]
      · rename_i hge
        have : value w ≠ value w' := fun e => hne (by rw [e])
        rw [hlex] at hge
        simp [hmore (by omega)]
    · rename_i heq
      have hw : value w = value w' := ofNat_injective (not_ne_iff.1 heq)
      have hlex := lt_iff_value_lt (isDigits_fill hf digits) (isDigits_fill hf' digits)
        (by rw [length_fill h₁, length_fill h₂])
      simp only [rat_lt_iff h₁ h₂, rat_lt_iff h₂ h₁, hw]
      split
      · rename_i hfill
        simp [hfill]
      · rename_i hfill
        have : value (fill digits f) ≠ value (fill digits f') := fun e => hfill
          (eq_of_value_eq (isDigits_fill hf digits) (isDigits_fill hf' digits)
            (by rw [length_fill h₁, length_fill h₂]) e)
        split
        · rename_i hlt
          rw [hlex] at hlt
          rw [if_pos (by omega)]
        · rename_i hge
          rw [hlex] at hge
          rw [if_neg (by omega), if_pos (by omega)]

end Olp.Limits
