import Mathlib.Data.List.DropRight
import Mathlib.Tactic.Ring
import Mathlib.Tactic.Linarith
import Mathlib.Tactic.FieldSimp
import Mathlib.Tactic.Positivity

/-!
# Byte strings and the numbers they spell

A value on the wire is a byte string, and every number a script reads or writes
travels as one.  This file collects the few facts about digit strings that make
the spelling and the number interchangeable:

* the value of a digit string, how it behaves under concatenation and under
  dropping leading and trailing zeros;
* the spelling of a natural number, which is the only spelling of it without a
  leading zero;
* the comparison of two spellings, by length and then byte by byte, which is the
  comparison of the two values;
* decimals `whole.fraction`, read as exact rationals.
-/

namespace Olp

open List

abbrev Text := List Char

namespace Text

def IsDigits (t : Text) : Prop := ∀ c ∈ t, c.isDigit = true

instance (t : Text) : Decidable (IsDigits t) := List.decidableBAll _ t

def value (t : Text) : Nat := Nat.ofDigitChars 10 t 0

def ofNat (n : Nat) : Text := Nat.toDigits 10 n

/-- `string.gsub(t, "^0+", "")`. -/
def trimLeading (t : Text) : Text := t.dropWhile (· == '0')

/-- `string.gsub(t, "0+$", "")`. -/
def trimTrailing (t : Text) : Text := t.rdropWhile (· == '0')

/-! ## Digit strings -/

@[simp] theorem isDigits_nil : IsDigits [] := by simp [IsDigits]

variable {c : Char} {t : Text}

@[simp] theorem isDigits_cons :
    IsDigits (c :: t) ↔ c.isDigit = true ∧ IsDigits t := by simp [IsDigits]

variable {s : Text}

@[simp] theorem isDigits_append : IsDigits (s ++ t) ↔ IsDigits s ∧ IsDigits t := by
  simp only [IsDigits, mem_append]
  exact ⟨fun h => ⟨fun c hc => h c (.inl hc), fun c hc => h c (.inr hc)⟩,
    fun h c hc => hc.elim (h.1 c) (h.2 c)⟩

variable (n : Nat)

theorem isDigits_replicate : IsDigits (List.replicate n '0') := by
  intro c hc
  rw [eq_of_mem_replicate hc]
  decide

theorem IsDigits.sublist (h : IsDigits t) (hs : s.Sublist t) : IsDigits s :=
  fun c hc => h c (hs.subset hc)

theorem IsDigits.trimLeading {t : Text} (h : IsDigits t) : IsDigits (trimLeading t) :=
  h.sublist (dropWhile_sublist _)

theorem IsDigits.trimTrailing {t : Text} (h : IsDigits t) : IsDigits (trimTrailing t) :=
  h.sublist <| IsPrefix.sublist <| rdropWhile_prefix _ _

theorem digit_toNat (h : c.isDigit = true) : 48 ≤ c.toNat ∧ c.toNat ≤ 57 := by
  simp only [Char.isDigit, Bool.and_eq_true, decide_eq_true_eq] at h
  exact ⟨UInt32.le_iff_toNat_le.1 h.1, UInt32.le_iff_toNat_le.1 h.2⟩

/-! ## The value of a digit string -/

@[simp] theorem value_nil : value [] = 0 := by simp [value]

theorem value_append (s t : Text) : value (s ++ t) = value s * 10 ^ t.length + value t := by
  rw [value, Nat.ofDigitChars_append, Nat.ofDigitChars_eq_ofDigitChars_zero, Nat.mul_comm]
  rfl

theorem value_cons (c : Char) (t : Text) :
    value (c :: t) = (c.toNat - 48) * 10 ^ t.length + value t := by
  have h := value_append [c] t
  simpa [value, Nat.ofDigitChars_cons] using h

@[simp] theorem value_replicate : value (List.replicate n '0') = 0 := by
  simp [value, Nat.ofDigitChars_replicate_zero]

theorem value_lt (h : IsDigits t) : value t < 10 ^ t.length := by
  induction t with
  | nil => simp
  | cons c t ih =>
    obtain ⟨hc, ht⟩ := isDigits_cons.1 h
    have hd := digit_toNat hc
    have := ih ht
    rw [value_cons, length_cons, Nat.pow_succ]
    have : (c.toNat - 48) * 10 ^ t.length ≤ 9 * 10 ^ t.length :=
      Nat.mul_le_mul_right _ (by omega)
    omega

theorem value_take (h : IsDigits t) (j : Nat) :
    value (t.take j) = value t / 10 ^ (t.length - j) := by
  have hsplit := value_append (t.take j) (t.drop j)
  have hlt := value_lt (h.sublist (drop_sublist j t))
  rw [take_append_drop, length_drop] at hsplit
  rw [length_drop] at hlt
  rw [hsplit, mul_comm, Nat.mul_add_div (Nat.pow_pos (by decide)), Nat.div_eq_of_lt hlt, add_zero]

@[simp] theorem value_trimLeading (t : Text) : value (trimLeading t) = value t := by
  induction t with
  | nil => rfl
  | cons c t ih =>
    by_cases hc : c = '0'
    · subst hc
      simpa [trimLeading, value_cons] using ih
    · rw [trimLeading, dropWhile_cons_of_neg (by simpa using hc)]

theorem length_trimTrailing_le (t : Text) : (trimTrailing t).length ≤ t.length :=
  IsPrefix.length_le <| rdropWhile_prefix _ _

theorem trimTrailing_append (t : Text) :
    trimTrailing t ++ List.replicate (t.length - (trimTrailing t).length) '0' = t := by
  induction t using List.reverseRecOn with
  | nil => rfl
  | append_singleton t c ih =>
    by_cases hc : c = '0'
    · subst hc
      have hle := length_trimTrailing_le t
      have hdrop : trimTrailing (t ++ ['0']) = trimTrailing t := by
        simp [trimTrailing]
      rw [hdrop, length_append, length_singleton,
        show t.length + 1 - (trimTrailing t).length = (t.length - (trimTrailing t).length) + 1
          by omega, replicate_succ', ← append_assoc, ih]
    · simp [trimTrailing, hc]

theorem value_trimTrailing (t : Text) :
    value t = value (trimTrailing t) * 10 ^ (t.length - (trimTrailing t).length) := by
  conv_lhs => rw [← trimTrailing_append t]
  simp [value_append]

/-! ## Comparing spellings of one length -/

theorem char_lt_iff {d : Char} : c < d ↔ c.toNat < d.toNat := by
  rfl

theorem char_eq_of_toNat {d : Char} (h : c.toNat = d.toNat) : c = d := by
  apply Char.ext
  exact UInt32.toNat_inj.1 h

/-- Of two digit strings of one length, the smaller in byte order spells the
smaller number. -/
theorem lt_iff_value_lt (hs : IsDigits s) (ht : IsDigits t) (h : s.length = t.length) :
    s < t ↔ value s < value t := by
  induction s generalizing t with
  | nil =>
    cases t with
    | nil => simp
    | cons d t => simp at h
  | cons c s ih =>
    cases t with
    | nil => simp at h
    | cons d t =>
      obtain ⟨hc, hs⟩ := isDigits_cons.1 hs
      obtain ⟨hd, ht⟩ := isDigits_cons.1 ht
      have hlen : s.length = t.length := by simpa using h
      have hsv := value_lt hs
      have htv := value_lt ht
      have hcr := digit_toNat hc
      have hdr := digit_toNat hd
      rw [cons_lt_cons_iff, value_cons, value_cons, hlen, ih hs ht hlen, char_lt_iff]
      rw [hlen] at hsv
      -- the leading digit decides unless both agree on it
      rcases Nat.lt_trichotomy c.toNat d.toNat with hlt | heq | hgt
      · refine iff_of_true (.inl hlt) ?_
        have : (c.toNat - 48 + 1) * 10 ^ t.length ≤ (d.toNat - 48) * 10 ^ t.length :=
          Nat.mul_le_mul_right _ (by omega)
        rw [Nat.add_mul] at this
        omega
      · have : c = d := char_eq_of_toNat heq
        subst this
        simp
      · have hne : ¬ c = d := fun e => by simp [e] at hgt
        refine iff_of_false (by simp only [hne, false_and, or_false]; omega) ?_
        have : (d.toNat - 48 + 1) * 10 ^ t.length ≤ (c.toNat - 48) * 10 ^ t.length :=
          Nat.mul_le_mul_right _ (by omega)
        rw [Nat.add_mul] at this
        omega

theorem eq_of_value_eq (hs : IsDigits s) (ht : IsDigits t) (h : s.length = t.length)
    (hv : value s = value t) : s = t := by
  induction s generalizing t with
  | nil => exact (length_eq_zero_iff.1 h.symm).symm
  | cons c s ih =>
    cases t with
    | nil => simp at h
    | cons d t =>
      obtain ⟨hc, hs'⟩ := isDigits_cons.1 hs
      obtain ⟨hd, ht'⟩ := isDigits_cons.1 ht
      have hlen : s.length = t.length := by simpa using h
      have hsv := hlen ▸ value_lt hs'
      have htv := value_lt ht'
      have hcr := digit_toNat hc
      have hdr := digit_toNat hd
      rw [value_cons, value_cons, hlen] at hv
      have hcd : c.toNat - 48 = d.toNat - 48 := by
        have := congrArg (· / 10 ^ t.length) hv
        simpa [Nat.mul_add_div, Nat.div_eq_of_lt, hsv, htv, Nat.mul_comm _ (10 ^ t.length)]
          using this
      obtain rfl : c = d := char_eq_of_toNat (by omega)
      rw [ih hs' ht' hlen (by omega)]

/-! ## Spellings without leading zeros -/

/-- No leading zero, except in `0` itself. -/
def NoLeadingZero (t : Text) : Prop := t.head? ≠ some '0'

instance (t : Text) : Decidable (NoLeadingZero t) := inferInstanceAs (Decidable (_ ≠ _))

theorem noLeadingZero_trimLeading (t : Text) : NoLeadingZero (trimLeading t) := by
  intro h
  have := head?_dropWhile_not (· == '0') t
  rw [trimLeading] at h
  rw [h] at this
  simp at this

/-- A non-empty digit string without a leading zero spells a number that needs
all its digits. -/
theorem pow_le_value (h : IsDigits t) (hz : NoLeadingZero t) (hne : t ≠ []) :
    10 ^ (t.length - 1) ≤ value t := by
  cases t with
  | nil => exact absurd rfl hne
  | cons c t =>
    have hc := digit_toNat (isDigits_cons.1 h).1
    have hc0 : c ≠ '0' := fun e => hz (by simp [e])
    have : c.toNat ≠ 48 := fun e => hc0 (char_eq_of_toNat e)
    rw [value_cons, length_cons, Nat.add_sub_cancel]
    have : 1 * 10 ^ t.length ≤ (c.toNat - 48) * 10 ^ t.length :=
      Nat.mul_le_mul_right _ (by omega)
    omega

theorem value_lt_of_length_lt (hs : IsDigits s) (ht : IsDigits t) (hz : NoLeadingZero t)
    (h : s.length < t.length) : value s < value t := by
  have hne : t ≠ [] := by
    rintro rfl
    simp at h
  calc value s < 10 ^ s.length := value_lt hs
    _ ≤ 10 ^ (t.length - 1) := Nat.pow_le_pow_right (by decide) (by omega)
    _ ≤ value t := pow_le_value ht hz hne

theorem eq_of_value_eq_of_noLeadingZero (hs : IsDigits s) (ht : IsDigits t) (hsz : NoLeadingZero s)
    (htz : NoLeadingZero t) (hv : value s = value t) : s = t := by
  rcases Nat.lt_trichotomy s.length t.length with hlt | heq | hgt
  · exact absurd (value_lt_of_length_lt hs ht htz hlt) (by omega)
  · exact eq_of_value_eq hs ht heq hv
  · exact absurd (value_lt_of_length_lt ht hs hsz hgt) (by omega)

/-! ## The spelling of a natural number -/

theorem isDigits_ofNat : IsDigits (ofNat n) :=
  fun _ hc => Nat.isDigit_of_mem_toDigits (by decide) (by decide) hc

@[simp] theorem value_ofNat : value (ofNat n) = n := Nat.ofDigitChars_ten_toDigits

@[simp] theorem ofNat_ne_nil : ofNat n ≠ [] := Nat.toDigits_ne_nil

@[simp] theorem ofNat_zero : ofNat 0 = ['0'] := rfl

theorem ofNat_injective : Function.Injective ofNat := fun m n h => by
  rw [← value_ofNat m, h, value_ofNat]

theorem length_ofNat_le {n k : Nat} (hk : 0 < k) (h : n < 10 ^ k) : (ofNat n).length ≤ k :=
  (Nat.length_toDigits_le_iff (by decide) hk).2 h

theorem noLeadingZero_ofNat {n : Nat} (hn : n ≠ 0) : NoLeadingZero (ofNat n) := by
  intro h
  cases ht : ofNat n with
  | nil => exact ofNat_ne_nil n ht
  | cons c t =>
    rw [ht] at h
    obtain rfl : c = '0' := by simpa using h
    have hv : value t = n := by rw [← value_ofNat n, ht, value_cons]; simp
    have hd : IsDigits t := by
      have := isDigits_ofNat n
      rw [ht] at this
      exact (isDigits_cons.1 this).2
    -- `t` alone already spells `n`, in fewer digits than `ofNat` uses
    have hlt : n < 10 ^ t.length := hv ▸ value_lt hd
    have hpos : 0 < t.length := by
      rcases t with _ | ⟨d, t⟩
      · simp at hv
        exact absurd hv.symm hn
      · simp
    have := length_ofNat_le hpos hlt
    rw [ht, length_cons] at this
    omega

/-- Dropping the leading zeros of a digit string leaves the spelling of its
value, and nothing at all when that is zero. -/
theorem trimLeading_eq (h : IsDigits t) :
    trimLeading t = if value t = 0 then [] else ofNat (value t) := by
  split
  · rename_i hv
    by_contra hne
    have := pow_le_value h.trimLeading (noLeadingZero_trimLeading t) hne
    rw [value_trimLeading, hv] at this
    have : 0 < 10 ^ ((trimLeading t).length - 1) := by positivity
    omega
  · rename_i hv
    refine eq_of_value_eq_of_noLeadingZero h.trimLeading (isDigits_ofNat _)
      (noLeadingZero_trimLeading t) (noLeadingZero_ofNat hv) ?_
    rw [value_trimLeading, value_ofNat]

/-! ## Decimals -/

/-- `string.match(raw, "^(%d+)(%.?)(%d*)$")`: the whole part, whether a point
follows it, and the fraction. -/
def splitDecimal (raw : Text) : Option (Text × Bool × Text) :=
  let whole := raw.takeWhile Char.isDigit
  if whole = [] then none
  else
    match raw.dropWhile Char.isDigit with
    | [] => some (whole, false, [])
    | '.' :: fraction => if IsDigits fraction then some (whole, true, fraction) else none
    | _ => none

/-- The exact number that `whole.fraction` spells. -/
def rat (whole fraction : Text) : ℚ := value whole + value fraction / 10 ^ fraction.length

variable {whole : Text}

theorem splitDecimal_digits (hd : IsDigits whole) (hne : whole ≠ []) :
    splitDecimal whole = some (whole, false, []) := by
  have htake : whole.takeWhile Char.isDigit = whole := takeWhile_eq_self_iff.2 hd
  have hdrop : whole.dropWhile Char.isDigit = [] := dropWhile_eq_nil_iff.2 hd
  simp [splitDecimal, htake, hdrop, hne]

theorem splitDecimal_point {fraction : Text} (hd : IsDigits whole) (hne : whole ≠ [])
    (hf : IsDigits fraction) :
    splitDecimal (whole ++ '.' :: fraction) = some (whole, true, fraction) := by
  have htake : (whole ++ '.' :: fraction).takeWhile Char.isDigit = whole := by
    rw [takeWhile_append_of_pos hd]
    simp [List.takeWhile]
  have hdrop : (whole ++ '.' :: fraction).dropWhile Char.isDigit = '.' :: fraction := by
    rw [dropWhile_append_of_pos hd]
    simp [List.dropWhile]
  simp [splitDecimal, htake, hdrop, hne, hf]

theorem splitDecimal_eq_some {raw fraction : Text} {point : Bool}
    (h : splitDecimal raw = some (whole, point, fraction)) :
    IsDigits whole ∧ whole ≠ [] ∧ IsDigits fraction ∧
      (point = false ∧ fraction = [] ∧ raw = whole ∨
        point = true ∧ raw = whole ++ '.' :: fraction) := by
  have hdig : IsDigits (raw.takeWhile Char.isDigit) := fun c hc => mem_takeWhile_imp hc
  have hraw : raw.takeWhile Char.isDigit ++ raw.dropWhile Char.isDigit = raw :=
    takeWhile_append_dropWhile
  simp only [splitDecimal] at h
  split at h
  · simp at h
  · rename_i hne
    split at h
    · rename_i hdrop
      obtain ⟨rfl, rfl, rfl⟩ : _ = whole ∧ false = point ∧ [] = fraction := by simpa using h
      rw [hdrop, append_nil] at hraw
      exact ⟨hdig, hne, isDigits_nil, .inl ⟨rfl, rfl, hraw.symm⟩⟩
    · rename_i f hdrop
      split at h
      · rename_i hf
        obtain ⟨rfl, rfl, rfl⟩ : _ = whole ∧ true = point ∧ f = fraction := by simpa using h
        rw [hdrop] at hraw
        exact ⟨hdig, hne, hf, .inr ⟨rfl, hraw.symm⟩⟩
      · simp at h
    · simp at h

end Text

end Olp
