import Olp.Limits.Amount
import Olp.Lua

/-!
# The limbs of an amount as Lua numbers

`Amount` computes with natural numbers.  The scripts compute with Lua numbers,
which are doubles.  Here the functions of the block `cost_pending` are written a
second time, over whatever `num` makes of each number a script computes:

* `within` refuses a number past `2 ^ 53`, so that an answer says that every
  intermediate value stayed within it;
* `Lua.double` rounds to the nearest double, which is what a script does.

`addLimbs_eq`, `subLimbs_eq` and `readLimbs_eq` show once that both agree with the
exact functions as long as `num` keeps the numbers up to `2 ^ 53`.
-/

namespace Olp.Limits

open Text

/-! ## Canonical text -/

/-- The texts `format_amount` may write: no leading zeros, no trailing fractional
zeros, at most twelve fractional digits and at most the cap. -/
def Canonical (raw : Text) : Prop :=
  ∃ whole fraction, plainDecimal raw = some (whole, fraction) ∧
    (whole = ['0'] ∨ NoLeadingZero whole) ∧ fraction.getLast? ≠ some '0' ∧
    fraction.length ≤ scale ∧ (value whole < huge ∨ value whole = huge ∧ fraction = [])

theorem trimTrailing_eq_self {t : Text} : trimTrailing t = t ↔ t.getLast? ≠ some '0' := by
  rw [trimTrailing, List.rdropWhile_eq_self_iff]
  constructor
  · intro h hlast
    obtain ⟨init, rfl⟩ := List.getLast?_eq_some_iff.1 hlast
    exact h (by simp) (by simp)
  · intro h hne hz
    exact h (by rw [List.getLast?_eq_some_getLast hne, beq_iff_eq.1 hz])

theorem trimTrailing_append_replicate (t : Text) (n : Nat) :
    trimTrailing (t ++ List.replicate n '0') = trimTrailing t := by
  induction n with
  | zero => simp
  | succ n ih =>
    rw [List.replicate_succ', ← List.append_assoc, trimTrailing,
      List.rdropWhile_concat_pos _ _ _ rfl]
    exact ih

theorem getLast?_trimTrailing (t : Text) : (trimTrailing t).getLast? ≠ some '0' :=
  trimTrailing_eq_self.1 (trimTrailing_idem t)

theorem eq_ofNat_value {t : Text} (hd : IsDigits t) (hne : t ≠ [])
    (hz : t = ['0'] ∨ NoLeadingZero t) : t = ofNat (value t) := by
  rcases hz with rfl | hz
  · rfl
  · have hpos : value t ≠ 0 := by
      have := pow_le_value hd hz hne
      have : 0 < 10 ^ (t.length - 1) := by positivity
      omega
    exact eq_of_value_eq_of_noLeadingZero hd (isDigits_ofNat _) hz (noLeadingZero_ofNat hpos)
      (value_ofNat _).symm

theorem value_trimTrailing_scale {f : Text} (h : f.length ≤ scale) :
    value (trimTrailing f) * 10 ^ (scale - (trimTrailing f).length)
      = value f * 10 ^ (scale - f.length) := by
  have hle := length_trimTrailing_le f
  rw [value_trimTrailing f, Nat.mul_assoc, ← Nat.pow_add]
  congr 2
  omega

/-- What `parse_amount` reads in a plain decimal of at most twelve significant
fractional digits. -/
theorem parseLimbs_plain {raw whole fraction : Text}
    (h : plainDecimal raw = some (whole, fraction))
    (hlen : (trimTrailing fraction).length ≤ scale) :
    parseLimbs (some raw) = some (if huge ≤ value whole then (huge, 0) else
      (value whole,
        value (trimTrailing fraction) * 10 ^ (scale - (trimTrailing fraction).length))) := by
  unfold plainDecimal at h
  split at h
  · cases h
  · rename_i w point f hs
    split at h
    · cases h
    · rename_i hpoint
      obtain ⟨rfl, rfl⟩ : w = whole ∧ f = fraction := by simpa using h
      simp only [parseLimbs, Option.bind_some, hs, if_neg hpoint]
      by_cases hlong : scale < f.length
      · rw [if_pos hlong, if_neg (by omega)]
        split_ifs with hhuge hnil <;> simp_all
      · rw [if_neg hlong, if_neg hlong, value_trimTrailing_scale (by omega)]
        split_ifs with hhuge hnil <;> simp_all

/-- A text is read as an amount when it is a plain decimal of at most twelve
significant fractional digits, and no other text is. -/
theorem parseAmount_isSome_iff {raw : Text} :
    (parseAmount (some raw)).isSome ↔ ∃ whole fraction,
      plainDecimal raw = some (whole, fraction) ∧ (trimTrailing fraction).length ≤ scale := by
  constructor
  · intro h
    obtain ⟨a, ha⟩ := Option.isSome_iff_exists.1 h
    rw [parseAmount_eq_some] at ha
    simp only [parseLimbs, Option.bind_some] at ha
    split at ha
    · cases ha
    · rename_i whole point fraction hs
      split at ha
      · cases ha
      · rename_i hpoint
        refine ⟨whole, fraction, by simp [plainDecimal, hs, hpoint], ?_⟩
        have hle := length_trimTrailing_le fraction
        by_contra hlong
        have hlong' : scale < fraction.length := by omega
        rw [if_pos hlong', if_pos (by omega)] at ha
        cases ha
  · rintro ⟨whole, fraction, h, hlen⟩
    have hp := parseLimbs_plain h hlen
    unfold parseAmount
    split
    · rename_i hnone
      rw [hp] at hnone
      cases hnone
    · rfl

theorem canonical_formatAmount (a : Amount) : Canonical (formatAmount a) := by
  have hcap := a.capped
  have hz : ofNat a.hi = ['0'] ∨ NoLeadingZero (ofNat a.hi) := by
    by_cases h : a.hi = 0
    · exact .inl (by rw [h, ofNat_zero])
    · exact .inr (noLeadingZero_ofNat h)
  by_cases hlo : a.lo = 0
  · refine ⟨ofNat a.hi, [], ?_, hz, by simp, Nat.zero_le _, ?_⟩
    · rw [formatAmount, if_pos hlo]
      exact plainDecimal_join (isDigits_ofNat _) (ofNat_ne_nil _) isDigits_nil
    · rw [value_ofNat]
      exact hcap.imp id fun h => ⟨h.1, rfl⟩
  · have hne : trimTrailing (pad a.lo) ≠ [] := by
      intro h
      have hv := value_trimTrailing (pad a.lo)
      rw [value_pad, h, value_nil, Nat.zero_mul] at hv
      exact hlo hv
    rw [formatAmount, if_neg hlo]
    refine ⟨ofNat a.hi, trimTrailing (pad a.lo), ?_, hz, getLast?_trimTrailing _, ?_, ?_⟩
    · have := plainDecimal_join
        (isDigits_ofNat a.hi) (ofNat_ne_nil _) (isDigits_pad a.lo).trimTrailing
      rwa [join, if_neg hne] at this
    · exact (length_trimTrailing_le _).trans (length_pad a.lo_lt).le
    · rw [value_ofNat]
      exact .inl (hcap.resolve_right fun h => hlo h.2)

/-- A canonical text is what its amount is written as. -/
theorem Canonical.format_parse {raw : Text} (h : Canonical raw) :
    ∃ a, parseAmount (some raw) = some a ∧ formatAmount a = raw := by
  obtain ⟨whole, fraction, hp, hz, hlast, hlen, hcap⟩ := h
  obtain ⟨hw, hne, hf, rfl⟩ := plainDecimal_eq_some hp
  have htrim : trimTrailing fraction = fraction := trimTrailing_eq_self.2 hlast
  obtain ⟨a, ha⟩ := Option.isSome_iff_exists.1
    (parseAmount_isSome_iff.2 ⟨whole, fraction, hp, by rwa [htrim]⟩)
  refine ⟨a, ha, ?_⟩
  rw [parseAmount_eq_some, parseLimbs_plain hp (by rwa [htrim]), htrim] at ha
  have hwhole := eq_ofNat_value hw hne hz
  obtain ⟨hhi, hlo⟩ :
      value whole = a.hi ∧ value fraction * 10 ^ (scale - fraction.length) = a.lo := by
    rcases hcap with hlt | ⟨heq, rfl⟩
    · simpa [Nat.not_le.2 hlt] using ha
    · simpa [heq] using ha
  rw [hhi] at hwhole
  by_cases hnil : fraction = []
  · subst hnil
    rw [formatAmount, if_pos (by simpa using hlo.symm), ← hwhole, join, if_pos rfl]
  · have hpad : pad a.lo = fill scale fraction := by
      refine eq_of_value_eq (isDigits_pad _) (isDigits_fill hf _) ?_ ?_
      · rw [length_pad a.lo_lt, length_fill hlen]
      · rw [value_pad, value_fill, hlo]
    have htp : trimTrailing (pad a.lo) = fraction := by
      rw [hpad, fill, trimTrailing_append_replicate, htrim]
    have hlo0 : a.lo ≠ 0 := by
      intro h0
      rw [h0] at htp
      exact hnil (htp.symm.trans (by decide))
    rw [formatAmount, if_neg hlo0, htp, ← hwhole, join, if_neg hnil]

/-! ## Numbers as a script computes them -/

def Amount.limbs (a : Amount) : Int × Int := (a.hi, a.lo)

/-- `compare_amount` on limbs. -/
def compareLimbs (left right : Int × Int) : Int :=
  if left.1 ≠ right.1 then (if left.1 < right.1 then -1 else 1)
  else if left.2 ≠ right.2 then (if left.2 < right.2 then -1 else 1)
  else 0

section

variable {m : Type → Type} [Monad m] (num : Int → m Int)

/-- `add_amount`, each number it computes passed through `num`. -/
def addLimbs (left right : Int × Int) : m (Int × Int) := do
  let hi ← num (left.1 + right.1)
  let lo ← num (left.2 + right.2)
  if unit ≤ lo then
    let hi ← num (hi + 1)
    let lo ← num (lo - unit)
    if huge ≤ hi then pure (huge, 0) else pure (hi, lo)
  else if huge ≤ hi then pure (huge, 0) else pure (hi, lo)

/-- `sub_amount`, each number it computes passed through `num`. -/
def subLimbs (left right : Int × Int) : m (Int × Int) := do
  if compareLimbs left right ≤ 0 then pure (0, 0)
  else
    let hi ← num (left.1 - right.1)
    let lo ← num (left.2 - right.2)
    if lo < 0 then
      let hi ← num (hi - 1)
      let lo ← num (lo + unit)
      pure (hi, lo)
    else pure (hi, lo)

/-- `parse_amount`, each number it reads or computes passed through `num`. -/
def readLimbs (raw : Option Text) : m (Option (Int × Int)) :=
  match raw.bind splitDecimal with
  | none => pure none
  | some (whole, point, fraction) =>
    if point = true ∧ fraction = [] then pure none
    else
      let fraction := if scale < fraction.length then trimTrailing fraction else fraction
      if scale < fraction.length then pure none
      else do
        let hi ← num (value whole)
        if huge ≤ hi then pure (some (huge, 0))
        else if fraction = [] then pure (some (hi, 0))
        else
          let lo ← num (value fraction)
          let lo ← num (lo * 10 ^ (scale - fraction.length))
          pure (some (hi, lo))

/-- `num` leaves the whole numbers up to `2 ^ 53` as they are. -/
def Exact : Prop := ∀ z : Int, z.natAbs ≤ 2 ^ 53 → num z = pure z

variable {num}

theorem compareLimbs_limbs (a b : Amount) : compareLimbs a.limbs b.limbs = compareAmount a b := by
  simp only [compareLimbs, compareAmount, Amount.limbs, ne_eq, Nat.cast_inj, Nat.cast_lt]

variable [LawfulMonad m]

/-- Where numbers are exact, the limbs add up like the amounts. -/
theorem addLimbs_eq (hnum : Exact num) (a b : Amount) :
    addLimbs num a.limbs b.limbs = pure (addAmount a b).limbs := by
  have hu : unit = 1000000000000 := rfl
  have hh : huge = 1000000000000000 := rfl
  have ha := a.lo_lt
  have hb := b.lo_lt
  have ha' := a.capped
  have hb' := b.capped
  simp only [addLimbs, Amount.limbs]
  rw [hnum _ (by omega), pure_bind, hnum _ (by omega), pure_bind]
  by_cases hcarry : unit ≤ a.lo + b.lo
  · rw [if_pos (by exact_mod_cast hcarry), hnum _ (by omega), pure_bind, hnum _ (by omega),
      pure_bind]
    by_cases hcap : huge ≤ a.hi + b.hi + 1
    · rw [if_pos (by exact_mod_cast hcap), addAmount, dif_pos hcarry, dif_pos hcap]
      rfl
    · rw [if_neg (by exact_mod_cast hcap), addAmount, dif_pos hcarry, dif_neg hcap]
      exact congrArg pure (Prod.ext (by dsimp only; omega) (by dsimp only; omega))
  · rw [if_neg (by exact_mod_cast hcarry)]
    by_cases hcap : huge ≤ a.hi + b.hi
    · rw [if_pos (by exact_mod_cast hcap), addAmount, dif_neg hcarry, dif_pos hcap]
      rfl
    · rw [if_neg (by exact_mod_cast hcap), addAmount, dif_neg hcarry, dif_neg hcap]
      exact congrArg pure (Prod.ext (by dsimp only; omega) (by dsimp only; omega))

/-- Where numbers are exact, the limbs subtract like the amounts. -/
theorem subLimbs_eq (hnum : Exact num) (a b : Amount) :
    subLimbs num a.limbs b.limbs = pure (subAmount a b).limbs := by
  have hu : unit = 1000000000000 := rfl
  have hh : huge = 1000000000000000 := rfl
  have ha := a.lo_lt
  have hb := b.lo_lt
  have ha' := a.capped
  rw [subLimbs, compareLimbs_limbs]
  by_cases hle : compareAmount a b ≤ 0
  · rw [if_pos hle, subAmount, dif_pos hle]
    rfl
  · have hlt := Amount.compareAmount_le_zero.not.1 hle
    simp only [Amount.units, unit] at hlt
    rw [if_neg hle]
    simp only [Amount.limbs]
    rw [hnum _ (by omega), pure_bind, hnum _ (by omega), pure_bind]
    by_cases hborrow : a.lo < b.lo
    · rw [if_pos (by omega), hnum _ (by omega), pure_bind, hnum _ (by omega), pure_bind]
      rw [subAmount, dif_neg hle, dif_pos hborrow]
      exact congrArg pure (Prod.ext (by dsimp only; omega) (by dsimp only; omega))
    · rw [if_neg (by omega), subAmount, dif_neg hle, dif_neg hborrow]
      exact congrArg pure (Prod.ext (by dsimp only; omega) (by dsimp only; omega))

/-- Reading a text passes through no number past `2 ^ 53` except its whole part,
and a whole part read as any number from the cap on is read alike. -/
theorem readLimbs_eq (hnum : Exact num) {raw : Option Text}
    (hwhole : ∀ whole point fraction, raw.bind splitDecimal = some (whole, point, fraction) →
      2 ^ 53 < value whole → ∃ z : Int, huge ≤ z ∧ num (value whole) = pure z) :
    readLimbs num raw = pure ((parseAmount raw).map Amount.limbs) := by
  have hlimbs : (parseAmount raw).map Amount.limbs
      = (parseLimbs raw).map fun p => ((p.1 : Int), (p.2 : Int)) := by
    unfold parseAmount
    split <;> simp_all [Amount.limbs]
  rw [hlimbs]
  simp only [readLimbs, parseLimbs]
  cases hs : raw.bind splitDecimal with
  | none => rfl
  | some p =>
    obtain ⟨whole, point, fraction⟩ := p
    have hdig : IsDigits fraction := by
      obtain ⟨t, -, ht⟩ := Option.bind_eq_some_iff.1 hs
      exact (splitDecimal_eq_some ht).2.2.1
    dsimp only
    by_cases hpoint : point = true ∧ fraction = []
    · rw [if_pos hpoint, if_pos hpoint]
      rfl
    rw [if_neg hpoint, if_neg hpoint]
    have hfd : IsDigits (if scale < fraction.length then trimTrailing fraction else fraction) := by
      split
      · exact hdig.trimTrailing
      · exact hdig
    revert hfd
    generalize (if scale < fraction.length then trimTrailing fraction else fraction) = f
    intro hfd
    by_cases hlong : scale < f.length
    · rw [if_pos hlong, if_pos hlong]
      rfl
    rw [if_neg hlong, if_neg hlong]
    -- the whole part is read exactly, or it is past the cap either way
    by_cases hbig : 2 ^ 53 < value whole
    · obtain ⟨z, hz, hread⟩ := hwhole whole point fraction hs hbig
      have hcap : huge ≤ value whole := by
        have : huge ≤ 2 ^ 53 := by norm_num
        omega
      rw [hread, pure_bind, if_pos hz, if_pos hcap]
      rfl
    · rw [hnum _ (by simpa using hbig), pure_bind]
      by_cases hcap : huge ≤ value whole
      · rw [if_pos (by exact_mod_cast hcap), if_pos hcap]
        rfl
      · rw [if_neg (by exact_mod_cast hcap), if_neg hcap]
        by_cases hnil : f = []
        · rw [if_pos hnil, if_pos hnil]
          rfl
        · have hlt := value_scale_lt hfd (Nat.not_lt.1 hlong)
          have hle : value f ≤ value f * 10 ^ (scale - f.length) :=
            Nat.le_mul_of_pos_right _ (by positivity)
          have hu : unit = 1000000000000 := rfl
          have hprod : ((value f : Int) * 10 ^ (scale - f.length))
              = ((value f * 10 ^ (scale - f.length) : Nat) : Int) := by push_cast; rfl
          rw [if_neg hnil, if_neg hnil, hnum _ (by omega), pure_bind, hprod,
            hnum _ (by omega), pure_bind]
          rfl

end

/-! ## Doubles -/

def within (z : Int) : Option Int := if z.natAbs ≤ 2 ^ 53 then some z else none

def rounded (z : Int) : Id Int := z.sign * (Lua.double z.natAbs : Int)

theorem exact_within : Exact within := fun _ h => if_pos h

theorem exact_rounded : Exact rounded := fun z h => by
  rw [rounded, Lua.double_of_le h]
  exact Int.sign_mul_natAbs z

/-- The script reads an amount rightly even where its numbers round. -/
theorem readLimbs_rounded (raw : Option Text) :
    readLimbs rounded raw = pure ((parseAmount raw).map Amount.limbs) := by
  refine readLimbs_eq exact_rounded ?_
  intro whole _ _ _ hbig
  have hpos : 0 < value whole := by omega
  have hle := Lua.le_double (show huge ≤ 2 ^ 53 by norm_num)
    (show huge ≤ value whole from le_trans (by norm_num) hbig.le)
  refine ⟨Lua.double (value whole), by exact_mod_cast hle, ?_⟩
  rw [rounded, Int.sign_natCast_of_ne_zero hpos.ne', one_mul, Int.natAbs_natCast]
  rfl

theorem Canonical.readLimbs_within {raw : Text} (h : Canonical raw) :
    readLimbs within (some raw) = some ((parseAmount (some raw)).map Amount.limbs) := by
  refine readLimbs_eq exact_within ?_
  intro whole point fraction hs hbig
  obtain ⟨whole', fraction', hp, -, -, -, hcap⟩ := h
  have hwhole : whole = whole' := by
    simp only [Option.bind_some] at hs
    simp only [plainDecimal, hs] at hp
    split at hp
    · cases hp
    · simp only [Option.some_inj, Prod.mk.injEq] at hp
      exact hp.1
  have hh : huge ≤ 2 ^ 53 := by norm_num
  rw [← hwhole] at hcap
  omega

/-- The two-limb decimals are exact.  Reading and writing are inverse on canonical
text, and a text is read when it is a plain decimal of at most twelve significant
fractional digits.  Comparing, adding and subtracting are those of the worth,
saturating at the cap and at zero.  No number computed for canonical amounts is
past `2 ^ 53`, and with doubles every answer is the exact one, for any text. -/
theorem two_limb_decimals :
    (∀ a, Canonical (formatAmount a) ∧ parseAmount (some (formatAmount a)) = some a) ∧
    (∀ raw, Canonical raw → ∃ a, parseAmount (some raw) = some a ∧ formatAmount a = raw) ∧
    (∀ raw, (parseAmount (some raw)).isSome ↔ ∃ whole fraction,
      plainDecimal raw = some (whole, fraction) ∧ (trimTrailing fraction).length ≤ 12) ∧
    (∀ a b : Amount, compareAmount a b
      = if a.units < b.units then -1 else if b.units < a.units then 1 else 0) ∧
    (∀ a b, (addAmount a b).units = min (a.units + b.units) Amount.cap.units) ∧
    (∀ a b, (subAmount a b).units = a.units - b.units) ∧
    (∀ a b, addLimbs within a.limbs b.limbs = some (addAmount a b).limbs ∧
      subLimbs within a.limbs b.limbs = some (subAmount a b).limbs) ∧
    (∀ raw, Canonical raw →
      readLimbs within (some raw) = some ((parseAmount (some raw)).map Amount.limbs)) ∧
    (∀ a b, compareLimbs a.limbs b.limbs = compareAmount a b ∧
      addLimbs rounded a.limbs b.limbs = (addAmount a b).limbs ∧
      subLimbs rounded a.limbs b.limbs = (subAmount a b).limbs) ∧
    ∀ raw, readLimbs rounded raw = (parseAmount raw).map Amount.limbs := by
  refine ⟨fun a => ⟨canonical_formatAmount a, parseAmount_formatAmount a⟩,
    fun raw h => h.format_parse, fun raw => parseAmount_isSome_iff, Amount.compareAmount_eq,
    Amount.units_add, Amount.units_sub, ?_, fun raw h => h.readLimbs_within, ?_,
    readLimbs_rounded⟩
  · intro a b
    exact ⟨addLimbs_eq exact_within a b, subLimbs_eq exact_within a b⟩
  · intro a b
    exact ⟨compareLimbs_limbs a b, addLimbs_eq exact_rounded a b, subLimbs_eq exact_rounded a b⟩

/-- Thirteen fractional digits are read when the last is a zero, and a whole part
past `2 ^ 53` is a number the reading passes through. -/
theorem parseAmount_reads_zeros :
    (plainDecimal "0.1000000000000".toList = some (['0'], "1000000000000".toList) ∧
      (parseAmount (some "0.1000000000000".toList)).isSome = true) ∧
    readLimbs within (some "10000000000000000".toList) = none ∧
      (parseAmount (some "10000000000000000".toList)).isSome = true := by
  decide

end Olp.Limits
