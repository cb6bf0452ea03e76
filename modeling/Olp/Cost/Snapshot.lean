import Olp.Budget.Calendar
import Olp.Cost.Install
import Mathlib.Data.Vector.Basic

/-!
# Cost snapshots

`CostSnapshot` of `budgets.go`: the spend that the durable store holds for one owner in
the windows it names, its checks, and the call of `reconcile_cost.lua` that
`ApplyCostSnapshot` makes of it.

What the script reads in such a call is what the snapshot says (`CostSnapshot.plan_eq`),
and a snapshot that passes its checks and carries no stale projection of the durable ledger is
never turned down, up to two things that the checks let through: a negative week
identifier without a weekly spend, and bounds within one millisecond
(`CostSnapshot.plan_of_validate`).
-/

namespace Olp.Cost

open Limits Valkey Option

/-! ## The snapshot and its checks -/

abbrev Uuid := List.Vector (Fin 16) 32

/-- `canonicalUUID`. -/
def canonicalUuid (id : Uuid) : Text :=
  let hex := id.toList.map fun digit : Fin 16 => Nat.digitChar digit.val
  hex.take 8 ++ '-' :: (hex.drop 8).take 4 ++ '-' :: (hex.drop 12).take 4 ++
    '-' :: (hex.drop 16).take 4 ++ '-' :: hex.drop 20

/-- `time.Time`, in nanoseconds since 1970. -/
abbrev Time := Int

def zeroTime : Time := -62135596800000000000

/-- `UnixMilli`. -/
def unixMilli (t : Time) : Int := t / 1000000

/-- `debitProjection`. -/
structure DebitProjection where
  version : Int
  amount : Text
  blocked : Bool

/-- `CostSnapshot`, without the owner and the basis, which only choose the keys. -/
structure CostSnapshot where
  windowId : Period → Int
  accrued : Period → Text
  unpricedAttempts : Int
  starts : Period → Time
  ends : Period → Time
  requestId : Option Uuid
  durable : Option DebitProjection

/-- `validDecimal`. -/
def validDecimal (value : Text) : Bool :=
  let integer := value.takeWhile (· ≠ '.')
  let fraction := (value.dropWhile (· ≠ '.')).drop 1
  1 ≤ value.length ∧ value.length ≤ 96 ∧
    ('.' ∈ value → 1 ≤ fraction.length ∧ fraction.length ≤ 12) ∧
    1 ≤ integer.length ∧ Text.IsDigits integer ∧ Text.IsDigits fraction

def luaInteger (n : Int) : Bool := 0 ≤ n ∧ n ≤ maxSafeInteger

/-- The check of one pair of calendar bounds. -/
def validBounds (s : CostSnapshot) (p : Period) : Bool :=
  s.starts p ≠ zeroTime ∧ s.starts p < s.ends p ∧ 0 ≤ unixMilli (s.starts p) ∧
    unixMilli (s.ends p) ≤ maxSafeInteger

/-- `validate`. -/
def CostSnapshot.validate (s : CostSnapshot) : Bool :=
  luaInteger (s.windowId .day) ∧ luaInteger (s.windowId .month) ∧
    (s.accrued .week ≠ [] → luaInteger (s.windowId .week) ∧ validDecimal (s.accrued .week)) ∧
    validDecimal (s.accrued .day) ∧ validDecimal (s.accrued .month) ∧
    luaInteger s.unpricedAttempts ∧
    (periods.any (fun p => s.starts p ≠ zeroTime) → periods.all (validBounds s))

/-- The bounds of the three windows, when the snapshot has them. -/
def CostSnapshot.boundArgs (s : CostSnapshot) : List Text :=
  if s.starts .day = zeroTime then []
  else periods.flatMap fun p => [ofInt (unixMilli (s.starts p)), ofInt (unixMilli (s.ends p))]

/-- `appendDebitProjection`: none for `ErrDebitConflict`. -/
def appendDebitProjection (args : List Text) (p : DebitProjection) : Option (List Text) :=
  if luaInteger p.version = false ∨ validDecimal p.amount = false ∨ args.length ≠ 15 then none
  else some (args ++ [ofInt p.version, p.amount, if p.blocked then ['1'] else ['0']])

/-- The arguments without a projection. -/
def CostSnapshot.balanceArgs (s : CostSnapshot) : List Text :=
  [ofInt (s.windowId .day), s.accrued .day, ofInt (s.windowId .month), s.accrued .month,
    ofInt s.unpricedAttempts, ['0'], s.requestId.elim [] canonicalUuid,
    ofInt (s.windowId .week), s.accrued .week] ++ s.boundArgs

/-- The number of keys and the arguments that `ApplyCostSnapshot` calls the script with;
none when it returns an error before that. -/
def CostSnapshot.call (s : CostSnapshot) : Option (Nat × List Text) :=
  if s.validate then
    match s.durable with
    | none => some (5, s.balanceArgs)
    | some d => (appendDebitProjection s.balanceArgs d).map fun args => (6, args)
  else none

/-! ## What the script reads -/

/-- The two bounds of a window in milliseconds, when the snapshot has bounds. -/
def CostSnapshot.bounds (s : CostSnapshot) (p : Period) : Option (Int × Int) :=
  if s.starts .day = zeroTime then none
  else some (unixMilli (s.starts p), unixMilli (s.ends p))

theorem parseSafeUnsignedInteger_ofInt {n : Int} {m : Nat} :
    parseSafeUnsignedInteger (some (ofInt n)) = some m ↔ n = m ∧ m ≤ maxSafeInteger := by
  rw [parseSafeUnsignedInteger_eq, ofInt]
  split
  · rename_i hneg
    have : ¬ Text.IsDigits ('-' :: Text.ofNat n.natAbs) := by
      simp [show Char.isDigit '-' = false by decide]
    simp only [safeInteger, this, false_and, and_false, if_false]
    constructor
    · simp
    · rintro ⟨rfl, -⟩
      omega
  · rename_i hpos
    constructor
    · intro h
      have hle := safeInteger_le h
      have hval : n.natAbs = m := by
        unfold safeInteger at h
        split at h
        · simpa using h
        · simp at h
      exact ⟨by omega, hle⟩
    · rintro ⟨rfl, hle⟩
      simp [safeInteger_ofNat hle]

/-- What the checks accept as a decimal is a plain decimal of at most twelve fractional
digits. -/
theorem validDecimal_eq_true {t : Text} (h : validDecimal t = true) :
    ∃ whole fraction, plainDecimal t = some (whole, fraction) ∧ t.length ≤ 96 ∧
      fraction.length ≤ 12 := by
  simp only [validDecimal, decide_eq_true_eq] at h
  obtain ⟨-, hlen, hpoint, hne, hint, hfrac⟩ := h
  have hcut := plainDecimal_cut (List.length_pos_iff.1 hne) hint hfrac
    fun hmem => List.length_pos_iff.1 (hpoint hmem).1
  refine ⟨_, _, hcut, hlen, ?_⟩
  by_cases hmem : '.' ∈ t
  · exact (hpoint hmem).2
  · have hnil : t.dropWhile (· ≠ '.') = [] :=
      List.dropWhile_eq_nil_iff.2 fun c hc => by
        simp only [decide_eq_true_eq]
        rintro rfl
        exact hmem hc
    rw [hnil]
    decide

variable {argv : List Text} {s : CostSnapshot}

variable {keys : Nat}

/-- The arguments of a projection. -/
def DebitProjection.args (e : DebitProjection) : List Text :=
  [ofInt e.version, e.amount, if e.blocked then ['1'] else ['0']]

/-- A snapshot is sent if it is valid, with the arguments of its balances and of its exposure. -/
theorem CostSnapshot.call_eq_some (h : s.call = some (keys, argv)) :
    s.validate = true ∧ ∃ rest, argv = s.balanceArgs ++ rest ∧
      (s.durable = none ∧ keys = 5 ∧ rest = [] ∨
        keys = 6 ∧ s.balanceArgs.length = 15 ∧ ∃ e, s.durable = some e ∧ rest = e.args ∧
          luaInteger e.version = true ∧ validDecimal e.amount = true) := by
  unfold CostSnapshot.call at h
  split at h
  · rename_i hv
    split at h
    · rename_i hd
      obtain ⟨rfl, rfl⟩ : 5 = keys ∧ s.balanceArgs = argv := by simpa using h
      exact ⟨hv, [], by simp, .inl ⟨hd, rfl, rfl⟩⟩
    · rename_i e hd
      obtain ⟨args, happend, hargs⟩ := map_eq_some_iff.1 h
      obtain ⟨rfl, rfl⟩ : 6 = keys ∧ args = argv := by simpa using hargs
      unfold appendDebitProjection at happend
      split at happend
      · simp at happend
      · rename_i hok
        push Not at hok
        exact ⟨hv, _, (some.inj happend).symm, .inr ⟨rfl, hok.2.2, e, hd, rfl,
          by simpa using hok.1, by simpa using hok.2.1⟩⟩
  · simp at h

theorem CostSnapshot.boundArgs_length (s : CostSnapshot) :
    s.boundArgs.length = if s.starts .day = zeroTime then 0 else 6 := by
  unfold CostSnapshot.boundArgs
  split <;> simp [periods]

/-- What the script makes of a snapshot it does not turn down. -/
structure CostSnapshot.Planned (s : CostSnapshot) (σ : Server CostKey) (parsed : Snapshot)
    (i : Period → Interval) : Prop where
  window : ∀ p n, parsed.window p = some n → s.windowId p = n
  windowed : ∀ p, (parsed.accrued p).isSome → (parsed.window p).isSome
  accrued : ∀ p, parsed.accrued p = normalizeDecimal (some (s.accrued p))
  unpriced : s.unpricedAttempts = parsed.unpriced ∧ parsed.unpriced ≤ maxSafeInteger
  /-- Without bounds, the window of the script's own calendar. -/
  calendar : ∀ p, s.bounds p = none →
    i p = ⟨(windowAt σ.now p).id, (windowAt σ.now p).ttl, unbounded σ p, none⟩
  /-- With bounds, the window the snapshot names. -/
  bounds : ∀ p a b, s.bounds p = some (a, b) → ∃ first last window : Nat,
    a = first ∧ b = last ∧ first ≤ maxSafeInteger ∧ last ≤ maxSafeInteger ∧
      parsed.window p = some window ∧
      i p = ⟨window, last - σ.now, first ≤ σ.now ∧ σ.now < last ∧
        ¬ otherInterval σ p σ.now first last (some window), some (first, last)⟩

theorem parseSnapshot_reads {s : Snapshot} (h : parseSnapshot argv = some s) :
    s.window .day = number argv 1 ∧ s.window .month = number argv 3 ∧
      s.window .week = weekArg argv ∧
      s.accrued .day = normalizeDecimal (some (arg argv 2)) ∧
      s.accrued .month = normalizeDecimal (some (arg argv 4)) ∧
      s.accrued .week = weeklyArg argv ∧ number argv 5 = some s.unpriced ∧
      ∀ p, (s.accrued p).isSome → (s.window p).isSome := by
  unfold parseSnapshot at h
  split at h
  · simp at h
  · rename_i hweek
    split at h
    · rename_i day daily month monthly unpriced override hday hdaily hmonth hmonthly hun hover
      split at h
      · simp at h
      · cases h
        refine ⟨hday.symm, hmonth.symm, rfl, hdaily.symm, hmonthly.symm, rfl, hun, fun p hp => ?_⟩
        cases p with
        | day => rfl
        | month => rfl
        | week =>
          have hne : arg argv 9 ≠ [] := fun hnil => by simp [weeklyArg, hnil] at hp
          exact isSome_iff_ne_none.2 fun hnone => hweek ⟨hne, .inl hnone⟩
    · simp at h

theorem weeklyArg_eq (argv : List Text) :
    weeklyArg argv = normalizeDecimal (some (arg argv 9)) := by
  unfold weeklyArg
  split
  · rename_i h
    simp [h, normalizeDecimal]
  · rfl

variable {σ : Server CostKey} {i : Period → Interval}

theorem intervals_eq_some {nowMs : Nat} {s : Snapshot} {calendar : Period → Window}
    (hkeys : 5 ≤ keys) (h : intervals σ keys argv nowMs s calendar = some i) (p : Period) :
    interval σ argv nowMs p (s.window p) (calendar p) = some (i p) := by
  unfold intervals at h
  rw [if_pos hkeys] at h
  split at h
  · rename_i day month week hday hmonth hweek
    cases h
    cases p <;> assumption
  · simp at h

theorem CostSnapshot.balanceArgs_length (s : CostSnapshot) :
    s.balanceArgs.length = if s.starts .day = zeroTime then 9 else 15 := by
  rw [CostSnapshot.balanceArgs, List.length_append, s.boundArgs_length]
  split <;> rfl

theorem CostSnapshot.number_bounds (hne : s.starts .day ≠ zeroTime) (rest : List Text)
    (p : Period) :
    number (s.balanceArgs ++ rest) (boundsArg p)
        = parseSafeUnsignedInteger (some (ofInt (unixMilli (s.starts p)))) ∧
      number (s.balanceArgs ++ rest) (boundsArg p + 1)
        = parseSafeUnsignedInteger (some (ofInt (unixMilli (s.ends p)))) := by
  rw [CostSnapshot.balanceArgs, CostSnapshot.boundArgs, if_neg hne]
  cases p <;> exact ⟨rfl, rfl⟩

/-- The script reads what the snapshot says. -/
theorem CostSnapshot.plan_eq (hcall : s.call = some (keys, argv)) {parsed : Snapshot}
    {d : Option Projection} (h : planReconcile keys argv σ = .ok (parsed, i, d)) :
    s.Planned σ parsed i := by
  obtain ⟨-, rest, rfl, hkeys⟩ := s.call_eq_some hcall
  obtain ⟨hs, -, nowMs, htime, hi, -⟩ := planReconcile_eq_ok h
  obtain ⟨hday, hmonth, hweek, hdaily, hmonthly, hweekly, hun, hnamed⟩ := parseSnapshot_reads hs
  have hzero : number (s.balanceArgs ++ rest) 6 = some 0 :=
    show parseSafeUnsignedInteger (some ['0']) = some 0 by decide
  have hover : parsed.override = 0 :=
    some.inj ((parseSnapshot_eq_some hs).1.symm.trans hzero)
  have hnow : nowMs = σ.now := (currentTime_zero (hover ▸ htime)).1
  subst hnow
  have hinterval := intervals_eq_some (by omega) hi
  refine ⟨fun p n hn => ?_, hnamed, fun p => ?_, parseSafeUnsignedInteger_ofInt.1 hun,
    fun p hp => ?_, fun p a b hp => ?_⟩
  · cases p with
    | day => exact (parseSafeUnsignedInteger_ofInt.1 (hday.symm.trans hn)).1
    | month => exact (parseSafeUnsignedInteger_ofInt.1 (hmonth.symm.trans hn)).1
    | week => exact (parseSafeUnsignedInteger_ofInt.1 (hweek.symm.trans hn)).1
  · cases p with
    | day => exact hdaily
    | month => exact hmonthly
    | week => exact hweekly.trans (weeklyArg_eq _)
  · -- nine arguments, as a projection only goes with bounds
    have hz : s.starts .day = zeroTime := by
      by_contra hne
      simp [CostSnapshot.bounds, hne] at hp
    have hlen := s.balanceArgs_length
    rw [if_pos hz] at hlen
    have hrest : rest = [] := by
      rcases hkeys with ⟨-, -, hr⟩ | ⟨-, h15⟩
      · exact hr
      · omega
    have := hinterval p
    unfold interval at this
    rw [if_pos (by simp [hrest, hlen])] at this
    exact (some.inj this).symm
  · have hne : s.starts .day ≠ zeroTime := fun hz => by simp [CostSnapshot.bounds, hz] at hp
    obtain ⟨rfl, rfl⟩ : unixMilli (s.starts p) = a ∧ unixMilli (s.ends p) = b := by
      simpa [CostSnapshot.bounds, hne] using hp
    have hlen := s.balanceArgs_length
    rw [if_neg hne] at hlen
    have := hinterval p
    obtain ⟨h₁, h₂⟩ := s.number_bounds hne rest p
    unfold interval at this
    rw [if_neg (by simp [hlen]), h₁, h₂] at this
    split at this
    · rename_i first last window hfirst hlast hwindow
      split at this
      · simp at this
      · obtain ⟨hf, hf'⟩ := parseSafeUnsignedInteger_ofInt.1 hfirst
        obtain ⟨hl, hl'⟩ := parseSafeUnsignedInteger_ofInt.1 hlast
        exact ⟨first, last, window, hf, hl, hf', hl', hwindow, hwindow ▸ (some.inj this).symm⟩
    · simp at this

/-! ## Snapshots the script accepts -/

theorem validDecimal_normalizes {t : Text} (h : validDecimal t = true) :
    ∃ n, normalizeDecimal (some t) = some n := by
  obtain ⟨whole, fraction, hp, hlen, -⟩ := validDecimal_eq_true h
  exact ⟨_, by rw [normalizeDecimal_eq, if_pos hlen, hp]; rfl⟩

theorem parseSafeUnsignedInteger_of_luaInteger {n : Int} (h : luaInteger n = true) :
    parseSafeUnsignedInteger (some (ofInt n)) = some n.toNat := by
  simp only [luaInteger, decide_eq_true_eq] at h
  exact parseSafeUnsignedInteger_ofInt.2 ⟨by omega, by omega⟩

theorem validLease_canonicalUuid (id : Uuid) : validLease (canonicalUuid id) = true := by
  have hdigit : ∀ d : Fin 16, (Nat.digitChar d.val).isDigit = true ∨
      ('a' ≤ Nat.digitChar d.val ∧ Nat.digitChar d.val ≤ 'f') ∨ Nat.digitChar d.val = '-' := by
    decide
  simp only [validLease, canonicalUuid, decide_eq_true_eq, List.all_eq_true]
  refine ⟨by simp, by simp, fun c hc => ?_⟩
  have hc : c = '-' ∨ c ∈ id.toList.map fun digit : Fin 16 => Nat.digitChar digit.val := by
    grind [List.mem_of_mem_take, List.mem_of_mem_drop]
  rcases hc with rfl | hc
  · exact .inr (.inr rfl)
  · obtain ⟨d, -, rfl⟩ := List.mem_map.1 hc
    exact hdigit d

/-- The projection that the script reads, and whether a later one is installed. -/
def DebitProjection.stale (e : DebitProjection) (σ : Server CostKey) : Bool :=
  (normalizeDecimal (some e.amount)).any fun amount =>
    staleProjection σ ⟨e.version.toNat, ofInt e.version, amount, if e.blocked then ['1'] else ['0']⟩

/-- What of a snapshot with bounds its checks leave open: the week is named, and each window
takes a millisecond. -/
def CostSnapshot.Spread (s : CostSnapshot) : Prop :=
  s.starts .day ≠ zeroTime →
    luaInteger (s.windowId .week) = true ∧ ∀ p, unixMilli (s.starts p) < unixMilli (s.ends p)

theorem CostSnapshot.parseSnapshot_of_validate (hv : s.validate = true) (rest : List Text) :
    ∃ parsed, parseSnapshot (s.balanceArgs ++ rest) = some parsed ∧ parsed.override = 0 ∧
      ∀ p, luaInteger (s.windowId p) = true → (parsed.window p).isSome := by
  simp only [CostSnapshot.validate, decide_eq_true_eq] at hv
  obtain ⟨hday, hmonth, hweekly, hdaily, hmonthly, hun, -⟩ := hv
  have h₁ : number (s.balanceArgs ++ rest) 1 = _ := parseSafeUnsignedInteger_of_luaInteger hday
  have h₃ : number (s.balanceArgs ++ rest) 3 = _ := parseSafeUnsignedInteger_of_luaInteger hmonth
  have h₅ : number (s.balanceArgs ++ rest) 5 = _ := parseSafeUnsignedInteger_of_luaInteger hun
  have h₆ : number (s.balanceArgs ++ rest) 6 = some 0 :=
    show parseSafeUnsignedInteger (some ['0']) = some 0 by decide
  have hweek : luaInteger (s.windowId .week) = true → (weekArg (s.balanceArgs ++ rest)).isSome :=
    fun h => isSome_iff_exists.2 ⟨_, parseSafeUnsignedInteger_of_luaInteger h⟩
  obtain ⟨daily, h₂⟩ := validDecimal_normalizes hdaily
  obtain ⟨monthly, h₄⟩ := validDecimal_normalizes hmonthly
  have h₉ : ¬ (arg (s.balanceArgs ++ rest) 9 ≠ [] ∧
      (weekArg (s.balanceArgs ++ rest) = none ∨ weeklyArg (s.balanceArgs ++ rest) = none)) := by
    rintro ⟨hne, hnone⟩
    obtain ⟨hid, hvalid⟩ := hweekly hne
    obtain ⟨weekly, hw⟩ := validDecimal_normalizes hvalid
    rcases hnone with hnone | hnone
    · simpa [hnone] using hweek hid
    · rw [weeklyArg_eq] at hnone
      cases hw.symm.trans hnone
  have h₇ : ¬ (arg (s.balanceArgs ++ rest) 7 ≠ [] ∧
      validLease (arg (s.balanceArgs ++ rest) 7) = false) := by
    rintro ⟨hne, hinvalid⟩
    change s.requestId.elim [] canonicalUuid ≠ [] at hne
    change validLease (s.requestId.elim [] canonicalUuid) = false at hinvalid
    cases hid : s.requestId with
    | none => simp [hid] at hne
    | some id => simp [hid, validLease_canonicalUuid] at hinvalid
  have h₂' : normalizeDecimal (some (arg (s.balanceArgs ++ rest) 2)) = some daily := h₂
  have h₄' : normalizeDecimal (some (arg (s.balanceArgs ++ rest) 4)) = some monthly := h₄
  rw [parseSnapshot, if_neg h₉, h₁, h₂', h₃, h₄', h₅, h₆]
  dsimp only
  rw [if_neg h₇]
  refine ⟨_, rfl, rfl, fun p hp => ?_⟩
  cases p with
  | day | month => rfl
  | week => exact hweek hp

theorem CostSnapshot.parseProjection_of_args {e : DebitProjection} (h15 : s.balanceArgs.length = 15)
    (hversion : luaInteger e.version = true) (hamount : validDecimal e.amount = true) :
    ∃ pr, parseProjection (s.balanceArgs ++ e.args) = some pr ∧
      e.stale σ = staleProjection σ pr := by
  obtain ⟨amount, hnorm⟩ := validDecimal_normalizes hamount
  have harg (i : Nat) : arg (s.balanceArgs ++ e.args) (16 + i) = e.args.getD i [] := by
    rw [arg, List.getD_eq_getElem?_getD, List.getElem?_append_right (by omega),
      List.getD_eq_getElem?_getD]
    congr 2
    omega
  have hnumber : number (s.balanceArgs ++ e.args) 16 = some e.version.toNat := by
    rw [number, harg 0]
    exact parseSafeUnsignedInteger_of_luaInteger hversion
  have hamount' : normalizeDecimal (some (arg (s.balanceArgs ++ e.args) 17)) = some amount := by
    rw [harg 1]
    exact hnorm
  refine ⟨⟨_, _, amount, _⟩, ?_, by rw [DebitProjection.stale, hnorm]; rfl⟩
  rw [parseProjection, hnumber, hamount', harg 0, harg 2]
  cases hb : e.blocked <;> simp [DebitProjection.args, hb]

/-- A snapshot that `ApplyCostSnapshot` sends is accepted, unless its projection is stale. -/
theorem CostSnapshot.plan_of_validate (hcall : s.call = some (keys, argv)) (hspread : s.Spread)
    (hclock : σ.micros / 1000000 ≤ 9007199254739)
    (hstale : s.durable.any (·.stale σ) = false) :
    ∃ plan, planReconcile keys argv σ = .ok plan := by
  obtain ⟨hv, rest, rfl, hkeys⟩ := s.call_eq_some hcall
  have hlen := s.balanceArgs_length
  obtain ⟨d, hproj⟩ : ∃ d, projectionArg σ keys (s.balanceArgs ++ rest) = some d := by
    rcases hkeys with ⟨-, rfl, -⟩ | ⟨rfl, h15, e, he, rfl, hversion, hamount⟩
    · exact ⟨none, rfl⟩
    · obtain ⟨pr, hparse, hfresh⟩ := s.parseProjection_of_args h15 hversion hamount
      rw [he, any_some, hfresh] at hstale
      exact ⟨some pr, by rw [projectionArg, if_pos rfl, hparse]; exact if_neg (by simp [hstale])⟩
  obtain ⟨parsed, hparsed, hoverride, hwindow⟩ := s.parseSnapshot_of_validate hv rest
  have htime : currentTime parsed.override σ.micros = some σ.now := by
    rw [hoverride, currentTime, if_neg (by decide), if_neg (by unfold maxSafeInteger; omega)]
    exact congrArg some (by unfold Server.now; omega)
  have httl (p : Period) : 0 < (windowAt σ.now p).ttl :=
    (BudgetCalendar.windowAt_period σ.now p).2.1
  -- each window is the script's own, or one of the snapshot's that takes a millisecond
  have hinterval (p : Period) : ∃ i, interval σ (s.balanceArgs ++ rest) σ.now p (parsed.window p)
      (windowAt σ.now p) = some i := by
    unfold interval
    by_cases hz : s.starts .day = zeroTime
    · rw [if_pos hz] at hlen
      have hrest : rest = [] := hkeys.elim (·.2.2) fun h => by omega
      rw [if_pos (by simp [hlen, hrest])]
      exact ⟨_, rfl⟩
    · obtain ⟨hweek, hlt⟩ := hspread hz
      obtain ⟨h₁, h₂⟩ := s.number_bounds hz rest p
      simp only [CostSnapshot.validate, decide_eq_true_eq, List.all_eq_true] at hv
      obtain ⟨hday, hmonth, -, -, -, -, hall⟩ := hv
      have hb := hall (by simp [periods, hz]) p (mem_periods p)
      simp only [validBounds, decide_eq_true_eq] at hb
      have hp : luaInteger (s.windowId p) = true := by cases p <;> assumption
      obtain ⟨window, hw⟩ := isSome_iff_exists.1 (hwindow p hp)
      have hlt := hlt p
      have hfirst := @parseSafeUnsignedInteger_of_luaInteger (unixMilli (s.starts p))
        (by simp only [luaInteger, decide_eq_true_eq]; omega)
      have hlast := @parseSafeUnsignedInteger_of_luaInteger (unixMilli (s.ends p))
        (by simp only [luaInteger, decide_eq_true_eq]; omega)
      rw [if_neg (by simp [hlen, hz]), h₁, h₂, hfirst, hlast, hw]
      dsimp only
      rw [if_neg (by omega)]
      exact ⟨_, rfl⟩
  obtain ⟨day, hday⟩ := hinterval .day
  obtain ⟨month, hmonth⟩ := hinterval .month
  obtain ⟨week, hweek⟩ := hinterval .week
  have hshape : (keys = 4 ∧ (s.balanceArgs ++ rest).length = 7) ∨
      (keys = 5 ∧ ((s.balanceArgs ++ rest).length = 9 ∨ (s.balanceArgs ++ rest).length = 15)) ∨
      (keys = 6 ∧ (s.balanceArgs ++ rest).length = 18) := by
    rw [List.length_append, hlen]
    rcases hkeys with ⟨-, rfl, rfl⟩ | ⟨rfl, h15, e, -, rfl, -⟩
    · split <;> simp
    · rw [← hlen, h15]
      simp [DebitProjection.args]
  have hfive : 5 ≤ keys := by omega
  rw [planReconcile, if_neg (not_not.2 hshape), hproj, hparsed]
  dsimp only
  rw [htime]
  dsimp only
  have := httl .day
  have := httl .month
  rw [if_neg (by omega), intervals, if_pos hfive, hday, hmonth, hweek]
  exact ⟨_, rfl⟩

end Olp.Cost
