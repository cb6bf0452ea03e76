import Olp.Cost.Assess
import Olp.Cost.Snapshot
import Mathlib.Order.Lattice.Nat

/-!
# A balance through one window

A span is one window of an owner, bounded by the calendar that came with a snapshot or by
the calendar of the script.  `Balance` says what a balance comes to in a span, and that
nothing recorded with it stands in the way of snapshots of the span.  Time within the span
keeps it (`Balance.tick`), a snapshot of the span joins it (`Balance.install`), and others
leave it alone (`Planned.balanceAfter_of_not_current`, `Planned.balanceAfter_of_marked`).
`reserve_cost.lua` reads a balance that records its span as the spend it comes to
(`readState_of_marked`).
-/

namespace Olp.Cost

open Limits Valkey Option

/-! ## Spends and spans -/

abbrev Spend := WithBot (ℚ × ℕ)

/-- What a balance of a window comes to. -/
def standing (σ : Server CostKey) (p : Period) (window : Nat) : Spend :=
  match currentBalance σ p window with
  | none => ⊥
  | some (accrued, unpriced) => (((decimal? accrued).getD 0, unpriced) : ℚ × ℕ)

/-- What a snapshot says of a window; only months count unpriced attempts. -/
def CostSnapshot.spend (s : CostSnapshot) (p : Period) : Spend :=
  match decimal? (s.accrued p) with
  | none => ⊥
  | some q => ((q, if p = .month then s.unpricedAttempts.toNat else 0) : ℚ × ℕ)

/-- One window: its identifier and its end, with a start when it was bounded by the
calendar of a snapshot. -/
structure Span where
  id : Nat
  first : Option Nat
  last : Nat

/-- The instants of a span. -/
def Span.Current (f : Span) (p : Period) (nowMs : Nat) : Prop :=
  match f.first with
  | none => windowAt nowMs p = ⟨f.id, f.last - nowMs⟩ ∧ nowMs < f.last
  | some first => first ≤ nowMs ∧ nowMs < f.last

/-- The snapshot is of the span. -/
def CostSnapshot.names (s : CostSnapshot) (p : Period) (f : Span) : Bool :=
  s.windowId p = f.id ∧ s.bounds p = f.first.map fun first => ((first : Int), (f.last : Int))

/-- The snapshot's own window is the one at an instant. -/
def CostSnapshot.currentAt (s : CostSnapshot) (p : Period) (nowMs : Nat) : Bool :=
  match s.bounds p with
  | none => s.windowId p = (windowAt nowMs p).id
  | some (a, b) => a ≤ nowMs ∧ nowMs < b

/-! ## The invariant -/

/-- Nothing recorded with a balance stands in the way of a span. -/
def Free (σ : Server CostKey) (p : Period) (f : Span) : Prop :=
  ∀ h, σ.hash? (balanceKey p) = .ok h →
    match f.first with
    | none => h.lookup startsField = none ∧ h.lookup endsField = none
    | some first => ∀ a b, parseSafeUnsignedInteger (h.lookup startsField) = some a →
        parseSafeUnsignedInteger (h.lookup endsField) = some b →
        b ≤ σ.now ∨ a = first ∧ b = f.last ∧
          parseSafeUnsignedInteger (h.lookup windowField) = some f.id

/-- A balance that records the span. -/
def Marked (σ : Server CostKey) (p : Period) (f : Span) : Prop :=
  ∃ h, σ.hash? (balanceKey p) = .ok h ∧
    parseSafeUnsignedInteger (h.lookup windowField) = some f.id ∧
    match f.first with
    | none => h.lookup startsField = none ∧ h.lookup endsField = none
    | some first => parseSafeUnsignedInteger (h.lookup startsField) = some first ∧
        parseSafeUnsignedInteger (h.lookup endsField) = some f.last

/-- A balance at the start of a run of deliveries: what it comes to in the span, and that
it is free for it, lasts as long and holds an amount. -/
structure Balance (σ : Server CostKey) (p : Period) (f : Span) (v : Spend) : Prop where
  standing : standing σ p f.id = v
  free : Free σ p f
  lasts : v ≠ ⊥ → ∀ e d, σ.store (balanceKey p) = some e → e.deadline = some d → f.last ≤ d
  amount : v ≠ ⊥ →
    (parseAmount ((σ.hash? (balanceKey p)).toOption.bind (·.lookup accruedField))).isSome

variable {σ τ : Server CostKey} {p : Period} {f : Span} {v : Spend}

theorem Span.Current.lt {t : Nat} (h : f.Current p t) : t < f.last := by
  unfold Span.Current at h
  split at h
  · exact h.2
  · exact h.2

theorem standing_congr (h : τ.hash? (balanceKey p) = σ.hash? (balanceKey p)) (window : Nat) :
    standing τ p window = standing σ p window := by
  simp only [standing, currentBalance, h]

theorem standing_of_none (h : σ.store (balanceKey p) = none) (window : Nat) :
    standing σ p window = ⊥ := by
  have hh := Server.hash?_of_none h
  simp [standing, currentBalance, hh, parseSafeUnsignedInteger]

theorem exists_entry_of_standing {window : Nat} (h : standing σ p window ≠ ⊥) :
    ∃ e, σ.store (balanceKey p) = some e :=
  ne_none_iff_exists'.1 fun hnone => h (standing_of_none hnone window)

theorem Free.congr (hf : Free σ p f) (hh : τ.hash? (balanceKey p) = σ.hash? (balanceKey p))
    (hnow : σ.now ≤ τ.now) : Free τ p f := by
  intro h hok
  have := hf h (hh ▸ hok)
  split at this
  · exact this
  · intro a b ha hb
    rcases this a b ha hb with hle | heq
    · exact .inl (hle.trans hnow)
    · exact .inr heq

theorem free_of_none (h : σ.store (balanceKey p) = none) : Free σ p f := by
  intro fields hok
  cases (Server.hash?_of_none h).symm.trans hok
  split
  · exact ⟨rfl, rfl⟩
  · intro a b ha
    simp [parseSafeUnsignedInteger] at ha

theorem Balance.congr (hb : Balance σ p f v) (hs : τ.store (balanceKey p) = σ.store (balanceKey p))
    (hnow : σ.now ≤ τ.now) : Balance τ p f v where
  standing := (standing_congr (Server.hash?_congr hs) _).trans hb.standing
  free := hb.free.congr (Server.hash?_congr hs) hnow
  lasts hv e d he := hb.lasts hv e d (hs ▸ he)
  amount hv := by
    rw [Server.hash?_congr hs]
    exact hb.amount hv

theorem Marked.congr (hm : Marked σ p f) (hh : τ.hash? (balanceKey p) = σ.hash? (balanceKey p)) :
    Marked τ p f := by
  obtain ⟨h, hok, hrest⟩ := hm
  exact ⟨h, hh.trans hok, hrest⟩

theorem Marked.free (hm : Marked σ p f) : Free σ p f := by
  obtain ⟨h, hok, hid, hmarks⟩ := hm
  intro fields hfields
  cases hok.symm.trans hfields
  split at hmarks
  · exact hmarks
  · intro a b ha hb
    cases ha.symm.trans hmarks.1
    cases hb.symm.trans hmarks.2
    exact .inr ⟨rfl, rfl, hid⟩

/-- A balance that comes to something outlives the span; time changes nothing about one
that does not. -/
theorem Balance.tick (hb : Balance σ p f v) {t : Nat} (ht : σ.micros ≤ t)
    (hf : f.Current p (t / 1000)) :
    Balance (σ.tick t) p f v ∧
      (v ≠ ⊥ → (σ.tick t).store (balanceKey p) = σ.store (balanceKey p)) := by
  have hnow : σ.now ≤ (σ.tick t).now := Nat.div_le_div_right ht
  have hkeep : v ≠ ⊥ → (σ.tick t).store (balanceKey p) = σ.store (balanceKey p) := by
    intro hv
    obtain ⟨e, he⟩ := exists_entry_of_standing (hb.standing ▸ hv)
    rw [Server.tick_store, he, bind_some, Entry.tick]
    split
    · rfl
    · rename_i d hd
      have := hb.lasts hv e d he hd
      rw [if_pos (by have := hf.lt; omega)]
  refine ⟨?_, hkeep⟩
  rcases σ.tick_store_cases t (balanceKey p) with hnone | hsame
  · have hv : v = ⊥ := by
      by_contra hv
      obtain ⟨e, he⟩ := exists_entry_of_standing (hb.standing ▸ hv)
      rw [hkeep hv, he] at hnone
      simp at hnone
    exact ⟨by rw [standing_of_none hnone, hv], free_of_none hnone, fun h => absurd hv h,
      fun h => absurd hv h⟩
  · exact hb.congr hsame hnow

/-! ## One delivery -/

variable {parsed : Snapshot} {s : CostSnapshot} {i : Period → Interval} {h : Hash} {unpriced : Nat}

/-- A snapshot of the span finds its interval active. -/
theorem CostSnapshot.Planned.interval_of_names (hp : s.Planned σ parsed i) (hn : s.names p f = true)
    (hcur : f.Current p σ.now) (hfree : Free σ p f) (hacc : (parsed.accrued p).isSome) :
    parsed.window p = some f.id ∧
      i p = ⟨f.id, f.last - σ.now, true, f.first.map fun first => (first, f.last)⟩ ∧
      ∀ first, f.first = some first → first ≤ maxSafeInteger ∧ f.last ≤ maxSafeInteger := by
  obtain ⟨n, hwindow⟩ := isSome_iff_exists.1 (hp.windowed p hacc)
  simp only [CostSnapshot.names, decide_eq_true_eq] at hn
  obtain ⟨hid, hbounds⟩ := hn
  obtain rfl : n = f.id := by exact_mod_cast (hp.window p n hwindow).symm.trans hid
  refine ⟨hwindow, ?_⟩
  unfold Span.Current at hcur
  unfold Free at hfree
  cases hb : s.bounds p with
  | none =>
    cases hfirst : f.first with
    | some first => simp [hb, hfirst] at hbounds
    | none =>
      simp only [hfirst] at hcur hfree
      have hun : unbounded σ p = true := by
        unfold unbounded
        split
        · rfl
        · rename_i h hok
          simp [(hfree h hok).1]
      rw [hp.calendar p hb, hcur.1, hun]
      exact ⟨rfl, by simp⟩
  | some bounds =>
    obtain ⟨a, b⟩ := bounds
    cases hfirst : f.first with
    | none => simp [hb, hfirst] at hbounds
    | some first =>
      simp only [hfirst] at hcur hfree
      obtain ⟨first', last, window, rfl, rfl, hmax, hmax', hw, hi⟩ := hp.bounds p a b hb
      obtain ⟨rfl, rfl⟩ : first' = first ∧ last = f.last := by
        simpa [hb, hfirst] using hbounds
      cases hw.symm.trans hwindow
      have hother : otherInterval σ p σ.now first' f.last (some f.id) = false := by
        unfold otherInterval
        split
        · rfl
        · rename_i h hok
          split
          · rename_i a b ha hb'
            rcases hfree h hok a b ha hb' with hle | ⟨rfl, rfl, hid'⟩
            · simp only [decide_eq_false_iff_not]
              omega
            · simp [hid']
          · rfl
      rw [hi]
      exact ⟨by simp [hother, hcur], fun n hn => by cases hn; exact ⟨hmax, hmax'⟩⟩

theorem CostSnapshot.Planned.balanceAfter_of_not_current (hp : s.Planned σ parsed i)
    (hn : s.currentAt p σ.now = false) :
    balanceAfter σ p (i p) (parsed.window p) (parsed.accrued p) parsed.unpriced
      = σ.store (balanceKey p) := by
  unfold balanceAfter
  split
  · rfl
  · rw [if_neg]
    rintro ⟨hactive, hwindow⟩
    unfold CostSnapshot.currentAt at hn
    cases hb : s.bounds p with
    | none =>
      rw [hp.calendar p hb] at hwindow
      have := hp.window p _ hwindow
      simp [hb, this] at hn
    | some bounds =>
      obtain ⟨a, b⟩ := bounds
      obtain ⟨first, last, window, rfl, rfl, -, -, -, hi⟩ := hp.bounds p a b hb
      rw [hi] at hactive
      simp only [decide_eq_true_eq] at hactive
      simp only [hb, decide_eq_false_iff_not] at hn
      omega

theorem CostSnapshot.Planned.balanceAfter_of_marked (hp : s.Planned σ parsed i) (hm : Marked σ p f)
    (hfirst : f.first ≠ none) (hcur : f.Current p σ.now) (hn : s.names p f = false) :
    balanceAfter σ p (i p) (parsed.window p) (parsed.accrued p) parsed.unpriced
      = σ.store (balanceKey p) := by
  obtain ⟨first, hfirst⟩ := ne_none_iff_exists'.1 hfirst
  obtain ⟨h, hok, hid, hmarks⟩ := hm
  unfold Span.Current at hcur
  simp only [hfirst] at hmarks hcur
  unfold balanceAfter
  split
  · rfl
  · rw [if_neg]
    rintro ⟨hactive, hwindow⟩
    cases hb : s.bounds p with
    | none =>
      rw [hp.calendar p hb] at hactive
      have hnone : h.lookup startsField = none := by simpa [unbounded, hok] using hactive
      simp [hnone, parseSafeUnsignedInteger] at hmarks
    | some bounds =>
      obtain ⟨a, b⟩ := bounds
      obtain ⟨first', last, window, rfl, rfl, -, -, hw, hi⟩ := hp.bounds p a b hb
      rw [hi] at hactive
      simp only [otherInterval, hok, hmarks.1, hmarks.2, hid, decide_eq_true_eq] at hactive
      have hwid := hp.window p window hw
      have hne : ¬ (first' = first ∧ last = f.last ∧ window = f.id) := by
        rintro ⟨rfl, rfl, rfl⟩
        simp [CostSnapshot.names, hb, hfirst, hwid] at hn
      grind

section Installed

variable {i : Interval} {accrued : Text}

theorem lookup_installed_accrued :
    (installed σ p i accrued unpriced h).lookup accruedField
      = match currentBalance σ p i.window with
        | none => some accrued
        | some (current, _) =>
          if (compareDecimal (some current) (some accrued)).any (· < 0) then some accrued
          else h.lookup accruedField := by
  rw [installed, lookup_bounded (by decide) (by decide)]
  cases currentBalance σ p i.window with
  | none => cases p <;> simp [raised, Hash.setAll, show accruedField ≠ unpricedField by decide]
  | some current =>
    simp only [raised]
    split <;> split <;> simp [Hash.setAll, show accruedField ≠ unpricedField by decide]

theorem lookup_installed_unpriced :
    (installed σ .month i accrued unpriced h).lookup unpricedField
      = match currentBalance σ .month i.window with
        | none => some (Text.ofNat unpriced)
        | some (_, current) =>
          if current < unpriced then some (Text.ofNat unpriced) else h.lookup unpricedField := by
  rw [installed, lookup_bounded (by decide) (by decide)]
  cases currentBalance σ .month i.window with
  | none => simp [raised, Hash.setAll]
  | some current =>
    simp only [raised, true_and]
    split <;> split <;> simp [Hash.setAll, show unpricedField ≠ accruedField by decide]

theorem lookup_installed_bounds {first last : Nat} (hi : i.bounds = some (first, last)) :
    (installed σ p i accrued unpriced h).lookup startsField = some (Text.ofNat first) ∧
      (installed σ p i accrued unpriced h).lookup endsField = some (Text.ofNat last) := by
  simp [installed, bounded, hi, Hash.setAll, show startsField ≠ endsField by decide]

theorem lookup_installed_other (hi : i.bounds = none) {field : Text} (hw : field ≠ windowField)
    (ha : field ≠ accruedField) (hu : field ≠ unpricedField) (hh : h.lookup field = none) :
    (installed σ p i accrued unpriced h).lookup field = none := by
  rw [installed, hi, bounded]
  cases currentBalance σ p i.window with
  | none => cases p <;> simp [raised, Hash.setAll, hw, ha, hu]
  | some current =>
    simp only [raised]
    split <;> split <;> simp [Hash.setAll, ha, hu, hh]

end Installed

theorem normalizeDecimal_value {raw t : Text} (h : normalizeDecimal (some raw) = some t) :
    ∃ q, decimal? raw = some q ∧ decimal? t = some q ∧ t.length ≤ 96 := by
  obtain ⟨whole, fraction, hp, hlen, -, hle, -⟩ := normalizeDecimal_eq_some h
  have hq : decimal? raw = some (Text.rat whole fraction) := by rw [decimal?, hp]; rfl
  exact ⟨_, hq, (decimal?_of_normalizeDecimal h).trans hq, hle.trans hlen⟩

theorem currentBalance_of_fields {window : Nat} {accrued : Text}
    (hh : σ.hash? (balanceKey p) = .ok h)
    (hw : parseSafeUnsignedInteger (h.lookup windowField) = some window)
    (ha : normalizeDecimal (h.lookup accruedField) = some accrued)
    (hu : p = .month → parseSafeUnsignedInteger (h.lookup unpricedField) = some unpriced) :
    currentBalance σ p window = some (accrued, if p = .month then unpriced else 0) := by
  unfold currentBalance
  simp only [hh, hw, ha]
  by_cases hp : p = .month
  · simp [hp, hu hp]
  · simp [hp]

variable {q : ℚ}

/-- The spend and the marker of a balance that a snapshot was installed in: the larger of
each. -/
theorem standing_installed {i : Interval} {text : Text}
    (hh : σ.hash? (balanceKey p) = .ok h ∨ currentBalance σ p i.window = none)
    (hi : i.window ≤ maxSafeInteger) (hidem : normalizeDecimal (some text) = some text)
    (hq : decimal? text = some q) (hun : unpriced ≤ maxSafeInteger)
    (hτ : τ.hash? (balanceKey p) = .ok (installed σ p i text unpriced h)) :
    standing τ p i.window
      = standing σ p i.window ⊔ (((q, if p = .month then unpriced else 0) : ℚ × ℕ) : Spend) := by
  have hw := lookup_installed_window text unpriced hh hi
  have hofNat : parseSafeUnsignedInteger (some (Text.ofNat unpriced)) = some unpriced := by
    rw [parseSafeUnsignedInteger_eq, safeInteger_ofNat hun]
  cases hc : currentBalance σ p i.window with
  | none =>
    have ha : normalizeDecimal ((installed σ p i text unpriced h).lookup accruedField)
        = some text := by
      rw [lookup_installed_accrued, hc]
      exact hidem
    have hu : p = .month → parseSafeUnsignedInteger
        ((installed σ p i text unpriced h).lookup unpricedField) = some unpriced := by
      rintro rfl
      rw [lookup_installed_unpriced, hc]
      exact hofNat
    simp [standing, currentBalance_of_fields hτ hw ha hu, hc, hq]
  | some current =>
    obtain ⟨cur, n⟩ := current
    obtain ⟨fields, raw, hfields, -, hraw, hnorm, hmonth, hother⟩ := currentBalance_eq_some hc
    obtain rfl : fields = h :=
      Except.ok.inj (hfields.symm.trans (hh.resolve_right (by simp [hc])))
    obtain ⟨q', -, hq', hlen'⟩ := normalizeDecimal_value hnorm
    obtain ⟨-, -, -, hlen⟩ := normalizeDecimal_value hidem
    have hcmp : (compareDecimal (some cur) (some text)).any (· < 0) = decide (q' < q) := by
      rw [compareDecimal_eq hlen' hlen hq' hq, any_some]
      rcases lt_trichotomy q' q with hlt | heq | hgt
      · simp [hlt]
      · simp [heq]
      · simp [hgt, hgt.not_gt]
    have ha : normalizeDecimal ((installed σ p i text unpriced fields).lookup accruedField)
        = some (if q' < q then text else cur) := by
      rw [lookup_installed_accrued, hc]
      dsimp only
      rw [hcmp]
      by_cases hlt : q' < q
      · simp [hlt, hidem]
      · simp [hlt, hraw, hnorm]
    have hu : p = .month → parseSafeUnsignedInteger
        ((installed σ p i text unpriced fields).lookup unpricedField) = some (max n unpriced) := by
      rintro rfl
      rw [lookup_installed_unpriced, hc]
      dsimp only
      by_cases hlt : n < unpriced
      · rw [if_pos hlt, hofNat, max_eq_right hlt.le]
      · rw [if_neg hlt, hmonth rfl, max_eq_left (Nat.not_lt.1 hlt)]
    have hspend : (decimal? (if q' < q then text else cur)).getD 0 = max q' q := by
      by_cases hlt : q' < q
      · simp [hlt, hq, max_eq_right hlt.le]
      · simp [hlt, hq', max_eq_left (not_lt.1 hlt)]
    have hmark : (if p = .month then max n unpriced else 0)
        = max n (if p = .month then unpriced else 0) := by
      by_cases hp : p = .month
      · simp [hp]
      · have hn : n = 0 := hother hp
        simp [hp, hn]
    simp only [standing, currentBalance_of_fields hτ hw ha hu, hc, hspend, hmark, hq',
      getD_some, ← WithBot.coe_sup]
    rfl

/-- A snapshot of the span, once installed: the balance is the larger of what it came to
and of the snapshot, whatever other span it recorded. -/
theorem balance_installed {i : Interval} {raw text : Text} (hfree : f.first = none → Free σ p f)
    (hamount : standing σ p f.id ≠ ⊥ →
      (parseAmount ((σ.hash? (balanceKey p)).toOption.bind (·.lookup accruedField))).isSome)
    (hi : i = ⟨f.id, f.last - σ.now, true, f.first.map fun a => (a, f.last)⟩)
    (hid : f.id ≤ maxSafeInteger)
    (hbounds : ∀ a, f.first = some a → a ≤ maxSafeInteger ∧ f.last ≤ maxSafeInteger)
    (hraw : normalizeDecimal (some raw) = some text) (hq : decimal? raw = some q)
    (hvalid : validDecimal raw = true) (hun : unpriced ≤ maxSafeInteger) (hlt : σ.now < f.last)
    (hstore : τ.store (balanceKey p) = some ⟨.hash (installed σ p i text unpriced
      ((σ.hash? (balanceKey p)).toOption.getD ∅)), some (σ.now + i.ttl)⟩) :
    Balance τ p f
      (standing σ p f.id ⊔ (((q, if p = .month then unpriced else 0) : ℚ × ℕ) : Spend)) ∧
      Marked τ p f := by
  set h := (σ.hash? (balanceKey p)).toOption.getD ∅ with hh
  have hwin : i.window = f.id := by rw [hi]
  have hdec : decimal? text = some q := (decimal?_of_normalizeDecimal hraw).trans hq
  have hτ : τ.hash? (balanceKey p) = .ok (installed σ p i text unpriced h) :=
    Server.hash?_of_hash hstore
  have hcur : σ.hash? (balanceKey p) = .ok h ∨ currentBalance σ p i.window = none := by
    cases hc : σ.hash? (balanceKey p) with
    | ok fields => exact .inl (by rw [hh, hc]; rfl)
    | error e => exact .inr (by simp [currentBalance, hc])
  have hmarked : Marked τ p f := by
    refine ⟨_, hτ, hwin ▸ lookup_installed_window text unpriced hcur (hwin ▸ hid), ?_⟩
    split
    · rename_i hfirst
      have hno : h.lookup startsField = none ∧ h.lookup endsField = none := by
        cases hc : σ.hash? (balanceKey p) with
        | error e => simp [hh, hc, Except.toOption]
        | ok fields =>
          have := hfree hfirst fields hc
          rw [hfirst] at this
          simpa [hh, hc, Except.toOption] using this
      have hi' : i.bounds = none := by rw [hi, hfirst]; rfl
      exact ⟨lookup_installed_other hi' (by decide) (by decide) (by decide) hno.1,
        lookup_installed_other hi' (by decide) (by decide) (by decide) hno.2⟩
    · rename_i first hfirst
      obtain ⟨h₁, h₂⟩ := hbounds first hfirst
      have hi' : i.bounds = some (first, f.last) := by rw [hi, hfirst]; rfl
      obtain ⟨hs, he⟩ := lookup_installed_bounds (σ := σ) (p := p) (h := h) hi'
      rw [hs, he, parseSafeUnsignedInteger_eq, parseSafeUnsignedInteger_eq, safeInteger_ofNat h₁,
        safeInteger_ofNat h₂]
      exact ⟨rfl, rfl⟩
  refine ⟨⟨?_, ?_, ?_, ?_⟩, hmarked⟩
  · rw [← hwin]
    exact standing_installed hcur (hwin ▸ hid) (normalizeDecimal_idem hraw) hdec hun hτ
  · exact hmarked.free
  · intro _ e d he hd
    rw [hstore] at he
    cases he
    obtain rfl : σ.now + i.ttl = d := by simpa using hd
    rw [hi]
    dsimp only
    omega
  · intro _
    have hnew : (parseAmount (some text)).isSome := by
      obtain ⟨whole, fraction, hplain, -, hlen⟩ := validDecimal_eq_true hvalid
      obtain ⟨whole', fraction', hplain', -, -, -, htext⟩ := normalizeDecimal_eq_some hraw
      obtain ⟨rfl, rfl⟩ : whole' = whole ∧ fraction' = fraction := by
        simpa using hplain'.symm.trans hplain
      exact parseAmount_isSome htext ((Text.length_trimTrailing_le _).trans hlen)
    rw [hτ]
    change (parseAmount ((installed σ p i text unpriced h).lookup accruedField)).isSome
    rw [lookup_installed_accrued]
    cases hc : currentBalance σ p i.window with
    | none => exact hnew
    | some current =>
      obtain ⟨fields, -, hfields, -⟩ := currentBalance_eq_some hc
      have hold := hamount (by simp [standing, ← hwin, hc])
      rw [hfields] at hold
      have hheq : h = fields := by rw [hh, hfields]; rfl
      dsimp only
      split
      · exact hnew
      · rw [hheq]
        exact hold

/-! ## What a reservation reads -/

theorem readWindow_current {a : Amount} {w : Window} (ttl : Nat)
    (hid : parseSafeUnsignedInteger (h.lookup windowField) = some w.id)
    (ha : parseAmount (h.lookup accruedField) = some a)
    (hu : p = .month → (parseSafeUnsignedInteger (h.lookup unpricedField)).isSome) :
    readWindow h p w ttl = some ⟨.current, a, w⟩ := by
  have hno : ¬ (p = .month ∧ parseSafeUnsignedInteger (h.lookup unpricedField) = none) := by
    rintro ⟨hp, hnone⟩
    simpa [hnone] using hu hp
  simp [readWindow, hid, ha, hno]

/-- A balance that records a current span and comes to something is read as its spend, cut
at the largest amount. -/
theorem readState_of_marked (hb : Balance σ p f v) (hm : Marked σ p f) (hcur : f.Current p σ.now)
    {n : ℕ} (hv : v = ((q, n) : ℚ × ℕ)) :
    ∃ rd, readState σ p (windowAt σ.now p) σ.now = some rd ∧ rd.state = .current ∧
      rd.window.id = f.id ∧ (rd.spent.units : ℚ) = min (q * 10 ^ scale) Amount.capUnits := by
  obtain ⟨h, hok, hid, hmarks⟩ := hm
  have hamount := hb.amount (by rw [hv]; exact WithBot.coe_ne_bot)
  rw [hok] at hamount
  obtain ⟨a, ha⟩ := isSome_iff_exists.1 hamount
  change parseAmount (h.lookup accruedField) = some a at ha
  -- the balance that the snapshots see
  obtain ⟨current, hc⟩ : ∃ c, currentBalance σ p f.id = some c := by
    refine ne_none_iff_exists'.1 fun hnone => ?_
    have := hb.standing
    simp [standing, hnone, hv] at this
  obtain ⟨fields, raw, hfields, -, hraw, hnorm, hmonth, -⟩ := currentBalance_eq_some hc
  obtain rfl : fields = h := Except.ok.inj (hfields.symm.trans hok)
  have hunits : (a.units : ℚ) = min (q * 10 ^ scale) Amount.capUnits := by
    rw [hraw] at ha
    obtain ⟨q', hq', hu⟩ := units_parseAmount ha
    obtain ⟨q'', hq'', hval, -⟩ := normalizeDecimal_value hnorm
    have hspend : q'' = q := by
      have := hb.standing
      simp only [standing, hc, hv, hval, getD_some, WithBot.coe_inj, Prod.mk.injEq] at this
      exact this.1
    rw [hu, ← hspend, some.inj (hq'.symm.trans hq'')]
  have hpriced : p = .month → (parseSafeUnsignedInteger (fields.lookup unpricedField)).isSome :=
    fun hp => by rw [hmonth hp]; rfl
  -- all the fields are there
  have hsome : ∀ {field : Text} {m : Nat},
      parseSafeUnsignedInteger (fields.lookup field) = some m → (fields.lookup field).isSome := by
    intro field m hm
    cases hl : fields.lookup field with
    | none => simp [hl, parseSafeUnsignedInteger] at hm
    | some t => rfl
  have hpresent : (balanceFields p).countP (fun f => (fields.lookup f).isSome)
      = (balanceFields p).length := by
    rw [List.countP_eq_length]
    intro field hfield
    have : field = windowField ∨ field = accruedField ∨ p = .month ∧ field = unpricedField := by
      cases p <;> simpa [balanceFields] using hfield
    rcases this with rfl | rfl | ⟨hp, rfl⟩
    · exact hsome hid
    · rw [hraw]
      rfl
    · exact hsome (hmonth hp)
  have hne : (balanceFields p).length ≠ 0 := by cases p <;> simp [balanceFields]
  unfold Span.Current at hcur
  unfold readState
  rw [hok]
  dsimp only
  rw [hpresent, if_neg hne, if_neg (by simp)]
  cases hfirst : f.first with
  | none =>
    simp only [hfirst] at hmarks hcur
    rw [hmarks.1, hmarks.2]
    rw [hcur.1]
    exact ⟨_, readWindow_current _ hid ha hpriced, rfl, rfl, hunits⟩
  | some first =>
    simp only [hfirst] at hmarks hcur
    have hs := hsome hmarks.1
    obtain ⟨t, ht⟩ := isSome_iff_exists.1 hs
    rw [ht] at hmarks ⊢
    dsimp only
    rw [hmarks.1, hmarks.2]
    dsimp only
    rw [if_neg (by omega), if_neg (by omega), hid, bind_some]
    exact ⟨_, readWindow_current _ hid ha hpriced, rfl, rfl, hunits⟩

end Olp.Cost
