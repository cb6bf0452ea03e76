import Olp.Limits.Calendar
import Olp.Pricing.Accepted

/-!
# Project limit templates

Keys, budget groups and end-user policies may refer to a template of their project.
`BindLimitTemplates` replaces the limits of each by the lesser of its own and the template's, in
every dimension.  The cost basis is no dimension: one that is stated inline stays.
-/

namespace Olp.Access

open List Limits Pricing

inductive Count
  | requestsPerMinute
  | maxConcurrency
  | tokensPerMinute
deriving DecidableEq, Repr

def Count.field : Count → String
  | .requestsPerMinute => "requests_per_minute"
  | .maxConcurrency => "max_concurrency"
  | .tokensPerMinute => "tokens_per_minute"

def Count.bound : Count → ℤ
  | .tokensPerMinute => 9007199254740991
  | _ => 2147483647

/-- `ValidRequestLimit`, `ValidTokenLimit`. -/
def Count.valid (c : Count) (limit : Option ℤ) : Bool := limit.all fun n => 0 < n ∧ n ≤ c.bound

/-- `AdmissionLimits`: a dimension without a limit is unlimited. -/
structure AdmissionLimits where
  count : Count → Option ℤ
  cost : Period → Option Text
  costBasis : Text

def costField : Period → String
  | .day => "daily_cost_limit"
  | .month => "monthly_cost_limit"
  | .week => "weekly_cost_limit"

/-- `unicode.IsSpace`. -/
def isSpace (c : Char) : Bool :=
  c.toNat ∈ [9, 10, 11, 12, 13, 32, 0x85, 0xa0, 0x1680, 0x2028, 0x2029, 0x202f, 0x205f, 0x3000] ∨
    0x2000 ≤ c.toNat ∧ c.toNat ≤ 0x200a

/-- `strings.TrimSpace`. -/
def trimSpace (t : Text) : Text := ((t.dropWhile isSpace).reverse.dropWhile isSpace).reverse

def positiveAmount (amount : Text) : Bool :=
  validAmount amount && amount.any ("123456789".toList.contains ·)

/-- The field that is refused and why. -/
abbrev Refusal := String × String

namespace AdmissionLimits

def trimmed (l : AdmissionLimits) : AdmissionLimits :=
  { l with cost := fun p => (l.cost p).map trimSpace }

/-- `ValidateAndNormalize` on a copy; the fields of a kind are checked in no fixed order there. -/
def validateAndNormalize (l : AdmissionLimits) : Except Refusal AdmissionLimits := do
  [Count.requestsPerMinute, .maxConcurrency, .tokensPerMinute].forM fun c =>
    require (c.valid (l.count c) = true)
      (c.field, s!"Use a positive integer of at most {c.bound}.")
  require (l.costBasis = [] ∨ l.costBasis = "cost".toList ∨ l.costBasis = "charge".toList)
    ("cost_basis", "The cost basis must be \"cost\" or \"charge\".")
  periods.forM fun p => require ((l.trimmed.cost p).all positiveAmount = true) (costField p,
    "Use a positive decimal amount with at most 12 integer and 12 fractional digits.")
  pure l.trimmed

end AdmissionLimits

/-- The lesser of two limits, of which either may be missing. -/
def lesser {α β : Type} [LT β] [DecidableLT β] (value : α → β) : Option α → Option α → Option α
  | none, b => b
  | some a, none => some a
  | some a, some b => if value b < value a then some b else some a

/-- `intersectLimits`; `minimum` and `money` are `lesser` of the numbers and of the decimals. -/
def intersectLimits (a b : AdmissionLimits) : AdmissionLimits where
  count c := lesser id (a.count c) (b.count c)
  cost p := lesser numeric (a.cost p) (b.cost p)
  costBasis := if a.costBasis = [] then b.costBasis else a.costBasis

abbrev LimitTemplates := Text → Option AdmissionLimits

/-- `EndUserPolicy`, without the digests that are blocked. -/
structure EndUserPolicy where
  limitTemplate : Option Text
  defaults : AdmissionLimits
  overrides : List (Text × AdmissionLimits)

/-- What templates are bound to; `limitTemplate`, `policy` and `endUserPolicy` are the key's. -/
structure Authority where
  projectID : Option Text
  limitTemplate : Option Text
  policy : AdmissionLimits
  endUserPolicy : Option EndUserPolicy
  projectEndUserPolicy : Option EndUserPolicy
  budgetGroupTemplate : Option Text
  group : AdmissionLimits

namespace LimitTemplates

def resolve (t : LimitTemplates) (name : Option Text) (inline : AdmissionLimits) :
    Except Refusal AdmissionLimits :=
  match name with
  | none => .ok inline
  | some name =>
    match t name with
    | none =>
      .error ("limit_template", "The referenced template must exist in the same project.")
    | some base => do
      let inline ← inline.validateAndNormalize
      let base ← base.validateAndNormalize
      pure (intersectLimits inline base)

/-- `EndUser` -/
def endUser (t : LimitTemplates) : Option EndUserPolicy → Except Refusal (Option EndUserPolicy)
  | none => .ok none
  | some p =>
    if p.limitTemplate = none then .ok (some p)
    else do
      let defaults ← t.resolve p.limitTemplate p.defaults
      let overrides ← p.overrides.mapM fun o => (t.resolve p.limitTemplate o.2).map (o.1, ·)
      pure (some { p with defaults, overrides })

end LimitTemplates

namespace Authority

def usesLimitTemplates (a : Authority) : Bool :=
  a.limitTemplate.isSome || a.budgetGroupTemplate.isSome ||
    a.endUserPolicy.any (·.limitTemplate.isSome) ||
    a.projectEndUserPolicy.any (·.limitTemplate.isSome)

/-- `BindLimitTemplates`; an authority for which it fails is not used. -/
def bindLimitTemplates (a : Authority) (t : LimitTemplates) : Except Refusal Authority :=
  if a.usesLimitTemplates = false then .ok a
  else do
    require (a.projectID ≠ none) ("limit_template", "Templates require a project.")
    let policy ← t.resolve a.limitTemplate a.policy
    let endUserPolicy ← t.endUser a.endUserPolicy
    let projectEndUserPolicy ← t.endUser a.projectEndUserPolicy
    let group ← t.resolve a.budgetGroupTemplate a.group
    pure { a with policy, endUserPolicy, projectEndUserPolicy, group }

end Authority

/-! ## The lesser of two limits -/

section Lesser

variable {α β : Type} [LinearOrder β] {value : α → β} {a b : Option α} {x : α}

theorem lesser_of_both {P : Option α → Prop} (ha : P a) (hb : P b) : P (lesser value a b) := by
  fun_cases lesser value a b <;> assumption

theorem lesser_le_left (h : a = some x) : ∃ y, lesser value a b = some y ∧ value y ≤ value x := by
  fun_cases lesser value a b <;> simp_all [le_of_lt]

theorem lesser_le_right (h : b = some x) : ∃ y, lesser value a b = some y ∧ value y ≤ value x := by
  fun_cases lesser value a b <;> simp_all

theorem lesser_lesser (a b : Option α) : lesser value (lesser value a b) b = lesser value a b := by
  fun_cases lesser value a b <;> (try cases b) <;> simp_all [lesser]

end Lesser

/-! ## Valid limits -/

theorem trimSpace_trimSpace (v : Text) : trimSpace (trimSpace v) = trimSpace v := by
  -- what is left starts as the text without its leading space does
  have hstart : trimSpace v <+: v.dropWhile isSpace := by
    rw [trimSpace, ← reverse_suffix, reverse_reverse]
    exact dropWhile_suffix _
  have hlead : (trimSpace v).dropWhile isSpace = trimSpace v := by
    cases htrim : trimSpace v with
    | nil => rfl
    | cons c w =>
      obtain ⟨u, hu⟩ := htrim ▸ hstart
      have hc := head?_dropWhile_not isSpace v
      rw [← hu] at hc
      exact dropWhile_cons_of_neg (by simpa using hc)
  rw [trimSpace, hlead, trimSpace, reverse_reverse, dropWhile_idempotent]

namespace AdmissionLimits

variable {l l' : AdmissionLimits}

/-- Limits that validation accepts and leaves as they are. -/
structure Normal (l : AdmissionLimits) : Prop where
  count : ∀ c : Count, c.valid (l.count c) = true
  basis : l.costBasis = [] ∨ l.costBasis = "cost".toList ∨ l.costBasis = "charge".toList
  cost : ∀ p, (l.cost p).all positiveAmount = true ∧ (l.cost p).map trimSpace = l.cost p

theorem normal_of_validate (h : l.validateAndNormalize = .ok l') : l'.Normal ∧ l.trimmed = l' := by
  simp only [validateAndNormalize, periods, List.forM, bind_eq_ok, require_eq_ok, pure_eq_ok,
    exists_const] at h
  obtain ⟨⟨hrequests, hconcurrency, htokens, -⟩, hbasis, ⟨hday, hmonth, hweek, -⟩, rfl⟩ := h
  refine ⟨⟨by rintro (_ | _ | _) <;> assumption, hbasis, fun p => ⟨?_, ?_⟩⟩, rfl⟩
  · cases p <;> assumption
  · simp [trimmed, Function.comp_def, trimSpace_trimSpace]

theorem Normal.validate (h : l.Normal) : l.validateAndNormalize = .ok l := by
  have htrimmed : l.trimmed = l := by rw [trimmed, funext fun p => (h.cost p).2]
  simp only [validateAndNormalize, periods, List.forM, bind_eq_ok, require_eq_ok, pure_eq_ok,
    exists_const, htrimmed, h.count, h.basis, h.cost, and_self]

theorem Normal.intersect (h : l.Normal) (h' : l'.Normal) : (intersectLimits l l').Normal where
  count c := lesser_of_both (P := (c.valid · = true)) (h.count c) (h'.count c)
  basis := by
    rw [intersectLimits]
    split
    · exact h'.basis
    · exact h.basis
  cost p := lesser_of_both (P := fun o => o.all positiveAmount = true ∧ o.map trimSpace = o)
    (h.cost p) (h'.cost p)

/-- No limit of `base` is missing or larger in `l`. -/
structure Within (l base : AdmissionLimits) : Prop where
  count : ∀ c n, base.count c = some n → ∃ m, l.count c = some m ∧ m ≤ n
  cost : ∀ p v, base.cost p = some v → ∃ w, l.cost p = some w ∧ numeric w ≤ numeric (trimSpace v)

end AdmissionLimits

namespace LimitTemplates

variable {t : LimitTemplates} {name : Option Text} {inline l : AdmissionLimits}

/-- What limits get at a boundary that may refer to a template. -/
def Binds (t : LimitTemplates) (name : Option Text) (inline l : AdmissionLimits) : Prop :=
  (name = none → l = inline) ∧ ∀ n, name = some n → ∃ base, t n = some base ∧ l.Within base ∧
    l.Within inline ∧
      l.costBasis = if inline.costBasis = [] then base.costBasis else inline.costBasis

/-- Resolved limits are bound to the template, and resolving them again changes nothing. -/
theorem binds_of_resolve (h : t.resolve name inline = .ok l) :
    t.Binds name inline l ∧ t.resolve name l = .ok l := by
  cases name with
  | none =>
    cases h
    exact ⟨⟨fun _ => rfl, fun _ h => by cases h⟩, rfl⟩
  | some n =>
    cases hbase : t n with
    | none => simp [resolve, hbase] at h
    | some base =>
      simp only [resolve, hbase, bind_eq_ok, pure_eq_ok] at h ⊢
      obtain ⟨_, hinline, _, hvalid, rfl⟩ := h
      obtain ⟨hi, rfl⟩ := AdmissionLimits.normal_of_validate hinline
      obtain ⟨hb, rfl⟩ := AdmissionLimits.normal_of_validate hvalid
      refine ⟨⟨(fun h => by cases h), ?_⟩, _, (hi.intersect hb).validate, _, hvalid, ?_⟩
      · rintro _ ⟨⟩
        refine ⟨base, hbase, ⟨fun c n hn => lesser_le_right hn, fun p v hv => ?_⟩,
          ⟨fun c n hn => lesser_le_left hn, fun p v hv => ?_⟩, rfl⟩
        · exact lesser_le_right (congrArg (Option.map trimSpace) hv)
        · exact lesser_le_left (congrArg (Option.map trimSpace) hv)
      · simp only [intersectLimits, lesser_lesser]
        congr 1
        split <;> simp_all

/-- What an end-user policy gets: its defaults and each override by itself. -/
structure BindsUser (t : LimitTemplates) (p q : EndUserPolicy) : Prop where
  template : q.limitTemplate = p.limitTemplate
  defaults : t.Binds p.limitTemplate p.defaults q.defaults
  overrides :
    Forall₂ (fun a b => b.1 = a.1 ∧ t.Binds p.limitTemplate a.2 b.2) p.overrides q.overrides

theorem binds_none (t : LimitTemplates) (l : AdmissionLimits) : t.Binds none l l :=
  ⟨fun _ => rfl, fun _ h => by cases h⟩

/-- The same for an end-user policy, its defaults and every override. -/
theorem bindsUser_of_endUser {p q : Option EndUserPolicy} (h : t.endUser p = .ok q) :
    Option.Rel t.BindsUser p q ∧ t.endUser q = .ok q := by
  cases p with
  | none =>
    cases h
    exact ⟨.none, rfl⟩
  | some p =>
    rw [endUser] at h
    split at h
    · rename_i hname
      cases h
      refine ⟨.some ⟨rfl, hname ▸ t.binds_none _, forall₂_same.mpr fun o _ => ⟨rfl, ?_⟩⟩,
        if_pos hname⟩
      exact hname ▸ t.binds_none _
    · rename_i hname
      simp only [bind_eq_ok, pure_eq_ok] at h
      obtain ⟨defaults, hdefaults, overrides, hoverrides, rfl⟩ := h
      obtain ⟨hbinds, hagain⟩ := binds_of_resolve hdefaults
      refine ⟨.some ⟨rfl, hbinds, (mapM_eq_ok.mp hoverrides).imp fun o o' ho => ?_⟩, ?_⟩
      · obtain ⟨l, hl, rfl⟩ := map_eq_ok.mp ho
        exact ⟨rfl, (binds_of_resolve hl).1⟩
      · rw [endUser, if_neg hname]
        simp only [bind_eq_ok, pure_eq_ok]
        refine ⟨_, hagain, _, mapM_again (fun o o' ho => ?_) hoverrides, rfl⟩
        obtain ⟨l, hl, rfl⟩ := map_eq_ok.mp ho
        exact map_eq_ok.mpr ⟨l, (binds_of_resolve hl).2, rfl⟩

theorem endUser_of_none {p : Option EndUserPolicy} (h : p.any (·.limitTemplate.isSome) = false) :
    t.endUser p = .ok p := by
  cases p with
  | none => rfl
  | some p => exact if_pos (by simpa using h)

/-- What an authority gets: its key, its end users, its project's end users and its group. -/
structure BindsAll (t : LimitTemplates) (a b : Authority) : Prop where
  key : t.Binds a.limitTemplate a.policy b.policy
  user : Option.Rel t.BindsUser a.endUserPolicy b.endUserPolicy
  project : Option.Rel t.BindsUser a.projectEndUserPolicy b.projectEndUserPolicy
  group : t.Binds a.budgetGroupTemplate a.group b.group

/-- The same for a whole authority. -/
theorem bindsAll_of_bind {a b : Authority} (h : a.bindLimitTemplates t = .ok b) :
    t.BindsAll a b ∧ b.bindLimitTemplates t = .ok b := by
  rw [Authority.bindLimitTemplates] at h
  split at h
  · rename_i huses
    cases h
    have hnames := huses
    simp only [Authority.usesLimitTemplates, Bool.or_eq_false_iff, Option.isSome_eq_false_iff,
      Option.isNone_iff_eq_none] at hnames
    obtain ⟨⟨⟨hkey, hgroup⟩, huser⟩, hproject⟩ := hnames
    exact ⟨⟨hkey ▸ t.binds_none _, (bindsUser_of_endUser (endUser_of_none huser)).1,
      (bindsUser_of_endUser (endUser_of_none hproject)).1, hgroup ▸ t.binds_none _⟩, if_pos huses⟩
  · simp only [bind_eq_ok, pure_eq_ok, require_eq_ok, exists_const] at h
    obtain ⟨hid, policy, hpolicy, user, huser, project, hproject, group, hgroup, rfl⟩ := h
    obtain ⟨hpolicy, hpolicy'⟩ := binds_of_resolve hpolicy
    obtain ⟨huser, huser'⟩ := bindsUser_of_endUser huser
    obtain ⟨hproject, hproject'⟩ := bindsUser_of_endUser hproject
    obtain ⟨hgroup, hgroup'⟩ := binds_of_resolve hgroup
    refine ⟨⟨hpolicy, huser, hproject, hgroup⟩, ?_⟩
    rw [Authority.bindLimitTemplates]
    split
    · rfl
    · simp only [bind_eq_ok, pure_eq_ok, require_eq_ok, exists_const]
      exact ⟨hid, _, hpolicy', _, huser', _, hproject', _, hgroup', rfl⟩

end LimitTemplates

open LimitTemplates

/-- **Templates are ceilings.**  Limits that were bound keep every limit of the template and every
inline limit, or a lesser one, at the key, the group and the end users; they are enforced on the
inline basis, or on the template's if none is stated inline.  Binding again changes nothing. -/
theorem templates_are_ceilings (t : LimitTemplates) (a b : Authority)
    (h : a.bindLimitTemplates t = .ok b) :
    t.Binds a.limitTemplate a.policy b.policy ∧
      Option.Rel t.BindsUser a.endUserPolicy b.endUserPolicy ∧
      Option.Rel t.BindsUser a.projectEndUserPolicy b.projectEndUserPolicy ∧
      t.Binds a.budgetGroupTemplate a.group b.group ∧ b.bindLimitTemplates t = .ok b := by
  obtain ⟨hbinds, hagain⟩ := bindsAll_of_bind h
  exact ⟨hbinds.key, hbinds.user, hbinds.project, hbinds.group, hagain⟩

/-- Ten dollars of charge a day. -/
def tenCharged : LimitTemplates := fun _ =>
  some ⟨fun _ => none, fun | .day => some ['1', '0'] | _ => none, "charge".toList⟩

/-- Five of everything that is counted. -/
def fiveCounted : AdmissionLimits := ⟨fun _ => some 5, fun _ => none, []⟩

/-- End users, of whom one has limits of its own. -/
def usersUnder (name : Text) : EndUserPolicy := ⟨some name, fiveCounted, [(['u'], fiveCounted)]⟩

def keyUnder (name : Text) : Authority :=
  ⟨some ['p'], some name, fiveCounted, some (usersUnder name), some (usersUnder name), some name,
    fiveCounted⟩

theorem templates_are_ceilings_everywhere : ∃ b users,
    (keyUnder ['t']).bindLimitTemplates tenCharged = .ok b ∧ b.endUserPolicy = some users ∧
      tenCharged.Binds (some ['t']) fiveCounted b.policy ∧
      tenCharged.BindsUser (usersUnder ['t']) users ∧
      tenCharged.Binds (some ['t']) fiveCounted b.group := by
  refine ⟨_, _, rfl, rfl, ?_⟩
  obtain ⟨hkey, ⟨huser⟩, -, hgroup, -⟩ := templates_are_ceilings tenCharged (keyUnder ['t']) _ rfl
  exact ⟨hkey, huser, hgroup⟩

/-! ## The basis of a template -/

/-- Limits and the template that they refer to, if any. -/
abbrev Boundary := Option Text × AdmissionLimits

def EndUserPolicy.boundaries (p : EndUserPolicy) : List Boundary :=
  (p.limitTemplate, p.defaults) :: p.overrides.map fun o => (p.limitTemplate, o.2)

/-- Every place at which the limits of a template are enforced. -/
def Authority.boundaries (a : Authority) : List Boundary :=
  (a.limitTemplate, a.policy) :: (a.budgetGroupTemplate, a.group) ::
    (a.endUserPolicy.elim [] (·.boundaries) ++ a.projectEndUserPolicy.elim [] (·.boundaries))

section Boundaries

variable {t : LimitTemplates} {a b : Authority}

theorem LimitTemplates.BindsUser.boundaries {p q : Option EndUserPolicy}
    (h : Option.Rel t.BindsUser p q) :
    Forall₂ (fun x y => t.Binds x.1 x.2 y.2) (p.elim [] (·.boundaries))
      (q.elim [] (·.boundaries)) := by
  cases h with
  | none => exact .nil
  | some h =>
    refine .cons h.defaults ?_
    simp only [forall₂_map_left_iff, forall₂_map_right_iff]
    exact h.overrides.imp fun _ _ ho => ho.2

theorem LimitTemplates.BindsAll.boundaries (h : t.BindsAll a b) :
    Forall₂ (fun x y => t.Binds x.1 x.2 y.2) a.boundaries b.boundaries :=
  .cons h.key (.cons h.group (rel_append (BindsUser.boundaries h.user)
    (BindsUser.boundaries h.project)))

end Boundaries

/-- **A template's limits bind, its basis does not.**  At every boundary that refers to a template
the limits that were bound keep every limit of the template and every inline one, or a lesser one.
They are enforced on the basis that the template states exactly if none or the same is stated
inline.  Binding again changes nothing. -/
theorem basis_of_template_kept_iff (t : LimitTemplates) (a b : Authority)
    (h : a.bindLimitTemplates t = .ok b) :
    Forall₂ (fun x y : Boundary => ∀ name, x.1 = some name → ∃ base, t name = some base ∧
        y.2.Within base ∧ y.2.Within x.2 ∧ (base.costBasis ≠ [] →
          (y.2.costBasis = base.costBasis ↔ x.2.costBasis = [] ∨ x.2.costBasis = base.costBasis)))
      a.boundaries b.boundaries ∧ b.bindLimitTemplates t = .ok b := by
  obtain ⟨hbinds, hagain⟩ := bindsAll_of_bind h
  refine ⟨hbinds.boundaries.imp fun x y hxy name hname => ?_, hagain⟩
  obtain ⟨base, hbase, htemplate, hinline, hbasis⟩ := hxy.2 name hname
  refine ⟨base, hbase, htemplate, hinline, fun hstated => ?_⟩
  rw [hbasis]
  split
  · rename_i hnone
    exact iff_of_true rfl (.inl hnone)
  · rename_i hsome
    exact ⟨.inr, fun h => h.resolve_left hsome⟩

theorem basis_of_template_kept_iff_everywhere : ∃ b base,
    (keyUnder ['t']).bindLimitTemplates tenCharged = .ok b ∧ tenCharged ['t'] = some base ∧
      b.policy.Within base ∧ b.policy.Within fiveCounted ∧
      b.policy.costBasis = "charge".toList := by
  refine ⟨_, _, rfl, rfl, ?_⟩
  obtain ⟨hbound, -⟩ := basis_of_template_kept_iff tenCharged (keyUnder ['t']) _ rfl
  obtain ⟨hkey, -⟩ := forall₂_cons.mp hbound
  obtain ⟨_, ⟨⟩, htemplate, hinline, hbasis⟩ := hkey ['t'] rfl
  exact ⟨htemplate, hinline, (hbasis (by decide)).mpr (.inl rfl)⟩

/-- A key that states the basis of its costs, and no cost limit. -/
def keyOnCost : Authority :=
  ⟨some ['p'], some ['t'], ⟨fun _ => none, fun _ => none, "cost".toList⟩, none, none, none,
    ⟨fun _ => none, fun _ => none, []⟩⟩

/-- Ten dollars of charge become ten dollars of cost, whatever is charged. -/
theorem basis_of_template_lost : ∃ b, keyOnCost.bindLimitTemplates tenCharged = .ok b ∧
    b.policy.cost .day = some ['1', '0'] ∧ b.policy.costBasis = "cost".toList :=
  ⟨_, rfl, rfl, rfl⟩

end Olp.Access
