import Olp.Checked
import Olp.Pricing.Cost

/-!
# Token counters and their shares

`validateUsageDimensions` compares the counters of an attempt with their totals in 64-bit
arithmetic.  Pricing bills the differences (`exactInputShares`, `exactOutputShares`).  The two agree
as long as the sums that the validation forms stay below `2 ^ 63`; beyond, a sum wraps round and may
be taken for a small one (`Wraps`).
-/

namespace Olp.Pricing

open List

namespace AttemptUsage

variable {u : AttemptUsage}

def reports (u : AttemptUsage) (c : Counter) : Prop := (u.tokens c).isSome = true

instance (u : AttemptUsage) (c : Counter) : Decidable (u.reports c) :=
  inferInstanceAs (Decidable (_ = true))

/-- `validateUsageDimensions`; an operation on 64-bit numbers wraps round. -/
def validateUsageDimensions (u : AttemptUsage) : Except String Unit := do
  let input := u.count .input
  let read := u.count .cachedInput
  let write := u.count .cacheWriteInput
  let write5m := u.count .cacheWrite5m
  let write1h := u.count .cacheWrite1h
  let audio := u.count .audioInput
  let cachedAudio := u.count .cachedAudioInput
  let image := u.count .imageInput
  let cachedImage := u.count .cachedImageInput
  require (u.inputSharesAbsent = true ∨ u.reports .input) "usage shares without input tokens"
  require (¬ (u.reports .audioOutput ∨ u.reports .imageOutput) ∨ u.reports .output)
    "usage shares without output tokens"
  require (¬ (u.reports .cacheWrite5m ∨ u.reports .cacheWrite1h) ∨ u.reports .cacheWriteInput)
    "cache write detail without a cache write total"
  require (cachedAudio ≤ audio) "cached audio exceeds the audio input total"
  require (cachedImage ≤ image) "cached image exceeds the image input total"
  require (wrap64 (cachedAudio + cachedImage) ≤ read)
    "cached modality tokens exceed the cached input total"
  let shares := wrap64 (read + write + audio - cachedAudio + image - cachedImage)
  require (¬ u.reports .input ∨ read ≤ input ∧ wrap64 (shares - read) ≤ wrap64 (input - read))
    "usage shares exceed the input total"
  require (write5m ≤ write ∧ write1h ≤ wrap64 (write - write5m))
    "cache write detail exceeds the cache write total"
  require (¬ u.reports .output ∨
      wrap64 (u.count .audioOutput + u.count .imageOutput) ≤ u.count .output)
    "modality shares exceed the output total"

/-- Every share that is reported has its total, and no share that is billed is negative. -/
structure Covered (u : AttemptUsage) : Prop where
  input : u.inputSharesAbsent = true ∨ u.reports .input
  output : ¬ (u.reports .audioOutput ∨ u.reports .imageOutput) ∨ u.reports .output
  write : ¬ (u.reports .cacheWrite5m ∨ u.reports .cacheWrite1h) ∨ u.reports .cacheWriteInput
  inputShares : ∀ share ∈ u.exactInputShares, 0 ≤ share.1
  outputShares : ∀ share ∈ u.exactOutputShares, 0 ≤ share.1

/-- The input that is not cached text. -/
def uncached (u : AttemptUsage) : ℤ :=
  u.count .cacheWriteInput + (u.count .audioInput - u.count .cachedAudioInput) +
    (u.count .imageInput - u.count .cachedImageInput)

/-- The sums of the validation are below `2 ^ 63`. -/
structure SumsFit (u : AttemptUsage) : Prop where
  cached : u.count .cachedAudioInput + u.count .cachedImageInput < 2 ^ 63
  input : u.uncached < 2 ^ 63
  output : u.count .audioOutput + u.count .imageOutput < 2 ^ 63

/-- A sum that keeps to its total over the integers, or seems to since it has wrapped round. -/
def Keeps (sum total : ℤ) : Prop := sum ≤ total ∨ 2 ^ 63 ≤ sum ∧ sum ≤ total + 2 ^ 64

/-- Every share that is reported has its total, and every counter and every sum keeps to its total
or seems to. -/
structure InOrder (u : AttemptUsage) : Prop where
  input : u.inputSharesAbsent = true ∨ u.reports .input
  output : ¬ (u.reports .audioOutput ∨ u.reports .imageOutput) ∨ u.reports .output
  write : ¬ (u.reports .cacheWrite5m ∨ u.reports .cacheWrite1h) ∨ u.reports .cacheWriteInput
  audio : u.count .cachedAudioInput ≤ u.count .audioInput
  image : u.count .cachedImageInput ≤ u.count .imageInput
  cached : Keeps (u.count .cachedAudioInput + u.count .cachedImageInput) (u.count .cachedInput)
  inputTotal : ¬ u.reports .input ∨ u.count .cachedInput ≤ u.count .input ∧
    Keeps u.uncached (u.count .input - u.count .cachedInput)
  detail : u.count .cacheWrite5m + u.count .cacheWrite1h ≤ u.count .cacheWriteInput
  outputTotal : ¬ u.reports .output ∨
    Keeps (u.count .audioOutput + u.count .imageOutput) (u.count .output)

/-- A sum of `2 ^ 63` or more passes for a small one, and nothing else is wrong. -/
def Wraps (u : AttemptUsage) : Prop := u.InOrder ∧ ¬ u.SumsFit

/-- The check `attempt_usage_modality_subset` of the fact table. -/
structure ModalitySubset (u : AttemptUsage) : Prop where
  input : u.reports .input ∨ ¬ u.reports .audioInput ∧ ¬ u.reports .cachedAudioInput ∧
    ¬ u.reports .imageInput ∧ ¬ u.reports .cachedImageInput
  output : u.reports .output ∨ ¬ u.reports .audioOutput ∧ ¬ u.reports .imageOutput
  audio : u.count .cachedAudioInput ≤ u.count .audioInput
  image : u.count .cachedImageInput ≤ u.count .imageInput
  cached : u.count .cachedAudioInput + u.count .cachedImageInput ≤ u.count .cachedInput
  inputTotal : ¬ u.reports .input ∨ u.count .cachedInput + u.uncached ≤ u.count .input
  outputTotal : ¬ u.reports .output ∨
    u.count .audioOutput + u.count .imageOutput ≤ u.count .output

section Shares

/-- The counters are signed 64-bit numbers that are not negative. -/
def Counted (u : AttemptUsage) : Prop := ∀ c n, u.tokens c = some n → 0 ≤ n ∧ n < 2 ^ 63

theorem Counted.bounds (h : u.Counted) (c : Counter) : 0 ≤ u.count c ∧ u.count c < 2 ^ 63 := by
  unfold count
  cases hc : u.tokens c with
  | none => decide
  | some n => exact h c n hc

theorem count_of_not_reports {c : Counter} (h : ¬ u.reports c) : u.count c = 0 := by
  unfold reports at h
  rw [Bool.not_eq_true, Option.isSome_eq_false_iff, Option.isNone_iff_eq_none] at h
  rw [count, h]
  rfl

theorem count_of_sharesAbsent (h : u.inputSharesAbsent = true) :
    u.count .cachedInput = 0 ∧ u.count .cacheWriteInput = 0 ∧ u.count .audioInput = 0 ∧
      u.count .cachedAudioInput = 0 ∧ u.count .imageInput = 0 ∧ u.count .cachedImageInput = 0 := by
  simp only [inputSharesAbsent, all_cons, all_nil, Bool.and_eq_true, Option.isNone_iff_eq_none] at h
  simp [count, h]

/-- Covered shares have sums that do not wrap. -/
theorem Covered.sumsFit (h : u.Covered) (hu : u.Counted) : u.SumsFit := by
  have hin := h.inputShares
  have hout := h.outputShares
  simp only [exactInputShares, exactOutputShares, forall_mem_cons] at hin hout
  have hinput := hu.bounds .input
  have houtput := hu.bounds .output
  have := uncached.eq_def u
  constructor <;> omega

theorem wrap64_le_iff {x y : ℤ} (hx : 0 ≤ x) (hx' : x < 2 ^ 64 + 2 ^ 63) (hy : 0 ≤ y)
    (hy' : y < 2 ^ 63) : wrap64 x ≤ y ↔ Keeps x y := by
  rw [wrap64, Keeps, Int.bmod_def]
  split <;> omega

/-- The 64-bit comparisons, in terms of the counters. -/
theorem accepted_iff_inOrder (hu : u.Counted) : u.validateUsageDimensions = .ok () ↔ u.InOrder := by
  have hb := hu.bounds
  have hshares : wrap64 (wrap64 (u.count .cachedInput + u.count .cacheWriteInput +
      u.count .audioInput - u.count .cachedAudioInput + u.count .imageInput -
      u.count .cachedImageInput) - u.count .cachedInput) = wrap64 u.uncached := by
    have := uncached.eq_def u
    unfold wrap64
    rw [Int.bmod_sub_bmod]
    congr 1
    omega
  have hread := hb .cachedInput
  have hwrite := hb .cacheWriteInput
  have hca := hb .cachedAudioInput
  have hci := hb .cachedImageInput
  have hw5 := hb .cacheWrite5m
  have hin := hb .input
  have hcached := wrap64_le_iff (x := u.count .cachedAudioInput + u.count .cachedImageInput)
    (by omega) (by omega) hread.1 hread.2
  have houtput : wrap64 (u.count .audioOutput + u.count .imageOutput) ≤ u.count .output ↔
      Keeps (u.count .audioOutput + u.count .imageOutput) (u.count .output) := by
    have hao := hb .audioOutput
    have hio := hb .imageOutput
    exact wrap64_le_iff (by omega) (by omega) (hb .output).1 (hb .output).2
  simp only [validateUsageDimensions, bind_eq_ok, require_eq_ok, exists_const, hshares, hcached,
    houtput]
  rw [wrap64_eq (by omega : -2 ^ 63 ≤ u.count .input - _) (by omega),
    wrap64_eq (by omega : -2 ^ 63 ≤ u.count .cacheWriteInput - _) (by omega)]
  -- the cached parts are no more than the whole, so nothing but the sum itself can wrap round
  have huncached : u.count .cachedAudioInput ≤ u.count .audioInput →
      u.count .cachedImageInput ≤ u.count .imageInput →
      u.count .cachedInput ≤ u.count .input →
      (wrap64 u.uncached ≤ u.count .input - u.count .cachedInput ↔
        Keeps u.uncached (u.count .input - u.count .cachedInput)) := by
    intro ha hi hle
    have hau := hb .audioInput
    have him := hb .imageInput
    have := uncached.eq_def u
    exact wrap64_le_iff (by omega) (by omega) (by omega) (by omega)
  constructor
  · rintro ⟨hi, ho, hw, ha, him, hc, ht, hd, hout⟩
    exact ⟨hi, ho, hw, ha, him, hc, ht.imp_right fun h => ⟨h.1, (huncached ha him h.1).mp h.2⟩,
      by omega, hout⟩
  · rintro ⟨hi, ho, hw, ha, him, hc, ht, hd, hout⟩
    exact ⟨hi, ho, hw, ha, him, hc, ht.imp_right fun h => ⟨h.1, (huncached ha him h.1).mpr h.2⟩,
      ⟨by have := hb .cacheWrite1h; omega, by omega⟩, hout⟩

/-- Where no sum wraps, the checks say that the shares are covered. -/
theorem SumsFit.inOrder_iff (h : u.SumsFit) (hu : u.Counted) : u.InOrder ↔ u.Covered := by
  obtain ⟨hcached, hinput, houtput⟩ := h
  have huncached := uncached.eq_def u
  have hb := hu.bounds
  constructor
  · rintro ⟨hi, ho, hw, haudio, himage, hc, htotal, hdetail, hout⟩
    have hc := hc.resolve_right (by omega)
    refine ⟨hi, ho, hw, ?_, ?_⟩
    · have hrest : u.count .cachedInput + u.uncached ≤ u.count .input := by
        rcases htotal with hnone | ⟨-, htotal⟩
        · have := count_of_sharesAbsent (hi.resolve_right hnone)
          have := hb .input
          omega
        · have := htotal.resolve_right (by omega)
          omega
      have hw5 := hb .cacheWrite5m
      have hw1 := hb .cacheWrite1h
      have hca := hb .cachedAudioInput
      have hci := hb .cachedImageInput
      simp only [exactInputShares, forall_mem_cons]
      refine ⟨?_, ?_, ?_, ?_, ?_, ?_, ?_, ?_, ?_, by simp⟩ <;> omega
    · have hrest : u.count .audioOutput + u.count .imageOutput ≤ u.count .output := by
        rcases hout with hnone | hout
        · obtain ⟨ha, hi⟩ := not_or.mp (ho.resolve_right hnone)
          have := hb .output
          rw [count_of_not_reports ha, count_of_not_reports hi]
          omega
        · exact hout.resolve_right (by omega)
      have hao := hb .audioOutput
      have hio := hb .imageOutput
      simp only [exactOutputShares, forall_mem_cons]
      refine ⟨?_, ?_, ?_, by simp⟩ <;> omega
  · rintro ⟨hi, ho, hw, hinputs, houtputs⟩
    simp only [exactInputShares, exactOutputShares, forall_mem_cons] at hinputs houtputs
    refine ⟨hi, ho, hw, ?_, ?_, .inl ?_, .inr ⟨?_, .inl ?_⟩, ?_, .inr (.inl ?_)⟩ <;> omega

theorem Covered.modalitySubset (h : u.Covered) : u.ModalitySubset := by
  obtain ⟨hi, ho, -, hinputs, houtputs⟩ := h
  simp only [exactInputShares, exactOutputShares, forall_mem_cons] at hinputs houtputs
  refine ⟨?_, ?_, ?_, ?_, ?_, .inr ?_, .inr ?_⟩
  · rcases hi with hi | hi
    · simp only [inputSharesAbsent, all_cons, all_nil, Bool.and_eq_true, Option.isNone_iff_eq_none]
        at hi
      simp [reports, hi]
    · exact .inl hi
  · rcases ho with ho | ho
    · exact .inr (not_or.mp ho)
    · exact .inl ho
  all_goals
    have := uncached.eq_def u
    omega

theorem Covered.consistent (h : u.Covered) (hu : u.Counted) : u.Consistent :=
  ⟨fun c n hc => (hu c n hc).2, h.inputShares, h.outputShares⟩

end Shares

/-- **The validation and the shares that are billed.**  For counters of the signed 64-bit range,
the validation accepts exactly the usage whose shares have their totals and are not negative, if and
only if no sum of `2 ^ 63` or more passes for a small one.  Usage without such a sum that it accepts
passes the check of the fact table, and pricing finds no negative share in it. -/
theorem accepted_iff_covered (u : AttemptUsage) (hu : u.Counted) :
    ((u.validateUsageDimensions = .ok () ↔ u.Covered) ↔ ¬ u.Wraps) ∧
      (u.validateUsageDimensions = .ok () → ¬ u.Wraps →
        u.ModalitySubset ∧ ∀ share ∈ u.inputShares ++ u.outputShares, 0 ≤ share.1) := by
  rw [accepted_iff_inOrder hu]
  refine ⟨⟨?_, fun h => ⟨fun hok => ?_, fun hc => ?_⟩⟩, fun hok h => ?_⟩
  · rintro h ⟨hok, hwraps⟩
    exact hwraps ((h.mp hok).sumsFit hu)
  · have hfit : u.SumsFit := by_contra fun hwraps => h ⟨hok, hwraps⟩
    exact (hfit.inOrder_iff hu).mp hok
  · exact ((hc.sumsFit hu).inOrder_iff hu).mpr hc
  · have hfit : u.SumsFit := by_contra fun hwraps => h ⟨hok, hwraps⟩
    have hc := (hfit.inOrder_iff hu).mp hok
    have hcons := hc.consistent hu
    rw [hcons.inputShares_eq, hcons.outputShares_eq]
    refine ⟨hc.modalitySubset, fun share hshare => ?_⟩
    rcases mem_append.mp hshare with hshare | hshare
    · exact hcons.input share hshare
    · exact hcons.output share hshare

/-- Usage of the given counters and nothing else. -/
def ofTokens (tokens : Counter → Option ℤ) : AttemptUsage where
  tokens := tokens
  mediaUnits := none
  toolCalls := []
  batch := false
  complete := true
  deferred := false
  invocationCount := none
  trainingTokens := none
  storageByteSeconds := none
  cacheTokenSeconds := none
  containerSessions := []

/-- Three tokens of input, of which two are cached. -/
def cachedUsage : AttemptUsage := ofTokens fun
  | .input => some 3
  | .cachedInput => some 2
  | _ => none

theorem accepted_iff_covered_cached :
    cachedUsage.validateUsageDimensions = .ok () ∧ cachedUsage.ModalitySubset :=
  have hu : cachedUsage.Counted := fun c n h => by cases c <;> cases h <;> decide
  have hok : cachedUsage.validateUsageDimensions = .ok () := by decide
  ⟨hok, ((accepted_iff_covered cachedUsage hu).2 hok fun h =>
    h.2 ⟨by decide, by decide, by decide⟩).1⟩

/-- Audio and images of `2 ^ 62` tokens each, all of them cached, of no input at all. -/
def wrappedUsage : AttemptUsage := ofTokens fun
  | .input => some 0
  | .audioInput | .cachedAudioInput | .imageInput | .cachedImageInput => some (2 ^ 62)
  | _ => none

/-- The sum of the cached tokens wraps round, and the usage is accepted; the share of cached text
is negative, and pricing refuses it. -/
theorem wrapped_sum_accepted :
    wrappedUsage.validateUsageDimensions = .ok () ∧ ¬ wrappedUsage.Covered ∧
      (-2 ^ 63, chainCached) ∈ wrappedUsage.exactInputShares ∧
      (-2 ^ 63, chainCached) ∈ wrappedUsage.inputShares ∧ ¬ wrappedUsage.ModalitySubset := by
  have hshare : (-2 ^ 63, chainCached) ∈ wrappedUsage.exactInputShares := by decide
  refine ⟨by decide, fun h => ?_, hshare, by decide, fun h => ?_⟩
  · exact absurd (h.inputShares _ hshare) (by decide)
  · exact absurd h.cached (by decide)

end AttemptUsage

end Olp.Pricing
