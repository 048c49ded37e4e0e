import Art.Compiler.TripCount
import Art.Lib.CountedLoop
import Art.Theorems.InductionInfo
import Mathlib.Data.Option.Basic

/-! # Trip counts

A control `i = L; i cmp U; i += S` runs over the values of a linear sequence. Where these do not wrap, the loop counts
to an inclusive bound `V`, which is `U`, `U - 1` or `U + 1`, and a loop that is taken runs `(V + S - L) / S` times.
The taken-test and the finite-test are about the bounds of `L` and `U` that the range analysis knows. The known trip
count of a loop is the value of the expression, also where the loop is not known to be taken. -/

namespace Art.Induction

open Lib
open DataType (implicitConversion maxValueOfIntegralType minValueOfIntegralType wrap_fits wrap_of_fits)

variable {ι : Type}

/-! ### Loops over a sequence -/

def LoopRuns (cmp : IfCondition) (bound : Int) (value : Nat → Int) (n : Nat) : Prop :=
  (∀ k < n, cmp.holds (value k) bound) ∧ ¬ cmp.holds (value n) bound

theorem LoopRuns.unique {cmp : IfCondition} {bound : Int} {value : Nat → Int} {n m : Nat}
    (h : LoopRuns cmp bound value n) (h' : LoopRuns cmp bound value m) : n = m := by
  rcases Nat.lt_trichotomy n m with hlt | heq | hlt
  · exact absurd (h'.1 n hlt) h.2
  · exact heq
  · exact absurd (h.1 m hlt) h'.2

/-- The last value that satisfies a condition on the way up or down. -/
def IfCondition.inclusive : IfCondition → Int → Int
  | lt, u => u - 1
  | gt, u => u + 1
  | _, u => u

/-- The condition is an upper bound of an ascending sequence, or a lower bound of a descending one. -/
def Normalized (s : Int) (cmp : IfCondition) : Prop :=
  (s > 0 ∧ (cmp = .lt ∨ cmp = .le)) ∨ (s < 0 ∧ (cmp = .gt ∨ cmp = .ge))

/-- One step beyond the inclusive bound `v` is in the type. -/
def StepFits (t : DataType) (v s : Int) : Prop :=
  (0 < s → v + s ≤ t.maxValueOfIntegralType) ∧ (s < 0 → t.minValueOfIntegralType ≤ v + s)

section Counting

variable {t : DataType} {l s u : Int} {cmp : IfCondition} {n : Nat}

variable (h : Normalized s cmp)

include h

theorem Normalized.holds_iff (x : Int) : cmp.holds x u ↔ s.sign * x ≤ s.sign * cmp.inclusive u := by
  rcases h with ⟨hs, rfl | rfl⟩ | ⟨hs, rfl | rfl⟩
  all_goals
    simp only [IfCondition.holds, IfCondition.inclusive, Int.sign_eq_one_of_pos, Int.sign_eq_neg_one_of_neg, hs]
    omega

theorem Normalized.sign_mul_pos : 0 < s.sign * s := by
  rcases h with ⟨hs, _⟩ | ⟨hs, _⟩
  · simpa [Int.sign_eq_one_of_pos hs] using hs
  · simpa [Int.sign_eq_neg_one_of_neg hs] using hs

omit h

/-- The loop counts, its values multiplied by the sign of the stride. -/
abbrev Counts (l s u : Int) (cmp : IfCondition) (n : Nat) : Prop :=
  Counted (s.sign * l) (s.sign * s) (s.sign * cmp.inclusive u) n

include h in
theorem loopRuns_iff_counts (hfits : ∀ k ≤ n, t.Fits (s * (k : Int) + l)) :
    LoopRuns cmp u (fun k => t.wrap (s * (k : Int) + l)) n ↔ Counts l s u cmp n := by
  have hvalue : ∀ k ≤ n, (cmp.holds (t.wrap (s * (k : Int) + l)) u ↔
      s.sign * l + s.sign * s * (k : Int) ≤ s.sign * cmp.inclusive u) := by
    intro k hk
    rw [wrap_of_fits (hfits k hk), h.holds_iff,
      show s.sign * (s * (k : Int) + l) = s.sign * l + s.sign * s * (k : Int) by ring]
  constructor
  · rintro ⟨hin, hout⟩
    exact ⟨fun k hk => (hvalue k hk.le).mp (hin k hk), not_le.mp fun hle => hout ((hvalue n le_rfl).mpr hle)⟩
  · intro hc
    exact ⟨fun k hk => (hvalue k hk.le).mpr (hc.within k hk),
      fun hle => absurd ((hvalue n le_rfl).mp hle) (not_le.mpr hc.beyond)⟩

theorem counts_fits (hc : Counts l s u cmp n) (h : Normalized s cmp) (hl : t.Fits l)
    (hstep : StepFits t (cmp.inclusive u) s) : ∀ k ≤ n, t.Fits (s * (k : Int) + l) := by
  intro k hk
  rcases Nat.eq_zero_or_pos n with rfl | hn
  · obtain rfl := Nat.le_zero.mp hk
    simpa using hl
  have hlast := hc.last_le hn
  rcases h with ⟨hs, _⟩ | ⟨hs, _⟩
  · simp only [Int.sign_eq_one_of_pos hs, one_mul] at hlast
    have := hstep.1 hs
    exact ⟨by nlinarith [hl.1], by nlinarith⟩
  · simp only [Int.sign_eq_neg_one_of_neg hs] at hlast
    have := hstep.2 hs
    exact ⟨by nlinarith, by nlinarith [hl.2]⟩

include h in
theorem exists_counts : ∃ n, Counts l s u cmp n :=
  Counted.exists_of_pos _ _ h.sign_mul_pos

theorem counts_eq_tdiv (hc : Counts l s u cmp n) (h : Normalized s cmp) (hn : 0 < n) :
    (n : Int) = (cmp.inclusive u + s - l).tdiv s := by
  have hdiv := hc.eq_div h.sign_mul_pos hn
  have hle := hc.le_of_pos hn
  rcases h with ⟨hs, _⟩ | ⟨hs, _⟩
  · simp only [Int.sign_eq_one_of_pos hs, one_mul] at hdiv hle
    rw [hdiv, Int.tdiv_eq_ediv_of_nonneg (by omega)]
  · simp only [Int.sign_eq_neg_one_of_neg hs] at hdiv hle
    rw [hdiv, show -1 * cmp.inclusive u + -1 * s - -1 * l = -(cmp.inclusive u + s - l) by ring,
      ← Int.tdiv_eq_ediv_of_nonneg (by omega), neg_one_mul, Int.tdiv_neg, Int.neg_tdiv, neg_neg]

include h

theorem counts_reaches (hstrict : cmp = .lt ∨ cmp = .gt) (hunit : s = 1 ∨ s = -1) (hle : s.sign * l ≤ s.sign * u)
    (hc : Counts l s u cmp n) : s * (n : Int) + l = u := by
  have hbeyond := hc.beyond
  rcases Nat.eq_zero_or_pos n with rfl | hn
  · rcases hunit with rfl | rfl <;> rcases hstrict with rfl | rfl <;>
      simp [Normalized, IfCondition.inclusive] at h hbeyond hle ⊢ <;> omega
  · have hlast := hc.last_le hn
    rcases hunit with rfl | rfl <;> rcases hstrict with rfl | rfl <;>
      simp [Normalized, IfCondition.inclusive] at h hbeyond hlast ⊢ <;> omega

theorem loopRuns_ne (hstrict : cmp = .lt ∨ cmp = .gt) (hunit : s = 1 ∨ s = -1) (hle : s.sign * l ≤ s.sign * u)
    (hc : Counts l s u cmp n) (hfits : ∀ k ≤ n, t.Fits (s * (k : Int) + l)) :
    LoopRuns .ne u (fun k => t.wrap (s * (k : Int) + l)) n := by
  have hend := counts_reaches h hstrict hunit hle hc
  have hs : s ≠ 0 := by omega
  constructor
  · intro k hk
    change t.wrap (s * (k : Int) + l) ≠ u
    rw [wrap_of_fits (hfits k hk.le), ← hend]
    intro heq
    have := mul_left_cancel₀ hs (add_right_cancel heq)
    omega
  · change ¬ t.wrap (s * (n : Int) + l) ≠ u
    rw [wrap_of_fits (hfits n le_rfl), hend]
    exact not_not_intro rfl

end Counting

/-! ### What the tests say -/

section Tests

variable {getVal : GetVal ι} {ρ : ι → Int} {lower upper : Invariant ι} {cmp : IfCondition} {s : Int} {t : DataType}
variable (hranges : RangesHold getVal ρ)
include hranges

variable {e : Invariant ι}

theorem isAtMost_eval {v : Int} (h : isAtMost getVal e = some v) : e.eval ρ ≤ v :=
  isConstant_right hranges h 0

theorem isAtLeast_eval {v : Int} (h : isAtLeast getVal e = some v) : v ≤ e.eval ρ :=
  isConstant_right hranges h 0

theorem isAtMost_any {v : Int} (h : (isAtMost getVal e).any (· ≤ v) = true) : e.eval ρ ≤ v := by
  obtain ⟨w, hw, hle⟩ := Option.any_eq_true _ _ |>.mp h
  exact (isAtMost_eval hranges hw).trans (of_decide_eq_true hle)

theorem isAtLeast_any {v : Int} (h : (isAtLeast getVal e).any (· ≥ v) = true) : v ≤ e.eval ρ := by
  obtain ⟨w, hw, hle⟩ := Option.any_eq_true _ _ |>.mp h
  exact (of_decide_eq_true hle : v ≤ w).trans (isAtLeast_eval hranges hw)

theorem isTaken_holds (h : isTaken getVal lower upper cmp = true) : cmp.holds (lower.eval ρ) (upper.eval ρ) := by
  have hmost : ∀ {e : Invariant ι} {v : Int}, isAtMost getVal e = some v → e.eval ρ ≤ v := isAtMost_eval hranges
  have hleast : ∀ {e : Invariant ι} {v : Int}, isAtLeast getVal e = some v → v ≤ e.eval ρ := isAtLeast_eval hranges
  cases cmp <;> simp only [isTaken, bounded, Bool.false_eq_true] at h
  all_goals
    split at h
    next x y hx hy =>
      simp only [decide_eq_true_eq] at h
      simp only [IfCondition.holds]
      first
      | linarith [hmost hx, hleast hy]
      | linarith [hleast hx, hmost hy]
    next => exact absurd h (by simp)

/-- A loop found to be finite does not wrap in the step that ends it. -/
theorem isFinite_stepFits (h : isFinite getVal upper s t cmp = true) (hcmp : Normalized s cmp)
    (hupper : t.Fits (upper.eval ρ)) : StepFits t (cmp.inclusive (upper.eval ρ)) s := by
  rcases hcmp with ⟨hs, rfl | rfl⟩ | ⟨hs, rfl | rfl⟩
  all_goals
    simp only [StepFits, IfCondition.inclusive]
    refine ⟨fun hs' => ?_, fun hs' => ?_⟩ <;> try omega
  case inl.inl =>
    rcases (Bool.or_eq_true _ _).mp h with hunit | hany
    · obtain rfl : s = 1 := by simpa using hunit
      have := hupper.2
      omega
    · have := isAtMost_any hranges hany
      omega
  case inl.inr =>
    have := isAtMost_any hranges h
    omega
  case inr.inl =>
    rcases (Bool.or_eq_true _ _).mp h with hunit | hany
    · obtain rfl : s = -1 := by simpa using hunit
      have := hupper.1
      omega
    · have := isAtLeast_any hranges hany
      omega
  case inr.inr =>
    have := isAtLeast_any hranges h
    omega

/-- A control that is narrower than its induction: both bounds are in the type and so is one step beyond. -/
theorem fitsNarrowerControl_stepFits (h : fitsNarrowerControl getVal lower upper s t cmp = true)
    (hcmp : Normalized s cmp) : t.Fits (lower.eval ρ) ∧ StepFits t (cmp.inclusive (upper.eval ρ)) s := by
  unfold fitsNarrowerControl at h
  by_cases hunit : s ≠ 1 ∧ s ≠ -1
  · simp [hunit] at h
  rw [if_neg hunit] at h
  simp only [Bool.and_eq_true] at h
  obtain ⟨⟨⟨hl, hl'⟩, hu⟩, hu'⟩ := h
  have hl := isAtLeast_any hranges hl
  have hl' := isAtMost_any hranges hl'
  have hu := isAtLeast_any hranges hu
  have hu' := isAtMost_any hranges hu'
  unfold StepFits DataType.Fits
  rcases hcmp with ⟨hs, rfl | rfl⟩ | ⟨hs, rfl | rfl⟩
  all_goals
    simp only [IfCondition.inclusive, reduceCtorEq, ↓reduceIte] at hl hl' hu hu' ⊢
    omega

end Tests

/-! ### An accepted control -/

/-- What `VisitCondition` has checked. -/
structure Accepted (getVal : GetVal ι) (control : LoopControl ι) (v : Visited ι) : Prop where
  stride : isExact getVal v.linear.stride = some v.strideValue
  strict : v.trip.cmp = strictCondition getVal v.linear.lower v.linear.upper v.strideValue v.cmp
  narrow : control.type = v.linear.inductionType ∨
    fitsNarrowerControl getVal v.linear.lower v.linear.upper v.strideValue v.linear.inductionType v.trip.cmp = true
  normalized : Normalized v.strideValue v.trip.cmp
  trip : v.trip = visitTripCount getVal v.linear.lower v.linear.upper v.linear.stride v.strideValue control.type
    v.trip.cmp

theorem visitCondition_accepted {getVal : GetVal ι} {control : LoopControl ι} {v : Visited ι}
    (h : visitCondition getVal control = some v) : Accepted getVal control v := by
  simp only [visitCondition, Option.bind_eq_bind, Option.bind_eq_some_iff, Option.guard_eq_some', Option.pure_def,
    Option.some.injEq] at h
  obtain ⟨linear, _, strideValue, hstride, _, _, _, hnarrow, _, hnormalized, rfl⟩ := h
  exact ⟨hstride, rfl, hnarrow, hnormalized, rfl⟩

namespace Visited

/-- The values of the induction, in the iterations of the loop. -/
def value (ρ : ι → Int) (v : Visited ι) : Nat → Int :=
  (InductionInfo.induction .linear (.invariant v.linear.stride) (.invariant v.linear.lower)
    v.linear.inductionType).closedForm ρ

/-- The body runs `n` times, by the condition that the loop has after the visit. -/
def Runs (ρ : ι → Int) (v : Visited ι) (n : Nat) : Prop :=
  LoopRuns v.cmp (v.linear.upper.eval ρ) (v.value ρ) n

/-- The induction does not wrap from its first value up to the one that ends the loop. -/
def Unwrapped (ρ : ι → Int) (v : Visited ι) (n : Nat) : Prop :=
  ∀ k ≤ n, v.linear.inductionType.Fits (v.linear.stride.eval ρ * (k : Int) + v.value ρ 0)

def Taken (ρ : ι → Int) (v : Visited ι) : Prop := v.cmp.holds (v.value ρ 0) (v.linear.upper.eval ρ)

def bound (ρ : ι → Int) (v : Visited ι) : Int := v.trip.cmp.inclusive (v.linear.upper.eval ρ)

/-- The two sides of the condition have its type. -/
structure TypedSides (ρ : ι → Int) (control : LoopControl ι) (v : Visited ι) : Prop where
  induction : v.linear.inductionType.implicitConversion = control.type
  upper : v.linear.upper.Typed ρ control.type

/-- The type of the operands of the induction. It is the one of the condition, unless an induction of type `int64` is
    narrowed for a condition of type `int32`. -/
structure TypedOperands (ρ : ι → Int) (t : DataType) (v : Visited ι) : Prop where
  lower : v.linear.lower.Typed ρ t
  stride : v.linear.stride.Typed ρ t

/-- The first value is in the type of the induction before it is narrowed. -/
def LowerFits (ρ : ι → Int) (v : Visited ι) : Prop := v.linear.inductionType.Fits (v.linear.lower.eval ρ)

/-- The first value is on the side of the bound from which `i != U` ends. -/
def StartsBefore (ρ : ι → Int) (v : Visited ι) : Prop :=
  v.cmp = .ne → v.strideValue.sign * v.value ρ 0 ≤ v.strideValue.sign * v.linear.upper.eval ρ

/-- The loop does what the kind of its trip count says. -/
structure KindRight (ρ : ι → Int) (v : Visited ι) : Prop where
  taken : v.trip.kind = .inLoop ∨ v.trip.kind = .inLoopUnsafe → v.Taken ρ
  finite : v.trip.kind = .inLoop ∨ v.trip.kind = .inBody → ∃ n, v.Runs ρ n ∧ v.Unwrapped ρ n

/-- What the tests have found for the lower bound holds for the first value too. -/
def StartsRight (ρ : ι → Int) (v : Visited ι) : Prop :=
  match v.trip.kind with
  | .inLoop | .inLoopUnsafe => v.trip.cmp.holds (v.value ρ 0) (v.linear.upper.eval ρ)
  | .inBody => v.StartsBefore ρ
  | .inBodyUnsafe => True

end Visited

section Accepted

variable {getVal : GetVal ι} {ρ : ι → Int} {control : LoopControl ι} {v : Visited ι}
variable (hv : Accepted getVal control v) (hranges : RangesHold getVal ρ)
include hv hranges

theorem Accepted.stride_eval : v.linear.stride.eval ρ = v.strideValue := isExact_eval hranges hv.stride

omit hv hranges in
theorem value_zero : v.value ρ 0 = v.linear.inductionType.wrap (v.linear.lower.eval ρ) := by
  simp [Visited.value, InductionInfo.closedForm]

theorem Accepted.value_eq (k : Nat) :
    v.value ρ k = v.linear.inductionType.wrap (v.strideValue * (k : Int) + v.value ρ 0) := by
  rw [value_zero, DataType.wrap_add_wrap, ← hv.stride_eval hranges]
  rfl

/-- The condition of the trip count is the one of the loop, or stands for `i != U`. -/
theorem Accepted.cmp_cases : v.trip.cmp = v.cmp ∨ (v.cmp = .ne ∧ (v.trip.cmp = .lt ∨ v.trip.cmp = .gt) ∧
    (v.strideValue = 1 ∨ v.strideValue = -1) ∧
    v.strideValue.sign * v.linear.lower.eval ρ ≤ v.strideValue.sign * v.linear.upper.eval ρ) := by
  have hstrict := hv.strict
  unfold strictCondition at hstrict
  split_ifs at hstrict with hne hpos
  · refine Or.inr ⟨hne.1, Or.inl hstrict, ?_⟩
    rcases hne.2 with ⟨hs, htaken⟩ | ⟨hs, _⟩
    · have := isTaken_holds hranges htaken
      simpa [hs, IfCondition.holds] using this
    · omega
  · refine Or.inr ⟨hne.1, Or.inr hstrict, ?_⟩
    rcases hne.2 with ⟨hs, _⟩ | ⟨hs, htaken⟩
    · omega
    · have := isTaken_holds hranges htaken
      simpa [hs, IfCondition.holds] using this
  · exact Or.inl hstrict

variable (hsides : v.TypedSides ρ control)

theorem Accepted.lowerFits (hlower : v.linear.lower.Typed ρ control.type) : v.LowerFits ρ := by
  rcases hv.narrow with heq | hfits
  · rw [Visited.LowerFits, ← heq]
    exact hlower.fits
  · exact (fitsNarrowerControl_stepFits hranges hfits hv.normalized).1

/-- An induction that is narrowed keeps its first value up to multiples of the range of the condition. -/
theorem Accepted.value_zero_modEq : v.value ρ 0 ≡ v.linear.lower.eval ρ [ZMOD 2 ^ control.type.bits] := by
  rw [value_zero]
  rcases hv.narrow with heq | hfits
  · exact heq ▸ DataType.wrap_modEq _ _
  · rw [wrap_of_fits (fitsNarrowerControl_stepFits hranges hfits hv.normalized).1]

theorem Accepted.startsBefore_of_fits (hfits : v.LowerFits ρ) : v.StartsBefore ρ := by
  intro hne
  rw [value_zero, wrap_of_fits hfits]
  rcases hv.cmp_cases hranges with hcmp | ⟨-, -, -, hle⟩
  · have hnorm := hv.normalized
    simp [Normalized, hcmp, hne] at hnorm
  · exact hle

/-- The taken-test at the first value, for the condition of the trip count and for the one of the loop. -/
theorem Accepted.holds_first_iff :
    v.trip.cmp.holds (v.value ρ 0) (v.linear.upper.eval ρ) ↔ v.Taken ρ ∧ v.StartsBefore ρ := by
  have hnorm := hv.normalized
  unfold Visited.Taken Visited.StartsBefore
  rcases hv.cmp_cases hranges with hcmp | ⟨hne, hstrict, hunit, -⟩
  · have hneq : v.cmp ≠ .ne := fun hne => by simp [Normalized, hcmp, hne] at hnorm
    simp [hcmp, hneq]
  · rcases hstrict with h | h <;> rcases hunit with hs | hs <;>
      simp [Normalized, h, hs, hne, IfCondition.holds] at hnorm ⊢ <;> omega

/-- `i != U` has become a strict condition with a unit stride, which is always finite. -/
theorem Accepted.finite_of_ne (hne : v.cmp = .ne) :
    isFinite getVal v.linear.upper v.strideValue control.type v.trip.cmp = true := by
  have hnorm := hv.normalized
  rcases hv.cmp_cases hranges with hcmp | ⟨-, hstrict, hunit, -⟩
  · simp [Normalized, hcmp, hne] at hnorm
  · rcases hstrict with h | h <;> rcases hunit with hs | hs <;> simp [Normalized, h, hs, isFinite] at hnorm ⊢

include hsides in
theorem Accepted.stepFits (hfinite : isFinite getVal v.linear.upper v.strideValue control.type v.trip.cmp = true) :
    StepFits v.linear.inductionType (v.bound ρ) v.strideValue := by
  rcases hv.narrow with heq | hfits
  · exact heq ▸ isFinite_stepFits hranges hfinite hv.normalized hsides.upper.fits
  · exact (fitsNarrowerControl_stepFits hranges hfits hv.normalized).2

theorem Accepted.runs_of_stepFits (hbefore : v.StartsBefore ρ)
    (hstep : StepFits v.linear.inductionType (v.bound ρ) v.strideValue) :
    ∃ n, Counts (v.value ρ 0) v.strideValue (v.linear.upper.eval ρ) v.trip.cmp n ∧ v.Runs ρ n ∧
      v.Unwrapped ρ n := by
  have hfirst : v.linear.inductionType.Fits (v.value ρ 0) := value_zero ▸ wrap_fits _ _
  obtain ⟨n, hcounts⟩ := exists_counts hv.normalized
  have hfits := counts_fits hcounts hv.normalized hfirst hstep
  refine ⟨n, hcounts, ?_, fun k hk => hv.stride_eval hranges ▸ hfits k hk⟩
  unfold Visited.Runs
  rw [funext (hv.value_eq hranges)]
  rcases hv.cmp_cases hranges with hcmp | ⟨hne, hstrict, hunit, -⟩
  · exact hcmp ▸ (loopRuns_iff_counts hv.normalized hfits).mpr hcounts
  · rw [hne]
    exact loopRuns_ne hv.normalized hstrict hunit (hbefore hne) hcounts hfits

/-- A loop `i != U` that ends without wrapping has come to `U`, one step after another. -/
theorem Accepted.startsBefore_of_runs {n : Nat} (hruns : v.Runs ρ n) (hunwrapped : v.Unwrapped ρ n) :
    v.StartsBefore ρ := by
  intro hne
  have hend : v.value ρ n = v.linear.upper.eval ρ := by
    have hout := hruns.2
    rw [hne] at hout
    exact not_not.mp hout
  have hlast := hunwrapped n le_rfl
  rw [hv.stride_eval hranges] at hlast
  rw [hv.value_eq hranges, wrap_of_fits hlast] at hend
  rw [← hend, mul_add, ← mul_assoc]
  have := mul_nonneg hv.normalized.sign_mul_pos.le (Int.natCast_nonneg n)
  omega

include hsides in
theorem Accepted.counts_of_runs {n : Nat} (hruns : v.Runs ρ n) (hunwrapped : v.Unwrapped ρ n) :
    Counts (v.value ρ 0) v.strideValue (v.linear.upper.eval ρ) v.trip.cmp n := by
  rcases hv.cmp_cases hranges with hcmp | ⟨hne, -⟩
  · refine (loopRuns_iff_counts hv.normalized fun k hk => hv.stride_eval hranges ▸ hunwrapped k hk).mp ?_
    rw [hcmp, ← funext (hv.value_eq hranges)]
    exact hruns
  · obtain ⟨m, hcounts, hruns', -⟩ := hv.runs_of_stepFits hranges (hv.startsBefore_of_runs hranges hruns hunwrapped)
      (hv.stepFits hranges hsides (hv.finite_of_ne hranges hne))
    exact hruns.unique hruns' ▸ hcounts

theorem Accepted.taken_iff (hfits : v.LowerFits ρ) :
    v.Taken ρ ↔ v.strideValue.sign * v.linear.lower.eval ρ ≤ v.strideValue.sign * v.bound ρ := by
  have hbefore := hv.startsBefore_of_fits hranges hfits
  rw [Visited.bound, ← hv.normalized.holds_iff, ← wrap_of_fits hfits, ← value_zero, hv.holds_first_iff hranges]
  exact (and_iff_left hbefore).symm

end Accepted

/-! ### The expression -/

theorem tdiv_bounds {x s : Int} {n : Nat} (hs : 0 < s) (hn : 0 < n) (hx : x.tdiv s = n) :
    s * n ≤ x ∧ x < s * n + s := by
  have hnonneg : 0 ≤ x := by
    by_contra hneg
    have := Int.tdiv_nonneg (neg_nonneg.mpr (not_le.mp hneg).le) hs.le
    rw [Int.neg_tdiv] at this
    omega
  have hsum := Int.mul_tdiv_add_tmod x s
  rw [hx] at hsum
  have := Int.tmod_nonneg s hnonneg
  have := Int.tmod_lt_of_pos x hs
  omega

theorem sub_lt_of_tdiv_eq {x y s : Int} {n : Nat} (hn : 0 < n) (hx : x.tdiv s = n) (hy : y.tdiv s = n) :
    (x - y).natAbs < s.natAbs := by
  rcases lt_trichotomy s 0 with hs | rfl | hs
  · rw [← Int.neg_tdiv_neg] at hx hy
    have := tdiv_bounds (neg_pos.mpr hs) hn hx
    have := tdiv_bounds (neg_pos.mpr hs) hn hy
    omega
  · rw [Int.tdiv_zero] at hx
    omega
  · have := tdiv_bounds hs hn hx
    have := tdiv_bounds hs hn hy
    omega

section Expression

variable {t : DataType} {w s l v : Int}

variable (ht : t.implicitConversion = t)

include ht

theorem wrap_tdiv_eq_zero (hw : t.Fits w) (hs : s ≠ 0) : t.wrap (w.tdiv s) = 0 ↔ w.natAbs < s.natAbs := by
  have habs : (w.tdiv s).natAbs = w.natAbs / s.natAbs := Int.natAbs_tdiv w s
  have hle : w.natAbs / s.natAbs ≤ w.natAbs := Nat.div_le_self _ _
  have hzero : w.natAbs / s.natAbs = 0 ↔ w.natAbs < s.natAbs := by
    rw [Nat.div_eq_zero_iff]
    omega
  rw [← hzero, ← habs]
  cases t <;> simp [implicitConversion] at ht
  all_goals
    simp only [DataType.Fits, minValueOfIntegralType, maxValueOfIntegralType, minInt, maxInt] at hw
    simp only [DataType.wrap, wrap]
    omega

theorem wrap_tdiv_nonpos (hw : t.Fits w) (hs : (w ≤ 0 ∧ 0 < s) ∨ (0 ≤ w ∧ s < 0)) : t.wrap (w.tdiv s) ≤ 0 := by
  have habs : (w.tdiv s).natAbs = w.natAbs / s.natAbs := Int.natAbs_tdiv w s
  have hle : w.natAbs / s.natAbs ≤ w.natAbs := Nat.div_le_self _ _
  have hnonpos : w.tdiv s ≤ 0 := by
    rcases hs with ⟨hw, hs⟩ | ⟨hw, hs⟩
    · have := Int.tdiv_nonneg (neg_nonneg.mpr hw) hs.le
      rw [Int.neg_tdiv] at this
      omega
    · exact Int.tdiv_nonpos_of_nonneg_of_nonpos hw hs.le
  cases t <;> simp [implicitConversion] at ht
  all_goals
    simp only [DataType.Fits, minValueOfIntegralType, maxValueOfIntegralType, minInt, maxInt] at hw
    simp only [DataType.wrap, wrap]
    omega

/-- Where the distance of a taken loop overflows, it changes its sign. -/
theorem wrap_distance_sign (hl : t.Fits l)
    (htaken : (0 < s ∧ l ≤ v ∧ v + s ≤ t.maxValueOfIntegralType) ∨ (s < 0 ∧ v ≤ l ∧ t.minValueOfIntegralType ≤ v + s))
    (hfits : ¬ t.Fits (v + s - l)) : (t.wrap (v + s - l) ≤ 0 ∧ 0 < s) ∨ (0 ≤ t.wrap (v + s - l) ∧ s < 0) := by
  cases t <;> simp [implicitConversion] at ht
  all_goals
    simp only [DataType.Fits, minValueOfIntegralType, maxValueOfIntegralType, minInt, maxInt] at hl htaken hfits
    simp only [DataType.wrap, wrap]
    omega

/-- Where the distance of a loop that is not taken overflows, it is not less than the stride. -/
theorem fits_of_wrap_distance (hl : t.Fits l) (hs : t.Fits s)
    (hv : t.minValueOfIntegralType - 1 ≤ v ∧ v ≤ t.maxValueOfIntegralType + 1)
    (hntaken : (0 < s ∧ v < l) ∨ (s < 0 ∧ l < v)) (hlt : (t.wrap (v + s - l)).natAbs < s.natAbs) :
    t.Fits (v + s - l) := by
  cases t <;> simp [implicitConversion] at ht
  all_goals
    simp only [DataType.Fits, minValueOfIntegralType, maxValueOfIntegralType, minInt, maxInt] at hl hs hv ⊢
    simp only [DataType.wrap, wrap] at hlt
    omega

end Expression

section Expression

variable {getVal : GetVal ι} {ρ : ι → Int} {lower upper stride : Invariant ι} {t : DataType} {s : Int}
  {cmp : IfCondition}

theorem createConstant_one_computes (ht : t.implicitConversion = t) :
    (createConstant 1 t : Invariant ι).Computes ρ t 1 := by
  refine createConstant_computes ht ?_
  rcases t.implicitConversion_cases with h | h <;> rw [ht] at h <;> subst h <;> decide

theorem tripCountBound_computes (hranges : RangesHold getVal ρ) {u : Int} (hupper : upper.Computes ρ t u)
    {one : Invariant ι} (hone : one.Computes ρ t 1) (hstride : stride.Computes ρ t s) (hnormalized : Normalized s cmp) :
    (tripCountBound getVal upper stride one s cmp).Computes ρ t (cmp.inclusive u + s) := by
  unfold tripCountBound
  split_ifs with hcancels
  · -- a strict condition and a unit stride cancel
    refine hupper.congr ?_
    obtain ⟨rfl | rfl, rfl | rfl⟩ := hcancels <;> simp [Normalized, IfCondition.inclusive] at hnormalized ⊢
  refine Invariant.Computes.add hranges ?_ hstride
  rcases hnormalized with ⟨_, rfl | rfl⟩ | ⟨_, rfl | rfl⟩
  · exact hupper.sub hranges hone
  · exact hupper
  · exact hupper.add hranges hone
  · exact hupper

/-- The expression is `(V + S - L) / S` for the inclusive bound `V`, computed in the type. -/
theorem tripCountExpr_computes (hranges : RangesHold getVal ρ) (hlower : lower.Typed ρ t) (hupper : upper.Typed ρ t)
    (hstride : stride.Typed ρ t) (hs : stride.eval ρ = s) (hnormalized : Normalized s cmp) :
    (tripCountExpr getVal lower upper stride s t cmp).Computes ρ t
      ((t.wrap (cmp.inclusive (upper.eval ρ) + s - lower.eval ρ)).tdiv s) := by
  have ht := hupper.computation
  have hstrideComputes : stride.Computes ρ t s := hs ▸ hstride.computes
  have hwrap : t.wrap s = s := hs ▸ hstride.wrap_eval
  have hone : (createConstant 1 t : Invariant ι).Computes ρ t 1 := createConstant_one_computes ht
  have hbound := tripCountBound_computes hranges hupper.computes hone hstrideComputes hnormalized
  have hdiv := (hbound.sub hranges hlower.computes).div hranges hstrideComputes
  rwa [hwrap] at hdiv

variable (hranges : RangesHold getVal ρ) (hs : isExact getVal stride = some s) (hnormalized : Normalized s cmp)
include hranges hs hnormalized

/-- For a unit stride the expression is right up to multiples of the range of the type, also where its operands are
    wider. -/
theorem tripCountExpr_modEq (hlower : lower.Wide t) (hupper : upper.Wide t) (hstride : stride.Wide t)
    (hunit : s = 1 ∨ s = -1) : (tripCountExpr getVal lower upper stride s t cmp).eval ρ ≡
      s * (cmp.inclusive (upper.eval ρ) + s - lower.eval ρ) [ZMOD 2 ^ t.bits] := by
  have hone : (createConstant 1 t : Invariant ι).Near ρ t 1 := by
    cases t <;> exact ⟨by simp [createConstant, Invariant.Wide, Fetch.type, DataType.bits, implicitConversion], rfl⟩
  have hvalue : stride.Near ρ t s := isExact_eval hranges hs ▸ hstride.near
  have hbound : (tripCountBound getVal upper stride (createConstant 1 t) s cmp).Near ρ t
      (cmp.inclusive (upper.eval ρ) + s) := by
    unfold tripCountBound
    split_ifs with hcancels
    · refine hupper.near.congr ?_
      obtain ⟨rfl | rfl, rfl | rfl⟩ := hcancels <;> simp [Normalized, IfCondition.inclusive] at hnormalized ⊢
    · refine Invariant.Near.addSub hranges true ?_ hvalue
      rcases hnormalized with ⟨_, rfl | rfl⟩ | ⟨_, rfl | rfl⟩
      · exact hupper.near.addSub hranges false hone
      · exact hupper.near
      · exact hupper.near.addSub hranges true hone
      · exact hupper.near
  have hsub := hbound.addSub hranges false hlower.near
  unfold tripCountExpr
  rcases hunit with rfl | rfl
  · simp only [createInvariantOp, hs]
    simpa using hsub.2
  · simp only [createInvariantOp, hs]
    simpa using (createNeg_near hranges hsub.1).2.trans hsub.2.neg

/-- For other strides the inclusive bound is computed in the type of the condition, and the rest in the type of the
    operands. -/
theorem tripCountExpr_eval {t' : DataType} (hupper : upper.Typed ρ t) (hlower : lower.Typed ρ t')
    (hstride : stride.Typed ρ t') (hbits : t.bits ≤ t'.bits) (hunit : ¬(s = 1 ∨ s = -1)) :
    (tripCountExpr getVal lower upper stride s t cmp).eval ρ =
      t'.wrap ((t'.wrap (t.wrap (cmp.inclusive (upper.eval ρ)) + s - lower.eval ρ)).tdiv s) := by
  have ht := hupper.computation
  have hone : (createConstant 1 t : Invariant ι).Computes ρ t 1 := createConstant_one_computes ht
  have hadd : ∀ e : Invariant ι, e.Computes ρ t (cmp.inclusive (upper.eval ρ)) →
      (createAddSub getVal true e stride).eval ρ = t'.wrap (t.wrap (cmp.inclusive (upper.eval ρ)) + s) := fun e he => by
    rw [createAddSub_eval hranges true (he.1.fits.of_bits_le hbits ht hlower.computation) hstride, he.2,
      isExact_eval hranges hs, if_pos rfl]
  have hbound : (tripCountBound getVal upper stride (createConstant 1 t) s cmp).eval ρ =
      t'.wrap (t.wrap (cmp.inclusive (upper.eval ρ)) + s) := by
    unfold tripCountBound
    rw [if_neg fun h => hunit h.2]
    rcases hnormalized with ⟨_, rfl | rfl⟩ | ⟨_, rfl | rfl⟩
    · exact hadd _ (hupper.computes.sub hranges hone)
    · exact hadd _ hupper.computes
    · exact hadd _ (hupper.computes.add hranges hone)
    · exact hadd _ hupper.computes
  have hsub := createAddSub_eval hranges false (hbound ▸ wrap_fits t' _) hlower
  rw [hbound, if_neg Bool.false_ne_true, DataType.wrap_wrap_sub] at hsub
  simp only [tripCountExpr, createInvariantOp, hs]
  split
  · next h => exact absurd (.inl (Option.some.inj h)) hunit
  · next h => exact absurd (.inr (Option.some.inj h)) hunit
  · rw [newInvariant, Invariant.eval, hstride.type_eq, InvariantOp.apply, isExact_eval hranges hs]
    exact congrArg (fun x => t'.wrap (x.tdiv s)) hsub

end Expression

/-! ### The count -/

namespace Visited

def distance (ρ : ι → Int) (v : Visited ι) : Int := v.bound ρ + v.strideValue - v.linear.lower.eval ρ

/-- The known trip count is right: its computation does not overflow, and the loop is taken or the count is zero. -/
def KnownRight (ρ : ι → Int) (v : Visited ι) : Prop :=
  v.trip.type.Fits (v.distance ρ) ∧ v.trip.type.Fits ((v.distance ρ).tdiv v.strideValue) ∧
    (v.Taken ρ ∨ (v.distance ρ).natAbs < v.strideValue.natAbs)

end Visited

section Count

variable {getVal : GetVal ι} {ρ : ι → Int} {control : LoopControl ι} {v : Visited ι} {n : Nat} {t : DataType}
variable (hv : Accepted getVal control v) (hranges : RangesHold getVal ρ)
variable (hsides : v.TypedSides ρ control) (hsame : v.TypedOperands ρ control.type)
include hv

theorem Accepted.trip_type : v.trip.type = control.type := by rw [hv.trip, visitTripCount]

theorem Accepted.kind_eq : v.trip.kind = tripCountKind (isTaken getVal v.linear.lower v.linear.upper v.trip.cmp)
    (isFinite getVal v.linear.upper v.strideValue control.type v.trip.cmp) := by
  rw [hv.trip, visitTripCount]

include hranges hsides hsame

theorem Accepted.count_eval : v.trip.count.eval ρ =
    control.type.wrap ((control.type.wrap (v.distance ρ)).tdiv v.strideValue) := by
  rw [hv.trip]
  exact (tripCountExpr_computes hranges hsame.lower hsides.upper hsame.stride (hv.stride_eval hranges) hv.normalized).2

omit hsame

theorem Accepted.runs_eq (hn : 0 < n) (hruns : v.Runs ρ n) (hunwrapped : v.Unwrapped ρ n) :
    (n : Int) = (v.bound ρ + v.strideValue - v.value ρ 0).tdiv v.strideValue :=
  counts_eq_tdiv (hv.counts_of_runs hranges hsides hruns hunwrapped) hv.normalized hn

theorem Accepted.runs_lt (hunit : v.strideValue = 1 ∨ v.strideValue = -1) (hunwrapped : v.Unwrapped ρ n) :
    (n : Int) < 2 ^ control.type.bits := by
  have hfirst := (hunwrapped 0 (Nat.zero_le n)).widen
  have hlast := (hunwrapped n le_rfl).widen
  rw [hsides.induction, hv.stride_eval hranges] at hfirst hlast
  rcases hunit with hs | hs
  · have := hfirst.sub_lt hlast
    rw [hs, Nat.cast_zero] at this
    linarith
  · have := hlast.sub_lt hfirst
    rw [hs, Nat.cast_zero] at this
    linarith

section Narrowed

variable (hoperands : v.TypedOperands ρ t) (hbits : control.type.bits ≤ t.bits)
include hoperands hbits

theorem Accepted.count_unit (hunit : v.strideValue = 1 ∨ v.strideValue = -1) (hn : 0 < n) (hruns : v.Runs ρ n)
    (hunwrapped : v.Unwrapped ρ n) : (n : Int) = v.trip.count.eval ρ % 2 ^ control.type.bits := by
  have hdiv : (n : Int) = v.strideValue * (v.bound ρ + v.strideValue - v.value ρ 0) := by
    rw [hv.runs_eq hranges hsides hn hruns hunwrapped]
    rcases hunit with hs | hs <;> simp [hs]
  have hlt := hv.runs_lt hranges hsides hunit hunwrapped
  have hcount : v.trip.count.eval ρ ≡ v.strideValue * v.distance ρ [ZMOD 2 ^ control.type.bits] := by
    rw [hv.trip]
    exact tripCountExpr_modEq hranges hv.stride hv.normalized (hoperands.lower.wide hbits) (hsides.upper.wide le_rfl)
      (hoperands.stride.wide hbits) hunit
  have hfirst := ((hv.value_zero_modEq hranges).sub_left (v.bound ρ + v.strideValue)).mul_left v.strideValue
  rw [← hdiv] at hfirst
  exact (Int.emod_eq_of_lt (Int.natCast_nonneg n) hlt).symm.trans (hfirst.trans hcount.symm)

/-- The count of a loop with a stride is the quotient when the distance fits. -/
theorem Accepted.count_eq_tdiv (hunit : ¬(v.strideValue = 1 ∨ v.strideValue = -1)) (hn : 0 < n) (hruns : v.Runs ρ n)
    (hunwrapped : v.Unwrapped ρ n) (hfits : control.type.Fits (v.distance ρ)) :
    v.trip.count.eval ρ = (v.distance ρ).tdiv v.strideValue := by
  have ht := hsides.upper.computation
  have ht' := hoperands.lower.computation
  have hbound : control.type.wrap (v.bound ρ) = v.bound ρ := by
    -- the inclusive bound is between the first value and the bound
    have hfirst : control.type.Fits (v.value ρ 0) := hsides.induction ▸ (value_zero ▸ wrap_fits _ _ : _).widen
    have hle := (hv.counts_of_runs hranges hsides hruns hunwrapped).le_of_pos hn
    have hupper := hsides.upper.fits
    refine wrap_of_fits ?_
    unfold Visited.bound DataType.Fits at *
    rcases hv.normalized with ⟨hs, h | h⟩ | ⟨hs, h | h⟩ <;>
      simp only [h, IfCondition.inclusive, Int.sign_eq_one_of_pos, Int.sign_eq_neg_one_of_neg, hs] at hle ⊢ <;> omega
  have heval :=
    tripCountExpr_eval hranges hv.stride hv.normalized hsides.upper hoperands.lower hoperands.stride hbits hunit
  rw [hv.trip]
  refine heval.trans ?_
  change t.wrap ((t.wrap (control.type.wrap (v.bound ρ) + v.strideValue - v.linear.lower.eval ρ)).tdiv _) = _
  rw [hbound]
  change t.wrap ((t.wrap (v.distance ρ)).tdiv v.strideValue) = _
  rw [wrap_of_fits (hfits.of_bits_le hbits ht ht')]
  refine wrap_of_fits (DataType.Fits.of_bits_le ?_ hbits ht ht')
  have habs : ((v.distance ρ).tdiv v.strideValue).natAbs = (v.distance ρ).natAbs / v.strideValue.natAbs :=
    Int.natAbs_tdiv _ _
  have hs : 2 ≤ v.strideValue.natAbs := by
    have hpos := hv.normalized.sign_mul_pos
    have : v.strideValue ≠ 0 := by
      intro h
      simp [h] at hpos
    omega
  have hle : (v.distance ρ).natAbs / v.strideValue.natAbs ≤ (v.distance ρ).natAbs / 2 :=
    Nat.div_le_div_left hs (by norm_num)
  clear hoperands hbits hruns heval
  generalize control.type = c at *
  cases c <;> simp [implicitConversion] at ht
  all_goals
    simp only [DataType.Fits, minValueOfIntegralType, maxValueOfIntegralType, minInt, maxInt] at hfits ⊢
    omega

/-- Where the first value is narrowed, the expression counts from another one. -/
theorem Accepted.count_stride_iff (hunit : ¬(v.strideValue = 1 ∨ v.strideValue = -1)) (hn : 0 < n) (hruns : v.Runs ρ n)
    (hunwrapped : v.Unwrapped ρ n) (hfits : control.type.Fits (v.distance ρ)) :
    v.trip.count.eval ρ = n ↔ v.LowerFits ρ := by
  have hdiv := hv.runs_eq hranges hsides hn hruns hunwrapped
  rw [hv.count_eq_tdiv hranges hsides hoperands hbits hunit hn hruns hunwrapped hfits]
  constructor
  · intro hcount
    have hlt := sub_lt_of_tdiv_eq hn hcount hdiv.symm
    have hsame : v.value ρ 0 = v.linear.lower.eval ρ := by
      have hmod := (hv.value_zero_modEq hranges).dvd
      have hstep : (v.strideValue.natAbs : Int) < 2 ^ control.type.bits := by
        have h0 := (hunwrapped 0 (Nat.zero_le n)).widen
        have h1 := (hunwrapped 1 hn).widen
        rw [hsides.induction, hv.stride_eval hranges, Nat.cast_zero] at h0
        rw [hsides.induction, hv.stride_eval hranges, Nat.cast_one] at h1
        have := h0.sub_lt h1
        have := h1.sub_lt h0
        omega
      have hsmall : (v.linear.lower.eval ρ - v.value ρ 0).natAbs < v.strideValue.natAbs := by
        unfold Visited.distance at hlt
        omega
      have hzero := Int.eq_zero_of_abs_lt_dvd hmod (by rw [Int.abs_eq_natAbs]; omega)
      omega
    rw [Visited.LowerFits, ← hsame, value_zero]
    exact wrap_fits _ _
  · intro hlower
    rw [hdiv, value_zero, wrap_of_fits hlower]
    rfl

end Narrowed

omit hv hranges in
theorem bound_range : control.type.minValueOfIntegralType - 1 ≤ v.bound ρ ∧
    v.bound ρ ≤ control.type.maxValueOfIntegralType + 1 := by
  have hupper := hsides.upper.fits
  unfold Visited.bound IfCondition.inclusive
  unfold DataType.Fits at hupper
  split <;> omega

include hsame

/-- For a loop that is taken, when the count is right. -/
theorem Accepted.count_eq_of_pos (hn : 0 < n)
    (hcounts : Counts (v.linear.lower.eval ρ) v.strideValue (v.linear.upper.eval ρ) v.trip.cmp n)
    (hstep : StepFits control.type (v.bound ρ) v.strideValue) :
    v.trip.count.eval ρ = n ↔ control.type.Fits (v.distance ρ) ∧
      control.type.Fits ((v.distance ρ).tdiv v.strideValue) := by
  have ht := hsides.upper.computation
  have hdiv : (n : Int) = (v.distance ρ).tdiv v.strideValue := counts_eq_tdiv hcounts hv.normalized hn
  have hle : v.strideValue.sign * v.linear.lower.eval ρ ≤ v.strideValue.sign * v.bound ρ := hcounts.le_of_pos hn
  rw [hv.count_eval hranges hsides hsame]
  constructor
  · intro heq
    refine ⟨?_, by rw [← hdiv, ← heq]; exact wrap_fits _ _⟩
    by_contra hfits
    -- an overflow would turn the sign of the quotient
    have hnonpos : control.type.wrap ((control.type.wrap (v.distance ρ)).tdiv v.strideValue) ≤ 0 := by
      refine wrap_tdiv_nonpos ht (wrap_fits _ _) (wrap_distance_sign ht hsame.lower.fits ?_ hfits)
      rcases hv.normalized with ⟨hs, _⟩ | ⟨hs, _⟩
      · rw [Int.sign_eq_one_of_pos hs] at hle
        exact Or.inl ⟨hs, by omega, hstep.1 hs⟩
      · rw [Int.sign_eq_neg_one_of_neg hs] at hle
        exact Or.inr ⟨hs, by omega, hstep.2 hs⟩
    omega
  · rintro ⟨hfits, hquot⟩
    rw [wrap_of_fits hfits, wrap_of_fits hquot, hdiv]

/-- For a loop that is not taken, when the count is zero. -/
theorem Accepted.count_eq_zero (hntaken : ¬ v.Taken ρ) :
    v.trip.count.eval ρ = 0 ↔ control.type.Fits (v.distance ρ) ∧
      (v.distance ρ).natAbs < v.strideValue.natAbs := by
  have ht := hsides.upper.computation
  have hs0 : v.strideValue ≠ 0 := by
    rcases hv.normalized with ⟨hs, _⟩ | ⟨hs, _⟩ <;> omega
  have hlt : v.strideValue.sign * v.bound ρ < v.strideValue.sign * v.linear.lower.eval ρ :=
    not_le.mp fun hle => hntaken ((hv.taken_iff hranges (hv.lowerFits hranges hsame.lower)).mpr hle)
  rw [hv.count_eval hranges hsides hsame, wrap_tdiv_eq_zero ht (wrap_fits _ _) hs0]
  constructor
  · intro hsmall
    have hfits : control.type.Fits (v.distance ρ) := by
      refine fits_of_wrap_distance ht hsame.lower.fits ?_ (bound_range hsides) ?_ hsmall
      · exact hv.stride_eval hranges ▸ hsame.stride.fits
      rcases hv.normalized with ⟨hs, _⟩ | ⟨hs, _⟩
      · rw [Int.sign_eq_one_of_pos hs] at hlt
        exact Or.inl ⟨hs, by omega⟩
      · rw [Int.sign_eq_neg_one_of_neg hs] at hlt
        exact Or.inr ⟨hs, by omega⟩
    rw [wrap_of_fits hfits] at hsmall
    exact ⟨hfits, hsmall⟩
  · rintro ⟨hfits, hsmall⟩
    rwa [wrap_of_fits hfits]

/-- When the count of a finite loop is the number of its iterations. -/
theorem Accepted.count_eq_iff (hfinite : isFinite getVal v.linear.upper v.strideValue control.type v.trip.cmp = true) :
    ∃ n, v.Runs ρ n ∧ v.Unwrapped ρ n ∧ (v.trip.count.eval ρ = n ↔ v.KnownRight ρ) := by
  have hfits := hv.lowerFits hranges hsame.lower
  obtain ⟨n, hcounts, hruns, hunwrapped⟩ :=
    hv.runs_of_stepFits hranges (hv.startsBefore_of_fits hranges hfits) (hv.stepFits hranges hsides hfinite)
  rw [value_zero, wrap_of_fits hfits] at hcounts
  refine ⟨n, hruns, hunwrapped, ?_⟩
  unfold Visited.KnownRight
  rw [hv.trip_type]
  rcases Nat.eq_zero_or_pos n with rfl | hn
  · have hntaken : ¬ v.Taken ρ := hruns.2
    rw [Nat.cast_zero, hv.count_eq_zero hranges hsides hsame hntaken]
    constructor
    · rintro ⟨hfits, hsmall⟩
      refine ⟨hfits, ?_, Or.inr hsmall⟩
      have hzero : (v.distance ρ).tdiv v.strideValue = 0 :=
        Int.natAbs_eq_zero.mp ((Int.natAbs_tdiv _ _).trans (Nat.div_eq_of_lt hsmall))
      rw [hzero]
      exact DataType.fits_zero _
    · rintro ⟨hfits, _, htaken | hsmall⟩
      · exact absurd htaken hntaken
      · exact ⟨hfits, hsmall⟩
  · have htaken : v.Taken ρ := hruns.1 0 hn
    have hstep := isFinite_stepFits hranges hfinite hv.normalized hsides.upper.fits
    rw [hv.count_eq_of_pos hranges hsides hsame hn hcounts hstep]
    simp only [htaken, true_or, and_true]

end Count

/-! ### The trip count of a loop -/

/-- Which tests a kind of trip count does without. -/
theorem tripCountKind_finite {taken finite : Bool}
    (h : tripCountKind taken finite = .inLoop ∨ tripCountKind taken finite = .inBody) : finite = true := by
  cases taken <;> cases finite <;> simp [tripCountKind] at h ⊢

theorem tripCountKind_taken {taken finite : Bool}
    (h : tripCountKind taken finite = .inLoop ∨ tripCountKind taken finite = .inLoopUnsafe) : taken = true := by
  cases taken <;> cases finite <;> simp [tripCountKind] at h ⊢

theorem hasKnownTripCount_kind {getVal : GetVal ι} {trip : TripCount ι} {value : Int}
    (h : hasKnownTripCount getVal trip = some value) :
    (trip.kind = .inLoop ∨ trip.kind = .inBody) ∧ isExact getVal trip.count = some value := by
  unfold hasKnownTripCount at h
  cases hkind : trip.kind <;> simp_all

section Main

variable {getVal getVal' : GetVal ι} {ρ : ι → Int} {control : LoopControl ι} {v : Visited ι} {t : DataType}

theorem Accepted.finite_of_kind (hv : Accepted getVal control v)
    (hkind : v.trip.kind = .inLoop ∨ v.trip.kind = .inBody) :
    isFinite getVal v.linear.upper v.strideValue control.type v.trip.cmp = true := by
  rw [hv.kind_eq] at hkind
  exact tripCountKind_finite hkind

/-- The kind is right just when the first test is decided as it says. -/
theorem Accepted.kindRight_iff (hv : Accepted getVal control v) (hranges : RangesHold getVal ρ)
    (hsides : v.TypedSides ρ control) : v.KindRight ρ ↔ v.StartsRight ρ := by
  have hends : v.trip.kind = .inLoop ∨ v.trip.kind = .inBody → v.StartsBefore ρ → ∃ n, v.Runs ρ n ∧ v.Unwrapped ρ n :=
    fun hkind hbefore => by
      obtain ⟨n, -, hruns⟩ := hv.runs_of_stepFits hranges hbefore (hv.stepFits hranges hsides (hv.finite_of_kind hkind))
      exact ⟨n, hruns⟩
  unfold Visited.StartsRight
  constructor
  · intro h
    have hbefore : v.trip.kind = .inLoop ∨ v.trip.kind = .inBody → v.StartsBefore ρ := fun hkind => by
      obtain ⟨n, hruns, hunwrapped⟩ := h.finite hkind
      exact hv.startsBefore_of_runs hranges hruns hunwrapped
    cases hkind : v.trip.kind with
    | inLoop => exact (hv.holds_first_iff hranges).mpr ⟨h.taken (.inl hkind), hbefore (.inl hkind)⟩
    | inBody => exact hbefore (.inr hkind)
    | inLoopUnsafe =>
      refine (hv.holds_first_iff hranges).mpr ⟨h.taken (.inr hkind), fun hne => ?_⟩
      rw [hv.kind_eq, hv.finite_of_ne hranges hne] at hkind
      simp only [tripCountKind, Bool.and_true, if_true] at hkind
      split_ifs at hkind
    | inBodyUnsafe => trivial
  · intro h
    cases hkind : v.trip.kind with
    | inLoop =>
      rw [hkind] at h
      obtain ⟨htaken, hbefore⟩ := (hv.holds_first_iff hranges).mp h
      exact ⟨fun _ => htaken, fun hkind' => hends hkind' hbefore⟩
    | inBody =>
      rw [hkind] at h
      exact ⟨fun hkind' => by simp [hkind] at hkind', fun hkind' => hends hkind' h⟩
    | inLoopUnsafe =>
      rw [hkind] at h
      exact ⟨fun _ => ((hv.holds_first_iff hranges).mp h).1, fun hkind' => by simp [hkind] at hkind'⟩
    | inBodyUnsafe => exact ⟨fun hkind' => by simp [hkind] at hkind', fun hkind' => by simp [hkind] at hkind'⟩

theorem Accepted.startsRight_of_fits (hv : Accepted getVal control v) (hranges : RangesHold getVal ρ)
    (hfits : v.LowerFits ρ) : v.StartsRight ρ := by
  have htaken : v.trip.kind = .inLoop ∨ v.trip.kind = .inLoopUnsafe →
      v.trip.cmp.holds (v.value ρ 0) (v.linear.upper.eval ρ) := fun hkind => by
    rw [hv.kind_eq] at hkind
    rw [value_zero, wrap_of_fits hfits]
    exact isTaken_holds hranges (tripCountKind_taken hkind)
  unfold Visited.StartsRight
  cases hkind : v.trip.kind with
  | inLoop => exact htaken (.inl hkind)
  | inBody => exact hv.startsBefore_of_fits hranges hfits
  | inLoopUnsafe => exact htaken (.inr hkind)
  | inBodyUnsafe => trivial

/-- The kind of the trip count is right exactly if what the tests have found for the lower bound holds for the first
    value of the induction, which is the lower bound if it is in the type of the induction, and so if the induction is
    not narrowed from `int64`. The expression is the number of iterations of a loop that is taken and ends without
    wrapping, for strides other than one exactly if the lower bound is in the type. The known trip count of an
    induction that is not narrowed is the number of iterations exactly where `KnownRight` holds. -/
theorem trip_count_right (hranges : RangesHold getVal ρ) (hranges' : RangesHold getVal' ρ)
    (hvisit : visitCondition getVal control = some v) (hsides : v.TypedSides ρ control)
    (hoperands : v.TypedOperands ρ t) (hbits : control.type.bits ≤ t.bits) :
    (v.KindRight ρ ↔ v.StartsRight ρ) ∧
    (v.LowerFits ρ → v.KindRight ρ) ∧ (t = control.type → v.LowerFits ρ) ∧
    (∀ n, 0 < n → v.Runs ρ n → v.Unwrapped ρ n →
      (v.strideValue = 1 ∨ v.strideValue = -1 → (n : Int) = v.trip.count.eval ρ % 2 ^ control.type.bits) ∧
      (¬ (v.strideValue = 1 ∨ v.strideValue = -1) → control.type.Fits (v.distance ρ) →
        (v.trip.count.eval ρ = n ↔ v.LowerFits ρ))) ∧
    (t = control.type → ∀ value, hasKnownTripCount getVal' v.trip = some value →
      ∃ n, v.Runs ρ n ∧ v.Unwrapped ρ n ∧ (value = n ↔ v.KnownRight ρ)) := by
  have hv := visitCondition_accepted hvisit
  have hiff := hv.kindRight_iff hranges hsides
  refine ⟨hiff, fun hfits => hiff.mpr (hv.startsRight_of_fits hranges hfits), ?_,
    fun n hn hruns hunwrapped => ⟨fun hunit => ?_, fun hunit hfits => ?_⟩, ?_⟩
  · rintro rfl
    exact hv.lowerFits hranges hoperands.lower
  · exact hv.count_unit hranges hsides hoperands hbits hunit hn hruns hunwrapped
  · exact hv.count_stride_iff hranges hsides hoperands hbits hunit hn hruns hunwrapped hfits
  · rintro rfl value hknown
    obtain ⟨hkind, hexact⟩ := hasKnownTripCount_kind hknown
    rw [← isExact_eval hranges' hexact]
    exact hv.count_eq_iff hranges hsides hoperands (hv.finite_of_kind hkind)

end Main

/-! ### Loops with constant bounds -/

/-- A range analysis that knows nothing but constants. -/
def constantsOnly : GetVal Nat := fun _ _ => none

theorem constantsOnly_holds (ρ : Nat → Int) : RangesHold constantsOnly ρ :=
  fun _ _ _ h => by simp [constantsOnly] at h

/-- `for (i = 0; i < upper; i++)`. -/
def upwards (upper : Int) : LoopControl Nat where
  a := .induction .linear (.invariant (.fetch (.intConstant 1))) (.invariant (.fetch (.intConstant 0))) .int32
  b := .invariant (.fetch (.intConstant upper))
  type := .int32
  cmp := .lt
  breakLoop := ⟨false, false, false, false, false⟩

theorem trip_count_right_upwards : ∃ v, visitCondition constantsOnly (upwards 10) = some v ∧
    hasKnownTripCount constantsOnly v.trip = some 10 ∧
    ∃ n, v.Runs (fun _ => 0) n ∧ v.Unwrapped (fun _ => 0) n ∧ ((10 : Int) = n ↔ v.KnownRight (fun _ => 0)) := by
  refine ⟨_, rfl, rfl, ?_⟩
  have hranges := constantsOnly_holds (fun _ => 0)
  have htyped : ∀ c, DataType.int32.Fits c → (Invariant.fetch (.intConstant c) : Invariant Nat).Typed
      (fun _ => 0) .int32 :=
    fun c hc => ⟨rfl, hc⟩
  exact (trip_count_right hranges hranges (rfl : visitCondition constantsOnly (upwards 10) = some _)
    ⟨rfl, htyped 10 (by decide)⟩ ⟨htyped 0 (by decide), htyped 1 (by decide)⟩ le_rfl).2.2.2.2 rfl 10 rfl

/-- `for (long i = -2^33; (int) i < -5; i++)`. -/
def narrowed : LoopControl Nat where
  a := .induction .linear (.invariant (.fetch (.longConstant 1))) (.invariant (.fetch (.longConstant (-2 ^ 33)))) .int32
  b := .invariant (.fetch (.intConstant (-5)))
  type := .int32
  cmp := .lt
  breakLoop := ⟨false, false, false, false, false⟩

/-- The known trip count of a loop that is not taken is negative, and a narrowed loop that is not taken counts as
    taken. -/
theorem known_trip_count_negative :
    (∃ v, visitCondition constantsOnly (upwards (-5)) = some v ∧ v.trip.kind = .inBody ∧
      hasKnownTripCount constantsOnly v.trip = some (-5) ∧ v.Runs (fun _ => 0) 0) ∧
    ∃ v, visitCondition constantsOnly narrowed = some v ∧ v.trip.kind = .inLoop ∧ ¬ v.Taken (fun _ => 0) := by
  refine ⟨⟨_, rfl, rfl, rfl, ⟨fun k hk => absurd hk (Nat.not_lt_zero k), ?_⟩⟩, ⟨_, rfl, rfl, ?_⟩⟩
  · decide
  · unfold Visited.Taken
    decide

end Art.Induction
