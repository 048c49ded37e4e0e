import Art.Compiler.LastValue
import Art.Theorems.InductionInfo
import Mathlib.Algebra.Group.Even
import Mathlib.Algebra.Order.Ring.Int
import Mathlib.Tactic.Linarith

/-! The code for the last value of a polynomial or a geometric induction, compared with what the loop computes in the
    type of the variable. -/

namespace Art.Induction
open Lib (maxInt wrap wrap_modEq)

variable {ι : Type}

/-! ### Values of code -/

def HInstruction.eval (ρ : ι → Int) : HInstruction ι → Int
  | fetch f => f.eval ρ
  | binary op type left right => type.wrap (op.apply (left.eval ρ) (right.eval ρ))
  | neg type input => type.wrap (-input.eval ρ)

theorem Invariant.generateCode_eval (ρ : ι → Int) (e : Invariant ι) : e.generateCode.eval ρ = e.eval ρ := by
  induction e with
  | fetch f => rfl
  | op o a b type iha ihb => rw [generateCode, HInstruction.eval, Invariant.eval, iha, ihb]
  | neg b type ih => rw [generateCode, HInstruction.eval, Invariant.eval, ih]

variable {type : DataType}

theorem getConstant_eval (ρ : ι → Int) (htype : type = .int32 ∨ type = .int64) {v : Int}
    (hv : type.Fits v) : (getConstant type v).eval ρ = v := by
  rcases htype with rfl | rfl
  · exact DataType.wrap_of_fits hv
  · rfl

theorem DataType.wrap_eq_iff {t : DataType} {x y : Int} : t.wrap x = t.wrap y ↔ x ≡ y [ZMOD 2 ^ t.bits] :=
  ⟨fun h => (wrap_modEq t x).symm.trans (h ▸ wrap_modEq t y), wrap_congr⟩

/-! ### Polynomial inductions -/

/-- The loop `k = k + step i`, in the type of `k`. -/
def accumulate (t : DataType) (step : Nat → Int) (c : Int) : Nat → Int
  | 0 => c
  | i + 1 => t.wrap (accumulate t step c i + step i)

/-- The sum of the numbers below `m`. -/
def triangle : Nat → Int
  | 0 => 0
  | m + 1 => triangle m + m

theorem two_mul_triangle (m : Nat) : 2 * triangle m = m * (m - 1) := by
  induction m with
  | zero => rfl
  | succ m ih =>
    rw [triangle, mul_add, ih]
    push_cast
    ring

theorem accumulate_modEq (t : DataType) (a b c : Int) (m : Nat) :
    accumulate t (fun i => t.wrap (a * i + b)) c m ≡ a * triangle m + b * m + c [ZMOD 2 ^ t.bits] := by
  induction m with
  | zero => simp [accumulate, triangle]
  | succ m ih =>
    have hstep := ih.add (DataType.wrap_modEq t (a * m + b))
    refine (DataType.wrap_modEq t _).trans (hstep.trans ?_)
    rw [triangle]
    push_cast
    ring_nf
    rfl

theorem accumulate_eq (t : DataType) (a b c : Int) {m : Nat} (hm : 0 < m) :
    accumulate t (fun i => t.wrap (a * i + b)) c m = t.wrap (a * triangle m + b * m + c) := by
  obtain ⟨m, rfl⟩ : ∃ k, m = k + 1 := ⟨m - 1, by omega⟩
  refine Eq.trans ?_ (DataType.wrap_congr (accumulate_modEq t a b c (m + 1)))
  rw [accumulate, DataType.wrap_wrap]

/-- How often `m * (m - 1)` passes the range of 64 bits. -/
def overflows (m : Int) : Int := (m * (m - 1) + 2 ^ 63) / 2 ^ 64

theorem wrap_product (m : Int) : wrap 63 (m * (m - 1)) = m * (m - 1) - 2 ^ 64 * overflows m := by
  unfold wrap overflows
  omega

theorem half_eq (m : Nat) : (wrap 63 ((m : Int) * (m - 1))).tdiv 2 = triangle m - 2 ^ 63 * overflows m := by
  have heven : wrap 63 ((m : Int) * (m - 1)) = 2 * (triangle m - 2 ^ 63 * overflows m) := by
    rw [wrap_product, ← two_mul_triangle]
    ring
  rw [heven, Int.mul_tdiv_cancel_left _ (by decide)]

theorem polynomialSum_fits (htype : type = .int32 ∨ type = .int64) (a b m : Int) :
    type.Fits (polynomialSum a b m type) := by
  rcases htype with rfl | rfl
  · exact Lib.wrap_signed 31 _
  · exact Lib.wrap_signed 63 _

theorem polynomialSum_modEq (htype : type = .int32 ∨ type = .int64) (a b : Int) (m : Nat) :
    polynomialSum a b m type ≡ a * triangle m + b * m - a * overflows m * 2 ^ 63 [ZMOD 2 ^ type.bits] := by
  have hsum : wrap 63 (wrap 63 (a * (triangle m - 2 ^ 63 * overflows m)) + wrap 63 (b * m)) ≡
      a * triangle m + b * m - a * overflows m * 2 ^ 63 [ZMOD 2 ^ 64] := by
    refine (wrap_modEq 63 _).trans (((wrap_modEq 63 _).add (wrap_modEq 63 _)).trans ?_)
    ring_nf
    rfl
  unfold polynomialSum
  rw [half_eq]
  rcases htype with rfl | rfl
  · exact (wrap_modEq 31 _).trans (hsum.of_dvd (pow_dvd_pow 2 (by decide)))
  · exact hsum

theorem lost_iff (htype : type = .int32 ∨ type = .int64) (x : Int) :
    (2 : Int) ^ type.bits ∣ x * 2 ^ 63 ↔ type = .int32 ∨ Even x := by
  rcases htype with rfl | rfl
  · exact iff_of_true (Dvd.dvd.mul_left (pow_dvd_pow 2 (by decide)) x) (.inl rfl)
  · rw [show (2 : Int) ^ DataType.int64.bits = 2 * 2 ^ 63 by rfl, mul_dvd_mul_iff_right (by decide), even_iff_two_dvd]
    simp

section polynomial

variable {getVal : GetVal ι} {ρ : ι → Int} {type : DataType} {a b c : Invariant ι} {trip : TripCount ι}

theorem solveAddSub_polynomial (x : Operand ι) (hx : x.isEntryPhi = true) (cycle : Option (InductionInfo ι)) :
    solveAddSub getVal ⟨.invariant c, true⟩ x
        ⟨false, some (.induction .linear (.invariant a) (.invariant b) type), cycle⟩ true type =
      some (.induction .polynomial (.induction .linear (.invariant a) (.invariant b) type) (.invariant c) type) := by
  simp [solveAddSub, mainSolveAddSub, hx]

theorem generateLastValuePolynomial_eq {av bv m : Int} (ha : isExact getVal a = some av)
    (hb : isExact getVal b = some bv) (hm : isExact getVal trip.count = some m) (hpos : 1 ≤ m) :
    generateLastValuePolynomial getVal
        (.induction .polynomial (.induction .linear (.invariant a) (.invariant b) type) (.invariant c) type) trip =
      some (.binary .add type (getConstant type (polynomialSum av bv m type)) c.generateCode) := by
  unfold isExact at ha hb
  simp [generateLastValuePolynomial, ha, hb, hm, hpos, generateCode]

theorem polynomialCode_eval_iff (htype : type = .int32 ∨ type = .int64) (ρ : ι → Int) (c : Invariant ι) (a b : Int)
    {m : Nat} (hpos : 0 < m) :
    (HInstruction.binary .add type (getConstant type (polynomialSum a b m type)) c.generateCode).eval ρ =
        accumulate type (fun i => type.wrap (a * i + b)) (c.eval ρ) m ↔ type = .int32 ∨ Even (a * overflows m) := by
  rw [accumulate_eq type a b _ hpos, HInstruction.eval, getConstant_eval ρ htype (polynomialSum_fits htype a b m),
    Invariant.generateCode_eval, DataType.wrap_eq_iff, ← lost_iff htype]
  have hsum := (polynomialSum_modEq htype a b m).add_right (c.eval ρ)
  have hlost : a * triangle m + b * m + c.eval ρ -
      (a * triangle m + b * m - a * overflows m * 2 ^ 63 + c.eval ρ) = a * overflows m * 2 ^ 63 := by ring
  constructor
  · intro heq
    have hdvd := (hsum.symm.trans heq).dvd
    rwa [hlost] at hdvd
  · intro hdvd
    exact hsum.trans (Int.modEq_iff_dvd.mpr (by rwa [hlost]))

theorem linear_closedForm (hranges : RangesHold getVal ρ) {av bv : Int} (ha : isExact getVal a = some av)
    (hb : isExact getVal b = some bv) :
    (InductionInfo.induction .linear (.invariant a) (.invariant b) type).closedForm ρ =
      fun i : Nat => type.wrap (av * i + bv) := by
  funext i
  simp only [InductionInfo.closedForm, isExact_eval hranges ha, isExact_eval hranges hb]

/-- The last value of `k = k + (a * i + b)` is right unless the variable has 64 bits, the coefficient is odd, and the
    product of the trip count wraps around an odd number of times. -/
theorem generateLastValuePolynomial_eval_iff (htype : type = .int32 ∨ type = .int64) (hranges : RangesHold getVal ρ)
    {av bv m : Int} (ha : isExact getVal a = some av) (hb : isExact getVal b = some bv)
    (hm : isExact getVal trip.count = some m) (hpos : 1 ≤ m) (x : Operand ι) (hx : x.isEntryPhi = true) :
    ∃ info code,
      solveAddSub getVal ⟨.invariant c, true⟩ x
        ⟨false, some (.induction .linear (.invariant a) (.invariant b) type), none⟩ true type = some info ∧
      generateLastValuePolynomial getVal info trip = some code ∧
      (code.eval ρ = accumulate type
          ((InductionInfo.induction .linear (.invariant a) (.invariant b) type).closedForm ρ) (c.eval ρ) m.toNat ↔
        type = .int32 ∨ Even (av * overflows m)) := by
  refine ⟨_, _, solveAddSub_polynomial x hx none, generateLastValuePolynomial_eq ha hb hm hpos, ?_⟩
  obtain ⟨m, rfl⟩ : ∃ k : Nat, m = k := ⟨m.toNat, by omega⟩
  rw [linear_closedForm hranges ha hb, Int.toNat_natCast]
  exact polynomialCode_eval_iff htype ρ c av bv (by omega)

end polynomial

def noRanges : GetVal Unit := fun _ _ => none

theorem noRanges_hold (ρ : Unit → Int) : RangesHold noRanges ρ :=
  fun _ _ _ h => absurd h (by simp [noRanges])

/-- The trip count of `for (long i = 0; i < n; i++)`. -/
def countTo (n : Int) : TripCount Unit :=
  visitTripCount noRanges (createConstant 0 .int64) (createConstant n .int64) (createConstant 1 .int64) 1 .int64 .lt

def linearTerm (a b : Int) : InductionInfo Unit :=
  .induction .linear (.invariant (createConstant a .int64)) (.invariant (createConstant b .int64)) .int64

theorem isExact_createConstant (v : Int) : isExact noRanges (createConstant v .int64) = some v := rfl

theorem countTo_exact (n : Int) : isExact noRanges (countTo n).count = some n := rfl

/-- `for (long i = 0; i < 10; i++) k += 3 * i + 5` -/
theorem generateLastValuePolynomial_ten :
    ∃ info code,
      solveAddSub noRanges ⟨.invariant (createConstant 7 .int64), true⟩ ⟨true, none, none⟩
        ⟨false, some (linearTerm 3 5), none⟩ true .int64 = some info ∧
      generateLastValuePolynomial noRanges info (countTo 10) = some code ∧
      code.eval (fun _ => 0) = accumulate .int64 ((linearTerm 3 5).closedForm fun _ => 0) 7 10 := by
  obtain ⟨info, code, hinfo, hcode, heval⟩ :=
    generateLastValuePolynomial_eval_iff (c := createConstant 7 .int64) (.inr rfl) (noRanges_hold fun _ => 0)
      (isExact_createConstant 3) (isExact_createConstant 5) (countTo_exact 10) (by decide) ⟨true, none, none⟩ rfl
  exact ⟨info, code, hinfo, hcode, heval.mpr (.inr (by decide))⟩

/-- `for (long i = 0; i < 2^32 + 1; i++) k += i`: the product of the trip count wraps around before it is halved. -/
theorem generateLastValuePolynomial_wraps :
    hasKnownTripCount noRanges (countTo (2 ^ 32 + 1)) = some (2 ^ 32 + 1) ∧
    ∃ info code,
      solveAddSub noRanges ⟨.invariant (createConstant 0 .int64), true⟩ ⟨true, none, none⟩
        ⟨false, some (linearTerm 1 0), none⟩ true .int64 = some info ∧
      generateLastValuePolynomial noRanges info (countTo (2 ^ 32 + 1)) = some code ∧
      code.eval (fun _ => 0) ≠ accumulate .int64 ((linearTerm 1 0).closedForm fun _ => 0) 0 (2 ^ 32 + 1) := by
  refine ⟨rfl, _, _, solveAddSub_polynomial _ rfl none, generateLastValuePolynomial_eq (isExact_createConstant 1)
    (isExact_createConstant 0) (countTo_exact _) (by decide), fun heq => ?_⟩
  rw [linearTerm, linear_closedForm (noRanges_hold fun _ => 0) (isExact_createConstant 1) (isExact_createConstant 0)]
    at heq
  have hcond := (polynomialCode_eval_iff (m := 2 ^ 32 + 1) (.inr rfl) (fun _ => 0) (createConstant 0 .int64) 1 0
    (by decide)).mp heq
  exact absurd hcond (by decide)

/-! ### Powers -/

section power

theorem safeMul_modEq (a b : Int) (overflow : Bool) : (safeMul a b overflow).1 ≡ a * b [ZMOD 2 ^ 64] :=
  wrap_modEq 63 _

theorem pow_split (pow b : Int) (e : Nat) : pow * b ^ (e % 2) * (b * b) ^ (e / 2) = pow * b ^ e := by
  conv_rhs => rw [← Nat.div_add_mod e 2, pow_add, pow_mul]
  ring

/-- The loop computes the power, up to the wraps. -/
theorem intPowLoop_modEq (pow b : Int) (overflow : Bool) (e : Nat) :
    (intPowLoop pow b overflow e).1 ≡ pow * b ^ e [ZMOD 2 ^ 64] := by
  induction e using Nat.strong_induction_on generalizing pow b overflow with
  | h e ih =>
    rw [intPowLoop]
    split
    · next hzero => rw [hzero, pow_zero, mul_one]
    next hzero =>
    have hpow : (if e % 2 = 1 then safeMul pow b overflow else (pow, overflow)).1 ≡
        pow * b ^ (e % 2) [ZMOD 2 ^ 64] := by
      rcases Nat.mod_two_eq_zero_or_one e with h | h
      · rw [if_neg (by omega), h, pow_zero, mul_one]
      · rw [if_pos h, h, pow_one]
        exact safeMul_modEq ..
    have hb : ∀ o, (if e / 2 ≠ 0 then safeMul b b o else (b, o)).1 ^ (e / 2) ≡ (b * b) ^ (e / 2) [ZMOD 2 ^ 64] := by
      intro o
      split
      · exact (safeMul_modEq ..).pow _
      · next h => rw [not_not.mp h, pow_zero, pow_zero]
    refine (ih (e / 2) (by omega) _ _ _).trans ((hpow.mul (hb _)).trans ?_)
    rw [pow_split]

theorem intPowLoop_overflow (pow b : Int) (e : Nat) : (intPowLoop pow b true e).2 = true := by
  induction e using Nat.strong_induction_on generalizing pow b with
  | h e ih =>
    rw [intPowLoop]
    split
    · rfl
    have hpow : (if e % 2 = 1 then safeMul pow b true else (pow, true)).2 = true := by split <;> rfl
    have hb : (if e / 2 ≠ 0 then safeMul b b true else (b, true)).2 = true := by split <;> rfl
    dsimp only
    rw [hpow, hb]
    exact ih (e / 2) (by omega) _ _

theorem safeMul_cases {a b : Int} (ha : 1 ≤ a) (hb : 1 ≤ b) :
    (a * b ≤ maxInt 63 ∧ safeMul a b false = (a * b, false)) ∨
      (maxInt 63 < a * b ∧ (safeMul a b false).2 = true) := by
  have hdiv : a > maxInt 63 / b ↔ maxInt 63 < a * b := Int.ediv_lt_iff_lt_mul (by omega)
  have hpos : 1 ≤ a * b := by nlinarith
  rcases lt_or_ge (maxInt 63) (a * b) with hlt | hle
  · refine .inr ⟨hlt, ?_⟩
    simp only [safeMul, Bool.false_or, decide_eq_true_eq]
    exact ⟨by omega, by omega, hdiv.mpr hlt⟩
  refine .inl ⟨hle, ?_⟩
  have hflag : ¬(a > 0 ∧ b > 0 ∧ a > maxInt 63 / b) := fun h => hle.not_gt (hdiv.mp h.2.2)
  rw [safeMul, Lib.wrap_of_signed ⟨le_trans (by decide) hpos, hle⟩, decide_eq_false hflag]
  rfl

theorem powStep_cases {pow b : Int} (hpow : 1 ≤ pow) (hpow' : pow ≤ maxInt 63) (hb : 1 ≤ b) (e : Nat) :
    (pow * b ^ (e % 2) ≤ maxInt 63 ∧
        (if e % 2 = 1 then safeMul pow b false else (pow, false)) = (pow * b ^ (e % 2), false)) ∨
      (maxInt 63 < pow * b ^ (e % 2) ∧ (if e % 2 = 1 then safeMul pow b false else (pow, false)).2 = true) := by
  rcases Nat.mod_two_eq_zero_or_one e with h | h
  · rw [h, pow_zero, mul_one]
    exact .inl ⟨hpow', rfl⟩
  · rw [h, pow_one]
    exact safeMul_cases hpow hb

theorem baseStep_cases {b : Int} (hb : 1 ≤ b) (hb' : b ≤ maxInt 63) (e : Nat) :
    (∃ c, 1 ≤ c ∧ c ≤ maxInt 63 ∧ c ^ (e / 2) = (b * b) ^ (e / 2) ∧
        (if e / 2 ≠ 0 then safeMul b b false else (b, false)) = (c, false)) ∨
      (e / 2 ≠ 0 ∧ maxInt 63 < b * b ∧ (if e / 2 ≠ 0 then safeMul b b false else (b, false)).2 = true) := by
  by_cases h : e / 2 = 0
  · rw [h, pow_zero, if_neg (by omega)]
    exact .inl ⟨b, hb, hb', pow_zero b, rfl⟩
  rw [if_pos h]
  rcases safeMul_cases hb hb with ⟨hle, heq⟩ | ⟨hlt, hflag⟩
  · exact .inl ⟨b * b, by nlinarith, hle, rfl, heq⟩
  · exact .inr ⟨h, hlt, hflag⟩

/-- The overflow flag is set just when the power does not fit. -/
theorem intPowLoop_flag {pow b : Int} (hpow : 1 ≤ pow) (hpow' : pow ≤ maxInt 63) (hb : 1 ≤ b)
    (hb' : b ≤ maxInt 63) (e : Nat) :
    (intPowLoop pow b false e).2 = true ↔ maxInt 63 < pow * b ^ e := by
  induction e using Nat.strong_induction_on generalizing pow b with
  | h e ih =>
    rw [intPowLoop]
    split
    · next hzero =>
      rw [hzero, pow_zero, mul_one]
      exact iff_of_false Bool.false_ne_true hpow'.not_gt
    next hzero =>
    dsimp only
    rcases powStep_cases hpow hpow' hb e with ⟨hle, heq⟩ | ⟨hlt, hflag⟩
    · rw [heq]
      have hpos : 1 ≤ b ^ (e % 2) := one_le_pow₀ hb
      rcases baseStep_cases hb hb' e with ⟨c, hc, hc', hpowc, heqc⟩ | ⟨hne, hlt, hflag⟩
      · rw [heqc, ih (e / 2) (by omega) (by nlinarith) hle hc hc', hpowc, pow_split]
      -- the square is a factor of the power
      have hsquare : b * b ≤ (b * b) ^ (e / 2) := le_self_pow₀ (by nlinarith) hne
      have hfactor : 1 ≤ pow * b ^ (e % 2) := by nlinarith
      rw [hflag]
      refine iff_of_true (intPowLoop_overflow ..) (lt_of_lt_of_le hlt (hsquare.trans ?_))
      rw [← pow_split pow b e]
      exact le_mul_of_one_le_left (by positivity) hfactor
    · have hrest : 1 ≤ (b * b) ^ (e / 2) := one_le_pow₀ (by nlinarith)
      have hsticky : ∀ r : Int × Bool, r.2 = true → (if e / 2 ≠ 0 then safeMul b b r.2 else (b, r.2)).2 = true := by
        intro r hr
        rw [hr]
        split <;> rfl
      rw [hsticky _ hflag]
      refine iff_of_true (intPowLoop_overflow ..) (lt_of_lt_of_le hlt ?_)
      rw [← pow_split pow b e]
      exact le_mul_of_one_le_right (by positivity) hrest

theorem intPowLoop_signed {pow b : Int} {overflow : Bool} (h : Lib.Signed 63 pow) (e : Nat) :
    Lib.Signed 63 (intPowLoop pow b overflow e).1 := by
  induction e using Nat.strong_induction_on generalizing pow b overflow with
  | h e ih =>
    rw [intPowLoop]
    split
    · exact h
    refine ih (e / 2) (by omega) ?_
    split
    · exact Lib.wrap_signed 63 _
    · exact h

theorem intPow_eq {f : Int} (hf : 1 ≤ f) (hf' : f ≤ maxInt 63) (m : Nat) :
    intPow f m = (wrap 63 (f ^ m), decide (maxInt 63 < f ^ m)) := by
  have hflag := intPowLoop_flag (le_refl (1 : Int)) (by decide) hf hf' m
  have hmod := intPowLoop_modEq 1 f false m
  have hsigned : Lib.Signed 63 (intPowLoop 1 f false m).1 := intPowLoop_signed (by decide) m
  rw [one_mul] at hflag hmod
  refine Prod.ext (Lib.wrap_eq_of_modEq hsigned hmod.symm).symm ?_
  exact Bool.eq_iff_iff.mpr (hflag.trans decide_eq_true_iff.symm)

end power

/-! ### Geometric inductions -/

/-- The loop `k = k op f`, in the type of `k`. -/
def repeated (t : DataType) (op : InvariantOp) (f a : Int) : Nat → Int
  | 0 => a
  | i + 1 => t.wrap (op.apply (repeated t op f a i) f)

theorem repeated_mul_modEq (t : DataType) (f a : Int) (m : Nat) :
    repeated t .mul f a m ≡ a * f ^ m [ZMOD 2 ^ t.bits] := by
  induction m with
  | zero => rw [repeated, pow_zero, mul_one]
  | succ m ih =>
    refine (DataType.wrap_modEq t _).trans ((ih.mul_right f).trans ?_)
    rw [pow_succ, mul_assoc]

theorem tdiv_tdiv (a : Int) (p q : Nat) : (a.tdiv p).tdiv q = a.tdiv (p * q) := by
  obtain ⟨n, rfl | rfl⟩ := a.eq_nat_or_neg
  · rw [← Int.ofNat_tdiv, ← Int.ofNat_tdiv, Nat.div_div_eq_div_mul, ← Int.natCast_mul, ← Int.ofNat_tdiv]
  · rw [Int.neg_tdiv, Int.neg_tdiv, Int.neg_tdiv, ← Int.ofNat_tdiv, ← Int.ofNat_tdiv, Nat.div_div_eq_div_mul,
      ← Int.natCast_mul, ← Int.ofNat_tdiv]

section geometric

variable {type : DataType} (htype : type = .int32 ∨ type = .int64) {f : Int} (hf : 1 ≤ f) {m : Nat}

include htype in
theorem fits_tdiv {a d : Int} (hd : 1 ≤ d) (ha : type.Fits a) : type.Fits (a.tdiv d) := by
  have hle := Int.natAbs_tdiv_le_natAbs a d
  have hnonneg : 0 ≤ a → 0 ≤ a.tdiv d := fun h => Int.tdiv_nonneg h (by omega)
  have hnonpos : a ≤ 0 → a.tdiv d ≤ 0 := by
    intro h
    have hneg : 0 ≤ (-a).tdiv d := Int.tdiv_nonneg (by omega) (by omega)
    rw [Int.neg_tdiv] at hneg
    omega
  rcases htype with rfl | rfl <;>
    simp only [DataType.Fits, DataType.minValueOfIntegralType, DataType.maxValueOfIntegralType, Lib.minInt,
      maxInt] at ha ⊢ <;> omega

include htype in
theorem le_maxInt_of_fits {x : Int} (hx : type.Fits x) : x ≤ maxInt 63 := by
  rcases htype with rfl | rfl
  · exact hx.2.trans (by decide)
  · exact hx.2

include htype hf

theorem repeated_div_eq {a : Int} (ha : type.Fits a) : repeated type .div f a m = a.tdiv (f ^ m) := by
  obtain ⟨g, rfl⟩ : ∃ g : Nat, f = g := ⟨f.toNat, by omega⟩
  induction m with
  | zero => rw [repeated, pow_zero, Int.tdiv_one]
  | succ m ih =>
    have hpow : (1 : Int) ≤ (g : Int) ^ m := one_le_pow₀ hf
    rw [repeated, ih, InvariantOp.apply, DataType.wrap_of_fits (fits_tdiv htype hf (fits_tdiv htype hpow ha)),
      ← Int.natCast_pow, tdiv_tdiv, pow_succ]
    rfl

theorem geometricPower_mul (hf' : type.Fits f) : geometricPower false f m type = type.wrap (f ^ m) := by
  unfold geometricPower
  rw [intPow_eq hf (le_maxInt_of_fits htype hf')]
  rcases htype with rfl | rfl
  · exact Lib.wrap_congr ((wrap_modEq 63 _).of_dvd (pow_dvd_pow 2 (by decide)))
  · rfl

theorem geometricPower_div (hf' : type.Fits f) :
    geometricPower true f m type = if type.Fits (f ^ m) then f ^ m else 0 := by
  have hpow : 1 ≤ f ^ m := one_le_pow₀ hf
  unfold geometricPower
  rw [intPow_eq hf (le_maxInt_of_fits htype hf')]
  rcases lt_or_ge (maxInt 63) (f ^ m) with hlt | hle
  · have hnot : ¬type.Fits (f ^ m) := fun h => hlt.not_ge (le_maxInt_of_fits htype h)
    simp [hlt, hnot]
  · have hwrap : wrap 63 (f ^ m) = f ^ m := Lib.wrap_of_signed ⟨le_trans (by decide) hpow, hle⟩
    have hfits : type.Fits (f ^ m) ↔ ¬(type ≠ .int64 ∧ ¬Lib.Signed 31 (f ^ m)) := by
      rcases htype with rfl | rfl
      · simp [DataType.Fits, Lib.Signed, DataType.minValueOfIntegralType, DataType.maxValueOfIntegralType]
      · exact iff_of_true ⟨le_trans (by decide) hpow, hle⟩ fun h => h.1 rfl
    simp only [if_true, hwrap, decide_eq_false hle.not_gt, Bool.false_eq_true, false_or, hfits, ite_not]

omit htype hf

/-- When the last value of a geometric induction is right. A power that is zero in the type, or is not in it, makes the
    code drop what was added, and a quotient of the most negative number that is not zero. -/
def GeometricExact (type : DataType) (f a b : Int) (m : Nat) : Bool → Prop
  | true => type.Fits (f ^ m) ∨
      if a = type.minValueOfIntegralType ∧ f ^ m = -type.minValueOfIntegralType then b = 1 else b = 0
  | false => ¬(2 : Int) ^ type.bits ∣ f ^ m ∨ b = 0

theorem wrap_add_eq_zero_iff {q b : Int} (hb : type.Fits b) (hq : type.Fits (-q)) : 0 = type.wrap (q + b) ↔ b = -q := by
  constructor
  · intro h
    have hmod : q + b ≡ 0 [ZMOD 2 ^ type.bits] := by
      rw [← DataType.wrap_eq_iff, ← h, DataType.wrap_of_fits (DataType.fits_zero type)]
    have hb' : b ≡ -q [ZMOD 2 ^ type.bits] := by simpa using hmod.add_left (-q)
    rw [← DataType.wrap_of_fits hb, DataType.wrap_congr hb', DataType.wrap_of_fits hq]
  · rintro rfl
    rw [add_neg_cancel, DataType.wrap_of_fits (DataType.fits_zero type)]

include htype in
theorem tdiv_of_not_fits {a d : Int} (hd : 1 ≤ d) (hnot : ¬type.Fits d) (ha : type.Fits a) :
    a.tdiv d = if a = type.minValueOfIntegralType ∧ d = -type.minValueOfIntegralType then -1 else 0 := by
  have hlarge : -type.minValueOfIntegralType ≤ d := by
    rcases htype with rfl | rfl <;>
      simp only [DataType.Fits, DataType.minValueOfIntegralType, DataType.maxValueOfIntegralType, Lib.minInt,
        maxInt] at hnot ⊢ <;> omega
  have hmax : type.maxValueOfIntegralType < -type.minValueOfIntegralType := by rcases htype with rfl | rfl <;> decide
  obtain ⟨hmin, hmax'⟩ := ha
  split
  · next h =>
    rw [h.1, h.2, Int.tdiv_neg, Int.tdiv_self (by omega)]
  next h =>
  refine Int.natAbs_eq_zero.mp ?_
  rw [Int.natAbs_tdiv]
  exact Nat.div_eq_of_lt (by omega)

variable {ρ : ι → Int} {opa opb : HInstruction ι} (hf' : type.Fits f) (hb : type.Fits (opb.eval ρ))

include htype hf hf' hb

/-- The code for a geometric multiplication is right just when the power is exact enough. -/
theorem geometricCode_mul :
    (geometricCode false (geometricPower false f m type) type opa opb).eval ρ =
        type.wrap (repeated type .mul f (opa.eval ρ) m + opb.eval ρ) ↔
      GeometricExact type f (opa.eval ρ) (opb.eval ρ) m false := by
  have hrep := (repeated_mul_modEq type f (opa.eval ρ) m).add_right (opb.eval ρ)
  have hzero : type.wrap (f ^ m) = 0 ↔ (2 : Int) ^ type.bits ∣ f ^ m := by
    rw [← Int.modEq_zero_iff_dvd, ← DataType.wrap_eq_iff, DataType.wrap_of_fits (DataType.fits_zero type)]
  rw [DataType.wrap_congr hrep, geometricPower_mul htype hf hf', geometricCode, GeometricExact]
  by_cases hdvd : (2 : Int) ^ type.bits ∣ f ^ m
  · have hprod : opa.eval ρ * f ^ m + opb.eval ρ ≡ opb.eval ρ [ZMOD 2 ^ type.bits] := by
      have hmod : opa.eval ρ * f ^ m ≡ 0 [ZMOD 2 ^ type.bits] := Int.modEq_zero_iff_dvd.mpr (hdvd.mul_left _)
      simpa using hmod.add_right (opb.eval ρ)
    rw [if_pos (hzero.mpr hdvd), getConstant_eval ρ htype (DataType.fits_zero type), DataType.wrap_congr hprod,
      DataType.wrap_of_fits hb]
    simp [hdvd, eq_comm]
  · rw [if_neg fun h => hdvd (hzero.mp h)]
    refine iff_of_true ?_ (.inl hdvd)
    simp [HInstruction.eval, InvariantOp.apply, getConstant_eval ρ htype (DataType.wrap_fits type _)]

theorem geometricCode_div (ha : type.Fits (opa.eval ρ)) :
    (geometricCode true (geometricPower true f m type) type opa opb).eval ρ =
        type.wrap (repeated type .div f (opa.eval ρ) m + opb.eval ρ) ↔
      GeometricExact type f (opa.eval ρ) (opb.eval ρ) m true := by
  have hpow : 1 ≤ f ^ m := one_le_pow₀ hf
  rw [repeated_div_eq htype hf ha, geometricPower_div htype hf hf', geometricCode, GeometricExact]
  by_cases hfits : type.Fits (f ^ m)
  · rw [if_pos hfits, if_neg (by omega)]
    refine iff_of_true ?_ (.inl hfits)
    simp [HInstruction.eval, InvariantOp.apply, getConstant_eval ρ htype hfits]
  rw [if_neg hfits, if_pos rfl, getConstant_eval ρ htype (DataType.fits_zero type),
    tdiv_of_not_fits htype hpow hfits ha, or_iff_right hfits]
  split <;> exact wrap_add_eq_zero_iff hb (by rcases htype with rfl | rfl <;> decide)

end geometric

section lastValue

variable {getVal : GetVal ι} {ρ : ι → Int} {type : DataType} {a b : Invariant ι} {trip : TripCount ι} {fetch : Fetch ι}

def geometric (isDiv : Bool) (fetch : Fetch ι) (a b : Invariant ι) (type : DataType) : InductionInfo ι :=
  .induction (if isDiv then .geometricDiv fetch else .geometricMul fetch) (.invariant a) (.invariant b) type

theorem solveOp_geometric (isDiv : Bool) :
    solveOp getVal ⟨.invariant a, true⟩ ⟨true, none, none⟩ ⟨false, some (.invariant (.fetch fetch)), none⟩
      (if isDiv then .div else .mul) type = some (geometric isDiv fetch a (createConstant 0 type) type) := by
  cases isDiv <;> rfl

theorem transferAddSub_geometric (isDiv : Bool) (c : Invariant ι) :
    transferAddSub getVal true type (geometric isDiv fetch a b type) (.invariant c) =
      some (geometric isDiv fetch a (createInvariantOp getVal .add b c) type) := by
  unfold geometric
  cases isDiv <;> simp [transferAddSub, InductionInfo.isNarrowingLinear]

theorem generateLastValueGeometric_eq {f m : Int} (hfetch : fetch.int64 = some f) (hf : 1 ≤ f)
    (hm : isExact getVal trip.count = some m) (hpos : 1 ≤ m) (isDiv : Bool) :
    generateLastValueGeometric getVal (geometric isDiv fetch a b type) trip =
      some (geometricCode isDiv (geometricPower isDiv f m type) type a.generateCode b.generateCode) := by
  unfold geometric
  cases isDiv <;>
    simp [generateLastValueGeometric, InductionClass.geometric, hfetch, hf, hm, hpos, generateCode]

theorem geometricCode_eval_iff (htype : type = .int32 ∨ type = .int64) (ha : type.Fits (a.eval ρ))
    (hb : type.Fits (b.eval ρ)) {f : Int} (hf : 1 ≤ f) (hf' : type.Fits f) (m : Nat) (isDiv : Bool) :
    (geometricCode isDiv (geometricPower isDiv f m type) type a.generateCode b.generateCode).eval ρ =
        type.wrap (repeated type (if isDiv then .div else .mul) f (a.eval ρ) m + b.eval ρ) ↔
      GeometricExact type f (a.eval ρ) (b.eval ρ) m isDiv := by
  rw [← Invariant.generateCode_eval] at ha hb
  rw [← Invariant.generateCode_eval ρ a, ← Invariant.generateCode_eval ρ b]
  cases isDiv with
  | false => exact geometricCode_mul htype hf hf' hb
  | true => exact geometricCode_div htype hf hf' hb ha

/-- The last value of `a * f ^ i + b` or `a * f ^ -i + b` is right exactly under `GeometricExact`. -/
theorem generateLastValueGeometric_eval_iff (htype : type = .int32 ∨ type = .int64) (ha : type.Fits (a.eval ρ))
    (hb : type.Fits (b.eval ρ)) {f m : Int} (hfetch : fetch.int64 = some f) (hf : 1 ≤ f) (hf' : type.Fits f)
    (hm : isExact getVal trip.count = some m) (hpos : 1 ≤ m) (isDiv : Bool) :
    ∃ code, generateLastValueGeometric getVal (geometric isDiv fetch a b type) trip = some code ∧
      (code.eval ρ =
          type.wrap (repeated type (if isDiv then .div else .mul) f (a.eval ρ) m.toNat + b.eval ρ) ↔
        GeometricExact type f (a.eval ρ) (b.eval ρ) m.toNat isDiv) := by
  refine ⟨_, generateLastValueGeometric_eq hfetch hf hm hpos isDiv, ?_⟩
  obtain ⟨m, rfl⟩ : ∃ k : Nat, m = k := ⟨m.toNat, by omega⟩
  rw [Int.toNat_natCast]
  exact geometricCode_eval_iff htype ha hb hf hf' m isDiv

end lastValue

/-- `for (long i = 0; i < 5; i++) k = k / 3` from `1000`, and `7` is added. -/
theorem generateLastValueGeometric_five :
    ∃ code, generateLastValueGeometric noRanges
        (geometric true (.longConstant 3) (createConstant 1000 .int64) (createConstant 7 .int64) .int64)
        (countTo 5) = some code ∧
      code.eval (fun _ => 0) = DataType.int64.wrap (repeated .int64 .div 3 1000 5 + 7) := by
  obtain ⟨code, hcode, heval⟩ :=
    generateLastValueGeometric_eval_iff (ρ := fun _ => 0) (a := createConstant 1000 .int64)
      (b := createConstant 7 .int64) (.inr rfl) (by decide) (by decide)
      (show (Fetch.longConstant 3).int64 = some 3 from rfl) (by decide) (by decide) (countTo_exact 5) (by decide) true
  exact ⟨code, hcode, heval.mpr (.inl (by decide))⟩

/-- The power of two is zero after 64 doublings, and the code forgets the `5` that was added; the most negative number
    divided 63 times by two is not zero. -/
theorem generateLastValueGeometric_zero :
    (∃ info code,
      (solveOp noRanges ⟨.invariant (createConstant 1 .int64), true⟩ ⟨true, none, none⟩
          ⟨false, some (.invariant (.fetch (.longConstant 2))), none⟩ .mul .int64).bind
        (transferAddSub noRanges true .int64 · (.invariant (createConstant 5 .int64))) = some info ∧
      generateLastValueGeometric noRanges info (countTo 64) = some code ∧
      code.eval (fun _ => 0) ≠ DataType.int64.wrap (repeated .int64 .mul 2 1 64 + 5)) ∧
    ∃ info code,
      solveOp noRanges ⟨.invariant (createConstant (-2 ^ 63) .int64), true⟩ ⟨true, none, none⟩
          ⟨false, some (.invariant (.fetch (.longConstant 2))), none⟩ .div .int64 = some info ∧
      generateLastValueGeometric noRanges info (countTo 63) = some code ∧
      code.eval (fun _ => 0) ≠ DataType.int64.wrap (repeated .int64 .div 2 (-2 ^ 63) 63 + 0) := by
  refine ⟨⟨_, _, transferAddSub_geometric false _, generateLastValueGeometric_eq (show
      (Fetch.longConstant 2).int64 = some 2 from rfl) (by decide) (countTo_exact 64) (by decide) false, fun heq => ?_⟩,
    ⟨_, _, solveOp_geometric true, generateLastValueGeometric_eq (show (Fetch.longConstant 2).int64 = some 2 from rfl)
      (by decide) (countTo_exact 63) (by decide) true, fun heq => ?_⟩⟩
  · have hexact := (geometricCode_eval_iff (.inr rfl) (by decide) (by decide) (by decide) (by decide) 64 false).mp heq
    rcases hexact with h | h <;> revert h <;> decide
  · have hexact := (geometricCode_eval_iff (.inr rfl) (by decide) (by decide) (by decide) (by decide) 63 true).mp heq
    rcases hexact with h | h <;> revert h <;> decide

end Art.Induction
