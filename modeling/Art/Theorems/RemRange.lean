import Art.Compiler.BoundsCheckElimination
import Art.Lib.TruncRem

/-! # The ranges of remainders

`VisitRem` intersects the range of a remainder by `d`, between `1 - |d|` and `|d| - 1`, with the range of
the dividend. A remainder lies between zero and its dividend, so the intersection is right for ranges
around zero; for dividends away from zero it is right only when the remainder is the identity on them. -/

namespace Art.Bce
open Lib

variable {ρ : Nat → Int} {R : ValueRange}

/-! ### Bounds -/

namespace ValueBound

@[simp] theorem make_none (c : Int) : make none c = ⟨none, c⟩ := rfl

theorem make_arrayLength {i : HInstruction} (hi : i.isArrayLength = true) (c : Int) :
    make (some i) c = ⟨some i, c⟩ := by
  cases i <;> simp_all [HInstruction.isArrayLength, make, HInstruction.asIntConstant]

@[simp] theorem eval_none (ρ : Nat → Int) (c : Int) : eval ρ ⟨none, c⟩ = c := by simp [eval]

theorem eval_of_isConstant {b : ValueBound} (h : b.isConstant = true) : b.eval ρ = b.constant := by
  obtain ⟨_ | i, c⟩ := b
  · exact eval_none ρ c
  · cases h

variable {b c : ValueBound}

theorem eval_sub_of_equal (h : equal b.instruction c.instruction = true) :
    b.eval ρ - c.eval ρ = b.constant - c.constant := by
  obtain ⟨bi, bc⟩ := b
  obtain ⟨ci, cc⟩ := c
  unfold equal at h
  split at h
  · rename_i heq
    subst heq
    simp only [eval]
    omega
  · rcases bi with _ | i <;> rcases ci with _ | j <;> simp at h
    have hv : i.eval ρ = j.eval ρ := by rw [← i.eval_huntForDeclaration, h, j.eval_huntForDeclaration]
    simp only [eval, hv]
    omega

theorem le_of_greaterThanOrEqualTo (h : b.greaterThanOrEqualTo c = true) : c.eval ρ ≤ b.eval ρ := by
  unfold greaterThanOrEqualTo at h
  split at h
  · rename_i heq
    have := eval_sub_of_equal (ρ := ρ) heq
    simp only [ge_iff_le, decide_eq_true_eq] at h
    omega
  · cases h

theorem le_of_lessThanOrEqualTo (h : b.lessThanOrEqualTo c = true) : b.eval ρ ≤ c.eval ρ := by
  unfold lessThanOrEqualTo at h
  split at h
  · rename_i heq
    have := eval_sub_of_equal (ρ := ρ) heq
    simp only [decide_eq_true_eq] at h
    omega
  · cases h

theorem equal_comm (i j : Option HInstruction) : equal i j = equal j i := by
  unfold equal
  cases i <;> cases j <;> simp [eq_comm]

/-- The bounds that count: both if they can be compared, and else the first one if it is constant. -/
theorem narrowLowerBound_le_iff {v : Int} : (b.narrowLowerBound c).eval ρ ≤ v ↔
    if equal b.instruction c.instruction then b.eval ρ ≤ v ∧ c.eval ρ ≤ v
    else if b.isConstant then b.eval ρ ≤ v else c.eval ρ ≤ v := by
  unfold narrowLowerBound greaterThanOrEqualTo
  rw [equal_comm c.instruction]
  split_ifs with heq <;> try simp_all
  all_goals
    have hsub := eval_sub_of_equal (ρ := ρ) heq
    omega

theorem le_narrowUpperBound_iff {v : Int} : v ≤ (b.narrowUpperBound c).eval ρ ↔
    if equal b.instruction c.instruction then v ≤ b.eval ρ ∧ v ≤ c.eval ρ
    else if b.isRelatedToArrayLength then v ≤ b.eval ρ else v ≤ c.eval ρ := by
  unfold narrowUpperBound lessThanOrEqualTo
  rw [equal_comm c.instruction]
  split_ifs with heq <;> try simp_all
  all_goals
    have hsub := eval_sub_of_equal (ρ := ρ) heq
    omega

theorem equal_none (i : Option HInstruction) : equal none i = i.isNone := by
  cases i <;> simp [equal]

theorem isConstant_narrowLowerBound (hb : b.isConstant = true) : (b.narrowLowerBound c).isConstant = true := by
  unfold narrowLowerBound
  split_ifs with _ hc
  · exact hb
  · unfold greaterThanOrEqualTo at hc
    rw [equal_comm, Option.isNone_iff_eq_none.mp hb, equal_none] at hc
    split_ifs at hc with hnone
    exact hnone
  · exact hb

end ValueBound

/-! ### The dividends of a range -/

/-- The first and the last `int32_t` value of a range. -/
def ValueRange.first (ρ : Nat → Int) (r : ValueRange) : Int := max (r.lower.eval ρ) int32Min
def ValueRange.last (ρ : Nat → Int) (r : ValueRange) : Int := min (r.upper.eval ρ) int32Max

theorem contains_iff {i : Int} : Int32 i ∧ R.Contains ρ i ↔ R.first ρ ≤ i ∧ i ≤ R.last ρ := by
  simp only [Signed, ValueRange.Contains, ValueRange.first, ValueRange.last, max_le_iff, le_min_iff]
  tauto

/-- When the remainders by `d` keep the bounds of the dividends' range `R`: dividends with a positive
    constant lower bound are all below `|d|`, and dividends with a negative upper bound that survives the
    intersection are all above `-|d|`. -/
def DividendFits (ρ : Nat → Int) (R : ValueRange) (d : Int) (upperKept : Bool) : Prop :=
  R.monotonic = false → R.first ρ ≤ R.last ρ →
    (R.lower.isConstant = true → 0 < R.lower.eval ρ → R.last ρ < |d|) ∧
    (upperKept = true → R.upper.eval ρ < 0 → -|d| < R.first ρ)

instance (ρ : Nat → Int) (R : ValueRange) (d : Int) (upperKept : Bool) : Decidable (DividendFits ρ R d upperKept) :=
  inferInstanceAs (Decidable (_ → _))

/-- When the lower bound of the dividend bounds the remainder. -/
theorem lower_kept_iff {d : Int} (hd : d ≠ 0) :
    (∀ i, Int32 i → R.Contains ρ i → R.lower.eval ρ ≤ i.tmod d) ↔
      (R.first ρ ≤ R.last ρ → 0 < R.lower.eval ρ → R.last ρ < |d|) := by
  by_cases hpos : 0 < R.lower.eval ρ
  · have hfirst : R.first ρ = R.lower.eval ρ := max_eq_left (by simp only [minInt]; omega)
    constructor
    · intro h hne _
      rw [← first_le_tmod_iff hd (hfirst ▸ hpos) hne]
      intro i hi hi'
      obtain ⟨h32, hR⟩ := contains_iff.mpr ⟨hi, hi'⟩
      exact hfirst ▸ h i h32 hR
    · intro h i h32 hR
      obtain ⟨hi, hi'⟩ := contains_iff.mp ⟨h32, hR⟩
      have hne : R.first ρ ≤ R.last ρ := hi.trans hi'
      exact hfirst ▸ (first_le_tmod_iff hd (hfirst ▸ hpos) hne).mpr (h hne hpos) i hi hi'
  · -- A bound at or below zero holds of every remainder.
    refine iff_of_true (fun i _ hR => ?_) fun _ h => absurd h hpos
    rcases le_total 0 i with hi | hi
    · exact le_trans (by omega) (Int.tmod_nonneg d hi)
    · exact hR.1.trans (self_le_tmod d hi)

/-- When the upper bound of the dividend bounds the remainder. -/
theorem upper_kept_iff {d : Int} (hd : d ≠ 0) :
    (∀ i, Int32 i → R.Contains ρ i → i.tmod d ≤ R.upper.eval ρ) ↔
      (R.first ρ ≤ R.last ρ → R.upper.eval ρ < 0 → -|d| < R.first ρ) := by
  by_cases hneg : R.upper.eval ρ < 0
  · have hlast : R.last ρ = R.upper.eval ρ := min_eq_left (by simp only [maxInt]; omega)
    constructor
    · intro h hne _
      rw [← tmod_le_last_iff hd (hlast ▸ hneg) hne]
      intro i hi hi'
      obtain ⟨h32, hR⟩ := contains_iff.mpr ⟨hi, hi'⟩
      exact hlast ▸ h i h32 hR
    · intro h i h32 hR
      obtain ⟨hi, hi'⟩ := contains_iff.mp ⟨h32, hR⟩
      have hne : R.first ρ ≤ R.last ρ := hi.trans hi'
      exact hlast ▸ (tmod_le_last_iff hd (hlast ▸ hneg) hne).mpr (h hne hneg) i hi hi'
  · refine iff_of_true (fun i _ hR => ?_) fun _ h => absurd h hneg
    rcases le_total 0 i with hi | hi
    · exact (tmod_le_self d hi).trans hR.2
    · exact (tmod_nonpos d hi).trans (by omega)

/-- A range of remainders that is right by itself stays right under the intersection with `R` exactly for
    fitting dividends. `upperKept` says whether the intersection keeps the upper bound of `R`. -/
theorem narrow_contains_iff {base : ValueRange} {d : Int} {upperKept : Bool} (hd : d ≠ 0)
    (hbase : ∀ i, Int32 i → base.Contains ρ (i.tmod d)) (hlower : base.lower.isConstant = true)
    (hupper : ∀ v, v ≤ base.upper.eval ρ →
      (v ≤ (base.upper.narrowUpperBound R.upper).eval ρ ↔ (upperKept = true → v ≤ R.upper.eval ρ))) :
    (∀ i, Int32 i → R.Contains ρ i → (base.narrow R).Contains ρ (i.tmod d)) ↔ DividendFits ρ R d upperKept := by
  by_cases hm : R.monotonic = true
  · -- A monotonic range is not used.
    refine iff_of_true (fun i hi _ => ?_) fun h => absurd hm (by simp [h])
    rw [ValueRange.narrow, if_pos hm]
    exact hbase i hi
  have hm : R.monotonic = false := by simpa using hm
  have hone : ∀ i, Int32 i → ((base.narrow R).Contains ρ (i.tmod d) ↔
      (R.lower.isConstant = true → R.lower.eval ρ ≤ i.tmod d) ∧
        (upperKept = true → i.tmod d ≤ R.upper.eval ρ)) := by
    intro i hi
    obtain ⟨hlo, hhi⟩ := hbase i hi
    simp only [ValueRange.narrow, hm, Bool.false_eq_true, if_false, ValueRange.Contains]
    refine and_congr ?_ (hupper _ hhi)
    rw [ValueBound.narrowLowerBound_le_iff, Option.isNone_iff_eq_none.mp hlower, ValueBound.equal_none, if_pos hlower]
    change (if R.lower.isConstant = true then _ else _) ↔ _
    split_ifs with hconst <;> simp [hconst, hlo]
  have hl := lower_kept_iff (ρ := ρ) (R := R) hd
  have hu := upper_kept_iff (ρ := ρ) (R := R) hd
  constructor
  · intro h _ hne
    have h' := fun i h32 hR => (hone i h32).mp (h i h32 hR)
    exact ⟨fun hlc => hl.mp (fun i h32 hR => (h' i h32 hR).1 hlc) hne,
      fun hk => hu.mp (fun i h32 hR => (h' i h32 hR).2 hk) hne⟩
  · intro h i h32 hR
    obtain ⟨hi, hi'⟩ := contains_iff.mp ⟨h32, hR⟩
    obtain ⟨h1, h2⟩ := h hm (hi.trans hi')
    exact (hone i h32).mpr ⟨fun hlc => hl.mpr (fun _ => h1 hlc) i h32 hR, fun hk => hu.mpr (fun _ => h2 hk) i h32 hR⟩

/-! ### Remainders by a constant -/

/-- The range of a remainder by `c` before it meets the range of the dividend. -/
def constantRemRange (c : Int) : ValueRange := ⟨⟨none, 1 - |c|⟩, ⟨none, |c| - 1⟩, false⟩

variable {c : Int}

theorem abs_le_of_int32 (h32 : Int32 c) : |c| ≤ 2 ^ 31 := by
  simp only [Signed, minInt, maxInt] at h32
  rw [abs_le]
  omega

theorem tmod_int32 {v c : Int} (h32 : Int32 c) (hc : c ≠ 0) : Int32 (v.tmod c) := by
  have hlo := neg_abs_lt_tmod v hc
  have hhi := tmod_lt_abs v hc
  have habs := abs_le_of_int32 h32
  simp only [Signed, minInt, maxInt]
  omega

/-- The wrap-around of `std::abs(INT32_MIN)` and of the two differences cancel out. -/
theorem remRange_intConstant (h32 : Int32 c) (hc : c ≠ 0) (leftRange : Option ValueRange) :
    remRange (.intConstant c) leftRange = some (narrowByLeft (constantRemRange c) leftRange) := by
  have habs : 0 < |c| := abs_pos.mpr hc
  have hle := abs_le_of_int32 h32
  have h0 : wrap 31 |c| ≠ 0 := by
    simp only [wrap]
    omega
  have h1 : wrap 31 (1 - wrap 31 |c|) = 1 - |c| := by
    simp only [wrap]
    omega
  have h2 : wrap 31 (wrap 31 |c| - 1) = |c| - 1 := by
    simp only [wrap]
    omega
  simp only [remRange, HInstruction.asIntConstant, if_neg h0, h1, h2, ValueBound.make_none, constantRemRange]

theorem optimizedRemRange_eq (h32 : Int32 c) : optimizedRemRange c = constantRemRange c := by
  simp only [Signed, minInt, maxInt] at h32
  by_cases hc : c = int32Min
  · subst hc
    decide
  have h1 : wrap 31 |c| = |c| := wrap_of_signed (by
    simp only [minInt] at hc
    simp only [Signed, minInt, maxInt]
    rcases abs_cases c with ⟨h, -⟩ | ⟨h, -⟩ <;> rw [h] <;> omega)
  simp only [optimizedRemRange, if_neg hc, h1, ValueBound.make_none, constantRemRange]

theorem constantRemRange_contains (hc : c ≠ 0) (i : Int) : (constantRemRange c).Contains ρ (i.tmod c) := by
  have hlo := neg_abs_lt_tmod i hc
  have hhi := tmod_lt_abs i hc
  simp only [constantRemRange, ValueRange.Contains, ValueBound.eval_none]
  omega

theorem constantRem_iff (hc : c ≠ 0) :
    (∀ i, Int32 i → R.Contains ρ i → ((constantRemRange c).narrow R).Contains ρ (i.tmod c)) ↔
      DividendFits ρ R c true := by
  refine narrow_contains_iff hc (fun i _ => constantRemRange_contains hc i) rfl fun v hv => ?_
  rw [ValueBound.le_narrowUpperBound_iff]
  simp only [hv, true_and, forall_const, if_neg (show ¬(constantRemRange c).upper.isRelatedToArrayLength = true from
    Bool.false_ne_true), ite_self]

/-! ### Remainders by an array length -/

/-- The operand is an array length, or the zero check of one. -/
def IsLengthDivisor (divisor right : HInstruction) : Prop :=
  divisor.isArrayLength = true ∧ (right = divisor ∨ ∃ id, right = .divZeroCheck id divisor)

/-- The range of a remainder by an array length before it meets the range of the dividend. -/
def lengthRemRange (divisor : HInstruction) : ValueRange := ⟨⟨none, int32Min⟩, ⟨some divisor, -1⟩, false⟩

theorem remRange_length {divisor right : HInstruction} (h : IsLengthDivisor divisor right)
    (leftRange : Option ValueRange) :
    remRange right leftRange = some (narrowByLeft (lengthRemRange divisor) leftRange) := by
  obtain ⟨hlen, h⟩ := h
  have hmake := ValueBound.make_arrayLength hlen (-1)
  cases divisor with
  | arrayLength lid array =>
    rcases h with rfl | ⟨id, rfl⟩ <;>
      simp only [remRange, HInstruction.asIntConstant, hlen, if_true, hmake, ValueBound.min, ValueBound.make_none,
        lengthRemRange]
  | _ => cases hlen

theorem lengthRemRange_contains {divisor : HInstruction} {i : Int} (hd : 0 < divisor.eval ρ) (hi : Int32 i) :
    (lengthRemRange divisor).Contains ρ (i.tmod (divisor.eval ρ)) := by
  have hhi := Int.tmod_lt_of_pos i hd
  have hlo : int32Min ≤ i.tmod (divisor.eval ρ) := by
    rcases le_total 0 i with h | h
    · exact le_trans (by decide) (Int.tmod_nonneg _ h)
    · exact hi.1.trans (self_le_tmod _ h)
  refine ⟨by rwa [lengthRemRange, ValueBound.eval_none], ?_⟩
  simp only [lengthRemRange, ValueBound.eval]
  omega

theorem lengthRem_iff {divisor : HInstruction} (hlen : divisor.isArrayLength = true) (hd : 0 < divisor.eval ρ) :
    (∀ i, Int32 i → R.Contains ρ i → ((lengthRemRange divisor).narrow R).Contains ρ (i.tmod (divisor.eval ρ))) ↔
      DividendFits ρ R (divisor.eval ρ) (ValueBound.equal (some divisor) R.upper.instruction) := by
  refine narrow_contains_iff hd.ne' (fun i hi => lengthRemRange_contains hd hi) rfl fun v hv => ?_
  have hrelated : (lengthRemRange divisor).upper.isRelatedToArrayLength = true := by
    simp [lengthRemRange, ValueBound.isRelatedToArrayLength, hlen]
  rw [ValueBound.le_narrowUpperBound_iff, if_pos hrelated]
  change (if ValueBound.equal (some divisor) R.upper.instruction = true then _ else _) ↔ _
  split_ifs with heq <;> simp [heq, hv]

/-! ### Optimized remainders -/

theorem wrap_modEq_int32 (type : DataType) (x : Int) : wrap type.width x ≡ x [ZMOD 2 ^ 32] :=
  (wrap_modEq type.width x).of_dvd (by cases type <;> decide)

/-- The shifted one, plus or minus one, when it is an `int`. -/
theorem two_pow_shift {n e : Int} (he : e = 1 ∨ e = -1) (hc : Int32 (wrap 63 (shl64 n + e))) (type : DataType) :
    2 ^ (n % (type.width + 1)).toNat + e = wrap 63 (shl64 n + e) := by
  have h64 : 0 ≤ n % 64 ∧ n % 64 < 64 := by omega
  obtain ⟨k, hk⟩ : ∃ k : Nat, n % 64 = k := ⟨(n % 64).toNat, by omega⟩
  simp only [shl64, hk, Int.toNat_natCast] at hc ⊢
  by_cases hk32 : k < 32
  · have hdist : (n % (type.width + 1)).toNat = k := by
      cases type <;> simp only [DataType.width] <;> omega
    have h1 : (1 : Int) ≤ 2 ^ k := one_le_pow₀ (by norm_num)
    have h2 : (2 : Int) ^ k ≤ 2 ^ 31 := pow_le_pow_right₀ (by norm_num) (by omega)
    rw [hdist, wrap_of_signed (x := 2 ^ k), wrap_of_signed] <;> simp only [Signed, minInt, maxInt] <;> omega
  exfalso
  have h1 : (2 : Int) ^ 32 ≤ 2 ^ k := pow_le_pow_right₀ (by norm_num) (by omega)
  have h2 : (2 : Int) ^ k ≤ 2 ^ 62 ∨ (2 : Int) ^ k = 2 ^ 63 := by
    rcases Nat.lt_or_ge k 63 with h | h
    · exact .inl (pow_le_pow_right₀ (by norm_num) (by omega))
    · exact .inr (by rw [show k = 63 by omega])
  generalize (2 : Int) ^ k = x at *
  simp only [Signed, minInt, maxInt, wrap] at hc
  omega

theorem neededShl_eval {i div : HInstruction} {n : Int} (h : neededShl i = some (div, n)) :
    ∃ type : DataType, i.eval ρ ≡ div.eval ρ * 2 ^ (n % (type.width + 1)).toNat [ZMOD 2 ^ 32] := by
  unfold neededShl at h
  split at h
  · rename_i type left right
    split at h
    · cases right <;> simp [HInstruction.asIntConstant] at h
      obtain ⟨rfl, rfl⟩ := h
      exact ⟨type, wrap_modEq_int32 type _⟩
    · cases h
  · cases h

/-- The right operand of the subtraction is the quotient times the constant, up to wrap-around. -/
theorem mulOfDiv_eval {i div : HInstruction} (h : mulOfDiv i = some (div, c)) (hc : Int32 c) :
    i.eval ρ ≡ div.eval ρ * c [ZMOD 2 ^ 32] := by
  unfold mulOfDiv at h
  split at h
  · rename_i type left right
    split at h
    · cases right <;> simp [HInstruction.asInt64] at h <;> obtain ⟨rfl, rfl⟩ := h <;> exact wrap_modEq_int32 type _
    · cases h
  · rename_i type left right
    split at h
    · rename_i q n hshl
      split at h
      · rename_i hn
        obtain ⟨rfl, -⟩ := hn
        obtain ⟨rfl, rfl⟩ := h
        obtain ⟨t, ht⟩ := neededShl_eval (ρ := ρ) hshl
        refine (wrap_modEq_int32 type _).trans ?_
        rw [← two_pow_shift (.inl rfl) hc t, mul_add, mul_one, add_comm]
        exact ht.add_right _
      · cases h
    · cases h
  · rename_i type left right
    split at h
    · rename_i q n hshl
      split at h
      · rename_i hq
        subst hq
        obtain ⟨rfl, rfl⟩ := h
        obtain ⟨t, ht⟩ := neededShl_eval (ρ := ρ) hshl
        refine (wrap_modEq_int32 type _).trans ?_
        rw [sub_eq_add_neg] at hc
        rw [sub_eq_add_neg (shl64 n), ← two_pow_shift (.inr rfl) hc t, mul_add, mul_neg_one, ← sub_eq_add_neg]
        exact ht.sub_right _
      · cases h
    · cases h
  · cases h

/-- A subtraction recognised as an optimized remainder computes the remainder of its left operand. -/
theorem optimizedRemDivisor_eval {id : Nat} {type : DataType} {left right : HInstruction}
    (h : optimizedRemDivisor (.binary id .sub type left right) = some c) (h32 : Int32 c) (hc : c ≠ 0) :
    (HInstruction.binary id .sub type left right).eval ρ = (left.eval ρ).tmod c := by
  unfold optimizedRemDivisor at h
  split at h
  · rename_i i id' l r heq
    cases heq
    split at h
    · rename_i div qid qtype divLeft divRight c' hmul
      split at h
      · rename_i hdiv
        obtain ⟨hright, rfl⟩ := hdiv
        cases h
        have hval : divRight.eval ρ = c := by
          cases divRight <;> simp_all [HInstruction.asInt64, HInstruction.eval]
        have hquot : (HInstruction.binary qid .div qtype divLeft divRight).eval ρ ≡
            (divLeft.eval ρ).tdiv c [ZMOD 2 ^ 32] := by
          rw [← hval]
          exact wrap_modEq_int32 qtype _
        have hprod := (mulOfDiv_eval (ρ := ρ) hmul h32).trans (hquot.mul_right c)
        refine wrap_eq_of_modEq (w := 31) (tmod_int32 h32 hc) ?_
        rw [show (divLeft.eval ρ).tmod c = divLeft.eval ρ - (divLeft.eval ρ).tdiv c * c by
          have := Int.tmod_add_tdiv_mul (divLeft.eval ρ) c
          omega]
        exact hprod.sub_left (divLeft.eval ρ)
      · cases h
    · cases h
  · cases h

end Art.Bce
