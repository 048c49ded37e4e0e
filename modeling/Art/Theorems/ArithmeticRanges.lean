import Art.Theorems.ValueRange

/-! # The ranges of arithmetic on array lengths

What `BCEVisitor` records for `array.length + c0 - v`, for quotients and right shifts of `array.length + c`,
for masks, and for the operand of an allocation of length `left + c`. The visitor looks through chains of
additions and subtractions of constants, which hold modulo `2 ^ 32`; the recorded bounds do not wrap. -/

namespace Art.Bce
open Lib HInstruction
open ValueBound (equal eval_make_some eval_none eval_of_isConstant make_none wouldAddOverflowOrUnderflow)

variable {ρ : Nat → Int} {s : Scope} {i left right l : HInstruction} {r R : ValueRange} {a x v c c₁ c₂ n : Int}

/-! ### Chains of constants -/

theorem signed_of_wouldAdd (hc : Int32 c) (h : wouldAddOverflowOrUnderflow c x = false) : Int32 (c + x) := by
  simp only [wouldAddOverflowOrUnderflow, Signed, minInt, maxInt] at h hc ⊢
  split_ifs at h <;> omega

variable {op : BinaryOp}

theorem compute_modEq {type : DataType} {z : Int} (h : compute op type x v = wrap type.width z) :
    compute op type x v ≡ z [ZMOD 2 ^ 32] := by
  rw [h]
  cases type with
  | int32 => exact wrap_modEq 31 z
  | int64 => exact (wrap_modEq 63 z).of_dvd (by decide)

/-- `p` is an instruction and a constant that together stand for `i + c`. -/
def StandsFor (ρ : Nat → Int) (i : HInstruction) (c : Int) (p : Option HInstruction × Int) : Prop :=
  Int32 p.2 ∧ ∃ l, p.1 = some l ∧ l.eval ρ + p.2 ≡ i.eval ρ + c [ZMOD 2 ^ 32]

theorem StandsFor.step {p : Option HInstruction × Int} (hi : i.eval ρ ≡ left.eval ρ + v [ZMOD 2 ^ 32])
    (hc : Int32 (c + v)) (h : p = (some left, c + v) ∨ StandsFor ρ left (c + v) p) : StandsFor ρ i c p := by
  have hsum : left.eval ρ + (c + v) ≡ i.eval ρ + c [ZMOD 2 ^ 32] := by
    have := (hi.add_right c).symm
    rwa [add_assoc, add_comm v c] at this
  rcases h with rfl | ⟨h32, l, hl, hmod⟩
  · exact ⟨hc, left, rfl, hsum⟩
  · exact ⟨h32, l, hl, hmod.trans hsum⟩

/-- A chain of additions and subtractions of constants stands for what is found, unless nothing is. -/
theorem addOrSubConstants_spec (leftSoFar : Option HInstruction) (c : Int) (i : HInstruction) (hc : Int32 c) :
    addOrSubConstants leftSoFar c i = (leftSoFar, c) ∨ StandsFor ρ i c (addOrSubConstants leftSoFar c i) := by
  fun_induction addOrSubConstants leftSoFar c i with
  | case2 leftSoFar c id type left right v hv hadd ih =>
    have h32 := signed_of_wouldAdd hc (by simpa using hadd)
    refine .inr (.step ?_ h32 (ih h32))
    cases right <;> cases hv
    exact compute_modEq rfl
  | case5 leftSoFar c id type left right v hv v' hadd ih =>
    have h32 := signed_of_wouldAdd hc (by simpa using hadd)
    refine .inr (.step ?_ h32 (ih h32))
    cases right <;> cases hv
    refine (compute_modEq rfl).trans ?_
    rw [Int.sub_eq_add_neg]
    exact (wrap_modEq 31 (-v)).symm.add_left _
  | _ => exact .inl rfl

theorem isAddOrSubAConstant_modEq (h : isAddOrSubAConstant i = some (l, c)) :
    Int32 c ∧ l.eval ρ + c ≡ i.eval ρ [ZMOD 2 ^ 32] := by
  have hspec := addOrSubConstants_spec (ρ := ρ) none 0 i (by decide)
  unfold isAddOrSubAConstant at h
  split at h
  · rename_i left k heq
    cases h
    rw [heq] at hspec
    obtain hret | ⟨h32, l', hl', hmod⟩ := hspec
    · cases hret
    · cases hl'
      exact ⟨h32, by rwa [add_zero] at hmod⟩
  · cases h

theorem operand_modEq (h : (isAddOrSubAConstant i).getD (i, 0) = (l, c)) :
    Int32 c ∧ l.eval ρ + c ≡ i.eval ρ [ZMOD 2 ^ 32] := by
  cases hi : isAddOrSubAConstant i with
  | none =>
    rw [hi] at h
    cases h
    rw [add_zero]
    exact ⟨by decide, .rfl⟩
  | some p =>
    rw [hi] at h
    cases h
    exact isAddOrSubAConstant_modEq hi

namespace Scope

theorem assignRange_ne (s : Scope) (i : HInstruction) (r : ValueRange) : s ≠ s.assignRange i r := fun h => by
  have := congrArg (·.block.length) h
  simp [assignRange] at this

theorem assignRange_inj {r' : ValueRange} (h : s.assignRange i r = s.assignRange i r') : r = r' := by
  simpa [assignRange] using congrArg Scope.block h

end Scope

/-- The value of an array length. -/
abbrev LengthValue (x : Int) : Prop := 0 ≤ x ∧ x ≤ int32Max

/-! ### Triangular differences -/

/-- When the visit of a triangular subtraction assigns a range, all of its conditions held. -/
theorem visitTriangularSub_eq (hR : s.lookupValueRange right = some R)
    (h : s.visitTriangularSub i left right = s.assignRange i r) :
    ∃ c, (isAddOrSubAConstant left).getD (left, 0) = (((isAddOrSubAConstant left).getD (left, 0)).1, c) ∧
      R.lower.isConstant = true ∧
      equal (some ((isAddOrSubAConstant left).getD (left, 0)).1) R.upper.instruction = true ∧
      wouldAddOverflowOrUnderflow c (wrap 31 (-R.upper.constant)) = false ∧
      wouldAddOverflowOrUnderflow c (wrap 31 (-R.lower.constant)) = false ∧
      wrap 31 (c - R.lower.constant) ≤ 0 ∧
      r = ⟨.make none (wrap 31 (c - R.upper.constant)),
        .make (some ((isAddOrSubAConstant left).getD (left, 0)).1) (wrap 31 (c - R.lower.constant)), false⟩ := by
  refine ⟨((isAddOrSubAConstant left).getD (left, 0)).2, rfl, ?_⟩
  unfold Scope.visitTriangularSub at h
  rw [hR] at h
  simp only at h
  split_ifs at h with hlen hshape hfits
  · obtain ⟨hu, hl, hle⟩ := hfits
    exact ⟨hshape.1, hshape.2.2, by simpa using hu, by simpa using hl, hle, (Scope.assignRange_inj h).symm⟩
  all_goals exact absurd h (Scope.assignRange_ne s i r)

/-- `a + c - v` for `v` in `[c1, a + c2]`. Negating `INT_MIN` wraps; when it is the lower end of `v`, the
    recorded range is right only if it is the upper end as well. -/
theorem triangular_iff (ha : LengthValue a) (hc : Int32 c) (h₁ : Int32 c₁) (h₂ : Int32 c₂)
    (hx : a + c ≡ x [ZMOD 2 ^ 32]) (hu : Int32 (c + wrap 31 (-c₂))) (hl : Int32 (c + wrap 31 (-c₁)))
    (hle : wrap 31 (c - c₁) ≤ 0) :
    (∀ v, Int32 v → c₁ ≤ v → v ≤ a + c₂ →
        wrap 31 (c - c₂) ≤ compute .sub .int32 x v ∧ compute .sub .int32 x v ≤ a + wrap 31 (c - c₁)) ↔
      (c₁ = int32Min → c₂ = int32Min) := by
  have hval : ∀ v, compute .sub .int32 x v = wrap 31 (a + c - v) := fun v => wrap_congr (hx.sub_right v).symm
  simp only [hval]
  simp only [LengthValue, Signed, minInt, maxInt, wrap] at *
  constructor
  · intro h hmin
    have hlow := h (-2 ^ 31) (by omega) (by omega) (by omega)
    rcases le_or_gt (a + c₂) (2 ^ 31 - 1) with hin | hout
    · omega
    · have hhigh := h (2 ^ 31 - 1) (by omega) (by omega) (by omega)
      omega
  · intro h v hv hlow hhigh
    omega

/-! ### Quotients and masks -/

theorem quotient_le (ha : 0 ≤ a) (hx : x ≤ a + 1) (hn : 2 ≤ n) : x / n ≤ a := by
  have hlt : x < (a + 1) * n := by
    calc x ≤ a + 1 := hx
      _ < (a + 1) * 2 := by omega
      _ ≤ (a + 1) * n := by gcongr
  have := Int.ediv_lt_of_lt_mul (by omega) hlt
  omega

theorem min_le_quotient (hx : int32Min ≤ x) (hn : 2 ≤ n) : int32Min ≤ x / n := by
  refine Int.le_ediv_of_mul_le (by omega) (le_trans ?_ hx)
  simp only [minInt]
  omega

theorem tdiv_le (ha : 0 ≤ a) (hx : Int32 x) (hxa : x ≤ a + 1) (hn : 2 ≤ n) : int32Min ≤ x.tdiv n ∧ x.tdiv n ≤ a := by
  rcases le_total 0 x with h | h
  · rw [Int.tdiv_eq_ediv_of_nonneg h]
    exact ⟨min_le_quotient hx.1 hn, quotient_le ha hxa hn⟩
  have h0 : 0 ≤ -x / n := Int.ediv_nonneg (by omega) (by omega)
  have h1 : -x / n ≤ -x := Int.ediv_le_self n (by omega)
  have heq : x.tdiv n = -(-x / n) := by
    rw [← Int.tdiv_eq_ediv_of_nonneg (by omega : 0 ≤ -x), Int.neg_tdiv, neg_neg]
  have hmin : int32Min ≤ x := hx.1
  rw [heq]
  omega

theorem shift_distance (h1 : 1 ≤ n) (h31 : n ≤ 31) : 2 ≤ (2 : Int) ^ (n % (DataType.int32.width + 1)).toNat := by
  have hn : n % (DataType.int32.width + 1) = n := by
    simp only [DataType.width]
    omega
  rw [hn]
  exact le_self_pow₀ (by decide) (by omega)

/-- `array.length + c` for `c ≤ 1`, divided by two or more, is at most `array.length`. -/
theorem partialLength_le (ha : LengthValue a) (hx : Int32 x) (hc : Int32 c) (hc1 : c ≤ 1)
    (hmod : a + c ≡ x [ZMOD 2 ^ 32])
    (hop : op = .div ∧ 2 ≤ n ∨ (op = .shr ∨ op = .ushr ∧ 0 ≤ c) ∧ 1 ≤ n ∧ n ≤ 31) :
    int32Min ≤ compute op .int32 x n ∧ compute op .int32 x n ≤ a := by
  -- Only `INT_MAX + 1` wraps.
  have hval : x = a + c ∨ (x = int32Min ∧ a = int32Max) := by
    have := wrap_eq_of_modEq hx hmod
    simp only [LengthValue, Signed, minInt, maxInt, wrap] at *
    omega
  have hxa : x ≤ a + 1 := by
    simp only [LengthValue, minInt, maxInt] at *
    omega
  have hwrap : ∀ q, int32Min ≤ q ∧ q ≤ a → int32Min ≤ wrap 31 q ∧ wrap 31 q ≤ a := by
    intro q hq
    rwa [wrap_of_signed ⟨hq.1, hq.2.trans ha.2⟩]
  rcases hop with ⟨rfl, hn⟩ | ⟨rfl | ⟨rfl, hc0⟩, h1, h31⟩
  · exact hwrap _ (tdiv_le ha.1 hx hxa hn)
  · have hn := shift_distance h1 h31
    exact hwrap _ ⟨min_le_quotient hx.1 hn, quotient_le ha.1 hxa hn⟩
  · have hn := shift_distance h1 h31
    have hu : x % 2 ^ (DataType.int32.width + 1) ≤ a + 1 := by
      simp only [LengthValue, DataType.width, minInt, maxInt] at *
      omega
    refine hwrap _ ⟨min_le_quotient ?_ hn, quotient_le ha.1 hu hn⟩
    exact le_trans (by decide) (Int.emod_nonneg x (by decide))

theorem findAndHandlePartialArrayLength_eq {id : Nat} (hi : i = .binary id op .int32 left (.intConstant n))
    (hop : op = .div ∨ op = .shr ∨ op = .ushr) (h : s.findAndHandlePartialArrayLength i = s.assignRange i r) :
    ∃ c, (isAddOrSubAConstant left).getD (left, 0) = (((isAddOrSubAConstant left).getD (left, 0)).1, c) ∧ c ≤ 1 ∧
      (op = .div ∧ 2 ≤ n ∨ (op = .shr ∨ op = .ushr ∧ 0 ≤ c) ∧ 1 ≤ n) ∧
      r = ⟨.make none int32Min, .make (some ((isAddOrSubAConstant left).getD (left, 0)).1) 0, false⟩ := by
  refine ⟨((isAddOrSubAConstant left).getD (left, 0)).2, rfl, ?_⟩
  unfold Scope.findAndHandlePartialArrayLength at h
  subst hi
  simp only [asIntConstant] at h
  split_ifs at h with hsmall hlen hneg
  · exact absurd h (Scope.assignRange_ne s _ r)
  · exact absurd h (Scope.assignRange_ne s _ r)
  · refine ⟨hlen.2, ?_, (Scope.assignRange_inj h).symm⟩
    rcases hop with rfl | rfl | rfl <;> simp at hsmall hneg ⊢ <;> omega
  · exact absurd h (Scope.assignRange_ne s _ r)

/-- The conjunction with a positive constant is between zero and the constant. -/
theorem and_le (hc : Int32 c) (hpos : 0 < c) (x : Int) : 0 ≤ compute .and .int32 x c ∧ compute .and .int32 x c ≤ c := by
  obtain ⟨-, hmax⟩ := hc
  simp only [maxInt] at hmax
  obtain ⟨m, rfl⟩ := Int.eq_ofNat_of_zero_le hpos.le
  obtain ⟨z, hz⟩ : ∃ z, z = BitVec.ofInt 32 x &&& BitVec.ofInt 32 m := ⟨_, rfl⟩
  have hle : z.toNat ≤ m := by
    rw [hz, BitVec.toNat_and]
    refine Nat.and_le_right.trans (le_of_eq ?_)
    rw [BitVec.ofInt_natCast, BitVec.toNat_ofNat, Nat.mod_eq_of_lt (by omega)]
  have heq : compute .and .int32 x m = z.toNat := by
    have htoInt : z.toInt = z.toNat := BitVec.toInt_eq_toNat_of_lt (by omega)
    refine (congrArg (wrap 31) (hz ▸ htoInt)).trans (wrap_of_signed ⟨?_, ?_⟩)
    · exact le_trans (by decide) (Int.natCast_nonneg _)
    · simp only [maxInt]
      omega
  rw [heq]
  omega

theorem visitAnd_eq {id : Nat} (hi : i = .binary id .and .int32 left (.intConstant c))
    (h : s.visitAnd i = s.assignRange i r) : 0 < c ∧ r = ⟨.make none 0, .make none c, false⟩ := by
  subst hi
  simp only [Scope.visitAnd, asIntConstant] at h
  split_ifs at h with hpos
  · exact ⟨hpos, (Scope.assignRange_inj h).symm⟩
  · exact absurd h (Scope.assignRange_ne s _ r)

/-! ### Allocations -/

/-- `-c <= left <= new_array - c`, for an allocation of length `left + c` that succeeds. -/
def allocationRange (i : HInstruction) (c : Int) : ValueRange :=
  ⟨.make none (wrap 31 (-c)), .make (some i) (wrap 31 (-c)), false⟩

theorem allocationRange_iff {length : HInstruction} (id : Nat) (hc : Int32 c) (hv : Int32 v)
    (hlen : LengthValue (length.eval ρ)) (hmod : v + c ≡ length.eval ρ [ZMOD 2 ^ 32]) :
    ((allocationRange (.newArray id length) c).lower.eval ρ ≤ v ↔ c = int32Min ∨ int32Min ≤ v + c) ∧
      v ≤ (allocationRange (.newArray id length) c).upper.eval ρ := by
  have hval := wrap_eq_of_modEq ⟨le_trans (by decide) hlen.1, hlen.2⟩ hmod
  have hi : (newArray id length).eval ρ = length.eval ρ := rfl
  rw [allocationRange, make_none, eval_none, eval_make_some, hi]
  simp only [LengthValue, Signed, minInt, maxInt, wrap] at *
  constructor <;> omega

/-- Meeting a range that contains `v` neither repairs nor breaks a constant lower bound. -/
theorem narrow_contains_lower {k : Int} {upper : ValueBound} (hR : R.Contains ρ v) (hupper : v ≤ upper.eval ρ) :
    (R.narrow ⟨⟨none, k⟩, upper, false⟩).Contains ρ v ↔ k ≤ v := by
  have hkeep : v ≤ (R.upper.narrowUpperBound upper).eval ρ :=
    ValueBound.le_narrowUpperBound_iff.mpr (by simp [hR.2, hupper])
  change (R.lower.narrowLowerBound ⟨none, k⟩).eval ρ ≤ v ∧ v ≤ (R.upper.narrowUpperBound upper).eval ρ ↔ _
  rw [and_iff_left hkeep, ValueBound.narrowLowerBound_le_iff, ValueBound.equal_comm, ValueBound.equal_none, eval_none]
  change (if R.lower.isConstant = true then _ else _) ↔ _
  split_ifs with hconst
  · exact and_iff_right hR.1
  · rfl

theorem visitNewArray_eq {monotonic : HInstruction → MonotonicValueRange} {id : Nat} {length : HInstruction}
    (hi : i = .newArray id length) (hadd : isAddOrSubAConstant length = some (left, c))
    (h : s.visitNewArray monotonic i = s.assignRange left r) :
    r = match s.lookupValueRange left with
      | some existing =>
        if existing.monotonic then (monotonic left).narrow (allocationRange i c)
        else existing.narrow (allocationRange i c)
      | none => allocationRange i c := by
  subst hi
  unfold Scope.visitNewArray at h
  simp only [hadd] at h
  split_ifs at h
  · exact absurd h (Scope.assignRange_ne s left r)
  · exact (Scope.assignRange_inj h).symm

/-! ### The rules together -/

/-- The ranges assigned to arithmetic on array lengths: quotients, shifts and masks are always right,
    differences unless the lower end of the subtrahend is `INT_MIN` and the upper end is not, allocations
    unless the sum of their length wraps around from below. Where the operand of an allocation has a
    monotonic range, this matters only if the range is narrowed, and then its value must also not have passed
    the end it started from. -/
theorem arithmetic_ranges_iff :
    (LengthValue (((isAddOrSubAConstant left).getD (left, 0)).1.eval ρ) →
      s.lookupValueRange right = some R → Int32 R.lower.constant → Int32 R.upper.constant →
      s.visitTriangularSub i left right = s.assignRange i r →
      ((∀ v, Int32 v → R.Contains ρ v → r.Contains ρ (compute .sub .int32 (left.eval ρ) v)) ↔
        (R.lower.constant = int32Min → R.upper.constant = int32Min))) ∧
    (∀ id op n, i = .binary id op .int32 left (.intConstant n) → (op = .div ∨ (op = .shr ∨ op = .ushr) ∧ n ≤ 31) →
      LengthValue (((isAddOrSubAConstant left).getD (left, 0)).1.eval ρ) → Int32 (left.eval ρ) →
      s.findAndHandlePartialArrayLength i = s.assignRange i r → r.Contains ρ (i.eval ρ)) ∧
    (∀ id c, i = .binary id .and .int32 left (.intConstant c) → Int32 c →
      s.visitAnd i = s.assignRange i r → r.Contains ρ (i.eval ρ)) ∧
    (∀ monotonic id length c, i = .newArray id length → isAddOrSubAConstant length = some (left, c) →
      Int32 (left.eval ρ) → LengthValue (length.eval ρ) →
      s.visitNewArray monotonic i = s.assignRange left r →
      ((∀ e, s.lookupValueRange left = some e → e.monotonic = false ∧ e.Contains ρ (left.eval ρ)) →
        (r.Contains ρ (left.eval ρ) ↔ c = int32Min ∨ int32Min ≤ left.eval ρ + c)) ∧
      ∀ e, s.lookupValueRange left = some e → e.monotonic = true →
        (r.Contains ρ (left.eval ρ) ↔ ((monotonic left).Stops (allocationRange i c) →
          (c = int32Min ∨ int32Min ≤ left.eval ρ + c) ∧
            (monotonic left).Respects ρ (allocationRange i c) (left.eval ρ)))) := by
  refine ⟨?_, ?_, ?_, ?_⟩
  · intro hlen hR h₁ h₂ h
    obtain ⟨c, hop, hconst, hequal, hu, hl, hle, rfl⟩ := visitTriangularSub_eq hR h
    obtain ⟨hc, hmod⟩ := operand_modEq (ρ := ρ) hop
    have hupper : R.upper.eval ρ = ((isAddOrSubAConstant left).getD (left, 0)).1.eval ρ + R.upper.constant := by
      have := ValueBound.eval_sub_of_equal (ρ := ρ) (b := ⟨_, 0⟩) hequal
      simp only [ValueBound.eval] at this ⊢
      omega
    rw [← triangular_iff hlen hc h₁ h₂ hmod (signed_of_wouldAdd hc hu) (signed_of_wouldAdd hc hl) hle]
    simp only [ValueRange.Contains, make_none, eval_none, eval_make_some, hupper, eval_of_isConstant hconst, and_imp]
  · intro k op n hi hop hlen h32 h
    have hop' : op = .div ∨ op = .shr ∨ op = .ushr := hop.imp_right And.left
    obtain ⟨c, hleft, hc1, hform, rfl⟩ := findAndHandlePartialArrayLength_eq hi hop' h
    obtain ⟨hc, hmod⟩ := operand_modEq (ρ := ρ) hleft
    have hn : op = .div ∧ 2 ≤ n ∨ (op = .shr ∨ op = .ushr ∧ 0 ≤ c) ∧ 1 ≤ n ∧ n ≤ 31 := by
      refine hform.imp_right fun hshift => ⟨hshift.1, hshift.2, ?_⟩
      rcases hop with rfl | ⟨-, h31⟩
      · simp at hshift
      · exact h31
    have hle := partialLength_le hlen h32 hc hc1 hmod hn
    rw [hi, ValueRange.Contains, make_none, eval_none, eval_make_some, add_zero]
    exact hle
  · intro id c hi hc h
    obtain ⟨hpos, rfl⟩ := visitAnd_eq hi h
    rw [hi, ValueRange.Contains, make_none, make_none, eval_none, eval_none]
    exact and_le hc hpos (left.eval ρ)
  · intro monotonic id length c hi hadd h32 hlen h
    obtain ⟨hc, hmod⟩ := isAddOrSubAConstant_modEq (ρ := ρ) hadd
    obtain ⟨hlower, hupper⟩ := allocationRange_iff id hc h32 hlen hmod
    have hr := visitNewArray_eq hi hadd h
    rw [hi] at hr
    constructor
    · intro hexisting
      rw [← hlower, hr]
      cases hlookup : s.lookupValueRange left with
      | none => exact and_iff_left hupper
      | some e =>
        obtain ⟨hplain, hcontains⟩ := hexisting e hlookup
        simp only [hplain, Bool.false_eq_true, if_false]
        refine (narrow_contains_lower hcontains hupper).trans ?_
        rw [allocationRange, make_none, eval_none]
    · intro e hlookup hmono
      rw [hr, hlookup, hi, ← hlower]
      simp only [hmono, if_true]
      exact MonotonicValueRange.narrow_contains_iff h32 (.inl rfl) hupper

/-- For an array of length 5: `array.length - 3` from a `v` in `[0, array.length - 1]`, `array.length / 2`,
    `5 & 3`, and an allocation of length `5 + 4`. -/
theorem arithmetic_ranges_iff_small :
    (ValueRange.mk ⟨none, 1⟩ ⟨some (.arrayLength 1 (.value 0)), 0⟩ false).Contains (fun _ => 5) 2 ∧
    (ValueRange.mk ⟨none, int32Min⟩ ⟨some (.arrayLength 1 (.value 0)), 0⟩ false).Contains (fun _ => 5) 2 ∧
    (ValueRange.mk ⟨none, 0⟩ ⟨none, 3⟩ false).Contains (fun _ => 5) (compute .and .int32 5 3) ∧
    (allocationRange (.newArray 3 (.binary 2 .add .int32 (.value 0) (.intConstant 4))) 4).Contains (fun _ => 5) 5 := by
  have h := fun s i left right r R => @arithmetic_ranges_iff (fun _ => 5) s i left right r R
  refine ⟨?_, ?_, ?_, ?_⟩
  · exact ((h ⟨[(.value 2, ⟨⟨none, 0⟩, ⟨some (.arrayLength 1 (.value 0)), -1⟩, false⟩)], []⟩
      (.binary 3 .sub .int32 (.arrayLength 1 (.value 0)) (.value 2)) (.arrayLength 1 (.value 0)) (.value 2) _
      ⟨⟨none, 0⟩, ⟨some (.arrayLength 1 (.value 0)), -1⟩, false⟩).1 (by decide) (by decide) (by decide) (by decide)
      rfl).mpr (by decide) 3 (by decide) (by decide)
  · exact (h ⟨[], []⟩ _ (.arrayLength 1 (.value 0)) (.value 0) _ ⟨.min, .max, false⟩).2.1 2 .div 2 rfl (.inl rfl)
      (by decide) (by decide) rfl
  · exact (h ⟨[], []⟩ (.binary 2 .and .int32 (.value 0) (.intConstant 3)) (.value 0) (.value 0) _
      ⟨.min, .max, false⟩).2.2.1 2 3 rfl (by decide) rfl
  · exact (((h ⟨[], []⟩ _ (.value 0) (.value 0) _ ⟨.min, .max, false⟩).2.2.2 (fun _ => ⟨.value 0, 1, .min⟩) 3
      (.binary 2 .add .int32 (.value 0) (.intConstant 4)) 4 rfl (by decide) (by decide) (by decide) rfl).1 nofun).mpr
      (by decide)

/-- `v < array.length` alone leaves `v` the range `[INT_MIN, array.length - 1]`. Then `array.length - v` gets
    `[1, array.length + INT_MIN]`, which does not contain 6 for an array of length 5 and `v = -1`, and the check
    of the index 6 is removed. And an allocation whose length `left + c` wraps around to 150 leaves
    `left = INT_MIN + 50` at least 2147483548. -/
theorem arithmetic_ranges_wrong :
    (Scope.mk [(.value 2, ⟨⟨none, int32Min⟩, ⟨some (.arrayLength 1 (.value 0)), -1⟩, false⟩)] []).visitTriangularSub
        (.binary 3 .sub .int32 (.arrayLength 1 (.value 0)) (.value 2)) (.arrayLength 1 (.value 0)) (.value 2) =
      (Scope.mk [(.value 2, ⟨⟨none, int32Min⟩, ⟨some (.arrayLength 1 (.value 0)), -1⟩, false⟩)] []).assignRange
        (.binary 3 .sub .int32 (.arrayLength 1 (.value 0)) (.value 2))
        ⟨⟨none, 1⟩, ⟨some (.arrayLength 1 (.value 0)), int32Min⟩, false⟩ ∧
    (ValueRange.mk ⟨none, int32Min⟩ ⟨some (.arrayLength 1 (.value 0)), -1⟩ false).Contains (fun _ => 5) (-1) ∧
    compute .sub .int32 5 (-1) = 6 ∧
    ¬(ValueRange.mk ⟨none, 1⟩ ⟨some (.arrayLength 1 (.value 0)), int32Min⟩ false).Contains (fun _ => 5) 6 ∧
    (Scope.mk [(.binary 3 .sub .int32 (.arrayLength 1 (.value 0)) (.value 2),
        ⟨⟨none, 1⟩, ⟨some (.arrayLength 1 (.value 0)), int32Min⟩, false⟩)] []).removesBoundsCheck
      (.binary 3 .sub .int32 (.arrayLength 1 (.value 0)) (.value 2)) (.arrayLength 1 (.value 0)) = true ∧
    compute .add .int32 (int32Min + 50) (-2147483548) = 150 ∧
    ¬(allocationRange (.newArray 3 (.binary 2 .add .int32 (.value 0) (.intConstant (-2147483548))))
      (-2147483548)).Contains
      (fun _ => int32Min + 50) (int32Min + 50) := by
  refine ⟨rfl, by decide, by decide, by decide, by decide, by decide, by decide⟩

end Art.Bce
