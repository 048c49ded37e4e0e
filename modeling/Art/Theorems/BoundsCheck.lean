import Art.Theorems.RemRange

/-! # Bounds checks of shifted remainders

From the range of a remainder to the removal of a bounds check: the visits of additions and
subtractions of constants on top of the remainder, and the comparison of the resulting range with
`[0, length - 1]`. -/

namespace Art.Bce
open Lib
open HInstruction (asIntConstant binary compute value)

variable {ρ : Nat → Int} {R : ValueRange}

/-! ### Shifting a range -/

/-- A bound of the documented form: a constant, or the length of an array plus a constant. -/
def ValueBound.OnLength (ρ : Nat → Int) (b : ValueBound) : Prop :=
  b.isConstant = true ∨
    ∃ i, b.instruction = some i ∧ b.isRelatedToArrayLength = true ∧ 0 ≤ i.eval ρ ∧ i.eval ρ ≤ int32Max

namespace ValueBound

variable {b : ValueBound}

theorem make_related (h : b.isConstant = true ∨ b.isRelatedToArrayLength = true) (c : Int) :
    make b.instruction c = ⟨b.instruction, c⟩ := by
  obtain ⟨_ | i, k⟩ := b
  · rfl
  · cases i <;> simp_all [isConstant, isRelatedToArrayLength, HInstruction.isArrayLength, HInstruction.isNewArray,
      make, asIntConstant]

theorem OnLength.related (h : b.OnLength ρ) : b.isConstant = true ∨ b.isRelatedToArrayLength = true :=
  h.imp id fun ⟨_, _, h, _⟩ => h

/-- What a bound of the documented form stands for beyond its constant. -/
theorem OnLength.eval_le (h : b.OnLength ρ) :
    b.eval ρ = b.constant ∨ (b.isRelatedToArrayLength = true ∧ b.constant ≤ b.eval ρ ∧
      b.eval ρ ≤ int32Max + b.constant) := by
  rcases h with h | ⟨i, hi, hrel, h0, hmax⟩
  · exact .inl (eval_of_isConstant h)
  · refine .inr ⟨hrel, ?_⟩
    simp only [eval, hi]
    omega

theorem OnLength.withConstant (h : b.OnLength ρ) (c : Int) : OnLength ρ ⟨b.instruction, c⟩ := by
  obtain ⟨bi, bc⟩ := b
  exact h

variable {c : Int}

theorem add_bound (h : b.OnLength ρ) (ho : (b.add c).overflow = false)
    (hu : (b.add c).underflow = false) : (b.add c).bound = ⟨b.instruction, b.constant + c⟩ := by
  have hmake := make_related h.related (b.constant + c)
  unfold add at *
  split_ifs at * <;> simp_all

theorem add_le_max (h : b.OnLength ρ) (ho : (b.add c).overflow = false) (hc : 0 < c) : b.eval ρ + c ≤ int32Max := by
  have heval := h.eval_le
  simp only [add, hc.ne', if_false, hc, if_true] at ho
  split_ifs at ho with h1 h2
  rw [Bool.or_eq_true, Bool.and_eq_true, decide_eq_true_eq] at h2
  rcases h2 with h2 | ⟨-, h2⟩
  · have := eval_of_isConstant (ρ := ρ) h2
    omega
  · omega

theorem min_le_add (hu : (b.add c).underflow = false) (hc : c < 0) : int32Min ≤ b.constant + c := by
  simp only [add, hc.ne, if_false, show ¬c > 0 by omega] at hu
  split_ifs at hu with h1
  omega

theorem add_overflow_of_nonpos (b : ValueBound) (hc : c ≤ 0) : (b.add c).overflow = false := by
  unfold add
  split_ifs <;> first | rfl | omega

theorem add_overflow_of_le (hb : b.isConstant = true) (h : b.constant + c ≤ int32Max) : (b.add c).overflow = false := by
  unfold add
  split_ifs <;> first | rfl | omega | simp_all

theorem add_underflow_of_le (hb : b.OnLength ρ) (h : int32Min ≤ b.constant + c) : (b.add c).underflow = false := by
  have := hb.related
  unfold add
  split_ifs <;> first | rfl | omega | simp_all

end ValueBound

/-- The range that the visitor knows for an index of value `v`. -/
structure Tracks (ρ : Nat → Int) (r : ValueRange) (v : Int) : Prop where
  int32 : Int32 v
  contains : r.Contains ρ v
  lower : r.lower.isConstant = true
  upper : r.upper.OnLength ρ

namespace Tracks

variable {r r' : ValueRange} {v c : Int}

theorem lower_le (h : Tracks ρ r v) : r.lower.constant ≤ v := by
  have := h.contains.1
  rwa [ValueBound.eval_of_isConstant h.lower] at this

/-- Adding a constant to the range of an index overflows at neither end. -/
theorem add_lower (h : Tracks ρ r v) (hc : Int32 c) (hadd : r.add c = some r') :
    Int32 (v + c) ∧ r'.lower = ⟨none, r.lower.constant + c⟩ ∧ r'.upper = (r.upper.add c).bound ∧
      (r.upper.add c).overflow = false := by
  have hlv := h.lower_le
  have hvu := h.contains.2
  obtain ⟨hv0, hv1⟩ := h.int32
  unfold ValueRange.add at hadd
  simp only at hadd
  split_ifs at hadd with hu ho
  cases hadd
  simp only [Bool.not_eq_true] at hu ho
  have hmax : 0 < c → v + c ≤ int32Max := fun hpos => by
    have := ValueBound.add_le_max h.upper ho hpos
    omega
  have hmin : c < 0 → int32Min ≤ r.lower.constant + c := ValueBound.min_le_add hu
  have hlow : (r.lower.add c).overflow = false := by
    rcases lt_or_ge 0 c with hpos | hneg
    · exact ValueBound.add_overflow_of_le h.lower (by have := hmax hpos; omega)
    · exact ValueBound.add_overflow_of_nonpos _ hneg
  refine ⟨?_, ?_, rfl, ho⟩
  · rcases lt_trichotomy c 0 with hneg | rfl | hpos
    · exact ⟨(hmin hneg).trans (by omega), by omega⟩
    · simpa using h.int32
    · exact ⟨by omega, hmax hpos⟩
  · rw [ValueBound.add_bound (ρ := ρ) (.inl h.lower) hlow hu, Option.isNone_iff_eq_none.mp h.lower]

/-- A shifted range tracks the shifted value, unless the constant of the upper bound underflows. -/
theorem add (h : Tracks ρ r v) (hc : Int32 c) (hadd : r.add c = some r') (hu : (r.upper.add c).underflow = false) :
    Tracks ρ r' (wrap 31 (v + c)) := by
  obtain ⟨h32, hlower, hupper, ho⟩ := h.add_lower hc hadd
  rw [ValueBound.add_bound h.upper ho hu] at hupper
  rw [wrap_of_signed h32]
  have hlv := h.lower_le
  have hvu := h.contains.2
  refine ⟨h32, ⟨?_, ?_⟩, by rw [hlower]; rfl, by rw [hupper]; exact h.upper.withConstant _⟩
  · rw [hlower, ValueBound.eval_none]
    omega
  · rw [hupper]
    unfold ValueBound.eval at *
    simp only
    omega

theorem underflow_of_nonneg (h : Tracks ρ r v) (hpos : 0 ≤ r.lower.constant + c) :
    (r.upper.add c).underflow = false := by
  have hlv := h.lower_le
  have hvu := h.contains.2
  refine ValueBound.add_underflow_of_le h.upper ?_
  rcases h.upper.eval_le with heq | ⟨-, -, hle⟩
  · simp only [minInt]
    omega
  · simp only [minInt, maxInt] at *
    omega

end Tracks

/-! ### Removing the check -/

theorem ValueBound.eval_make_some (i : HInstruction) (c : Int) : (make (some i) c).eval ρ = i.eval ρ + c := by
  unfold make
  split
  · rename_i v hv
    cases i <;> simp_all [asIntConstant]
    split <;> simp [eval, HInstruction.eval]
  · rfl

theorem lower_nonneg_of_fitsIn {r : ValueRange} {u : ValueBound} (h : r.fitsIn ⟨.make none 0, u, false⟩ = true) :
    0 ≤ r.lower.eval ρ ∧ r.upper.eval ρ ≤ u.eval ρ := by
  unfold ValueRange.fitsIn at h
  split_ifs at h
  rw [Bool.and_eq_true] at h
  have hl := ValueBound.le_of_greaterThanOrEqualTo (ρ := ρ) h.1
  exact ⟨by simpa using hl, ValueBound.le_of_lessThanOrEqualTo h.2⟩

/-- A bounds check is removed for an index whose range is inside the array. -/
theorem range_of_removesBoundsCheck {s : Scope} {index arrayLength : HInstruction}
    (h : s.removesBoundsCheck index arrayLength = true)
    (hlen : ∀ e, s.lookupValueRange arrayLength = some e → e.Contains ρ (arrayLength.eval ρ)) :
    ∃ r, s.lookupValueRange index = some r ∧ 0 ≤ r.lower.eval ρ ∧ r.upper.eval ρ < arrayLength.eval ρ := by
  unfold Scope.removesBoundsCheck at h
  split at h
  · rename_i r hr
    refine ⟨r, hr, ?_⟩
    split_ifs at h with hfit hconst
    · have := lower_nonneg_of_fitsIn (ρ := ρ) hfit
      rw [ValueBound.eval_make_some] at this
      omega
    split at h
    · rename_i existing hexisting
      simp only [Bool.and_eq_true, decide_eq_true_eq] at h
      obtain ⟨⟨hexconst, hpos⟩, hfit⟩ := h
      have hle := (hlen existing hexisting).1
      simp only [ValueRange.isConstantValueRange, Bool.and_eq_true] at hexconst
      rw [ValueBound.eval_of_isConstant hexconst.1] at hle
      have := lower_nonneg_of_fitsIn (ρ := ρ) hfit
      rw [ValueBound.make_none, ValueBound.eval_none] at this
      omega
    · cases h
  · cases h

/-! ### Remainders and shifts in the visitor -/

/-- The visits that give a remainder of `left` its range: of an `HRem` by a constant or by an array length
    after its zero check, and of an `HSub` that is an optimized `HRem`. The divisor has the value `d`, and
    `length` is the array length that it is, if any. -/
inductive RemVisit (ρ : Nat → Int) (s : Scope) (left : HInstruction) :
    HInstruction → Int → Option HInstruction → Scope → Prop
  | constant (id : Nat) (c : Int) : Int32 c → c ≠ 0 →
      RemVisit ρ s left (.binary id .rem .int32 left (.intConstant c)) c none
        (s.visitRem (.binary id .rem .int32 left (.intConstant c)))
  | length (id : Nat) (divisor right : HInstruction) : IsLengthDivisor divisor right →
      0 < divisor.eval ρ → divisor.eval ρ ≤ int32Max →
      RemVisit ρ s left (.binary id .rem .int32 left right) (divisor.eval ρ) (some divisor)
        (s.visitRem (.binary id .rem .int32 left right))
  | optimized (id : Nat) (type : DataType) (right : HInstruction) (c : Int) :
      optimizedRemDivisor (.binary id .sub type left right) = some c → Int32 c → c ≠ 0 →
      RemVisit ρ s left (.binary id .sub type left right) c none (s.visitSub (.binary id .sub type left right))

/-- Whether the range of the remainder keeps the upper bound of the dividend's range `R`. -/
def keepsUpper (length : Option HInstruction) (R : ValueRange) : Bool :=
  match length with
  | none => true
  | some divisor => ValueBound.equal (some divisor) R.upper.instruction

namespace RemVisit

variable {s s' : Scope} {left i : HInstruction} {d : Int} {length : Option HInstruction}

variable (h : RemVisit ρ s left i d length s')

include h

theorem eval_eq : i.eval ρ = compute .rem .int32 (left.eval ρ) d := by
  cases h with
  | constant id _ h32 hc => rfl
  | length id divisor right hdiv _ _ =>
    obtain ⟨-, rfl | ⟨_, rfl⟩⟩ := hdiv <;> rfl
  | optimized id type right _ hopt h32 hc =>
    rw [optimizedRemDivisor_eval hopt h32 hc]
    exact (wrap_of_signed (tmod_int32 h32 hc)).symm

/-- The assigned range: one that is right for every dividend, intersected with the dividend's. -/
theorem lookup_eq (hR : s.lookupValueRange left = some R) :
    ∃ base : ValueRange, s'.lookupValueRange i = some (base.narrow R) ∧
      base.lower.isConstant = true ∧ base.upper.OnLength ρ ∧
      ((∀ v, Int32 v → R.Contains ρ v → (base.narrow R).Contains ρ (v.tmod d)) ↔
        DividendFits ρ R d (keepsUpper length R)) := by
  cases h with
  | constant id _ h32 hc =>
    refine ⟨constantRemRange d, ?_, rfl, .inl rfl, constantRem_iff hc⟩
    simp [Scope.visitRem, remRange_intConstant h32 hc, hR, narrowByLeft]
  | length id divisor right hdiv hpos hmax =>
    refine ⟨lengthRemRange divisor, ?_, rfl, .inr ⟨divisor, rfl, ?_, hpos.le, hmax⟩, lengthRem_iff hdiv.1 hpos⟩
    · simp [Scope.visitRem, remRange_length hdiv, hR, narrowByLeft]
    · simp [lengthRemRange, ValueBound.isRelatedToArrayLength, hdiv.1]
  | optimized id type right _ hopt h32 hc =>
    refine ⟨constantRemRange d, ?_, rfl, .inl rfl, constantRem_iff hc⟩
    simp [Scope.visitSub, Scope.tryToAssignRangeIfOptimizedRemWithConstantDivisor, hopt, hR, narrowByLeft,
      optimizedRemRange_eq h32]

theorem divisor_ne_zero : Int32 d ∧ d ≠ 0 := by
  cases h with
  | constant id _ h32 hc | optimized id type right _ hopt h32 hc => exact ⟨h32, hc⟩
  | length id divisor right hdiv hpos hmax =>
    exact ⟨⟨le_trans (by decide) hpos.le, hmax⟩, hpos.ne'⟩

end RemVisit

/-- The visit of an addition or subtraction of a constant on top of `i`, which shifts the range `r` of `i`
    by `c`. -/
inductive Shift (s : Scope) (i : HInstruction) (r : ValueRange) : Int → Scope → HInstruction → Prop
  | add (id : Nat) (c : Int) : Int32 c → s.lookupValueRange i = some r → (r.add c).isSome →
      Shift s i r c (s.visitAdd (.binary id .add .int32 i (.intConstant c))) (.binary id .add .int32 i (.intConstant c))
  | sub (id : Nat) (c : Int) : Int32 c → s.lookupValueRange i = some r → (r.add (wrap 31 (-c))).isSome →
      Shift s i r (wrap 31 (-c)) (s.visitSub (.binary id .sub .int32 i (.intConstant c)))
        (.binary id .sub .int32 i (.intConstant c))

/-- Visits of any number of additions and subtractions of constants, where no constant of an upper bound
    on an array length underflows (`ValueRange::Add` only asks whether the lower bound does). -/
inductive ShiftChain (s : Scope) (i : HInstruction) : Scope → HInstruction → Prop
  | refl : ShiftChain s i s i
  | step {s' s'' : Scope} {j k : HInstruction} {r : ValueRange} {c : Int} : ShiftChain s i s' j →
      Shift s' j r c s'' k → (r.upper.add c).underflow = false → ShiftChain s i s'' k

namespace Shift

variable {s s' : Scope} {i j : HInstruction} {r : ValueRange} {c : Int}

theorem int32 (h : Shift s i r c s' j) : Int32 c := by
  cases h with
  | add id _ h32 _ _ => exact h32
  | sub id c' _ _ _ => exact wrap_signed 31 (-c')

theorem lookup_eq (h : Shift s i r c s' j) : s.lookupValueRange i = some r := by
  cases h <;> assumption

theorem eval_eq (h : Shift s i r c s' j) : j.eval ρ = wrap 31 (i.eval ρ + c) := by
  cases h with
  | add id _ _ _ _ => rfl
  | sub id c' _ _ _ =>
    have hcongr := (wrap_modEq 31 (-c')).symm.add_left (i.eval ρ)
    rw [← Int.sub_eq_add_neg] at hcongr
    exact wrap_congr hcongr

theorem lookup_add (h : Shift s i r c s' j) : ∃ r', r.add c = some r' ∧ s'.lookupValueRange j = some r' := by
  cases h with
  | add id _ _ hr hadd =>
    obtain ⟨r', hr'⟩ := Option.isSome_iff_exists.mp hadd
    exact ⟨r', hr', by simp [Scope.visitAdd, asIntConstant, hr, hr']⟩
  | sub id c' _ hr hadd =>
    obtain ⟨r', hr'⟩ := Option.isSome_iff_exists.mp hadd
    exact ⟨r', hr', by simp [Scope.visitSub, Scope.tryToAssignRangeIfOptimizedRemWithConstantDivisor,
      optimizedRemDivisor, mulOfDiv, asIntConstant, hr, hr']⟩

end Shift

def Scope.Tracks (ρ : Nat → Int) (s : Scope) (i : HInstruction) : Prop :=
  ∃ r, s.lookupValueRange i = some r ∧ Bce.Tracks ρ r (i.eval ρ)

theorem ShiftChain.tracks {s s' : Scope} {i j : HInstruction} (h : ShiftChain s i s' j) (hs : s.Tracks ρ i) :
    s'.Tracks ρ j := by
  induction h with
  | refl => exact hs
  | step _ hshift hunder ih =>
    obtain ⟨r, hr, htrack⟩ := ih
    obtain rfl := Option.some.inj (hr.symm.trans hshift.lookup_eq)
    obtain ⟨r', hadd, hr'⟩ := hshift.lookup_add
    exact ⟨r', hr', hshift.eval_eq ▸ htrack.add hshift.int32 hadd hunder⟩

/-- Bounds checks of `j` are removed only when they pass. -/
def Scope.ChecksKept (ρ : Nat → Int) (s : Scope) (j : HInstruction) : Prop :=
  ∀ arrayLength, (∀ e, s.lookupValueRange arrayLength = some e → e.Contains ρ (arrayLength.eval ρ)) →
    s.removesBoundsCheck j arrayLength = true → 0 ≤ j.eval ρ ∧ j.eval ρ < arrayLength.eval ρ

theorem Scope.Tracks.checksKept {s : Scope} {j : HInstruction} (h : s.Tracks ρ j) : s.ChecksKept ρ j := by
  intro arrayLength hlen hremoves
  obtain ⟨r, hr, htrack⟩ := h
  obtain ⟨r', hr', h0, hlt⟩ := range_of_removesBoundsCheck hremoves hlen
  obtain rfl := Option.some.inj (hr.symm.trans hr')
  have := htrack.contains
  exact ⟨h0.trans this.1, this.2.trans_lt hlt⟩

/-- The last shift needs no condition: a range that fits starts at zero. -/
theorem Shift.checksKept {s s' : Scope} {i j : HInstruction} {r : ValueRange} {c : Int} (h : Shift s i r c s' j)
    (hs : s.Tracks ρ i) : s'.ChecksKept ρ j := by
  intro arrayLength hlen hremoves
  obtain ⟨r₀, hr, htrack⟩ := hs
  obtain rfl := Option.some.inj (hr.symm.trans h.lookup_eq)
  obtain ⟨r', hadd, hr'⟩ := h.lookup_add
  obtain ⟨r'', hr'', h0, hlt⟩ := range_of_removesBoundsCheck hremoves hlen
  obtain rfl := Option.some.inj (hr'.symm.trans hr'')
  obtain ⟨-, hlower, -⟩ := htrack.add_lower h.int32 hadd
  rw [hlower, ValueBound.eval_none] at h0
  have htrack' := htrack.add h.int32 hadd (htrack.underflow_of_nonneg h0)
  exact Scope.Tracks.checksKept ⟨r', hr', h.eval_eq ▸ htrack'⟩ arrayLength hlen hremoves

theorem ValueBound.OnLength.narrowUpperBound {b c : ValueBound} (hb : b.OnLength ρ) (hc : c.OnLength ρ) :
    (b.narrowUpperBound c).OnLength ρ := by
  unfold ValueBound.narrowUpperBound
  split_ifs <;> assumption

/-- The range assigned to a remainder tracks it when the dividend fits. -/
theorem RemVisit.tracks {s s' : Scope} {left i : HInstruction} {d : Int} {length : Option HInstruction}
    (h : RemVisit ρ s left i d length s') (hR : s.lookupValueRange left = some R)
    (hfits : DividendFits ρ R d (keepsUpper length R)) (hupper : R.upper.OnLength ρ)
    (hleft : Int32 (left.eval ρ)) (hmem : R.Contains ρ (left.eval ρ)) : s'.Tracks ρ i := by
  obtain ⟨base, hlookup, hlower, hbase, hiff⟩ := h.lookup_eq hR
  obtain ⟨h32, hd⟩ := h.divisor_ne_zero
  have heval : i.eval ρ = (left.eval ρ).tmod d := h.eval_eq.trans (wrap_of_signed (tmod_int32 h32 hd))
  refine ⟨_, hlookup, ?_⟩
  rw [heval]
  refine ⟨tmod_int32 h32 hd, hiff.mpr hfits _ hleft hmem, ?_, ?_⟩
  · unfold ValueRange.narrow
    split_ifs
    · exact hlower
    · exact ValueBound.isConstant_narrowLowerBound hlower
  · unfold ValueRange.narrow
    split_ifs
    · exact hbase
    · exact hbase.narrowUpperBound hupper

/-- The range assigned to a remainder contains the remainders of all dividends of the known range exactly
    when the dividends fit, and then no check of an index made from the remainder by additions and
    subtractions of constants is removed when it would fail. -/
theorem remVisit_sound_iff {s s' : Scope} {left i : HInstruction} {d : Int} {length : Option HInstruction}
    (h : RemVisit ρ s left i d length s') (hR : s.lookupValueRange left = some R) :
    i.eval ρ = compute .rem .int32 (left.eval ρ) d ∧
    (∃ r, s'.lookupValueRange i = some r ∧
      ((∀ v, Int32 v → R.Contains ρ v → r.Contains ρ (compute .rem .int32 v d)) ↔
        DividendFits ρ R d (keepsUpper length R))) ∧
    (DividendFits ρ R d (keepsUpper length R) → R.upper.OnLength ρ →
      Int32 (left.eval ρ) → R.Contains ρ (left.eval ρ) →
      ∀ t j, ShiftChain s' i t j → t.ChecksKept ρ j ∧ ∀ r c t' k, Shift t j r c t' k → t'.ChecksKept ρ k) := by
  obtain ⟨base, hlookup, -, -, hiff⟩ := h.lookup_eq hR
  obtain ⟨h32, hd⟩ := h.divisor_ne_zero
  have hcompute : ∀ v, compute .rem .int32 v d = v.tmod d := fun v => wrap_of_signed (tmod_int32 h32 hd)
  refine ⟨h.eval_eq, ⟨_, hlookup, by simpa only [hcompute] using hiff⟩, ?_⟩
  intro hfits hupper hleft hmem t j hchain
  have htrack := hchain.tracks (h.tracks hR hfits hupper hleft hmem)
  exact ⟨htrack.checksKept, fun r c t' k hshift => hshift.checksKept htrack⟩

/-- Dividends from 0 to 99 fit the divisor 10. -/
theorem remVisit_sound_iff_small :
    let left := value 0
    let s : Scope := ⟨[(left, ⟨⟨none, 0⟩, ⟨none, 99⟩, false⟩)], []⟩
    let i := binary 1 .rem .int32 left (.intConstant 10)
    i.eval (fun _ => 42) = 2 ∧ (s.visitRem i).ChecksKept (fun _ => 42) i := by
  intro left s i
  have hvisit : RemVisit (fun _ => 42) s left i 10 none (s.visitRem i) := .constant 1 10 (by decide) (by decide)
  have hR : s.lookupValueRange left = some ⟨⟨none, 0⟩, ⟨none, 99⟩, false⟩ := by decide
  have h := remVisit_sound_iff hvisit hR
  exact ⟨by decide, (h.2.2 (by decide) (.inl rfl) (by decide) (by decide) _ _ .refl).1⟩

/-- A dividend known to be at least 100 gives `i % 10` the range `[100, 9]`, which does not contain the
    remainder, and the check of index `i % 10 - 5` of an array of length 5 is removed for `i = 100`. -/
theorem visitRem_removes_failing_check :
    let left := value 0
    let s : Scope := ⟨[(left, ⟨⟨none, 100⟩, ⟨none, int32Max⟩, false⟩)], []⟩
    let i := binary 1 .rem .int32 left (.intConstant 10)
    let j := binary 2 .sub .int32 i (.intConstant 5)
    let ρ : Nat → Int := fun _ => 100
    (s.visitRem i).lookupValueRange i = some ⟨⟨none, 100⟩, ⟨none, 9⟩, false⟩ ∧
    i.eval ρ = 0 ∧
    ((s.visitRem i).visitSub j).removesBoundsCheck j (.intConstant 5) = true ∧
    j.eval ρ = -5 := by
  decide

end Art.Bce
