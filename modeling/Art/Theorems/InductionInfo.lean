import Art.Compiler.InductionInfo

/-! # Induction information: its meaning

A fetch has the value that its instruction has when the loop is entered; an invariant is computed from its fetches in
the type of each node, and the other classes give a value for every iteration. The simplifications that build an
invariant keep the value it would have had. -/

namespace Art.Induction

/-! ### Arithmetic of a type -/

namespace DataType

def bits : DataType → Nat
  | bool => 1
  | uint8 | int8 => 8
  | uint16 | int16 => 16
  | int32 => 32
  | int64 => 64

def Fits (t : DataType) (x : Int) : Prop := t.minValueOfIntegralType ≤ x ∧ x ≤ t.maxValueOfIntegralType

instance (t : DataType) (x : Int) : Decidable (t.Fits x) := inferInstanceAs (Decidable (_ ∧ _))

variable {t : DataType} {x y : Int}

theorem wrap_modEq (t : DataType) (x : Int) : t.wrap x ≡ x [ZMOD 2 ^ t.bits] := by
  cases t
  case bool | uint8 | uint16 => exact Int.mod_modEq _ _
  all_goals exact Lib.wrap_modEq _ _

theorem wrap_congr (h : x ≡ y [ZMOD 2 ^ t.bits]) : t.wrap x = t.wrap y := by
  cases t
  case bool | uint8 | uint16 => exact h
  all_goals exact Lib.wrap_congr h

theorem wrap_fits (t : DataType) (x : Int) : t.Fits (t.wrap x) := by
  cases t
  case bool | uint8 | uint16 =>
    simp only [Fits, wrap, minValueOfIntegralType, maxValueOfIntegralType]
    omega
  all_goals exact Lib.wrap_signed _ _

theorem wrap_of_fits (h : t.Fits x) : t.wrap x = x := by
  cases t
  case bool | uint8 | uint16 =>
    simp only [Fits, minValueOfIntegralType, maxValueOfIntegralType] at h
    simp only [wrap]
    omega
  all_goals exact Lib.wrap_of_signed h

@[simp] theorem wrap_wrap : t.wrap (t.wrap x) = t.wrap x := wrap_of_fits (wrap_fits t x)

@[simp] theorem wrap_wrap_add : t.wrap (t.wrap x + y) = t.wrap (x + y) :=
  wrap_congr ((wrap_modEq t x).add_right y)

@[simp] theorem wrap_add_wrap : t.wrap (x + t.wrap y) = t.wrap (x + y) :=
  wrap_congr ((wrap_modEq t y).add_left x)

@[simp] theorem wrap_wrap_sub : t.wrap (t.wrap x - y) = t.wrap (x - y) :=
  wrap_congr ((wrap_modEq t x).sub_right y)

@[simp] theorem wrap_sub_wrap : t.wrap (x - t.wrap y) = t.wrap (x - y) :=
  wrap_congr ((wrap_modEq t y).sub_left x)

@[simp] theorem wrap_neg_wrap : t.wrap (-t.wrap x) = t.wrap (-x) := wrap_congr (wrap_modEq t x).neg

@[simp] theorem wrap_mul_wrap : t.wrap (x * t.wrap y) = t.wrap (x * y) :=
  wrap_congr ((wrap_modEq t y).mul_left x)

theorem implicitConversion_cases (t : DataType) : t.implicitConversion = .int32 ∨ t.implicitConversion = .int64 := by
  cases t <;> simp [implicitConversion]

theorem implicitConversion_idem (t : DataType) : t.implicitConversion.implicitConversion = t.implicitConversion := by
  cases t <;> rfl

theorem Fits.widen (h : t.Fits x) : t.implicitConversion.Fits x := by
  revert h
  cases t <;> simp only [Fits, minValueOfIntegralType, maxValueOfIntegralType, implicitConversion, Lib.minInt,
    Lib.maxInt] <;> omega

theorem bits_le_implicitConversion (t : DataType) : t.bits ≤ t.implicitConversion.bits := by
  cases t <;> decide

theorem Fits.of_bits_le {t' : DataType} (h : t.Fits x) (hbits : t.bits ≤ t'.bits) (ht : t.implicitConversion = t)
    (ht' : t'.implicitConversion = t') : t'.Fits x := by
  rcases implicitConversion_cases t with h₁ | h₁ <;> rcases implicitConversion_cases t' with h₂ | h₂ <;>
    rw [ht] at h₁ <;> rw [ht'] at h₂ <;> subst h₁ <;> subst h₂
  · exact h
  · simp only [Fits, minValueOfIntegralType, maxValueOfIntegralType, Lib.minInt, Lib.maxInt] at h ⊢
    omega
  · exact absurd hbits (by decide)
  · exact h

theorem wrap_modEq_of_bits_le {t' : DataType} (hbits : t.bits ≤ t'.bits) (x : Int) :
    t'.wrap x ≡ x [ZMOD 2 ^ t.bits] :=
  (wrap_modEq t' x).of_dvd (pow_dvd_pow 2 hbits)

theorem fits_zero (t : DataType) : t.Fits 0 := by
  cases t <;> decide

theorem Fits.sub_lt (hx : t.Fits x) (hy : t.Fits y) : y - x < 2 ^ t.bits := by
  revert hx hy
  cases t <;> simp only [Fits, minValueOfIntegralType, maxValueOfIntegralType, bits, Lib.minInt, Lib.maxInt] <;> omega

end DataType

/-! ### Values -/

variable {ι : Type}

namespace InvariantOp

/-- Exclusive or of two's complement numbers of at most 64 bits. -/
def xorInt (x y : Int) : Int := (BitVec.ofInt 64 x ^^^ BitVec.ofInt 64 y).toInt

def apply : InvariantOp → Int → Int → Int
  | add, x, y => x + y
  | sub, x, y => x - y
  | mul, x, y => x * y
  | div, x, y => x.tdiv y
  | rem, x, y => x.tmod y
  | xor, x, y => xorInt x y

end InvariantOp

def Fetch.eval (ρ : ι → Int) : Fetch ι → Int
  | intConstant value => value
  | longConstant value => value
  | instruction id _ => ρ id

def Invariant.eval (ρ : ι → Int) : Invariant ι → Int
  | fetch f => f.eval ρ
  | op o a b type => type.wrap (o.apply (a.eval ρ) (b.eval ρ))
  | neg b type => type.wrap (-b.eval ρ)

namespace InductionInfo

/-- How many values a periodic sequence has. -/
def period : InductionInfo ι → Nat
  | induction .periodic _ b _ => b.period + 1
  | _ => 1

/-- The value in an iteration, by the closed form of the class. -/
def closedForm (ρ : ι → Int) : InductionInfo ι → Nat → Int
  | invariant e, _ => e.eval ρ
  | induction .linear a b type, i => type.wrap (a.closedForm ρ 0 * i + b.closedForm ρ 0)
  | induction .polynomial a b type, i =>
    type.wrap (((List.range i).map (a.closedForm ρ)).sum + b.closedForm ρ 0)
  | induction (.geometricMul f) a b type, i => type.wrap (a.closedForm ρ 0 * f.eval ρ ^ i + b.closedForm ρ 0)
  | induction (.geometricDiv f) a b type, i => type.wrap ((a.closedForm ρ 0).tdiv (f.eval ρ ^ i) + b.closedForm ρ 0)
  | induction .wrapAround a b _, i => if i = 0 then a.closedForm ρ 0 else b.closedForm ρ (i - 1)
  | induction .periodic a b _, i =>
    if i % (b.period + 1) = 0 then a.closedForm ρ 0 else b.closedForm ρ (i % (b.period + 1) - 1)

end InductionInfo

/-! ### Ranges -/

/-- Where the range analysis gives a proper range, as `IsConstant` reads it, the values of all iterations are in it. -/
def RangesHold (getVal : GetVal ι) (ρ : ι → Int) : Prop :=
  ∀ info min max, getVal info true = some min → getVal info false = some max →
    min.aConstant = 0 ∧ max.aConstant = 0 ∧ min.bConstant ≤ max.bConstant →
    ∀ i, min.bConstant ≤ info.closedForm ρ i ∧ info.closedForm ρ i ≤ max.bConstant

section Ranges

variable {getVal : GetVal ι} {ρ : ι → Int} (hranges : RangesHold getVal ρ)
include hranges

/-- What a constant says about the values of its request. -/
def ConstantRequest.Right : ConstantRequest → Int → Int → Prop
  | exact, x, v => x = v
  | atMost, x, v => x ≤ v
  | atLeast, x, v => v ≤ x

omit hranges in
theorem closedForm_constant {info : InductionInfo ι} {v : Int} (h : info.constant = some v) (i : Nat) :
    info.closedForm ρ i = v := by
  unfold InductionInfo.constant at h
  split at h
  next f => cases f <;> simp_all [InductionInfo.closedForm, Invariant.eval, Fetch.int64, Fetch.eval]
  next => exact absurd h (by simp)

/-- A constant found for a request bounds the induction at each iteration. -/
theorem isConstant_right {request : ConstantRequest} {info : InductionInfo ι} {v : Int}
    (h : isConstant getVal request info = some v) (i : Nat) : request.Right (info.closedForm ρ i) v := by
  unfold isConstant at h
  split at h
  next value hconstant =>
    obtain rfl := Option.some.inj h
    have heq : info.closedForm ρ i = value := closedForm_constant hconstant i
    cases request <;> simp [ConstantRequest.Right, heq]
  next =>
    split at h
    next min max hmin hmax =>
      obtain ⟨hproper, h⟩ := Option.ite_none_right_eq_some.mp h
      obtain ⟨hmin, hmax⟩ := hranges info min max hmin hmax hproper i
      cases request
      case exact =>
        obtain ⟨heq, h⟩ := Option.ite_none_right_eq_some.mp h
        have := Option.some.inj h
        change _ = v
        omega
      case atMost => exact Option.some.inj h ▸ hmax
      case atLeast => exact Option.some.inj h ▸ hmin
    next => exact absurd h (by simp)

theorem isExact_eval {e : Invariant ι} {v : Int} (h : isExact getVal e = some v) : e.eval ρ = v :=
  isConstant_right hranges h 0

end Ranges

/-! ### Typed invariants -/

namespace Invariant

/-- All nodes have one type of computation, and the fetches have values of their types. -/
def Typed (ρ : ι → Int) (t : DataType) : Invariant ι → Prop
  | fetch f => f.type.implicitConversion = t ∧ f.type.Fits (f.eval ρ)
  | op _ a b type => type = t ∧ a.Typed ρ t ∧ b.Typed ρ t
  | neg b type => type = t ∧ b.Typed ρ t

variable {ρ : ι → Int} {t : DataType} {e : Invariant ι}

theorem Typed.fits (h : e.Typed ρ t) : t.Fits (e.eval ρ) := by
  cases e with
  | fetch f => exact h.1 ▸ h.2.widen
  | op o a b type | neg b type => exact h.1 ▸ DataType.wrap_fits type _

theorem Typed.wrap_eval (h : e.Typed ρ t) : t.wrap (e.eval ρ) = e.eval ρ := DataType.wrap_of_fits h.fits

theorem Typed.computation (h : e.Typed ρ t) : t.implicitConversion = t := by
  induction e with
  | fetch f => rw [← h.1, DataType.implicitConversion_idem]
  | op o a b type iha _ => exact iha h.2.1
  | neg b type ih => exact ih h.2

theorem Typed.type_eq (h : e.Typed ρ t) : e.type.implicitConversion = t := by
  cases e with
  | fetch f => exact h.1
  | op o a b type | neg b type => rw [Invariant.type, h.1, h.computation]

/-- The invariant has the value `x` of the type. -/
def Computes (ρ : ι → Int) (t : DataType) (e : Invariant ι) (x : Int) : Prop := e.Typed ρ t ∧ e.eval ρ = t.wrap x

theorem Typed.computes (h : e.Typed ρ t) : e.Computes ρ t (e.eval ρ) := ⟨h, h.wrap_eval.symm⟩

theorem Computes.congr {x y : Int} (h : e.Computes ρ t x) (heq : t.wrap x = t.wrap y) : e.Computes ρ t y :=
  ⟨h.1, h.2.trans heq⟩

end Invariant

/-! ### Simplified invariants -/

section Simplified

variable {getVal : GetVal ι} {ρ : ι → Int} {t : DataType} {a b : Invariant ι}

theorem createConstant_computes {v : Int} (ht : t.implicitConversion = t) (hv : t.Fits v) :
    (createConstant v t : Invariant ι).Computes ρ t v := by
  cases t <;> simp [DataType.implicitConversion] at ht
  all_goals
    exact ⟨⟨rfl, hv⟩, (DataType.wrap_of_fits hv).symm⟩

theorem newInvariant_computes (o : InvariantOp) (ha : a.Typed ρ t) (hb : b.Typed ρ t) :
    (newInvariant o a b).Computes ρ t (o.apply (a.eval ρ) (b.eval ρ)) := by
  have ht := hb.type_eq
  exact ⟨⟨ht, ha, hb⟩, by rw [newInvariant, Invariant.eval, ht]⟩

theorem xorInt_modEq_left (y : Int) : InvariantOp.xorInt 0 y ≡ y [ZMOD 2 ^ 64] := by
  have h : InvariantOp.xorInt 0 y = y.bmod (2 ^ 64) := by simp [InvariantOp.xorInt, BitVec.toInt_ofInt]
  rw [h]
  exact Int.bmod_emod

theorem xorInt_comm (x y : Int) : InvariantOp.xorInt x y = InvariantOp.xorInt y x := by
  unfold InvariantOp.xorInt
  rw [BitVec.xor_comm]

theorem wrap_xorInt_zero (ht : t.implicitConversion = t) (y : Int) : t.wrap (InvariantOp.xorInt 0 y) = t.wrap y := by
  refine DataType.wrap_congr ((xorInt_modEq_left y).of_dvd ?_)
  cases t <;> simp [DataType.implicitConversion] at ht <;> decide

variable (hranges : RangesHold getVal ρ)
include hranges

/-- The value of a sum or a difference. The first operand may be narrower than the second one. -/
theorem createAddSub_eval (isAdd : Bool) (ha : t.Fits (a.eval ρ)) (hb : b.Typed ρ t) :
    (createAddSub getVal isAdd a b).eval ρ = t.wrap (if isAdd then a.eval ρ + b.eval ρ else a.eval ρ - b.eval ρ) := by
  have hnew : ∀ {isAdd : Bool} {b : Invariant ι}, b.Typed ρ t →
    (newInvariant (if isAdd then .add else .sub) a b).eval ρ =
      t.wrap (if isAdd then a.eval ρ + b.eval ρ else a.eval ρ - b.eval ρ) := by
    intro isAdd b hb
    rw [newInvariant, Invariant.eval, hb.type_eq]
    cases isAdd <;> rfl
  fun_induction createAddSub getVal isAdd a b
  case case1 isAdd b hzero => simp [hzero.1, isExact_eval hranges hzero.2, hb.wrap_eval]
  case case2 isAdd b _ hexact => simp [isExact_eval hranges hexact, DataType.wrap_of_fits ha]
  case case4 isAdd _ c type _ ih =>
    -- `a + (-c)` is `a - c`, and `a - (-c)` is `a + c`
    obtain ⟨rfl, hc⟩ := hb
    rw [ih hc]
    cases isAdd
    · simp [Invariant.eval]
    · simp [Invariant.eval, sub_eq_add_neg]
  case case3 => exact hnew hb
  case case5 => exact hnew hb

omit hranges in
theorem createAddSub_typed (isAdd : Bool) (ha : a.Typed ρ t) (hb : b.Typed ρ t) :
    (createAddSub getVal isAdd a b).Typed ρ t := by
  fun_induction createAddSub getVal isAdd a b
  case case1 => exact hb
  case case2 => exact ha
  case case4 ih => exact ih hb.2
  case case3 => exact ⟨hb.type_eq, ha, hb⟩
  case case5 => exact ⟨hb.type_eq, ha, hb⟩

theorem createAddSub_computes (isAdd : Bool) (ha : a.Typed ρ t) (hb : b.Typed ρ t) :
    (createAddSub getVal isAdd a b).Computes ρ t
      (if isAdd then a.eval ρ + b.eval ρ else a.eval ρ - b.eval ρ) :=
  ⟨createAddSub_typed isAdd ha hb, createAddSub_eval hranges isAdd ha.fits hb⟩

/-- The simplified negation computes the negation. -/
theorem createNeg_computes (hb : b.Typed ρ t) : (createNeg getVal b).Computes ρ t (-b.eval ρ) := by
  have hnew : (Invariant.neg b b.type.implicitConversion).Computes ρ t (-b.eval ρ) := by
    have ht := hb.type_eq
    exact ⟨⟨ht, hb⟩, by rw [Invariant.eval, ht]⟩
  unfold createNeg
  split
  next value hexact =>
    split_ifs with hzero
    · refine hb.computes.congr ?_
      simp [isExact_eval hranges hexact, hzero]
    · exact hnew
  next =>
    split
    next c type =>
      obtain ⟨rfl, hc⟩ := hb
      refine hc.computes.congr ?_
      simp [Invariant.eval]
    next c d type =>
      obtain ⟨rfl, hc, hd⟩ := hb
      refine (createAddSub_computes hranges false hd hc).congr ?_
      simp [Invariant.eval, InvariantOp.apply]
    next => exact hnew

/-- The simplified operation computes the operation. -/
theorem createInvariantOp_computes (o : InvariantOp) (ha : a.Typed ρ t) (hb : b.Typed ρ t) :
    (createInvariantOp getVal o a b).Computes ρ t (o.apply (a.eval ρ) (b.eval ρ)) := by
  have hexact : ∀ {e : Invariant ι} {v : Int}, isExact getVal e = some v → e.eval ρ = v := isExact_eval hranges
  unfold createInvariantOp
  cases o
  case add => exact createAddSub_computes hranges true ha hb
  case sub => exact createAddSub_computes hranges false ha hb
  case rem => exact newInvariant_computes .rem ha hb
  case xor =>
    simp only
    split_ifs with h0 h1
    · refine hb.computes.congr ?_
      rw [InvariantOp.apply, hexact h0, wrap_xorInt_zero ha.computation]
    · refine ha.computes.congr ?_
      rw [InvariantOp.apply, hexact h1, xorInt_comm, wrap_xorInt_zero ha.computation]
    · exact newInvariant_computes .xor ha hb
  case div =>
    simp only
    split
    next h => exact ha.computes.congr (by simp [InvariantOp.apply, hexact h])
    next h => exact (createNeg_computes hranges ha).congr (by simp [InvariantOp.apply, hexact h])
    next => exact newInvariant_computes .div ha hb
  case mul =>
    simp only
    split
    next h => exact ha.computes.congr (by simp [InvariantOp.apply, hexact h])
    next h => exact hb.computes.congr (by simp [InvariantOp.apply, hexact h])
    next h => exact (createNeg_computes hranges hb).congr (by simp [InvariantOp.apply, hexact h])
    next =>
      split
      next h => exact hb.computes.congr (by simp [InvariantOp.apply, hexact h])
      next h => exact ha.computes.congr (by simp [InvariantOp.apply, hexact h])
      next h => exact (createNeg_computes hranges ha).congr (by simp [InvariantOp.apply, hexact h])
      next => exact newInvariant_computes .mul ha hb

theorem Invariant.Computes.add {x y : Int} (ha : a.Computes ρ t x) (hb : b.Computes ρ t y) :
    (createInvariantOp getVal .add a b).Computes ρ t (x + y) := by
  refine (createInvariantOp_computes hranges .add ha.1 hb.1).congr ?_
  simp [InvariantOp.apply, ha.2, hb.2]

theorem Invariant.Computes.sub {x y : Int} (ha : a.Computes ρ t x) (hb : b.Computes ρ t y) :
    (createInvariantOp getVal .sub a b).Computes ρ t (x - y) := by
  refine (createInvariantOp_computes hranges .sub ha.1 hb.1).congr ?_
  simp [InvariantOp.apply, ha.2, hb.2]

theorem Invariant.Computes.div {x y : Int} (ha : a.Computes ρ t x) (hb : b.Computes ρ t y) :
    (createInvariantOp getVal .div a b).Computes ρ t ((t.wrap x).tdiv (t.wrap y)) := by
  refine (createInvariantOp_computes hranges .div ha.1 hb.1).congr ?_
  rw [InvariantOp.apply, ha.2, hb.2]

end Simplified

/-! ### Invariants of several types -/

namespace Invariant

/-- All nodes are computed in types that are at least as wide. -/
def Wide (t : DataType) : Invariant ι → Prop
  | fetch f => t.bits ≤ f.type.implicitConversion.bits
  | op _ a b type => t.bits ≤ type.bits ∧ a.Wide t ∧ b.Wide t
  | neg b type => t.bits ≤ type.bits ∧ b.Wide t

variable {ρ : ι → Int} {t t' : DataType} {e : Invariant ι}

theorem Typed.wide (h : e.Typed ρ t') (hbits : t.bits ≤ t'.bits) : e.Wide t := by
  induction e with
  | fetch f =>
    rw [Wide, h.1]
    exact hbits
  | op o a b type iha ihb => exact ⟨h.1 ▸ hbits, iha h.2.1, ihb h.2.2⟩
  | neg b type ih => exact ⟨h.1 ▸ hbits, ih h.2⟩

theorem Wide.type (h : e.Wide t) : t.bits ≤ e.type.implicitConversion.bits := by
  cases e with
  | fetch f => exact h
  | op o a b type | neg b type => exact h.1.trans type.bits_le_implicitConversion

/-- The invariant has the value `x` up to multiples of the range of the type. -/
def Near (ρ : ι → Int) (t : DataType) (e : Invariant ι) (x : Int) : Prop := e.Wide t ∧ e.eval ρ ≡ x [ZMOD 2 ^ t.bits]

theorem Wide.near (h : e.Wide t) : e.Near ρ t (e.eval ρ) := ⟨h, rfl⟩

theorem Near.congr {x y : Int} (h : e.Near ρ t x) (heq : x ≡ y [ZMOD 2 ^ t.bits]) : e.Near ρ t y := ⟨h.1, h.2.trans heq⟩

end Invariant

section Near

variable {getVal : GetVal ι} {ρ : ι → Int} {t : DataType} {a b : Invariant ι} {x y : Int}

theorem newAddSub_near (isAdd : Bool) (ha : a.Wide t) (hb : b.Wide t) :
    (newInvariant (if isAdd then .add else .sub) a b).Near ρ t
      (if isAdd then a.eval ρ + b.eval ρ else a.eval ρ - b.eval ρ) := by
  refine ⟨⟨hb.type, ha, hb⟩, ?_⟩
  cases isAdd <;> exact DataType.wrap_modEq_of_bits_le hb.type _

theorem neg_near (type : DataType) (hbits : t.bits ≤ type.bits) (hb : b.Wide t) :
    (Invariant.neg b type).Near ρ t (-b.eval ρ) :=
  ⟨⟨hbits, hb⟩, DataType.wrap_modEq_of_bits_le hbits _⟩

variable (hranges : RangesHold getVal ρ)
include hranges

/-- On operands of wider types the sum is right up to a wrap of the narrow type. -/
theorem createAddSub_near (isAdd : Bool) (ha : a.Wide t) (hb : b.Wide t) :
    (createAddSub getVal isAdd a b).Near ρ t (if isAdd then a.eval ρ + b.eval ρ else a.eval ρ - b.eval ρ) := by
  fun_induction createAddSub getVal isAdd a b
  case case1 isAdd b hzero =>
    refine hb.near.congr ?_
    simp [hzero.1, isExact_eval hranges hzero.2]
  case case2 isAdd b _ hexact =>
    refine ha.near.congr ?_
    simp [isExact_eval hranges hexact]
  case case4 isAdd _ c type _ ih =>
    have hneg := (neg_near type hb.1 hb.2 : (Invariant.neg c type).Near ρ t _).2.symm
    refine (ih hb.2).congr ?_
    cases isAdd
    · simpa using hneg.sub_left (a.eval ρ)
    · simpa [sub_eq_add_neg] using hneg.add_left (a.eval ρ)
  case case3 => exact newAddSub_near _ ha hb
  case case5 => exact newAddSub_near _ ha hb

/-- On an operand of a wider type the negation is right up to a wrap of the narrow type. -/
theorem createNeg_near (hb : b.Wide t) : (createNeg getVal b).Near ρ t (-b.eval ρ) := by
  have hnew := neg_near (ρ := ρ) b.type.implicitConversion hb.type hb
  unfold createNeg
  split
  next value hexact =>
    split_ifs with hzero
    · exact hb.near.congr (by simp [isExact_eval hranges hexact, hzero])
    · exact hnew
  next =>
    split
    next c type _ =>
      have hneg := (neg_near type hb.1 hb.2 : (Invariant.neg c type).Near ρ t _).2.symm
      exact hb.2.near.congr (by simpa using hneg.neg)
    next c d type _ =>
      have hsub : (Invariant.op .sub c d type).eval ρ ≡ c.eval ρ - d.eval ρ [ZMOD 2 ^ t.bits] :=
        DataType.wrap_modEq_of_bits_le hb.1 _
      exact (createAddSub_near hranges false hb.2.2 hb.2.1).congr (by simpa using hsub.symm.neg)
    next => exact hnew

theorem Invariant.Near.addSub (isAdd : Bool) (ha : a.Near ρ t x) (hb : b.Near ρ t y) :
    (createAddSub getVal isAdd a b).Near ρ t (if isAdd then x + y else x - y) := by
  refine (createAddSub_near hranges isAdd ha.1 hb.1).congr ?_
  cases isAdd
  · exact ha.2.sub hb.2
  · exact ha.2.add hb.2

end Near

end Art.Induction
