import Art.Compiler.InstructionSimplifier
import Mathlib.Data.BitVec

/-! # Rotates

Whatever pattern is found, the two shift distances add up to a multiple of the register size. The shifted parts then
have no common bits, unless both distances are zero: there the operation is applied to the value itself, and only `Or`
gives it back. -/

namespace Art.InstructionSimplifier

/-! ### The operations on values -/

section Compute

variable {w : Nat}

def maskedDistance (w : Nat) (distance : BitVec 32) : Nat := (distance &&& BitVec.ofNat 32 (w - 1)).toNat

def computeShl (value : BitVec w) (distance : BitVec 32) : BitVec w := value <<< maskedDistance w distance

def computeUShr (value : BitVec w) (distance : BitVec 32) : BitVec w := value >>> maskedDistance w distance

def computeRor (value : BitVec w) (distance : BitVec 32) : BitVec w :=
  if maskedDistance w distance = 0 then value
  else value >>> maskedDistance w distance ||| value <<< (w - maskedDistance w distance)

def BinaryOperation.compute : BinaryOperation → BitVec w → BitVec w → BitVec w
  | add, x, y => x + y
  | xor, x, y => x ^^^ y
  | or, x, y => x ||| y

theorem BinaryOperation.compute_comm (op : BinaryOperation) (x y : BitVec w) : op.compute x y = op.compute y x := by
  cases op
  · exact BitVec.add_comm x y
  · exact BitVec.xor_comm x y
  · exact BitVec.or_comm x y

theorem BinaryOperation.compute_of_disjoint (op : BinaryOperation) {x y : BitVec w} (h : x &&& y = 0#w) :
    op.compute x y = x ||| y := by
  cases op
  case add => exact BitVec.add_eq_or_of_and_eq_zero x y h
  case or => rfl
  case xor =>
    change x ^^^ y = x ||| y
    ext i hi
    have hbit : (x[i] && y[i]) = false := by
      rw [← BitVec.getElem_and, h, BitVec.getElem_zero]
    simp only [BitVec.getElem_xor, BitVec.getElem_or]
    revert hbit
    cases x[i] <;> cases y[i] <;> decide

theorem ushr_and_shl_eq_zero (x : BitVec w) (k : Nat) : x >>> k &&& x <<< (w - k) = 0#w := by
  ext i hi
  by_cases h : i < w - k
  · simp [h]
  · have : x.getLsbD (k + i) = false := BitVec.getLsbD_of_ge x (k + i) (by omega)
    simp [this]

/-- Applied to the value and itself, an operation gives the value back only if it is `Or` or the value is zero. -/
theorem BinaryOperation.compute_self (op : BinaryOperation) (x : BitVec w) :
    op.compute x x = x ↔ op = .or ∨ x = 0#w := by
  cases op
  case add => simp [compute]
  case or => simp [compute]
  case xor =>
    simp only [compute, BitVec.xor_self, reduceCtorEq, false_or]
    exact eq_comm

end Compute

/-! ### Distances -/

section Distances

variable (t : IntType)

theorem maskedDistance_eq (distance : BitVec 32) : maskedDistance t.regBits distance = distance.toNat % t.regBits := by
  unfold maskedDistance
  rw [BitVec.toNat_and]
  cases t
  · exact Nat.and_two_pow_sub_one_eq_mod _ 5
  · exact Nat.and_two_pow_sub_one_eq_mod _ 6

theorem maskedBits_eq_zero (distance : BitVec 64) : maskedBits t distance = 0 ↔ distance.toNat % t.regBits = 0 := by
  unfold maskedBits
  rw [← BitVec.toNat_inj, BitVec.toNat_and]
  cases t
  · rw [show distance.toNat % IntType.int32.regBits = _ from (Nat.and_two_pow_sub_one_eq_mod _ 5).symm]
    rfl
  · rw [show distance.toNat % IntType.int64.regBits = _ from (Nat.and_two_pow_sub_one_eq_mod _ 6).symm]
    rfl

/-- A constant distance has the same low bits in 64 bits. -/
theorem signExtend_mod (c : BitVec 32) : (c.signExtend 64).toNat % 2 ^ 32 = c.toNat := by
  have h : (c.signExtend 64).setWidth 32 = c := by
    ext i hi
    have : i < 64 := by omega
    simp [BitVec.getElem_signExtend, hi, this]
  have := congrArg BitVec.toNat h
  rwa [BitVec.toNat_setWidth] at this

/-- The two shift distances add up to a multiple of the register size. -/
def Opposite (shlDistance ushrDistance : BitVec 32) : Prop :=
  (shlDistance.toNat + ushrDistance.toNat) % t.regBits = 0

variable {t} {l r c : BitVec 32}

theorem Opposite.symm (h : Opposite t l r) : Opposite t r l := by
  unfold Opposite at h ⊢
  rwa [Nat.add_comm]

theorem opposite_of_constants (h : maskedBits t (l.signExtend 64 + r.signExtend 64) = 0) : Opposite t l r := by
  rw [maskedBits_eq_zero, BitVec.toNat_add] at h
  have hl := signExtend_mod l
  have hr := signExtend_mod r
  unfold Opposite
  cases t <;> simp only [IntType.regBits] at h ⊢ <;> omega

theorem opposite_neg : Opposite t (-r) r := by
  unfold Opposite
  rw [BitVec.toNat_neg]
  have := r.isLt
  cases t <;> simp only [IntType.regBits] <;> omega

theorem opposite_sub (h : maskedBits t (c.signExtend 64) = 0) : Opposite t (c - r) r := by
  rw [maskedBits_eq_zero] at h
  have hc := signExtend_mod c
  have := r.isLt
  unfold Opposite
  rw [BitVec.toNat_sub]
  cases t <;> simp only [IntType.regBits] at h ⊢ <;> omega

/-- The rotate has the value of the operation, unless the distances are zero and the operation is not `Or`. -/
theorem computeRor_eq_iff (op : BinaryOperation) (x : BitVec t.regBits) (h : Opposite t l r) :
    op.compute (computeUShr x r) (computeShl x l) = computeRor x r ↔
      op = .or ∨ r.toNat % t.regBits ≠ 0 ∨ x = 0#t.regBits := by
  have hl := maskedDistance_eq t l
  have hr := maskedDistance_eq t r
  rw [← hr]
  unfold computeUShr computeShl computeRor
  by_cases hzero : maskedDistance t.regBits r = 0
  · have hlzero : maskedDistance t.regBits l = 0 := by
      unfold Opposite at h
      cases t <;> simp only [IntType.regBits] at h hl hr hzero ⊢ <;> omega
    rw [if_pos hzero, hzero, hlzero, BitVec.shiftLeft_zero, BitVec.ushiftRight_zero, op.compute_self]
    simp
  · have hlrest : maskedDistance t.regBits l = t.regBits - maskedDistance t.regBits r := by
      unfold Opposite at h
      cases t <;> simp only [IntType.regBits] at h hl hr hzero ⊢ <;> omega
    rw [if_neg hzero, hlrest, op.compute_of_disjoint (ushr_and_shl_eq_zero x _)]
    simp [hzero]

end Distances

/-! ### Graphs -/

/-- The value of an instruction is what it computes from the values of its inputs. -/
def Instruction.Computes {ι : Type} (value : (t : IntType) → ι → BitVec t.regBits) (i : ι) : Instruction ι → Prop
  | intConstant c => value .int32 i = c
  | longConstant c => value .int64 i = c
  | neg t input => value t i = -value t input
  | sub t left right => value t i = value t left - value t right
  | shl t x d => value t i = computeShl (value t x) (value .int32 d)
  | ushr t x d => value t i = computeUShr (value t x) (value .int32 d)
  | other _ => True

/-- Values of the instructions in one run, at their types. -/
structure Values {ι : Type} (graph : Graph ι) where
  value : (t : IntType) → ι → BitVec t.regBits
  computes : ∀ i, (graph.instruction i).Computes value i

section Graphs

variable {ι : Type} {graph : Graph ι} {i : ι} {insn : Instruction ι}

theorem Graph.typed_of_eq (h : graph.instruction i = insn) : insn.Typed fun input => (graph.instruction input).type :=
  h ▸ graph.typed i

theorem Values.computes_of_eq (vals : Values graph) (h : graph.instruction i = insn) : insn.Computes vals.value i :=
  h ▸ vals.computes i

theorem Values.constant (vals : Values graph) {i : ι} {c : BitVec 64} (htype : (graph.instruction i).type = .int32)
    (h : (graph.instruction i).int64FromConstant = some c) : c = (vals.value .int32 i).signExtend 64 := by
  cases hi : graph.instruction i with
  | intConstant value =>
    have hvalue : vals.value .int32 i = value := vals.computes_of_eq hi
    rw [hi] at h
    rw [hvalue]
    exact (Option.some.inj h).symm
  | longConstant value => simp [hi, Instruction.type] at htype
  | _ => simp [hi, Instruction.int64FromConstant] at h

variable [DecidableEq ι] {t : IntType}

/-- A distance that is the register width minus another is opposite to it. -/
theorem opposite_of_isSub (vals : Values graph) {i other : ι} (htype : (graph.instruction i).type = .int32)
    (h : isSubRegBitsMinusOther graph (graph.instruction i) t other = true) :
    Opposite t (vals.value .int32 i) (vals.value .int32 other) := by
  unfold isSubRegBitsMinusOther at h
  split at h
  next type left right hi =>
    obtain rfl : type = .int32 := by
      rw [hi] at htype
      exact htype
    obtain ⟨hright, hconst⟩ := (Bool.and_eq_true _ _).mp h
    obtain rfl := eq_of_beq hright
    obtain ⟨c, hc, hmask⟩ := Option.any_eq_true _ _ |>.mp hconst
    have htyped : (graph.instruction left).type = .int32 ∧ _ := graph.typed_of_eq hi
    have hvalue : vals.value .int32 i = vals.value .int32 left - vals.value .int32 right := vals.computes_of_eq hi
    rw [vals.constant htyped.1 hc] at hmask
    rw [hvalue]
    exact opposite_sub (eq_of_beq hmask)
  next => simp at h

omit [DecidableEq ι] in
theorem opposite_of_neg (vals : Values graph) {i input : ι} {type : IntType}
    (htype : (graph.instruction i).type = .int32) (hi : graph.instruction i = .neg type input) :
    Opposite t (vals.value .int32 i) (vals.value .int32 input) := by
  obtain rfl : type = .int32 := by
    rw [hi] at htype
    exact htype
  have hvalue : vals.value .int32 i = -vals.value .int32 input := vals.computes_of_eq hi
  rw [hvalue]
  exact opposite_neg

/-- What a replacement needs: both shifts are of one value, and their distances are opposite. -/
theorem tryReplaceShifts_spec (vals : Values graph) {ushr shl : Shift ι} {ror : Ror ι} {i j : ι}
    (hi : graph.instruction i = .ushr ushr.type ushr.left ushr.right)
    (hj : graph.instruction j = .shl shl.type shl.left shl.right) (h : tryReplaceShifts graph ushr shl = some ror) :
    ror = replaceRotateWithRor ushr ∧ shl.type = ushr.type ∧ shl.left = ushr.left ∧
      Opposite ushr.type (vals.value .int32 shl.right) (vals.value .int32 ushr.right) := by
  have hushr : (graph.instruction ushr.right).type = .int32 := (graph.typed_of_eq hi).2
  have hshl : (graph.instruction shl.right).type = .int32 := (graph.typed_of_eq hj).2
  obtain ⟨⟨htype, hleft⟩, h⟩ := Option.ite_none_right_eq_some.mp h
  suffices hror : ror = replaceRotateWithRor ushr ∧
      Opposite ushr.type (vals.value .int32 shl.right) (vals.value .int32 ushr.right) from
    ⟨hror.1, htype.symm, hleft.symm, hror.2⟩
  dsimp only at h
  split at h
  next rdist ldist hr hl =>
    obtain ⟨hmask, h⟩ := Option.ite_none_right_eq_some.mp h
    rw [vals.constant hushr hr, vals.constant hshl hl] at hmask
    exact ⟨(Option.some.inj h).symm, opposite_of_constants hmask⟩
  next =>
    split_ifs at h with hsub hneg
    · obtain ⟨hpattern, h⟩ := Option.ite_none_right_eq_some.mp h
      refine ⟨(Option.some.inj h).symm, ?_⟩
      rcases hpattern with hpattern | hpattern
      · exact opposite_of_isSub vals hshl hpattern
      · exact (opposite_of_isSub vals hushr hpattern).symm
    unfold tryReplaceWithRotateRegisterNegPattern at h
    split at h
    next hi =>
      obtain ⟨hinput, h⟩ := Option.ite_none_right_eq_some.mp h
      exact ⟨(Option.some.inj h).symm, hinput ▸ opposite_of_neg vals hshl hi⟩
    next hi _ =>
      obtain ⟨hinput, h⟩ := Option.ite_none_right_eq_some.mp h
      exact ⟨(Option.some.inj h).symm, hinput ▸ (opposite_of_neg vals hushr hi).symm⟩
    next => simp at h

theorem shifts_value_iff (vals : Values graph) (op : BinaryOperation) {ushr shl : Shift ι} {ror : Ror ι} {i j : ι}
    (hi : graph.instruction i = .ushr ushr.type ushr.left ushr.right)
    (hj : graph.instruction j = .shl shl.type shl.left shl.right) (h : tryReplaceShifts graph ushr shl = some ror) :
    ror = replaceRotateWithRor ushr ∧ (op.compute (vals.value ushr.type i) (vals.value ushr.type j) =
        computeRor (vals.value ushr.type ushr.left) (vals.value .int32 ushr.right) ↔
      op = .or ∨ (vals.value .int32 ushr.right).toNat % ushr.type.regBits ≠ 0 ∨
        vals.value ushr.type ushr.left = 0#(ushr.type.regBits)) := by
  obtain ⟨hror, htype, hvalue, hopp⟩ := tryReplaceShifts_spec vals hi hj h
  have hushr : vals.value ushr.type i = computeUShr _ _ := vals.computes_of_eq hi
  rw [htype, hvalue] at hj
  have hshl : vals.value ushr.type j = computeShl _ _ := vals.computes_of_eq hj
  rw [hushr, hshl]
  exact ⟨hror, computeRor_eq_iff op _ hopp⟩

/-- The rotate that replaces an operation of two shifts rotates the value of the unsigned one by its distance. It has
    the value of the operation exactly if the operation is `Or`, the distance is not zero modulo the register size,
    or the value is zero. -/
theorem rotate_value_iff (vals : Values graph) (op : BinaryOperation) {left right : ι} {ror : Ror ι}
    (h : tryReplaceWithRotate graph left right = some ror) :
    ∃ t x d, (graph.instruction left = .ushr t x d ∨ graph.instruction right = .ushr t x d) ∧ ror = ⟨t, x, d⟩ ∧
      (op.compute (vals.value t left) (vals.value t right) = computeRor (vals.value t x) (vals.value .int32 d) ↔
        op = .or ∨ (vals.value .int32 d).toNat % t.regBits ≠ 0 ∨ vals.value t x = 0#t.regBits) := by
  unfold tryReplaceWithRotate at h
  split at h
  next hl hr =>
    obtain ⟨hror, hiff⟩ := shifts_value_iff vals op hl hr h
    exact ⟨_, _, _, .inl hl, hror, hiff⟩
  next hl hr =>
    obtain ⟨hror, hiff⟩ := shifts_value_iff vals op hr hl h
    exact ⟨_, _, _, .inr hr, hror, by rwa [op.compute_comm]⟩
  next => simp at h

end Graphs

/-! ### A rotate by a register -/

/-- `x >>> d` and `x << -d`, with `x` and `d` as `0` and `1`. -/
def negPattern : Graph Nat where
  instruction
    | 2 => .neg .int32 1
    | 3 => .ushr .int32 0 1
    | 4 => .shl .int32 0 2
    | _ => .other .int32
  typed := by
    rintro (_ | _ | _ | _ | _ | _)
    · trivial
    · trivial
    · rfl
    · exact ⟨rfl, rfl⟩
    · exact ⟨rfl, rfl⟩
    · trivial

/-- Its values for `x` and `d`. -/
def negPatternValues (x d : BitVec 32) : Values negPattern where
  value
    | .int32, 0 => x
    | .int32, 1 => d
    | .int32, 2 => -d
    | .int32, 3 => computeUShr x d
    | .int32, 4 => computeShl x (-d)
    | t, _ => 0#t.regBits
  computes := by
    rintro (_ | _ | _ | _ | _ | _)
    · trivial
    · trivial
    · rfl
    · rfl
    · rfl
    · trivial

theorem rotate_value_by_four : tryReplaceWithRotate negPattern 3 4 = some ⟨.int32, 0, 1⟩ ∧
    let vals := negPatternValues 0xff#32 4#32
    BinaryOperation.add.compute (vals.value .int32 3) (vals.value .int32 4) =
      computeRor (vals.value .int32 0) (vals.value .int32 1) := by
  have h : tryReplaceWithRotate negPattern 3 4 = some ⟨.int32, 0, 1⟩ := by decide
  obtain ⟨t, x, d, -, hror, hiff⟩ := rotate_value_iff (negPatternValues 0xff#32 4#32) .add h
  cases hror
  exact ⟨h, hiff.mpr (.inr (.inl (by decide)))⟩

/-- With a distance of zero the parts are the value itself: the sum of `1` and `1` is replaced by `1`. -/
theorem rotate_value_by_zero : tryReplaceWithRotate negPattern 3 4 = some ⟨.int32, 0, 1⟩ ∧
    let vals := negPatternValues 1#32 0#32
    BinaryOperation.add.compute (vals.value .int32 3) (vals.value .int32 4) = 2#32 ∧
    BinaryOperation.xor.compute (vals.value .int32 3) (vals.value .int32 4) = 0#32 ∧
    computeRor (vals.value .int32 0) (vals.value .int32 1) = 1#32 := by
  exact ⟨by decide, rfl, rfl, rfl⟩

end Art.InstructionSimplifier
