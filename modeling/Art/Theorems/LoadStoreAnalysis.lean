import Art.Compiler.LoadStoreAnalysis
import Mathlib.Tactic.SplitIfs

/-! # Disjoint array accesses

When `CanArrayElementsAlias` finds the offsets of two accesses apart, the accesses are, except for two
offsets so far apart that they are neighbours modulo `2 ^ 32`: then a vector that starts below the one may
reach the other. -/

namespace Art.Lsa
open Lib Bce

variable {ρ : Nat → Int} {idx idx1 idx2 left right x : HInstruction} {base : Option HInstruction} {op : BinaryOp}
  {l l1 l2 v : Int} {n m : Nat}

/-! ### Indexes -/

/-- The indexes `x`, `x + c`, `c + x`, `x - c` and `c`: the instruction they start from, if any, and what they
    add to it. -/
inductive Index : HInstruction → Option HInstruction → Int → Prop
  | constant (c : Int) : Int32 c → Index (.intConstant c) none c
  | plain (x : HInstruction) : Index x (some x) 0
  | add (id : Nat) (x : HInstruction) (c : Int) : Int32 c →
      Index (.binary id .add .int32 x (.intConstant c)) (some x) c
  | addLeft (id : Nat) (x : HInstruction) (c : Int) : Int32 c →
      Index (.binary id .add .int32 (.intConstant c) x) (some x) c
  | sub (id : Nat) (x : HInstruction) (c : Int) : Int32 c →
      Index (.binary id .sub .int32 x (.intConstant c)) (some x) (wrap 31 (-c))

theorem Index.int32 (h : Index idx base l) : Int32 l := by
  cases h with
  | plain x => decide
  | sub id x c _ => exact wrap_signed 31 (-c)
  | _ => assumption

theorem Index.eval_eq (h : Index idx base l) (hidx : Int32 (idx.eval ρ)) :
    idx.eval ρ = wrap 31 ((base.elim 0 (HInstruction.eval ρ)) + l) := by
  cases h with
  | constant _ hc => exact (wrap_of_signed hc).symm.trans (by rw [Option.elim_none, zero_add])
  | plain x => exact (wrap_of_signed hidx).symm.trans (by rw [Option.elim_some, add_zero])
  | add id x _ hc => rfl
  | addLeft id x _ hc => exact congrArg (wrap 31) (add_comm l (x.eval ρ))
  | sub id x c hc =>
    refine wrap_congr ?_
    rw [Int.sub_eq_add_neg]
    exact (wrap_modEq 31 (-c)).symm.add_left _

/-- An instruction of type `int32`, as far as the analysis looks at it: the constants and the type of an operation. -/
def IsInt32 : HInstruction → Prop
  | .intConstant c => Int32 c
  | .binary _ _ type left right =>
    type = .int32 ∧ (∀ c, left = .intConstant c → Int32 c) ∧ ∀ c, right = .intConstant c → Int32 c
  | _ => True

theorem asIntConstant_eq_some (h : idx.asIntConstant = some v) : idx = .intConstant v := by
  cases idx with
  | intConstant c => rw [← Option.some.inj h]
  | _ => cases h

/-- The operand beside the constant, on either side but for a subtraction. -/
theorem getLeastConstantLeft_cases (h : getLeastConstantLeft op left right = some x)
    (hv : (getConstantRight op left right).bind HInstruction.asIntConstant = some v) :
    (right = .intConstant v ∧ x = left) ∨ (op ≠ .sub ∧ left = .intConstant v ∧ x = right) := by
  unfold getLeastConstantLeft at h
  unfold getConstantRight at h hv
  split_ifs at h hv with hright hleft
  · refine .inl ⟨asIntConstant_eq_some hv, ?_⟩
    dsimp only at h
    split_ifs at h with heq
    · rw [← Option.some.inj h, heq]
    · exact (Option.some.inj h).symm
  · refine .inr ⟨?_, asIntConstant_eq_some hv, ?_⟩
    · rintro rfl
      cases hleft
    · dsimp only at h
      rw [if_pos rfl] at h
      exact (Option.some.inj h).symm

/-- An addition or subtraction with a constant operand is an index from its other operand. -/
theorem index_of_constantOp (hidx : IsInt32 idx) (h : asConstantOp idx = some (op, left, right))
    (hop : op = .add ∨ op = .sub) (hx : getLeastConstantLeft op left right = some x)
    (hv : (getConstantRight op left right).bind HInstruction.asIntConstant = some v) :
    Index idx (some x) (addedConstant op v) := by
  obtain ⟨id, rfl⟩ : ∃ id, idx = .binary id op .int32 left right := by
    unfold asConstantOp at h
    split at h
    next id op' type left' right' =>
      split_ifs at h
      cases h
      exact ⟨id, by rw [hidx.1]⟩
    next => cases h
  rcases getLeastConstantLeft_cases hx hv with ⟨rfl, rfl⟩ | ⟨hne, rfl, rfl⟩
  · rcases hop with rfl | rfl
    · exact .add id _ v (hidx.2.2 v rfl)
    · exact .sub id _ v (hidx.2.2 v rfl)
  · obtain rfl := hop.resolve_right hne
    exact .addLeft id _ v (hidx.2.1 v rfl)

/-! ### Accesses that are told apart -/

/-- Two accesses from one and the same instruction, with ranges of offsets that do not overlap. -/
def OffsetsApart (idx1 : HInstruction) (n : Nat) (idx2 : HInstruction) (m : Nat) (base : Option HInstruction)
    (l1 l2 : Int) : Prop :=
  Index idx1 base l1 ∧ Index idx2 base l2 ∧ canIntegerRangesOverlap l1 (lastElement l1 n) l2 (lastElement l2 m) = false

theorem OffsetsApart.symm (h : OffsetsApart idx1 n idx2 m base l1 l2) : OffsetsApart idx2 m idx1 n base l2 l1 := by
  refine ⟨h.2.1, h.1, ?_⟩
  rw [canIntegerRangesOverlap, max_comm, min_comm]
  exact h.2.2

theorem apart_of_binaryOpAndIndex (hidx : IsInt32 idx1) (h1 : asConstantOp idx1 = some (op, left, right))
    (h : canBinaryOpAndIndexAlias op left right n idx2 m = false) :
    ∃ base l1 l2, OffsetsApart idx1 n idx2 m base l1 l2 := by
  unfold canBinaryOpAndIndexAlias at h
  split_ifs at h with hop hx
  split at h
  next => cases h
  next v hv =>
    exact ⟨_, _, 0, index_of_constantOp hidx h1 hop (not_not.mp hx) hv, .plain idx2, h⟩

/-- Two indexes that cannot alias are at ranges of offsets apart from one base. -/
theorem apart_of_binaryOps {op2 : BinaryOp} {left2 right2 : HInstruction} (hidx1 : IsInt32 idx1) (hidx2 : IsInt32 idx2)
    (h1 : asConstantOp idx1 = some (op, left, right)) (h2 : asConstantOp idx2 = some (op2, left2, right2))
    (h : canBinaryOpsAlias op left right n op2 left2 right2 m = false) :
    ∃ base l1 l2, OffsetsApart idx1 n idx2 m base l1 l2 := by
  unfold canBinaryOpsAlias at h
  split_ifs at h with hop hx
  rw [not_or, not_not, not_not] at hop
  split at h
  next v1 v2 hv1 hv2 =>
    obtain ⟨x, hx2⟩ : ∃ x, getLeastConstantLeft op2 left2 right2 = some x := by
      obtain ⟨c, hc, -⟩ := Option.bind_eq_some_iff.mp hv2
      unfold getLeastConstantLeft
      rw [hc]
      dsimp only
      split_ifs
      · exact ⟨_, rfl⟩
      · exact ⟨_, rfl⟩
    exact ⟨_, _, _, index_of_constantOp hidx1 h1 hop.1 ((not_not.mp hx).trans hx2) hv1,
      index_of_constantOp hidx2 h2 hop.2 hx2 hv2, h⟩
  next => cases h

/-- Only accesses from one and the same instruction, or at constants, are told apart. -/
theorem apart_of_not_alias (hidx1 : IsInt32 idx1) (hidx2 : IsInt32 idx2)
    (h : canArrayElementsAlias idx1 n idx2 m = false) : ∃ base l1 l2, OffsetsApart idx1 n idx2 m base l1 l2 := by
  unfold canArrayElementsAlias at h
  split_ifs at h
  split at h
  next c1 c2 hc1 hc2 =>
    obtain rfl := asIntConstant_eq_some hc1
    obtain rfl := asIntConstant_eq_some hc2
    exact ⟨none, c1, c2, .constant c1 hidx1, .constant c2 hidx2, h⟩
  next =>
    have hsecond : ∀ {op2 left2 right2}, asConstantOp idx2 = some (op2, left2, right2) →
        canBinaryOpAndIndexAlias op2 left2 right2 m idx1 n = false →
          ∃ base l1 l2, OffsetsApart idx1 n idx2 m base l1 l2 := by
      intro op2 left2 right2 h2 h
      obtain ⟨base, l2, l1, hapart⟩ := apart_of_binaryOpAndIndex hidx2 h2 h
      exact ⟨base, l1, l2, hapart.symm⟩
    split at h
    next h1 =>
      split_ifs at h
      · exact apart_of_binaryOpAndIndex hidx1 h1 h
      · split at h
        next h2 =>
          split_ifs at h
          · exact hsecond h2 h
          · exact apart_of_binaryOps hidx1 hidx2 h1 h2 h
        next => cases h
    next h2 =>
      split_ifs at h
      exact hsecond h2 h
    next => cases h

/-! ### Elements -/

/-- `n` elements from index `i` on lie in an array of the given length. -/
def InBounds (i : Int) (n : Nat) (length : Int) : Prop := 0 ≤ i ∧ i + n ≤ length

/-- The first access, moved up by `2 ^ 32`, does not start inside the second one in an array that has room
    for both. -/
def NotWrapped (l1 : Int) (n : Nat) (l2 : Int) (m : Nat) : Prop :=
  ¬(l1 + 2 ^ 32 < l2 + m ∧ l1 + 2 ^ 32 + n ≤ l2 + int32Max ∧ m ≤ int32Max)

/-- A value for which a wrapped access starts inside the other one, which starts at index zero. -/
theorem not_notWrapped {x : Int} (h1 : Int32 l1) (h2 : Int32 l2) (h : ¬NotWrapped l1 n l2 m) (hx : x = wrap 31 (-l2)) :
    wrap 31 (x + l2) = 0 ∧ wrap 31 (x + l1) = l1 + 2 ^ 32 - l2 ∧ InBounds (l1 + 2 ^ 32 - l2) n int32Max ∧
      InBounds 0 m int32Max ∧ l1 + 2 ^ 32 - l2 < m := by
  simp only [NotWrapped, not_not, InBounds, Signed, minInt, maxInt, wrap] at *
  subst hx
  refine ⟨?_, ?_, ⟨?_, ?_⟩, ⟨?_, ?_⟩, ?_⟩ <;> omega

/-- Offsets found apart, and no access that reaches the other one around `2 ^ 32`: no common element. -/
theorem disjoint_of_apart {x length e : Int} (h1 : Int32 l1) (h2 : Int32 l2) (hlen : length ≤ int32Max)
    (hb1 : InBounds (wrap 31 (x + l1)) n length) (hb2 : InBounds (wrap 31 (x + l2)) m length)
    (h : canIntegerRangesOverlap l1 (lastElement l1 n) l2 (lastElement l2 m) = false)
    (hw1 : NotWrapped l1 n l2 m) (hw2 : NotWrapped l2 m l1 n) :
    ¬((wrap 31 (x + l1) ≤ e ∧ e < wrap 31 (x + l1) + n) ∧ wrap 31 (x + l2) ≤ e ∧ e < wrap 31 (x + l2) + m) := by
  have hlast : ∀ {l : Int} {q : Nat}, Int32 l → (q : Int) ≤ int32Max → lastElement l q = l + (q - 1) := by
    intro l q hl hn
    refine wrap_of_signed ?_
    simp only [Signed, minInt, maxInt] at *
    omega
  have hn1 : (n : Int) ≤ int32Max := by
    simp only [InBounds] at hb1
    omega
  have hn2 : (m : Int) ≤ int32Max := by
    simp only [InBounds] at hb2
    omega
  rw [hlast h1 hn1, hlast h2 hn2, canIntegerRangesOverlap, decide_eq_false_iff_not] at h
  simp only [NotWrapped, InBounds, Signed, minInt, maxInt, wrap] at *
  omega

/-- Whatever the opaque values are, the two accesses touch no common element of an array that both are in. -/
def NoCommonElement (idx1 : HInstruction) (n : Nat) (idx2 : HInstruction) (m : Nat) : Prop :=
  ∀ ρ : Nat → Int, (∀ k, Int32 (ρ k)) → ∀ length : Int, length ≤ int32Max →
    InBounds (idx1.eval ρ) n length → InBounds (idx2.eval ρ) m length →
    ∀ e : Int, ¬((idx1.eval ρ ≤ e ∧ e < idx1.eval ρ + n) ∧ idx2.eval ρ ≤ e ∧ e < idx2.eval ρ + m)

theorem NoCommonElement.symm (h : NoCommonElement idx1 n idx2 m) : NoCommonElement idx2 m idx1 n :=
  fun ρ hρ length hlen hb2 hb1 e he => h ρ hρ length hlen hb1 hb2 e ⟨he.2, he.1⟩

theorem InBounds.int32 {i length : Int} (h : InBounds i n length) (hlen : length ≤ int32Max) : Int32 i := by
  simp only [InBounds, Signed, minInt, maxInt] at *
  omega

/-- Ranges of offsets that are apart share no element unless they wrap. -/
theorem noCommonElement_of_apart (h : OffsetsApart idx1 n idx2 m base l1 l2)
    (hw : base.isSome = true → NotWrapped l1 n l2 m ∧ NotWrapped l2 m l1 n) : NoCommonElement idx1 n idx2 m := by
  intro ρ _ length hlen hb1 hb2 e
  have heval1 := h.1.eval_eq (hb1.int32 hlen)
  have heval2 := h.2.1.eval_eq (hb2.int32 hlen)
  rw [heval1] at hb1 ⊢
  rw [heval2] at hb2 ⊢
  have hc1 := h.1.int32
  have hc2 := h.2.1.int32
  cases base with
  | some x => exact disjoint_of_apart hc1 hc2 hlen hb1 hb2 h.2.2 (hw rfl).1 (hw rfl).2
  | none =>
    -- Constant indexes in bounds are no negative numbers, so that nothing wraps.
    refine disjoint_of_apart hc1 hc2 hlen hb1 hb2 h.2.2 ?_ ?_ <;>
      · simp only [Option.elim_none, zero_add, wrap_of_signed hc1, wrap_of_signed hc2] at hb1 hb2
        simp only [NotWrapped, InBounds, Signed, minInt, maxInt] at *
        omega

/-- From an opaque value, a wrapped access reaches the other one. -/
theorem notWrapped_of_noCommonElement {k : Nat} (hn : 1 ≤ n) (h1 : Index idx1 (some (.value k)) l1)
    (h2 : Index idx2 (some (.value k)) l2) (h : NoCommonElement idx1 n idx2 m) : NotWrapped l1 n l2 m := by
  by_contra hw
  obtain ⟨he2, he1, hb1, hb2, hlt⟩ := not_notWrapped h1.int32 h2.int32 hw rfl
  have hindex : ∀ {idx l}, Index idx (some (.value k)) l →
      idx.eval (fun _ => wrap 31 (-l2)) = wrap 31 (wrap 31 (-l2) + l) := by
    intro idx l hidx
    refine hidx.eval_eq ?_
    cases hidx with
    | plain => exact wrap_signed 31 (-l2)
    | add | addLeft | sub => exact wrap_signed 31 _
  have hcommon := h (fun _ => wrap 31 (-l2)) (fun _ => wrap_signed 31 (-l2)) int32Max le_rfl
  rw [hindex h1, hindex h2, he1, he2] at hcommon
  exact hcommon hb1 hb2 (l1 + 2 ^ 32 - l2) ⟨⟨le_rfl, by omega⟩, hb1.1, by omega⟩

/-- Accesses that are found not to alias are constants or start from one instruction. They touch no common element if
    neither of their offsets is a neighbour of the other around `2 ^ 32`, and only then if they start from an
    opaque value, which may be any number. -/
theorem canArrayElementsAlias_sound_iff (hidx1 : IsInt32 idx1) (hidx2 : IsInt32 idx2) (hn1 : 1 ≤ n) (hn2 : 1 ≤ m)
    (h : canArrayElementsAlias idx1 n idx2 m = false) :
    ∃ base l1 l2, Index idx1 base l1 ∧ Index idx2 base l2 ∧
      ((base.isSome = true → NotWrapped l1 n l2 m ∧ NotWrapped l2 m l1 n) → NoCommonElement idx1 n idx2 m) ∧
      ∀ k, base = some (.value k) → NoCommonElement idx1 n idx2 m → NotWrapped l1 n l2 m ∧ NotWrapped l2 m l1 n := by
  obtain ⟨base, l1, l2, hapart⟩ := apart_of_not_alias hidx1 hidx2 h
  refine ⟨base, l1, l2, hapart.1, hapart.2.1, noCommonElement_of_apart hapart, ?_⟩
  rintro k rfl hnone
  exact ⟨notWrapped_of_noCommonElement hn1 hapart.1 hapart.2.1 hnone,
    notWrapped_of_noCommonElement hn2 hapart.2.1 hapart.1 hnone.symm⟩

/-- The index `2 * i + 1`. -/
abbrev oddIndex : HInstruction :=
  .binary 2 .add .int32 (.binary 1 .mul .int32 (.intConstant 2) (.value 0)) (.intConstant 1)

/-- `a[2 * i + 1]`, and a vector of four elements from `a[(2 * i + 1) + 1]` on. -/
theorem canArrayElementsAlias_sound_iff_vector :
    NoCommonElement oddIndex 1 (.binary 3 .add .int32 oddIndex (.intConstant 1)) 4 := by
  have hodd : IsInt32 oddIndex := ⟨rfl, by rintro c ⟨⟩, by rintro c ⟨⟩; decide⟩
  have hnext : IsInt32 (.binary 3 .add .int32 oddIndex (.intConstant 1)) :=
    ⟨rfl, by rintro c ⟨⟩, by rintro c ⟨⟩; decide⟩
  obtain ⟨base, l1, l2, h1, h2, hsound, -⟩ :=
    canArrayElementsAlias_sound_iff hodd hnext (n := 1) (m := 4) (by decide) (by decide) (by decide)
  refine hsound fun _ => ?_
  -- The common instruction is the first index itself.
  cases h2 with
  | plain => cases h1
  | add =>
    cases h1
    simp [NotWrapped]

/-- Offsets `INT_MAX` and `INT_MIN` are found apart for a vector of two elements and a single one. From the
    value `-INT_MAX` they are the elements 0 and 1, and the element 1. -/
theorem canArrayElementsAlias_neighbours :
    canArrayElementsAlias (.binary 1 .add .int32 (.value 0) (.intConstant int32Max)) 2
        (.binary 2 .add .int32 (.value 0) (.intConstant int32Min)) 1 = false ∧
      HInstruction.eval (fun _ => -int32Max) (.binary 1 .add .int32 (.value 0) (.intConstant int32Max)) = 0 ∧
      HInstruction.eval (fun _ => -int32Max) (.binary 2 .add .int32 (.value 0) (.intConstant int32Min)) = 1 := by
  decide

end Art.Lsa
