import Art.Theorems.MagicNumber
import Mathlib.Algebra.Order.Ring.Int
import Mathlib.Tactic.NormNum

/-! The instructions that replace a division by a constant compute the truncating quotient and the remainder. -/

namespace Art.DivRem
open Lib
open BitVec (eq_of_toNat_eq le_toInt ofInt ofInt_add ofInt_mul ofInt_toInt setWidth_eq signExtend slt slt_iff_toInt_lt
  toInt_lt toNat_ofInt)

/-! ### The quotient of the product -/

namespace IsMagic

variable {w p M : ℕ} {d : ℤ} (hm : IsMagic w d p M) (h : IsDivisor w d)

include hm h

theorem pos : 0 < M := by
  rw [hm.eq_div h]
  exact Nat.succ_pos _

theorem div_eq {x : ℕ} (hx : x < ncOf w d + d.natAbs) : x * M / 2 ^ p = x / d.natAbs := by
  have hD : 0 < d.natAbs := Nat.lt_of_lt_of_le (by decide) h.three_le
  exact mul_div_eq hm.mul_eq hD (excess_lt hm.exact h.nc_mod h.le_nc hD hx)

/-- The product is rounded down across zero, also for the most negative dividend. -/
theorem neg_div_eq {x : ℕ} (hpos : 0 < x) (hx : x ≤ 2 ^ (w - 1)) :
    -((x * M : ℕ) : ℤ) / ((2 ^ p : ℕ) : ℤ) = -((x / d.natAbs + 1 : ℕ) : ℤ) := by
  have hD : 0 < d.natAbs := Nat.lt_of_lt_of_le (by decide) h.three_le
  have hadd := h.lt_nc_add
  have hple := hm.le
  have hlower := lt_mul hm.mul_eq (h.excess_pos p) hpos
  have hupper : x * M ≤ (x / d.natAbs + 1) * 2 ^ p := by
    refine mul_le hm.mul_eq hD ?_
    rcases Nat.lt_or_eq_of_le hx with hlt | rfl
    · exact (excess_lt hm.exact h.nc_mod h.le_nc hD (by omega)).le
    have hpow : 2 ^ p = 2 ^ (p - (w - 1)) * 2 ^ (w - 1) := by
      rw [← Nat.pow_add]
      congr 1
      omega
    have hmul := hm.mul_eq
    rw [hpow] at hmul
    rw [hpow]
    exact excess_le hmul (h.excess_lt p).le hD (Nat.two_pow_pos _)
  have hP : (0 : ℤ) < ((2 ^ p : ℕ) : ℤ) := by exact_mod_cast Nat.two_pow_pos p
  refine (Int.ediv_eq_iff_of_pos hP).mpr ⟨?_, ?_⟩
  · have hcast : ((x * M : ℕ) : ℤ) ≤ (((x / d.natAbs + 1) * 2 ^ p : ℕ) : ℤ) := by exact_mod_cast hupper
    push_cast at hcast ⊢
    linarith
  · have hcast : ((x / d.natAbs * 2 ^ p : ℕ) : ℤ) < ((x * M : ℕ) : ℤ) := by exact_mod_cast hlower
    push_cast at hcast ⊢
    linarith

/-- The product with the magic number, shifted and corrected by the sign, is the quotient. -/
theorem quotient_eq {n : ℤ} (hge : -2 ^ (w - 1) ≤ n) (hlt : n < 2 ^ (w - 1)) :
    n * signedMagic d M / 2 ^ p + (if n * signedMagic d M / 2 ^ p < 0 then 1 else 0) = n.tdiv d := by
  have hadd := h.lt_nc_add
  have h3 := h.three_le
  have habs : n.natAbs ≤ 2 ^ (w - 1) := by
    zify
    rw [abs_le]
    exact ⟨hge, hlt.le⟩
  have hP : ((2 ^ p : ℕ) : ℤ) = 2 ^ p := by push_cast; rfl
  have hsame : ∀ x : ℕ, x < ncOf w d + d.natAbs → (x * M : ℤ) / 2 ^ p +
      (if (x * M : ℤ) / 2 ^ p < 0 then 1 else 0) = (x / d.natAbs : ℕ) := by
    intro x hx
    have hdiv : (x * M : ℤ) / 2 ^ p = (x / d.natAbs : ℕ) := by
      rw [← hm.div_eq h hx, ← hP]
      rfl
    rw [hdiv, if_neg (Int.natCast_nonneg _).not_gt, add_zero]
  have hother : ∀ x : ℕ, 0 < x → x ≤ 2 ^ (w - 1) → -(x * M : ℤ) / 2 ^ p +
      (if -(x * M : ℤ) / 2 ^ p < 0 then 1 else 0) = -(x / d.natAbs : ℕ) := by
    intro x hpos hx
    have hdiv : -(x * M : ℤ) / 2 ^ p = -((x / d.natAbs + 1 : ℕ) : ℤ) := by
      rw [← hm.neg_div_eq h hpos hx, ← hP]
      rfl
    rw [hdiv, if_pos (Int.neg_neg_of_pos (Int.natCast_pos.mpr (Nat.succ_pos _)))]
    push_cast
    ring
  unfold signedMagic
  rcases lt_trichotomy 0 d with hd | hd | hd
  · rw [if_pos hd]
    obtain ⟨D, rfl⟩ : ∃ D : ℕ, d = D := ⟨d.toNat, by omega⟩
    rcases le_or_gt 0 n with hn | hn
    · obtain ⟨x, rfl⟩ : ∃ x : ℕ, n = x := ⟨n.toNat, by omega⟩
      have hx : x < 2 ^ (w - 1) := by exact_mod_cast hlt
      rw [hsame x (by omega), Int.natAbs_natCast, Int.ofNat_tdiv]
    · obtain ⟨x, rfl⟩ : ∃ x : ℕ, n = -x := ⟨n.natAbs, by omega⟩
      rw [neg_mul, hother x (by omega) (by omega), Int.natAbs_natCast, Int.neg_tdiv, Int.ofNat_tdiv]
  · omega
  · rw [if_neg hd.not_gt]
    obtain ⟨D, rfl⟩ : ∃ D : ℕ, d = -D := ⟨d.natAbs, by omega⟩
    rcases le_or_gt n 0 with hn | hn
    · obtain ⟨x, rfl⟩ : ∃ x : ℕ, n = -x := ⟨n.natAbs, by omega⟩
      rw [neg_mul_neg, hsame x (by rw [if_pos hd] at hadd; omega), Int.natAbs_neg, Int.natAbs_natCast, Int.neg_tdiv,
        Int.tdiv_neg, neg_neg, Int.ofNat_tdiv]
    · obtain ⟨x, rfl⟩ : ∃ x : ℕ, n = x := ⟨n.toNat, by omega⟩
      rw [mul_neg, hother x (by omega) (by omega), Int.natAbs_neg, Int.natAbs_natCast, Int.tdiv_neg, Int.ofNat_tdiv]

theorem quotient_eq_of_nonneg (hpos : 0 < d) {n : ℤ} (hn : 0 ≤ n) (hlt : n < 2 ^ (w - 1)) :
    0 ≤ n * signedMagic d M ∧ n * signedMagic d M / 2 ^ p = n.tdiv d := by
  have hprod : 0 ≤ n * signedMagic d M := by
    rw [signedMagic, if_pos hpos]
    exact mul_nonneg hn (Int.natCast_nonneg M)
  have hdiv : 0 ≤ n * signedMagic d M / 2 ^ p := Int.ediv_nonneg hprod (by positivity)
  have hquotient := hm.quotient_eq h (le_trans (by simp) hn) hlt
  rw [if_neg hdiv.not_gt, add_zero] at hquotient
  exact ⟨hprod, hquotient⟩

theorem lt_of_eq (hw : 3 ≤ w) (hp : p = w) : M < 2 ^ (w - 1) := by
  have hle : 2 ^ p / d.natAbs ≤ 2 ^ w / 3 := hp ▸ Nat.div_le_div_left h.three_le (by decide)
  have hpow : 2 ^ w = 2 * 2 ^ (w - 1) := by
    rw [← Nat.pow_succ', Nat.succ_eq_add_one, Nat.sub_add_cancel (by omega)]
  have hfour : 2 ^ 2 ≤ 2 ^ (w - 1) := Nat.pow_le_pow_right (by decide) (by omega)
  rw [hm.eq_div h]
  omega

theorem signedMagic_lt : -2 ^ w < signedMagic d M ∧ signedMagic d M < 2 ^ w := by
  have hlt := hm.lt_two_pow h
  have hcast : (M : ℤ) < 2 ^ w := by exact_mod_cast hlt
  unfold signedMagic
  split <;> constructor <;> omega

theorem high_range {n : ℤ} (hge : -2 ^ (w - 1) ≤ n) (hlt : n < 2 ^ (w - 1)) :
    -2 ^ (w - 1) ≤ n * signedMagic d M / 2 ^ w ∧ n * signedMagic d M / 2 ^ w < 2 ^ (w - 1) := by
  obtain ⟨hK, hK'⟩ := hm.signedMagic_lt h
  have hP : (0 : ℤ) < 2 ^ w := by positivity
  have hN : (0 : ℤ) < 2 ^ (w - 1) := by positivity
  constructor
  · rw [Int.le_ediv_iff_mul_le hP]
    nlinarith
  · rw [Int.ediv_lt_iff_lt_mul hP]
    nlinarith

end IsMagic

/-! ### Words -/

section words

variable {w : ℕ}

theorem toInt_ofInt_of_range (hw : 2 ≤ w) {x : ℤ} (hge : -2 ^ (w - 1) ≤ x) (hlt : x < 2 ^ (w - 1)) :
    (ofInt w x).toInt = x := BitVec.toInt_ofInt_eq_self (by omega) hge hlt

theorem ofInt_sub (a b : ℤ) : ofInt w (a - b) = ofInt w a - ofInt w b := by
  rw [sub_eq_add_neg, ofInt_add, BitVec.ofInt_neg, BitVec.sub_eq_add_neg]

theorem ofInt_two_pow : ofInt w (2 ^ w) = 0#w := by
  refine eq_of_toNat_eq ?_
  simp [toNat_ofInt]

theorem two_pow_eq (hw : 2 ≤ w) : (2 : ℤ) ^ w = 2 * 2 ^ (w - 1) := by
  rw [← pow_succ', Nat.sub_add_cancel (by omega)]

theorem ediv_neg_iff {a b : ℤ} (hb : 0 < b) : a / b < 0 ↔ a < 0 := by rw [Int.ediv_lt_iff_lt_mul hb, zero_mul]

theorem toInt_sar (x : BitVec w) {shift : ℕ} (hlt : shift < w) : (sar x shift).toInt = x.toInt / 2 ^ shift := by
  rw [sar, Nat.mod_eq_of_lt hlt, BitVec.toInt_sshiftRight, Int.shiftRight_eq_div_pow]
  rfl

theorem shr_eq_sar {x : BitVec w} (hx : 0 ≤ x.toInt) (shift : ℕ) : shr x shift = sar x shift := by
  have hmsb : x.msb = false := by
    rw [BitVec.msb_eq_toInt]
    exact decide_eq_false hx.not_gt
  rw [shr, sar, BitVec.sshiftRight_eq_of_msb_false hmsb]

theorem sar_zero (x : BitVec w) : sar x 0 = x := by simp [sar]

theorem ite_sar (x : BitVec w) (shift : ℕ) : (if shift ≠ 0 then sar x shift else x) = sar x shift := by
  split
  · rfl
  · rename_i hzero
    rw [not_not.mp hzero, sar_zero]

theorem shr_eq (x : BitVec w) (hw : 2 ≤ w) : shr x (w - 1) = ofInt w (if x.toInt < 0 then 1 else 0) := by
  have hlt := x.isLt
  have hcond := BitVec.toInt_eq_toNat_cond x
  have hpow : 2 ^ w = 2 * 2 ^ (w - 1) := by rw [← Nat.pow_succ', Nat.succ_eq_add_one, Nat.sub_add_cancel (by omega)]
  have hone : 1 < 2 ^ w := Nat.one_lt_two_pow (by omega)
  have hdiv : x.toNat / 2 ^ (w - 1) = if x.toInt < 0 then 1 else 0 := by
    split at hcond
    · rw [if_neg (by omega), Nat.div_eq_of_lt (by omega)]
    · rw [if_pos (by omega)]
      exact Nat.div_eq_of_lt_le (by omega) (by omega)
  refine eq_of_toNat_eq ?_
  rw [shr, Nat.mod_eq_of_lt (by omega), BitVec.toNat_ushiftRight, Nat.shiftRight_eq_div_pow, hdiv]
  split
  · rw [show (1 : ℤ) = ((1 : ℕ) : ℤ) from rfl, BitVec.ofInt_natCast, BitVec.toNat_ofNat, Nat.mod_eq_of_lt hone]
  · simp

theorem toInt_add_sign (x : BitVec w) (hw : 2 ≤ w) :
    (x + ofInt w (if x.toInt < 0 then 1 else 0)).toInt = x.toInt + if x.toInt < 0 then 1 else 0 := by
  have hge := le_toInt x
  have hlt := toInt_lt (x := x)
  have hx : x = ofInt w x.toInt := ofInt_toInt.symm
  calc (x + ofInt w (if x.toInt < 0 then 1 else 0)).toInt
      = (ofInt w (x.toInt + if x.toInt < 0 then 1 else 0)).toInt := by rw [ofInt_add, ← hx]
    _ = x.toInt + if x.toInt < 0 then 1 else 0 :=
      toInt_ofInt_of_range hw (by split <;> omega) (by split <;> omega)

theorem generateIncrementNegativeByOne_toInt (x : BitVec w) (hw : 2 ≤ w) (useCondInc : Bool) {negative : Bool}
    (hneg : negative = true ↔ x.toInt < 0) :
    (generateIncrementNegativeByOne x useCondInc negative).toInt = x.toInt + if x.toInt < 0 then 1 else 0 := by
  rw [← toInt_add_sign x hw]
  unfold generateIncrementNegativeByOne
  cases useCondInc with
  | true =>
    simp only [if_true, hneg]
    split <;> simp
  | false => rw [if_neg (by decide), shr_eq x hw]

theorem setWidth_shiftLeft (n : BitVec 32) : n.setWidth 64 <<< 32 = ofInt 64 (n.toInt * 2 ^ 32) := by
  have hcond := BitVec.toInt_eq_toNat_cond n
  refine eq_of_toNat_eq ?_
  rw [BitVec.toNat_shiftLeft, BitVec.toNat_setWidth, toNat_ofInt, Nat.shiftLeft_eq]
  split at hcond <;> omega

end words

/-! ### The corrected product -/

/-- `magic` and `shift` are those of the divisor `imm` at width `w`. -/
structure Constant (w : ℕ) (imm magic : BitVec 64) (shift p M : ℕ) : Prop where
  two_le : 2 ≤ w
  le : w ≤ 64
  divisor : IsDivisor w imm.toInt
  isMagic : IsMagic w imm.toInt p M
  magic_eq : magic = (ofInt w (signedMagic imm.toInt M)).signExtend 64
  shift_eq : shift = p - w

namespace Constant

variable {w shift p M : ℕ} {imm magic : BitVec 64} (hc : Constant w imm magic shift p M)

include hc

theorem shift_lt : shift < w := by
  have hple := hc.isMagic.le
  have hplt := hc.isMagic.lt
  have heq := hc.shift_eq
  omega

theorem setWidth_magic : magic.setWidth w = ofInt w (signedMagic imm.toInt M) := by
  rw [hc.magic_eq, signExtend, setWidth_ofInt hc.le, ofInt_toInt]

theorem toInt_magic : magic.toInt = (ofInt w (signedMagic imm.toInt M)).toInt := by
  rw [hc.magic_eq, BitVec.toInt_signExtend_of_le hc.le]

theorem setWidth_imm : imm.setWidth w = ofInt w imm.toInt := by
  conv_lhs => rw [← ofInt_toInt (x := imm)]
  exact setWidth_ofInt hc.le _

theorem toInt_setWidth_imm : (imm.setWidth w).toInt = imm.toInt := by
  rw [hc.setWidth_imm]
  exact toInt_ofInt_of_range hc.two_le hc.divisor.ge hc.divisor.lt

/-- The magic number is the multiplier, or lies one power of two away from it on the other side of zero. -/
theorem magic_cases :
    (magic.toInt = signedMagic imm.toInt M ∧ (needToAddDividend magic imm = false) ∧
      needToSubDividend magic imm = false) ∨
    (magic.toInt = signedMagic imm.toInt M - 2 ^ w ∧ needToAddDividend magic imm = true) ∨
    (magic.toInt = signedMagic imm.toInt M + 2 ^ w ∧ needToAddDividend magic imm = false ∧
      needToSubDividend magic imm = true) := by
  have hpow := two_pow_eq hc.two_le
  have hpos := hc.isMagic.pos hc.divisor
  obtain ⟨hgt, hlt⟩ := hc.isMagic.signedMagic_lt hc.divisor
  have hadd : needToAddDividend magic imm = true ↔ 0 < imm.toInt ∧ magic.toInt < 0 := by
    simp [needToAddDividend, slt_iff_toInt_lt]
  have hsub : needToSubDividend magic imm = true ↔ imm.toInt < 0 ∧ 0 < magic.toInt := by
    simp [needToSubDividend, slt_iff_toInt_lt]
  have h3 := hc.divisor.three_le
  have hsign : 0 < imm.toInt ∧ 0 < signedMagic imm.toInt M ∨ imm.toInt < 0 ∧ signedMagic imm.toInt M < 0 := by
    unfold signedMagic
    split <;> omega
  have hmagic := hc.toInt_magic
  rcases lt_or_ge (signedMagic imm.toInt M) (-2 ^ (w - 1)) with hlow | hlow
  · have heq : magic.toInt = signedMagic imm.toInt M + 2 ^ w := by
      rw [← toInt_ofInt_of_range hc.two_le (x := signedMagic imm.toInt M + 2 ^ w) (by omega) (by omega),
        ofInt_add, ofInt_two_pow, BitVec.add_zero, hmagic]
    exact .inr (.inr ⟨heq, Bool.eq_false_iff.mpr fun h => by have := hadd.mp h; omega, hsub.mpr (by omega)⟩)
  rcases lt_or_ge (signedMagic imm.toInt M) (2 ^ (w - 1)) with hhigh | hhigh
  · have heq : magic.toInt = signedMagic imm.toInt M := by
      rw [hmagic, toInt_ofInt_of_range hc.two_le hlow hhigh]
    exact .inl ⟨heq, Bool.eq_false_iff.mpr fun h => by have := hadd.mp h; omega,
      Bool.eq_false_iff.mpr fun h => by have := hsub.mp h; omega⟩
  · have heq : magic.toInt = signedMagic imm.toInt M - 2 ^ w := by
      rw [← toInt_ofInt_of_range hc.two_le (x := signedMagic imm.toInt M - 2 ^ w) (by omega) (by omega),
        ofInt_sub, ofInt_two_pow, BitVec.sub_zero, hmagic]
    exact .inr (.inl ⟨heq, hadd.mpr (by omega)⟩)

/-- The high half, after adding or subtracting the dividend, is that of the exact product. -/
theorem corrected_eq (n : BitVec w) :
    (if needToAddDividend magic imm then mulHigh (magic.setWidth w) n + n
      else if needToSubDividend magic imm then mulHigh (magic.setWidth w) n - n
      else mulHigh (magic.setWidth w) n) = ofInt w (n.toInt * signedMagic imm.toInt M / 2 ^ w) := by
  have hn : n = ofInt w n.toInt := ofInt_toInt.symm
  have hP : (2 : ℤ) ^ w ≠ 0 := by positivity
  have hhigh : mulHigh (magic.setWidth w) n = ofInt w (magic.toInt * n.toInt / 2 ^ w) := by
    rw [mulHigh, hc.setWidth_magic, ← hc.toInt_magic]
  rw [hhigh]
  rcases hc.magic_cases with ⟨heq, hadd, hsub⟩ | ⟨heq, hadd⟩ | ⟨heq, hadd, hsub⟩
  · rw [hadd, hsub, heq, mul_comm]
    rfl
  · have hdiv : (signedMagic imm.toInt M - 2 ^ w) * n.toInt / 2 ^ w + n.toInt =
        n.toInt * signedMagic imm.toInt M / 2 ^ w := by
      rw [← Int.add_mul_ediv_right _ _ hP]
      congr 1
      ring
    rw [hadd, if_pos rfl, heq, ← hdiv, ofInt_add, ← hn]
  · have hdiv : (signedMagic imm.toInt M + 2 ^ w) * n.toInt / 2 ^ w - n.toInt =
        n.toInt * signedMagic imm.toInt M / 2 ^ w := by
      rw [← Int.sub_mul_ediv_right _ _ hP]
      congr 1
      ring
    rw [hadd, hsub, if_neg (by decide), if_pos rfl, heq, ← hdiv, ofInt_sub, ← hn]

theorem toInt_corrected (n : BitVec w) :
    (ofInt w (n.toInt * signedMagic imm.toInt M / 2 ^ w)).toInt = n.toInt * signedMagic imm.toInt M / 2 ^ w := by
  obtain ⟨hge, hlt⟩ := hc.isMagic.high_range hc.divisor (le_toInt n) toInt_lt
  exact toInt_ofInt_of_range hc.two_le hge hlt

theorem pow_mul_pow : (2 : ℤ) ^ w * 2 ^ shift = 2 ^ p := by
  have hle := hc.isMagic.le
  rw [← pow_add, hc.shift_eq]
  congr 1
  omega

theorem toInt_shifted (n : BitVec w) :
    (sar (ofInt w (n.toInt * signedMagic imm.toInt M / 2 ^ w)) shift).toInt =
      n.toInt * signedMagic imm.toInt M / 2 ^ p := by
  rw [toInt_sar _ hc.shift_lt, hc.toInt_corrected, Int.ediv_ediv_of_nonneg (by positivity), hc.pow_mul_pow]

/-- The generated code gives the remainder from the right quotient. -/
theorem toInt_resultOf {n q divisor : BitVec w} (hdivisor : divisor.toInt = imm.toInt)
    (hq : q.toInt = n.toInt.tdiv imm.toInt) (isRem : Bool) :
    (resultOf isRem n q divisor).toInt = if isRem then n.toInt.tmod imm.toInt else n.toInt.tdiv imm.toInt := by
  cases isRem with
  | false => exact hq
  | true =>
    have hmod : n.toInt.tmod imm.toInt = n.toInt - n.toInt.tdiv imm.toInt * imm.toInt := by
      rw [Int.tmod_def, mul_comm]
    have hres : n - q * divisor = ofInt w (n.toInt.tmod imm.toInt) := by
      rw [hmod, ofInt_sub, ofInt_mul, ← hq, ← hdivisor, ofInt_toInt, ofInt_toInt, ofInt_toInt]
    have habs : (n.toInt.tmod imm.toInt).natAbs < imm.toInt.natAbs := by
      rw [Int.natAbs_tmod]
      exact Nat.mod_lt _ (Nat.lt_of_lt_of_le (by decide) hc.divisor.three_le)
    have hlt : (imm.toInt.natAbs : ℤ) < 2 ^ (w - 1) := by exact_mod_cast hc.divisor.natAbs_lt
    simp only [resultOf, if_true, hres]
    exact toInt_ofInt_of_range hc.two_le (by omega) (by omega)

/-! ### x86-64 -/

theorem x86GenerateDivRemWithAnyConstant_toInt (n : BitVec w) (isRem : Bool) :
    (x86GenerateDivRemWithAnyConstant imm magic shift isRem n).toInt =
      if isRem then n.toInt.tmod imm.toInt else n.toInt.tdiv imm.toInt := by
  unfold x86GenerateDivRemWithAnyConstant
  dsimp only
  rw [hc.corrected_eq, ite_sar, shr_eq _ hc.two_le, BitVec.add_comm]
  refine hc.toInt_resultOf hc.toInt_setWidth_imm ?_ isRem
  rw [toInt_add_sign _ hc.two_le, hc.toInt_shifted]
  exact hc.isMagic.quotient_eq hc.divisor (le_toInt n) toInt_lt

end Constant

/-! ### ARM64 -/

namespace Constant

section int64

variable {shift p M : ℕ} {imm magic : BitVec 64} (hc : Constant 64 imm magic shift p M)

include hc

theorem generateInt64DivRemWithAnyConstant_toInt (n : BitVec 64) (isRem : Bool) :
    (generateInt64DivRemWithAnyConstant imm magic shift isRem n).toInt =
      if isRem then n.toInt.tmod imm.toInt else n.toInt.tdiv imm.toInt := by
  have hcomm : mulHigh n magic = mulHigh (magic.setWidth 64) n := by
    rw [mulHigh, mulHigh, mul_comm, setWidth_eq]
  have hP : (0 : ℤ) < 2 ^ p := by positivity
  unfold generateInt64DivRemWithAnyConstant
  dsimp only
  rw [hcomm, hc.corrected_eq, ite_sar]
  refine hc.toInt_resultOf rfl ?_ isRem
  rw [generateIncrementNegativeByOne_toInt _ hc.two_le, hc.toInt_shifted]
  · exact hc.isMagic.quotient_eq hc.divisor (le_toInt n) toInt_lt
  · rw [hc.toInt_shifted, slt_iff_toInt_lt, hc.toInt_corrected, ediv_neg_iff hP]
    exact ediv_neg_iff (by positivity)

/-- The shortcut makes the corrections of the general sequence that apply to a positive divisor. -/
theorem generateInt64UnsignedDivRemWithAnyPositiveConstant_toInt (hpos : 0 < imm.toInt) {n : BitVec 64}
    (hn : 0 ≤ n.toInt) (isRem : Bool) :
    (generateInt64UnsignedDivRemWithAnyPositiveConstant imm magic shift isRem n).toInt =
      if isRem then n.toInt.tmod imm.toInt else n.toInt.tdiv imm.toInt := by
  have hcomm : mulHigh n magic = mulHigh (magic.setWidth 64) n := by
    rw [mulHigh, mulHigh, mul_comm, setWidth_eq]
  have hadd : needToAddDividend magic imm = magic.slt 0 := by
    rw [needToAddDividend, show slt 0 imm = true from slt_iff_toInt_lt.mpr hpos, Bool.true_and]
  have hsub : needToSubDividend magic imm = false := by
    have hslt : imm.slt 0 = false := Bool.eq_false_iff.mpr fun h => hpos.not_gt (slt_iff_toInt_lt.mp h)
    rw [needToSubDividend, hslt, Bool.false_and]
  have hcorrected := hc.corrected_eq n
  rw [hadd, hsub, if_neg (c := false = true) (by decide), ← hcomm] at hcorrected
  obtain ⟨hprod, hquotient⟩ := hc.isMagic.quotient_eq_of_nonneg hc.divisor hpos hn toInt_lt
  have hnonneg : 0 ≤ (ofInt 64 (n.toInt * signedMagic imm.toInt M / 2 ^ 64)).toInt := by
    rw [hc.toInt_corrected]
    exact Int.ediv_nonneg hprod (by positivity)
  have hshifted := hc.toInt_shifted n
  unfold generateInt64UnsignedDivRemWithAnyPositiveConstant
  dsimp only
  refine hc.toInt_resultOf rfl ?_ isRem
  split
  · rename_i hfirst
    obtain ⟨hmagic, rfl⟩ := hfirst
    have hslt : magic.slt 0 = false :=
      Bool.eq_false_iff.mpr fun h => (slt_iff_toInt_lt.mp hmagic).not_gt (slt_iff_toInt_lt.mp h)
    rw [hslt, if_neg (by decide)] at hcorrected
    rw [hcorrected, ← hquotient, ← hshifted, sar_zero]
  · rw [hcorrected, shr_eq_sar hnonneg, hshifted, hquotient]

end int64

section int32

variable {shift p M : ℕ} {imm magic : BitVec 64} (hc : Constant 32 imm magic shift p M)

include hc

theorem int32Product_eq (n : BitVec 32) : int32Product imm magic n = ofInt 64 (n.toInt * signedMagic imm.toInt M) := by
  have hprod : n.signExtend 64 * (magic.setWidth 32).signExtend 64 = ofInt 64 (n.toInt * magic.toInt) := by
    rw [hc.setWidth_magic, signExtend, signExtend, ← hc.toInt_magic, ofInt_mul]
  unfold int32Product
  rw [hprod]
  rcases hc.magic_cases with ⟨heq, hadd, hsub⟩ | ⟨heq, hadd⟩ | ⟨heq, hadd, hsub⟩
  · rw [hadd, hsub, heq]
    rfl
  · rw [hadd, if_pos rfl, setWidth_shiftLeft, ← ofInt_add, heq]
    congr 1
    ring
  · rw [hadd, hsub, if_neg (by decide), if_pos rfl, setWidth_shiftLeft, ← ofInt_sub, heq]
    congr 1
    ring

theorem int32Product_toInt (n : BitVec 32) : (int32Product imm magic n).toInt = n.toInt * signedMagic imm.toInt M := by
  have hge := le_toInt n
  have hlt := toInt_lt (x := n)
  obtain ⟨hK, hK'⟩ := hc.isMagic.signedMagic_lt hc.divisor
  rw [hc.int32Product_eq]
  refine toInt_ofInt_of_range (by decide) ?_ ?_ <;> norm_num at * <;> nlinarith

theorem add_shift_eq : 32 + shift = p := by
  have hle := hc.isMagic.le
  have heq := hc.shift_eq
  omega

theorem p_lt : p < 63 := hc.isMagic.lt

theorem product_range (n : BitVec 32) :
    -2 ^ (32 - 1) ≤ n.toInt * signedMagic imm.toInt M / 2 ^ p ∧
      n.toInt * signedMagic imm.toInt M / 2 ^ p < 2 ^ (32 - 1) := by
  have hshifted := hc.toInt_shifted n
  rw [← hshifted]
  exact ⟨le_toInt _, toInt_lt⟩

theorem toInt_sar_product (n : BitVec 32) :
    ((sar (int32Product imm magic n) (32 + shift)).setWidth 32).toInt = n.toInt * signedMagic imm.toInt M / 2 ^ p := by
  have hp := hc.p_lt
  obtain ⟨hge, hlt⟩ := hc.product_range n
  have hsar : (sar (int32Product imm magic n) (32 + shift)).toInt = n.toInt * signedMagic imm.toInt M / 2 ^ p := by
    rw [hc.add_shift_eq, toInt_sar _ (by omega), hc.int32Product_toInt]
  rw [← ofInt_toInt (x := sar (int32Product imm magic n) (32 + shift)), hsar, setWidth_ofInt (by decide)]
  exact toInt_ofInt_of_range (by decide) hge hlt

theorem generateInt32DivRemWithAnyConstant_toInt (n : BitVec 32) (isRem : Bool) :
    (generateInt32DivRemWithAnyConstant imm magic shift isRem false n).toInt =
      if isRem then n.toInt.tmod imm.toInt else n.toInt.tdiv imm.toInt := by
  have hP : (0 : ℤ) < 2 ^ p := by positivity
  unfold generateInt32DivRemWithAnyConstant
  dsimp only
  rw [Bool.and_false, if_neg (by decide)]
  refine hc.toInt_resultOf hc.toInt_setWidth_imm ?_ isRem
  rw [generateIncrementNegativeByOne_toInt _ (by decide), hc.toInt_sar_product]
  · exact hc.isMagic.quotient_eq hc.divisor (le_toInt n) toInt_lt
  · rw [hc.toInt_sar_product, slt_iff_toInt_lt, hc.int32Product_toInt, ediv_neg_iff hP]
    rfl

theorem generateInt32DivRemWithAnyConstant_toInt_of_nonneg (hpos : 0 < imm.toInt) {n : BitVec 32}
    (hn : 0 ≤ n.toInt) (isRem : Bool) :
    (generateInt32DivRemWithAnyConstant imm magic shift isRem true n).toInt =
      if isRem then n.toInt.tmod imm.toInt else n.toInt.tdiv imm.toInt := by
  obtain ⟨hprod, hquotient⟩ := hc.isMagic.quotient_eq_of_nonneg hc.divisor hpos hn toInt_lt
  have hslt : slt 0 imm = true := slt_iff_toInt_lt.mpr hpos
  unfold generateInt32DivRemWithAnyConstant
  dsimp only
  rw [hslt, Bool.and_self, if_pos rfl, shr_eq_sar (by rwa [hc.int32Product_toInt])]
  refine hc.toInt_resultOf hc.toInt_setWidth_imm ?_ isRem
  rw [hc.toInt_sar_product, hquotient]

end int32

section shift

variable {w shift p M : ℕ} {imm magic : BitVec 64} (hc : Constant w imm magic shift p M)

include hc

theorem shift_ne_zero (hw : 3 ≤ w) (hpos : 0 < imm.toInt) (hneg : magic.toInt < 0) : shift ≠ 0 := by
  intro hzero
  have hple := hc.isMagic.le
  have hp : p = w := by
    have heq := hc.shift_eq
    omega
  have hlt := hc.isMagic.lt_of_eq hc.divisor hw hp
  have hK : signedMagic imm.toInt M = M := if_pos hpos
  have hM : (M : ℤ) < 2 ^ (w - 1) := by exact_mod_cast hlt
  have hN : (0 : ℤ) < 2 ^ (w - 1) := by positivity
  have hmagic := hc.toInt_magic
  rw [hK, toInt_ofInt_of_range hc.two_le (by omega) hM] at hmagic
  omega

end shift

end Constant

/-! ### Every divisor -/

theorem exists_constant {imm : BitVec 64} {isLong : Bool} (h : IsDivisor (width isLong) imm.toInt) :
    ∃ magic shift p M, Constant (width isLong) imm magic shift p M ∧ ∀ fuel, width isLong ≤ fuel →
      calculateMagicAndShiftForDivRem imm isLong fuel = some (magic, shift) := by
  obtain ⟨hw, hw'⟩ := width_pos isLong
  obtain ⟨p, M, hm, hcalc⟩ := calculateMagicAndShiftForDivRem_eq h
  exact ⟨_, _, p, M, ⟨hw, hw', h, hm, rfl, rfl⟩, hcalc⟩

/-- The loop ends with the exact multiplier, and the sequences of both code generators divide every dividend. -/
theorem generateDivRemWithAnyConstant_toInt {imm : BitVec 64} {isLong : Bool}
    (h : IsDivisor (width isLong) imm.toInt) :
    ∃ magic shift p M, IsMagic (width isLong) imm.toInt p M ∧
      magic = (ofInt (width isLong) (signedMagic imm.toInt M)).signExtend 64 ∧ shift = p - width isLong ∧
      (∀ fuel, width isLong ≤ fuel → calculateMagicAndShiftForDivRem imm isLong fuel = some (magic, shift)) ∧
      ∀ (isRem : Bool) (n : BitVec (width isLong)),
        (x86GenerateDivRemWithAnyConstant imm magic shift isRem n).toInt =
            (if isRem then n.toInt.tmod imm.toInt else n.toInt.tdiv imm.toInt) ∧
          (arm64GenerateDivRemWithAnyConstant imm magic shift isRem false isLong n).toInt =
            (if isRem then n.toInt.tmod imm.toInt else n.toInt.tdiv imm.toInt) := by
  obtain ⟨magic, shift, p, M, hc, hcalc⟩ := exists_constant h
  refine ⟨magic, shift, p, M, hc.isMagic, hc.magic_eq, hc.shift_eq, hcalc, fun isRem n =>
    ⟨hc.x86GenerateDivRemWithAnyConstant_toInt n isRem, ?_⟩⟩
  cases isLong with
  | true =>
    simp only [arm64GenerateDivRemWithAnyConstant, Bool.and_false, Bool.false_eq_true]
    exact hc.generateInt64DivRemWithAnyConstant_toInt n isRem
  | false => exact hc.generateInt32DivRemWithAnyConstant_toInt n isRem

theorem isDivisor_seven (isLong : Bool) : IsDivisor (width isLong) (7 : BitVec 64).toInt := by
  refine ⟨by decide, fun k hk => ?_, by cases isLong <;> decide, by cases isLong <;> decide⟩
  rcases Nat.lt_or_ge k 3 with hlt | hge
  · obtain rfl | rfl | rfl : k = 0 ∨ k = 1 ∨ k = 2 := by omega
    all_goals exact absurd hk (by decide)
  · have hle : 2 ^ 3 ≤ 2 ^ k := Nat.pow_le_pow_right (by decide) hge
    rw [← hk] at hle
    exact absurd hle (by decide)

theorem generateDivRemWithAnyConstant_seven : ∃ magic shift,
    calculateMagicAndShiftForDivRem 7 true 64 = some (magic, shift) ∧
      (x86GenerateDivRemWithAnyConstant 7 magic shift false (ofInt (width true) (-22))).toInt = -3 ∧
      (x86GenerateDivRemWithAnyConstant 7 magic shift true (ofInt (width true) (-22))).toInt = -1 := by
  obtain ⟨magic, shift, p, M, -, -, -, hcalc, hdiv⟩ := generateDivRemWithAnyConstant_toInt (isDivisor_seven true)
  exact ⟨magic, shift, hcalc 64 (by decide), (hdiv false _).1.trans (by decide), (hdiv true _).1.trans (by decide)⟩

/-- The shortcuts for dividends that are not negative. -/
theorem arm64GenerateDivRemWithAnyConstant_toInt_of_nonneg {imm : BitVec 64} {isLong : Bool}
    (h : IsDivisor (width isLong) imm.toInt) (hpos : 0 < imm.toInt) :
    ∃ magic shift,
      (∀ fuel, width isLong ≤ fuel → calculateMagicAndShiftForDivRem imm isLong fuel = some (magic, shift)) ∧
      (magic.toInt < 0 → shift ≠ 0) ∧
      ∀ (isRem : Bool) (n : BitVec (width isLong)), 0 ≤ n.toInt →
        (arm64GenerateDivRemWithAnyConstant imm magic shift isRem true isLong n).toInt =
          if isRem then n.toInt % imm.toInt else n.toInt / imm.toInt := by
  obtain ⟨magic, shift, p, M, hc, hcalc⟩ := exists_constant h
  refine ⟨magic, shift, hcalc, hc.shift_ne_zero (by cases isLong <;> decide) hpos, fun isRem n hn => ?_⟩
  rw [← Int.tdiv_eq_ediv_of_nonneg hn, ← Int.tmod_eq_emod_of_nonneg hn]
  cases isLong with
  | true =>
    have hslt : slt 0 imm = true := slt_iff_toInt_lt.mpr hpos
    simp only [arm64GenerateDivRemWithAnyConstant, hslt, Bool.and_self]
    exact hc.generateInt64UnsignedDivRemWithAnyPositiveConstant_toInt hpos hn isRem
  | false => exact hc.generateInt32DivRemWithAnyConstant_toInt_of_nonneg hpos hn isRem

theorem arm64GenerateDivRemWithAnyConstant_seven : ∃ magic shift,
    calculateMagicAndShiftForDivRem 7 false 32 = some (magic, shift) ∧ (magic.toInt < 0 → shift ≠ 0) ∧
      (arm64GenerateDivRemWithAnyConstant 7 magic shift false true false (ofInt (width false) 22)).toInt = 3 := by
  obtain ⟨magic, shift, hcalc, hshift, hdiv⟩ :=
    arm64GenerateDivRemWithAnyConstant_toInt_of_nonneg (isDivisor_seven false) (by decide)
  exact ⟨magic, shift, hcalc 32 (by decide), hshift, (hdiv false _ (by decide)).trans (by decide)⟩

end Art.DivRem
