import Art.Compiler.DivRemByConstant
import Art.Lib.MagicDivision
import Mathlib.Data.Nat.Prime.Basic
import Mathlib.Tactic.Linarith

/-! The loop of `CalculateMagicAndShiftForDivRem` finds the least shift at which the multiplier is exact enough, and
    computes with quotients and remainders of powers of two that fit into 64 bits. -/

namespace Art.DivRem
open Lib
open BitVec (isLt le_def ofInt ofNat slt slt_iff_toInt_lt toNat_add toNat_mul toNat_ofInt toNat_sub_of_le toNat_umod)

/-! ### Divisors -/

/-- A divisor of `w` bits that the code generators do not treat as a power of two. -/
structure IsDivisor (w : ℕ) (d : ℤ) : Prop where
  two_le : 2 ≤ d.natAbs
  ne_pow : ∀ k, d.natAbs ≠ 2 ^ k
  ge : -2 ^ (w - 1) ≤ d
  lt : d < 2 ^ (w - 1)

/-- The largest dividend in absolute value that is one less than a multiple of the divisor. -/
def ncOf (w : ℕ) (d : ℤ) : ℕ :=
  let tmp := 2 ^ (w - 1) + if d < 0 then 1 else 0
  tmp - 1 - tmp % d.natAbs

/-- What is missing from `2 ^ p` to the next multiple. -/
def excess (D p : ℕ) : ℕ := D - 2 ^ p % D

namespace IsDivisor

variable {w : ℕ} {d : ℤ} (h : IsDivisor w d)

include h

theorem three_le : 3 ≤ d.natAbs := by
  have h2 := h.two_le
  have hne := h.ne_pow 1
  omega

theorem natAbs_lt : d.natAbs < 2 ^ (w - 1) := by
  have hne := h.ne_pow (w - 1)
  have hle : d.natAbs ≤ 2 ^ (w - 1) := by
    have hge := h.ge
    have hlt := h.lt
    zify
    rw [abs_le]
    exact ⟨hge, hlt.le⟩
  omega

theorem excess_lt (p : ℕ) : excess d.natAbs p < d.natAbs := by
  have hpos : 0 < 2 ^ p % d.natAbs := by
    refine Nat.pos_of_ne_zero fun hzero => ?_
    obtain ⟨k, -, hk⟩ := (Nat.dvd_prime_pow Nat.prime_two).mp (Nat.dvd_of_mod_eq_zero hzero)
    exact h.ne_pow k hk
  have h3 := h.three_le
  unfold excess
  omega

theorem excess_pos (p : ℕ) : 0 < excess d.natAbs p := by
  have hlt := Nat.mod_lt (2 ^ p) (Nat.lt_of_lt_of_le (by decide : 0 < 3) h.three_le)
  unfold excess
  omega

theorem nc_add_one : ncOf w d + 1 = 2 ^ (w - 1) + (if d < 0 then 1 else 0) -
    (2 ^ (w - 1) + if d < 0 then 1 else 0) % d.natAbs := by
  have hlt := Nat.mod_lt (2 ^ (w - 1) + if d < 0 then 1 else 0) (Nat.lt_of_lt_of_le (by decide : 0 < 3) h.three_le)
  have hD := h.natAbs_lt
  unfold ncOf
  dsimp only
  omega

theorem nc_mod : (ncOf w d + 1) % d.natAbs = 0 := by
  rw [h.nc_add_one]
  exact Nat.sub_mod_eq_zero_of_mod_eq (Nat.mod_mod ..).symm

theorem le_nc : d.natAbs ≤ ncOf w d + 1 := by
  have hpos : 0 < ncOf w d + 1 := Nat.succ_pos _
  exact Nat.le_of_dvd hpos (Nat.dvd_of_mod_eq_zero h.nc_mod)

/-- No dividend reaches the next one after `ncOf`. -/
theorem lt_nc_add : 2 ^ (w - 1) + (if d < 0 then 1 else 0) ≤ ncOf w d + d.natAbs := by
  have hlt := Nat.mod_lt (2 ^ (w - 1) + if d < 0 then 1 else 0) (Nat.lt_of_lt_of_le (by decide : 0 < 3) h.three_le)
  have heq := h.nc_add_one
  omega

theorem nc_le : ncOf w d + 1 ≤ 2 ^ (w - 1) + if d < 0 then 1 else 0 := by
  rw [h.nc_add_one]
  exact Nat.sub_le ..

theorem nc_mul_excess_lt (p : ℕ) : ncOf w d * excess d.natAbs p < 2 ^ (2 * w - 2) := by
  have hnc : ncOf w d ≤ 2 ^ (w - 1) := by
    have hle := h.nc_le
    split at hle <;> omega
  have he : excess d.natAbs p < 2 ^ (w - 1) := (h.excess_lt p).trans h.natAbs_lt
  calc ncOf w d * excess d.natAbs p ≤ 2 ^ (w - 1) * excess d.natAbs p := Nat.mul_le_mul_right _ hnc
    _ < 2 ^ (w - 1) * 2 ^ (w - 1) := Nat.mul_lt_mul_of_pos_left he (Nat.two_pow_pos _)
    _ = 2 ^ (2 * w - 2) := by rw [← Nat.pow_add]; congr 1; omega

theorem div_lt_nc {q : ℕ} (hq : 2 ^ q ≤ ncOf w d * excess d.natAbs q) : 2 ^ q / d.natAbs < ncOf w d := by
  have hD : 0 < d.natAbs := Nat.lt_of_lt_of_le (by decide) h.three_le
  have hnc : 0 < ncOf w d := by
    have hle := h.le_nc
    have h3 := h.three_le
    omega
  rw [Nat.div_lt_iff_lt_mul hD]
  exact Nat.lt_of_le_of_lt hq (Nat.mul_lt_mul_of_pos_left (h.excess_lt q) hnc)

end IsDivisor

/-! ### The multiplier -/

/-- The multiplier `M` and the shift `p - w` of the divisor: `p` is the least one that is exact enough. -/
structure IsMagic (w : ℕ) (d : ℤ) (p M : ℕ) : Prop where
  le : w ≤ p
  lt : p < 2 * w - 1
  mul_eq : M * d.natAbs = 2 ^ p + excess d.natAbs p
  exact : ncOf w d * excess d.natAbs p < 2 ^ p
  least : ∀ q, w ≤ q → q < p → 2 ^ q ≤ ncOf w d * excess d.natAbs q

def signedMagic (d : ℤ) (M : ℕ) : ℤ := if 0 < d then M else -M

theorem exists_isMagic {w : ℕ} {d : ℤ} (h : IsDivisor w d) (hw : 2 ≤ w) : ∃ p M, IsMagic w d p M := by
  have hex : ∃ p, w ≤ p ∧ ncOf w d * excess d.natAbs p < 2 ^ p := ⟨2 * w - 2, by omega, h.nc_mul_excess_lt _⟩
  classical
  have hle : Nat.find hex ≤ 2 * w - 2 := Nat.find_min' hex ⟨by omega, h.nc_mul_excess_lt _⟩
  have hspec := Nat.find_spec hex
  refine ⟨Nat.find hex, 2 ^ Nat.find hex / d.natAbs + 1, hspec.1, by omega, ?_, hspec.2, fun q hq hlt => ?_⟩
  · have hsplit := Nat.div_add_mod (2 ^ Nat.find hex) d.natAbs
    have hmod := Nat.mod_lt (2 ^ Nat.find hex) (Nat.lt_of_lt_of_le (by decide : 0 < 3) h.three_le)
    rw [Nat.add_mul, Nat.one_mul, excess, Nat.mul_comm]
    omega
  · exact Nat.le_of_not_lt fun hnc => Nat.find_min hex hlt ⟨hq, hnc⟩

namespace IsMagic

variable {w p M : ℕ} {d : ℤ}

theorem eq_div (hm : IsMagic w d p M) (h : IsDivisor w d) : M = 2 ^ p / d.natAbs + 1 := by
  have hD : 0 < d.natAbs := Nat.lt_of_lt_of_le (by decide) h.three_le
  have hsplit := Nat.div_add_mod (2 ^ p) d.natAbs
  have hmod := Nat.mod_lt (2 ^ p) hD
  refine Nat.eq_of_mul_eq_mul_right hD ?_
  rw [hm.mul_eq, Nat.add_mul, Nat.one_mul, excess, Nat.mul_comm (2 ^ p / d.natAbs)]
  omega

/-- The magic number fits the width. -/
theorem lt_two_pow (hm : IsMagic w d p M) (h : IsDivisor w d) : M < 2 ^ w := by
  have hD := h.three_le
  have hN := h.natAbs_lt
  have hw : 2 ^ w = 2 * 2 ^ (w - 1) := by
    rw [← Nat.pow_succ']
    congr 1
    refine (Nat.succ_pred_eq_of_pos (Nat.pos_of_ne_zero fun hzero => ?_)).symm
    rw [hzero] at hN
    omega
  rcases Nat.eq_or_lt_of_le hm.le with heq | hlt
  · -- the first shift: the divisor is at least three
    have hle : 2 ^ p / d.natAbs ≤ 2 ^ w / 3 := by
      rw [← heq]
      exact Nat.div_le_div_left hD (by decide)
    rw [hm.eq_div h]
    omega
  -- twice the last number that was too small
  have hq := hm.least (p - 1) (Nat.le_sub_one_of_lt hlt) (by omega)
  have hnc := h.nc_le
  have hge := h.le_nc
  have hnot : 2 ^ p < (2 * ncOf w d - 1) * d.natAbs := by
    have he : excess d.natAbs (p - 1) ≤ d.natAbs - 1 := Nat.le_sub_one_of_lt (h.excess_lt (p - 1))
    have hmul : ncOf w d * excess d.natAbs (p - 1) ≤ ncOf w d * d.natAbs - ncOf w d :=
      calc ncOf w d * excess d.natAbs (p - 1) ≤ ncOf w d * (d.natAbs - 1) := Nat.mul_le_mul_left _ he
        _ = ncOf w d * d.natAbs - ncOf w d := by rw [Nat.mul_sub, Nat.mul_one]
    have hprod : ncOf w d * 3 ≤ ncOf w d * d.natAbs := Nat.mul_le_mul_left _ hD
    have hdouble : 2 ^ p = 2 * 2 ^ (p - 1) := by
      rw [← Nat.pow_succ']
      congr 1
      omega
    rw [Nat.sub_mul, Nat.one_mul, Nat.mul_assoc]
    omega
  have hquotient : 2 ^ p / d.natAbs < 2 * ncOf w d - 1 := (Nat.div_lt_iff_lt_mul (by omega)).mpr hnot
  rw [hm.eq_div h]
  split at hnc <;> omega

end IsMagic

/-! ### The loop -/

/-- A bound on a product, from the quotient and the remainder. -/
theorem le_mul_iff {a b e : ℕ} (hb : 0 < b) : a ≤ b * e ↔ a / b < e ∨ a / b = e ∧ a % b = 0 := by
  have hsplit := Nat.div_add_mod a b
  have hmod := Nat.mod_lt a hb
  constructor
  · intro hle
    have hq : a / b ≤ e := Nat.div_le_of_le_mul hle
    rcases Nat.lt_or_eq_of_le hq with hlt | heq
    · exact .inl hlt
    · refine .inr ⟨heq, ?_⟩
      rw [heq] at hsplit
      omega
  · rintro (hlt | ⟨heq, hzero⟩)
    · calc a = b * (a / b) + a % b := hsplit.symm
        _ ≤ b * (a / b) + b := Nat.add_le_add_left hmod.le _
        _ = b * (a / b + 1) := by ring
        _ ≤ b * e := Nat.mul_le_mul_left b hlt
    · rw [← hsplit, heq, hzero, Nat.add_zero]

/-- Doubling moves the quotient and the remainder on to those of twice the number. -/
theorem double_toNat {divisor quotient remainder : BitVec 64} {a : ℕ} (hpos : 0 < divisor.toNat)
    (hq : quotient.toNat = a / divisor.toNat) (hr : remainder.toNat = a % divisor.toNat)
    (hqlt : 2 * (a / divisor.toNat) + 1 < 2 ^ 64) (hle : divisor.toNat ≤ 2 ^ 63) :
    (double divisor quotient remainder).1.toNat = 2 * a / divisor.toNat ∧
      (double divisor quotient remainder).2.toNat = 2 * a % divisor.toNat := by
  have hmod : a % divisor.toNat < divisor.toNat := Nat.mod_lt a hpos
  have hq2 : (2 * quotient).toNat = 2 * (a / divisor.toNat) := by
    rw [toNat_mul, hq]
    exact Nat.mod_eq_of_lt (by change 2 * _ < _; omega)
  have hr2 : (2 * remainder).toNat = 2 * (a % divisor.toNat) := by
    rw [toNat_mul, hr]
    exact Nat.mod_eq_of_lt (by change 2 * _ < _; omega)
  unfold double
  by_cases h : divisor ≤ 2 * remainder
  · have hle' : divisor.toNat ≤ 2 * (a % divisor.toNat) := hr2 ▸ le_def.mp h
    obtain ⟨hdiv, hrem⟩ := two_mul_div_of_le hpos hle'
    rw [if_pos h, toNat_add, hq2, toNat_sub_of_le h, hr2, hdiv, hrem]
    exact ⟨Nat.mod_eq_of_lt hqlt, rfl⟩
  · have hlt : 2 * (a % divisor.toNat) < divisor.toNat := by
      rw [← hr2]
      exact Nat.lt_of_not_le fun hle' => h (le_def.mpr hle')
    obtain ⟨hdiv, hrem⟩ := two_mul_div_of_lt hlt
    rw [if_neg h, hq2, hr2, hdiv, hrem]
    exact ⟨rfl, rfl⟩

/-- The variables hold the quotients and remainders of `2 ^ p`. -/
structure Tracks (absNc absD : BitVec 64) (p : ℕ) (s : MagicState) : Prop where
  p_eq : s.p = p
  quotient1 : s.quotient1.toNat = 2 ^ p / absNc.toNat
  remainder1 : s.remainder1.toNat = 2 ^ p % absNc.toNat
  quotient2 : s.quotient2.toNat = 2 ^ p / absD.toNat
  remainder2 : s.remainder2.toNat = 2 ^ p % absD.toNat

section loop

variable {absNc absD : BitVec 64} {p : ℕ} {s : MagicState}

/-- Doubling does not wrap around at `p`. -/
def Fits (absNc absD : BitVec 64) (p : ℕ) : Prop :=
  2 * (2 ^ p / absNc.toNat) + 1 < 2 ^ 64 ∧ 2 * (2 ^ p / absD.toNat) + 1 < 2 ^ 64

theorem magicStep_tracks (h : Tracks absNc absD p s) (hfits : Fits absNc absD p) (hnc : 0 < absNc.toNat)
    (hnc' : absNc.toNat ≤ 2 ^ 63) (hD : 0 < absD.toNat) (hD' : absD.toNat ≤ 2 ^ 63) :
    Tracks absNc absD (p + 1) (magicStep absNc absD s) := by
  obtain ⟨hq1, hr1⟩ := double_toNat hnc h.quotient1 h.remainder1 hfits.1 hnc'
  obtain ⟨hq2, hr2⟩ := double_toNat hD h.quotient2 h.remainder2 hfits.2 hD'
  rw [← Nat.pow_succ'] at hq1 hr1 hq2 hr2
  exact ⟨congrArg (· + 1) h.p_eq, hq1, hr1, hq2, hr2⟩

theorem magicContinues_iff (h : Tracks absNc absD p s) (hnc : 0 < absNc.toNat) (hD : 0 < absD.toNat) :
    magicContinues absD s = true ↔ 2 ^ p ≤ absNc.toNat * excess absD.toNat p := by
  have hdelta : (absD - s.remainder2).toNat = excess absD.toNat p := by
    rw [toNat_sub_of_le, h.remainder2, excess]
    rw [le_def, h.remainder2]
    exact (Nat.mod_lt _ hD).le
  rw [le_mul_iff hnc, ← h.quotient1, ← h.remainder1, ← hdelta]
  simp only [magicContinues, Bool.or_eq_true, Bool.and_eq_true, decide_eq_true_eq, BitVec.lt_def, ← BitVec.toNat_inj]
  rfl

/-- The loop ends at the first power that is large enough. -/
theorem magicLoop_eq_some {n : ℕ} (h : Tracks absNc absD p s) (hnc : 0 < absNc.toNat) (hnc' : absNc.toNat ≤ 2 ^ 63)
    (hD : 0 < absD.toNat) (hD' : absD.toNat ≤ 2 ^ 63) (hfits : ∀ q, p ≤ q → q ≤ p + n → Fits absNc absD q)
    (hcont : ∀ q, p < q → q ≤ p + n → 2 ^ q ≤ absNc.toNat * excess absD.toNat q)
    (hstop : absNc.toNat * excess absD.toNat (p + n + 1) < 2 ^ (p + n + 1)) {fuel : ℕ} (hfuel : n < fuel) :
    ∃ t, magicLoop absNc absD fuel s = some t ∧ Tracks absNc absD (p + n + 1) t := by
  induction n generalizing p s fuel with
  | zero =>
    obtain ⟨fuel, rfl⟩ : ∃ k, fuel = k + 1 := ⟨fuel - 1, by omega⟩
    have hstep := magicStep_tracks h (hfits p (Nat.le_refl p) (Nat.le_refl p)) hnc hnc' hD hD'
    refine ⟨_, ?_, hstep⟩
    rw [magicLoop, if_neg fun hc => ?_]
    exact absurd ((magicContinues_iff hstep hnc hD).mp hc) (Nat.not_le_of_lt hstop)
  | succ n ih =>
    obtain ⟨fuel, rfl⟩ : ∃ k, fuel = k + 1 := ⟨fuel - 1, by omega⟩
    have hstep := magicStep_tracks h (hfits p (Nat.le_refl p) (by omega)) hnc hnc' hD hD'
    have hcont' := (magicContinues_iff hstep hnc hD).mpr (hcont (p + 1) (by omega) (by omega))
    have hshift : p + 1 + n + 1 = p + (n + 1) + 1 := by omega
    obtain ⟨t, ht, htracks⟩ := ih hstep (fun q hq hq' => hfits q (by omega) (by omega))
      (fun q hq hq' => hcont q (by omega) (by omega)) (hshift ▸ hstop) (Nat.lt_of_succ_lt_succ hfuel)
    refine ⟨t, ?_, hshift ▸ htracks⟩
    rw [magicLoop, if_pos hcont', ht]

end loop

/-! ### The magic number -/

theorem width_pos (isLong : Bool) : 2 ≤ width isLong ∧ width isLong ≤ 64 := by cases isLong <;> decide

section calculate

variable {divisor : BitVec 64} {isLong : Bool}

theorem absDivisor_toNat : (absDivisor divisor).toNat = divisor.toInt.natAbs := by
  unfold absDivisor
  by_cases h : divisor.slt 0
  · have hneg : divisor.toInt < 0 := slt_iff_toInt_lt.mp h
    have hlt := isLt divisor
    have hcond := BitVec.toInt_eq_toNat_cond divisor
    rw [if_pos h, BitVec.toNat_neg]
    split at hcond <;> omega
  · have hnonneg : ¬divisor.toInt < 0 := fun hneg => h (slt_iff_toInt_lt.mpr hneg)
    have hcond := BitVec.toInt_eq_toNat_cond divisor
    have hlt := isLt divisor
    rw [if_neg h]
    split at hcond <;> omega

theorem magicExp_toNat : (magicExp isLong).toNat = 2 ^ (width isLong - 1) := by cases isLong <;> rfl

variable (h : IsDivisor (width isLong) divisor.toInt)

include h

theorem signBit_toNat : (if isLong then divisor >>> 63 else (divisor.setWidth 32 >>> 31).setWidth 64).toNat =
      if divisor.toInt < 0 then 1 else 0 := by
  have hge := h.ge
  have hlt := h.lt
  have hcond := BitVec.toInt_eq_toNat_cond divisor
  have hlt' := isLt divisor
  cases isLong with
  | true =>
    simp only [if_true, BitVec.toNat_ushiftRight, Nat.shiftRight_eq_div_pow]
    split at hcond <;> split <;> omega
  | false =>
    simp only [Bool.false_eq_true, if_false, BitVec.toNat_setWidth, BitVec.toNat_ushiftRight, Nat.shiftRight_eq_div_pow]
    simp only [width, Bool.false_eq_true, if_false] at hge hlt
    split at hcond <;> split <;> omega

/-- `abs_nc` is the largest dividend that is one less than a multiple of the divisor. -/
theorem absNc_toNat : (absNc divisor isLong).toNat = ncOf (width isLong) divisor.toInt := by
  have hw := width_pos isLong
  have hpow : 2 ^ (width isLong - 1) ≤ 2 ^ 63 := Nat.pow_le_pow_right (by decide) (by omega)
  have htmp : (magicExp isLong + if isLong then divisor >>> 63 else (divisor.setWidth 32 >>> 31).setWidth 64).toNat =
      2 ^ (width isLong - 1) + if divisor.toInt < 0 then 1 else 0 := by
    rw [toNat_add, signBit_toNat h, magicExp_toNat]
    refine Nat.mod_eq_of_lt ?_
    split <;> omega
  have hmod := Nat.mod_lt (2 ^ (width isLong - 1) + if divisor.toInt < 0 then 1 else 0)
    (Nat.lt_of_lt_of_le (by decide : 0 < 3) h.three_le)
  have hD := h.natAbs_lt
  unfold absNc
  rw [toNat_sub_of_le, toNat_sub_of_le, toNat_umod, htmp, absDivisor_toNat]
  · rfl
  · rw [le_def, htmp]
    change 1 ≤ _
    omega
  · rw [le_def, toNat_sub_of_le, toNat_umod, htmp, absDivisor_toNat]
    · change _ ≤ _ - 1
      omega
    · rw [le_def, htmp]
      change 1 ≤ _
      omega

omit h

/-- Nothing overflows as long as the loop goes on. -/
theorem fits_of_continues {w : ℕ} {d : ℤ} (h : IsDivisor w d) (hw : w ≤ 64) {absNc absD : BitVec 64}
    (hnc : absNc.toNat = ncOf w d) (hD : absD.toNat = d.natAbs) {q : ℕ}
    (hq : q = w - 1 ∨ 2 ^ q ≤ ncOf w d * excess d.natAbs q) : Fits absNc absD q := by
  have hpow : 2 ^ (w - 1) ≤ 2 ^ 63 := Nat.pow_le_pow_right (by decide) (by omega)
  have h3 := h.three_le
  have hle := h.le_nc
  have hlt := h.natAbs_lt
  have hnc' := h.nc_le
  unfold Fits
  rw [hnc, hD]
  rcases hq with rfl | hq
  · have h1 : 2 ^ (w - 1) / ncOf w d ≤ 2 ^ (w - 1) / 2 := Nat.div_le_div_left (by omega) (by decide)
    have h2 : 2 ^ (w - 1) / d.natAbs ≤ 2 ^ (w - 1) / 3 := Nat.div_le_div_left h3 (by decide)
    omega
  have h1 : 2 ^ q / ncOf w d ≤ excess d.natAbs q := Nat.div_le_of_le_mul hq
  have h2 := h.div_lt_nc hq
  have he := h.excess_lt q
  split at hnc' <;> omega

theorem setWidth_ofInt {v w : ℕ} (hle : v ≤ w) (x : ℤ) : (ofInt w x).setWidth v = ofInt v x := by
  have hdvd : ((2 ^ v : ℕ) : ℤ) ∣ ((2 ^ w : ℕ) : ℤ) := by exact_mod_cast pow_dvd_pow 2 hle
  have hpos : (0 : ℤ) < ((2 ^ w : ℕ) : ℤ) := by exact_mod_cast Nat.two_pow_pos w
  refine BitVec.eq_of_toNat_eq ?_
  rw [BitVec.toNat_setWidth, toNat_ofInt, toNat_ofInt]
  refine Int.ofNat.inj ?_
  change (((x % ((2 ^ w : ℕ) : ℤ)).toNat % 2 ^ v : ℕ) : ℤ) = ((x % ((2 ^ v : ℕ) : ℤ)).toNat : ℤ)
  rw [Int.natCast_mod, Int.toNat_of_nonneg (Int.emod_nonneg _ hpos.ne'), Int.emod_emod_of_dvd _ hdvd,
    Int.toNat_of_nonneg (Int.emod_nonneg _ (by exact_mod_cast (Nat.two_pow_pos v).ne'))]

theorem magic_eq (divisor : BitVec 64) {quotient2 : BitVec 64} {M : ℕ} (hq2 : quotient2 + 1 = ofNat 64 M) :
    (if slt 0 divisor then quotient2 + 1 else -quotient2 - 1) =
      ofInt 64 (signedMagic divisor.toInt M) := by
  have hslt : slt 0 divisor = true ↔ 0 < divisor.toInt := slt_iff_toInt_lt
  unfold signedMagic
  simp only [hslt]
  by_cases hpos : 0 < divisor.toInt
  · rw [if_pos hpos, if_pos hpos, hq2, BitVec.ofInt_natCast]
  · have hneg : -quotient2 - 1 = -(quotient2 + 1) := by
      rw [BitVec.neg_add, BitVec.sub_eq_add_neg]
    rw [if_neg hpos, if_neg hpos, hneg, hq2, BitVec.ofInt_neg, BitVec.ofInt_natCast]

include h in
/-- The constants computed are the magic number and the shift of the divisor. -/
theorem calculateMagicAndShiftForDivRem_eq :
    ∃ p M, IsMagic (width isLong) divisor.toInt p M ∧ ∀ fuel, width isLong ≤ fuel →
      calculateMagicAndShiftForDivRem divisor isLong fuel =
        some ((ofInt (width isLong) (signedMagic divisor.toInt M)).signExtend 64, p - width isLong) := by
  have hw := width_pos isLong
  obtain ⟨p, M, hm⟩ := exists_isMagic h hw.1
  refine ⟨p, M, hm, fun fuel hfuel => ?_⟩
  have hnc := absNc_toNat h
  have hD : (absDivisor divisor).toNat = divisor.toInt.natAbs := absDivisor_toNat
  have hpow : 2 ^ (width isLong - 1) ≤ 2 ^ 63 := Nat.pow_le_pow_right (by decide) (by omega)
  have h3 := h.three_le
  have hge := h.le_nc
  have hlt := h.natAbs_lt
  have hle := h.nc_le
  have hple := hm.le
  have hplt := hm.lt
  have hstart : Tracks (absNc divisor isLong) (absDivisor divisor) (width isLong - 1)
      { p := if isLong then 63 else 31
        quotient1 := magicExp isLong / absNc divisor isLong
        remainder1 := magicExp isLong % absNc divisor isLong
        quotient2 := magicExp isLong / absDivisor divisor
        remainder2 := magicExp isLong % absDivisor divisor } := by
    refine ⟨by cases isLong <;> rfl, ?_, ?_, ?_, ?_⟩ <;> simp only [BitVec.toNat_udiv, toNat_umod, magicExp_toNat]
  have hlast : width isLong - 1 + (p - width isLong) + 1 = p := by omega
  obtain ⟨t, ht, htracks⟩ := magicLoop_eq_some (n := p - width isLong) hstart (by omega)
    (by rw [hnc]; split at hle <;> omega) (by omega) (by omega)
    (fun q hq hq' => fits_of_continues h hw.2 hnc hD <|
      (Nat.eq_or_lt_of_le hq).imp Eq.symm fun hq'' => hm.least q (by omega) (by omega))
    (fun q hq hq' => by rw [hnc, hD]; exact hm.least q (by omega) (by omega))
    (by rw [hnc, hD, hlast]; exact hm.exact) (show p - width isLong < fuel by omega)
  rw [hlast] at htracks
  have hq2 : t.quotient2 + 1 = ofNat 64 M := by
    refine BitVec.eq_of_toNat_eq ?_
    rw [toNat_add, htracks.quotient2, hD, hm.eq_div h]
    rfl
  have hmagic := magic_eq divisor hq2
  unfold calculateMagicAndShiftForDivRem
  dsimp only
  rw [ht, Option.map_some, hmagic, htracks.p_eq]
  cases isLong with
  | true => simp [width]
  | false => simp [width, setWidth_ofInt (show 32 ≤ 64 by decide)]

end calculate

end Art.DivRem
