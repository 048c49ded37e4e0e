import Mathlib.Tactic

/-! Binary floating-point formats as bit patterns (a sign, a biased exponent and a mantissa, from the most
    significant bit down), and the conversions to and from unsigned 64-bit integers: truncation towards
    zero, undefined outside the range of the integers, and rounding to nearest, ties to even. -/

namespace Art.Lib

/-- A format whose exponents reach beyond 64-bit integers. -/
structure BinaryFormat where
  mantissaBits : Nat
  exponentBits : Nat
  wide : 64 ≤ 2 ^ (exponentBits - 1) - 1

namespace BinaryFormat

variable (F : BinaryFormat)

def bias : Nat := 2 ^ (F.exponentBits - 1) - 1

def mantissa (x : Nat) : Nat := x % 2 ^ F.mantissaBits

def exponent (x : Nat) : Nat := x / 2 ^ F.mantissaBits % 2 ^ F.exponentBits

def negative (x : Nat) : Prop := 2 ^ (F.exponentBits + F.mantissaBits) ≤ x

instance (x : Nat) : Decidable (F.negative x) := inferInstanceAs (Decidable (_ ≤ _))

/-- The mantissa with its hidden bit. The magnitude of a finite number is
    `significand * 2 ^ max exponent 1 / 2 ^ (bias + mantissaBits)`. -/
def significand (x : Nat) : Nat :=
  if F.exponent x = 0 then F.mantissa x else 2 ^ F.mantissaBits + F.mantissa x

def truncate (x : Nat) : Nat := F.significand x * 2 ^ max (F.exponent x) 1 / 2 ^ (F.bias + F.mantissaBits)

/-- Conversion to an unsigned 64-bit integer; `none` where it is undefined: infinities, NaNs, and numbers
    whose truncation is no such integer. -/
def toUint64 (x : Nat) : Option Nat :=
  if F.exponent x = 2 ^ F.exponentBits - 1 then none
  else if F.negative x ∧ F.truncate x ≠ 0 then none
  else if F.truncate x < 2 ^ 64 then some (F.truncate x)
  else none

/-- Conversion from an unsigned 64-bit integer. A carry out of the mantissa lands in the exponent. -/
def ofUint64 (n : Nat) : Nat :=
  if n = 0 then 0
  else
    let k := n.log2
    if k ≤ F.mantissaBits then (F.bias + k) * 2 ^ F.mantissaBits + (n * 2 ^ (F.mantissaBits - k) - 2 ^ F.mantissaBits)
    else
      let shift := k - F.mantissaBits
      let q := n / 2 ^ shift
      let r := n % 2 ^ shift
      let half := 2 ^ (shift - 1)
      let q := if r > half ∨ (r = half ∧ q % 2 = 1) then q + 1 else q
      (F.bias + k) * 2 ^ F.mantissaBits + (q - 2 ^ F.mantissaBits)

/-- The non-negative integers below `2 ^ 64` of the format, with `+0` only. -/
def IsUint64 (x : Nat) : Prop :=
  ¬F.negative x ∧ F.exponent x < F.bias + 64 ∧
    2 ^ (F.bias + F.mantissaBits) ∣ F.significand x * 2 ^ max (F.exponent x) 1

instance (x : Nat) : Decidable (F.IsUint64 x) := inferInstanceAs (Decidable (_ ∧ _))

variable {F} {x : Nat}

theorem two_pow_exponentBits (F : BinaryFormat) : 2 ^ F.exponentBits = 2 * F.bias + 2 := by
  have hw := F.wide
  unfold bias
  rcases h : F.exponentBits with _ | e
  · rw [h] at hw
    simp at hw
  · rw [Nat.add_sub_cancel, pow_succ]
    have := Nat.two_pow_pos e
    omega

theorem bias_ge (F : BinaryFormat) : 64 ≤ F.bias := F.wide

theorem eq_of_not_negative (h : ¬F.negative x) : x = F.exponent x * 2 ^ F.mantissaBits + F.mantissa x := by
  have hlt : x / 2 ^ F.mantissaBits < 2 ^ F.exponentBits := by
    rw [Nat.div_lt_iff_lt_mul (Nat.two_pow_pos _), ← pow_add]
    exact Nat.lt_of_not_le h
  rw [exponent, mantissa, Nat.mod_eq_of_lt hlt, Nat.mul_comm, Nat.div_add_mod]

theorem mantissa_lt (F : BinaryFormat) (x : Nat) : F.mantissa x < 2 ^ F.mantissaBits :=
  Nat.mod_lt _ (Nat.two_pow_pos _)

/-- A number of magnitude at least one is normal, and its exponent is the size of its integral part. -/
theorem exponent_of_truncate_pos (h : 0 < F.truncate x) :
    ∃ k, F.exponent x = F.bias + k ∧ F.significand x = 2 ^ F.mantissaBits + F.mantissa x ∧
      F.truncate x = F.significand x * 2 ^ k / 2 ^ F.mantissaBits ∧ (F.truncate x).log2 = k := by
  have hm := F.mantissa_lt x
  have hb := F.bias_ge
  have hge : 2 ^ (F.bias + F.mantissaBits) ≤ F.significand x * 2 ^ max (F.exponent x) 1 := (Nat.div_pos_iff.mp h).2
  have hne : F.exponent x ≠ 0 := by
    intro h0
    rw [significand, if_pos h0, h0] at hge
    have h1 : 2 ^ (1 + F.mantissaBits) ≤ 2 ^ (F.bias + F.mantissaBits) := Nat.pow_le_pow_right (by omega) (by omega)
    rw [pow_add] at h1
    simp only [zero_le, sup_of_le_right, pow_one] at hge h1
    omega
  have hsig : F.significand x = 2 ^ F.mantissaBits + F.mantissa x := if_neg hne
  have hmax : max (F.exponent x) 1 = F.exponent x := by omega
  have hbias : F.bias ≤ F.exponent x := by
    by_contra hlt
    have h1 : 2 ^ F.exponent x * 2 ≤ 2 ^ F.bias := by
      rw [← pow_succ]
      exact Nat.pow_le_pow_right (by omega) (by omega)
    rw [hsig, hmax, pow_add] at hge
    have h2 : (2 ^ F.mantissaBits + F.mantissa x) * 2 ^ F.exponent x < 2 ^ F.mantissaBits * (2 ^ F.exponent x * 2) := by
      rw [show 2 ^ F.mantissaBits * (2 ^ F.exponent x * 2) = (2 * 2 ^ F.mantissaBits) * 2 ^ F.exponent x by ring]
      exact Nat.mul_lt_mul_of_pos_right (by omega) (Nat.two_pow_pos _)
    have h3 : 2 ^ F.mantissaBits * (2 ^ F.exponent x * 2) ≤ 2 ^ F.mantissaBits * 2 ^ F.bias := Nat.mul_le_mul_left _ h1
    have h4 := Nat.mul_comm (2 ^ F.mantissaBits) (2 ^ F.bias)
    omega
  obtain ⟨k, hk⟩ := Nat.exists_eq_add_of_le hbias
  have htrunc : F.truncate x = F.significand x * 2 ^ k / 2 ^ F.mantissaBits := by
    rw [truncate, hmax, hk, pow_add, pow_add, Nat.mul_left_comm, Nat.mul_div_mul_left _ _ (Nat.two_pow_pos _)]
  refine ⟨k, hk, hsig, htrunc, ?_⟩
  rw [Nat.log2_eq_iff h.ne', htrunc, Nat.le_div_iff_mul_le (Nat.two_pow_pos _),
    Nat.div_lt_iff_lt_mul (Nat.two_pow_pos _), hsig]
  constructor
  · rw [Nat.mul_comm]
    exact Nat.mul_le_mul_right _ (by omega)
  · rw [pow_succ, show 2 ^ k * 2 * 2 ^ F.mantissaBits = (2 * 2 ^ F.mantissaBits) * 2 ^ k by ring]
    exact Nat.mul_lt_mul_of_pos_right (by omega) (Nat.two_pow_pos _)

theorem zero_isUint64 (F : BinaryFormat) : F.IsUint64 0 := by
  have := F.bias_ge
  refine ⟨Nat.not_le.mpr (Nat.two_pow_pos _), ?_, ?_⟩
  · simp only [exponent, Nat.zero_div, Nat.zero_mod]
    omega
  · simp [significand, exponent, mantissa]

theorem eq_zero_of_truncate (h : F.IsUint64 x) (h0 : F.truncate x = 0) : x = 0 := by
  obtain ⟨hneg, -, hdvd⟩ := h
  have hprod : F.significand x * 2 ^ max (F.exponent x) 1 = 0 := by
    rw [← Nat.div_mul_cancel hdvd]
    exact Nat.mul_eq_zero.mpr (.inl h0)
  have hsig : F.significand x = 0 := by
    rcases Nat.mul_eq_zero.mp hprod with h | h
    · exact h
    · exact absurd h (Nat.two_pow_pos _).ne'
  have hx := eq_of_not_negative hneg
  unfold significand at hsig
  split_ifs at hsig with hexp
  · rw [hx, hexp, hsig, Nat.zero_mul]
  · have := Nat.two_pow_pos F.mantissaBits
    omega

theorem toUint64_of_isUint64 (h : F.IsUint64 x) : F.toUint64 x = some (F.truncate x) := by
  obtain ⟨hneg, hexp, -⟩ := h
  have hb := F.bias_ge
  have htop : F.exponent x ≠ 2 ^ F.exponentBits - 1 := by
    have := F.two_pow_exponentBits
    omega
  have hlt : F.truncate x < 2 ^ 64 := by
    rcases Nat.eq_zero_or_pos (F.truncate x) with h0 | hpos
    · rw [h0]
      decide
    · obtain ⟨k, hk, -, -, hlog⟩ := exponent_of_truncate_pos hpos
      exact (Nat.log2_lt hpos.ne').mp (by omega)
  rw [toUint64, if_neg htop, if_neg fun h => hneg h.1, if_pos hlt]

/-- The integral part, read back, keeps the significand exactly when it has no fraction. -/
theorem ofUint64_truncate_iff (hneg : ¬F.negative x) (hpos : 0 < F.truncate x) :
    F.ofUint64 (F.truncate x) = x ↔
      2 ^ (F.bias + F.mantissaBits) ∣ F.significand x * 2 ^ max (F.exponent x) 1 := by
  obtain ⟨k, hk, hsig, htrunc, hlog⟩ := exponent_of_truncate_pos hpos
  have hb := F.bias_ge
  have hx := eq_of_not_negative hneg
  have hmax : max (F.exponent x) 1 = F.bias + k := by omega
  -- The bias cancels on both sides.
  have hdvd : 2 ^ (F.bias + F.mantissaBits) ∣ F.significand x * 2 ^ max (F.exponent x) 1 ↔
      2 ^ F.mantissaBits ∣ F.significand x * 2 ^ k := by
    rw [hmax, pow_add, pow_add, Nat.mul_left_comm, Nat.mul_dvd_mul_iff_left (Nat.two_pow_pos _)]
  rw [hdvd, ofUint64, if_neg hpos.ne', hlog]
  by_cases hkm : k ≤ F.mantissaBits
  · obtain ⟨d, hd⟩ := Nat.exists_eq_add_of_le hkm
    have htrunc' : F.truncate x = F.significand x / 2 ^ d := by
      rw [htrunc, hd, pow_add, Nat.mul_comm, Nat.mul_div_mul_left _ _ (Nat.two_pow_pos _)]
    have hdvd' : 2 ^ F.mantissaBits ∣ F.significand x * 2 ^ k ↔ 2 ^ d ∣ F.significand x := by
      rw [hd, pow_add, Nat.mul_comm (F.significand x), Nat.mul_dvd_mul_iff_left (Nat.two_pow_pos _)]
    have hle : 2 ^ F.mantissaBits ≤ F.significand x / 2 ^ d * 2 ^ d := by
      have h1 : 2 ^ k ≤ F.significand x / 2 ^ d := by
        rw [← htrunc', ← hlog]
        exact Nat.log2_self_le hpos.ne'
      calc 2 ^ F.mantissaBits = 2 ^ k * 2 ^ d := by rw [hd, pow_add]
        _ ≤ F.significand x / 2 ^ d * 2 ^ d := Nat.mul_le_mul_right _ h1
    simp only [if_pos hkm]
    rw [htrunc', show F.mantissaBits - k = d by omega, hdvd', Nat.dvd_iff_div_mul_eq]
    rw [hk] at hx
    constructor <;> intro h <;> omega
  · simp only [if_neg hkm]
    obtain ⟨d, hd⟩ := Nat.exists_eq_add_of_le (Nat.le_of_not_le hkm)
    have hprod : F.significand x * 2 ^ k = 2 ^ F.mantissaBits * (F.significand x * 2 ^ d) := by
      rw [hd, pow_add]
      ring
    have htrunc' : F.truncate x = F.significand x * 2 ^ d := by
      rw [htrunc, hprod, Nat.mul_div_cancel_left _ (Nat.two_pow_pos _)]
    refine iff_of_true ?_ ⟨_, hprod⟩
    have hhalf := Nat.two_pow_pos (k - F.mantissaBits - 1)
    rw [show k - F.mantissaBits = d by omega] at *
    rw [htrunc', Nat.mul_mod_left, Nat.mul_div_cancel _ (Nat.two_pow_pos _), if_neg (by omega)]
    rw [hk] at hx
    omega

/-- A number survives the conversions to an unsigned 64-bit integer and back, whatever undefined
    conversions yield, exactly when it is such an integer. -/
theorem ofUint64_toUint64_iff :
    (∀ undefined < 2 ^ 64, F.ofUint64 ((F.toUint64 x).getD undefined) = x) ↔ F.IsUint64 x := by
  constructor
  · intro h
    have h0 := h 0 (by decide)
    rcases hconv : F.toUint64 x with _ | t
    · rw [hconv, Option.getD_none, ofUint64, if_pos rfl] at h0
      subst h0
      have hzero : F.IsUint64 0 := zero_isUint64 F
      rw [toUint64_of_isUint64 hzero] at hconv
      cases hconv
    rw [hconv, Option.getD_some] at h0
    unfold toUint64 at hconv
    split_ifs at hconv with htop hneg hlt
    cases hconv
    rcases Nat.eq_zero_or_pos (F.truncate x) with ht | hpos
    · rw [ht, ofUint64, if_pos rfl] at h0
      exact h0 ▸ zero_isUint64 F
    have hneg' : ¬F.negative x := fun h => hneg ⟨h, hpos.ne'⟩
    obtain ⟨k, hk, -, -, hlog⟩ := exponent_of_truncate_pos hpos
    have hk64 : k < 64 := hlog ▸ (Nat.log2_lt hpos.ne').mpr hlt
    exact ⟨hneg', by omega, (ofUint64_truncate_iff hneg' hpos).mp h0⟩
  · intro h u _
    rw [toUint64_of_isUint64 h, Option.getD_some]
    rcases Nat.eq_zero_or_pos (F.truncate x) with ht | hpos
    · rw [ht, ofUint64, if_pos rfl]
      exact (eq_zero_of_truncate h ht).symm
    · exact (ofUint64_truncate_iff h.1 hpos).mpr h.2.2

/-- The number made from an integer has no sign bit. -/
theorem ofUint64_lt {n : Nat} (hn : n < 2 ^ 64) : F.ofUint64 n < 2 ^ (F.exponentBits + F.mantissaBits) := by
  have hb := F.bias_ge
  have hm := Nat.two_pow_pos F.mantissaBits
  unfold ofUint64
  split_ifs with h0
  · exact Nat.two_pow_pos _
  have hk : n.log2 < 64 := (Nat.log2_lt h0).mpr hn
  have hlt := Nat.lt_log2_self (n := n)
  -- Either way the mantissa, with a carry, is at most one unit of the exponent.
  have hbound : ∀ q, q ≤ 2 * 2 ^ F.mantissaBits →
      (F.bias + n.log2) * 2 ^ F.mantissaBits + (q - 2 ^ F.mantissaBits) < 2 ^ (F.exponentBits + F.mantissaBits) := by
    intro q hq
    calc (F.bias + n.log2) * 2 ^ F.mantissaBits + (q - 2 ^ F.mantissaBits)
        ≤ (F.bias + n.log2 + 1) * 2 ^ F.mantissaBits := by
          rw [Nat.add_mul _ 1]
          omega
      _ < 2 ^ F.exponentBits * 2 ^ F.mantissaBits := by
          refine Nat.mul_lt_mul_of_pos_right ?_ hm
          rw [F.two_pow_exponentBits]
          omega
      _ = 2 ^ (F.exponentBits + F.mantissaBits) := (pow_add _ _ _).symm
  dsimp only
  split_ifs with hkm hround
  · refine hbound _ ?_
    calc n * 2 ^ (F.mantissaBits - n.log2) ≤ 2 ^ (n.log2 + 1) * 2 ^ (F.mantissaBits - n.log2) :=
          Nat.mul_le_mul_right _ hlt.le
      _ = 2 * 2 ^ F.mantissaBits := by
          rw [← pow_add, ← pow_succ']
          congr 1
          omega
  all_goals
    have hq : n / 2 ^ (n.log2 - F.mantissaBits) < 2 * 2 ^ F.mantissaBits := by
      rw [Nat.div_lt_iff_lt_mul (Nat.two_pow_pos _)]
      calc n < 2 ^ (n.log2 + 1) := hlt
        _ = 2 * 2 ^ F.mantissaBits * 2 ^ (n.log2 - F.mantissaBits) := by
          rw [← pow_succ', ← pow_add]
          congr 1
          omega
    exact hbound _ (by omega)

end BinaryFormat

end Art.Lib
