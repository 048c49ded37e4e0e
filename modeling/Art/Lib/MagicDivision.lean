import Mathlib.Tactic.Ring
import Mathlib.Data.Nat.ModEq

/-! Division by a multiplication: if `M * D = P + e` for a small `e`, then `x * M / P` is `x / D`. The excess `e` may
    be as large as the largest dividend that is one less than a multiple of `D` allows. -/

namespace Art.Lib

/-! ### Quotients and remainders of a doubled number -/

section double

variable {a b : ℕ}

theorem two_mul_div_of_le (hb : 0 < b) (h : b ≤ 2 * (a % b)) :
    2 * a / b = 2 * (a / b) + 1 ∧ 2 * a % b = 2 * (a % b) - b := by
  have hmod : a % b < b := Nat.mod_lt a hb
  have hsplit : b * (a / b) + a % b = a := Nat.div_add_mod a b
  have hcalc : 2 * a = (2 * (a % b) - b) + b * (2 * (a / b) + 1) := by
    calc 2 * a = 2 * (b * (a / b) + a % b) := by rw [hsplit]
      _ = 2 * (a % b) + b * (2 * (a / b)) := by ring
      _ = (2 * (a % b) - b + b) + b * (2 * (a / b)) := by rw [Nat.sub_add_cancel h]
      _ = (2 * (a % b) - b) + b * (2 * (a / b) + 1) := by ring
  have hlt : 2 * (a % b) - b < b := by omega
  rw [hcalc, Nat.add_mul_div_left _ _ hb, Nat.div_eq_of_lt hlt, Nat.zero_add, Nat.add_mul_mod_self_left,
    Nat.mod_eq_of_lt hlt]
  exact ⟨rfl, rfl⟩

theorem two_mul_div_of_lt (h : 2 * (a % b) < b) : 2 * a / b = 2 * (a / b) ∧ 2 * a % b = 2 * (a % b) := by
  have hb : 0 < b := Nat.lt_of_le_of_lt (Nat.zero_le _) h
  have hcalc : 2 * a = 2 * (a % b) + b * (2 * (a / b)) := by
    calc 2 * a = 2 * (b * (a / b) + a % b) := by rw [Nat.div_add_mod a b]
      _ = 2 * (a % b) + b * (2 * (a / b)) := by ring
  rw [hcalc, Nat.add_mul_div_left _ _ hb, Nat.div_eq_of_lt h, Nat.zero_add, Nat.add_mul_mod_self_left,
    Nat.mod_eq_of_lt h]
  exact ⟨rfl, rfl⟩

end double

/-! ### The multiplier -/

section multiplier

variable {D P M e x : ℕ}

section

variable (hM : M * D = P + e)
include hM

theorem mul_mul_eq (x : ℕ) : x * M * D = x / D * P * D + (x % D * P + x * e) := by
  calc x * M * D = x * (P + e) := by rw [Nat.mul_assoc, hM]
    _ = (D * (x / D) + x % D) * P + x * e := by rw [Nat.div_add_mod, Nat.mul_add]
    _ = x / D * P * D + (x % D * P + x * e) := by ring

theorem le_mul (hD : 0 < D) : x / D * P ≤ x * M := by
  refine Nat.le_of_mul_le_mul_right ?_ hD
  rw [mul_mul_eq hM]
  exact Nat.le_add_right ..

theorem lt_mul (he : 0 < e) (hx : 0 < x) : x / D * P < x * M := by
  refine Nat.lt_of_mul_lt_mul_right (a := D) ?_
  rw [mul_mul_eq hM]
  have hpos : 0 < x * e := Nat.mul_pos hx he
  omega

theorem mul_lt (h : x % D * P + x * e < D * P) : x * M < (x / D + 1) * P := by
  refine Nat.lt_of_mul_lt_mul_right (a := D) ?_
  calc x * M * D = x / D * P * D + (x % D * P + x * e) := mul_mul_eq hM x
    _ < x / D * P * D + D * P := Nat.add_lt_add_left h _
    _ = (x / D + 1) * P * D := by ring

theorem mul_le (hD : 0 < D) (h : x % D * P + x * e ≤ D * P) : x * M ≤ (x / D + 1) * P := by
  refine Nat.le_of_mul_le_mul_right (c := D) ?_ hD
  calc x * M * D = x / D * P * D + (x % D * P + x * e) := mul_mul_eq hM x
    _ ≤ x / D * P * D + D * P := Nat.add_le_add_left h _
    _ = (x / D + 1) * P * D := by ring

theorem mul_div_eq (hD : 0 < D) (h : x % D * P + x * e < D * P) : x * M / P = x / D :=
  Nat.div_eq_of_lt_le (le_mul hM hD) (mul_lt hM h)

end

/-- The largest dividend that is one less than a multiple of `D` decides about all dividends. -/
theorem excess_lt {nc : ℕ} (hnc : nc * e < P) (hmod : (nc + 1) % D = 0) (hge : D ≤ nc + 1) (hD : 0 < D)
    (hx : x < nc + D) : x % D * P + x * e < D * P := by
  rcases Nat.lt_or_ge nc x with hlt | hle
  · obtain ⟨r, rfl⟩ : ∃ r, x = nc + 1 + r := ⟨x - (nc + 1), by omega⟩
    have hxmod : (nc + 1 + r) % D = r := by
      rw [Nat.add_mod, hmod, Nat.zero_add, Nat.mod_mod, Nat.mod_eq_of_lt (by omega)]
    have hre : (r + 1) * e ≤ nc * e := Nat.mul_le_mul_right e (by omega)
    calc (nc + 1 + r) % D * P + (nc + 1 + r) * e = r * P + (nc * e + (r + 1) * e) := by rw [hxmod]; ring
      _ < r * P + (P + P) := by omega
      _ = (r + 2) * P := by ring
      _ ≤ D * P := Nat.mul_le_mul_right P (by omega)
  · have hxe : x * e < P := Nat.lt_of_le_of_lt (Nat.mul_le_mul_right e hle) hnc
    have hxmod : x % D ≤ D - 1 := Nat.le_sub_one_of_lt (Nat.mod_lt x hD)
    calc x % D * P + x * e < (D - 1) * P + P :=
          Nat.add_lt_add_of_le_of_lt (Nat.mul_le_mul_right P hxmod) hxe
      _ = D * P := by
        obtain ⟨k, rfl⟩ : ∃ k, D = k + 1 := ⟨D - 1, by omega⟩
        rw [Nat.add_sub_cancel]
        ring

/-- The excess `e` cannot carry `x` over to the next multiple of `D`. -/
theorem excess_le {k : ℕ} (hM : M * D = k * x + e) (he : e ≤ D) (hD : 0 < D) (hk : 0 < k) :
    x % D * (k * x) + x * e ≤ D * (k * x) := by
  have hx : x % D < D := Nat.mod_lt x hD
  -- the excess cannot reach across the next multiple of `D`
  have hkey : x % D * k + e ≤ D * k := by
    have hcancel : M * D = k * (x / D) * D + (x % D * k + e) := by
      calc M * D = k * (D * (x / D) + x % D) + e := by rw [Nat.div_add_mod, hM]
        _ = k * (x / D) * D + (x % D * k + e) := by ring
    have hdvd : D ∣ x % D * k + e := by
      have hsum : D ∣ k * (x / D) * D + (x % D * k + e) := hcancel ▸ Nat.dvd_mul_left D M
      exact (Nat.dvd_add_right (Nat.dvd_mul_left D _)).mp hsum
    obtain ⟨c, hc⟩ := hdvd
    have hlt : D * c < D * (k + 1) := by
      calc D * c = x % D * k + e := hc.symm
        _ < D * k + D := Nat.add_lt_add_of_lt_of_le (Nat.mul_lt_mul_of_pos_right hx hk) he
        _ = D * (k + 1) := by ring
    have hck : c ≤ k := Nat.le_of_lt_succ (Nat.lt_of_mul_lt_mul_left hlt)
    rw [hc]
    exact Nat.mul_le_mul_left D hck
  calc x % D * (k * x) + x * e = x * (x % D * k + e) := by ring
    _ ≤ x * (D * k) := Nat.mul_le_mul_left x hkey
    _ = D * (k * x) := by ring

end multiplier

end Art.Lib
