import Mathlib.Data.Int.ModEq
import Mathlib.Tactic.Positivity
import Mathlib.Tactic.Ring

/-! Two's complement arithmetic at a fixed width, over `Int`. `wrap w x` is the representative of `x`
    modulo `2^w` in the signed range, and a wrapped expression may be computed without the inner wraps. -/

namespace Art.Lib

/-- The smallest and the largest signed value of `w + 1` bits. -/
def minInt (w : Nat) : Int := -2 ^ w
def maxInt (w : Nat) : Int := 2 ^ w - 1

/-- `x` is a signed value of `w + 1` bits. -/
def Signed (w : Nat) (x : Int) : Prop := minInt w ≤ x ∧ x ≤ maxInt w

instance (w : Nat) (x : Int) : Decidable (Signed w x) := inferInstanceAs (Decidable (_ ∧ _))

/-- The signed value of `w + 1` bits congruent to `x`. -/
def wrap (w : Nat) (x : Int) : Int := (x + 2 ^ w) % 2 ^ (w + 1) - 2 ^ w

variable {w : Nat} {x y : Int}

theorem wrap_signed (w : Nat) (x : Int) : Signed w (wrap w x) := by
  have hpos : (0 : Int) < 2 ^ (w + 1) := by positivity
  have h0 := Int.emod_nonneg (x + 2 ^ w) hpos.ne'
  unfold Signed wrap minInt maxInt
  omega

theorem wrap_of_signed (h : Signed w x) : wrap w x = x := by
  unfold Signed minInt maxInt at h
  unfold wrap
  rw [Int.emod_eq_of_lt (by omega) (by omega)]
  omega

theorem wrap_modEq (w : Nat) (x : Int) : wrap w x ≡ x [ZMOD 2 ^ (w + 1)] := by
  unfold wrap
  have h : (x + 2 ^ w) % 2 ^ (w + 1) ≡ x + 2 ^ w [ZMOD 2 ^ (w + 1)] := Int.mod_modEq _ _
  simpa using h.sub_right (2 ^ w)

theorem wrap_congr (h : x ≡ y [ZMOD 2 ^ (w + 1)]) : wrap w x = wrap w y := by
  unfold wrap
  rw [show (x + 2 ^ w) % 2 ^ (w + 1) = (y + 2 ^ w) % 2 ^ (w + 1) from h.add_right _]

theorem wrap_eq_of_modEq (hy : Signed w y) (h : x ≡ y [ZMOD 2 ^ (w + 1)]) : wrap w x = y :=
  (wrap_congr h).trans (wrap_of_signed hy)

end Art.Lib
