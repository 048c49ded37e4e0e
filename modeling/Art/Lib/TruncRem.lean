import Mathlib.Tactic

/-! The truncated remainder over an interval of dividends: it lies between zero and the dividend, and it
    keeps a positive (negative) lower (upper) bound of the dividends only when it is the identity there. -/

namespace Art.Lib

variable {i d first last : Int}

theorem tmod_abs (i d : Int) : i.tmod |d| = i.tmod d := by
  rcases abs_cases d with ⟨h, -⟩ | ⟨h, -⟩ <;> rw [h]
  exact Int.tmod_neg i d

theorem tmod_lt_abs (i : Int) (hd : d ≠ 0) : i.tmod d < |d| := by
  rw [← tmod_abs]
  exact Int.tmod_lt_of_pos i (abs_pos.mpr hd)

theorem neg_abs_lt_tmod (i : Int) (hd : d ≠ 0) : -|d| < i.tmod d := by
  rw [← tmod_abs i d]
  exact Int.lt_tmod_of_pos i (abs_pos.mpr hd)

theorem tmod_le_self (d : Int) (hi : 0 ≤ i) : i.tmod d ≤ i := by
  have h := Int.natAbs_tmod i d
  have hle := Nat.mod_le i.natAbs d.natAbs
  have h0 := Int.tmod_nonneg d hi
  omega

theorem self_le_tmod (d : Int) (hi : i ≤ 0) : i ≤ i.tmod d := by
  have h := tmod_le_self d (i := -i) (by omega)
  rw [Int.neg_tmod] at h
  omega

theorem tmod_nonpos (d : Int) (hi : i ≤ 0) : i.tmod d ≤ 0 := by
  have h := Int.tmod_nonneg d (a := -i) (by omega)
  rw [Int.neg_tmod] at h
  omega

theorem tmod_of_lt_abs (hi : 0 ≤ i) (h : i < |d|) : i.tmod d = i := by
  rw [← tmod_abs]
  exact Int.tmod_eq_of_lt hi h

/-- Positive dividends keep their lower bound exactly when all of them are below the divisor. -/
theorem first_le_tmod_iff (hd : d ≠ 0) (hpos : 0 < first) (hne : first ≤ last) :
    (∀ i, first ≤ i → i ≤ last → first ≤ i.tmod d) ↔ last < |d| := by
  constructor
  · intro h
    by_contra hlast
    rcases le_total first |d| with hf | hf
    · -- The divisor itself is a dividend, with remainder 0.
      have := h |d| hf (by omega)
      rw [← tmod_abs, Int.tmod_self] at this
      omega
    · have := h first le_rfl hne
      have := tmod_lt_abs first hd
      omega
  · intro h i hfi hil
    rw [tmod_of_lt_abs (by omega) (by omega)]
    exact hfi

/-- Negative dividends keep their upper bound exactly when all of them are above minus the divisor. -/
theorem tmod_le_last_iff (hd : d ≠ 0) (hneg : last < 0) (hne : first ≤ last) :
    (∀ i, first ≤ i → i ≤ last → i.tmod d ≤ last) ↔ -|d| < first := by
  have h := @first_le_tmod_iff d (-last) (-first) hd (by omega) (by omega)
  constructor
  · intro hall
    have hlt := h.mp fun i hi hi' => by
      have := hall (-i) (by omega) (by omega)
      rw [Int.neg_tmod] at this
      omega
    omega
  · intro hlt i hi hi'
    have := h.mpr (by omega) (-i) (by omega) (by omega)
    rw [Int.neg_tmod] at this
    omega

end Art.Lib
