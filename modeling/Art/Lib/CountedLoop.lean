import Mathlib.Data.Int.ModEq
import Mathlib.Tactic.Linarith

/-! Loops that count up to an inclusive bound: `x, x + d, x + 2 d, …` while the value is at most `v`. -/

namespace Art.Lib

/-- The first `n` values are within the bound, and the next one is not. -/
structure Counted (x d v : Int) (n : Nat) : Prop where
  within : ∀ k < n, x + d * (k : Int) ≤ v
  beyond : v < x + d * (n : Int)

namespace Counted

variable {x d v : Int} {n m : Nat}

theorem zero_iff : Counted x d v 0 ↔ v < x := by
  constructor
  · intro h
    simpa using h.beyond
  · intro h
    exact ⟨fun _ hk => absurd hk (Nat.not_lt_zero _), by simpa using h⟩

theorem unique (h : Counted x d v n) (h' : Counted x d v m) : n = m := by
  rcases Nat.lt_trichotomy n m with hlt | heq | hlt
  · exact absurd (h'.within n hlt) (not_le.mpr h.beyond)
  · exact heq
  · exact absurd (h.within m hlt) (not_le.mpr h'.beyond)

theorem le_of_pos (h : Counted x d v n) (hn : 0 < n) : x ≤ v := by
  simpa using h.within 0 hn

/-- The value that ends the loop is less than one step beyond the bound. -/
theorem last_le (h : Counted x d v n) (hn : 0 < n) : x + d * (n : Int) ≤ v + d := by
  obtain ⟨k, rfl⟩ := Nat.exists_eq_add_one.mpr hn
  have := h.within k (Nat.lt_succ_self k)
  push_cast
  linarith

theorem of_div (hd : 0 < d) (hxv : x ≤ v) : Counted x d v ((v + d - x) / d).toNat := by
  have hle : (v + d - x) / d * d ≤ v + d - x := Int.ediv_mul_le _ hd.ne'
  have hlt : v + d - x < ((v + d - x) / d + 1) * d := Int.lt_ediv_add_one_mul_self _ hd
  have hnonneg : 0 ≤ (v + d - x) / d := Int.ediv_nonneg (by omega) hd.le
  constructor
  · intro k hk
    have hk : (k : Int) + 1 ≤ (v + d - x) / d := by omega
    nlinarith [mul_le_mul_of_nonneg_right hk hd.le]
  · rw [Int.toNat_of_nonneg hnonneg]
    linarith

theorem eq_div (h : Counted x d v n) (hd : 0 < d) (hn : 0 < n) : (n : Int) = (v + d - x) / d := by
  have hxv := h.le_of_pos hn
  rw [h.unique (of_div hd hxv), Int.toNat_of_nonneg]
  exact Int.ediv_nonneg (by omega) hd.le

theorem exists_of_pos (x v : Int) (hd : 0 < d) : ∃ n, Counted x d v n := by
  rcases lt_or_ge v x with h | h
  · exact ⟨0, zero_iff.mpr h⟩
  · exact ⟨_, of_div hd h⟩

end Counted

end Art.Lib
