import Mathlib.Data.List.Range
import Mathlib.Order.OrderIsoNat

/-! Loops over the indices below a bound, with a state that each iteration replaces: an invariant that
    mentions the number of iterations done so far holds after the last one. A loop without a bound stops
    changing its state if every change lowers a rank, and ends if every iteration lowers a measure. -/

namespace Art.Lib
open List

variable {σ : Type}

theorem foldl_range_inv (inv : Nat → σ → Prop) {f : σ → Nat → σ} {n : Nat} {s : σ} (h0 : inv 0 s)
    (hstep : ∀ i < n, ∀ s, inv i s → inv (i + 1) (f s i)) : inv n ((range n).foldl f s) := by
  induction n with
  | zero => exact h0
  | succ n ih =>
    rw [range_succ, foldl_append]
    exact hstep n (Nat.lt_succ_self n) _ (ih fun i hi => hstep i (Nat.lt_succ_of_lt hi))

/-- A sequence in which every change lowers a rank is constant from some index on. -/
theorem eventually_const_of_rank {β : Type} [PartialOrder β] [WellFoundedLT β] (rank : σ → β) {r : Nat → σ}
    (h : ∀ n, r (n + 1) = r n ∨ rank (r (n + 1)) < rank (r n)) : ∃ n, ∀ m, n ≤ m → r m = r n := by
  have hanti : Antitone fun n => rank (r n) := antitone_nat_of_succ_le fun n => by
    rcases h n with heq | hlt
    · rw [heq]
    · exact hlt.le
  obtain ⟨n, hn⟩ := WellFoundedLT.antitone_chain_condition hanti
  refine ⟨n, fun m hm => ?_⟩
  induction m, hm using Nat.le_induction with
  | base => rfl
  | succ m hm ih =>
    rcases h m with heq | hlt
    · rw [heq, ih]
    · exact absurd ((hn m hm).symm.trans (hn (m + 1) (Nat.le_succ_of_le hm))) hlt.ne'

/-- A `while` loop: `body` fails, or ends the loop, or gives the next state. -/
def whileLoop (body : σ → Option (Option σ)) : Nat → σ → Option σ
  | 0, _ => none
  | fuel + 1, s =>
    match body s with
    | none => none
    | some none => some s
    | some (some s') => whileLoop body fuel s'

/-- Total correctness of a loop: with an invariant that the body keeps and a measure that it lowers, the loop ends. -/
theorem whileLoop_ok (inv : σ → Prop) (measure : σ → Nat) {body : σ → Option (Option σ)}
    (hbody : ∀ s, inv s → body s = some none ∨ ∃ s', body s = some (some s') ∧ inv s' ∧ measure s' < measure s)
    {fuel : Nat} {s : σ} (hinv : inv s) (hfuel : measure s < fuel) :
    ∃ t, whileLoop body fuel s = some t ∧ inv t ∧ body t = some none := by
  induction fuel generalizing s with
  | zero => exact absurd hfuel (Nat.not_lt_zero _)
  | succ fuel ih =>
    rw [whileLoop]
    rcases hbody s hinv with hdone | ⟨s', hs', hinv', hlt⟩
    · rw [hdone]
      exact ⟨s, rfl, hinv, hdone⟩
    · rw [hs']
      exact ih hinv' (Nat.lt_of_lt_of_le hlt (Nat.le_of_lt_succ hfuel))

end Art.Lib
