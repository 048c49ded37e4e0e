import Mathlib.Logic.Function.Basic
import Mathlib.Order.Nat

/-! Segments that divide an initial part of the natural numbers, each with an owner. A segment is known by its
    first element: `S p = some (n, o)` is the segment `[p, p + n)` of `o`. -/

namespace Art.Lib
open Function

variable {ω : Type} {S : Nat → Option (Nat × ω)} {bound p q n k x : Nat} {o o' : ω}

theorem update_some :
    update S p (some (n, o)) q = some (k, o') ↔ (q = p ∧ k = n ∧ o' = o) ∨ (q ≠ p ∧ S q = some (k, o')) := by
  rw [update_apply, ite_eq_iff]
  simp [eq_comm]

theorem update_none : update S p none q = some (k, o) ↔ q ≠ p ∧ S q = some (k, o) := by
  rw [update_apply, ite_eq_iff]
  simp

/-- Every number below the bound is in exactly one segment. -/
structure Partition (S : Nat → Option (Nat × ω)) (bound : Nat) : Prop where
  pos : ∀ {p n o}, S p = some (n, o) → 0 < n
  le : ∀ {p n o}, S p = some (n, o) → p + n ≤ bound
  apart : ∀ {p q n k o o'}, S p = some (n, o) → S q = some (k, o') → p < q → p + n ≤ q
  cover : ∀ {x}, x < bound → ∃ p n o, S p = some (n, o) ∧ p ≤ x ∧ x < p + n

namespace Partition

section

variable (h : Partition S bound)
include h

variable (hp : S p = some (n, o))

include hp

theorem unique (hq : S q = some (k, o')) (hpx : p ≤ x) (hxp : x < p + n) (hqx : q ≤ x) (hxq : x < q + k) : p = q := by
  rcases Nat.lt_trichotomy p q with hlt | heq | hgt
  · have := h.apart hp hq hlt
    omega
  · exact heq
  · have := h.apart hq hp hgt
    omega

theorem inside (hlt : p < q) (hq : q < p + n) : S q = none := by
  rcases hs : S q with _ | ⟨k, o'⟩
  · rfl
  · have := h.apart hp hs hlt
    omega

omit hp

theorem eq_none (hle : bound ≤ p) : S p = none := by
  rcases hs : S p with _ | ⟨n, o⟩
  · rfl
  · have := h.pos hs
    have := h.le hs
    omega

include hp

theorem next (hlt : p + n < bound) : ∃ k o', S (p + n) = some (k, o') := by
  obtain ⟨q, k, o', hq, hle, hlt'⟩ := h.cover hlt
  have := h.pos hp
  rcases Nat.lt_trichotomy p q with hpq | rfl | hqp
  · have := h.apart hp hq hpq
    obtain rfl : q = p + n := by omega
    exact ⟨k, o', hq⟩
  · rw [hp] at hq
    cases hq
    omega
  · have := h.apart hq hp hqp
    omega

/-- A segment may get another label. -/
theorem relabel (o' : ω) : Partition (update S p (some (n, o'))) bound := by
  -- Up to the owner, the segments are the old ones.
  have hold : ∀ {q k o''}, update S p (some (n, o')) q = some (k, o'') → ∃ o₀, S q = some (k, o₀) := by
    intro q k o'' hq
    rcases update_some.mp hq with ⟨rfl, rfl, -⟩ | ⟨-, hq⟩
    · exact ⟨o, hp⟩
    · exact ⟨o'', hq⟩
  refine ⟨fun hq => ?_, fun hq => ?_, fun hq hr hlt => ?_, fun hx => ?_⟩
  · obtain ⟨_, hq⟩ := hold hq
    exact h.pos hq
  · obtain ⟨_, hq⟩ := hold hq
    exact h.le hq
  · obtain ⟨_, hq⟩ := hold hq
    obtain ⟨_, hr⟩ := hold hr
    exact h.apart hq hr hlt
  · obtain ⟨q, k, o'', hq, hle, hlt⟩ := h.cover hx
    by_cases heq : q = p
    · subst heq
      rw [hp] at hq
      cases hq
      exact ⟨q, n, o', update_self .., hle, hlt⟩
    · exact ⟨q, k, o'', by rw [update_of_ne heq, hq], hle, hlt⟩

/-- A segment may be split into two. -/
theorem split {a : Nat} (ha : 0 < a) (han : a < n) (o₁ o₂ : ω) :
    Partition (update (update S p (some (a, o₁))) (p + a) (some (n - a, o₂))) bound := by
  have hcases : ∀ {q k o'}, update (update S p (some (a, o₁))) (p + a) (some (n - a, o₂)) q = some (k, o') →
      (q = p + a ∧ k = n - a) ∨ (q = p ∧ k = a) ∨ (q ≠ p ∧ S q = some (k, o')) := by
    intro q k o' hq
    rcases update_some.mp hq with ⟨rfl, rfl, -⟩ | ⟨-, hq⟩
    · exact .inl ⟨rfl, rfl⟩
    · exact .inr ((update_some.mp hq).imp_left fun h => ⟨h.1, h.2.1⟩)
  have hle := h.le hp
  refine ⟨fun hq => ?_, fun hq => ?_, @fun q r k l o' o'' hq hr hlt => ?_, @fun x hx => ?_⟩
  · rcases hcases hq with ⟨-, rfl⟩ | ⟨-, rfl⟩ | ⟨-, hq⟩
    · omega
    · exact ha
    · exact h.pos hq
  · rcases hcases hq with ⟨rfl, rfl⟩ | ⟨rfl, rfl⟩ | ⟨-, hq⟩
    · omega
    · omega
    · exact h.le hq
  · rcases hcases hq with ⟨rfl, rfl⟩ | ⟨rfl, rfl⟩ | ⟨hqp, hq'⟩ <;>
      rcases hcases hr with ⟨rfl, rfl⟩ | ⟨rfl, rfl⟩ | ⟨hrp, hr'⟩
    · omega
    · omega
    · have := h.apart hp hr' (by omega)
      omega
    · omega
    · omega
    · have := h.apart hp hr' hlt
      omega
    · by_cases hlt' : q < p
      · have := h.apart hq' hp hlt'
        omega
      · have := h.apart hp hq' (by omega)
        omega
    · exact h.apart hq' hp hlt
    · exact h.apart hq' hr' hlt
  · obtain ⟨q, k, o', hq, hqx, hxq⟩ := h.cover hx
    by_cases heq : q = p
    · subst heq
      rw [hp] at hq
      cases hq
      by_cases hxa : x < q + a
      · refine ⟨q, a, o₁, ?_, hqx, hxa⟩
        rw [update_of_ne (by omega), update_self]
      · exact ⟨q + a, n - a, o₂, update_self .., by omega, by omega⟩
    · refine ⟨q, k, o', ?_, hqx, hxq⟩
      have hne : q ≠ p + a := by
        rintro rfl
        rw [h.inside hp (by omega) (by omega)] at hq
        cases hq
      rw [update_of_ne hne, update_of_ne heq, hq]

/-- Two neighbouring segments may be joined. -/
theorem join (hq : S (p + n) = some (k, o')) (o₁ : ω) :
    Partition (update (update S (p + n) none) p (some (n + k, o₁))) bound := by
  have hpos := h.pos hp
  have hcases : ∀ {q l o'}, update (update S (p + n) none) p (some (n + k, o₁)) q = some (l, o') →
      (q = p ∧ l = n + k) ∨ (q ≠ p ∧ q ≠ p + n ∧ S q = some (l, o')) := by
    intro q l o' hq
    rcases update_some.mp hq with ⟨rfl, rfl, -⟩ | ⟨hne, hq⟩
    · exact .inl ⟨rfl, rfl⟩
    · exact .inr ⟨hne, update_none.mp hq⟩
  have hle := h.le hq
  refine ⟨fun hr => ?_, fun hr => ?_, @fun r t l j o' o'' hr ht hlt => ?_, @fun x hx => ?_⟩
  · rcases hcases hr with ⟨-, rfl⟩ | ⟨-, -, hr⟩
    · omega
    · exact h.pos hr
  · rcases hcases hr with ⟨rfl, rfl⟩ | ⟨-, -, hr⟩
    · omega
    · exact h.le hr
  · rcases hcases hr with ⟨rfl, rfl⟩ | ⟨hrp, hrq, hr'⟩ <;> rcases hcases ht with ⟨rfl, rfl⟩ | ⟨htp, htq, ht'⟩
    · omega
    · have h1 := h.apart hp ht' hlt
      have h2 := h.apart hq ht' (by omega)
      omega
    · exact h.apart hr' hp hlt
    · exact h.apart hr' ht' hlt
  · obtain ⟨r, l, o'', hr, hrx, hxr⟩ := h.cover hx
    by_cases hin : p ≤ x ∧ x < p + (n + k)
    · exact ⟨p, n + k, o₁, update_self .., hin.1, hin.2⟩
    refine ⟨r, l, o'', ?_, hrx, hxr⟩
    have hrp : r ≠ p := by
      rintro rfl
      rw [hp] at hr
      cases hr
      omega
    have hrq : r ≠ p + n := by
      rintro rfl
      rw [hq] at hr
      cases hr
      omega
    rw [update_of_ne hrp, update_of_ne hrq, hr]

omit hp

/-- A segment may be added at the end. -/
theorem append (hk : 0 < k) (o : ω) : Partition (update S bound (some (k, o))) (bound + k) := by
  have hcases : ∀ {q l o'}, update S bound (some (k, o)) q = some (l, o') →
      (q = bound ∧ l = k) ∨ (q < bound ∧ S q = some (l, o')) := by
    intro q l o' hq
    rcases update_some.mp hq with ⟨rfl, rfl, -⟩ | ⟨-, hq⟩
    · exact .inl ⟨rfl, rfl⟩
    · refine .inr ⟨Nat.lt_of_not_le fun hge => ?_, hq⟩
      rw [h.eq_none hge] at hq
      cases hq
  refine ⟨fun hq => ?_, fun hq => ?_, fun hq hr hlt => ?_, @fun x hx => ?_⟩
  · rcases hcases hq with ⟨-, rfl⟩ | ⟨-, hq⟩
    · exact hk
    · exact h.pos hq
  · rcases hcases hq with ⟨rfl, rfl⟩ | ⟨-, hq⟩
    · exact Nat.le_refl _
    · exact Nat.le_add_right_of_le (h.le hq)
  · rcases hcases hq with ⟨rfl, rfl⟩ | ⟨hqb, hq'⟩ <;> rcases hcases hr with ⟨rfl, rfl⟩ | ⟨hrb, hr'⟩
    · omega
    · omega
    · exact h.le hq'
    · exact h.apart hq' hr' hlt
  · by_cases hlt : x < bound
    · obtain ⟨q, l, o', hq, hqx, hxq⟩ := h.cover hlt
      exact ⟨q, l, o', by rw [update_of_ne (by omega), hq], hqx, hxq⟩
    · exact ⟨bound, k, o, update_self .., by omega, by omega⟩

include hp

theorem extendLast (hend : p + n = bound) (hk : 0 < k) (o₁ : ω) :
    Partition (update S p (some (n + k, o₁))) (bound + k) := by
  subst hend
  have hpos := h.pos hp
  have happ := h.append hk o₁
  have hp' : update S (p + n) (some (k, o₁)) p = some (n, o) := by rw [update_of_ne (by omega), hp]
  have hjoin := happ.join hp' (update_self ..) o₁
  rwa [update_idem, ← h.eq_none (Nat.le_refl _), update_eq_self] at hjoin

theorem removeLast (hend : p + n = bound) : Partition (update S p none) p := by
  refine ⟨fun hq => h.pos (update_none.mp hq).2, @fun q k o' hq => ?_,
    fun hq hr hlt => h.apart (update_none.mp hq).2 (update_none.mp hr).2 hlt, @fun x hx => ?_⟩
  · obtain ⟨hne, hq⟩ := update_none.mp hq
    by_cases hlt : q < p
    · exact h.apart hq hp hlt
    have h1 := h.apart hp hq (by omega)
    have h2 := h.le hq
    have h3 := h.pos hq
    omega
  · obtain ⟨q, k, o', hq, hqx, hxq⟩ := h.cover (show x < bound by omega)
    exact ⟨q, k, o', by rw [update_of_ne (by omega), hq], hqx, hxq⟩

end

end Partition

end Art.Lib
