import Mathlib.Algebra.Order.Group.Multiset
import Mathlib.Data.Multiset.Filter
import Mathlib.Data.Multiset.Range
import Mathlib.Logic.Function.Basic
import Mathlib.Tactic.Common

/-! Linear probing in a circular table of `n` slots. An element is looked for from the slot that it
    prefers on, and a lookup ends at a free slot, so no free slot may lie between the two. -/

namespace Art.Lib.Probing
open Function
open Multiset (mem_range range)

variable {α : Type} {n i j k m hole : Nat} {slots : Nat → Option α} {a : α} {ideal : α → Nat}

/-! ### Going around -/

/-- The slot `k` steps after `i`. -/
def after (n i k : Nat) : Nat := if i + k < n then i + k else i + k - n

/-- The number of steps from `i` to `j`. -/
def steps (n i j : Nat) : Nat := if i ≤ j then j - i else j + n - i

@[simp] theorem after_zero (hi : i < n) : after n i 0 = i := if_pos hi

theorem after_lt (hi : i < n) (hk : k ≤ n) : after n i k < n := by
  unfold after
  split_ifs <;> omega

theorem after_succ (hi : i < n) (hk : k < n) :
    after n i (k + 1) = if after n i k + 1 ≥ n then 0 else after n i k + 1 := by
  unfold after
  split_ifs <;> omega

theorem after_after (hi : i < n) (hk : k + m < n) : after n (after n i k) m = after n i (k + m) := by
  unfold after
  split_ifs <;> omega

theorem after_injective (hk : k < n) (hm : m < n) (h : after n i k = after n i m) : k = m := by
  unfold after at h
  split_ifs at h <;> omega

theorem steps_lt (hi : i < n) (hj : j < n) : steps n i j < n := by
  unfold steps
  split_ifs <;> omega

@[simp] theorem after_steps (hi : i < n) (hj : j < n) : after n i (steps n i j) = j := by
  unfold after steps
  split_ifs <;> omega

@[simp] theorem steps_after (hi : i < n) (hk : k < n) : steps n i (after n i k) = k := by
  unfold after steps
  split_ifs <;> omega

/-- Coming from `i`, the slot `hole` is passed before `j` unless `i` lies behind `hole`. -/
theorem steps_through (hi : i < n) (hj : j < n) (hh : hole < n)
    (h : steps n hole i = 0 ∨ steps n hole j < steps n hole i) :
    steps n i j = steps n i hole + steps n hole j := by
  unfold steps at h ⊢
  split_ifs at h ⊢ <;> omega

/-! ### Contents -/

/-- The elements of the table. -/
def contents (n : Nat) (slots : Nat → Option α) : Multiset α := (range n).filterMap slots

theorem mem_contents : a ∈ contents n slots ↔ ∃ i < n, slots i = some a := by
  simp [contents, Multiset.mem_filterMap]

theorem filterMap_congr {s : Multiset Nat} {f g : Nat → Option α} (h : ∀ i ∈ s, f i = g i) :
    s.filterMap f = s.filterMap g := by
  induction s using Quotient.inductionOn with
  | h l => exact congrArg _ (List.filterMap_congr h)

theorem contents_fill (hi : i < n) (h : slots i = none) :
    contents n (update slots i (some a)) = a ::ₘ contents n slots := by
  have hrange : range n = i ::ₘ (range n).erase i := (Multiset.cons_erase (mem_range.mpr hi)).symm
  have hrest : ((range n).erase i).filterMap (update slots i (some a)) =
      ((range n).erase i).filterMap slots := by
    refine filterMap_congr fun j hj => ?_
    have hji : j ≠ i := fun he => (Multiset.nodup_range n).notMem_erase (he ▸ hj)
    exact update_of_ne hji _ _
  rw [contents, contents, hrange, Multiset.filterMap_cons_some _ _ _ (update_self ..),
    Multiset.filterMap_cons_none _ _ h, hrest]

theorem contents_free (hi : i < n) (h : slots i = some a) :
    contents n slots = a ::ₘ contents n (update slots i none) := by
  rw [← contents_fill hi (update_self ..), update_idem, ← h, update_eq_self]

theorem card_contents_eq_countP (n : Nat) (slots : Nat → Option α) :
    (contents n slots).card = (range n).countP fun i => (slots i).isSome := by
  rw [contents]
  induction range n using Multiset.induction_on with
  | empty => simp
  | cons i s ih =>
    rcases h : slots i with _ | b
    · rw [Multiset.filterMap_cons_none _ _ h, ih, Multiset.countP_cons_of_neg]
      simp [h]
    · rw [Multiset.filterMap_cons_some _ _ _ h, Multiset.card_cons, ih, Multiset.countP_cons_of_pos]
      simp [h]

theorem exists_free (h : (contents n slots).card < n) : ∃ i < n, slots i = none := by
  by_contra hall
  push Not at hall
  have hall' : (range n).countP (fun i => (slots i).isSome) = (range n).card :=
    Multiset.countP_eq_card.mpr fun i hi => Option.isSome_iff_ne_none.mpr (hall i (mem_range.mp hi))
  rw [card_contents_eq_countP, hall', Multiset.card_range] at h
  omega

/-! ### Placement -/

/-- No free slot lies on the way from the slot an element prefers to the one it is in, except for `hole`. -/
def PlacedBut (n : Nat) (ideal : α → Nat) (hole : Nat) (slots : Nat → Option α) : Prop :=
  ∀ j < n, ∀ a, slots j = some a → ∀ k < steps n (ideal a) j,
    after n (ideal a) k ≠ hole → slots (after n (ideal a) k) ≠ none

/-- No free slot lies on the way from the slot an element prefers to the one it is in. -/
def Placed (n : Nat) (ideal : α → Nat) (slots : Nat → Option α) : Prop :=
  ∀ j < n, ∀ a, slots j = some a → ∀ k < steps n (ideal a) j, slots (after n (ideal a) k) ≠ none

theorem placed_fill (hideal : ideal a < n) (hm : m < n) (h : Placed n ideal slots)
    (hbusy : ∀ k < m, slots (after n (ideal a) k) ≠ none) :
    Placed n ideal (update slots (after n (ideal a) m) (some a)) := by
  intro j hj b hb k hk
  rcases eq_or_ne (after n (ideal b) k) (after n (ideal a) m) with he | hne
  · rw [he, update_self]
    exact Option.some_ne_none _
  rw [update_of_ne hne]
  rcases eq_or_ne j (after n (ideal a) m) with rfl | hj'
  · rw [update_self] at hb
    cases hb
    rw [steps_after hideal hm] at hk
    exact hbusy k hk
  · rw [update_of_ne hj'] at hb
    exact h j hj b hb k hk

/-- A lookup that ends at a free slot has passed every element that prefers the slot it started at. -/
theorem passed_of_placed (h : Placed n ideal slots) (hj : j < n) (ha : slots j = some a) (hideal : ideal a < n)
    (hfree : slots (after n (ideal a) m) = none) : steps n (ideal a) j < m ∨ n ≤ m := by
  by_contra hle
  push Not at hle
  obtain ⟨hle, hm⟩ := hle
  rcases Nat.lt_or_eq_of_le hle with hlt | heq
  · exact h j hj a ha m hlt hfree
  · rw [heq, after_steps hideal hj, ha] at hfree
    cases hfree

/-! ### Removal

An element is removed by opening a hole; later elements that were looked for past the hole are moved back
into it, until a free slot follows. -/

/-- The first `m - 1` elements behind the hole prefer slots behind the hole. -/
def Settled (n : Nat) (ideal : α → Nat) (slots : Nat → Option α) (hole m : Nat) : Prop :=
  ∀ k, 0 < k → k < m → ∃ a, slots (after n hole k) = some a ∧
    0 < steps n hole (ideal a) ∧ steps n hole (ideal a) ≤ k

theorem placedBut_open (h : Placed n ideal slots) : PlacedBut n ideal hole (update slots hole none) := by
  intro j hj a ha k hk hne
  have hj' : j ≠ hole := by
    rintro rfl
    rw [update_self] at ha
    cases ha
  rw [update_of_ne hj'] at ha
  rw [update_of_ne hne]
  exact h j hj a ha k hk

theorem settled_one : Settled n ideal slots hole 1 := fun k h0 h1 => absurd h1 (by omega)

theorem settled_succ (h : Settled n ideal slots hole m) (ha : slots (after n hole m) = some a)
    (h0 : 0 < steps n hole (ideal a)) (hle : steps n hole (ideal a) ≤ m) : Settled n ideal slots hole (m + 1) := by
  intro k hk hkm
  rcases Nat.lt_or_eq_of_le (Nat.le_of_lt_succ hkm) with hlt | rfl
  · exact h k hk hlt
  · exact ⟨a, ha, h0, hle⟩

/-- An element that was looked for past the hole is moved into it. -/
theorem placedBut_move (hideal : ∀ a, ideal a < n) (hhole : hole < n) (hj : j < n) (hne : j ≠ hole)
    (h : PlacedBut n ideal hole slots) (ha : slots j = some a)
    (hpast : steps n hole (ideal a) = 0 ∨ steps n hole j < steps n hole (ideal a)) :
    PlacedBut n ideal j (update (update slots hole (some a)) j none) := by
  have hthrough := steps_through (hideal a) hj hhole hpast
  have hmoved : ∀ i, i ≠ j → i ≠ hole → slots i ≠ none →
      update (update slots hole (some a)) j none i ≠ none := by
    intro i hij hih hi
    rwa [update_of_ne hij, update_of_ne hih]
  intro i hi b hb k hk hkj
  have hij : i ≠ j := by
    rintro rfl
    rw [update_self] at hb
    cases hb
  rw [update_of_ne hij] at hb
  rcases eq_or_ne (after n (ideal b) k) hole with he | hkh
  · rw [he, update_of_ne (Ne.symm hne), update_self]
    exact Option.some_ne_none _
  refine hmoved _ hkj hkh ?_
  rcases eq_or_ne i hole with rfl | hih
  · -- The moved element itself: its way to the hole is the first part of its old way.
    rw [update_self] at hb
    cases hb
    exact h j hj a ha k (by omega) hkh
  · rw [update_of_ne hih] at hb
    exact h i hi b hb k hk hkh

/-- Nothing was looked for past a hole with a free slot behind its settled elements. -/
theorem placed_of_settled (hideal : ∀ a, ideal a < n) (hm : 0 < m) (hmn : m < n)
    (h : PlacedBut n ideal hole slots) (hs : Settled n ideal slots hole m)
    (hfree : slots (after n hole m) = none) : Placed n ideal slots := by
  intro j hj a ha k hk
  have hsteps := steps_lt (hideal a) hj
  refine h j hj a ha k hk fun hat => ?_
  -- The slots from the hole to `j` are taken, so `j` is among the settled ones.
  have htaken : ∀ t, 0 < t → k + t ≤ steps n (ideal a) j → slots (after n hole t) ≠ none := by
    intro t ht htj
    rw [← hat, after_after (hideal a) (by omega)]
    rcases Nat.lt_or_eq_of_le htj with hlt | heq
    · refine h j hj a ha _ hlt fun he' => ?_
      have := after_injective (by omega) (by omega) (he'.trans hat.symm)
      omega
    · rw [heq, after_steps (hideal a) hj, ha]
      exact Option.some_ne_none _
  have hlt : steps n (ideal a) j - k < m := by
    by_contra hge
    exact htaken m hm (by omega) hfree
  obtain ⟨b, hb, hpos, hle⟩ := hs (steps n (ideal a) j - k) (by omega) hlt
  rw [← hat, after_after (hideal a) (by omega), Nat.add_sub_cancel' (by omega), after_steps (hideal a) hj, ha] at hb
  cases hb
  rw [← hat] at hpos hle
  have hk' : k < n := by omega
  clear hat hs hfree htaken hlt h
  unfold steps at hpos hle
  unfold after at hpos hle
  split_ifs at hpos hle <;> omega

end Art.Lib.Probing
