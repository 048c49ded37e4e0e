import Mathlib.Data.Finset.Card
import Mathlib.Order.Lattice

/-! Sets that are only followed up to a number of elements. Beyond it there are many elements; a set may also
    be unknown. The join of two such sets follows their union. -/

namespace Art.Lib

variable {α : Type} {n : Nat}

/-- A set that is kept up to `n` elements, then only known to be larger; or not known at all. -/
inductive CappedSet (α : Type) (n : Nat)
  | few (s : Finset α) (card_le : s.card ≤ n)
  | many
  | unknown

namespace CappedSet

/-- A set, as far as it is followed. -/
def ofFinset (s : Finset α) : CappedSet α n := if h : s.card ≤ n then few s h else many

/-- Few elements are below many, and everything is below the unknown set. -/
protected def le : CappedSet α n → CappedSet α n → Prop
  | _, unknown => True
  | unknown, _ => False
  | _, many => True
  | many, _ => False
  | few s _, few t _ => s ⊆ t

protected def sup [DecidableEq α] : CappedSet α n → CappedSet α n → CappedSet α n
  | _, unknown => unknown
  | unknown, _ => unknown
  | _, many => many
  | many, _ => many
  | few s _, few t _ => ofFinset (s ∪ t)

instance : PartialOrder (CappedSet α n) where
  le := CappedSet.le
  le_refl a := by cases a <;> simp [CappedSet.le]
  le_trans a b c := by
    cases a <;> cases b <;> cases c <;> simp [CappedSet.le]
    exact fun h h' => h.trans h'
  le_antisymm a b := by
    cases a <;> cases b <;> simp [CappedSet.le]
    exact fun h h' => h.antisymm h'

theorem ofFinset_of_le {s : Finset α} (h : s.card ≤ n) : (ofFinset s : CappedSet α n) = few s h := dif_pos h

theorem ofFinset_of_lt {s : Finset α} (h : n < s.card) : (ofFinset s : CappedSet α n) = many := dif_neg (by omega)

theorem ofFinset_le {s t : Finset α} (h : s ⊆ t) (ht : t.card ≤ n) : ofFinset s ≤ few t ht := by
  rw [ofFinset_of_le ((Finset.card_le_card h).trans ht)]
  exact h

theorem few_le_ofFinset {s t : Finset α} (hs : s.card ≤ n) (h : s ⊆ t) : few s hs ≤ ofFinset t := by
  rw [ofFinset]
  split_ifs
  · exact h
  · trivial

theorem ofFinset_le_many (s : Finset α) : (ofFinset s : CappedSet α n) ≤ many := by
  rw [ofFinset]
  split_ifs <;> trivial

instance [DecidableEq α] : SemilatticeSup (CappedSet α n) where
  sup := CappedSet.sup
  le_sup_left a b := by
    cases a <;> cases b <;> try trivial
    exact few_le_ofFinset _ Finset.subset_union_left
  le_sup_right a b := by
    cases a <;> cases b <;> try trivial
    exact few_le_ofFinset _ Finset.subset_union_right
  sup_le a b c := by
    intro ha hb
    cases a <;> cases b <;> cases c <;> first | trivial | (cases ha; done) | (cases hb; done) | skip
    · exact ofFinset_le (Finset.union_subset ha hb) _
    · exact ofFinset_le_many _

/-- A set of more elements is followed as far as its parts are. -/
theorem ofFinset_sup_ofFinset [DecidableEq α] (s t : Finset α) :
    (ofFinset s ⊔ ofFinset t : CappedSet α n) = ofFinset (s ∪ t) := by
  by_cases hs : s.card ≤ n
  · by_cases ht : t.card ≤ n
    · rw [ofFinset_of_le hs, ofFinset_of_le ht]
      rfl
    · have hlt : n < (s ∪ t).card := (not_le.mp ht).trans_le (Finset.card_le_card Finset.subset_union_right)
      rw [ofFinset_of_le hs, ofFinset_of_lt (not_le.mp ht), ofFinset_of_lt hlt]
      rfl
  · have hlt : n < (s ∪ t).card := (not_le.mp hs).trans_le (Finset.card_le_card Finset.subset_union_left)
    rw [ofFinset_of_lt (not_le.mp hs), ofFinset_of_lt hlt]
    rw [ofFinset]
    split_ifs <;> rfl

theorem many_sup_ofFinset [DecidableEq α] (s : Finset α) : (many ⊔ ofFinset s : CappedSet α n) = many :=
  sup_eq_left.mpr (ofFinset_le_many s)

theorem ofFinset_empty_le (a : CappedSet α n) : ofFinset ∅ ≤ a := by
  rw [ofFinset_of_le (by simp)]
  cases a with
  | few s _ => exact Finset.empty_subset s
  | many | unknown => trivial

theorem le_unknown (a : CappedSet α n) : a ≤ unknown := by cases a <;> trivial

end CappedSet

end Art.Lib
