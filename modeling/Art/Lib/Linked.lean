import Mathlib.Data.Finset.Card
import Mathlib.Logic.Function.Basic

/-! # Lists threaded through a successor function -/

namespace Art
open List

variable {α : Type*} {next next' : α → α} {e s : α} {l m : List α}

/-- Following `next` from `s` visits `l` and arrives at `e`. -/
def Linked (next : α → α) (e : α) : α → List α → Prop
  | s, [] => s = e
  | s, a :: l => s = a ∧ Linked next e (next a) l

namespace Linked

theorem congr (h : Linked next e s l) (heq : ∀ a ∈ l, next' a = next a) : Linked next' e s l := by
  induction l generalizing s with
  | nil => exact h
  | cons a l ih =>
    refine ⟨h.1, ?_⟩
    rw [heq a mem_cons_self]
    exact ih h.2 fun b hb => heq b (mem_cons_of_mem a hb)

theorem append_iff : Linked next e s (l ++ m) ↔ ∃ j, Linked next j s l ∧ Linked next e j m := by
  induction l generalizing s with
  | nil => exact ⟨fun h => ⟨s, rfl, h⟩, fun ⟨j, hj, h⟩ => hj.symm ▸ h⟩
  | cons a l ih =>
    simp only [cons_append, Linked, ih]
    exact ⟨fun ⟨h, j, hj⟩ => ⟨j, ⟨h, hj.1⟩, hj.2⟩, fun ⟨j, ⟨h, hj⟩, h'⟩ => ⟨h, j, hj, h'⟩⟩

theorem update [DecidableEq α] {a b : α} (h : Linked next e s l) (ha : a ∉ l) :
    Linked (Function.update next a b) e s l :=
  h.congr fun _ hc => Function.update_of_ne (ne_of_mem_of_not_mem hc ha) ..

theorem unlink [DecidableEq α] {a b : α} (h : Linked next e s (l ++ a :: b :: m)) (hnodup : (l ++ a :: b :: m).Nodup) :
    Linked (Function.update next a (next b)) e s (l ++ a :: m) := by
  obtain ⟨j, hl, ha, hb, hm⟩ := append_iff.mp h
  rw [nodup_append, nodup_cons] at hnodup
  obtain ⟨-, ⟨ha', -⟩, hdisj⟩ := hnodup
  refine append_iff.mpr ⟨j, hl.update fun hal => hdisj a hal a mem_cons_self rfl, ha, ?_⟩
  rw [Function.update_self]
  exact hm.update fun ham => ha' (mem_cons_of_mem b ham)

theorem snoc {t r : α} (h : Linked next e s (l ++ [t])) (heq : ∀ a ∈ l, next' a = next a) (ht : next' t = r)
    (hr : next' r = e) : Linked next' e s (l ++ [t] ++ [r]) := by
  obtain ⟨j, hl, rfl, -⟩ := append_iff.mp h
  rw [append_assoc]
  exact append_iff.mpr ⟨j, hl.congr heq, rfl, ht, hr⟩

theorem unique (h : Linked next e s l) (h' : Linked next e s m) (he : e ∉ l) (he' : e ∉ m) : l = m := by
  induction l generalizing s m with
  | nil =>
    cases m with
    | nil => rfl
    | cons b m => exact absurd (h.symm.trans h'.1 ▸ mem_cons_self) he'
  | cons a l ih =>
    cases m with
    | nil => exact absurd (h'.symm.trans h.1 ▸ mem_cons_self) he
    | cons b m =>
      obtain rfl := h.1.symm.trans h'.1
      rw [ih h.2 h'.2 (fun hl => he (mem_cons_of_mem a hl)) fun hm => he' (mem_cons_of_mem a hm)]

end Linked

theorem length_le_of_nodup_of_lt {l : List ℕ} {n : ℕ} (h : l.Nodup) (hlt : ∀ i ∈ l, i < n) : l.length ≤ n := by
  rw [← toFinset_card_of_nodup h, ← Finset.card_range n]
  exact Finset.card_le_card fun i hi => Finset.mem_range.mpr (hlt i (mem_toFinset.mp hi))

end Art
