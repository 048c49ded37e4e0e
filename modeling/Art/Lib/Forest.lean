import Mathlib.Data.List.Nodup
import Mathlib.Data.List.Infix
import Mathlib.Data.Fintype.Card
import Mathlib.Logic.Function.Basic

/-! Forests given by the parent of each node. A node's chain lists the node, its parent and so on, up to a root. -/

namespace Art.Lib
open List Function

variable {α : Type} {parent parent' : α → Option α} {a b c p v x : α} {l l' : List α}

/-- The node, its parent and so on. -/
inductive Chain (parent : α → Option α) : α → List α → Prop
  | root {a : α} (h : parent a = none) : Chain parent a [a]
  | step {a b : α} {l : List α} (h : parent a = some b) (hb : Chain parent b l) : Chain parent a (a :: l)

namespace Chain

section

variable (h : Chain parent a l)
include h

theorem unique (h' : Chain parent a l') : l = l' := by
  induction h generalizing l' with
  | root hnone =>
    cases h' with
    | root => rfl
    | step hsome => exact absurd (hnone.symm.trans hsome) nofun
  | step hsome _ ih =>
    cases h' with
    | root hnone => exact absurd (hnone.symm.trans hsome) nofun
    | step hsome' hb' =>
      cases hsome.symm.trans hsome'
      rw [ih hb']

theorem head_mem : a ∈ l := by
  cases h <;> exact mem_cons_self

theorem ne_nil : l ≠ [] := ne_nil_of_mem h.head_mem

theorem eq_cons : ∃ t, l = a :: t := by
  cases h
  · exact ⟨_, rfl⟩
  · exact ⟨_, rfl⟩

theorem suffix (hx : x ∈ l) : ∃ l', Chain parent x l' ∧ l' <:+ l := by
  induction h with
  | root hnone =>
    cases mem_singleton.mp hx
    exact ⟨_, .root hnone, suffix_rfl⟩
  | step hsome hb ih =>
    rcases mem_cons.mp hx with rfl | hx
    · exact ⟨_, .step hsome hb, suffix_rfl⟩
    · obtain ⟨l', hl', hsuf⟩ := ih hx
      exact ⟨l', hl', hsuf.trans (suffix_cons _ _)⟩

theorem nodup : l.Nodup := by
  induction h with
  | root => exact nodup_singleton _
  | @step a b l hsome hb ih =>
    refine nodup_cons.mpr ⟨fun hmem => ?_, ih⟩
    -- The chain of the node would be a part of itself.
    obtain ⟨l', hl', hsuf⟩ := hb.suffix hmem
    have hlen := hsuf.length_le
    rw [hl'.unique (.step hsome hb), length_cons] at hlen
    exact absurd hlen (Nat.not_succ_le_self _)

theorem length_le [Fintype α] : l.length ≤ Fintype.card α := h.nodup.length_le_card

theorem congr (heq : ∀ x ∈ l, parent' x = parent x) : Chain parent' a l := by
  induction h with
  | root hnone => exact .root ((heq _ (mem_singleton_self _)).trans hnone)
  | step hsome _ ih =>
    exact .step ((heq _ mem_cons_self).trans hsome) (ih fun x hx => heq x (mem_cons_of_mem _ hx))

end

end Chain

/-- The node is the other one or above it. -/
def Above (parent : α → Option α) (x a : α) : Prop := ∃ l, Chain parent a l ∧ x ∈ l

namespace Above

theorem iff_mem (h : Chain parent a l) : Above parent x a ↔ x ∈ l :=
  ⟨fun ⟨_, hl, hx⟩ => h.unique hl ▸ hx, fun hx => ⟨l, h, hx⟩⟩

theorem self (h : Chain parent a l) : Above parent a a := ⟨l, h, h.head_mem⟩

theorem trans (h : Above parent a b) (h' : Above parent b c) : Above parent a c := by
  obtain ⟨l, hl, ha⟩ := h
  obtain ⟨l', hl', hb⟩ := h'
  obtain ⟨m, hm, hsuf⟩ := hl'.suffix hb
  rw [hl.unique hm] at ha
  exact ⟨l', hl', hsuf.mem ha⟩

theorem antisymm (h : Above parent a b) (h' : Above parent b a) : a = b := by
  obtain ⟨l, hl, ha⟩ := h
  obtain ⟨l', hl', hb⟩ := h'
  obtain ⟨m, hm, hsuf⟩ := hl.suffix ha
  obtain ⟨m', hm', hsuf'⟩ := hl'.suffix hb
  cases hm.unique hl'
  cases hm'.unique hl
  cases hsuf.eq_of_length_le hsuf'.length_le
  obtain ⟨t, rfl⟩ := hm.eq_cons
  obtain ⟨t', heq⟩ := hm'.eq_cons
  cases heq
  rfl

theorem of_parent (h : parent a = some b) (hx : Above parent x b) : Above parent x a := by
  obtain ⟨l, hl, hx⟩ := hx
  exact ⟨a :: l, .step h hl, mem_cons_of_mem _ hx⟩

theorem cases_parent (h : Above parent x a) : x = a ∨ ∃ b, parent a = some b ∧ Above parent x b := by
  obtain ⟨l, hl, hx⟩ := h
  cases hl with
  | root hnone => exact .inl (mem_singleton.mp hx)
  | @step _ b m hsome hb =>
    rcases mem_cons.mp hx with rfl | hx
    · exact .inl rfl
    · exact .inr ⟨b, hsome, m, hb, hx⟩

theorem not_of_parent (h : parent a = some b) : ¬Above parent a b := by
  rintro ⟨l, hl, ha⟩
  exact (nodup_cons.mp (Chain.step h hl).nodup).1 ha

theorem total (h : Above parent a v) (h' : Above parent b v) : Above parent a b ∨ Above parent b a := by
  obtain ⟨l, hl, ha⟩ := h
  obtain ⟨l', hl', hb⟩ := h'
  cases hl.unique hl'
  obtain ⟨m, hm, hsuf⟩ := hl.suffix ha
  obtain ⟨m', hm', hsuf'⟩ := hl.suffix hb
  rcases le_total m.length m'.length with hle | hle
  · exact .inl ⟨m', hm', (suffix_of_suffix_length_le hsuf hsuf' hle).mem hm.head_mem⟩
  · exact .inr ⟨m, hm, (suffix_of_suffix_length_le hsuf' hsuf hle).mem hm'.head_mem⟩

end Above

/-- The lowest node above both. -/
structure IsMeet (parent : α → Option α) (m a b : α) : Prop where
  left : Above parent m a
  right : Above parent m b
  lowest : ∀ x, Above parent x a → Above parent x b → Above parent x m

/-! ### Moving a node up -/

section Raise

variable [DecidableEq α] {m w : α}

/-- A node is moved below a node above its parent: the chains lose what is between the two. -/
theorem Chain.raise (h : Chain parent a l) (hv : parent v = some p) (hm : Above parent m p) :
    ∃ l', Chain (update parent v (some m)) a l' ∧ l' ⊆ l ∧
      ∀ x ∈ l, x ∉ l' → v ∈ l ∧ Above parent x p ∧ ¬Above parent x m := by
  induction h with
  | @root a hnone =>
    have hne : a ≠ v := by
      rintro rfl
      cases hnone.symm.trans hv
    refine ⟨[a], .root (by rw [update_of_ne hne, hnone]), List.Subset.refl _, fun x hx hx' => absurd hx hx'⟩
  | @step a b l hsome hb ih =>
    by_cases heq : a = v
    · subst heq
      cases hsome.symm.trans hv
      obtain ⟨lm, hlm, hsuf⟩ := hb.suffix ((Above.iff_mem hb).mp hm)
      have hnot : a ∉ l := (nodup_cons.mp (Chain.step hsome hb).nodup).1
      have hlm' : Chain (update parent a (some m)) m lm :=
        hlm.congr fun x hx => update_of_ne (ne_of_mem_of_not_mem (hsuf.mem hx) hnot) _ _
      refine ⟨a :: lm, .step (update_self ..) hlm', cons_subset_cons _ hsuf.subset, fun x hx hx' => ?_⟩
      simp only [mem_cons, not_or] at hx'
      have hxl := (mem_cons.mp hx).resolve_left hx'.1
      exact ⟨mem_cons_self, ⟨l, hb, hxl⟩, fun h => hx'.2 ((Above.iff_mem hlm).mp h)⟩
    · obtain ⟨l', hl', hsub, hlost⟩ := ih
      refine ⟨a :: l', .step (by rw [update_of_ne heq, hsome]) hl', cons_subset_cons _ hsub, fun x hx hx' => ?_⟩
      simp only [mem_cons, not_or] at hx'
      obtain ⟨hmem, hrest⟩ := hlost x ((mem_cons.mp hx).resolve_left hx'.1) hx'.2
      exact ⟨mem_cons_of_mem _ hmem, hrest⟩

theorem Above.of_raise (h : Above (update parent v (some m)) x w) (hv : parent v = some p)
    (hm : Above parent m p) (hw : ∃ l, Chain parent w l) : Above parent x w := by
  obtain ⟨l, hl⟩ := hw
  obtain ⟨l', hl', hsub, -⟩ := hl.raise hv hm
  exact ⟨l, hl, hsub ((Above.iff_mem hl').mp h)⟩

theorem Above.raise (h : Above parent x w) (hv : parent v = some p) (hm : Above parent m p) :
    Above (update parent v (some m)) x w ∨ Above parent v w ∧ Above parent x p ∧ ¬Above parent x m := by
  obtain ⟨l, hl, hx⟩ := h
  obtain ⟨l', hl', -, hlost⟩ := hl.raise hv hm
  by_cases hx' : x ∈ l'
  · exact .inl ⟨l', hl', hx'⟩
  · obtain ⟨hmem, hrest⟩ := hlost x hx hx'
    exact .inr ⟨⟨l, hl, hmem⟩, hrest⟩

end Raise

end Art.Lib
