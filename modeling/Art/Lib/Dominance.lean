import Art.Lib.Forest

/-! Dominators in a directed graph with an entry. A tree of candidates lists all dominators of each node above it and
    is improved edge by edge; when no edge asks for a change, the nodes above are the dominators. -/

namespace Art.Lib
open List Function

variable {α : Type} {edge : α → α → Prop} {entry a b c d p u v w x : α} {l l' : List α}

/-- A walk along the edges, with its nodes from the last one to the first one. -/
inductive Walk (edge : α → α → Prop) (a : α) : α → List α → Prop
  | refl : Walk edge a a [a]
  | tail {b c : α} {l : List α} (h : Walk edge a b l) (he : edge b c) : Walk edge a c (c :: l)

namespace Walk

theorem append (h : Walk edge a b l) (h' : Walk edge b c l') : ∃ m, Walk edge a c m ∧ ∀ x ∈ m, x ∈ l ∨ x ∈ l' := by
  induction h' with
  | refl => exact ⟨l, h, fun x hx => .inl hx⟩
  | @tail b' c' l' _ he ih =>
    obtain ⟨m, hm, hsub⟩ := ih
    refine ⟨c' :: m, hm.tail he, fun x hx => ?_⟩
    rcases mem_cons.mp hx with rfl | hx
    · exact .inr mem_cons_self
    · exact (hsub x hx).imp_right (mem_cons_of_mem _)

end Walk

/-- Every walk from the entry to the node passes the dominator. -/
def Dominates (edge : α → α → Prop) (entry d v : α) : Prop := ∀ l, Walk edge entry v l → d ∈ l

/-- The strict dominator that every other strict dominator dominates. -/
structure IsImmediateDominator (edge : α → α → Prop) (entry d v : α) : Prop where
  dominates : Dominates edge entry d v
  ne : d ≠ v
  nearest : ∀ e, Dominates edge entry e v → e ≠ v → Dominates edge entry e d

theorem Dominates.of_edge (h : Dominates edge entry d v) (hne : d ≠ v) (he : edge u v) : Dominates edge entry d u :=
  fun l hl => (mem_cons.mp (h (v :: l) (hl.tail he))).resolve_left hne

def InTree (parent : α → Option α) (entry v : α) : Prop := v = entry ∨ parent v ≠ none

/-- A tree in which the nodes above a node include its dominators. -/
structure DomTree (edge : α → α → Prop) (entry : α) (parent : α → Option α) : Prop where
  root : parent entry = none
  rooted : ∀ {v}, InTree parent entry v → Above parent entry v
  /-- A walk from the parent past the nodes above it. -/
  way : ∀ {v p}, parent v = some p → ∃ l, Walk edge p v l ∧ ∀ x, Above parent x p → x ≠ p → x ∉ l
  complete : ∀ {v x}, InTree parent entry v → Dominates edge entry x v → Above parent x v

namespace DomTree

variable {parent : α → Option α}

section

variable (h : DomTree edge entry parent)
include h

theorem above_entry (hx : Above parent x entry) : x = entry := by
  rcases hx.cases_parent with heq | ⟨b, hb, -⟩
  · exact heq
  · cases h.root.symm.trans hb

theorem entry_above (hw : Above parent entry w) (hx : Above parent x w) : Above parent entry x := by
  rcases hw.total hx with habove | habove
  · exact habove
  · cases h.above_entry habove
    exact habove

theorem inTree_of_above (hw : InTree parent entry w) (hx : Above parent x w) : InTree parent entry x := by
  rcases (h.entry_above (h.rooted hw) hx).cases_parent with heq | ⟨b, hb, -⟩
  · exact .inl heq.symm
  · exact .inr (by rw [hb]; nofun)

theorem inTree_parent (hv : parent v = some p) : InTree parent entry p := by
  have hin : InTree parent entry v := .inr (by rw [hv]; nofun)
  have habove : Above parent p v := by
    obtain ⟨l, hl, hmem⟩ := h.rooted hin
    cases hl with
    | root hnone => cases hnone.symm.trans hv
    | @step _ b m hsome hb =>
      cases hsome.symm.trans hv
      exact .of_parent hv (.self hb)
  exact h.inTree_of_above hin habove

theorem above_self (hv : InTree parent entry v) : Above parent v v := by
  obtain ⟨l, hl, -⟩ := h.rooted hv
  exact .self hl

theorem above_parent (hv : parent v = some p) : Above parent p v :=
  .of_parent hv (h.above_self (h.inTree_parent hv))

/-- Down the tree there is a walk past the nodes above its start. -/
theorem walk_down (hw : Above parent u w) : ∃ l, Walk edge u w l ∧ ∀ x, Above parent x u → x ≠ u → x ∉ l := by
  obtain ⟨m, hm, hu⟩ := hw
  have hrefl : ∃ l, Walk edge u u l ∧ ∀ x, Above parent x u → x ≠ u → x ∉ l :=
    ⟨[u], .refl, fun x _ hne hmem => hne (mem_singleton.mp hmem)⟩
  induction hm with
  | root =>
    cases mem_singleton.mp hu
    exact hrefl
  | @step a b m hsome hb ih =>
    rcases mem_cons.mp hu with rfl | hu
    · exact hrefl
    obtain ⟨l, hl, havoid⟩ := ih hu
    obtain ⟨l', hl', havoid'⟩ := h.way hsome
    obtain ⟨n, hn, hsub⟩ := hl.append hl'
    have hub : Above parent u b := ⟨m, hb, hu⟩
    refine ⟨n, hn, fun x hx hne hmem => ?_⟩
    rcases hsub x hmem with hmem | hmem
    · exact havoid x hx hne hmem
    · refine havoid' x (hx.trans hub) ?_ hmem
      rintro rfl
      exact hne (hx.antisymm hub)

/-! ### Changes -/

theorem not_above (hv : parent v = none) (hne : v ≠ entry) (hw : InTree parent entry w) :
    ¬Above parent v w := fun habove => by
  rcases h.inTree_of_above hw habove with heq | hsome
  · exact hne heq
  · exact hsome hv

end

section Update

variable [DecidableEq α] {m : α}

section

variable (h : DomTree edge entry parent)
include h

theorem chain_attach (hv : parent v = none) (hne : v ≠ entry) (hw : InTree parent entry w)
    (hl : Chain parent w l) : Chain (update parent v (some u)) w l :=
  hl.congr fun _ hx =>
    update_of_ne (ne_of_mem_of_not_mem hx fun hmem => h.not_above hv hne hw ⟨l, hl, hmem⟩) _ _

theorem above_attach (hv : parent v = none) (hne : v ≠ entry) (hw : InTree parent entry w) :
    Above (update parent v (some u)) x w ↔ Above parent x w := by
  obtain ⟨l, hl, -⟩ := h.rooted hw
  rw [Above.iff_mem hl, Above.iff_mem (h.chain_attach hv hne hw hl)]

/-- A block reached first by an edge from `u` is put below `u`. -/
theorem attach (hu : InTree parent entry u) (he : edge u v) (hv : parent v = none)
    (hne : v ≠ entry) : DomTree edge entry (update parent v (some u)) := by
  have hin : ∀ {w}, InTree (update parent v (some u)) entry w → w = v ∨ InTree parent entry w := by
    intro w hw
    by_cases heq : w = v
    · exact .inl heq
    · rw [InTree, update_of_ne heq] at hw
      exact .inr hw
  have hself : update parent v (some u) v = some u := update_self ..
  refine ⟨by rw [update_of_ne (Ne.symm hne), h.root], fun {w} hw => ?_, fun {w q} hw => ?_, fun {w x} hw hx => ?_⟩
  · rcases hin hw with rfl | hw
    · exact .of_parent hself ((h.above_attach hv hne hu).mpr (h.rooted hu))
    · exact (h.above_attach hv hne hw).mpr (h.rooted hw)
  · by_cases heq : w = v
    · subst heq
      cases hself.symm.trans hw
      refine ⟨[w, u], .tail .refl he, fun x hx hxu hmem => ?_⟩
      rcases mem_pair.mp hmem with rfl | rfl
      · exact h.not_above hv hne hu ((h.above_attach hv hne hu).mp hx)
      · exact hxu rfl
    · rw [update_of_ne heq] at hw
      obtain ⟨l, hl, havoid⟩ := h.way hw
      exact ⟨l, hl, fun x hx => havoid x ((h.above_attach hv hne (h.inTree_parent hw)).mp hx)⟩
  · rcases hin hw with rfl | hw
    · by_cases heq : x = w
      · subst heq
        obtain ⟨l, hl, -⟩ := h.rooted hu
        exact .self (.step hself (h.chain_attach hv hne hu hl))
      · exact .of_parent hself ((h.above_attach hv hne hu).mpr (h.complete hu (hx.of_edge heq he)))
    · exact (h.above_attach hv hne hw).mpr (h.complete hw hx)

/-- A node is moved up to where its parent and a predecessor meet. -/
theorem raise (hu : InTree parent entry u) (he : edge u v) (hv : parent v = some p)
    (hm : IsMeet parent m p u) : DomTree edge entry (update parent v (some m)) := by
  have hin : ∀ {w}, InTree (update parent v (some m)) entry w → InTree parent entry w := by
    intro w hw
    by_cases heq : w = v
    · subst heq
      exact .inr (by rw [hv]; nofun)
    · rw [InTree, update_of_ne heq] at hw
      exact hw
  have hold : ∀ {x w}, InTree parent entry w → Above (update parent v (some m)) x w → Above parent x w := by
    intro x w hw hx
    obtain ⟨l, hl, -⟩ := h.rooted hw
    exact hx.of_raise hv hm.left ⟨l, hl⟩
  have hne : v ≠ entry := by
    rintro rfl
    cases h.root.symm.trans hv
  have hp := h.inTree_parent hv
  have hmin := h.inTree_of_above hp hm.left
  refine ⟨by rw [update_of_ne (Ne.symm hne), h.root], fun {w} hw => ?_, fun {w q} hw => ?_, fun {w x} hw hx => ?_⟩
  · rcases (h.rooted (hin hw)).raise hv hm.left with habove | ⟨-, -, hnot⟩
    · exact habove
    · exact absurd (h.rooted hmin) hnot
  · by_cases heq : w = v
    · subst heq
      rw [update_self] at hw
      cases hw
      obtain ⟨l, hl, havoid⟩ := h.walk_down hm.left
      obtain ⟨l', hl', havoid'⟩ := h.way hv
      obtain ⟨n, hn, hsub⟩ := hl.append hl'
      refine ⟨n, hn, fun x hx hxm hmem => ?_⟩
      have hx := hold hmin hx
      rcases hsub x hmem with hmem | hmem
      · exact havoid x hx hxm hmem
      · refine havoid' x (hx.trans hm.left) ?_ hmem
        rintro rfl
        exact hxm (hx.antisymm hm.left)
    · rw [update_of_ne heq] at hw
      obtain ⟨l, hl, havoid⟩ := h.way hw
      exact ⟨l, hl, fun x hx => havoid x (hold (h.inTree_parent hw) hx)⟩
  · rcases (h.complete (hin hw) hx).raise hv hm.left with habove | ⟨hvw, hxp, hxm⟩
    · exact habove
    · -- The node is not above the predecessor, so a walk reaches `v` past it and goes on down the tree.
      exfalso
      have hxu : ¬Dominates edge entry x u := fun hdom => hxm (hm.lowest x hxp (h.complete hu hdom))
      simp only [Dominates, not_forall] at hxu
      obtain ⟨l, hl, hxl⟩ := hxu
      have hxv : x ≠ v := fun heq => Above.not_of_parent hv (heq ▸ hxp)
      obtain ⟨l', hl', havoid⟩ := h.walk_down hvw
      obtain ⟨n, hn, hsub⟩ := (hl.tail he).append hl'
      rcases hsub x (hx n hn) with hmem | hmem
      · exact (mem_cons.mp hmem).elim hxv hxl
      · exact havoid x (.of_parent hv hxp) hxv hmem

end

end Update

/-! ### When nothing changes -/

/-- The parent of each successor is above the node. -/
def Settled (edge : α → α → Prop) (entry : α) (parent : α → Option α) : Prop :=
  ∀ {u v}, InTree parent entry u → edge u v → ∃ d, parent v = some d ∧ Above parent d u

section

variable (hs : Settled edge entry parent)
include hs

theorem Settled.inTree (hl : Walk edge entry v l) : InTree parent entry v := by
  induction hl with
  | refl => exact .inl rfl
  | tail _ he ih =>
    obtain ⟨d, hd, -⟩ := hs ih he
    exact .inr (by rw [hd]; nofun)

theorem Settled.mem_walk (h : DomTree edge entry parent) (hl : Walk edge entry v l)
    (hx : Above parent x v) : x ∈ l := by
  induction hl generalizing x with
  | refl => exact mem_singleton.mpr (h.above_entry hx)
  | @tail b c l hb he ih =>
    have hin := hs.inTree hb
    obtain ⟨d, hd, hdb⟩ := hs hin he
    rcases hx.cases_parent with rfl | ⟨d', hd', hx⟩
    · exact mem_cons_self
    · cases hd.symm.trans hd'
      exact mem_cons_of_mem _ (ih (hx.trans hdb))

/-- The nodes above a node that can be reached are its dominators. -/
theorem Settled.above_iff (h : DomTree edge entry parent) (hv : InTree parent entry v) :
    Above parent x v ↔ Dominates edge entry x v :=
  ⟨fun hx _ hl => hs.mem_walk h hl hx, h.complete hv⟩

theorem Settled.isImmediateDominator (h : DomTree edge entry parent)
    (hv : parent v = some d) : IsImmediateDominator edge entry d v := by
  have hin : InTree parent entry v := .inr (by rw [hv]; nofun)
  refine ⟨(hs.above_iff h hin).mp (h.above_parent hv), ?_, fun e he hne => ?_⟩
  · rintro rfl
    exact Above.not_of_parent hv (h.above_self hin)
  · rcases ((hs.above_iff h hin).mpr he).cases_parent with heq | ⟨d', hd', hed⟩
    · exact absurd heq hne
    · cases hv.symm.trans hd'
      exact (hs.above_iff h (h.inTree_parent hv)).mp hed

end

end DomTree

end Art.Lib
