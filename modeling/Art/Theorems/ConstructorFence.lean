import Mathlib.Data.List.Induction
import Art.Compiler.ConstructorFence

/-! The merges of constructor fences. Between two merges the visitor keeps a window of candidate fences, and all of
    them go into the last one. The window is followed over the instructions that the block starts with: a merge
    changes only fences that have been visited. No instruction that the visitor looks at publishes a target of a
    fence while it is in the window; an `HInvokeCustom` and an `HPredicatedInstanceFieldGet`, for which the visitor
    has no visit function, may. -/

namespace Art.ConstructorFence
open List

variable {ι β : Type}

/-! ### Order in a list -/

theorem pair_sublist_snoc {l : List ι} {a b c : ι} : [a, b].Sublist (l ++ [c]) ↔ [a, b].Sublist l ∨ a ∈ l ∧ b = c := by
  constructor
  · intro h
    obtain ⟨l₁, l₂, heq, h₁, h₂⟩ := sublist_append_iff.mp h
    rcases sublist_singleton.mp h₂ with rfl | rfl
    · rw [append_nil] at heq
      exact Or.inl (heq ▸ h₁)
    · obtain ⟨rfl, hbc⟩ := append_inj' (show [a] ++ [b] = l₁ ++ [c] from heq) rfl
      exact Or.inr ⟨singleton_sublist.mp h₁, singleton_inj.mp hbc⟩
  · rintro (h | ⟨ha, rfl⟩)
    · exact h.trans (sublist_append_left _ _)
    · exact (singleton_sublist.mpr ha).append (List.Sublist.refl [b])

variable {p q : List ι}

/-- The elements before the only `c` of a list come before it in every sublist. -/
theorem sublist_of_snoc_sublist {c : ι} (hq : c ∉ q) :
    ∀ {s : List ι}, (s ++ [c]).Sublist (p ++ c :: q) → s.Sublist p := by
  induction p with
  | nil =>
    intro s h
    cases s with
    | nil => exact List.Sublist.refl []
    | cons a s =>
      have htail : (s ++ [c]).Sublist q := h.tail
      exact absurd (htail.subset (by simp)) hq
  | cons a p ih =>
    intro s h
    cases s with
    | nil => exact nil_sublist _
    | cons b s =>
      rcases cons_sublist_cons'.mp h with hskip | ⟨rfl, htake⟩
      · exact (ih hskip).cons a
      · exact (ih htake).cons_cons b

/-- What stands before an element of a list without duplicates stands in front of the place where the list is cut
    at that element. -/
theorem pair_sublist_of_triple {l p q : List ι} {a b c : ι} (hl : l.Nodup) (hcut : l = p ++ c :: q)
    (h : [a, b, c].Sublist l) : [a, b].Sublist p := by
  subst hcut
  have hq : c ∉ q := (nodup_cons.mp (nodup_append.mp hl).2.1).1
  exact sublist_of_snoc_sublist hq (show ([a, b] ++ [c]).Sublist _ from h)

/-! ### What an instruction publishes and what the visitor looks at -/

namespace Instruction

/-- The inputs that the instruction passes to a call, stores in a field or array element, or makes an alias of. -/
def published : Instruction ι → List ι
  | boundType input => [input]
  | nullCheck value => [value]
  | select falseValue trueValue _ => [falseValue, trueValue]
  | predicatedInstanceFieldGet defaultValue _ => [defaultValue]
  | instanceFieldSet _ value => [value]
  | staticFieldSet _ value => [value]
  | arraySet _ _ value => [value]
  | invoke _ arguments _ => arguments
  | unresolvedInstanceFieldSet _ value => [value]
  | unresolvedStaticFieldSet value => [value]
  | phi inputs => inputs
  | _ => []

/-- The instructions of a block that publish an input and for which the visitor has no visit function. -/
def overlooked : Instruction ι → Bool
  | invoke .custom _ _ => true
  | predicatedInstanceFieldGet _ _ => true
  | _ => false

/-- The inputs that the visitor compares with the targets of its candidate fences. -/
def watched : Instruction ι → List ι
  | constructorFence _ | deoptimize _ | invoke .custom _ _ | predicatedInstanceFieldGet _ _ | phi _ | other _ => []
  | instanceFieldSet _ value | staticFieldSet _ value | arraySet _ _ value => [value]
  | i => i.inputs

/-- The visitor merges at a deoptimization whatever its inputs are. -/
def isDeoptimize : Instruction ι → Bool
  | deoptimize _ => true
  | _ => false

theorem published_subset_watched {i : Instruction ι} (hphi : i.isPhi = false) (hover : i.overlooked = false) :
    i.published ⊆ i.watched := by
  cases i with
  | invoke kind arguments otherInputs =>
    cases kind with
    | custom => cases hover
    | staticOrDirect | virtual | interface | unresolved | polymorphic =>
      exact subset_append_left arguments otherInputs
  | phi inputs => cases hphi
  | predicatedInstanceFieldGet defaultValue target => cases hover
  | _ => simp [published, watched, inputs]

theorem published_of_isConstructorFence {i : Instruction ι} (h : i.isConstructorFence = true) : i.published = [] := by
  cases i with
  | constructorFence targets => rfl
  | _ => cases h

end Instruction

variable [DecidableEq ι]

/-! ### The window of candidate fences -/

/-- The fences that can still be merged, and the merges made so far. -/
structure Window (ι : Type) where
  candidates : List ι := []
  merged : List (ι × ι) := []

namespace Window

/-- The merges of a window: all its fences go into the last one. -/
def merges (candidates : List ι) : List (ι × ι) :=
  match candidates.getLast? with
  | none => []
  | some target => (candidates.filter (target ≠ ·)).map (·, target)

def close (w : Window ι) : Window ι :=
  { candidates := [], merged := w.merged ++ merges w.candidates }

/-- The visitor merges at the instruction. -/
def Cuts (G : Graph ι β) (w : Window ι) (i : ι) : Prop :=
  (G.instruction i).isDeoptimize = true ∨
    ∃ t ∈ (G.instruction i).watched, ∃ f ∈ w.candidates, t ∈ (G.instruction f).inputs

instance (G : Graph ι β) (w : Window ι) (i : ι) : Decidable (w.Cuts G i) :=
  inferInstanceAs (Decidable (_ ∨ ∃ t ∈ (G.instruction i).watched, ∃ f ∈ w.candidates, t ∈ (G.instruction f).inputs))

def step (G : Graph ι β) (w : Window ι) (i : ι) : Window ι :=
  if (G.instruction i).isConstructorFence then { w with candidates := w.candidates ++ [i] }
  else if w.Cuts G i then w.close
  else w

/-- The window after the given instructions. -/
def after (G : Graph ι β) (l : List ι) : Window ι :=
  l.foldl (step G) {}

theorem after_snoc (G : Graph ι β) (l : List ι) (i : ι) : after G (l ++ [i]) = step G (after G l) i := by
  simp [after]

theorem step_cases (G : Graph ι β) (w : Window ι) (i : ι) :
    ((G.instruction i).isConstructorFence = true ∧ step G w i = { w with candidates := w.candidates ++ [i] }) ∨
    (w.Cuts G i ∧ step G w i = w.close) ∨ (¬w.Cuts G i ∧ step G w i = w) := by
  unfold step
  by_cases hf : (G.instruction i).isConstructorFence = true
  · exact Or.inl ⟨hf, if_pos hf⟩
  rw [if_neg hf]
  by_cases hc : w.Cuts G i
  · exact Or.inr (Or.inl ⟨hc, if_pos hc⟩)
  · exact Or.inr (Or.inr ⟨hc, if_neg hc⟩)

theorem mem_merges {candidates : List ι} {f g : ι} :
    (f, g) ∈ merges candidates ↔ candidates.getLast? = some g ∧ f ∈ candidates ∧ f ≠ g := by
  unfold merges
  cases candidates.getLast? with
  | none => simp
  | some target =>
    simp only [mem_map, mem_filter, decide_eq_true_eq, Prod.mk.injEq, Option.some.injEq]
    constructor
    · rintro ⟨f', ⟨hmem, hne⟩, rfl, rfl⟩
      exact ⟨rfl, hmem, hne.symm⟩
    · rintro ⟨rfl, hmem, hne⟩
      exact ⟨f, ⟨hmem, hne.symm⟩, rfl, rfl⟩

/-- The fence `f` is a candidate when the visitor comes to the fence `g`. -/
def Joins (G : Graph ι β) (l : List ι) (f g : ι) : Prop :=
  ∃ p q, l = p ++ g :: q ∧ (G.instruction g).isConstructorFence = true ∧ f ∈ (after G p).candidates

variable {G : Graph ι β} {l : List ι}

theorem Joins.snoc {f g : ι} (h : Joins G l f g) (i : ι) : Joins G (l ++ [i]) f g := by
  obtain ⟨p, q, rfl, hg, hf⟩ := h
  exact ⟨p, q ++ [i], by simp, hg, hf⟩

/-- What the window says about the instructions that have been visited. -/
structure Tracks (G : Graph ι β) (l : List ι) (w : Window ι) : Prop where
  sublist : w.candidates.Sublist l
  unpublished : ∀ f ∈ w.candidates, ∀ x, [f, x].Sublist l → (G.instruction x).overlooked = false →
    ∀ t ∈ (G.instruction f).inputs, t ∉ (G.instruction x).published
  joined : ∀ f g, [f, g].Sublist w.candidates → Joins G l f g
  merged : ∀ f g, (f, g) ∈ w.merged → Joins G l f g

variable {w : Window ι}

theorem Tracks.close (h : Tracks G l w) : Tracks G l w.close where
  sublist := nil_sublist l
  unpublished := fun _ hf => absurd hf not_mem_nil
  joined := fun _ _ hfg => absurd (hfg.subset mem_cons_self) not_mem_nil
  merged := by
    intro f g hfg
    rcases mem_append.mp hfg with hold | hnew
    · exact h.merged f g hold
    obtain ⟨hlast, hf, hne⟩ := mem_merges.mp hnew
    obtain ⟨init, hinit⟩ := getLast?_eq_some_iff.mp hlast
    apply h.joined f g
    rw [hinit] at hf ⊢
    have hf' : f ∈ init := (mem_append.mp hf).resolve_right (by simpa using hne)
    exact pair_sublist_snoc.mpr (Or.inr ⟨hf', rfl⟩)

/-- A fence is a new candidate. -/
theorem Tracks.push {i : ι} (h : Tracks G l (after G l)) (hi : i ∉ l)
    (hfence : (G.instruction i).isConstructorFence = true) :
    Tracks G (l ++ [i]) { after G l with candidates := (after G l).candidates ++ [i] } where
  sublist := h.sublist.append (List.Sublist.refl [i])
  unpublished := by
    intro f hf x hfx hx t ht
    rcases pair_sublist_snoc.mp hfx with hfx | ⟨hfl, rfl⟩
    · rcases mem_append.mp hf with hf | hf
      · exact h.unpublished f hf x hfx hx t ht
      · cases mem_singleton.mp hf
        exact absurd (hfx.subset mem_cons_self) hi
    · rw [Instruction.published_of_isConstructorFence hfence]
      exact not_mem_nil
  joined := by
    intro f g hfg
    rcases pair_sublist_snoc.mp hfg with hfg | ⟨hf, rfl⟩
    · exact (h.joined f g hfg).snoc i
    · exact ⟨l, [], rfl, hfence, hf⟩
  merged := fun f g hfg => (h.merged f g hfg).snoc i

/-- An instruction after which the window is as it was, or closed. -/
theorem Tracks.keep {i : ι} (h : Tracks G l w)
    (hkeep : ∀ f ∈ w.candidates, (G.instruction i).overlooked = false →
      ∀ t ∈ (G.instruction f).inputs, t ∉ (G.instruction i).published) : Tracks G (l ++ [i]) w where
  sublist := h.sublist.trans (sublist_append_left l [i])
  unpublished := by
    intro f hf x hfx hx t ht
    rcases pair_sublist_snoc.mp hfx with hfx | ⟨-, rfl⟩
    · exact h.unpublished f hf x hfx hx t ht
    · exact hkeep f hf hx t ht
  joined := fun f g hfg => (h.joined f g hfg).snoc i
  merged := fun f g hfg => (h.merged f g hfg).snoc i

theorem Tracks.step {i : ι} (h : Tracks G l (after G l)) (hi : i ∉ l)
    (hphi : (G.instruction i).isPhi = false) : Tracks G (l ++ [i]) (after G (l ++ [i])) := by
  rw [after_snoc]
  obtain ⟨hfence, heq⟩ | ⟨-, heq⟩ | ⟨hcuts, heq⟩ := step_cases G (after G l) i <;> rw [heq]
  · exact h.push hi hfence
  · exact h.close.keep fun _ hf => absurd hf not_mem_nil
  · apply h.keep
    intro f hf hover t ht hpub
    exact hcuts (Or.inr ⟨t, Instruction.published_subset_watched hphi hover hpub, f, hf, ht⟩)

theorem tracks_after (hl : l.Nodup) (hphi : ∀ i ∈ l, (G.instruction i).isPhi = false) : Tracks G l (after G l) := by
  induction l using reverseRecOn with
  | nil =>
    exact ⟨List.Sublist.refl _, fun _ hf => absurd hf not_mem_nil,
      fun _ _ hfg => absurd (hfg.subset mem_cons_self) not_mem_nil, fun _ _ hfg => absurd hfg not_mem_nil⟩
  | append_singleton l i ih =>
    have hl' := nodup_append.mp hl
    apply (ih hl'.1 fun j hj => hphi j (mem_append_left _ hj)).step
    · exact fun hi => hl'.2.2 i hi i mem_cons_self rfl
    · exact hphi i (mem_append_right _ mem_cons_self)

/-! ### A fence that has been joined is merged -/

/-- The fence `f` has gone into a fence after `x`, or the next merge puts it there. -/
def Pending (l : List ι) (f x : ι) (w : Window ι) : Prop :=
  (∃ g, (f, g) ∈ w.merged ∧ [f, x, g].Sublist l) ∨
    ∃ g, w.candidates.getLast? = some g ∧ f ∈ w.candidates ∧ f ≠ g ∧ [f, x, g].Sublist l

theorem Pending.close {f x : ι} (h : Pending l f x w) : ∃ g, (f, g) ∈ w.close.merged ∧ [f, x, g].Sublist l := by
  rcases h with ⟨g, hfg, hsub⟩ | ⟨g, hlast, hf, hne, hsub⟩
  · exact ⟨g, mem_append_left _ hfg, hsub⟩
  · exact ⟨g, mem_append_right _ (mem_merges.mpr ⟨hlast, hf, hne⟩), hsub⟩

omit [DecidableEq ι] in
theorem Pending.mono {f x : ι} (h : Pending l f x w) (i : ι) : Pending (l ++ [i]) f x w := by
  have happ := sublist_append_left l [i]
  rcases h with ⟨g, hfg, hsub⟩ | ⟨g, hlast, hf, hne, hsub⟩
  · exact Or.inl ⟨g, hfg, hsub.trans happ⟩
  · exact Or.inr ⟨g, hlast, hf, hne, hsub.trans happ⟩

omit [DecidableEq ι] in
theorem pending_push {f x i : ι} (hf : f ∈ w.candidates) (hfx : [f, x].Sublist l)
    (hi : i ∉ l) : Pending (l ++ [i]) f x { w with candidates := w.candidates ++ [i] } := by
  refine Or.inr ⟨i, getLast?_concat .., mem_append_left _ hf, ?_, hfx.append (List.Sublist.refl [i])⟩
  rintro rfl
  exact hi (hfx.subset mem_cons_self)

theorem Pending.step {f x i : ι} (h : Pending l f x w) (hi : i ∉ l) : Pending (l ++ [i]) f x (step G w i) := by
  obtain ⟨hfence, heq⟩ | ⟨-, heq⟩ | ⟨-, heq⟩ := step_cases G w i <;> rw [heq]
  · rcases h with ⟨g, hfg, hsub⟩ | ⟨g, -, hf, -, hsub⟩
    · exact Or.inl ⟨g, hfg, hsub.trans (sublist_append_left l [i])⟩
    · have hpre : [f, x].Sublist [f, x, g] := sublist_append_left [f, x] [g]
      exact pending_push hf (hpre.trans hsub) hi
  · obtain ⟨g, hfg, hsub⟩ := h.close
    exact Or.inl ⟨g, hfg, hsub.trans (sublist_append_left l [i])⟩
  · exact h.mono i

theorem Pending.after {l r : List ι} {f x : ι} (h : Pending l f x (after G l)) (hl : (l ++ r).Nodup) :
    Pending (l ++ r) f x (after G (l ++ r)) := by
  induction r using reverseRecOn with
  | nil => simpa using h
  | append_singleton r i ih =>
    rw [← append_assoc] at hl ⊢
    have hl' := nodup_append.mp hl
    rw [after_snoc]
    exact (ih hl'.1).step fun hi => hl'.2.2 i hi i mem_cons_self rfl

end Window

/-! ### A merge changes nothing but the two fences -/

theorem Graph.merge_phis (graph : Graph ι β) (target src : ι) : (graph.merge target src).phis = graph.phis := by
  unfold Graph.merge
  split <;> rfl

theorem Graph.merge_instruction (graph : Graph ι β) {target src i : ι} (hi : i ≠ target) :
    (graph.merge target src).instruction i = graph.instruction i := by
  unfold Graph.merge
  split
  · exact Function.update_of_ne hi _ _
  · rfl

variable {b : β}

theorem Graph.merge_instructions (graph : Graph ι β) {target src : ι} (hsrc : src ∉ graph.instructions b) :
    (graph.merge target src).instructions b = graph.instructions b := by
  unfold Graph.merge
  split
  · exact erase_of_not_mem hsrc
  · rfl

namespace Visitor

/-- What the merges into one fence leave unchanged, and the pairs they add. -/
theorem foldl_maybeMerge (target : ι) (fences : List ι) (v : Visitor ι β) :
    (fences.foldl (maybeMerge target) v).merged = v.merged ++ (fences.filter (target ≠ ·)).map (·, target) ∧
    (fences.foldl (maybeMerge target) v).graph.phis = v.graph.phis ∧
    (∀ i, i ≠ target → (fences.foldl (maybeMerge target) v).graph.instruction i = v.graph.instruction i) ∧
    ∀ b, (∀ f ∈ fences, f ∉ v.graph.instructions b) →
      (fences.foldl (maybeMerge target) v).graph.instructions b = v.graph.instructions b := by
  induction fences generalizing v with
  | nil => simp
  | cons f fences ih =>
    rw [foldl_cons]
    obtain ⟨hmerged, hphis, hinst, hinsts⟩ := ih (maybeMerge target v f)
    by_cases heq : target = f
    · have hsame : maybeMerge target v f = v := if_pos heq
      rw [hsame] at hmerged hphis hinst hinsts ⊢
      refine ⟨?_, hphis, hinst, fun b hb => hinsts b fun f' hf' => hb f' (mem_cons_of_mem f hf')⟩
      rw [hmerged, filter_cons_of_neg (by simpa using heq)]
    have hmerge : maybeMerge target v f =
        { v with graph := v.graph.merge target f, merged := v.merged ++ [(f, target)] } := if_neg heq
    rw [hmerge] at hmerged hphis hinst hinsts ⊢
    refine ⟨?_, hphis.trans (v.graph.merge_phis target f), ?_, ?_⟩
    · rw [hmerged, filter_cons_of_pos (by simpa using heq), map_cons, append_assoc]
      rfl
    · exact fun i hi => (hinst i hi).trans (v.graph.merge_instruction hi)
    · intro b hb
      have hkeep : (v.graph.merge target f).instructions b = v.graph.instructions b :=
        v.graph.merge_instructions (hb f mem_cons_self)
      refine (hinsts b ?_).trans hkeep
      intro f' hf'
      rw [hkeep]
      exact hb f' (mem_cons_of_mem f hf')

/-! ### The visitor follows the window -/

/-- The visitor `v` has come from `v₀` over the instructions `l` of the block `b`, and `w` is its window. -/
structure Follows (G : Graph ι β) (b : β) (v₀ : Visitor ι β) (l : List ι) (v : Visitor ι β) (w : Window ι) : Prop where
  candidateFences : v.candidateFences = w.candidates
  candidateFenceTargets : ∀ t, t ∈ v.candidateFenceTargets ↔ ∃ f ∈ w.candidates, t ∈ (G.instruction f).inputs
  merged : v.merged = v₀.merged ++ w.merged
  visited : ∀ f ∈ w.candidates, f ∈ l
  unchanged : ∀ i ∈ G.instructions b, i ∉ l ∨ i ∈ w.candidates → v.graph.instruction i = G.instruction i
  phis : v.graph.phis = v₀.graph.phis
  instruction_frame : ∀ i, i ∉ G.instructions b → v.graph.instruction i = v₀.graph.instruction i
  instructions_frame : ∀ c, (∀ i ∈ G.instructions b, i ∉ v₀.graph.instructions c) →
    v.graph.instructions c = v₀.graph.instructions c

variable {G : Graph ι β} {b : β} {v₀ v : Visitor ι β} {l : List ι} {w : Window ι}

/-- The visitor merges its candidates as the window closes. -/
theorem Follows.mergeCandidateFences (h : Follows G b v₀ l v w) (hl : ∀ i ∈ l, i ∈ G.instructions b) :
    Follows G b v₀ l v.mergeCandidateFences w.close := by
  unfold Visitor.mergeCandidateFences
  rw [h.candidateFences]
  cases hlast : w.candidates.getLast? with
  | none =>
    have hnil : w.candidates = [] := getLast?_eq_none_iff.mp hlast
    have hclose : w.close = w := by
      unfold Window.close Window.merges
      rw [hnil]
      cases w
      simp_all
    rw [hclose]
    exact h
  | some target =>
    obtain ⟨hmerged, hphis, hinst, hinsts⟩ := foldl_maybeMerge target w.candidates v
    have htarget : target ∈ G.instructions b := hl _ (h.visited _ (mem_of_getLast? hlast))
    exact
      { candidateFences := rfl
        candidateFenceTargets := fun t => by simp [Window.close]
        merged := by
          rw [show w.close.merged = w.merged ++ Window.merges w.candidates from rfl, ← append_assoc, ← h.merged]
          refine hmerged.trans ?_
          unfold Window.merges
          rw [hlast]
        visited := fun f hf => absurd hf not_mem_nil
        unchanged := by
          rintro i hi (hnot | hmem)
          · have hne : i ≠ target := fun heq => hnot (heq ▸ h.visited _ (mem_of_getLast? hlast))
            exact (hinst i hne).trans (h.unchanged i hi (Or.inl hnot))
          · exact absurd hmem not_mem_nil
        phis := hphis.trans h.phis
        instruction_frame := fun i hi =>
          (hinst i fun heq => hi (heq ▸ htarget)).trans (h.instruction_frame i hi)
        instructions_frame := by
          intro c hc
          have hold := h.instructions_frame c hc
          refine (hinsts c ?_).trans hold
          intro f hf
          rw [hold]
          exact hc f (hl f (h.visited f hf)) }

omit [DecidableEq ι] in
theorem Follows.keep (h : Follows G b v₀ l v w) (i : ι) : Follows G b v₀ (l ++ [i]) v w :=
  { h with
    visited := fun f hf => mem_append_left _ (h.visited f hf)
    unchanged := by
      rintro j hj (hnot | hmem)
      · exact h.unchanged j hj (Or.inl fun hmem => hnot (mem_append_left _ hmem))
      · exact h.unchanged j hj (Or.inr hmem) }

omit [DecidableEq ι] in
/-- The visitor takes a fence as the window does. -/
theorem Follows.push {i : ι} (h : Follows G b v₀ l v w) (hi : i ∈ G.instructions b) (hnew : i ∉ l) :
    Follows G b v₀ (l ++ [i]) (v.visitConstructorFence i) { w with candidates := w.candidates ++ [i] } := by
  have hinst : v.graph.instruction i = G.instruction i := h.unchanged i hi (Or.inl hnew)
  exact
    { candidateFences := congrArg (· ++ [i]) h.candidateFences
      candidateFenceTargets := by
        intro t
        have ht : t ∈ (v.visitConstructorFence i).candidateFenceTargets ↔
            t ∈ v.candidateFenceTargets ∨ t ∈ (G.instruction i).inputs := by
          rw [← hinst]
          exact mem_append
        rw [ht, h.candidateFenceTargets t]
        constructor
        · rintro (⟨f, hf, hft⟩ | hit)
          · exact ⟨f, mem_append_left _ hf, hft⟩
          · exact ⟨i, mem_append_right _ mem_cons_self, hit⟩
        · rintro ⟨f, hf, hft⟩
          rcases mem_append.mp hf with hf | hf
          · exact Or.inl ⟨f, hf, hft⟩
          · cases mem_singleton.mp hf
            exact Or.inr hft
      merged := h.merged
      visited := by
        intro f hf
        rcases mem_append.mp hf with hf | hf
        · exact mem_append_left _ (h.visited f hf)
        · exact mem_append_right _ hf
      unchanged := by
        rintro j hj (hnot | hmem)
        · exact h.unchanged j hj (Or.inl fun hjl => hnot (mem_append_left _ hjl))
        · rcases mem_append.mp hmem with hmem | hmem
          · exact h.unchanged j hj (Or.inr hmem)
          · cases mem_singleton.mp hmem
            exact hinst
      phis := h.phis
      instruction_frame := h.instruction_frame
      instructions_frame := h.instructions_frame }

/-- The visitor merges at the instruction. -/
def Stops (v : Visitor ι β) (inst : Instruction ι) : Prop :=
  inst.isDeoptimize = true ∨ ∃ t ∈ inst.watched, t ∈ v.candidateFenceTargets

variable {inst : Instruction ι} {v : Visitor ι β}

theorem ite_stops {c : Bool} (hc : c = true ↔ v.Stops inst) :
    (v.Stops inst ∧ (if c then v.mergeCandidateFences else v) = v.mergeCandidateFences) ∨
      (¬v.Stops inst ∧ (if c then v.mergeCandidateFences else v) = v) := by
  by_cases h : c = true
  · exact Or.inl ⟨hc.mp h, if_pos h⟩
  · exact Or.inr ⟨fun hs => h (hc.mpr hs), if_neg h⟩

theorem hasInteresting_iff_stops (hw : inst.watched = inst.inputs)
    (hd : inst.isDeoptimize = false) : v.hasInterestingPublishTargetAsInput inst = true ↔ v.Stops inst := by
  unfold hasInterestingPublishTargetAsInput isInterestingPublishTarget Stops
  simp [hw, hd]

theorem isInteresting_iff_stops {value : ι} (hw : inst.watched = [value])
    (hd : inst.isDeoptimize = false) : v.isInterestingPublishTarget value = true ↔ v.Stops inst := by
  unfold isInterestingPublishTarget Stops
  simp [hw, hd]

/-- What the visitor does at an instruction: take a fence, merge the candidates, or nothing. -/
theorem accept_cases (v : Visitor ι β) (i : ι) :
    ((v.graph.instruction i).isConstructorFence = true ∧ v.accept i = v.visitConstructorFence i) ∨
    ((v.graph.instruction i).isConstructorFence = false ∧
      ((v.Stops (v.graph.instruction i) ∧ v.accept i = v.mergeCandidateFences) ∨
       (¬v.Stops (v.graph.instruction i) ∧ v.accept i = v))) := by
  unfold accept
  cases hinst : v.graph.instruction i with
  | constructorFence targets => exact Or.inl ⟨rfl, rfl⟩
  | boundType _ | nullCheck _ | select _ _ _ | clinitCheck _ | unresolvedInstanceFieldGet _
  | unresolvedInstanceFieldSet _ _ | unresolvedStaticFieldGet | unresolvedStaticFieldSet _ =>
    exact Or.inr ⟨rfl, ite_stops (hasInteresting_iff_stops rfl rfl)⟩
  | instanceFieldSet _ _ | staticFieldSet _ _ | arraySet _ _ _ =>
    exact Or.inr ⟨rfl, ite_stops (isInteresting_iff_stops rfl rfl)⟩
  | deoptimize _ => exact Or.inr ⟨rfl, Or.inl ⟨Or.inl rfl, rfl⟩⟩
  | invoke kind arguments otherInputs =>
    refine Or.inr ⟨rfl, ?_⟩
    cases kind with
    | custom => exact Or.inr ⟨by simp [Stops, Instruction.isDeoptimize, Instruction.watched], rfl⟩
    | staticOrDirect | virtual | interface | unresolved | polymorphic =>
      exact ite_stops (hasInteresting_iff_stops rfl rfl)
  | predicatedInstanceFieldGet _ _ | phi _ | other _ =>
    exact Or.inr ⟨rfl, Or.inr ⟨by simp [Stops, Instruction.isDeoptimize, Instruction.watched], rfl⟩⟩

omit [DecidableEq ι] in
theorem Follows.stops_iff {i : ι} (h : Follows G b v₀ l v w) (hinst : v.graph.instruction i = G.instruction i) :
    v.Stops (v.graph.instruction i) ↔ w.Cuts G i := by
  unfold Stops Window.Cuts
  rw [hinst]
  simp only [h.candidateFenceTargets]

theorem Follows.accept {i : ι} (h : Follows G b v₀ l v w) (hl : ∀ j ∈ l, j ∈ G.instructions b)
    (hi : i ∈ G.instructions b) (hnew : i ∉ l) : Follows G b v₀ (l ++ [i]) (v.accept i) (w.step G i) := by
  have hinst : v.graph.instruction i = G.instruction i := h.unchanged i hi (Or.inl hnew)
  unfold Window.step
  obtain ⟨hfence, heq⟩ | ⟨hfence, ⟨hstops, heq⟩ | ⟨hstops, heq⟩⟩ := v.accept_cases i
  · rw [heq, if_pos (hinst ▸ hfence)]
    exact h.push hi hnew
  · rw [heq, if_neg (by rw [← hinst, hfence]; exact Bool.false_ne_true), if_pos ((h.stops_iff hinst).mp hstops)]
    exact (h.mergeCandidateFences hl).keep i
  · rw [heq, if_neg (by rw [← hinst, hfence]; exact Bool.false_ne_true),
      if_neg fun hc => hstops ((h.stops_iff hinst).mpr hc)]
    exact h.keep i

theorem Follows.foldl_accept {r : List ι} (h : Follows G b v₀ l v w) (hsub : ∀ j ∈ l ++ r, j ∈ G.instructions b)
    (hnodup : (l ++ r).Nodup) : Follows G b v₀ (l ++ r) (r.foldl Visitor.accept v) (r.foldl (Window.step G) w) := by
  induction r generalizing l v w with
  | nil => simpa using h
  | cons i r ih =>
    rw [append_cons] at hsub hnodup ⊢
    have hnew : i ∉ l := fun hi => (nodup_append.mp (nodup_append.mp hnodup).1).2.2 i hi i mem_cons_self rfl
    apply ih _ hsub hnodup
    exact h.accept (fun j hj => hsub j (by simp [hj])) (hsub i (by simp)) hnew

/-! ### Blocks and runs -/

theorem foldl_accept_phis {phis : List ι} (h : ∀ i ∈ phis, (v.graph.instruction i).isPhi = true) :
    phis.foldl Visitor.accept v = v := by
  induction phis with
  | nil => rfl
  | cons i phis ih =>
    have hi : v.accept i = v := by
      have hphi := h i mem_cons_self
      unfold Visitor.accept
      cases hinst : v.graph.instruction i with
      | phi inputs => rfl
      | _ => simp [hinst, Instruction.isPhi] at hphi
    rw [foldl_cons, hi]
    exact ih fun j hj => h j (mem_cons_of_mem i hj)

/-- The visitor `v` comes to the block `b` with no candidate fences, and no earlier block has changed this one. -/
structure Arrives (G : Graph ι β) (b : β) (v : Visitor ι β) : Prop where
  candidateFences : v.candidateFences = []
  candidateFenceTargets : v.candidateFenceTargets = []
  instruction : ∀ i ∈ G.instructions b, v.graph.instruction i = G.instruction i
  instructions : v.graph.instructions b = G.instructions b

omit [DecidableEq ι] in
theorem Arrives.follows (h : Arrives G b v) : Follows G b v [] v {} where
  candidateFences := h.candidateFences
  candidateFenceTargets := fun t => by simp [h.candidateFenceTargets]
  merged := (append_nil _).symm
  visited := fun f hf => absurd hf not_mem_nil
  unchanged := fun i hi _ => h.instruction i hi
  phis := rfl
  instruction_frame := fun _ _ => rfl
  instructions_frame := fun _ _ => rfl

def blockMerges (G : Graph ι β) (b : β) : List (ι × ι) :=
  (Window.after G (G.instructions b)).close.merged

theorem Arrives.visitBasicBlock (h : Arrives G b v) :
    Follows G b v (G.instructions b) (v.visitBasicBlock b) (Window.after G (G.instructions b)).close := by
  unfold Visitor.visitBasicBlock
  rw [foldl_accept_phis fun i hi => v.graph.isPhi_of_mem hi, h.instructions]
  apply Follows.mergeCandidateFences _ fun i hi => hi
  exact h.follows.foldl_accept (fun i hi => hi) (G.nodup_instructions b)

/-- The visitor between two blocks. -/
structure Visited (G : Graph ι β) (done : List β) (v : Visitor ι β) : Prop where
  arrives : ∀ b, b ∉ done → Arrives G b v
  candidateFences : v.candidateFences = []
  candidateFenceTargets : v.candidateFenceTargets = []
  merged : v.merged = done.flatMap (blockMerges G)

/-- Visiting one more block merges the fences of that block. -/
theorem Visited.step {done : List β} (h : Visited G done v) (hb : b ∉ done) :
    Visited G (done ++ [b]) (v.visitBasicBlock b) := by
  have hfollows := (h.arrives b hb).visitBasicBlock
  have htargets : (v.visitBasicBlock b).candidateFenceTargets = [] := by
    apply eq_nil_iff_forall_not_mem.mpr
    intro t ht
    obtain ⟨f, hf, -⟩ := (hfollows.candidateFenceTargets t).mp ht
    exact not_mem_nil hf
  refine ⟨?_, hfollows.candidateFences, htargets, ?_⟩
  · intro c hc
    have hcdone : c ∉ done := fun hmem => hc (mem_append_left _ hmem)
    have hcb : c ≠ b := fun heq => hc (mem_append_right _ (mem_singleton.mpr heq))
    have hold := h.arrives c hcdone
    have hapart : ∀ i ∈ G.instructions c, i ∉ G.instructions b := fun i hic hib => hcb (G.block_unique hic hib)
    refine ⟨hfollows.candidateFences, htargets, ?_, ?_⟩
    · intro i hi
      exact (hfollows.instruction_frame i (hapart i hi)).trans (hold.instruction i hi)
    · refine (hfollows.instructions_frame c ?_).trans hold.instructions
      rw [hold.instructions]
      exact fun i hib hic => hapart i hic hib
  · rw [hfollows.merged, h.merged, flatMap_append, flatMap_singleton]
    rfl

theorem visited_foldl {blocks : List β} (hblocks : blocks.Nodup) :
    Visited G blocks (blocks.foldl Visitor.visitBasicBlock { graph := G }) := by
  induction blocks using reverseRecOn with
  | nil => exact ⟨fun b _ => ⟨rfl, rfl, fun _ _ => rfl, rfl⟩, rfl, rfl, rfl⟩
  | append_singleton blocks b ih =>
    have hsplit := nodup_append.mp hblocks
    rw [foldl_append, foldl_cons, foldl_nil]
    exact (ih hsplit.1).step fun hb => hsplit.2.2 b hb b mem_cons_self rfl

end Visitor

open Visitor

theorem run_merged (G : Graph ι β) : (run G).merged = G.reversePostOrder.flatMap (blockMerges G) :=
  (visited_foldl G.nodup_reversePostOrder).merged

variable {G : Graph ι β}

theorem tracks_block (G : Graph ι β) (b : β) :
    Window.Tracks G (G.instructions b) (Window.after G (G.instructions b)).close :=
  (Window.tracks_after (G.nodup_instructions b) fun _ hi => G.not_isPhi_of_mem hi).close

/-- At a constructor fence of the block none of the instructions that the visitor overlooks has published a target
    of a fence in the window since that fence. -/
def Guarded (G : Graph ι β) (b : β) : Prop :=
  ∀ p g q, G.instructions b = p ++ g :: q → (G.instruction g).isConstructorFence = true →
    ∀ f ∈ (Window.after G p).candidates, ∀ x, [f, x].Sublist p →
      (G.instruction x).overlooked = true → ∀ t ∈ (G.instruction f).inputs, t ∉ (G.instruction x).published

theorem not_published_of_guarded (hG : Guarded G b) {f g x : ι}
    (hmerged : (f, g) ∈ blockMerges G b) (hsub : [f, x, g].Sublist (G.instructions b)) {t : ι}
    (ht : t ∈ (G.instruction f).inputs) : t ∉ (G.instruction x).published := by
  obtain ⟨p, q, hcut, hg, hf⟩ := (tracks_block G b).merged f g hmerged
  have hfx : [f, x].Sublist p := pair_sublist_of_triple (G.nodup_instructions b) hcut hsub
  by_cases hover : (G.instruction x).overlooked = true
  · exact hG p g q hcut hg f hf x hfx hover t ht
  have hp : ∀ i ∈ p, (G.instruction i).isPhi = false := fun i hi => G.not_isPhi_of_mem (hcut ▸ mem_append_left _ hi)
  have hnodup : p.Nodup := (nodup_append.mp (hcut ▸ G.nodup_instructions b)).1
  exact (Window.tracks_after hnodup hp).unpublished f hf x hfx (Bool.not_eq_true _ ▸ hover) t ht

/-- A candidate fence at another fence is merged, into that fence or a later one. -/
theorem exists_blockMerges {f g x : ι} (hcut : G.instructions b = p ++ g :: q)
    (hg : (G.instruction g).isConstructorFence = true) (hf : f ∈ (Window.after G p).candidates)
    (hfx : [f, x].Sublist p) : ∃ g', (f, g') ∈ blockMerges G b ∧ [f, x, g'].Sublist (G.instructions b) := by
  have hcut' : G.instructions b = (p ++ [g]) ++ q := by rw [hcut, append_cons]
  have hnodup := G.nodup_instructions b
  have hgp : g ∉ p := fun hmem => (nodup_append.mp (hcut ▸ hnodup)).2.2 g hmem g mem_cons_self rfl
  have hstart : Window.Pending (p ++ [g]) f x (Window.after G (p ++ [g])) := by
    rw [Window.after_snoc, Window.step, if_pos hg]
    exact Window.pending_push hf hfx hgp
  unfold blockMerges
  rw [hcut'] at hnodup ⊢
  exact (hstart.after hnodup).close

theorem mem_of_blockMerges {f g : ι} (h : (f, g) ∈ blockMerges G b) : g ∈ G.instructions b := by
  obtain ⟨p, q, hcut, -⟩ := (tracks_block G b).merged f g h
  exact hcut ▸ mem_append_right p mem_cons_self

/-- If the pass merges a fence into a later one, no instruction between the two publishes a target of the first,
    exactly if every block that it visits is guarded. -/
theorem merged_not_published_iff (G : Graph ι β) :
    (∀ f g, (f, g) ∈ (run G).merged → ∀ b x, [f, x, g].Sublist (G.instructions b) →
      ∀ t ∈ (G.instruction f).inputs, t ∉ (G.instruction x).published) ↔
    ∀ b ∈ G.reversePostOrder, Guarded G b := by
  rw [run_merged]
  constructor
  · intro h b hb p g q hcut hg f hf x hfx _ t ht
    obtain ⟨g', hmerged, hsub⟩ := exists_blockMerges hcut hg hf hfx
    exact h f g' (mem_flatMap.mpr ⟨b, hb, hmerged⟩) b x hsub t ht
  · intro h f g hmerged c x hsub t ht
    obtain ⟨b, hb, hmerged⟩ := mem_flatMap.mp hmerged
    have hc : c = b := G.block_unique (hsub.subset (by simp)) (mem_of_blockMerges hmerged)
    subst hc
    exact not_published_of_guarded (h c hb) hmerged hsub ht

/-- A block with a fence for the object `0`, a custom call with one argument, and a fence for the object `1`. -/
def customCall (argument : Nat) : Graph Nat Unit where
  instruction
    | 2 => .constructorFence [0]
    | 3 => .invoke .custom [argument] []
    | 4 => .constructorFence [1]
    | _ => .other []
  phis := fun _ => []
  instructions := fun _ => [0, 1, 2, 3, 4]
  reversePostOrder := [()]
  isPhi_of_mem := fun hi => absurd hi not_mem_nil
  not_isPhi_of_mem := by
    intro b i hi
    simp only [mem_cons, not_mem_nil, or_false] at hi
    rcases hi with rfl | rfl | rfl | rfl | rfl <;> rfl
  nodup_instructions := fun _ => by decide
  block_unique := fun _ _ => rfl
  nodup_reversePostOrder := by decide

/-- A call that does not get `0` may stand between the two fences. -/
theorem merged_not_published_iff_call : (run (customCall 1)).merged = [(2, 4)] ∧
    ∀ x, [2, x, 4].Sublist ((customCall 1).instructions ()) → 0 ∉ ((customCall 1).instruction x).published := by
  have hall : ∀ f ∈ [0, 1, 2, 3, 4], ∀ x ∈ [0, 1, 2, 3, 4], [f, x].Sublist [0, 1, 2, 3, 4] →
      ((customCall 1).instruction x).overlooked = true →
      ∀ t ∈ ((customCall 1).instruction f).inputs, t ∉ ((customCall 1).instruction x).published := by decide
  have hguarded : ∀ b ∈ (customCall 1).reversePostOrder, Guarded (customCall 1) b := by
    intro b _ p g q hcut _ f _ x hfx
    have hsub : [f, x].Sublist ((customCall 1).instructions b) := by
      rw [hcut]
      exact hfx.trans (sublist_append_left p _)
    exact hall f (hsub.subset (by simp)) x (hsub.subset (by simp)) hsub
  have hmerged : (run (customCall 1)).merged = [(2, 4)] := by decide
  refine ⟨hmerged, fun x hx => ?_⟩
  exact (merged_not_published_iff (customCall 1)).mpr hguarded 2 4 (by rw [hmerged]; simp) () x hx 0 (by decide)

/-- The fence for `0` goes behind the call that gets it. -/
theorem customCall_merged :
    (run (customCall 0)).merged = [(2, 4)] ∧ [2, 3, 4].Sublist ((customCall 0).instructions ()) ∧
      0 ∈ ((customCall 0).instruction 2).inputs ∧ 0 ∈ ((customCall 0).instruction 3).published := by
  refine ⟨by decide, by decide, by decide, by decide⟩

end Art.ConstructorFence
