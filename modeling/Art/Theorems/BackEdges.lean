import Art.Compiler.Graph
import Mathlib.Algebra.Order.BigOperators.Group.Finset
import Mathlib.Data.Fintype.BigOperators
import Mathlib.Data.List.Chain
import Mathlib.Logic.Relation

/-! `FindBackEdges`: a depth-first search that ends with the blocks that can be reached and with back edges whose
    removal leaves no cycle. -/

namespace Art.HGraph
open List Function Bool

open Relation

variable {n : Nat}

/-- An edge that is not a back edge. -/
def Forward (g : HGraph n) (back : Fin n → List (Fin n)) (u v : Fin n) : Prop := v ∈ g.successors u ∧ u ∉ back v

/-- What `FindBackEdges` finds. -/
structure BackEdgesOk (g : HGraph n) (visited : Fin n → Bool) (back : Fin n → List (Fin n)) : Prop where
  entry : visited g.entryBlock = true
  closed : ∀ {u v}, visited u = true → v ∈ g.successors u → visited v = true
  reach : ∀ {v}, visited v = true → ReflTransGen (Forward g back) g.entryBlock v
  /-- The blocks can be numbered against the forward edges. -/
  rank : ∃ finish : Fin n → Nat, ∀ {u v}, visited u = true → Forward g back u v → finish v < finish u
  mem : ∀ {u h}, u ∈ back h → h ∈ g.successors u ∧ visited u = true
  path : ∀ {u h}, u ∈ back h → ReflTransGen (Forward g back) h u
  count : ∀ {u h}, u ∈ back h → (back h).count u = (g.successors u).count h

/-! ### The search -/

def followed (g : HGraph n) (visits : Fin n → Nat) (u : Fin n) : List (Fin n) := (g.successors u).take (visits u)

/-- The edge was followed and is not a back edge. -/
def BackEdgeState.Tried (g : HGraph n) (s : BackEdgeState n) (u t : Fin n) : Prop :=
  t ∈ followed g s.successorsVisited u ∧ u ∉ s.backEdges t

def BackEdgeState.Finished (s : BackEdgeState n) (v : Fin n) : Prop := s.visited v = true ∧ s.visiting v = false

open BackEdgeState

/-- The invariant of the search: the worklist is the path to the current block. -/
structure SearchInv (g : HGraph n) (s : BackEdgeState n) : Prop where
  entry : s.visited g.entryBlock = true
  visited_le : ∀ u, s.successorsVisited u ≤ (g.successors u).length
  unvisited : ∀ {u}, s.visited u = false → s.successorsVisited u = 0
  finished : ∀ {u}, s.Finished u → s.successorsVisited u = (g.successors u).length
  visiting_iff : ∀ u, s.visiting u = true ↔ u ∈ s.worklist
  visited_of_visiting : ∀ {u}, s.visiting u = true → s.visited u = true
  nodup : s.worklist.Nodup
  chain : s.worklist.IsChain fun b a => s.Tried g a b
  target : ∀ {u t}, t ∈ followed g s.successorsVisited u → s.visited t = true
  reach : ∀ {v}, s.visited v = true → ReflTransGen (s.Tried g) g.entryBlock v
  path : ∀ {u h}, u ∈ s.backEdges h → ReflTransGen (s.Tried g) h u
  mem : ∀ {u h}, u ∈ s.backEdges h → h ∈ followed g s.successorsVisited u
  count : ∀ {u h}, u ∈ s.backEdges h → (s.backEdges h).count u = (followed g s.successorsVisited u).count h
  /-- The target of a back edge is left after its source. -/
  below : ∀ {u h}, u ∈ s.backEdges h → u ∈ s.worklist → h = u ∨ [u, h].Sublist s.worklist
  /-- The target of any other edge is left before its source. -/
  above : ∀ {u t}, s.Tried g u t → s.Finished t ∨ [t, u].Sublist s.worklist
  rank : ∃ (finish : Fin n → Nat) (bound : Nat), (∀ {v}, s.Finished v → finish v < bound) ∧
    ∀ {u t}, s.Finished u → s.Tried g u t → s.Finished t ∧ finish t < finish u

variable {g : HGraph n} {s s' : BackEdgeState n} {u v h t current successor : Fin n} {rest : List (Fin n)}

theorem SearchInv.not_above (hinv : SearchInv g s) (hw : s.worklist = current :: rest) :
    ¬[t, current].Sublist s.worklist := by
  have hnodup := hinv.nodup
  rw [hw] at hnodup ⊢
  intro hsub
  have hnot := (nodup_cons.mp hnodup).1
  cases hsub with
  | cons _ hsub => exact hnot (hsub.subset (mem_cons_of_mem _ mem_cons_self))
  | cons_cons _ hsub => exact hnot (hsub.subset mem_cons_self)

theorem SearchInv.finished_of_tried (hinv : SearchInv g s) (hw : s.worklist = current :: rest)
    (ht : s.Tried g current t) :
    s.Finished t := (hinv.above ht).resolve_right (hinv.not_above hw)

theorem reflTransGen_of_isChain {α : Type} {R : α → α → Prop} {c x : α} {l : List α}
    (h : (c :: l).IsChain fun b a => R a b) (hx : x ∈ c :: l) : ReflTransGen R x c := by
  induction l generalizing c with
  | nil =>
    cases mem_singleton.mp hx
    exact .refl
  | cons a l ih =>
    rw [isChain_cons_cons] at h
    rcases mem_cons.mp hx with rfl | hx
    · exact .refl
    · exact (ih h.2 hx).tail h.1

/-- A block whose successors are all visited leaves the path. -/
theorem SearchInv.pop (hinv : SearchInv g s) (hw : s.worklist = current :: rest)
    (hall : (g.successors current)[s.successorsVisited current]? = none) :
    SearchInv g { s with visiting := update s.visiting current false, worklist := rest } := by
  have hvisit : s.visiting current = true := (hinv.visiting_iff current).mpr (hw ▸ mem_cons_self)
  have hnodup := hinv.nodup
  have hchain := hinv.chain
  rw [hw] at hnodup hchain
  obtain ⟨hnot, hnodup⟩ := nodup_cons.mp hnodup
  have hlen : s.successorsVisited current = (g.successors current).length :=
    Nat.le_antisymm (hinv.visited_le current) (getElem?_eq_none_iff.mp hall)
  have hfin : ∀ {v}, BackEdgeState.Finished { s with visiting := update s.visiting current false, worklist := rest } v ↔
      v = current ∨ s.Finished v := by
    intro v
    by_cases heq : v = current
    · subst heq
      simp [BackEdgeState.Finished, hinv.visited_of_visiting hvisit]
    · simp [BackEdgeState.Finished, heq]
  refine { hinv with
    nodup := hnodup, chain := hchain.tail, finished := ?finished, visiting_iff := ?visiting_iff
    visited_of_visiting := ?visited_of_visiting, below := ?below, above := ?above, rank := ?rank }
  case finished =>
    intro u hu
    rcases hfin.mp hu with rfl | hu
    · exact hlen
    · exact hinv.finished hu
  case visiting_iff =>
    intro u
    by_cases heq : u = current
    · subst heq
      simp [hnot]
    · simp [heq, hinv.visiting_iff, hw]
  case visited_of_visiting =>
    intro u hu
    by_cases heq : u = current
    · rw [heq]
      exact hinv.visited_of_visiting hvisit
    · simp only [update_of_ne heq] at hu
      exact hinv.visited_of_visiting hu
  case below =>
    intro u h hu hmem
    have hne : u ≠ current := ne_of_mem_of_not_mem hmem hnot
    refine (hinv.below hu (hw ▸ mem_cons_of_mem _ hmem)).imp_right fun hsub => ?_
    rw [hw] at hsub
    cases hsub with
    | cons _ hsub => exact hsub
    | cons_cons _ hsub => exact absurd rfl hne
  case above =>
    intro u t ht
    rcases hinv.above ht with hdone | hsub
    · exact .inl (hfin.mpr (.inr hdone))
    rw [hw] at hsub
    cases hsub with
    | cons _ hsub => exact .inr hsub
    | cons_cons _ hsub => exact .inl (hfin.mpr (.inl rfl))
  case rank =>
    obtain ⟨finish, bound, hbound, hrank⟩ := hinv.rank
    have hother : ∀ {v}, s.Finished v → v ≠ current := by
      rintro v hv rfl
      exact absurd (hv.2.symm.trans hvisit) false_ne_true
    refine ⟨update finish current bound, bound + 1, fun {v} hv => ?_, fun {u t} hu ht => ?_⟩
    · rcases hfin.mp hv with rfl | hv
      · simp
      · rw [update_of_ne (hother hv)]
        exact Nat.lt_succ_of_lt (hbound hv)
    · rcases hfin.mp hu with rfl | hu
      · have hdone := hinv.finished_of_tried hw ht
        rw [update_self, update_of_ne (hother hdone)]
        exact ⟨hfin.mpr (.inr hdone), hbound hdone⟩
      · obtain ⟨hdone, hlt⟩ := hrank hu ht
        rw [update_of_ne (hother hu), update_of_ne (hother hdone)]
        exact ⟨hfin.mpr (.inr hdone), hlt⟩

/-! An edge of the top is followed. -/

section Follow

variable {visits : Fin n → Nat} (hnext : (g.successors current)[visits current]? = some successor)

include hnext in
theorem followed_self : followed g (update visits current (visits current + 1)) current =
    followed g visits current ++ [successor] := by
  rw [followed, update_self, take_add_one, hnext]
  rfl

theorem followed_of_ne (hne : u ≠ current) :
    followed g (update visits current (visits current + 1)) u = followed g visits u := by
  rw [followed, update_of_ne hne]
  rfl

include hnext

theorem mem_followed : t ∈ followed g (update visits current (visits current + 1)) u ↔
    t ∈ followed g visits u ∨ u = current ∧ t = successor := by
  by_cases heq : u = current
  · subst heq
    rw [followed_self hnext]
    simp
  · rw [followed_of_ne heq]
    simp [heq]

theorem follow_le (hle : ∀ u, visits u ≤ (g.successors u).length) (u : Fin n) :
    update visits current (visits current + 1) u ≤ (g.successors u).length := by
  by_cases heq : u = current
  · subst heq
    rw [update_self]
    exact (List.getElem?_eq_some_iff.mp hnext).1
  · rw [update_of_ne heq]
    exact hle u

end Follow

section FollowSearch

variable (hinv : SearchInv g s) (hw : s.worklist = current :: rest)
  (hnext : (g.successors current)[s.successorsVisited current]? = some successor)
  (hs : s'.successorsVisited = update s.successorsVisited current (s.successorsVisited current + 1))

include hnext hs

omit hnext in
include hinv hw in
theorem follow_unvisited (hu : s.visited u = false) : s'.successorsVisited u = 0 := by
  have hcur : s.visiting current = true := (hinv.visiting_iff current).mpr (hw ▸ mem_cons_self)
  have hne : u ≠ current := by
    rintro rfl
    exact absurd (hu.symm.trans (hinv.visited_of_visiting hcur)) false_ne_true
  rw [hs, update_of_ne hne]
  exact hinv.unvisited hu

omit hnext in
include hinv hw in
theorem follow_finished (hu : s.Finished u) : u ≠ current ∧ s'.successorsVisited u = (g.successors u).length := by
  have hcur : s.visiting current = true := (hinv.visiting_iff current).mpr (hw ▸ mem_cons_self)
  have hne : u ≠ current := by
    rintro rfl
    exact absurd (hu.2.symm.trans hcur) false_ne_true
  rw [hs, update_of_ne hne]
  exact ⟨hne, hinv.finished hu⟩

theorem tried_forward (hbe : s'.backEdges = s.backEdges) (hnot : current ∉ s.backEdges successor) :
    s'.Tried g u t ↔ s.Tried g u t ∨ u = current ∧ t = successor := by
  rw [BackEdgeState.Tried, BackEdgeState.Tried, hs, mem_followed hnext, hbe]
  constructor
  · rintro ⟨hf | heq, hb⟩
    · exact .inl ⟨hf, hb⟩
    · exact .inr heq
  · rintro (⟨hf, hb⟩ | ⟨rfl, rfl⟩)
    · exact ⟨.inl hf, hb⟩
    · exact ⟨.inr ⟨rfl, rfl⟩, hnot⟩

include hinv in
theorem follow_count (hbe : s'.backEdges = s.backEdges) (hnot : current ∉ s.backEdges successor)
    (hu : u ∈ s'.backEdges h) : (s'.backEdges h).count u = (followed g s'.successorsVisited u).count h := by
  rw [hbe] at hu ⊢
  rw [hinv.count hu, hs]
  by_cases heq : u = current
  · subst heq
    have hne : successor ≠ h := fun heq => hnot (heq ▸ hu)
    rw [followed_self hnext]
    simp [count_append, hne]
  · rw [followed_of_ne heq]

include hinv hw

/-- The successor is being visited: the edge is a back edge. -/
theorem SearchInv.backEdge (hvisit : s.visiting successor = true)
    (hbe : s' = { s with
      successorsVisited := s'.successorsVisited
      backEdges := update s.backEdges successor (s.backEdges successor ++ [current]) }) : SearchInv g s' := by
  have hmem : ∀ {u h}, u ∈ s'.backEdges h ↔ u ∈ s.backEdges h ∨ u = current ∧ h = successor := by
    intro u h
    rw [hbe]
    by_cases heq : h = successor
    · subst heq
      simp
    · simp [heq]
  -- The edge was not followed before as a forward edge: the successor would be finished.
  have hnot : ¬s.Tried g current successor := fun ht =>
    absurd ((hinv.finished_of_tried hw ht).2.symm.trans hvisit) false_ne_true
  have htried : s'.Tried g = s.Tried g := by
    funext u t
    rw [BackEdgeState.Tried, BackEdgeState.Tried, hs, mem_followed hnext, hmem]
    refine propext ⟨?_, fun ht => ⟨.inl ht.1, ?_⟩⟩
    · rintro ⟨hf | ⟨rfl, rfl⟩, hb⟩
      · exact ⟨hf, fun hb' => hb (.inl hb')⟩
      · exact absurd (.inr ⟨rfl, rfl⟩) hb
    · rintro (hb | ⟨rfl, rfl⟩)
      · exact ht.2 hb
      · exact hnot ht
  have hsucc : successor ∈ s.worklist := (hinv.visiting_iff successor).mp hvisit
  rw [hbe, hs] at hmem htried ⊢
  refine { hinv with
    visited_le := follow_le hnext hinv.visited_le, unvisited := follow_unvisited (s := s) hinv hw rfl
    finished := fun hu => (follow_finished hinv hw rfl hu).2, chain := htried ▸ hinv.chain, target := ?target
    reach := htried ▸ hinv.reach, path := ?path, mem := ?mem, count := ?count, below := ?below
    above := htried ▸ hinv.above, rank := htried ▸ hinv.rank }
  case target =>
    intro u t ht
    rcases (mem_followed hnext).mp ht with ht | ⟨-, rfl⟩
    · exact hinv.target ht
    · exact hinv.visited_of_visiting hvisit
  case path =>
    intro u h hu
    rw [htried]
    rcases hmem.mp hu with hu | ⟨rfl, rfl⟩
    · exact hinv.path hu
    · exact reflTransGen_of_isChain (hw ▸ hinv.chain) (hw ▸ hsucc)
  case mem =>
    intro u h hu
    rcases hmem.mp hu with hu | ⟨rfl, rfl⟩
    · exact (mem_followed hnext).mpr (.inl (hinv.mem hu))
    · exact (mem_followed hnext).mpr (.inr ⟨rfl, rfl⟩)
  case count =>
    intro u h hu
    dsimp only
    by_cases hu' : u = current
    · subst hu'
      rw [followed_self hnext]
      by_cases heq : h = successor
      · subst heq
        rw [update_self, count_append, count_append]
        by_cases hold : u ∈ s.backEdges h
        · rw [hinv.count hold]
          simp
        · rw [count_eq_zero.mpr hold, count_eq_zero.mpr fun hf => hnot ⟨hf, hold⟩]
          simp
      · rw [update_of_ne heq, hinv.count ((hmem.mp hu).resolve_right fun h => heq h.2)]
        simp [count_append, Ne.symm heq]
    · have hold := (hmem.mp hu).resolve_right fun h => hu' h.1
      rw [followed_of_ne hu', ← hinv.count hold]
      by_cases heq : h = successor
      · subst heq
        simp [count_append, Ne.symm hu']
      · rw [update_of_ne heq]
  case below =>
    intro u h hu hin
    rcases hmem.mp hu with hu | ⟨rfl, rfl⟩
    · exact hinv.below hu hin
    · dsimp only
      rw [hw] at hsucc ⊢
      exact (mem_cons.mp hsucc).imp_right fun hr => (singleton_sublist.mpr hr).cons_cons _

/-- A successor that is finished leaves the path as it is. -/
theorem SearchInv.seen (hdone : s.Finished successor)
    (hbe : s' = { s with successorsVisited := s'.successorsVisited }) :
    SearchInv g s' := by
  have hout : successor ∉ s.worklist := fun hmem =>
    absurd (hdone.2.symm.trans ((hinv.visiting_iff successor).mpr hmem)) false_ne_true
  have hin : current ∈ s.worklist := hw ▸ mem_cons_self
  have hnot : current ∉ s.backEdges successor := fun hmem => by
    rcases hinv.below hmem hin with rfl | hsub
    · exact hout hin
    · exact hout (hsub.subset (mem_cons_of_mem _ mem_cons_self))
  have htried : ∀ {u t}, s'.Tried g u t ↔ s.Tried g u t ∨ u = current ∧ t = successor :=
    tried_forward hnext hs (by rw [hbe]) hnot
  rw [hbe, hs] at htried ⊢
  have hmono : ∀ {a b}, ReflTransGen (s.Tried g) a b → ReflTransGen (Tried g _) a b :=
    ReflTransGen.mono (fun _ _ hab => htried.mpr (.inl hab)) _ _
  refine { hinv with
    visited_le := follow_le hnext hinv.visited_le, unvisited := follow_unvisited (s := s) hinv hw rfl
    finished := fun hu => (follow_finished hinv hw rfl hu).2
    chain := hinv.chain.imp fun a b hab => htried.mpr (.inl hab), target := ?target
    reach := fun hv => hmono (hinv.reach hv), path := fun hu => hmono (hinv.path hu)
    mem := fun hu => (mem_followed hnext).mpr (.inl (hinv.mem hu)), count := follow_count hinv hnext rfl rfl hnot
    above := ?above, rank := ?rank }
  case target =>
    intro u t ht
    rcases (mem_followed hnext).mp ht with ht | ⟨-, rfl⟩
    · exact hinv.target ht
    · exact hdone.1
  case above =>
    intro u t ht
    rcases htried.mp ht with ht | ⟨-, rfl⟩
    · exact hinv.above ht
    · exact .inl hdone
  case rank =>
    obtain ⟨finish, bound, hbound, hrank⟩ := hinv.rank
    refine ⟨finish, bound, hbound, fun {u t} hu ht => hrank hu ((htried.mp ht).resolve_right fun heq => ?_)⟩
    exact (follow_finished hinv hw hs hu).1 heq.1

/-- A successor that is not visited yet extends the path. -/
theorem SearchInv.push (hnew : s.visited successor = false)
    (hvd : s'.visited = update s.visited successor true)
    (hvg : s'.visiting = update s.visiting successor true) (hwl : s'.worklist = successor :: s.worklist)
    (hbe : s'.backEdges = s.backEdges) : SearchInv g s' := by
  have hnewer : ∀ {v}, s.visited v = true → v ≠ successor := by
    rintro v hv rfl
    exact absurd (hnew.symm.trans hv) false_ne_true
  have hnot : current ∉ s.backEdges successor := fun hmem => hnewer (hinv.target (hinv.mem hmem)) rfl
  have htried : ∀ {u t}, s'.Tried g u t ↔ s.Tried g u t ∨ u = current ∧ t = successor := tried_forward hnext hs hbe hnot
  have hmono : ∀ {a b}, ReflTransGen (s.Tried g) a b → ReflTransGen (s'.Tried g) a b :=
    ReflTransGen.mono (fun _ _ hab => htried.mpr (.inl hab)) _ _
  have hfin : ∀ {v}, s'.Finished v ↔ s.Finished v := by
    intro v
    rw [BackEdgeState.Finished, BackEdgeState.Finished, hvd, hvg]
    by_cases heq : v = successor
    · subst heq
      simp [hnew]
    · rw [update_of_ne heq, update_of_ne heq]
  have hvisited : ∀ {v}, s'.visited v = true ↔ s.visited v = true ∨ v = successor := by
    intro v
    rw [hvd]
    by_cases heq : v = successor
    · simp [heq]
    · simp [heq]
  have hcur : s.visited current = true :=
    hinv.visited_of_visiting ((hinv.visiting_iff current).mpr (hw ▸ mem_cons_self))
  have hout : successor ∉ s.worklist := fun hmem =>
    hnewer (hinv.visited_of_visiting ((hinv.visiting_iff successor).mpr hmem)) rfl
  constructor
  case entry => exact hvisited.mpr (.inl hinv.entry)
  case visited_le => exact fun u => hs ▸ follow_le hnext hinv.visited_le u
  case unvisited =>
    intro u hu
    refine follow_unvisited hinv hw hs ?_
    rw [← not_eq_true] at hu ⊢
    exact fun hv => hu (hvisited.mpr (.inl hv))
  case finished => exact fun hu => (follow_finished hinv hw hs (hfin.mp hu)).2
  case visiting_iff =>
    intro u
    rw [hvg, hwl]
    by_cases heq : u = successor
    · simp [heq]
    · simp [heq, hinv.visiting_iff]
  case visited_of_visiting =>
    intro u hu
    rw [hvg] at hu
    by_cases heq : u = successor
    · exact hvisited.mpr (.inr heq)
    · rw [update_of_ne heq] at hu
      exact hvisited.mpr (.inl (hinv.visited_of_visiting hu))
  case nodup => rw [hwl]; exact nodup_cons.mpr ⟨hout, hinv.nodup⟩
  case chain =>
    have hold := hinv.chain.imp fun a b hab => htried.mpr (.inl hab)
    rw [hwl]
    rw [hw] at hold ⊢
    exact isChain_cons_cons.mpr ⟨htried.mpr (.inr ⟨rfl, rfl⟩), hold⟩
  case target =>
    intro u t ht
    rw [hs] at ht
    rcases (mem_followed hnext).mp ht with ht | ⟨-, rfl⟩
    · exact hvisited.mpr (.inl (hinv.target ht))
    · exact hvisited.mpr (.inr rfl)
  case reach =>
    intro v hv
    rcases hvisited.mp hv with hv | rfl
    · exact hmono (hinv.reach hv)
    · exact (hmono (hinv.reach hcur)).tail (htried.mpr (.inr ⟨rfl, rfl⟩))
  case path => rw [hbe]; exact fun hu => hmono (hinv.path hu)
  case mem => rw [hbe, hs]; exact fun hu => (mem_followed hnext).mpr (.inl (hinv.mem hu))
  case count => exact follow_count hinv hnext hs hbe hnot
  case below =>
    intro u h hu hin
    rw [hbe] at hu
    rw [hwl] at hin ⊢
    rcases mem_cons.mp hin with rfl | hin
    · -- Nothing was followed from the new block.
      have hf := hinv.mem hu
      rw [followed, hinv.unvisited hnew] at hf
      exact absurd hf not_mem_nil
    · exact (hinv.below hu hin).imp_right fun hsub => hsub.cons _
  case above =>
    intro u t ht
    rw [hfin, hwl]
    rcases htried.mp ht with ht | ⟨rfl, rfl⟩
    · exact (hinv.above ht).imp_right fun hsub => hsub.cons _
    · rw [hw]
      exact .inr ((singleton_sublist.mpr mem_cons_self).cons_cons _)
  case rank =>
    obtain ⟨finish, bound, hbound, hrank⟩ := hinv.rank
    refine ⟨finish, bound, fun hv => hbound (hfin.mp hv), fun {u t} hu ht => ?_⟩
    have hold := (htried.mp ht).resolve_right fun heq => (follow_finished hinv hw hs (hfin.mp hu)).1 heq.1
    exact ⟨hfin.mpr (hrank (hfin.mp hu) hold).1, (hrank (hfin.mp hu) hold).2⟩

end FollowSearch

/-! ### The result -/

def remaining (g : HGraph n) (successorsVisited : Fin n → Nat) : Nat :=
  ∑ u, ((g.successors u).length - successorsVisited u)

theorem remaining_update {visits : Fin n → Nat} (hnext : (g.successors current)[visits current]? = some successor) :
    remaining g (Function.update visits current (visits current + 1)) < remaining g visits := by
  have hlt := (List.getElem?_eq_some_iff.mp hnext).1
  refine Finset.sum_lt_sum (fun u _ => ?_) ⟨current, Finset.mem_univ _, ?_⟩
  · by_cases heq : u = current
    · subst heq
      rw [update_self]
      omega
    · rw [update_of_ne heq]
  · rw [update_self]
    omega

/-- A step of the search keeps the invariant and has less left to visit, or the search is over. -/
theorem findBackEdgesBody_spec (hinv : SearchInv g s) :
    (g.findBackEdgesBody s = some none ∧ s.worklist = []) ∨
      ∃ s', g.findBackEdgesBody s = some (some s') ∧ SearchInv g s' ∧
      2 * remaining g s'.successorsVisited + s'.worklist.length <
        2 * remaining g s.successorsVisited + s.worklist.length := by
  rw [findBackEdgesBody]
  rcases hw : s.worklist with _ | ⟨current, rest⟩
  · exact .inl ⟨rfl, rfl⟩
  refine .inr ?_
  dsimp only
  rcases hnext : (g.successors current)[s.successorsVisited current]? with _ | successor
  · exact ⟨_, rfl, hinv.pop hw hnext, by simp⟩
  have hlt := remaining_update hnext
  dsimp only
  by_cases hvisit : s.visiting successor = true
  · rw [if_pos hvisit]
    exact ⟨_, rfl, hinv.backEdge hw hnext rfl hvisit (by rw [hw]), by simp only [length_cons]; omega⟩
  rw [if_neg hvisit]
  by_cases hvisited : s.visited successor = true
  · rw [if_pos hvisited]
    exact ⟨_, rfl, hinv.seen hw hnext rfl ⟨hvisited, eq_false_iff.mpr hvisit⟩ (by rw [hw]),
      by simp only [length_cons]; omega⟩
  · rw [if_neg hvisited]
    exact ⟨_, rfl, hinv.push hw hnext rfl (eq_false_iff.mpr hvisited) rfl rfl (congrArg _ hw.symm) rfl,
      by simp only [length_cons]; omega⟩

/-- At the end of the search the back edges recorded are right. -/
theorem SearchInv.ok (hinv : SearchInv g s) (hw : s.worklist = []) : BackEdgesOk g s.visited s.backEdges := by
  have hdone : ∀ {v}, s.visited v = true → s.Finished v := fun {v} hv => by
    refine ⟨hv, eq_false_iff.mpr fun hvisit => ?_⟩
    rw [hinv.visiting_iff, hw] at hvisit
    exact absurd hvisit not_mem_nil
  have hall : ∀ {v}, s.visited v = true → followed g s.successorsVisited v = g.successors v := fun {v} hv => by
    rw [followed, hinv.finished (hdone hv), take_length]
  have hvisited : ∀ {u t}, t ∈ followed g s.successorsVisited u → s.visited u = true := fun {u t} ht => by
    by_contra hnot
    rw [followed, hinv.unvisited (eq_false_iff.mpr hnot)] at ht
    exact absurd ht not_mem_nil
  have htried : ∀ {a b}, s.Tried g a b → Forward g s.backEdges a b := fun hab => ⟨hall (hvisited hab.1) ▸ hab.1, hab.2⟩
  obtain ⟨finish, bound, hbound, hrank⟩ := hinv.rank
  constructor
  case entry => exact hinv.entry
  case closed => exact fun hu hv => hinv.target ((hall hu).symm ▸ hv)
  case reach => exact fun hv => ReflTransGen.mono (fun _ _ => htried) _ _ (hinv.reach hv)
  case rank => exact ⟨finish, fun {u v} hu huv => (hrank (hdone hu) ⟨(hall hu).symm ▸ huv.1, huv.2⟩).2⟩
  case mem =>
    intro u h hu
    have hf := hinv.mem hu
    exact ⟨hall (hvisited hf) ▸ hf, hvisited hf⟩
  case path => exact fun hu => ReflTransGen.mono (fun _ _ => htried) _ _ (hinv.path hu)
  case count =>
    intro u h hu
    rw [hinv.count hu, hall (hvisited (hinv.mem hu))]

/-- The search ends, with the back edges of the graph. -/
theorem findBackEdges_spec (g : HGraph n) {fuel : Nat} (hfuel : 2 * remaining g (fun _ => 0) + 1 < fuel) :
    ∃ s, g.findBackEdges fuel = some s ∧ BackEdgesOk g s.visited s.backEdges := by
  have hinit : SearchInv g
      { visited := update (fun _ => false) g.entryBlock true
        visiting := update (fun _ => false) g.entryBlock true
        successorsVisited _ := 0
        worklist := [g.entryBlock]
        backEdges _ := [] } := by
    have hupdate : ∀ {v}, update (fun _ => false) g.entryBlock true v = true ↔ v = g.entryBlock := by
      intro v
      by_cases heq : v = g.entryBlock <;> simp [heq]
    constructor
    case entry => exact hupdate.mpr rfl
    case visited_le => exact fun u => Nat.zero_le _
    case unvisited => exact fun _ => rfl
    case finished => exact fun hu => absurd (hu.2.symm.trans hu.1) false_ne_true
    case visiting_iff => exact fun u => hupdate.trans mem_singleton.symm
    case visited_of_visiting => exact id
    case nodup => exact nodup_singleton _
    case chain => exact isChain_singleton _
    case target => exact fun ht => absurd ht not_mem_nil
    case reach => exact fun hv => hupdate.mp hv ▸ .refl
    case path => exact fun hu => absurd hu not_mem_nil
    case mem => exact fun hu => absurd hu not_mem_nil
    case count => exact fun hu => absurd hu not_mem_nil
    case below => exact fun hu => absurd hu not_mem_nil
    case above => exact fun ht => absurd ht.1 not_mem_nil
    case rank => exact ⟨fun _ => 0, 1, fun _ => Nat.zero_lt_one, fun _ ht => absurd ht.1 not_mem_nil⟩
  obtain ⟨s, hrun, hinv, hend⟩ := Lib.whileLoop_ok (SearchInv g)
    (fun s => 2 * remaining g s.successorsVisited + s.worklist.length)
    (fun s hinv => (findBackEdgesBody_spec hinv).imp_left And.left) hinit hfuel
  refine ⟨s, hrun, hinv.ok ?_⟩
  rcases findBackEdgesBody_spec hinv with ⟨-, hw⟩ | ⟨s', hs', -⟩
  · exact hw
  · cases hs'.symm.trans hend

end Art.HGraph
