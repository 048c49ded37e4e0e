import Art.Lib.Dominance
import Art.Theorems.BackEdges

/-! `ComputeDominanceInformation` finds the immediate dominators, also in graphs with irreducible loops. -/

namespace Art
open List Function
open Option (bind_eq_bind bind_some)

theorem ControlFlowGraph.entry_not_mem {n : Nat} (g : ControlFlowGraph n) (u : Fin n) :
    g.entryBlock ∉ g.successors u := by
  intro hmem
  have hcount := g.count_predecessors u g.entryBlock
  rw [g.entry_predecessors, count_nil] at hcount
  exact count_eq_zero.mp hcount.symm hmem

namespace HGraph

open Relation Lib

variable {n : Nat} {g : HGraph n} {visited : Fin n → Bool} {back : Fin n → List (Fin n)} {u v : Fin n}

/-! ### Dead blocks -/

def Linked (g : HGraph n) : Prop := ∀ b s, (g.predecessors s).count b = (g.successors b).count s

/-- Erasing a block once for each edge removes as many occurrences from each list. -/
theorem count_erase_foldl (b c s : Fin n) (l : List (Fin n)) (preds : Fin n → List (Fin n)) :
    (l.foldl (fun preds s => update preds s ((preds s).erase b)) preds s).count c =
      (preds s).count c - if c = b then l.count s else 0 := by
  induction l generalizing preds with
  | nil => simp
  | cons t l ih =>
    rw [foldl_cons, ih]
    by_cases hs : s = t
    · subst hs
      rw [update_self, count_erase, count_cons_self]
      by_cases hc : c = b
      · subst hc
        simp only [if_true, beq_self_eq_true]
        omega
      · have hcb : (b == c) = false := beq_eq_false_iff_ne.mpr (Ne.symm hc)
        simp [hc, hcb]
    · rw [update_of_ne hs, count_cons_of_ne (Ne.symm hs)]

theorem Linked.disconnectFromSuccessors {g : HGraph n} (h : g.Linked) (b : Fin n) :
    (g.disconnectFromSuccessors b).Linked := by
  intro c s
  rw [HGraph.disconnectFromSuccessors, count_erase_foldl, h]
  by_cases heq : c = b
  · subst heq
    simp
  · simp [heq]

theorem disconnect_foldl (dead : List (Fin n)) {g : HGraph n} (h : g.Linked) :
    (dead.foldl disconnectFromSuccessors g).Linked ∧
    (dead.foldl disconnectFromSuccessors g).blocks = g.blocks ∧
    (dead.foldl disconnectFromSuccessors g).entryBlock = g.entryBlock ∧
    ∀ b, (dead.foldl disconnectFromSuccessors g).successors b = if b ∈ dead then [] else g.successors b := by
  induction dead generalizing g with
  | nil => exact ⟨h, rfl, rfl, fun b => by simp⟩
  | cons d dead ih =>
    obtain ⟨hlinked, hblocks, hentry, hsucc⟩ := ih (h.disconnectFromSuccessors d)
    refine ⟨hlinked, hblocks, hentry, fun b => ?_⟩
    rw [foldl_cons, hsucc]
    by_cases hd : b = d
    · subst hd
      simp [disconnectFromSuccessors]
    · simp [disconnectFromSuccessors, hd]

/-- A graph of blocks that can be reached, with its back edges. -/
structure LiveGraph (g : HGraph n) (visited : Fin n → Bool) (back : Fin n → List (Fin n)) : Prop
    extends BackEdgesOk g visited back where
  dead : ∀ {u}, visited u = false → g.successors u = []
  linked : g.Linked
  entry_not_mem : ∀ u, g.entryBlock ∉ g.successors u
  mem_blocks : ∀ {b}, b ∈ g.blocks ↔ visited b = true

theorem LiveGraph.live (h : LiveGraph g visited back) (hv : v ∈ g.successors u) : visited u = true := by
  by_contra hdead
  rw [h.dead (Bool.eq_false_iff.mpr hdead)] at hv
  exact absurd hv not_mem_nil

theorem BackEdgesOk.mem_blocks {g : ControlFlowGraph n} (h : BackEdgesOk g.toHGraph visited back) {b : Fin n}
    (hb : visited b = true) : b ∈ g.blocks := by
  rcases (h.reach hb).cases_tail with heq | ⟨a, -, hab⟩
  · exact heq ▸ g.entry_mem
  · exact (g.successors_mem a b hab.1).2

/-- Removing the dead blocks leaves a graph of live blocks, with their edges. -/
theorem BackEdgesOk.removeDeadBlocks {g : ControlFlowGraph n} (h : BackEdgesOk g.toHGraph visited back) :
    LiveGraph (g.removeDeadBlocks visited) visited back ∧
    (g.removeDeadBlocks visited).entryBlock = g.entryBlock ∧
    ∀ {u}, visited u = true → (g.removeDeadBlocks visited).successors u = g.successors u := by
  obtain ⟨hlinked, hblocks, hentry, hsucc⟩ :=
    disconnect_foldl (g.blocks.filter fun b => !visited b) g.count_predecessors
  have hlive : ∀ {u}, visited u = true → (g.removeDeadBlocks visited).successors u = g.successors u := fun {u} hu => by
    rw [HGraph.removeDeadBlocks, hsucc, if_neg (by simp [hu])]
  have hdead : ∀ {u}, visited u = false → (g.removeDeadBlocks visited).successors u = [] := fun {u} hu => by
    rw [HGraph.removeDeadBlocks, hsucc]
    by_cases hmem : u ∈ g.blocks
    · rw [if_pos (by simp [hu, hmem])]
    · refine (if_neg (by simp [hmem])).trans (eq_nil_iff_forall_not_mem.mpr fun s hs => ?_)
      exact hmem (g.successors_mem u s hs).1
  have hsub : ∀ {u v}, v ∈ (g.removeDeadBlocks visited).successors u → visited u = true ∧ v ∈ g.successors u := by
    intro u v hv
    rcases hu : visited u with _ | _
    · rw [hdead hu] at hv
      exact absurd hv not_mem_nil
    · exact ⟨rfl, hlive hu ▸ hv⟩
  have hforward : ∀ {u v}, visited u = true → Forward g.toHGraph back u v →
      Forward (g.removeDeadBlocks visited) back u v :=
    fun hu huv => ⟨(hlive hu).symm ▸ huv.1, huv.2⟩
  have hpath : ∀ {u v}, visited u = true → ReflTransGen (Forward g.toHGraph back) u v →
      ReflTransGen (Forward (g.removeDeadBlocks visited) back) u v ∧ visited v = true := by
    intro u v hu huv
    induction huv with
    | refl => exact ⟨.refl, hu⟩
    | tail _ hbc ih => exact ⟨ih.1.tail (hforward ih.2 hbc), h.closed ih.2 hbc.1⟩
  obtain ⟨finish, hfinish⟩ := h.rank
  have hok : BackEdgesOk (g.removeDeadBlocks visited) visited back := by
    constructor
    case entry => exact hentry ▸ h.entry
    case closed => exact fun hu hv => h.closed hu (hsub hv).2
    case reach => exact fun hv => hentry ▸ (hpath h.entry (h.reach hv)).1
    case rank => exact ⟨finish, fun hu huv => hfinish hu ⟨(hsub huv.1).2, huv.2⟩⟩
    case mem => exact fun hu => ⟨(hlive (h.mem hu).2).symm ▸ (h.mem hu).1, (h.mem hu).2⟩
    case path => exact fun hu => (hpath (h.closed (h.mem hu).2 (h.mem hu).1) (h.path hu)).1
    case count => exact fun hu => (hlive (h.mem hu).2).symm ▸ h.count hu
  refine ⟨{ hok with dead := hdead, linked := hlinked, entry_not_mem := ?_, mem_blocks := ?_ }, hentry, hlive⟩
  · exact fun u hu => g.entry_not_mem u (hentry ▸ (hsub hu).2)
  · intro b
    change b ∈ (filter visited (foldl disconnectFromSuccessors g.toHGraph _).blocks) ↔ _
    rw [hblocks, mem_filter]
    exact ⟨And.right, fun hb => ⟨h.mem_blocks hb, hb⟩⟩

/-! ### Common dominators -/

section CommonDominator

variable {dom : Fin n → Option (Fin n)} {a b c entry : Fin n} {l l' : List (Fin n)} {fuel : Nat}

theorem chainLength_eq (h : Chain dom b l) (hfuel : l.length ≤ fuel) :
    chainLength dom fuel (some b) = some l.length := by
  induction h generalizing fuel with
  | root hnone =>
    obtain ⟨fuel, rfl⟩ := Nat.exists_eq_add_one_of_ne_zero (Nat.ne_of_gt hfuel)
    rw [chainLength, hnone, chainLength]
    rfl
  | @step a b l hsome _ ih =>
    obtain ⟨fuel, rfl⟩ := Nat.exists_eq_add_one_of_ne_zero (Nat.ne_zero_of_lt hfuel)
    rw [chainLength, hsome, ih (Nat.le_of_succ_le_succ hfuel)]
    rfl

theorem equalize_eq (h : Chain dom b l) {k : Nat} (hk : k < l.length) :
    ∃ c, equalize dom k b = some c ∧ Chain dom c (l.drop k) := by
  induction k generalizing b l with
  | zero => exact ⟨b, rfl, h⟩
  | succ k ih =>
    cases h with
    | root => exact absurd hk (Nat.not_lt_of_le (Nat.succ_le_succ (Nat.zero_le _)))
    | @step _ b' l hsome hb =>
      obtain ⟨c, hc, hchain⟩ := ih hb (Nat.lt_of_succ_lt_succ hk)
      exact ⟨c, by rw [equalize, hsome, bind_some, hc], hchain⟩

/-- The node of a longer chain at the same height is below all that is above both. -/
theorem equalize_spec (ha : Chain dom a l) (hb : Chain dom b l') (hle : l.length ≤ l'.length) :
    ∃ c m, equalize dom (l'.length - l.length) b = some c ∧ Chain dom c m ∧ m.length = l.length ∧ Above dom c b ∧
      ∀ x, Above dom x a → Above dom x b → Above dom x c := by
  have hpos : 0 < l.length := length_pos_iff.mpr ha.ne_nil
  obtain ⟨c, hc, hchain⟩ := equalize_eq hb (k := l'.length - l.length) (by omega)
  have hlen : (l'.drop (l'.length - l.length)).length = l.length := by rw [length_drop, Nat.sub_sub_self hle]
  refine ⟨c, _, hc, hchain, hlen, ⟨l', hb, (drop_suffix _ _).mem hchain.head_mem⟩, fun x hxa hxb => ?_⟩
  obtain ⟨m, hm, hsuf⟩ := ha.suffix ((Above.iff_mem ha).mp hxa)
  obtain ⟨m', hm', hsuf'⟩ := hb.suffix ((Above.iff_mem hb).mp hxb)
  cases hm.unique hm'
  exact ⟨_, hchain, (suffix_of_suffix_length_le hsuf' (drop_suffix _ _) (hsuf.length_le.trans hlen.ge)).mem hm.head_mem⟩

/-- Two chains of one length meet at their nearest common block. -/
theorem runUp_spec (hb : Chain dom b l) (hc : Chain dom c l') (hlen : l.length = l'.length) (hfuel : l.length ≤ fuel)
    (hbe : Above dom entry b) (hce : Above dom entry c) : ∃ m, runUp dom fuel b c = some m ∧ IsMeet dom m b c := by
  induction fuel generalizing b c l l' with
  | zero => exact absurd (length_eq_zero_iff.mp (Nat.le_zero.mp hfuel)) hb.ne_nil
  | succ fuel ih =>
    rw [runUp]
    by_cases heq : b = c
    · subst heq
      rw [if_pos rfl]
      exact ⟨b, rfl, .self hb, .self hb, fun x hx _ => hx⟩
    rw [if_neg heq]
    -- Neither block is above the other one: their chains are of the same length.
    have hnot : ∀ {b c l l'}, b ≠ c → Chain dom b l → Chain dom c l' → l.length = l'.length → ¬Above dom b c := by
      intro b c l l' hne hb hc hlen habove
      obtain ⟨m, hm, hsuf⟩ := hc.suffix ((Above.iff_mem hc).mp habove)
      cases hm.unique hb
      cases hsuf.eq_of_length_le hlen.ge
      obtain ⟨t, rfl⟩ := hb.eq_cons
      obtain ⟨t', heq⟩ := hc.eq_cons
      cases heq
      exact hne rfl
    have hbc := hnot heq hb hc hlen
    have hcb := hnot (Ne.symm heq) hc hb hlen.symm
    rcases hbe.cases_parent with rfl | ⟨b', hb', hbe'⟩
    · exact absurd hce hbc
    rcases hce.cases_parent with rfl | ⟨c', hc', hce'⟩
    · exact absurd hbe hcb
    rw [hb', hc']
    cases hb with
    | root hnone => cases hnone.symm.trans hb'
    | @step _ b₁ l₁ hb₁ hchain =>
      cases hb'.symm.trans hb₁
      cases hc with
      | root hnone => cases hnone.symm.trans hc'
      | @step _ c₁ l₂ hc₁ hchain' =>
        cases hc'.symm.trans hc₁
        obtain ⟨m, hm, hmeet⟩ := ih hchain hchain' (Nat.succ_injective hlen) (Nat.le_of_succ_le_succ hfuel) hbe' hce'
        refine ⟨m, hm, .of_parent hb' hmeet.left, .of_parent hc' hmeet.right, fun x hxb hxc => ?_⟩
        rcases hxb.cases_parent with rfl | ⟨b₂, hb₂, hxb'⟩
        · exact absurd hxc hbc
        rcases hxc.cases_parent with rfl | ⟨c₂, hc₂, hxc'⟩
        · exact absurd hxb hcb
        · cases hb'.symm.trans hb₂
          cases hc'.symm.trans hc₂
          exact hmeet.lowest x hxb' hxc'

/-- `ForPair` finds the nearest common dominator of two blocks of the tree. -/
theorem forPair_spec {edge : Fin n → Fin n → Prop} (h : DomTree edge entry dom) (hfuel : n ≤ fuel)
    (ha : Above dom entry a) (hb : Above dom entry b) : ∃ m, forPair dom fuel a b = some m ∧ IsMeet dom m a b := by
  obtain ⟨l, hl, -⟩ := id ha
  obtain ⟨l', hl', -⟩ := id hb
  have hbound : ∀ {a l}, Chain dom a l → l.length ≤ fuel := fun h => by
    have hle := h.length_le
    rw [Fintype.card_fin] at hle
    exact hle.trans hfuel
  rw [forPair, chainLength_eq hl (hbound hl), chainLength_eq hl' (hbound hl')]
  by_cases heq : b = a
  · subst heq
    exact ⟨b, by simp, .self hl, .self hl, fun x hx _ => hx⟩
  simp only [heq, if_false, bind_eq_bind, bind_some]
  -- One of the two chains is longer; its block is taken up to the height of the other one.
  rcases le_total l.length l'.length with hle | hle
  · obtain ⟨c, k, hc, hchain, hlen, hcb, hlow⟩ := equalize_spec hl hl' hle
    rw [hc, Nat.sub_eq_zero_of_le hle, equalize, bind_some, bind_some]
    obtain ⟨m, hm, hmeet⟩ := runUp_spec hchain hl hlen (hbound hchain) (h.entry_above hb hcb) ha
    exact ⟨m, hm, hmeet.right, hmeet.left.trans hcb, fun x hxa hxb => hmeet.lowest x (hlow x hxa hxb) hxa⟩
  · obtain ⟨c, k, hc, hchain, hlen, hca, hlow⟩ := equalize_spec hl' hl hle
    rw [hc, Nat.sub_eq_zero_of_le hle, equalize, bind_some, bind_some]
    obtain ⟨m, hm, hmeet⟩ := runUp_spec hl' hchain hlen.symm (hbound hl') hb (h.entry_above ha hca)
    exact ⟨m, hm, hmeet.right.trans hca, hmeet.left, fun x hxa hxb => hmeet.lowest x hxb (hlow x hxb hxa)⟩

/-- The dominators after an edge was looked at. -/
inductive Updated (dom : Fin n → Option (Fin n)) (u v : Fin n) : (Fin n → Option (Fin n)) → Bool → Prop
  | attach (hv : dom v = none) : Updated dom u v (update dom v (some u)) true
  | keep {p : Fin n} (hv : dom v = some p) (hp : Above dom p u) : Updated dom u v dom false
  | raise {p m : Fin n} (hv : dom v = some p) (hm : IsMeet dom m p u) (hne : m ≠ p) :
      Updated dom u v (update dom v (some m)) true

theorem inTree_raise {p m w : Fin n} (hv : dom v = some p) :
    InTree (update dom v (some m)) entry w ↔ InTree dom entry w := by
  by_cases heq : w = v
  · subst heq
    simp [InTree, hv]
  · simp [InTree, heq]

/-- The dominator of a successor becomes the meet with the block's. -/
theorem updateDominatorOfSuccessor_spec {edge : Fin n → Fin n → Prop} {u v : Fin n} (h : DomTree edge entry dom)
    (hfuel : n ≤ fuel) (hu : InTree dom entry u) :
    ∃ dom' flag, updateDominatorOfSuccessor dom fuel u v = some (dom', flag) ∧ Updated dom u v dom' flag := by
  rw [updateDominatorOfSuccessor]
  rcases hv : dom v with _ | p
  · exact ⟨_, _, rfl, .attach hv⟩
  have hp := h.inTree_parent hv
  obtain ⟨m, hm, hmeet⟩ := forPair_spec h hfuel (h.rooted hp) (h.rooted hu)
  by_cases heq : p = m
  · subst heq
    exact ⟨dom, false, by simp [hm], .keep hv hmeet.right⟩
  · exact ⟨_, true, by simp [hm, heq], .raise hv hmeet (Ne.symm heq)⟩

/-- `Dominates` tells whether the block is on the chain. -/
theorem dominates_spec (hb : Chain dom b l) (hfuel : l.length ≤ fuel) :
    dominates dom fuel a (some b) = some (decide (a ∈ l)) := by
  induction hb generalizing fuel with
  | @root b hnone =>
    obtain ⟨fuel, rfl⟩ := Nat.exists_eq_add_one_of_ne_zero (Nat.ne_of_gt hfuel)
    rw [dominates, hnone, dominates]
    by_cases heq : b = a
    · simp [heq]
    · simp [heq, Ne.symm heq]
  | @step b b' l hsome _ ih =>
    obtain ⟨fuel, rfl⟩ := Nat.exists_eq_add_one_of_ne_zero (Nat.ne_zero_of_lt hfuel)
    rw [dominates, hsome, ih (Nat.le_of_succ_le_succ hfuel)]
    by_cases heq : b = a
    · simp [heq]
    · simp [heq, Ne.symm heq]

end CommonDominator

/-! ### The reverse post order -/

variable {s s' : DominanceState n} {current successor : Fin n} {rest : List (Fin n)}

/-- The invariant of the reverse post order: a block is in it once its incoming edges are followed. -/
structure OrderInv (g : HGraph n) (visited : Fin n → Bool) (back : Fin n → List (Fin n)) (s : DominanceState n) :
    Prop where
  le : ∀ u, s.successorsVisited u ≤ (g.successors u).length
  visits : ∀ v, s.visits v = ∑ u, (followed g s.successorsVisited u).count v
  nodup : s.reversePostOrder.Nodup
  entry : g.entryBlock ∈ s.reversePostOrder
  live : ∀ {u}, u ∈ s.reversePostOrder → visited u = true
  work : ∀ {u}, u ∈ s.worklist → u ∈ s.reversePostOrder
  done : ∀ {u}, u ∈ s.reversePostOrder → u ∈ s.worklist ∨ s.successorsVisited u = (g.successors u).length
  untouched : ∀ {u}, u ∉ s.reversePostOrder → s.successorsVisited u = 0
  before : ∀ {u v}, v ∈ s.reversePostOrder → Forward g back u v → [u, v].Sublist s.reversePostOrder
  full : ∀ {u v}, v ∈ s.reversePostOrder → Forward g back u v →
    (followed g s.successorsVisited u).count v = (g.successors u).count v
  missing : ∀ {v}, v ∉ s.reversePostOrder → visited v = true →
    ∃ u, Forward g back u v ∧ (followed g s.successorsVisited u).count v < (g.successors u).count v

theorem length_eq_sum_count (l : List (Fin n)) : l.length = ∑ u, l.count u := by
  have h := Multiset.sum_count_eq_card (s := Finset.univ) (m := (l : Multiset (Fin n))) fun a _ => Finset.mem_univ a
  simpa using h.symm

/-- A live block waits for its incoming edges other than the back edges. -/
theorem LiveGraph.inputs (hg : LiveGraph g visited back) (v : Fin n) :
    (g.predecessors v).length - (back v).length = ∑ u, if u ∈ back v then 0 else (g.successors u).count v := by
  have hpred : (g.predecessors v).length = ∑ u, (g.successors u).count v := by
    rw [length_eq_sum_count]
    exact Finset.sum_congr rfl fun u _ => hg.linked u v
  have hback : (back v).length = ∑ u, if u ∈ back v then (g.successors u).count v else 0 := by
    rw [length_eq_sum_count]
    refine Finset.sum_congr rfl fun u _ => ?_
    split_ifs with hu
    · exact hg.count hu
    · exact count_eq_zero.mpr hu
  have hsum : (∑ u, if u ∈ back v then (g.successors u).count v else 0) +
      (∑ u, if u ∈ back v then 0 else (g.successors u).count v) = ∑ u, (g.successors u).count v := by
    rw [← Finset.sum_add_distrib]
    refine Finset.sum_congr rfl fun u _ => ?_
    split_ifs <;> simp
  omega

theorem count_followed_le (visits : Fin n → Nat) (u v : Fin n) :
    (followed g visits u).count v ≤ (g.successors u).count v :=
  (take_sublist _ _).count_le v

section Follow

variable {visits : Fin n → Nat} (hnext : (g.successors current)[visits current]? = some successor)

include hnext

theorem count_followed : (followed g (update visits current (visits current + 1)) u).count v =
    (followed g visits u).count v + if u = current ∧ v = successor then 1 else 0 := by
  by_cases heq : u = current
  · subst heq
    rw [followed_self hnext, count_append]
    by_cases hv : v = successor
    · simp [hv]
    · simp [hv, Ne.symm hv]
  · rw [followed_of_ne heq]
    simp [heq]

theorem sum_followed (v : Fin n) : ∑ u, (followed g (update visits current (visits current + 1)) u).count v =
    ∑ u, (followed g visits u).count v + if v = successor then 1 else 0 := by
  simp only [count_followed hnext, Finset.sum_add_distrib]
  congr 1
  by_cases heq : v = successor <;> simp [heq]

theorem count_followed_lt : (followed g visits current).count successor < (g.successors current).count successor := by
  have hle := count_followed_le (g := g) (update visits current (visits current + 1)) current successor
  rwa [count_followed hnext, if_pos ⟨rfl, rfl⟩] at hle

end Follow

namespace OrderInv

section

variable (h : OrderInv g visited back s)
include h

theorem mem_of_followed (hv : v ∈ followed g s.successorsVisited u) : u ∈ s.reversePostOrder := by
  by_contra hnot
  rw [followed, h.untouched hnot] at hv
  exact absurd hv not_mem_nil

/-- The order has all blocks from which one of its blocks is reached without back edges. -/
theorem mem_of_path (hpath : ReflTransGen (Forward g back) u v)
    (hv : v ∈ s.reversePostOrder) : u ∈ s.reversePostOrder := by
  induction hpath with
  | refl => exact hv
  | tail _ hbc ih => exact ih ((h.before hv hbc).subset mem_cons_self)

/-- No back edge to a block is followed before the block is in the order. -/
theorem not_back (hg : LiveGraph g visited back) (hv : v ∉ s.reversePostOrder)
    (hu : u ∈ s.reversePostOrder) : u ∉ back v := fun hmem => hv (h.mem_of_path (hg.path hmem) hu)

theorem pop (hw : s.worklist = current :: rest)
    (hall : (g.successors current)[s.successorsVisited current]? = none) :
    OrderInv g visited back { s with worklist := rest } := by
  refine { h with work := fun hu => h.work (hw ▸ mem_cons_of_mem _ hu), done := fun {u} hu => ?_ }
  rcases h.done hu with hmem | hlen
  · rcases mem_cons.mp (hw ▸ hmem) with rfl | hmem
    · exact .inr (Nat.le_antisymm (h.le u) (getElem?_eq_none_iff.mp hall))
    · exact .inl hmem
  · exact .inr hlen

theorem inputs_le (hg : LiveGraph g visited back) (hv : v ∈ s.reversePostOrder) :
    (g.predecessors v).length - (back v).length ≤ s.visits v := by
  rw [hg.inputs, h.visits]
  refine Finset.sum_le_sum fun u _ => ?_
  split_ifs with hu
  · exact Nat.zero_le _
  by_cases hmem : v ∈ g.successors u
  · exact (h.full hv ⟨hmem, hu⟩).ge
  · rw [count_eq_zero.mpr hmem]
    exact Nat.zero_le _

end

section Follow

variable (h : OrderInv g visited back s) (hg : LiveGraph g visited back) (hw : s.worklist = current :: rest)
  (hnext : (g.successors current)[s.successorsVisited current]? = some successor)
  (hs : s'.successorsVisited = update s.successorsVisited current (s.successorsVisited current + 1))
  (hvisits : s'.visits = update s.visits successor (s.visits successor + 1))

include h hw in
theorem top_mem : current ∈ s.reversePostOrder := h.work (hw ▸ mem_cons_self)

include h hnext hs hvisits in
theorem follow_visits (v : Fin n) : s'.visits v = ∑ u, (followed g s'.successorsVisited u).count v := by
  rw [hvisits, hs, sum_followed hnext, ← h.visits]
  by_cases heq : v = successor
  · rw [heq, update_self, if_pos rfl]
  · rw [update_of_ne heq, if_neg heq, Nat.add_zero]

include h hg hw hnext hs in
/-- Of the edges to a block that is not in the order, forward edges only are followed. -/
theorem follow_count_le (hnew : successor ∉ s.reversePostOrder) (u : Fin n) :
    (followed g s'.successorsVisited u).count successor ≤
      if u ∈ back successor then 0 else (g.successors u).count successor := by
  split_ifs with hu
  · refine (count_eq_zero.mpr fun hmem => ?_).le
    rw [hs] at hmem
    refine h.not_back hg hnew ?_ hu
    rcases (mem_followed hnext).mp hmem with hmem | ⟨rfl, -⟩
    · exact h.mem_of_followed hmem
    · exact h.top_mem hw
  · exact count_followed_le _ _ _

include h hnext hs

theorem follow_full (hv : v ∈ s.reversePostOrder) (huv : Forward g back u v) :
    (followed g s'.successorsVisited u).count v = (g.successors u).count v := by
  refine Nat.le_antisymm (count_followed_le _ _ _) ?_
  rw [← h.full hv huv, hs, count_followed hnext]
  exact Nat.le_add_right _ _

theorem follow_missing (hv : v ∉ s.reversePostOrder) (hne : v ≠ successor) (hlive : visited v = true) :
    ∃ u, Forward g back u v ∧ (followed g s'.successorsVisited u).count v < (g.successors u).count v := by
  obtain ⟨u, huv, hlt⟩ := h.missing hv hlive
  refine ⟨u, huv, ?_⟩
  rwa [hs, count_followed hnext, if_neg fun heq => hne heq.2]

omit h hnext hs

include h hw hs

theorem follow_untouched (hu : u ∉ s.reversePostOrder) : s'.successorsVisited u = 0 := by
  have hne : u ≠ current := (ne_of_mem_of_not_mem (h.top_mem hw) hu).symm
  rw [hs, update_of_ne hne]
  exact h.untouched hu

theorem follow_done (hu : u ∈ s.reversePostOrder) :
    u ∈ s.worklist ∨ s'.successorsVisited u = (g.successors u).length := by
  by_cases heq : u = current
  · exact .inl (by rw [hw, heq]; exact mem_cons_self)
  · rw [hs, update_of_ne heq]
    exact h.done hu

omit h hw hs

include h hg hw hnext hs hvisits

/-- A block whose incoming edges are all followed joins the order. -/
theorem push (hready : s'.visits successor = (g.predecessors successor).length - (back successor).length)
    (hrpo : s'.reversePostOrder = s.reversePostOrder ++ [successor]) (hwl : s'.worklist = successor :: s.worklist) :
    successor ∉ s.reversePostOrder ∧ OrderInv g visited back s' := by
  have hnew : successor ∉ s.reversePostOrder := fun hmem => by
    have hle := h.inputs_le hg hmem
    rw [← hready, hvisits, update_self] at hle
    exact absurd hle (Nat.not_succ_le_self _)
  have hlive : visited successor = true := hg.closed (h.live (h.top_mem hw)) (mem_of_getElem? hnext)
  have hmem : ∀ {v}, v ∈ s'.reversePostOrder ↔ v ∈ s.reversePostOrder ∨ v = successor := fun {v} => by
    rw [hrpo, mem_append, mem_singleton]
  have hall : ∀ {u}, Forward g back u successor →
      (followed g s'.successorsVisited u).count successor = (g.successors u).count successor := fun {u} huv => by
    rw [h.follow_visits hnext hs hvisits, hg.inputs] at hready
    have heq := (Finset.sum_eq_sum_iff_of_le fun u _ => h.follow_count_le hg hw hnext hs hnew u).mp hready u
      (Finset.mem_univ u)
    rwa [if_neg huv.2] at heq
  refine ⟨hnew, ?_⟩
  constructor
  case le => exact hs ▸ follow_le hnext h.le
  case visits => exact h.follow_visits hnext hs hvisits
  case nodup =>
    rw [hrpo]
    exact concat_eq_append ▸ h.nodup.concat hnew
  case entry => exact hmem.mpr (.inl h.entry)
  case live =>
    intro u hu
    rcases hmem.mp hu with hu | rfl
    · exact h.live hu
    · exact hlive
  case work =>
    intro u hu
    rw [hwl] at hu
    rcases mem_cons.mp hu with rfl | hu
    · exact hmem.mpr (.inr rfl)
    · exact hmem.mpr (.inl (h.work hu))
  case done =>
    intro u hu
    rw [hwl]
    rcases hmem.mp hu with hu | rfl
    · exact (h.follow_done hw hs hu).imp_left (mem_cons_of_mem _)
    · exact .inl mem_cons_self
  case untouched => exact fun hu => h.follow_untouched hw hs fun hmem' => hu (hmem.mpr (.inl hmem'))
  case before =>
    intro u v hv huv
    rw [hrpo]
    rcases hmem.mp hv with hv | rfl
    · exact (h.before hv huv).trans (sublist_append_left _ _)
    have hpos : v ∈ followed g s'.successorsVisited u := by
      rw [← count_pos_iff, hall huv]
      exact count_pos_iff.mpr huv.1
    have hu : u ∈ s.reversePostOrder := by
      rw [hs] at hpos
      rcases (mem_followed hnext).mp hpos with hpos | ⟨rfl, -⟩
      · exact h.mem_of_followed hpos
      · exact h.top_mem hw
    exact (singleton_sublist.mpr hu).append_right [v]
  case full =>
    intro u v hv huv
    rcases hmem.mp hv with hv | rfl
    · exact h.follow_full hnext hs hv huv
    · exact hall huv
  case missing =>
    intro v hv hlive
    rw [hmem, not_or] at hv
    exact h.follow_missing hnext hs hv.1 hv.2 hlive

/-- Not all forward edges to the successor were followed, or it is in the order. -/
theorem skip (hnot : s'.visits successor ≠ (g.predecessors successor).length - (back successor).length)
    (hs' : s' = { s with
      dominator := s'.dominator, successorsVisited := s'.successorsVisited, visits := s'.visits }) :
    OrderInv g visited back s' := by
  rw [hs']
  refine { h with
    le := hs ▸ follow_le hnext h.le, visits := h.follow_visits hnext hs hvisits, done := h.follow_done hw hs
    untouched := h.follow_untouched hw hs, full := h.follow_full hnext hs, missing := fun {v} hv hlive => ?_ }
  by_cases heq : v = successor
  · subst heq
    have hle := Finset.sum_le_sum fun u (_ : u ∈ Finset.univ) => h.follow_count_le hg hw hnext hs hv u
    rw [h.follow_visits hnext hs hvisits, hg.inputs] at hnot
    obtain ⟨u, -, hlt⟩ := Finset.exists_lt_of_sum_lt (Nat.lt_of_le_of_ne hle hnot)
    split_ifs at hlt with hu
    · exact absurd hlt (Nat.not_lt_zero _)
    · exact ⟨u, ⟨count_pos_iff.mp (Nat.lt_of_le_of_lt (Nat.zero_le _) hlt), hu⟩, hlt⟩
  · exact h.follow_missing hnext hs hv heq hlive

end Follow

theorem complete (h : OrderInv g visited back s) (hg : LiveGraph g visited back) (hw : s.worklist = [])
    (hv : visited v = true) : v ∈ s.reversePostOrder := by
  obtain ⟨finish, hfinish⟩ := hg.rank
  by_contra hnot
  -- The block outside of the order that was finished last has a predecessor outside of it.
  obtain ⟨w, hw', hmax⟩ := Finset.exists_max_image
    (Finset.univ.filter fun w => visited w = true ∧ w ∉ s.reversePostOrder) finish ⟨v, by simp [hv, hnot]⟩
  simp only [Finset.mem_filter, Finset.mem_univ, true_and] at hw' hmax
  obtain ⟨u, huw, hlt⟩ := h.missing hw'.2 hw'.1
  have hu := hg.live huw.1
  refine absurd (hfinish hu huw) (Nat.not_lt_of_le (hmax u ⟨hu, fun hmem => ?_⟩))
  rcases h.done hmem with hmem | hlen
  · exact absurd (hw ▸ hmem) not_mem_nil
  · rw [followed, hlen, take_length] at hlt
    exact absurd hlt (Nat.lt_irrefl _)

end OrderInv

/-! ### The dominators along the way -/

/-- The invariant of the pass: the dominators found so far are a tree below the entry. -/
structure PassInv (g : HGraph n) (visited : Fin n → Bool) (back : Fin n → List (Fin n)) (s : DominanceState n) : Prop
    extends OrderInv g visited back s where
  tree : DomTree (Edge g) g.entryBlock s.dominator
  dom_iff : ∀ {v}, v ≠ g.entryBlock → (s.dominator v ≠ none ↔ ∃ u, v ∈ followed g s.successorsVisited u)
  parent_mem : ∀ {v d}, s.dominator v = some d → d ∈ s.reversePostOrder
  /-- Until a back edge moves a block of the order, no edge that was followed asks for a change. -/
  settled : (∃ u h, u ∈ back h ∧ InTree s.dominator g.entryBlock u ∧ ¬Above s.dominator h u) ∨
    ∀ {u v}, v ∈ followed g s.successorsVisited u → ∃ d, s.dominator v = some d ∧ Above s.dominator d u

variable (h : PassInv g visited back s)

namespace PassInv

include h

theorem inTree (hg : LiveGraph g visited back) (hu : u ∈ s.reversePostOrder) : InTree s.dominator g.entryBlock u := by
  by_cases heq : u = g.entryBlock
  · exact .inl heq
  rcases (hg.reach (h.live hu)).cases_tail with heq' | ⟨a, -, hau⟩
  · exact absurd heq' heq
  · refine .inr ((h.dom_iff heq).mpr ⟨a, ?_⟩)
    rw [← count_pos_iff, h.full hu hau]
    exact count_pos_iff.mpr hau.1

theorem mem_of_above {x : Fin n} (hx : Above s.dominator x u) (hu : u ∈ s.reversePostOrder) :
    x ∈ s.reversePostOrder := by
  obtain ⟨l, hl, hx⟩ := hx
  induction hl with
  | root =>
    cases mem_singleton.mp hx
    exact hu
  | step hsome _ ih =>
    rcases mem_cons.mp hx with rfl | hx
    · exact hu
    · exact ih (h.parent_mem hsome) hx

omit h

omit s in
theorem successor_ne_entry (hg : LiveGraph g visited back) {visits : Fin n → Nat}
    (hnext : (g.successors current)[visits current]? = some successor) : successor ≠ g.entryBlock := fun heq =>
  hg.entry_not_mem current (heq ▸ mem_of_getElem? hnext)

section Follow

variable (h : PassInv g visited back s) (hg : LiveGraph g visited back) (hw : s.worklist = current :: rest)
  (hnext : (g.successors current)[s.successorsVisited current]? = some successor)
  {dom' : Fin n → Option (Fin n)} {flag : Bool} (hup : Updated s.dominator current successor dom' flag)

include h hnext hup

include hg hw in
theorem follow_tree : DomTree (Edge g) g.entryBlock dom' := by
  have hcur := h.inTree hg (h.top_mem hw)
  have hedge : Edge g current successor := mem_of_getElem? hnext
  cases hup with
  | attach hv => exact h.tree.attach hcur hedge hv (successor_ne_entry hg hnext)
  | keep => exact h.tree
  | raise hv hm => exact h.tree.raise hcur hedge hv hm

theorem follow_dom_iff (hne : v ≠ g.entryBlock) : dom' v ≠ none ↔
    ∃ u, v ∈ followed g (update s.successorsVisited current (s.successorsVisited current + 1)) u := by
  have hstep : (∃ u, v ∈ followed g (update s.successorsVisited current (s.successorsVisited current + 1)) u) ↔
      s.dominator v ≠ none ∨ v = successor := by
    simp only [mem_followed hnext, exists_or, ← h.dom_iff hne]
    simp
  rw [hstep]
  by_cases heq : v = successor
  · subst heq
    cases hup with
    | keep hv => simp [hv]
    | attach | raise => simp
  · cases hup with
    | keep | attach | raise => simp [heq]

include hw in
/-- Dominators stay in the order. -/
theorem follow_parent_mem {d : Fin n} (hd : dom' v = some d) : d ∈ s.reversePostOrder := by
  have hcur := h.top_mem hw
  have hold : ∀ {x}, v ≠ successor → update s.dominator successor (some x) v = some d → d ∈ s.reversePostOrder :=
    fun hne hd => h.parent_mem ((update_of_ne hne _ _).symm.trans hd)
  by_cases heq : v = successor
  · subst heq
    cases hup with
    | keep => exact h.parent_mem hd
    | attach =>
      rw [update_self] at hd
      cases hd
      exact hcur
    | raise hv hm =>
      rw [update_self] at hd
      cases hd
      exact h.mem_of_above hm.right hcur
  · cases hup with
    | keep => exact h.parent_mem hd
    | attach | raise => exact hold heq hd

include hg hw in
/-- The followed edges stay settled, unless a back edge moved a block. -/
theorem follow_settled : (∃ u h, u ∈ back h ∧ InTree dom' g.entryBlock u ∧ ¬Above dom' h u) ∨
    ∀ {u v}, v ∈ followed g (update s.successorsVisited current (s.successorsVisited current + 1)) u →
      ∃ d, dom' v = some d ∧ Above dom' d u := by
  have hcur := h.top_mem hw
  have hne := successor_ne_entry hg hnext
  cases hup with
  | keep hv hp =>
    refine h.settled.imp_right fun hsettled => ?_
    intro u v huv
    rcases (mem_followed hnext).mp huv with huv | ⟨rfl, rfl⟩
    · exact hsettled huv
    · exact ⟨_, hv, hp⟩
  | attach hv =>
    have hkeep : ∀ {w x}, InTree s.dominator g.entryBlock w →
        (Above (update s.dominator successor (some current)) x w ↔ Above s.dominator x w) := h.tree.above_attach hv hne
    have hin : ∀ {w}, InTree s.dominator g.entryBlock w →
        InTree (update s.dominator successor (some current)) g.entryBlock w := by
      rintro w (rfl | hw)
      · exact .inl rfl
      · refine .inr ?_
        rwa [update_of_ne]
        rintro rfl
        exact hw hv
    rcases h.settled with ⟨u, t, hu, hu', hnot⟩ | hsettled
    · exact .inl ⟨u, t, hu, hin hu', fun habove => hnot ((hkeep hu').mp habove)⟩
    refine .inr fun {u v} huv => ?_
    rcases (mem_followed hnext).mp huv with huv | ⟨rfl, rfl⟩
    · obtain ⟨d, hd, hdu⟩ := hsettled huv
      have hvs : v ≠ successor := by
        rintro rfl
        cases hv.symm.trans hd
      refine ⟨d, (update_of_ne hvs _ _).trans hd, (hkeep (h.inTree hg (h.mem_of_followed huv))).mpr hdu⟩
    · refine ⟨u, update_self .., (hkeep (h.inTree hg hcur)).mpr (h.tree.above_self (h.inTree hg hcur))⟩
  | @raise p m hv hm hmp =>
    have hold : ∀ {w x}, InTree s.dominator g.entryBlock w →
        Above (update s.dominator successor (some m)) x w → Above s.dominator x w := fun {w x} hw' hx => by
      obtain ⟨l, hl, -⟩ := h.tree.rooted hw'
      exact hx.of_raise hv hm.left ⟨l, hl⟩
    rcases h.settled with ⟨u, t, hu, hu', hnot⟩ | hsettled
    · exact .inl ⟨u, t, hu, (inTree_raise hv).mpr hu', fun habove => hnot (hold hu' habove)⟩
    by_cases hmem : successor ∈ s.reversePostOrder
    · -- All forward edges to the block were followed, so this is a back edge that its header does not dominate.
      refine .inl ⟨current, successor, ?_, (inTree_raise hv).mpr (h.inTree hg hcur), fun habove => hmp ?_⟩
      · by_contra hforward
        have hfull := h.full hmem ⟨mem_of_getElem? hnext, hforward⟩
        exact absurd (count_followed_lt hnext) (Nat.not_lt_of_le hfull.ge)
      · have hp : Above s.dominator p current := (h.tree.above_parent hv).trans (hold (h.inTree hg hcur) habove)
        have hpp := h.tree.above_self (h.tree.inTree_parent hv)
        exact hm.left.antisymm (hm.lowest p hpp hp)
    · -- The block is above none of the blocks that were followed.
      have hnew : ∀ {w x}, w ∈ s.reversePostOrder → Above s.dominator x w →
          Above (update s.dominator successor (some m)) x w := fun {w x} hw' hx => by
        rcases hx.raise hv hm.left with hx' | ⟨habove, -, -⟩
        · exact hx'
        · exact absurd (h.mem_of_above habove hw') hmem
      refine .inr fun {u v} huv => ?_
      rcases (mem_followed hnext).mp huv with huv | ⟨rfl, rfl⟩
      · obtain ⟨d, hd, hdu⟩ := hsettled huv
        by_cases heq : v = successor
        · subst heq
          cases hv.symm.trans hd
          exact ⟨m, update_self .., hnew (h.mem_of_followed huv) (hm.left.trans hdu)⟩
        · exact ⟨d, (update_of_ne heq _ _).trans hd, hnew (h.mem_of_followed huv) hdu⟩
      · exact ⟨m, update_self .., hnew hcur hm.right⟩

end Follow

end PassInv

include h in
/-- A step of the pass keeps the invariant and has less left to follow, or the pass is over. -/
theorem dominanceBody_spec (hg : LiveGraph g visited back) {fuel : Nat} (hfuel : n ≤ fuel) :
    (g.dominanceBody back fuel s = some none ∧ s.worklist = []) ∨
    ∃ s', g.dominanceBody back fuel s = some (some s') ∧ PassInv g visited back s' ∧
      2 * remaining g s'.successorsVisited + s'.worklist.length <
        2 * remaining g s.successorsVisited + s.worklist.length := by
  rw [dominanceBody]
  rcases hw : s.worklist with _ | ⟨current, rest⟩
  · exact .inl ⟨rfl, rfl⟩
  refine .inr ?_
  dsimp only
  rcases hnext : (g.successors current)[s.successorsVisited current]? with _ | successor
  · refine ⟨_, rfl, ?_, by simp⟩
    exact { h.pop hw hnext with
      tree := h.tree, dom_iff := h.dom_iff, parent_mem := h.parent_mem, settled := h.settled }
  have hlt := remaining_update hnext
  obtain ⟨dom', flag, hrun, hup⟩ := updateDominatorOfSuccessor_spec (v := successor) h.tree hfuel
    (h.inTree hg (h.top_mem hw))
  have htree := h.follow_tree hg hw hnext hup
  have hiff : ∀ {v}, v ≠ g.entryBlock → (dom' v ≠ none ↔ _) := h.follow_dom_iff hnext hup
  have hparent : ∀ {v d}, dom' v = some d → d ∈ s.reversePostOrder := h.follow_parent_mem hw hnext hup
  have hsettled := h.follow_settled hg hw hnext hup
  simp only [hrun, bind_eq_bind, bind_some, Option.pure_def]
  split_ifs with hready
  · refine ⟨_, rfl, ?_, by simp only [length_cons]; omega⟩
    have horder : OrderInv g visited back ⟨dom', _, _, _, successor :: current :: rest⟩ :=
      (h.push hg hw hnext rfl rfl hready rfl (by rw [hw])).2
    exact { horder with
      tree := htree, dom_iff := hiff, settled := hsettled
      parent_mem := fun hd => mem_append_left _ (hparent hd) }
  · refine ⟨_, rfl, ?_, by simp only [length_cons]; omega⟩
    have horder : OrderInv g visited back ⟨dom', _, _, _, current :: rest⟩ :=
      h.skip hg hw hnext rfl rfl hready (by rw [hw])
    exact { horder with tree := htree, dom_iff := hiff, settled := hsettled, parent_mem := hparent }

/-- The invariant holds when only the entry is in the order. -/
theorem LiveGraph.passInv (hg : LiveGraph g visited back) :
    PassInv g visited back ⟨fun _ => none, [g.entryBlock], fun _ => 0, fun _ => 0, [g.entryBlock]⟩ := by
  have hself : Above (fun _ => none) g.entryBlock g.entryBlock := .self (.root rfl)
  have hin : ∀ {v}, InTree (fun _ => none) g.entryBlock v → v = g.entryBlock := fun h => h.resolve_right (absurd rfl)
  have horder : OrderInv g visited back ⟨fun _ => none, [g.entryBlock], fun _ => 0, fun _ => 0, [g.entryBlock]⟩ := by
    constructor
    case le => exact fun u => Nat.zero_le _
    case visits => exact fun v => by simp [followed]
    case nodup => exact nodup_singleton _
    case entry => exact mem_singleton_self _
    case live => exact fun hu => mem_singleton.mp hu ▸ hg.entry
    case work => exact id
    case done => exact fun hu => .inl hu
    case untouched => exact fun _ => rfl
    case before => exact fun hv huv => absurd (mem_singleton.mp hv ▸ huv.1) (hg.entry_not_mem _)
    case full => exact fun hv huv => absurd (mem_singleton.mp hv ▸ huv.1) (hg.entry_not_mem _)
    case missing =>
      intro v hv hlive
      rcases (hg.reach hlive).cases_tail with rfl | ⟨a, -, hav⟩
      · exact absurd (mem_singleton_self _) hv
      · exact ⟨a, hav, count_pos_iff.mpr hav.1⟩
  have hnone : ∀ {P : Prop} {v : Fin n}, none = some v → P := fun h => by cases h
  refine { horder with
    tree := ⟨rfl, fun hv => ?_, fun h => hnone h, fun hv hx => ?_⟩, dom_iff := ?_, parent_mem := fun h => hnone h
    settled := .inr fun h => absurd h not_mem_nil }
  · rw [hin hv]
    exact hself
  · rw [hin hv] at hx ⊢
    rw [mem_singleton.mp (hx _ .refl)]
    exact hself
  · exact fun _ => ⟨fun h => absurd rfl h, fun h => absurd h.choose_spec not_mem_nil⟩

theorem LiveGraph.pass (hg : LiveGraph g visited back) {fuel : Nat} (hfuel : n ≤ fuel)
    (hfuel' : 2 * remaining g (fun _ => 0) + 1 < fuel) :
    ∃ s, whileLoop (g.dominanceBody back fuel) fuel
        ⟨fun _ => none, [g.entryBlock], fun _ => 0, fun _ => 0, [g.entryBlock]⟩ =
      some s ∧ PassInv g visited back s ∧ s.worklist = [] := by
  obtain ⟨s, hrun, hinv, hend⟩ := whileLoop_ok (PassInv g visited back)
    (fun s => 2 * remaining g s.successorsVisited + s.worklist.length)
    (fun s hinv => (dominanceBody_spec hinv hg hfuel).imp_left And.left) hg.passInv hfuel'
  refine ⟨s, hrun, hinv, ?_⟩
  rcases dominanceBody_spec hinv hg hfuel with ⟨-, hw⟩ | ⟨s', hs', -⟩
  · exact hw
  · cases hs'.symm.trans hend

/-! ### The fix point -/

section FixPoint

variable {dom dom' : Fin n → Option (Fin n)} {entry h : Fin n} {fuel : Nat} {edge : Fin n → Fin n → Prop}

/-- Without a report, the header dominates all of its back edges. -/
theorem hasBackEdgeNotDominatedByHeader_spec (ht : DomTree edge entry dom) (hfuel : n ≤ fuel) :
    ∀ (l : List (Fin n)), (∀ u ∈ l, InTree dom entry u) →
      ∃ flag, hasBackEdgeNotDominatedByHeader dom fuel h l = some flag ∧ (flag = false → ∀ u ∈ l, Above dom h u)
  | [], _ => ⟨false, rfl, fun _ => nofun⟩
  | u :: l, hin => by
    obtain ⟨flag, hrun, hall⟩ := hasBackEdgeNotDominatedByHeader_spec ht hfuel l fun u hu =>
      hin u (mem_cons_of_mem _ hu)
    obtain ⟨m, hm, -⟩ := ht.rooted (hin u mem_cons_self)
    have hle := hm.length_le
    rw [Fintype.card_fin] at hle
    rw [hasBackEdgeNotDominatedByHeader, dominates_spec hm (hle.trans hfuel)]
    by_cases hmem : h ∈ m
    · refine ⟨flag, by simp [hmem, hrun], fun hflag u' hu' => ?_⟩
      rcases mem_cons.mp hu' with rfl | hu'
      · exact ⟨m, hm, hmem⟩
      · exact hall hflag u' hu'
    · exact ⟨true, by simp [hmem], nofun⟩

/-- Without a report, every header dominates its back edges. -/
theorem mustRunFixPoint_spec (ht : DomTree edge entry dom) (hfuel : n ≤ fuel)
    (hin : ∀ h, ∀ u ∈ back h, InTree dom entry u) :
    ∀ blocks : List (Fin n), ∃ flag, mustRunFixPoint back dom fuel blocks = some flag ∧
      (flag = false → ∀ h ∈ blocks, ∀ u ∈ back h, Above dom h u)
  | [] => ⟨false, rfl, fun _ => nofun⟩
  | b :: blocks => by
    obtain ⟨flag, hrun, hall⟩ := mustRunFixPoint_spec ht hfuel hin blocks
    obtain ⟨flag', hrun', hall'⟩ := hasBackEdgeNotDominatedByHeader_spec (h := b) ht hfuel (back b) (hin b)
    rw [mustRunFixPoint, hrun']
    rcases flag' with _ | _
    · refine ⟨flag, by simp [hrun], fun hflag h hh => ?_⟩
      rcases mem_cons.mp hh with rfl | hh
      · exact hall' rfl
      · exact hall hflag h hh
    · exact ⟨true, rfl, nofun⟩

open Classical in
/-- The number of pairs of which one is above the other. -/
noncomputable def height (dom : Fin n → Option (Fin n)) : Nat :=
  (Finset.univ.filter fun p : Fin n × Fin n => Above dom p.1 p.2).card

/-- A tree of all blocks. -/
structure FixInv (g : HGraph n) (visited : Fin n → Bool) (dom : Fin n → Option (Fin n)) : Prop where
  tree : DomTree (Edge g) g.entryBlock dom
  inTree : ∀ {v}, InTree dom g.entryBlock v ↔ visited v = true

/-- An update lowers the tree. -/
theorem FixInv.height_lt (h : FixInv g visited dom) {p m : Fin n} (hv : dom v = some p) (hm : IsMeet dom m p u)
    (hne : m ≠ p) : height (update dom v (some m)) < height dom := by
  have hchain : ∀ w, ∃ l, Chain dom w l := fun w => by
    by_cases hw : InTree dom g.entryBlock w
    · obtain ⟨l, hl, -⟩ := h.tree.rooted hw
      exact ⟨l, hl⟩
    · rw [InTree, not_or, not_not] at hw
      exact ⟨[w], .root hw.2⟩
  refine Finset.card_lt_card (Finset.ssubset_iff_subset_ne.mpr ⟨fun q hq => ?_, fun heq => hne ?_⟩)
  · simp only [Finset.mem_filter, Finset.mem_univ, true_and] at hq ⊢
    exact hq.of_raise hv hm.left (hchain q.2)
  · -- The old parent is not above the block any more.
    have hmem := Finset.ext_iff.mp heq (p, v)
    simp only [Finset.mem_filter, Finset.mem_univ, true_and] at hmem
    rcases (hmem.mpr (h.tree.above_parent hv)).cases_parent with heq' | ⟨d, hd, hpd⟩
    · subst heq'
      exact absurd (h.tree.above_self (h.tree.inTree_parent hv)) (Above.not_of_parent hv)
    · rw [update_self] at hd
      cases hd
      exact hm.left.antisymm (hpd.of_raise hv hm.left (hchain m))

/-- An update keeps the tree sound, and changes nothing or lowers it. -/
theorem FixInv.update (h : FixInv g visited dom) (hg : LiveGraph g visited back) (hfuel : n ≤ fuel)
    (hu : visited u = true) (he : Edge g u v) :
    ∃ dom' flag, updateDominatorOfSuccessor dom fuel u v = some (dom', flag) ∧ FixInv g visited dom' ∧
      ((flag = false ∧ dom' = dom ∧ ∃ p, dom v = some p ∧ Above dom p u) ∨
        (flag = true ∧ height dom' < height dom)) := by
  have hu' := h.inTree.mpr hu
  obtain ⟨dom', flag, hrun, hup⟩ := updateDominatorOfSuccessor_spec (v := v) h.tree hfuel hu'
  refine ⟨dom', flag, hrun, ?_⟩
  cases hup with
  | attach hv =>
    rcases h.inTree.mpr (hg.closed hu he) with rfl | hsome
    · exact absurd he (hg.entry_not_mem u)
    · exact absurd hv hsome
  | keep hv hp => exact ⟨h, .inl ⟨rfl, rfl, _, hv, hp⟩⟩
  | @raise p m hv hm hne =>
    refine ⟨⟨h.tree.raise hu' he hv hm, fun {w} => ?_⟩, .inr ⟨rfl, h.height_lt hv hm hne⟩⟩
    rw [← h.inTree, inTree_raise hv]

/-- So does a pass over all edges. -/
theorem FixInv.sweep (hg : LiveGraph g visited back) (hfuel : n ≤ fuel) :
    ∀ (edges : List (Fin n × Fin n)), (∀ e ∈ edges, visited e.1 = true ∧ Edge g e.1 e.2) →
      ∀ {dom : Fin n → Option (Fin n)}, FixInv g visited dom → ∀ updated,
      ∃ dom' updated', edges.foldlM (fun (s : (Fin n → Option (Fin n)) × Bool) edge => do
          let (dominator, updated) ← updateDominatorOfSuccessor s.1 fuel edge.1 edge.2
          return (dominator, s.2 || updated)) (dom, updated) = some (dom', updated') ∧ FixInv g visited dom' ∧
        ((updated' = updated ∧ dom' = dom ∧ ∀ e ∈ edges, ∃ p, dom e.2 = some p ∧ Above dom p e.1) ∨
          (updated' = true ∧ height dom' < height dom))
  | [], _, dom, h, updated => ⟨dom, updated, rfl, h, .inl ⟨rfl, rfl, nofun⟩⟩
  | (u, v) :: edges, hedges, dom, h, updated => by
    obtain ⟨hu, he⟩ := hedges (u, v) mem_cons_self
    obtain ⟨dom₁, flag, hrun, h₁, hcase⟩ := h.update hg hfuel hu he
    obtain ⟨dom₂, updated₂, hrun₂, h₂, hcase₂⟩ :=
      FixInv.sweep hg hfuel edges (fun e he => hedges e (mem_cons_of_mem _ he)) h₁ (updated || flag)
    refine ⟨dom₂, updated₂, by rw [foldlM_cons, hrun]; exact hrun₂, h₂, ?_⟩
    rcases hcase with ⟨rfl, rfl, hp⟩ | ⟨rfl, hlt⟩
    · rw [Bool.or_false] at hcase₂
      refine hcase₂.imp_left fun ⟨hflag, hdom, hall⟩ => ⟨hflag, hdom, fun e he => ?_⟩
      rcases mem_cons.mp he with rfl | he
      · exact hp
      · exact hall e he
    · rw [Bool.or_true] at hcase₂
      rcases hcase₂ with ⟨hflag, rfl, -⟩ | ⟨hflag, hlt'⟩
      · exact .inr ⟨hflag, hlt⟩
      · exact .inr ⟨hflag, hlt'.trans hlt⟩

/-- The passes end, with a tree that no edge asks to change. -/
theorem FixInv.fixPoint (hg : LiveGraph g visited back) (hfuel : n ≤ fuel) (h : FixInv g visited dom)
    {rpo : List (Fin n)} (hrpo : ∀ {v}, v ∈ rpo ↔ visited v = true) (hfuel' : 2 * height dom + 1 < fuel) :
    ∃ t, whileLoop (g.fixPointBody fuel rpo) fuel (dom, true) = some t ∧ FixInv g visited t.1 ∧
      DomTree.Settled (Edge g) g.entryBlock t.1 := by
  let inv (t : (Fin n → Option (Fin n)) × Bool) : Prop :=
    FixInv g visited t.1 ∧ (t.2 = false → DomTree.Settled (Edge g) g.entryBlock t.1)
  have hbody : ∀ t, inv t → g.fixPointBody fuel rpo t = some none ∨ ∃ t', g.fixPointBody fuel rpo t = some (some t') ∧
      inv t' ∧ 2 * height t'.1 + t'.2.toNat < 2 * height t.1 + t.2.toNat := by
    rintro ⟨dom₀, flag⟩ ⟨hfix, hsettled⟩
    change FixInv g visited dom₀ at hfix
    rcases flag with _ | _
    · exact .inl rfl
    refine .inr ?_
    obtain ⟨dom', updated', hrun, hfix', hcase⟩ := FixInv.sweep hg hfuel
      (rpo.flatMap fun block => (g.successors block).map fun successor => (block, successor))
      (fun e he => by
        obtain ⟨b, hb, hmem⟩ := mem_flatMap.mp he
        obtain ⟨c, hc, rfl⟩ := mem_map.mp hmem
        exact ⟨hrpo.mp hb, hc⟩) hfix false
    refine ⟨(dom', updated'), ?_, ⟨hfix', fun hflag => ?_⟩, ?_⟩
    · simp only [fixPointBody, if_true]
      rw [hrun]
      rfl
    · rcases hcase with ⟨-, rfl, hall⟩ | ⟨hflag', -⟩
      · intro u v hu he
        have hmem : (u, v) ∈ rpo.flatMap fun block => (g.successors block).map fun successor => (block, successor) :=
          mem_flatMap.mpr ⟨u, hrpo.mpr (hfix.inTree.mp hu), mem_map.mpr ⟨v, he, rfl⟩⟩
        exact hall (u, v) hmem
      · exact absurd (hflag.symm.trans hflag') Bool.false_ne_true
    · rcases hcase with ⟨rfl, rfl, -⟩ | ⟨rfl, hlt⟩
      · simp
      · change 2 * height dom' + 1 < 2 * height dom₀ + 1
        omega
  have hinit : inv (dom, true) := ⟨h, fun hflag => Bool.noConfusion hflag⟩
  obtain ⟨t, hrun, ⟨hfix, hsettled⟩, hend⟩ := whileLoop_ok inv (fun t => 2 * height t.1 + t.2.toNat) hbody hinit hfuel'
  refine ⟨t, hrun, hfix, hsettled ?_⟩
  by_contra hflag
  rw [Bool.not_eq_false] at hflag
  rw [fixPointBody, if_pos hflag] at hend
  rw [bind_eq_bind, Option.bind_eq_some_iff] at hend
  obtain ⟨a, -, ha⟩ := hend
  cases ha

end FixPoint

/-! ### The result -/

include h in
/-- What the fix point starts from, and ends with if no back edge asks for it. -/
theorem PassInv.fixInv (hg : LiveGraph g visited back) (hw : s.worklist = []) : FixInv g visited s.dominator ∧
    ((∀ u h, u ∈ back h → Above s.dominator h u) → DomTree.Settled (Edge g) g.entryBlock s.dominator) := by
  have hall : ∀ {u}, visited u = true → followed g s.successorsVisited u = g.successors u := fun {u} hu => by
    rcases h.done (h.complete hg hw hu) with hmem | hlen
    · exact absurd (hw ▸ hmem) not_mem_nil
    · rw [followed, hlen, take_length]
  have hin : ∀ {v}, InTree s.dominator g.entryBlock v ↔ visited v = true := by
    intro v
    refine ⟨fun hv => ?_, fun hv => h.inTree hg (h.complete hg hw hv)⟩
    rcases hv with rfl | hv
    · exact hg.entry
    by_cases heq : v = g.entryBlock
    · exact heq ▸ hg.entry
    · obtain ⟨u, hu⟩ := (h.dom_iff heq).mp hv
      exact hg.closed (h.live (h.mem_of_followed hu)) (mem_of_mem_take hu)
  refine ⟨⟨h.tree, hin⟩, fun hback => ?_⟩
  rcases h.settled with ⟨u, t, hu, -, hnot⟩ | hsettled
  · exact absurd (hback u t hu) hnot
  · intro u v hu he
    exact hsettled ((hall (hin.mp hu)).symm ▸ he)

theorem foldlM_dominated (dom : Fin n → Option (Fin n)) (entry : Fin n) :
    ∀ (l : List (Fin n)), (∀ b ∈ l, b ≠ entry → dom b ≠ none) → ∀ dominated : Fin n → List (Fin n),
      ∃ dominated', l.foldlM (fun (dominated : Fin n → List (Fin n)) block =>
        if block = entry then some dominated
        else (dom block).map fun d => update dominated d (dominated d ++ [block])) dominated = some dominated'
  | [], _, dominated => ⟨dominated, rfl⟩
  | b :: l, h, dominated => by
    have hrest : ∀ b ∈ l, b ≠ entry → dom b ≠ none := fun b hb => h b (mem_cons_of_mem _ hb)
    rw [foldlM_cons]
    by_cases heq : b = entry
    · rw [if_pos heq]
      exact foldlM_dominated dom entry l hrest dominated
    · obtain ⟨d, hd⟩ := Option.ne_none_iff_exists'.mp (h b mem_cons_self heq)
      rw [if_neg heq, hd]
      exact foldlM_dominated dom entry l hrest _

theorem height_le (dom : Fin n → Option (Fin n)) : height dom ≤ n * n := by
  classical
  have hle := Finset.card_filter_le (Finset.univ : Finset (Fin n × Fin n)) fun p => Above dom p.1 p.2
  simpa [height] using hle

/-- The pass ends with all live blocks in order and a settled tree. -/
theorem LiveGraph.computeDominanceInformation (hg : LiveGraph g visited back) {fuel : Nat}
    (hfuel : n + 2 * (n * n) + 2 * remaining g (fun _ => 0) + 1 < fuel) :
    ∃ info, g.computeDominanceInformation back fuel = some info ∧
      (∀ {b}, b ∈ info.reversePostOrder ↔ visited b = true) ∧ info.reversePostOrder.Nodup ∧
      (∀ {u v}, Forward g back u v → [u, v].Sublist info.reversePostOrder) ∧ FixInv g visited info.dominator ∧
      DomTree.Settled (Edge g) g.entryBlock info.dominator := by
  have hn : n ≤ fuel := by omega
  obtain ⟨s, hpass, hinv, hw⟩ := hg.pass hn (by omega)
  obtain ⟨hfix, hsettled⟩ := hinv.fixInv hg hw
  have hrpo : ∀ {b}, b ∈ s.reversePostOrder ↔ visited b = true := ⟨hinv.live, hinv.complete hg hw⟩
  have hbefore : ∀ {u v}, Forward g back u v → [u, v].Sublist s.reversePostOrder := fun {u v} huv =>
    hinv.before (hrpo.mpr (hg.closed (hg.live huv.1) huv.1)) huv
  obtain ⟨flag, hmust, hback⟩ := mustRunFixPoint_spec hfix.tree hn
    (fun h u hu => hfix.inTree.mpr (hg.mem hu).2) g.blocks
  -- Either way the dominators end up where no edge asks for a change.
  have hend : ∃ dom, g.fixDominators back fuel s = some dom ∧ FixInv g visited dom ∧
      DomTree.Settled (Edge g) g.entryBlock dom := by
    rw [fixDominators, hmust]
    rcases flag with _ | _
    · refine ⟨s.dominator, rfl, hfix, hsettled fun u h hu => hback rfl h ?_ u hu⟩
      exact hg.mem_blocks.mpr (hg.closed (hg.mem hu).2 (hg.mem hu).1)
    · have hheight := height_le s.dominator
      obtain ⟨t, hloop, hfix', hset⟩ := FixInv.fixPoint hg hn hfix hrpo (by omega)
      exact ⟨t.1, by rw [hloop]; rfl, hfix', hset⟩
  obtain ⟨dom, hdom, hfix', hset⟩ := hend
  obtain ⟨dominated, hdominated⟩ := foldlM_dominated dom g.entryBlock s.reversePostOrder
    (fun b hb hne => (hfix'.inTree.mpr (hrpo.mp hb)).resolve_left hne) fun _ => []
  refine ⟨⟨dom, s.reversePostOrder, dominated⟩, ?_, hrpo, hinv.nodup, hbefore, hfix', hset⟩
  rw [HGraph.computeDominanceInformation, hpass, bind_eq_bind, bind_some, hdom, bind_eq_bind,
    bind_some, addDominatedBlocks, hdominated]
  rfl

/-- The walks from the entry are the same without the dead blocks. -/
theorem walk_removeDeadBlocks {g : ControlFlowGraph n} (hok : BackEdgesOk g.toHGraph visited back) {v : Fin n}
    {l : List (Fin n)} : Walk (Edge (g.removeDeadBlocks visited)) g.entryBlock v l ↔
      Walk (Edge g.toHGraph) g.entryBlock v l := by
  obtain ⟨hg, hentry, hsucc⟩ := hok.removeDeadBlocks
  have hvisited : ∀ {v l}, Walk (Edge g.toHGraph) g.entryBlock v l → visited v = true := by
    intro v l hl
    induction hl with
    | refl => exact hok.entry
    | tail _ he ih => exact hok.closed ih he
  constructor
  · intro hl
    induction hl with
    | refl => exact .refl
    | tail _ he ih => exact ih.tail (show _ ∈ _ from hsucc (hvisited ih) ▸ he)
  · intro hl
    induction hl with
    | refl => exact .refl
    | tail hl he ih => exact ih.tail (show _ ∈ _ from (hsucc (hvisited hl)).symm ▸ he)

/-- With enough fuel the dominators of every graph are found: the order lists the blocks that are left, which are those
    that can be reached, each once and after its predecessors, back edges apart, and each block but the entry block
    has its immediate dominator. -/
theorem computes_immediate_dominators (g : ControlFlowGraph n) : ∃ bound, ∀ fuel, bound ≤ fuel →
    ∃ s info, g.buildDominatorTree fuel = some (s, info) ∧
      (∀ b, b ∈ info.reversePostOrder ↔ b ∈ (g.removeDeadBlocks s.visited).blocks) ∧
      (∀ b, b ∈ info.reversePostOrder ↔ ∃ l, Walk (Edge g.toHGraph) g.entryBlock b l) ∧
      info.reversePostOrder.Nodup ∧
      (∀ u ∈ info.reversePostOrder, ∀ v ∈ g.successors u, u ∉ s.backEdges v → [u, v].Sublist info.reversePostOrder) ∧
      info.dominator g.entryBlock = none ∧
      ∀ b ∈ info.reversePostOrder, b ≠ g.entryBlock →
        ∃ d, info.dominator b = some d ∧ IsImmediateDominator (Edge g.toHGraph) g.entryBlock d b := by
  refine ⟨n + 2 * (n * n) + 2 * remaining g.toHGraph (fun _ => 0) + 2, fun fuel hfuel => ?_⟩
  have hsearch : 2 * remaining g.toHGraph (fun _ => 0) + 1 < fuel := by omega
  obtain ⟨s, hsearch, hok⟩ := findBackEdges_spec g.toHGraph hsearch
  obtain ⟨hg, hentry, hsucc⟩ := hok.removeDeadBlocks
  have hremaining : remaining (g.removeDeadBlocks s.visited) (fun _ => 0) ≤ remaining g.toHGraph fun _ => 0 := by
    refine Finset.sum_le_sum fun u _ => ?_
    rcases hu : s.visited u with _ | _
    · rw [hg.dead hu]
      exact Nat.zero_le _
    · rw [hsucc hu]
  have hfuel : n + 2 * (n * n) + 2 * remaining (g.removeDeadBlocks s.visited) (fun _ => 0) + 1 < fuel := by omega
  obtain ⟨info, hrun, hrpo, hnodup, hbefore, hfix, hset⟩ := hg.computeDominanceInformation hfuel
  rw [hentry] at hset
  have htree := hfix.tree
  rw [hentry] at htree
  have hin : ∀ {v}, InTree info.dominator g.entryBlock v ↔ s.visited v = true := hentry ▸ hfix.inTree
  refine ⟨s, info, ?_, fun b => hrpo.trans hg.mem_blocks.symm, fun b => ?_, hnodup, fun u hu v hv hback => ?_,
    htree.root, fun b hb hne => ?_⟩
  · rw [buildDominatorTree, hsearch, bind_eq_bind, bind_some, hrun]
    rfl
  · rw [hrpo]
    refine ⟨fun hb => ?_, fun ⟨l, hl⟩ => hin.mp (hset.inTree ((walk_removeDeadBlocks hok).mpr hl))⟩
    obtain ⟨l, hl, -⟩ := htree.walk_down (htree.rooted (hin.mpr hb))
    exact ⟨l, (walk_removeDeadBlocks hok).mp hl⟩
  · exact hbefore ⟨(hsucc (hrpo.mp hu)).symm ▸ hv, hback⟩
  · obtain ⟨d, hd⟩ := Option.ne_none_iff_exists'.mp ((hin.mpr (hrpo.mp hb)).resolve_left hne)
    obtain ⟨hdom, hdne, hnear⟩ := hset.isImmediateDominator htree hd
    refine ⟨d, hd, fun l hl => hdom l ((walk_removeDeadBlocks hok).mpr hl), hdne, fun e he hne l hl => ?_⟩
    exact hnear e (fun l hl => he l ((walk_removeDeadBlocks hok).mp hl)) hne l ((walk_removeDeadBlocks hok).mpr hl)

/-- Two blocks that branch to each other and are both entered from outside. -/
def irreducibleGraph : ControlFlowGraph 3 where
  blocks := [0, 1, 2]
  entryBlock := 0
  successors b := if b = 0 then [1, 2] else if b = 1 then [2] else [1]
  predecessors b := if b = 0 then [] else if b = 1 then [0, 2] else [0, 1]
  entry_mem := by decide
  successors_mem := by decide
  count_predecessors := by decide
  entry_predecessors := by decide

example : (irreducibleGraph.buildDominatorTree 20).map
  (fun r => (r.2.reversePostOrder, r.2.dominator 1, r.2.dominator 2)) =
    some ([0, 1, 2], some 0, some 0) := by decide

theorem computes_immediate_dominators_sample :
    ∃ fuel s info, irreducibleGraph.buildDominatorTree fuel = some (s, info) ∧
    ∀ b ∈ info.reversePostOrder, b ≠ 0 →
      ∃ d, info.dominator b = some d ∧ IsImmediateDominator (Edge irreducibleGraph.toHGraph) 0 d b := by
  obtain ⟨bound, h⟩ := computes_immediate_dominators irreducibleGraph
  obtain ⟨s, info, hrun, -, -, -, -, -, hdom⟩ := h bound (Nat.le_refl bound)
  exact ⟨bound, s, info, hrun, hdom⟩

end HGraph

end Art
