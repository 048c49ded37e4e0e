import Art.Theorems.LrtAdd
import Mathlib.Data.List.TakeWhile

/-! # Removing a local reference -/

namespace Art.Lrt
open LrtEntry LocalReferenceTable List Function

variable {t t' : LocalReferenceTable} {f : Frame} {fs : List Frame} {free : List Nat} {frees : List (List Nat)}
  {refs : List (IndirectRef × Object)} {obj : Object} {i k s pruneStart : Nat} {l m : List Nat}

/-! ### Taking entries out of the free list -/

/-- The list of holes that starts with `s`. -/
structure FreeList (t : LocalReferenceTable) (s : Nat) (l : List Nat) : Prop where
  linked : Linked (fun i => (t.word i).link) kFreeListEnd s l
  hole : ∀ i ∈ l, i < t.maxEntries ∧ (t.word i).IsHole
  nodup : l.Nodup

/-- `t'` differs from `t` only in the entries of `l`. -/
structure Rewrites (l : List Nat) (t t' : LocalReferenceTable) : Prop where
  word : ∀ i ∉ l, t'.word i = t.word i
  fields : t' = { t with entries := t'.entries }

theorem Rewrites.refl (l : List Nat) (t : LocalReferenceTable) : Rewrites l t t := ⟨fun _ _ => rfl, rfl⟩

theorem Rewrites.allocated (h : Rewrites l t t') (ha : t.Allocated) : t'.Allocated := by
  rw [h.fields]
  exact ha

theorem Rewrites.trans {t'' : LocalReferenceTable} (h : Rewrites l t t') (h' : Rewrites m t' t'') (hsub : m ⊆ l) :
    Rewrites l t t'' where
  word i hi := (h'.word i fun hm => hi (hsub hm)).trans (h.word i hi)
  fields := by rw [h'.fields, h.fields]

theorem Rewrites.write (t : LocalReferenceTable) (hk : k ∈ l) (v : LrtEntry) :
    Rewrites l t (t.write (entryAt k) v) where
  word i hi := by
    rw [word_write]
    exact update_of_ne (ne_of_mem_of_not_mem hk hi).symm ..
  fields := rfl

theorem FreeList.write (h : FreeList t s l) (hk : k ∉ l) (v : LrtEntry) : FreeList (t.write (entryAt k) v) s l := by
  have hw : ∀ i ∈ l, (t.write (entryAt k) v).word i = t.word i := fun i hi => by
    rw [word_write]
    exact update_of_ne (ne_of_mem_of_not_mem hi hk) ..
  refine ⟨h.linked.congr fun i hi => congrArg link (hw i hi), fun i hi => ?_, h.nodup⟩
  rw [hw i hi]
  exact h.hole i hi

theorem FreeList.of_allocated (ha : t.Allocated) (h : FreeList t s l) (hi : i ∈ l) :
    t.getEntry i = .ok (entryAt i) ∧ i ≠ kFreeListEnd ∧ (t.entries (entryAt i)).getNextFree = .ok (t.word i).link := by
  obtain ⟨hlt, hhole⟩ := h.hole i hi
  exact ⟨ha.getEntry hlt, ((ha.lt_of_lt_maxEntries hlt).trans (by decide)).ne, getNextFree_of_isHole hhole⟩

/-- The pruned entries at the head of the free list are popped. -/
theorem popPrunedEntries_spec (ha : t.Allocated) (h : FreeList t s l) (pruneStart : Nat) :
    ∃ t' s', popPrunedEntries pruneStart (l.countP (pruneStart ≤ ·)) s t =
        .ok (t', (l.dropWhile (pruneStart ≤ ·)).countP (pruneStart ≤ ·), s') ∧
      FreeList t' s' (l.dropWhile (pruneStart ≤ ·)) ∧ Rewrites l t t' := by
  induction l generalizing t s with
  | nil => exact ⟨t, s, rfl, h, .refl _ t⟩
  | cons a l ih =>
    obtain ⟨rfl, hlinked⟩ := h.linked
    obtain ⟨hentry, hne, hnext⟩ := h.of_allocated ha mem_cons_self
    obtain ⟨hnot, hnodup⟩ := nodup_cons.mp h.nodup
    have htail : FreeList t (t.word s).link l := ⟨hlinked, fun i hi => h.hole i (mem_cons_of_mem s hi), hnodup⟩
    by_cases hs : pruneStart ≤ s
    · rw [countP_cons_of_pos (by simpa using hs), dropWhile_cons_of_pos (by simpa using hs), popPrunedEntries,
        if_pos hs, dcheck_of (decide_eq_true hne), hentry]
      simp only [ok_bind, hnext]
      obtain ⟨t', s', heq, hlist, hrew⟩ := ih (t := t.write (entryAt s) (reference kDeadLocalValue)) ha
        (htail.write hnot _)
      refine ⟨t', s', heq, hlist, ?_⟩
      exact (Rewrites.write t mem_cons_self _).trans hrew (subset_cons_self s l)
    · rw [dropWhile_cons_of_neg (by simpa using hs)]
      refine ⟨t, s, ?_, h, .refl _ t⟩
      cases hcount : (s :: l).countP (pruneStart ≤ ·) with
      | zero => rfl
      | succ remaining =>
        rw [popPrunedEntries]
        exact if_neg hs

variable {bottom : Nat} {a b : Nat}

/-- The kept entries are skipped up to the next pruned one. -/
theorem skipKeptEntries_spec (ha : t.Allocated) {mid : List Nat}
    (hlinked : Linked (fun i => (t.word i).link) kFreeListEnd a (a :: (mid ++ b :: l)))
    (hhole : ∀ i ∈ a :: mid, i < t.maxEntries ∧ (t.word i).IsHole) (hmid : ∀ i ∈ mid, i < pruneStart ∧ bottom ≤ i)
    (hb : pruneStart ≤ b) {steps : Nat} (hsteps : mid.length < steps) :
    ∃ front a', a :: mid = front ++ [a'] ∧ t.skipKeptEntries pruneStart bottom steps a = .ok a' := by
  induction mid generalizing a steps with
  | nil =>
    obtain ⟨steps, rfl⟩ := Nat.exists_eq_succ_of_ne_zero (Nat.ne_of_gt hsteps)
    obtain ⟨hlt, hhole⟩ := hhole a mem_cons_self
    have heq : (t.word a).link = b := hlinked.2.1
    refine ⟨[], a, rfl, ?_⟩
    simp only [skipKeptEntries, ha.getEntry hlt, ok_bind, entries_entryAt, getNextFree_of_isHole hhole, heq,
      if_neg hb.not_gt]
    rfl
  | cons c mid ih =>
    obtain ⟨steps, rfl⟩ := Nat.exists_eq_succ_of_ne_zero (Nat.ne_of_gt (Nat.zero_lt_of_lt hsteps))
    obtain ⟨hlt, hhole'⟩ := hhole a mem_cons_self
    obtain ⟨hc, hc'⟩ := hmid c mem_cons_self
    have heq : (t.word a).link = c := hlinked.2.1
    have hlinked' : Linked (fun i => (t.word i).link) kFreeListEnd c (c :: (mid ++ b :: l)) := heq ▸ hlinked.2
    obtain ⟨front, a', happ, hskip⟩ := ih hlinked' (fun i hi => hhole i (mem_cons_of_mem a hi))
      (fun i hi => hmid i (mem_cons_of_mem c hi)) (Nat.lt_of_succ_lt_succ hsteps)
    refine ⟨a :: front, a', by rw [happ]; rfl, ?_⟩
    simp only [skipKeptEntries, ha.getEntry hlt, ok_bind, entries_entryAt, getNextFree_of_isHole hhole', heq, if_pos hc,
      dcheck_of (decide_eq_true hc')]
    exact hskip

/-- One pruned entry is taken out of the middle of the list. -/
theorem FreeList.unlink (h : FreeList t s (l ++ a :: b :: m)) :
    FreeList ((t.write (entryAt a) (LrtEntry.free (t.word b).link)).write (entryAt b) (reference kDeadLocalValue)) s
      (l ++ a :: m) := by
  have hsub : (l ++ a :: m).Sublist (l ++ a :: b :: m) := (sublist_cons_self b m).cons_cons a |>.append_left l
  have hb : b ∉ l ++ a :: m := by
    have := h.nodup
    rw [append_cons, nodup_append, nodup_cons] at this
    obtain ⟨-, ⟨hbm, -⟩, hdisj⟩ := this
    rw [append_cons, mem_append]
    exact fun hmem => hmem.elim (fun hmem => hdisj b hmem b mem_cons_self rfl) hbm
  have hw : ∀ i ∈ l ++ a :: m, word ((t.write (entryAt a) (LrtEntry.free (t.word b).link)).write (entryAt b)
      (reference kDeadLocalValue)) i = update t.word a (LrtEntry.free (t.word b).link) i := fun i hi => by
    rw [word_write, word_write]
    exact update_of_ne (ne_of_mem_of_not_mem hi hb) ..
  refine ⟨(h.linked.unlink h.nodup).congr fun i hi => ?_, fun i hi => ?_, h.nodup.sublist hsub⟩
  · rw [hw i hi]
    by_cases hia : i = a
    · rw [hia, update_self, update_self, link_free]
    · rw [update_of_ne hia, update_of_ne hia]
  · obtain ⟨hlt, hhole⟩ := h.hole i (hsub.subset hi)
    refine ⟨hlt, ?_⟩
    rw [hw i hi]
    by_cases hia : i = a
    · rw [hia, update_self]
      exact isHole_free
    · rwa [update_of_ne hia]

/-- The pruned entries after a kept one are unlinked. -/
theorem unlinkPrunedEntries_spec (ha : t.Allocated) {kept todo : List Nat} {a : Nat}
    (h : FreeList t s (kept ++ a :: todo))
    (ha_lt : a < pruneStart)
    (hbottom : (kept ++ a :: todo).Pairwise fun x y => pruneStart ≤ y → bottom ≤ x) :
    ∃ t' a', unlinkPrunedEntries pruneStart bottom (todo.countP (pruneStart ≤ ·)) a t = .ok (t', a') ∧ a' < pruneStart ∧
      FreeList t' s (kept ++ a :: todo.filter (· < pruneStart)) ∧ Rewrites (kept ++ a :: todo) t t' := by
  induction hn : todo.countP (pruneStart ≤ ·) generalizing t kept a todo with
  | zero =>
    have hall : todo.filter (· < pruneStart) = todo := by
      rw [filter_eq_self]
      intro i hi
      simpa using countP_eq_zero.mp hn i hi
    rw [hall]
    exact ⟨t, a, rfl, ha_lt, h, .refl _ t⟩
  | succ n ih =>
    obtain ⟨b, hfind⟩ : ∃ b, todo.find? (pruneStart ≤ ·) = some b := by
      obtain ⟨b, hb, hp⟩ := countP_pos_iff.mp (by rw [hn]; exact Nat.succ_pos n)
      exact Option.isSome_iff_exists.mp (find?_isSome.mpr ⟨b, hb, hp⟩)
    obtain ⟨hb, mid, todo', rfl, hmid⟩ := find?_eq_some_iff_append.mp hfind
    replace hb : pruneStart ≤ b := by simpa using hb
    replace hmid : ∀ i ∈ mid, i < pruneStart := fun i hi => by simpa using hmid i hi
    have hsplit : kept ++ a :: (mid ++ b :: todo') = (kept ++ a :: mid) ++ b :: todo' := by simp
    have hge : ∀ i ∈ kept ++ a :: mid, bottom ≤ i := fun i hi => by
      rw [hsplit, pairwise_append] at hbottom
      exact hbottom.2.2 i hi b mem_cons_self hb
    have ha_mem : a ∈ kept ++ a :: mid := mem_append_right _ mem_cons_self
    have hmid_mem : ∀ i ∈ mid, i ∈ kept ++ a :: mid := fun i hi => mem_append_right _ (mem_cons_of_mem a hi)
    have hlen : mid.length < t.maxEntries := by
      have := length_le_of_nodup_of_lt h.nodup fun i hi => (h.hole i hi).1
      rw [hsplit] at this
      simp only [length_append, length_cons] at this
      omega
    obtain ⟨-, hane, -⟩ := h.of_allocated ha (i := a) (mem_append_right _ mem_cons_self)
    -- The last entry before the pruned one.
    obtain ⟨front, a', hfront, hskip⟩ : ∃ front a', a :: mid = front ++ [a'] ∧
        t.skipKeptEntries pruneStart bottom t.maxEntries a = .ok a' := by
      obtain ⟨j, -, hj⟩ := Linked.append_iff.mp h.linked
      obtain rfl : j = a := hj.1
      refine skipKeptEntries_spec ha hj (fun i hi => h.hole i ?_)
        (fun i hi => ⟨hmid i hi, hge i (hmid_mem i hi)⟩) hb hlen
      rw [hsplit]
      exact mem_append_left _ (mem_append_right _ hi)
    have hlist : kept ++ a :: (mid ++ b :: todo') = (kept ++ front) ++ a' :: b :: todo' := by
      rw [hsplit, hfront]
      simp
    rw [hlist] at h hbottom
    have ha' : a' < pruneStart := by
      have : a' ∈ a :: mid := hfront ▸ mem_append_right front mem_cons_self
      rcases mem_cons.mp this with rfl | hmem
      · exact ha_lt
      · exact hmid a' hmem
    have hsub : ((kept ++ front) ++ a' :: todo').Sublist ((kept ++ front) ++ a' :: b :: todo') :=
      (sublist_cons_self b todo').cons_cons a' |>.append_left _
    have hcount : todo'.countP (pruneStart ≤ ·) = n := by
      rw [countP_append, countP_cons_of_pos (by simpa using hb),
        countP_eq_zero.mpr fun i hi => by simpa using hmid i hi] at hn
      omega
    have halloc : ((t.write (entryAt a') (LrtEntry.free (t.word b).link)).write (entryAt b)
        (reference kDeadLocalValue)).Allocated := ha
    obtain ⟨t', a'', heq, ha'', hfree, hrew⟩ := ih halloc h.unlink ha' (hbottom.sublist hsub) hcount
    have hlist' : kept ++ a :: (mid ++ b :: todo').filter (· < pruneStart) =
        (kept ++ front) ++ a' :: todo'.filter (· < pruneStart) := by
      rw [filter_append, filter_cons_of_neg (by simpa using hb),
        filter_eq_self.mpr fun i hi => by simpa using hmid i hi, ← cons_append, hfront]
      simp
    have hmem_a' : a' ∈ (kept ++ front) ++ a' :: b :: todo' := mem_append_right _ mem_cons_self
    have hmem_b : b ∈ (kept ++ front) ++ a' :: b :: todo' := mem_append_right _ (mem_cons_of_mem a' mem_cons_self)
    obtain ⟨hentry_a', -, hnext_a'⟩ := h.of_allocated ha hmem_a'
    obtain ⟨hentry_b, -, hnext_b⟩ := h.of_allocated ha hmem_b
    have hlink : (t.word a').link = b := by
      obtain ⟨j, -, hj⟩ := Linked.append_iff.mp h.linked
      exact hj.2.1
    refine ⟨t', a'', ?_, ha'', hlist' ▸ hfree, ?_⟩
    · rw [unlinkPrunedEntries, dcheck_of (decide_eq_true hane), dcheck_of (decide_eq_true ha_lt),
        dcheck_of (decide_eq_true (hge a ha_mem)), hskip]
      simp only [ok_bind, hentry_a', hnext_a', hlink, hentry_b, hnext_b]
      exact heq
    · rw [hlist]
      exact ((Rewrites.write t hmem_a' _).trans (Rewrites.write _ hmem_b _) (List.Subset.refl _)).trans hrew hsub.subset

/-- The free list keeps the entries below the start of the pruning, in order. -/
theorem pruneFreeList_spec (ha : t.Allocated) (h : FreeList t t.firstFreeIndex l)
    (hbottom : l.Pairwise fun x y => pruneStart ≤ y → bottom ≤ x) :
    ∃ t', t.pruneFreeList pruneStart bottom (l.countP (pruneStart ≤ ·)) = .ok t' ∧
      FreeList t' t'.firstFreeIndex (l.filter (· < pruneStart)) ∧
      (∀ i ∉ l, t'.word i = t.word i) ∧ t' = { t with entries := t'.entries, firstFreeIndex := t'.firstFreeIndex } := by
  obtain ⟨t1, s1, hpop, hfree1, hrew1⟩ := popPrunedEntries_spec ha h pruneStart
  have hfilter : (l.dropWhile (pruneStart ≤ ·)).filter (· < pruneStart) = l.filter (· < pruneStart) := by
    have htake : (l.takeWhile (pruneStart ≤ ·)).filter (· < pruneStart) = [] :=
      filter_eq_nil_iff.mpr fun i hi => by simpa using mem_takeWhile_imp hi
    conv_rhs => rw [← takeWhile_append_dropWhile (p := (pruneStart ≤ ·)) (l := l)]
    rw [filter_append, htake, nil_append]
  have hsub : (l.dropWhile (pruneStart ≤ ·)).Sublist l := dropWhile_sublist _
  rw [← hfilter]
  rw [pruneFreeList, hpop]
  simp only [ok_bind]
  cases hdrop : l.dropWhile (pruneStart ≤ ·) with
  | nil =>
    rw [hdrop] at hfree1
    have hend : s1 = kFreeListEnd := hfree1.linked
    refine ⟨{ t1 with firstFreeIndex := s1 }, ?_, ⟨hfree1.linked, hfree1.hole, hfree1.nodup⟩, hrew1.word, ?_⟩
    · simp [unlinkPrunedEntries, hend]
    · rw [hrew1.fields]
  | cons a todo =>
    rw [hdrop] at hfree1 hsub
    have ha_lt : a < pruneStart := by
      have := head?_dropWhile_not (pruneStart ≤ ·) l
      rw [hdrop] at this
      simpa using this
    have hone : FreeList { t1 with firstFreeIndex := s1 } s1 ([] ++ a :: todo) :=
      ⟨hfree1.linked, hfree1.hole, hfree1.nodup⟩
    obtain ⟨t2, a', hunlink, ha', hfree2, hrew2⟩ := unlinkPrunedEntries_spec (t := { t1 with firstFreeIndex := s1 })
      (hrew1.allocated ha) hone ha_lt (hbottom.sublist hsub)
    obtain rfl : s1 = a := hfree1.linked.1
    have hcount : (s1 :: todo).countP (pruneStart ≤ ·) = todo.countP (pruneStart ≤ ·) :=
      countP_cons_of_neg (by simpa using ha_lt)
    have hfirst : t2.firstFreeIndex = s1 := by rw [hrew2.fields]
    refine ⟨t2, ?_, ?_, fun i hi => ?_, ?_⟩
    · rw [hcount, hunlink]
      simp [ha']
    · rw [hfirst, filter_cons_of_pos (by simpa using ha_lt)]
      exact hfree2
    · exact (hrew2.word i fun hmem => hi (hsub.subset hmem)).trans (hrew1.word i hi)
    · rw [hrew2.fields, hrew1.fields]

/-! ### The range of holes below the top -/

/-- The holes `pruned` are those from `p` to the top, except for the entry `i` that is removed. -/
structure PruneRange (w : Nat → LrtEntry) (bottom top : Nat) (free : List Nat) (i p : Nat) (pruned : List Nat) :
    Prop where
  bottom_le : bottom ≤ p
  chunk : ∀ j, bottom ≤ j → j < p → (w (chunkOf j)).isSerialNumber = true → chunkOf j + 4 ≤ p
  hole : ∀ j, p ≤ j → j < top → Active w j → j = i ∨ (w j).IsHole
  nodup : pruned.Nodup
  mem : ∀ j, j ∈ pruned ↔ j ∈ free ∧ p ≤ j

variable {w : Nat → LrtEntry} {top p : Nat} {pruned : List Nat}

/-- The entry `i` starts at `pruneEnd`, with its chunk if it has one, and ends at the top. -/
def EndsAt (w : Nat → LrtEntry) (i pruneEnd top : Nat) : Prop :=
  (w (chunkOf i)).isSerialNumber = true ∧ pruneEnd = chunkOf i ∧ top = pruneEnd + 4 ∨
    (w (chunkOf i)).isSerialNumber = false ∧ pruneEnd = i ∧ top = pruneEnd + 1

/-- A range without holes, from the start of the removed entry. -/
theorem Segment.pruneRange (h : Segment w bottom top refs free) (hi : bottom ≤ i) (ha : Active w i)
    (hobj : w i = reference obj) {pruneEnd : Nat} (hend : EndsAt w i pruneEnd top) :
    PruneRange w bottom top free i pruneEnd [] := by
  have hchunk := fun j => chunkOf_eq j
  have honly : ∀ j, pruneEnd ≤ j → j < top → Active w j → j = i := by
    intro j hj hj' hja
    rcases hend with ⟨hs, hp, ht⟩ | ⟨-, hp, ht⟩
    · refine hja.unique ha ?_ hs
      rw [hchunk] at hp ⊢
      rw [hchunk]
      omega
    · omega
  refine ⟨?_, fun j hj hj' hs => ?_, fun j hj hj' hja => .inl (honly j hj hj' hja), nodup_nil, fun j => ?_⟩
  · rcases hend with ⟨hs, hp, -⟩ | ⟨-, hp, -⟩
    · exact hp ▸ h.chunkOf_ge hi hs
    · exact hp ▸ hi
  · rcases hend with ⟨-, hp, -⟩ | ⟨hplain, hp, ht⟩
    · rw [hchunk] at hp ⊢
      omega
    · have hle := (h.chunk j hj (by omega) hs).1
      by_contra hlt
      have heq : chunkOf i = chunkOf j := by
        rw [hchunk] at hle hlt ⊢
        rw [hchunk]
        omega
      rw [heq, hs] at hplain
      cases hplain
  · refine ⟨fun h' => absurd h' not_mem_nil, fun ⟨hj, hp⟩ => ?_⟩
    obtain ⟨-, hj', hja, hhole⟩ := (h.mem_free j).mp hj
    rw [honly j hp hj' hja, hobj] at hhole
    exact absurd hhole not_isHole_reference

/-- The range grows by the hole `k`, the only active entry between `q` and `p`. -/
theorem PruneRange.cons {q : Nat} (h : PruneRange w bottom top free i p pruned) (hk : k ∈ free) (hq : bottom ≤ q)
    (hqk : q ≤ k) (hkp : k < p) (hhole : (w k).IsHole) (honly : ∀ j, q ≤ j → j < p → Active w j → j = k)
    (hfree : ∀ j ∈ free, Active w j) (hchunk : ∀ j, bottom ≤ j → j < q → (w (chunkOf j)).isSerialNumber = true →
      chunkOf j + 4 ≤ q) :
    PruneRange w bottom top free i q (k :: pruned) where
  bottom_le := hq
  chunk := hchunk
  hole j hj hj' hja := by
    rcases Nat.lt_or_ge j p with hlt | hge
    · exact .inr (honly j hj hlt hja ▸ hhole)
    · exact h.hole j hge hj' hja
  nodup := nodup_cons.mpr ⟨fun hmem => hkp.not_ge ((h.mem k).mp hmem).2, h.nodup⟩
  mem j := by
    rw [mem_cons, h.mem]
    constructor
    · rintro (rfl | ⟨hj, hp⟩)
      · exact ⟨hk, hqk⟩
      · exact ⟨hj, hqk.trans (hkp.le.trans hp)⟩
    · rintro ⟨hj, hp⟩
      rcases Nat.lt_or_ge j p with hlt | hge
      · exact .inl (honly j hp hlt (hfree j hj))
      · exact .inr ⟨hj, hge⟩

theorem Segment.isHole_of_isFree (h : Segment w bottom top refs free) (hk : bottom ≤ k) (hk' : k < top)
    (ha : Active w k) (hfree : (w k).isFree = true) : (w k).IsHole := by
  rcases h.entry k hk hk' ha with ⟨obj, heq⟩ | hhole
  · rw [heq, isFree_reference] at hfree
    cases hfree
  · exact hhole

theorem subSize_of_le (h : b ≤ a) (ha : a < 2 ^ 64) : subSize a b = a - b := by
  rw [subSize]
  omega

theorem subUint32_of_le (h : b ≤ a) (ha : a < 2 ^ 32) : subUint32 a b = a - b := by
  rw [subUint32]
  omega

section

variable {pruneEnd : Nat} (ha : t.Allocated) (h : Segment w bottom top refs free) (htop : top ≤ t.maxEntries)
  (hend : pruneEnd < top) (hw : ∀ j < pruneEnd, t.word j = w j)

include ha h htop hend hw

omit h in
/-- The previous entry is free, and in no chunk with a serial number. -/
theorem isPrevEntryFree_spec (hp : bottom < p) (hp' : p ≤ pruneEnd) :
    t.isPrevEntryFree p = .ok ((w (p - 1)).isFree && !(w (chunkOf (p - 1))).isSerialNumber) := by
  have hmax : t.maxEntries ≤ 2 ^ 25 := ha.maxEntries_le
  have hsub : subSize p 1 = p - 1 := subSize_of_le (by omega) (by omega)
  have hle := chunkOf_le (p - 1)
  simp only [isPrevEntryFree, hsub, ha.getEntry (show p - 1 < t.maxEntries by omega), ok_bind,
    getCheckJniSerialNumberEntry_entryAt, entries_entryAt, hw (p - 1) (by omega), hw (chunkOf (p - 1)) (by omega)]
  rfl

omit h htop hend hw in
/-- The loop, in steps of `d` entries. -/
theorem findPruneStart_spec {isPrevFree : Nat → Except Failure Bool} {d : Nat} (hd : 1 ≤ d) (hp' : p ≤ t.maxEntries)
    (hstep : ∀ p' pruned', PruneRange w bottom top free i p' pruned' → bottom < p' → p' ≤ p → p' % d = p % d →
      (∃ k, bottom + d ≤ p' ∧ isPrevFree p' = .ok true ∧ PruneRange w bottom top free i (p' - d) (k :: pruned')) ∨
        isPrevFree p' = .ok false)
    (steps : Nat) (hr : PruneRange w bottom top free i p pruned) (hsteps : p < bottom + steps) :
    ∃ ps pruned', findPruneStart isPrevFree d bottom steps p = .ok ps ∧ ps ≤ p ∧
      PruneRange w bottom top free i ps pruned' ∧ pruned'.length * d + ps = pruned.length * d + p := by
  induction steps generalizing p pruned with
  | zero => exact absurd hr.bottom_le hsteps.not_ge
  | succ steps ih =>
    by_cases hp : p > bottom
    · rw [findPruneStart, if_pos hp]
      rcases hstep p pruned hr hp le_rfl rfl with ⟨k, hk, hrun, hr'⟩ | hrun
      · have hmax : t.maxEntries ≤ 2 ^ 25 := ha.maxEntries_le
        have hsub : subUint32 p d = p - d := subUint32_of_le (by omega) (by omega)
        obtain ⟨ps, pruned', heq, hle, hr'', hlen⟩ := ih (by omega)
          (fun p' pruned' hr hb hle hmod => hstep p' pruned' hr hb (by omega)
            (hmod.trans (Nat.mod_eq_sub_mod (by omega)).symm)) hr' (by omega)
        rw [hrun]
        simp only [ok_bind, if_true, hsub]
        refine ⟨ps, pruned', heq, by omega, hr'', ?_⟩
        rw [length_cons, Nat.succ_mul] at hlen
        omega
      · rw [hrun]
        exact ⟨p, pruned, rfl, le_rfl, hr, rfl⟩
    · exact ⟨p, pruned, by rw [findPruneStart, if_neg hp]; rfl, le_rfl, hr, rfl⟩

/-- A free previous entry extends the range to prune. -/
theorem isPrevEntryFree_range (hr : PruneRange w bottom top free i p pruned) (hp : bottom < p) (hp' : p ≤ pruneEnd) :
    (∃ k, bottom + 1 ≤ p ∧ t.isPrevEntryFree p = .ok true ∧ PruneRange w bottom top free i (p - 1) (k :: pruned)) ∨
      t.isPrevEntryFree p = .ok false := by
  rw [isPrevEntryFree_spec ha htop hend hw hp hp']
  cases hfree : (w (p - 1)).isFree && !(w (chunkOf (p - 1))).isSerialNumber with
  | false => exact .inr rfl
  | true =>
    rw [Bool.and_eq_true, Bool.not_eq_true'] at hfree
    have hactive := active_of_plain hfree.2
    have hhole := h.isHole_of_isFree (by omega) (by omega) hactive hfree.1
    have hmem := (h.mem_free (p - 1)).mpr ⟨by omega, by omega, hactive, hhole⟩
    refine .inl ⟨p - 1, hp, rfl, hr.cons hmem (by omega) le_rfl (by omega) hhole (fun j hj hj' _ => by omega)
      (fun j hj => ((h.mem_free j).mp hj).2.2.1) fun j hj hj' hs => ?_⟩
    have hle := hr.chunk j hj (by omega) hs
    by_contra hlt
    have heq : chunkOf (p - 1) = chunkOf j := by
      rw [chunkOf_eq] at hle hlt ⊢
      rw [chunkOf_eq]
      omega
    rw [heq, hs] at hfree
    exact Bool.false_ne_true hfree.2.symm

/-- The chunk below `p` has a serial number that selects a hole, or it is kept. -/
theorem isPrevChunkFree_spec (hp : bottom < p) (hp' : p ≤ pruneEnd) (hp4 : p % 4 = 0) :
    (∃ n, 1 ≤ n ∧ n ≤ 3 ∧ bottom ≤ p - 4 ∧ w (p - 4) = serial n ∧ (w (p - 4 + n)).isFree = true ∧
      t.isPrevChunkFree p = .ok true) ∨ t.isPrevChunkFree p = .ok false := by
  have hmax : t.maxEntries ≤ 2 ^ 25 := ha.maxEntries_le
  have hsub : subSize p 4 = p - 4 := subSize_of_le (by omega) (by omega)
  have hchunk : chunkOf (p - 4) = p - 4 := by
    rw [chunkOf_eq]
    omega
  have haligned : dcheckAligned p = .ok () := if_pos hp4
  have hoffset : decide ((entryAt (p - 4)).offset % kCheckJniEntriesPerReference = 0) = true := by
    rw [decide_eq_true_iff, kCheckJniEntriesPerReference, entryAt_offset_mod]
    omega
  rw [isPrevChunkFree, haligned, show subSize p kCheckJniEntriesPerReference = p - 4 from hsub,
    ha.getEntry (show p - 4 < t.maxEntries by omega)]
  simp only [ok_bind, dcheck_of hoffset, entries_entryAt, hw (p - 4) (by omega)]
  by_cases hs : (w (p - 4)).isSerialNumber = true
  · have hbottom : bottom ≤ p - 4 := by
      by_contra hlt
      have hplain := h.bottom_plain (by omega)
      have heq : chunkOf bottom = p - 4 := by
        rw [chunkOf_eq]
        omega
      rw [heq, hs] at hplain
      cases hplain
    obtain ⟨-, n, hn, hn', hserial⟩ := h.chunk (p - 4) hbottom (by omega) (hchunk.symm ▸ hs)
    rw [hchunk] at hserial
    have hvalid : (decide (n ≠ 0) && decide (n < kCheckJniEntriesPerReference)) = true := by
      rw [Bool.and_eq_true, decide_eq_true_iff, decide_eq_true_iff, kCheckJniEntriesPerReference]
      omega
    rw [if_neg (by simpa using hs), hserial, getSerialNumber_serial]
    simp only [ok_bind, dcheck_of hvalid, ha.getEntry (show p - 4 + n < t.maxEntries by omega),
      entryAt_add_of_aligned (show (p - 4) % 4 = 0 by omega) (show n < 4 by omega), decide_true, dcheck_true,
      entries_entryAt, hw (p - 4 + n) (by omega)]
    cases hfree : (w (p - 4 + n)).isFree with
    | true => exact .inl ⟨n, hn, hn', hbottom, rfl, hfree, rfl⟩
    | false => exact .inr rfl
  · rw [if_pos (by simpa using hs)]
    exact .inr rfl

/-- A free previous chunk extends the range to prune. -/
theorem isPrevChunkFree_range (hr : PruneRange w bottom top free i p pruned) (hp : bottom < p) (hp' : p ≤ pruneEnd)
    (hp4 : p % 4 = 0) :
    (∃ k, bottom + 4 ≤ p ∧ t.isPrevChunkFree p = .ok true ∧ PruneRange w bottom top free i (p - 4) (k :: pruned)) ∨
      t.isPrevChunkFree p = .ok false := by
  refine (isPrevChunkFree_spec ha h htop hend hw hp hp' hp4).imp_left
    fun ⟨n, hn, hn', hbottom, hserial, hfree, hrun⟩ => ?_
  have hchunk : ∀ j, p - 4 ≤ j → j < p → chunkOf j = p - 4 := fun j hj hj' => by
    rw [chunkOf_eq]
    omega
  have hactive : Active w (p - 4 + n) := fun _ => by
    rw [hchunk _ (by omega) (by omega), hserial, Nat.add_sub_cancel_left]
  have hhole := h.isHole_of_isFree (by omega) (by omega) hactive hfree
  have hmem := (h.mem_free (p - 4 + n)).mpr ⟨by omega, by omega, hactive, hhole⟩
  refine ⟨p - 4 + n, by omega, hrun, hr.cons hmem (by omega) (by omega) (by omega) hhole (fun j hj hj' hja => ?_)
    (fun j hj => ((h.mem_free j).mp hj).2.2.1) fun j hj hj' hs => ?_⟩
  · refine hja.unique hactive ?_ ?_
    · rw [hchunk j hj hj', hchunk _ (by omega) (by omega)]
    · rw [hchunk _ (by omega) (by omega), hserial]
      exact isSerialNumber_serial
  · rw [chunkOf_eq]
    omega

end

/-! ### `Remove` -/

def Frame.removeRef (f : Frame) (iref : IndirectRef) : Frame := { f with refs := f.refs.filter (·.1 ≠ iref) }

section

variable (h : Consistent t f fs [] free frees)
include h

theorem Consistent.freeList : FreeList t t.firstFreeIndex (free ++ frees.flatten) :=
  ⟨h.linked, fun _ hi => ⟨(h.hole hi).1.trans_le h.top_le, (h.hole hi).2⟩, h.nodup⟩

variable (hr : PruneRange t.word f.cookie t.topIndex free i p pruned)

include hr in
theorem Consistent.countP_pruned : (free ++ frees.flatten).countP (p ≤ ·) = pruned.length := by
  have hperm : pruned.Perm (free.filter (p ≤ ·)) := by
    rw [perm_ext_iff_of_nodup hr.nodup (h.segment.free_nodup.filter _)]
    intro j
    rw [hr.mem, mem_filter, decide_eq_true_iff]
  have hrest : frees.flatten.countP (p ≤ ·) = 0 :=
    countP_eq_zero.mpr fun j hj => by simpa using (h.outer.mem_flatten hj).1.trans_le hr.bottom_le
  rw [countP_append, hrest, countP_eq_length_filter, hperm.length_eq, Nat.add_zero]

theorem Consistent.pairwise_bottom (hp : f.cookie ≤ p) :
    (free ++ frees.flatten).Pairwise fun x y => p ≤ y → f.cookie ≤ x := by
  rw [pairwise_append]
  have hrest : ∀ y ∈ frees.flatten, ¬p ≤ y := fun y hy hle => (h.outer.mem_flatten hy).1.not_ge (hp.trans hle)
  refine ⟨List.Pairwise.imp_of_mem (fun hx _ _ _ => ((h.segment.mem_free _).mp hx).1)
    (pairwise_of_forall fun _ _ => trivial),
    List.Pairwise.imp_of_mem (fun _ hy _ hle => absurd hle (hrest _ hy)) (pairwise_of_forall fun _ _ => trivial),
    fun x hx y hy hle => absurd hle (hrest y hy)⟩

include hr in
/-- Lowering the top over free entries keeps the table consistent. -/
theorem Consistent.shrink (hi : p ≤ i) (hi' : i < t.topIndex) (halloc : t'.Allocated)
    (hmax : t'.maxEntries = t.maxEntries) (htop : t'.topIndex = p)
    (hfree : FreeList t' t'.firstFreeIndex ((free ++ frees.flatten).filter (· < p)))
    (hw : ∀ j ∉ free ++ frees.flatten, j ≠ i → t'.word j = t.word j) :
    Consistent t' (f.removeRef (entryAt i)) fs [] (free.filter (· < p)) frees := by
  have hrest : frees.flatten.filter (· < p) = frees.flatten :=
    filter_eq_self.mpr fun j hj => by simpa using (h.outer.mem_flatten hj).1.trans_le hr.bottom_le
  have hsame : ∀ j < p, t'.word j = t.word j ∨ ((t'.word j).IsHole ∧ (t.word j).IsHole) := by
    intro j hj
    by_cases hmem : j ∈ free ++ frees.flatten
    · exact .inr ⟨(hfree.hole j (mem_filter.mpr ⟨hmem, by simpa using hj⟩)).2, (h.hole hmem).2⟩
    · exact .inl (hw j hmem (hj.trans_le hi).ne)
  refine ⟨halloc, ?_, ?_, ?_, ?_, nofun, nodup_nil⟩
  · rw [htop, hmax]
    exact hi.trans (hi'.le.trans h.top_le)
  · rw [htop]
    refine Segment.congr (h.segment.restrict hr.bottom_le (hi.trans hi'.le) hr.chunk (fun r o => ?_)
      (fun j => ?_) ?_ ?_) hsame
    · rw [Frame.removeRef, mem_filter, and_congr_right_iff]
      intro hmem
      obtain ⟨j, rfl, hj, hj', hactive, heq⟩ := (h.segment.mem_refs r o).mp hmem
      simp only [ne_eq, entryAt_inj, decide_eq_true_eq]
      constructor
      · intro hne
        refine ⟨j, Nat.lt_of_not_le fun hle => ?_, rfl⟩
        rcases hr.hole j hle hj' hactive with h' | h'
        · exact hne h'
        · rw [heq] at h'
          exact not_isHole_reference h'
      · rintro ⟨j', hj', rfl⟩
        exact (hj'.trans_le hi).ne
    · simp [mem_filter]
    · exact h.segment.refs_nodup.sublist (filter_sublist.map _)
    · exact h.segment.free_nodup.filter _
  · exact h.outer.congr_holes fun j hj => hsame j (hj.trans_le hr.bottom_le)
  · have := hfree.linked
    rwa [filter_append, hrest] at this

/-- An entry of the current segment that holds a reference. -/
structure Holds (t : LocalReferenceTable) (f : Frame) (i : Nat) (obj : Object) : Prop where
  bottom_le : f.cookie ≤ i
  lt_top : i < t.topIndex
  active : Active t.word i
  word : t.word i = reference obj

theorem Holds.notMem (hi : Holds t f i obj) : i ∉ free ++ frees.flatten := by
  intro hmem
  have := (h.hole hmem).2
  rw [hi.word] at this
  exact not_isHole_reference this

end

/-- The table after a removal from its current segment. -/
structure Removed (t t' : LocalReferenceTable) (f f' : Frame) (fs : List Frame) (free : List Nat)
    (frees : List (List Nat)) : Prop where
  consistent : ∃ free', Consistent t' f' fs [] free' frees ∧
    (t.checkJni = true → Checked t.topIndex f free → Checked t'.topIndex f' free')
  checkJni : t'.checkJni = t.checkJni

theorem Checked.removeRef {p : Nat} {free' : List Nat} (h : Checked top f free) (hp : p % 4 = 0) (iref : IndirectRef)
    (hfree : ∀ j ∈ free', j ∈ free ∨ entryAt j ∈ f.refs.map Prod.fst) : Checked p (f.removeRef iref) free' where
  top := hp
  cookie := h.cookie
  refs j hj := h.refs j ((filter_sublist.map _).subset hj)
  free j hj := (hfree j hj).elim (h.free j) (h.refs j)

variable {stale : List Nat}

/-- With CheckJNI every reference is in a chunk with a serial number. -/
theorem Checked.isSerialNumber (hck : Checked t.topIndex f free) (h : Consistent t f fs stale free frees)
    (hi : Holds t f i obj) : (t.word (chunkOf i)).isSerialNumber = true := by
  by_contra hs
  have hchunk := chunkOf_eq i
  have hcc : chunkOf (chunkOf i) = chunkOf i := by
    rw [chunkOf_eq (chunkOf i)]
    omega
  have hbottom : f.cookie ≤ chunkOf i := by
    have := hi.bottom_le
    have := hck.cookie
    omega
  have hlt := (chunkOf_le i).trans_lt hi.lt_top
  have hactive : Active t.word (chunkOf i) := active_of_plain (by rw [hcc]; simpa using hs)
  have hmod : chunkOf i % 4 = 0 := by omega
  rcases h.segment.entry _ hbottom hlt hactive with ⟨o, heq⟩ | hhole
  · exact hck.refs _ (mem_map_of_mem ((h.segment.mem_refs _ o).mpr ⟨_, rfl, hbottom, hlt, hactive, heq⟩)) hmod
  · exact hck.free _ ((h.segment.mem_free _).mpr ⟨hbottom, hlt, hactive, hhole⟩) hmod

variable (h : Consistent t f fs [] free frees)

include h

/-- Removing the top entry lowers the top over the free entries below it. -/
theorem removeTop_spec (hi : Holds t f i obj) {pruneEnd : Nat} (hend : EndsAt t.word i pruneEnd t.topIndex)
    (halign : t.checkJni = true → f.cookie < pruneEnd → pruneEnd % 4 = 0) :
    ∃ t', t.removeTop f.cookie (entryAt i) pruneEnd = .ok t' ∧
    Removed t t' f (f.removeRef (entryAt i)) fs free frees := by
  have hr := h.segment.pruneRange hi.bottom_le hi.active hi.word hend
  have hle : pruneEnd ≤ i := by
    rcases hend with ⟨-, hp, -⟩ | ⟨-, hp, -⟩
    · exact hp ▸ chunkOf_le i
    · exact hp.le
  obtain ⟨u, hu⟩ : ∃ u, u = t.write (entryAt i) (reference kDeadLocalValue) := ⟨_, rfl⟩
  have hword : ∀ j, j ≠ i → u.word j = t.word j := fun j hj => by
    rw [hu, word_write]
    exact update_of_ne hj ..
  have huAlloc : u.Allocated := hu ▸ h.allocated
  have hw : ∀ j < pruneEnd, u.word j = t.word j := fun j hj => hword j (by omega)
  have htop : t.topIndex ≤ u.maxEntries := hu ▸ h.top_le
  have hlt : pruneEnd < t.topIndex := hle.trans_lt hi.lt_top
  -- The range of holes, in steps of one entry or of one chunk.
  obtain ⟨ps, pruned, hfind, hps, hrange, hcount, hmod⟩ : ∃ ps pruned,
      findPruneStart (if t.checkJni then u.isPrevChunkFree else u.isPrevEntryFree)
        (if t.checkJni then kCheckJniEntriesPerReference else 1) f.cookie (pruneEnd + 1) pruneEnd = .ok ps ∧
      ps ≤ pruneEnd ∧ PruneRange t.word f.cookie t.topIndex free i ps pruned ∧
      (pruneEnd - ps) / (if t.checkJni then kCheckJniEntriesPerReference else 1) = pruned.length ∧
      (t.checkJni = true → ps % 4 = pruneEnd % 4) := by
    by_cases hcheck : t.checkJni = true
    · obtain ⟨ps, pruned, hfind, hps, hrange, hlen⟩ := findPruneStart_spec (d := 4) huAlloc (by decide)
        (hlt.le.trans htop) (fun p _ hr hp hp' hmod => isPrevChunkFree_range huAlloc h.segment htop hlt hw hr hp hp'
          (hmod.trans (halign hcheck (hp.trans_le hp')))) (pruneEnd + 1) hr (by omega)
      simp only [if_pos hcheck]
      rw [length_nil] at hlen
      refine ⟨ps, pruned, hfind, hps, hrange, ?_, fun _ => by omega⟩
      rw [kCheckJniEntriesPerReference]
      omega
    · obtain ⟨ps, pruned, hfind, hps, hrange, hlen⟩ := findPruneStart_spec (d := 1) huAlloc le_rfl
        (hlt.le.trans htop) (fun p _ hr hp hp' _ => isPrevEntryFree_range huAlloc h.segment htop hlt hw hr hp hp')
        (pruneEnd + 1) hr (by omega)
      simp only [if_neg hcheck]
      refine ⟨ps, pruned, hfind, hps, hrange, ?_, fun h' => absurd h' hcheck⟩
      rw [length_nil] at hlen
      omega
  have hcountP := h.countP_pruned hrange
  have hfreeU : FreeList u u.firstFreeIndex (free ++ frees.flatten) := hu ▸ h.freeList.write (Holds.notMem h hi) _
  obtain ⟨t2, hprune, hfree2, hword2, hfields⟩ : ∃ t2,
      (if pruned.length ≠ 0 then u.pruneFreeList ps f.cookie pruned.length else pure u) = .ok t2 ∧
      FreeList t2 t2.firstFreeIndex ((free ++ frees.flatten).filter (· < ps)) ∧
      (∀ j ∉ free ++ frees.flatten, t2.word j = u.word j) ∧
      t2 = { u with entries := t2.entries, firstFreeIndex := t2.firstFreeIndex } := by
    by_cases hzero : pruned.length = 0
    · have hall : (free ++ frees.flatten).filter (· < ps) = free ++ frees.flatten := by
        rw [filter_eq_self]
        intro j hj
        rw [hzero] at hcountP
        simpa using countP_eq_zero.mp hcountP j hj
      exact ⟨u, if_neg (not_not.mpr hzero), hall.symm ▸ hfreeU, fun _ _ => rfl, rfl⟩
    · obtain ⟨t2, heq, hrest⟩ := pruneFreeList_spec huAlloc hfreeU (h.pairwise_bottom hrange.bottom_le)
      rw [hcountP] at heq
      exact ⟨t2, (if_pos hzero).trans heq, hrest⟩
  refine ⟨{ t2 with topIndex := ps }, ?_, ⟨free.filter (· < ps), ?_, fun hcheck hck => ?_⟩, ?_⟩
  · rw [removeTop, ← hu]
    simp only [show u.checkJni = t.checkJni from hu ▸ rfl, hfind, ok_bind, hcount, hprune]
    rfl
  · refine h.shrink hrange (hps.trans hle) hi.lt_top ?_ ?_ rfl ⟨hfree2.linked, hfree2.hole, hfree2.nodup⟩
      fun j hj hji => (hword2 j hj).trans (hword j hji)
    · rw [hfields]
      exact huAlloc
    · rw [hfields, hu]
      rfl
  · refine hck.removeRef ?_ _ fun j hj => .inl (mem_of_mem_filter hj)
    have hs := hck.isSerialNumber h hi
    rw [hmod hcheck]
    rcases hend with ⟨-, hp, -⟩ | ⟨hplain, -⟩
    · rw [hp, chunkOf_eq]
      omega
    · rw [hs] at hplain
      cases hplain
  · rw [hfields, hu]
    rfl

/-- A removed entry goes to the head of the free list. -/
theorem Consistent.addFree (hi : Holds t f i obj) :
    Consistent ({ t with firstFreeIndex := i }.write (entryAt i) (LrtEntry.free t.firstFreeIndex))
      (f.removeRef (entryAt i)) fs [] (i :: free) frees := by
  have hw : ({ t with firstFreeIndex := i }.write (entryAt i) (LrtEntry.free t.firstFreeIndex)).word =
      update t.word i (LrtEntry.free t.firstFreeIndex) := word_write ..
  have hnot := Holds.notMem h hi
  have hnot' : i ∉ free := fun hmem => hnot (mem_append_left _ hmem)
  refine ⟨h.allocated, h.top_le, ?_, ?_, ?_, nofun, nodup_nil⟩
  · rw [hw]
    refine h.segment.update hi.bottom_le hi.lt_top hi.active (isEntry_free _) ⟨fun r o => ?_, fun j => ?_, ?_, ?_⟩
    · have hne : LrtEntry.free t.firstFreeIndex ≠ reference o := fun heq => not_isHole_reference (heq ▸ isHole_free)
      simp [Frame.removeRef, hne]
    · simp only [mem_cons, isHole_free, and_true]
      exact ⟨fun hj => hj.elim .inr fun hj => .inl ⟨hj, fun heq => hnot' (heq ▸ hj)⟩,
        fun hj => hj.elim (fun hj => .inr hj.1) .inl⟩
    · exact h.segment.refs_nodup.sublist (filter_sublist.map _)
    · exact nodup_cons.mpr ⟨hnot', h.segment.free_nodup⟩
  · rw [hw]
    exact h.outer.congr fun j hj => update_of_ne (hj.trans_le hi.bottom_le).ne ..
  · rw [hw]
    refine ⟨rfl, ?_⟩
    simp only [update_self, link_free]
    exact h.linked.congr fun j hj => congrArg link (update_of_ne (ne_of_mem_of_not_mem hj hnot) ..)

/-- An entry found to be the top one is the last before the top. -/
theorem topEntry_spec (hi : Holds t f i obj) : ∃ pruneEnd isTop, t.topEntry (entryAt i) i = .ok (pruneEnd, isTop) ∧
      (isTop = true → EndsAt t.word i pruneEnd t.topIndex) := by
  have hmax : t.topIndex ≤ 2 ^ 25 := h.top_le.trans h.allocated.maxEntries_le
  have hlt := hi.lt_top
  rw [topEntry, getCheckJniSerialNumberEntry_entryAt]
  simp only [entries_entryAt]
  by_cases hs : (t.word (chunkOf i)).isSerialNumber = true
  · have hserial : t.word (chunkOf i) = serial (i - chunkOf i) := hi.active hs
    have hend := (h.segment.chunk i hi.bottom_le hi.lt_top hs).1
    have hle := chunkOf_le i
    have hdiff : (entryAt i).offset - (entryAt (chunkOf i)).offset = i - chunkOf i := by
      rw [← getCheckJniSerialNumberEntry_entryAt, entryAt_offset_sub]
    have hsub : subUint32 i (i - chunkOf i) = chunkOf i := by
      rw [subUint32_of_le (by omega) (by omega)]
      omega
    rw [if_pos hs, hserial, getSerialNumber_serial, hdiff]
    simp only [ok_bind, decide_true, dcheck_true, hsub]
    refine ⟨_, _, rfl, fun htop => .inl ⟨hs, rfl, ?_⟩⟩
    rw [decide_eq_true_iff, subSize_of_le (by rw [kCheckJniEntriesPerReference]; omega) (by omega),
      kCheckJniEntriesPerReference] at htop
    omega
  · rw [if_neg hs]
    refine ⟨i, _, rfl, fun htop => .inr ⟨by simpa using hs, rfl, ?_⟩⟩
    rw [decide_eq_true_iff, subUint32_of_le (by omega) (by omega)] at htop
    omega

omit h

/-- The entry of a reference that was added and neither removed nor popped. -/
structure IsLive (t : LocalReferenceTable) (i : Nat) (obj : Object) : Prop where
  lt_top : i < t.topIndex
  active : Active t.word i
  chunk : (t.word (chunkOf i)).isSerialNumber = true → chunkOf i < i
  word : t.word i = reference obj

/-- A live reference is valid. -/
theorem isValidReference_spec (ha : t.Allocated) (htop : t.topIndex ≤ t.maxEntries) (hi : IsLive t i obj) :
    t.isValidReference (entryAt i) = .ok true := by
  have hlt := hi.lt_top.trans_le htop
  have hgood : t.hasGoodSerialNumber (entryAt i) = .ok true := by
    rw [hasGoodSerialNumber, getCheckJniSerialNumberEntry_entryAt, entries_entryAt]
    by_cases hs : (t.word (chunkOf i)).isSerialNumber = true
    · have hle := chunkOf_le i
      have hchunk := chunkOf_eq i
      have hne := hi.chunk hs
      have hdiff : (entryAt i).offset - (entryAt (chunkOf i)).offset = i - chunkOf i := by
        rw [← getCheckJniSerialNumberEntry_entryAt, entryAt_offset_sub]
      rw [if_pos hs, hi.active hs, getSerialNumber_serial, hdiff]
      simp only [ok_bind, dcheck_of (decide_eq_true (show i - chunkOf i < kCheckJniEntriesPerReference by
        rw [kCheckJniEntriesPerReference]; omega)), decide_true, Bool.true_and]
      rw [decide_eq_true (by omega)]
      rfl
    · rw [if_neg hs]
      rfl
  have hne : i ≠ uint32Max := ((ha.lt_of_lt_maxEntries hlt).trans (by decide)).ne
  rw [isValidReference, ha.getReferenceEntryIndex hlt]
  simp only [if_neg hne, if_neg hi.lt_top.not_ge, hgood, ok_bind, entries_entryAt, hi.word, isFree_reference,
    isNull_reference, Bool.not_false, Bool.and_true]
  rfl

/-- A live reference passes the check. -/
theorem dcheckValidReference_spec (ha : t.Allocated) (htop : t.topIndex ≤ t.maxEntries) (hi : IsLive t i obj) :
    t.dcheckValidReference (entryAt i) = .ok () := by
  rw [dcheckValidReference]
  split_ifs
  · rw [isValidReference_spec ha htop hi]
    rfl
  · rfl

/-- A live reference gives its object. -/
theorem get_spec (ha : t.Allocated) (htop : t.topIndex ≤ t.maxEntries) (hi : IsLive t i obj) :
    t.get (entryAt i) = .ok obj.address := by
  rw [LocalReferenceTable.get, dcheckValidReference_spec ha htop hi, ok_bind, entries_entryAt, hi.word, getReference]
  simp only [isFree_reference, isSerialNumber_reference, isNull_reference, Bool.not_false, dcheck_true, ok_bind]
  rfl

theorem Holds.isLive (h : Consistent t f fs stale free frees) (hi : Holds t f i obj) : IsLive t i obj :=
  ⟨hi.lt_top, hi.active, h.segment.ne_chunkOf hi.bottom_le hi.lt_top hi.active, hi.word⟩

/-- `Remove` fails only when CheckJNI is enabled and the top entry was created without it, in the middle of a
    chunk and above the bottom of the segment. -/
theorem remove_spec (h : Consistent t f fs stale free frees) (hi : Holds t f i obj)
    (halign : t.checkJni = true → (t.word (chunkOf i)).isSerialNumber = false → i + 1 = t.topIndex → f.cookie < i →
      i % 4 = 0) :
    ∃ t', t.remove f.cookie (entryAt i) = .ok (t', true) ∧ Removed t t' f (f.removeRef (entryAt i)) fs free frees := by
  have hlive := hi.isLive h
  have hlt := hi.lt_top.trans_le h.top_le
  have hvalid := isValidReference_spec h.allocated h.top_le hlive
  have hinvalid : (if t.checkJni then not <$> t.isValidReference (entryAt i) else pure false) = .ok false := by
    split_ifs
    · rw [hvalid]
      rfl
    · rfl
  obtain ⟨j, hprune, hc⟩ := h.pruneIfPopped
  have hi' : Holds { t with firstFreeIndex := j } f i obj := ⟨hi.bottom_le, hi.lt_top, hi.active, hi.word⟩
  obtain ⟨pruneEnd, isTop, htop, hend⟩ := topEntry_spec hc hi'
  rw [remove, dcheck_of (decide_eq_true h.segment.le), dcheck_of h.allocated.has_table,
    dcheckValidReference_spec h.allocated h.top_le hlive]
  simp only [ok_bind, h.allocated.getReferenceEntryIndex hlt, if_neg hi.bottom_le.not_gt, hinvalid, Bool.false_eq_true,
    if_false, dcheck_of (decide_eq_true hi.lt_top), entries_entryAt, hi.word, isFree_reference, hprune, htop]
  cases isTop with
  | true =>
    have hend' := hend rfl
    obtain ⟨t', heq, hremoved⟩ := removeTop_spec hc hi' hend' fun hcheck hlt' => by
      rcases hend' with ⟨-, hp, -⟩ | ⟨hplain, hp, ht⟩
      · rw [hp, chunkOf_eq]
        omega
      · subst hp
        exact halign hcheck hplain ht.symm hlt'
    simp only [if_true, heq, ok_bind]
    exact ⟨t', rfl, hremoved.consistent, hremoved.checkJni⟩
  | false =>
    refine ⟨_, rfl, ⟨i :: free, hc.addFree hi', fun hcheck hck => hck.removeRef hck.top _ fun k hk => ?_⟩, rfl⟩
    rcases mem_cons.mp hk with rfl | hk
    · exact .inr (mem_map_of_mem ((h.segment.mem_refs _ obj).mpr ⟨k, rfl, hi.bottom_le, hi.lt_top, hi.active, hi.word⟩))
    · exact .inl hk

theorem remove_below (ha : t.Allocated) (htop : t.topIndex ≤ t.maxEntries) (hi : IsLive t i obj) {bottom : Nat}
    (hlt : i < bottom) (hbottom : bottom ≤ t.topIndex) : t.remove bottom (entryAt i) = .ok (t, false) := by
  rw [remove, dcheck_of (decide_eq_true hbottom), dcheck_of ha.has_table, dcheckValidReference_spec ha htop hi]
  simp only [ok_bind, ha.getReferenceEntryIndex (hi.lt_top.trans_le htop), if_pos hlt]
  rfl

end Art.Lrt
