import Art.Theorems.LrtSegments
import Art.Lib.Linked

/-! # The free list of the local reference table

Holes of all segments share one list, the current segment first. Holes of popped segments stay at its front until
they are pruned. -/

namespace Art.Lrt
open LrtEntry List

variable {w w' : Nat → LrtEntry} {top i : Nat} {fs : List Frame} {frees : List (List Nat)}

/-- The segments below the current one, with their holes. -/
def Segments (w : Nat → LrtEntry) : Nat → List Frame → List (List Nat) → Prop
  | top, [], [] => top = 0
  | top, f :: fs, free :: frees => Segment w f.cookie top f.refs free ∧ Segments w f.cookie fs frees
  | _, _, _ => False

theorem Segments.congr_holes (h : Segments w top fs frees)
    (heq : ∀ i < top, w' i = w i ∨ ((w' i).IsHole ∧ (w i).IsHole)) : Segments w' top fs frees := by
  induction fs generalizing top frees with
  | nil => cases frees <;> exact h
  | cons f fs ih =>
    cases frees with
    | nil => exact h
    | cons free frees => exact ⟨h.1.congr heq, ih h.2 fun i hi => heq i (hi.trans_le h.1.le)⟩

theorem Segments.congr (h : Segments w top fs frees) (heq : ∀ i < top, w' i = w i) : Segments w' top fs frees :=
  h.congr_holes fun i hi => .inl (heq i hi)

theorem Segments.mem_flatten (h : Segments w top fs frees) (hi : i ∈ frees.flatten) : i < top ∧ (w i).IsHole := by
  induction fs generalizing top frees with
  | nil =>
    cases frees with
    | nil => cases hi
    | cons => cases h
  | cons f fs ih =>
    cases frees with
    | nil => cases h
    | cons free frees =>
      rcases mem_append.mp (flatten_cons ▸ hi) with hi | hi
      · obtain ⟨-, hlt, -, hhole⟩ := (h.1.mem_free i).mp hi
        exact ⟨hlt, hhole⟩
      · exact ⟨(ih h.2 hi).1.trans_le h.1.le, (ih h.2 hi).2⟩

theorem Segments.nodup_flatten (h : Segments w top fs frees) : frees.flatten.Nodup := by
  induction fs generalizing top frees with
  | nil =>
    cases frees with
    | nil => exact nodup_nil
    | cons => cases h
  | cons f fs ih =>
    cases frees with
    | nil => cases h
    | cons free frees =>
      rw [flatten_cons]
      refine List.Nodup.append h.1.free_nodup (ih h.2) fun i hi hi' => ?_
      exact ((h.1.mem_free i).mp hi).1.not_gt (h.2.mem_flatten hi').1

/-- The state of a table, with the holes of popped segments in `stale`. -/
structure Consistent (t : LocalReferenceTable) (f : Frame) (fs : List Frame) (stale free : List Nat)
    (frees : List (List Nat)) : Prop where
  allocated : t.Allocated
  top_le : t.topIndex ≤ t.maxEntries
  segment : Segment t.word f.cookie t.topIndex f.refs free
  outer : Segments t.word f.cookie fs frees
  linked : Linked (fun i => (t.word i).link) kFreeListEnd t.firstFreeIndex (stale ++ (free ++ frees.flatten))
  popped : ∀ i ∈ stale, t.topIndex ≤ i ∧ i < t.maxEntries ∧ (t.word i).IsHole
  stale_nodup : stale.Nodup

namespace Consistent

variable {t : LocalReferenceTable} {f : Frame} {stale free : List Nat}

variable (h : Consistent t f fs stale free frees)

include h

theorem of_lt_maxEntries (hi : i < t.maxEntries) : i < kFreeListEnd :=
  (h.allocated.lt_of_lt_maxEntries hi).trans (by decide)

theorem hole (hi : i ∈ free ++ frees.flatten) : i < t.topIndex ∧ (t.word i).IsHole := by
  rcases mem_append.mp hi with hi | hi
  · obtain ⟨-, hlt, -, hhole⟩ := (h.segment.mem_free i).mp hi
    exact ⟨hlt, hhole⟩
  · obtain ⟨hlt, hhole⟩ := h.outer.mem_flatten hi
    exact ⟨hlt.trans_le h.segment.le, hhole⟩

theorem nodup : (free ++ frees.flatten).Nodup := by
  refine List.Nodup.append h.segment.free_nodup h.outer.nodup_flatten fun i hi hi' => ?_
  exact ((h.segment.mem_free i).mp hi).1.not_gt (h.outer.mem_flatten hi').1

omit h

/-! ### Pruning popped entries -/

/-- Popping goes on to the first free entry below the top. -/
theorem popFreeEntries {getEntry : Nat → Except Failure EntryPtr} {holes : List Nat} {s : Nat} {a : Nat}
    {popped : List Nat} (hmax : t.maxEntries < kFreeListEnd)
    (hget : ∀ i < t.maxEntries, getEntry i = .ok (entryAt i)) (hholes : ∀ i ∈ holes, i < t.topIndex)
    (hpopped : ∀ i ∈ a :: popped, t.topIndex ≤ i ∧ i < t.maxEntries ∧ (t.word i).IsHole) {steps : Nat}
    (hsteps : popped.length < steps)
    (hlinked : Linked (fun i => (t.word i).link) kFreeListEnd s ((a :: popped) ++ holes)) :
    ∃ j, t.popFreeEntries getEntry steps s = .ok j ∧
      Linked (fun i => (t.word i).link) kFreeListEnd j holes := by
  induction popped generalizing s a steps with
  | nil =>
    obtain ⟨steps, rfl⟩ := Nat.exists_eq_succ_of_ne_zero (Nat.ne_of_gt hsteps)
    obtain ⟨rfl, hlinked⟩ := hlinked
    obtain ⟨-, hs, hhole⟩ := hpopped s mem_cons_self
    have hstop : ¬((t.word s).link ≠ kFreeListEnd ∧ (t.word s).link ≥ t.topIndex) := by
      rintro ⟨hne, hge⟩
      cases holes with
      | nil => exact hne hlinked
      | cons b holes => exact (hholes b mem_cons_self).not_ge (hlinked.1 ▸ hge)
    refine ⟨_, ?_, hlinked⟩
    simp only [LocalReferenceTable.popFreeEntries, hget s hs, ok_bind, LocalReferenceTable.entries_entryAt,
      getNextFree_of_isHole hhole, if_neg hstop]
    rfl
  | cons b popped ih =>
    obtain ⟨steps, rfl⟩ := Nat.exists_eq_succ_of_ne_zero (Nat.ne_of_gt (Nat.zero_lt_of_lt hsteps))
    obtain ⟨rfl, hlinked⟩ := hlinked
    obtain ⟨-, hs, hhole⟩ := hpopped s mem_cons_self
    have hb := hpopped b (mem_cons_of_mem s mem_cons_self)
    have heq : (t.word s).link = b := hlinked.1
    have hgo : (t.word s).link ≠ kFreeListEnd ∧ (t.word s).link ≥ t.topIndex := by
      rw [heq]
      exact ⟨(hb.2.1.trans hmax).ne, hb.1⟩
    obtain ⟨j, hj, hlinked'⟩ := ih (fun i hi => hpopped i (mem_cons_of_mem s hi))
      (Nat.lt_of_succ_lt_succ hsteps) hlinked
    refine ⟨j, ?_, hlinked'⟩
    simp only [LocalReferenceTable.popFreeEntries, hget s hs, ok_bind, LocalReferenceTable.entries_entryAt,
      getNextFree_of_isHole hhole, if_pos hgo]
    exact hj

include h

theorem setFirst {j : Nat} (hj : Linked (fun i => (t.word i).link) kFreeListEnd j (free ++ frees.flatten)) :
    Consistent { t with firstFreeIndex := j } f fs [] free frees :=
  ⟨h.allocated, h.top_le, h.segment, h.outer, hj, nofun, nodup_nil⟩

/-- Pruning leaves the holes below the top in the free list. -/
theorem prune {getEntry : Nat → Except Failure EntryPtr} (hget : ∀ i < t.maxEntries, getEntry i = .ok (entryAt i)) :
    ∃ j, (if t.firstFreeIndex ≠ kFreeListEnd ∧ t.firstFreeIndex ≥ t.topIndex then t.prunePoppedFreeEntries getEntry
        else pure t) = .ok { t with firstFreeIndex := j } ∧
      Consistent { t with firstFreeIndex := j } f fs [] free frees := by
  have hmax : t.maxEntries < kFreeListEnd := h.allocated.maxEntries_le.trans_lt (by decide)
  cases hstale : stale with
  | nil =>
    subst hstale
    -- Nothing was popped, so that the first free entry is below the top.
    have hstop : ¬(t.firstFreeIndex ≠ kFreeListEnd ∧ t.firstFreeIndex ≥ t.topIndex) := by
      rintro ⟨hne, hge⟩
      have hlinked := h.linked
      have hhole := fun i => h.hole (i := i)
      cases hfree : free ++ frees.flatten with
      | nil =>
        rw [hfree] at hlinked
        exact hne hlinked
      | cons b holes =>
        rw [hfree] at hlinked hhole
        exact (hhole b mem_cons_self).1.not_ge (hlinked.1 ▸ hge)
    exact ⟨t.firstFreeIndex, if_neg hstop, h.setFirst h.linked⟩
  | cons a popped =>
    subst hstale
    have hfirst : t.firstFreeIndex = a := h.linked.1
    have ha := h.popped a mem_cons_self
    have hgo : t.firstFreeIndex ≠ kFreeListEnd ∧ t.firstFreeIndex ≥ t.topIndex := by
      rw [hfirst]
      exact ⟨(ha.2.1.trans hmax).ne, ha.1⟩
    have hlen : (a :: popped).length ≤ t.maxEntries :=
      length_le_of_nodup_of_lt h.stale_nodup fun i hi => (h.popped i hi).2.1
    obtain ⟨j, hj, hlinked⟩ := popFreeEntries hmax hget (fun i hi => (h.hole hi).1) h.popped hlen h.linked
    refine ⟨j, ?_, h.setFirst hlinked⟩
    rw [if_pos hgo, LocalReferenceTable.prunePoppedFreeEntries, dcheck_of (decide_eq_true hgo.1),
      dcheck_of (decide_eq_true hgo.2), hj]
    rfl

theorem pruneIfPopped : ∃ j, t.pruneIfPopped = .ok { t with firstFreeIndex := j } ∧
      Consistent { t with firstFreeIndex := j } f fs [] free frees :=
  h.prune fun _ => h.allocated.getEntry

end Consistent

end Art.Lrt
