import Art.Theorems.LrtRemove

/-! # The roots of the local reference table -/

namespace Art.Lrt
open LrtEntry LocalReferenceTable List

variable {t : LocalReferenceTable} {w : Nat → LrtEntry} {top i : Nat} {f : Frame} {fs : List Frame} {free : List Nat}
  {frees : List (List Nat)} {obj : Object} {iref : IndirectRef}

namespace Segments

/-- The references of the frames are the active entries below the top. -/
theorem mem_refs (h : Segments w top fs frees) : (iref, obj) ∈ fs.flatMap Frame.refs ↔
    ∃ i, iref = entryAt i ∧ i < top ∧ Active w i ∧ w i = reference obj := by
  induction fs generalizing top frees with
  | nil =>
    cases frees with
    | nil =>
      obtain rfl : top = 0 := h
      simp
    | cons => cases h
  | cons f fs ih =>
    cases frees with
    | nil => cases h
    | cons free frees =>
      rw [flatMap_cons, mem_append, h.1.mem_refs, ih h.2]
      constructor
      · rintro (⟨i, hr, -, hi, hw⟩ | ⟨i, hr, hi, hw⟩)
        · exact ⟨i, hr, hi, hw⟩
        · exact ⟨i, hr, hi.trans_le h.1.le, hw⟩
      · rintro ⟨i, hr, hi, hw⟩
        rcases Nat.lt_or_ge i f.cookie with hlt | hge
        · exact .inr ⟨i, hr, hlt, hw⟩
        · exact .inl ⟨i, hr, hge, hi, hw⟩

theorem nodup_refs (h : Segments w top fs frees) : ((fs.flatMap Frame.refs).map Prod.fst).Nodup := by
  induction fs generalizing top frees with
  | nil => exact nodup_nil
  | cons f fs ih =>
    cases frees with
    | nil => cases h
    | cons free frees =>
      rw [flatMap_cons, map_append]
      refine List.Nodup.append h.1.refs_nodup (ih h.2) fun r hr hr' => ?_
      obtain ⟨⟨r, o⟩, hmem, rfl⟩ := mem_map.mp hr
      obtain ⟨⟨r', o'⟩, hmem', heq⟩ := mem_map.mp hr'
      obtain ⟨i, hi, hge, -⟩ := (h.1.mem_refs r o).mp hmem
      obtain ⟨i', hi', hlt, -⟩ := h.2.mem_refs.mp hmem'
      have hii : i = i' := entryAt_injective (hi.symm.trans (heq.symm.trans hi'))
      omega

/-- Below the top, chunks are complete and active entries are free or references. -/
theorem entries (h : Segments w top fs frees) (hi : i < top) :
    ((w (chunkOf i)).isSerialNumber = true → chunkOf i + 4 ≤ top ∧ ∃ n, 1 ≤ n ∧ n ≤ 3 ∧ w (chunkOf i) = serial n) ∧
    (Active w i → IsEntry (w i)) := by
  induction fs generalizing top frees with
  | nil =>
    cases frees with
    | nil =>
      obtain rfl : top = 0 := h
      exact absurd hi (Nat.not_lt_zero i)
    | cons => cases h
  | cons f fs ih =>
    cases frees with
    | nil => cases h
    | cons free frees =>
      rcases Nat.lt_or_ge i f.cookie with hlt | hge
      · obtain ⟨hchunk, hentry⟩ := ih h.2 hlt
        exact ⟨fun hs => ⟨(hchunk hs).1.trans h.1.le, (hchunk hs).2⟩, hentry⟩
      · exact ⟨h.1.chunk i hge hi, h.1.entry i hge hi⟩

end Segments

theorem Consistent.segments {stale : List Nat} (h : Consistent t f fs stale free frees) :
    Segments t.word t.topIndex (f :: fs) (free :: frees) := ⟨h.segment, h.outer⟩

theorem Consistent.isLive {stale : List Nat} (h : Consistent t f fs stale free frees)
    (hmem : (iref, obj) ∈ (f :: fs).flatMap Frame.refs) : ∃ i, iref = entryAt i ∧ IsLive t i obj := by
  obtain ⟨i, rfl, hi, hactive, hw⟩ := h.segments.mem_refs.mp hmem
  refine ⟨i, rfl, hi, hactive, fun hs => ?_, hw⟩
  obtain ⟨-, n, hn, -, heq⟩ := (h.segments.entries hi).1 hs
  have := serial_inj.mp (heq.symm.trans (hactive hs))
  omega

/-! ### Visiting one table -/

instance : Decidable (Active w i) := inferInstanceAs (Decidable (_ → _))

def isRoot (w : Nat → LrtEntry) (i : Nat) : Bool := Active w i ∧ (w i).isFree = false

def tableStart (table : Nat) : Nat := if table ≠ 0 then getTableSize table else 0

theorem entryAt_tableStart {table : Nat} (h : i < getTableSize table) :
    entryAt (tableStart table + i) = ⟨table, i⟩ := by
  cases table with
  | zero =>
    rw [tableStart, if_neg (not_not.mpr rfl), Nat.zero_add]
    exact entryAt_of_lt (by simpa [getTableSize, kSmallLrtEntries] using h)
  | succ k =>
    rw [getTableSize_succ] at h
    rw [tableStart, if_pos (Nat.succ_ne_zero k), getTableSize_succ, entryAt_add h]

theorem tableStart_succ (table : Nat) : tableStart (table + 1) = tableStart table + getTableSize table := by
  cases table with
  | zero => rfl
  | succ k =>
    rw [tableStart, tableStart, if_pos (Nat.succ_ne_zero _), if_pos (Nat.succ_ne_zero _), getTableSize_succ,
      getTableSize_succ,
      pow_succ]
    omega

theorem tableStart_mod (table : Nat) : tableStart table % 4 = 0 := by
  cases table with
  | zero => rfl
  | succ k =>
    rw [tableStart, if_pos (Nat.succ_ne_zero _), getTableSize_succ]
    omega

def rootsFrom (w : Nat → LrtEntry) (a count : Nat) : List EntryPtr := ((range' a count).filter (isRoot w)).map entryAt

theorem rootsFrom_add (w : Nat → LrtEntry) (a m n : Nat) :
    rootsFrom w a (m + n) = rootsFrom w a m ++ rootsFrom w (a + m) n := by
  rw [rootsFrom, rootsFrom, rootsFrom, ← map_append, ← filter_append, range'_append_1]

theorem rootsFrom_one {a : Nat} (h : Active w a) :
    rootsFrom w a 1 = if (w a).isFree = false then [entryAt a] else [] := by
  by_cases hfree : (w a).isFree = false <;> simp [rootsFrom, isRoot, h, hfree]

/-- A chunk has its selected entry as its only root. -/
theorem rootsFrom_chunk {c n : Nat} (hc : c % 4 = 0) (hn : 1 ≤ n) (hn' : n ≤ 3) (hserial : w c = serial n) :
    rootsFrom w c 4 = if (w (c + n)).isFree = false then [entryAt (c + n)] else [] := by
  have hactive : ∀ j < 4, (Active w (c + j) ↔ j = n) := fun j hj => by
    have hchunk : chunkOf (c + j) = c := by
      rw [chunkOf_eq]
      omega
    simp only [Active, hchunk, hserial, isSerialNumber_serial, forall_const, Nat.add_sub_cancel_left, serial_inj]
    exact eq_comm
  have h0 := hactive 0 (by omega)
  have h1 := hactive 1 (by omega)
  have h2 := hactive 2 (by omega)
  have h3 := hactive 3 (by omega)
  rw [Nat.add_zero] at h0
  have hrange : range' c 4 = [c, c + 1, c + 2, c + 3] := rfl
  by_cases hfree : (w (c + n)).isFree = false
  · rw [if_pos hfree, rootsFrom, hrange]
    interval_cases n <;> simp [isRoot, h0, h1, h2, h3, hfree]
  · rw [if_neg hfree, rootsFrom, hrange]
    interval_cases n <;> simp_all [isRoot]

section

variable {table count : Nat} (htable : count ≤ getTableSize table)
  (hchunk : ∀ j, tableStart table ≤ j → j < tableStart table + count → (t.word (chunkOf j)).isSerialNumber = true →
    chunkOf j + 4 ≤ tableStart table + count ∧ ∃ n, 1 ≤ n ∧ n ≤ 3 ∧ t.word (chunkOf j) = serial n)
  (hentry : ∀ j, tableStart table ≤ j → j < tableStart table + count → Active t.word j → IsEntry (t.word j))

include htable hchunk hentry

/-- The entry to visit, and how far the visit moves on. -/
theorem entryToVisit_spec (hi : i < count)
    (hstart : (t.word (chunkOf (tableStart table + i))).isSerialNumber = true → (tableStart table + i) % 4 = 0) :
    ∃ k m, t.entryToVisit table count i = .ok (entryAt k, i + m) ∧ IsEntry (t.word k) ∧ 1 ≤ m ∧ i + m ≤ count ∧
      rootsFrom t.word (tableStart table + i) m = (if (t.word k).isFree = false then [entryAt k] else []) ∧
      ((t.word (chunkOf (tableStart table + (i + m)))).isSerialNumber = true →
        (tableStart table + (i + m)) % 4 = 0) := by
  have hmod := tableStart_mod table
  obtain ⟨a, ha⟩ : ∃ a, a = tableStart table + i := ⟨_, rfl⟩
  have hptr : (⟨table, i⟩ : EntryPtr) = entryAt a := by rw [ha, entryAt_tableStart (hi.trans_le htable)]
  rw [← ha] at hstart ⊢
  rw [entryToVisit, hptr, entries_entryAt]
  by_cases hs : (t.word (chunkOf a)).isSerialNumber = true
  · have hmod' := hstart hs
    have hself : chunkOf a = a := by
      rw [chunkOf_eq]
      omega
    obtain ⟨hend, n, hn, hn', hserial⟩ := hchunk a (by omega) (by omega) hs
    rw [hself] at hs hend hserial
    have hlt : i + n < getTableSize table := by omega
    have hsel : (⟨table, i + n⟩ : EntryPtr) = entryAt (a + n) := by
      rw [ha, Nat.add_assoc, entryAt_tableStart hlt]
    have hchunkn : chunkOf (a + n) = a := by
      rw [chunkOf_eq]
      omega
    have hactive : Active t.word (a + n) := fun _ => by rw [hchunkn, hserial, Nat.add_sub_cancel_left]
    rw [if_pos ⟨show i % 4 = 0 by omega, hs⟩, hserial, getSerialNumber_serial]
    simp only [ok_bind, dcheck_of (decide_eq_true (show i + kCheckJniEntriesPerReference ≤ count by
      rw [kCheckJniEntriesPerReference]; omega)), hsel]
    refine ⟨a + n, 4, rfl, hentry _ (by omega) (by omega) hactive, by omega, by omega,
      rootsFrom_chunk hmod' hn hn' hserial, fun _ => by omega⟩
  · have hnot : ¬(i % kCheckJniEntriesPerReference = 0 ∧ (t.word a).isSerialNumber = true) := by
      rintro ⟨hi4, hs'⟩
      rw [kCheckJniEntriesPerReference] at hi4
      have hself : chunkOf a = a := by
        rw [chunkOf_eq]
        omega
      exact hs (hself.symm ▸ hs')
    have hactive : Active t.word a := active_of_plain (by simpa using hs)
    rw [if_neg hnot]
    refine ⟨a, 1, rfl, hentry a (by omega) (by omega) hactive, le_rfl, hi, rootsFrom_one hactive, fun hs' => ?_⟩
    by_contra hne
    have heq : chunkOf (tableStart table + (i + 1)) = chunkOf a := by
      rw [chunkOf_eq, chunkOf_eq]
      omega
    exact hs (heq ▸ hs')

/-- The visit of a table gives its roots. -/
theorem visitTable_spec {steps : Nat} (hi : i ≤ count) (hsteps : count - i < steps)
    (hstart : (t.word (chunkOf (tableStart table + i))).isSerialNumber = true → (tableStart table + i) % 4 = 0) :
    t.visitTable table count steps i = .ok (rootsFrom t.word (tableStart table + i) (count - i)) := by
  induction steps generalizing i with
  | zero => exact absurd hsteps (Nat.not_lt_zero _)
  | succ steps ih =>
    by_cases hne : i = count
    · subst hne
      rw [visitTable, if_neg (not_not.mpr rfl), Nat.sub_self]
      rfl
    obtain ⟨k, m, hrun, hisEntry, hm, hle, hroots, hnext⟩ :=
      entryToVisit_spec htable hchunk hentry (Nat.lt_of_le_of_ne hi hne) hstart
    have hnull : ((t.word k).isFree || !(t.word k).isNull) = true := by
      rcases hisEntry with ⟨obj, heq⟩ | hhole
      · simp [heq]
      · simp [hhole.1]
    have hrest := ih hle (by omega) hnext
    rw [visitTable, if_pos hne, hrun]
    simp only [ok_bind, entries_entryAt, hisEntry.isSerialNumber, Bool.not_false, dcheck_true, dcheck_of hnull, hrest]
    rw [show count - i = m + (count - (i + m)) by omega, rootsFrom_add, hroots, Nat.add_assoc]
    cases (t.word k).isFree <;> rfl

end

/-! ### Visiting all tables -/

theorem tableStart_strictMono : StrictMono tableStart := by
  refine strictMono_nat_of_lt_succ fun table => ?_
  rw [tableStart_succ]
  refine Nat.lt_add_of_pos_right ?_
  cases table with
  | zero => decide
  | succ k =>
    rw [getTableSize_succ]
    exact Nat.mul_pos (by omega) (Nat.two_pow_pos k)

section

variable {stale : List Nat} (h : Consistent t f fs stale free frees)

include h

/-- A table, or the part of it below the top, does not cut a chunk. -/
theorem visitTable_min (table : Nat) (hstart : tableStart table < t.topIndex) :
    let count := min (t.topIndex - tableStart table) (getTableSize table)
    t.visitTable table count (count + 1) 0 = .ok (rootsFrom t.word (tableStart table) count) := by
  intro count
  have hmod := tableStart_mod table
  have hmod' : getTableSize table % 4 = 0 := by
    have := tableStart_mod (table + 1)
    rw [tableStart_succ] at this
    omega
  refine visitTable_spec (i := 0) (by omega) (fun j hj hj' hs => ?_) (fun j hj hj' => ?_) (Nat.zero_le _) (by omega)
    fun _ => hmod
  · obtain ⟨hle, hn⟩ := (h.segments.entries (show j < t.topIndex by omega)).1 hs
    refine ⟨?_, hn⟩
    have := chunkOf_eq j
    omega
  · exact (h.segments.entries (show j < t.topIndex by omega)).2

theorem lt_tables (hsmall : t.smallTable = false) {table : Nat} (hstart : tableStart table < t.topIndex) :
    table < t.tables := by
  obtain ⟨k, -, hmax, hk, htables⟩ := h.allocated
  have hk0 : k ≠ 0 := fun h0 => by
    rw [hsmall, h0] at hk
    cases hk
  have htop := h.top_le
  rw [htables hk0]
  by_contra hge
  have hmono := tableStart_strictMono.monotone (Nat.le_of_not_lt hge)
  have hlast : tableStart (k + 1) = 128 * 2 ^ k := by rw [tableStart, if_pos (Nat.succ_ne_zero k), getTableSize_succ]
  omega

/-- The visit of the tables gives the roots below the top. -/
theorem visitTables_spec (hsmall : t.smallTable = false) (table : Nat) {steps : Nat}
    (hsteps : t.topIndex - tableStart table < steps) :
    t.visitTables steps table (t.topIndex - tableStart table) =
      .ok (rootsFrom t.word (tableStart table) (t.topIndex - tableStart table)) := by
  induction steps generalizing table with
  | zero => exact absurd hsteps (Nat.not_lt_zero _)
  | succ steps ih =>
    obtain ⟨remaining, hr⟩ : ∃ remaining, remaining = t.topIndex - tableStart table := ⟨_, rfl⟩
    by_cases hne : remaining = 0
    · rw [← hr, hne]
      rfl
    have hlt : tableStart table < t.topIndex := by omega
    have hnext := tableStart_succ table
    have hpos : tableStart table < tableStart (table + 1) := tableStart_strictMono (Nat.lt_succ_self table)
    have hrest := ih (table + 1) (by omega)
    have hremaining : remaining - min remaining (getTableSize table) = t.topIndex - tableStart (table + 1) := by omega
    rw [← hr, visitTables, if_pos hne]
    simp only [dcheck_of (decide_eq_true (lt_tables h hsmall hlt)), ok_bind, hremaining, hrest]
    rw [show min remaining (getTableSize table) = min (t.topIndex - tableStart table) (getTableSize table) by rw [hr],
      visitTable_min h table hlt, ok_bind, ← hr]
    rcases Nat.le_total remaining (getTableSize table) with hle | hge
    · have hzero : t.topIndex - tableStart (table + 1) = 0 := by omega
      rw [min_eq_left hle, hzero]
      exact congrArg Except.ok (append_nil _)
    · rw [min_eq_right hge, hnext, ← Nat.sub_sub, ← hr, ← rootsFrom_add, Nat.add_sub_cancel' hge]
      rfl

/-- `VisitRoots` visits the live references, each once. -/
theorem visitRoots_spec :
    ∃ roots, t.visitRoots = .ok roots ∧ roots.Perm (((f :: fs).flatMap Frame.refs).map Prod.fst) := by
  have hrun : t.visitRoots = .ok (rootsFrom t.word 0 t.topIndex) := by
    cases hsmall : t.smallTable with
    | false =>
      rw [visitRoots, hsmall]
      exact visitTables_spec h hsmall 0 (Nat.lt_succ_self _)
    | true =>
      have hmax := h.allocated.small hsmall
      have htop := h.top_le
      rw [visitRoots, if_pos hsmall]
      rcases Nat.eq_zero_or_pos t.topIndex with hzero | hpos
      · rw [hzero]
        rfl
      have hmin : min (t.topIndex - tableStart 0) (getTableSize 0) = t.topIndex := min_eq_left (htop.trans_eq hmax)
      have hvisit := visitTable_min h 0 hpos
      simp only [hmin] at hvisit
      exact hvisit
  refine ⟨_, hrun, ?_⟩
  have hnodup : (rootsFrom t.word 0 t.topIndex).Nodup := ((nodup_range').filter _).map entryAt_injective
  rw [perm_ext_iff_of_nodup hnodup h.segments.nodup_refs]
  intro r
  simp only [rootsFrom, mem_map, mem_filter, mem_range'_1, isRoot, decide_eq_true_eq]
  constructor
  · rintro ⟨i, ⟨hi, hactive, hfree⟩, rfl⟩
    rcases (h.segments.entries (by omega)).2 hactive with ⟨obj, heq⟩ | hhole
    · exact ⟨(entryAt i, obj), h.segments.mem_refs.mpr ⟨i, rfl, by omega, hactive, heq⟩, rfl⟩
    · rw [hhole.1] at hfree
      cases hfree
  · rintro ⟨⟨r, obj⟩, hmem, rfl⟩
    obtain ⟨i, rfl, hi, hactive, heq⟩ := h.segments.mem_refs.mp hmem
    exact ⟨i, ⟨by omega, hactive, by rw [heq, isFree_reference]⟩, rfl⟩

end

end Art.Lrt
