import Art.Runtime.LocalReferenceTable
import Mathlib.Tactic

/-! # Entries of the local reference table and their indexes -/

namespace Art.Lrt

/-! ### Entry values -/

namespace LrtEntry

variable {n : Nat} {obj : Object}

theorem isFree_iff {e : Nat} : isFree e = true ↔ e % 2 = 1 := by
  rw [isFree, kFlagFree, pow_zero, Nat.div_one, decide_eq_true_iff]

theorem isSerialNumber_iff {e : Nat} : isSerialNumber e = true ↔ e / 2 % 2 = 1 := by
  rw [isSerialNumber, kFlagSerialNumber, kFlagFree, zero_add, pow_one, decide_eq_true_iff]

theorem free_eq (n : Nat) : free n = (4 * n + 1 : Nat) := by
  change n * 2 ^ 2 + 2 ^ 0 = 4 * n + 1
  omega

theorem serial_eq (n : Nat) : serial n = (4 * n + 2 : Nat) := by
  change n * 2 ^ 2 + 2 ^ 1 = 4 * n + 2
  omega

@[simp] theorem isFree_free : (free n).isFree = true := by
  rw [isFree_iff, free_eq]
  omega

@[simp] theorem isSerialNumber_free : (free n).isSerialNumber = false := by
  rw [Bool.eq_false_iff, ne_eq, isSerialNumber_iff, free_eq]
  omega

@[simp] theorem isSerialNumber_serial : (serial n).isSerialNumber = true := by
  rw [isSerialNumber_iff, serial_eq]
  omega

@[simp] theorem isFree_serial : (serial n).isFree = false := by
  rw [Bool.eq_false_iff, ne_eq, isFree_iff, serial_eq]
  omega

@[simp] theorem isFree_reference : (reference obj).isFree = false := by
  have : obj.address % 8 = 0 := obj.aligned
  rw [Bool.eq_false_iff, ne_eq, reference, isFree_iff]
  omega

@[simp] theorem isSerialNumber_reference : (reference obj).isSerialNumber = false := by
  have : obj.address % 8 = 0 := obj.aligned
  rw [Bool.eq_false_iff, ne_eq, reference, isSerialNumber_iff]
  omega

@[simp] theorem isNull_reference : (reference obj).isNull = false := decide_eq_false obj.ne_null

theorem reference_inj {obj' : Object} : reference obj = reference obj' ↔ obj = obj' := by
  obtain ⟨a, -, -⟩ := obj
  obtain ⟨a', -, -⟩ := obj'
  simp [reference]

@[simp] theorem getSerialNumberUnchecked_serial : (serial n).getSerialNumberUnchecked = n := by
  rw [getSerialNumberUnchecked, serial_eq, kFieldNextFree, kFlagSerialNumber, kFlagFree]
  omega

@[simp] theorem getSerialNumber_serial : (serial n).getSerialNumber = .ok n := by
  simp [getSerialNumber, dcheck, bind, Except.bind, pure, Except.pure]

def link (e : LrtEntry) : Nat := e / 2 ^ kFieldNextFree

@[simp] theorem link_free : (free n).link = n := by
  rw [link, free_eq, kFieldNextFree, kFlagSerialNumber, kFlagFree]
  omega

def IsHole (e : LrtEntry) : Prop := e.isFree = true ∧ e.isSerialNumber = false

theorem getNextFree_of_isHole {e : LrtEntry} (h : e.IsHole) : e.getNextFree = .ok e.link := by
  simp [getNextFree, dcheck, h.1, h.2, bind, Except.bind, pure, Except.pure, link]

@[simp] theorem isHole_free : (free n).IsHole := ⟨isFree_free, isSerialNumber_free⟩

@[simp] theorem not_isHole_reference : ¬(reference obj).IsHole := fun h => by simpa using h.1

end LrtEntry

/-! ### Indexes -/

/-- The index of the serial number entry. -/
def chunkOf (i : Nat) : Nat := i / kCheckJniEntriesPerReference * kCheckJniEntriesPerReference

theorem chunkOf_le (i : Nat) : chunkOf i ≤ i := Nat.div_mul_le_self i _

theorem chunkOf_eq (i : Nat) : chunkOf i = i / 4 * 4 := rfl

def entryAt (i : Nat) : EntryPtr :=
  if i < kSmallLrtEntries then ⟨0, i⟩
  else ⟨numTablesForSize (truncToPowerOfTwo i), i - truncToPowerOfTwo i⟩

theorem entryAt_of_lt {i : Nat} (h : i < 128) : entryAt i = ⟨0, i⟩ := if_pos h

theorem entryAt_add {k j : Nat} (h : j < 128 * 2 ^ k) : entryAt (128 * 2 ^ k + j) = ⟨k + 1, j⟩ := by
  have heq : 128 * 2 ^ k = 2 ^ (k + 7) := by rw [pow_add, Nat.mul_comm, show (128 : Nat) = 2 ^ 7 from rfl]
  have hlog : Nat.log 2 (128 * 2 ^ k + j) = k + 7 := by
    rw [Nat.log_eq_iff (.inl (by omega)), ← heq, pow_succ, ← heq]
    omega
  have hne : 128 * 2 ^ k + j ≠ 0 := by omega
  rw [entryAt, if_neg (by rw [kSmallLrtEntries]; omega), truncToPowerOfTwo, if_pos hne, hlog, ← heq, numTablesForSize,
    kSmallLrtEntries, Nat.mul_div_cancel_left _ (by omega), Nat.log_pow (by omega)]
  simp [add_comm]

theorem index_cases (i : Nat) : i < 128 ∨ ∃ k j, j < 128 * 2 ^ k ∧ i = 128 * 2 ^ k + j := by
  rcases Nat.lt_or_ge i 128 with h | h
  · exact .inl h
  have hlog : 7 ≤ Nat.log 2 i := Nat.le_log_of_pow_le (by omega) h
  have heq : 128 * 2 ^ (Nat.log 2 i - 7) = 2 ^ Nat.log 2 i := by
    rw [show (128 : Nat) = 2 ^ 7 from rfl, ← pow_add, Nat.add_sub_cancel' hlog]
  have hle : 2 ^ Nat.log 2 i ≤ i := Nat.pow_log_le_self 2 (by omega)
  have hlt : i < 2 ^ (Nat.log 2 i + 1) := Nat.lt_pow_succ_log_self (by omega) i
  rw [pow_succ] at hlt
  exact .inr ⟨Nat.log 2 i - 7, i - 2 ^ Nat.log 2 i, by omega, by omega⟩

theorem getTableSize_succ (k : Nat) : getTableSize (k + 1) = 128 * 2 ^ k := by simp [getTableSize, kSmallLrtEntries]

def indexOf (entry : EntryPtr) : Nat := (if entry.table ≠ 0 then getTableSize entry.table else 0) + entry.offset

theorem indexOf_entryAt (i : Nat) : indexOf (entryAt i) = i := by
  rcases index_cases i with h | ⟨k, j, hj, rfl⟩
  · simp [entryAt_of_lt h, indexOf]
  · simp [entryAt_add hj, indexOf, getTableSize_succ]

theorem entryAt_injective : Function.Injective entryAt := Function.LeftInverse.injective indexOf_entryAt

@[simp] theorem entryAt_inj {i j : Nat} : entryAt i = entryAt j ↔ i = j := entryAt_injective.eq_iff

theorem entryAt_chunk (i : Nat) {n : Nat} (hn : n < 4) : entryAt (chunkOf i + n) =
    (entryAt i).getCheckJniSerialNumberEntry.add n := by
  rcases index_cases i with h | ⟨k, j, hj, rfl⟩
  · rw [entryAt_of_lt h, entryAt_of_lt (by rw [chunkOf_eq]; omega)]
    rfl
  have hchunk : chunkOf (128 * 2 ^ k + j) + n = 128 * 2 ^ k + (j / 4 * 4 + n) := by
    rw [chunkOf_eq]
    omega
  rw [hchunk, entryAt_add hj, entryAt_add (by omega)]
  rfl

theorem getCheckJniSerialNumberEntry_entryAt (i : Nat) :
    (entryAt i).getCheckJniSerialNumberEntry = entryAt (chunkOf i) :=
  (entryAt_chunk i (n := 0) (by omega)).symm

theorem entryAt_add_of_aligned {i n : Nat} (hi : i % 4 = 0) (hn : n < 4) : (entryAt i).add n = entryAt (i + n) := by
  have hchunk : chunkOf i = i := by
    rw [chunkOf_eq]
    omega
  have h := entryAt_chunk i hn
  rw [getCheckJniSerialNumberEntry_entryAt, hchunk] at h
  exact h.symm

theorem entryAt_offset_mod (i : Nat) : (entryAt i).offset % 4 = i % 4 := by
  rcases index_cases i with h | ⟨k, j, hj, rfl⟩
  · rw [entryAt_of_lt h]
  · rw [entryAt_add hj]
    change j % 4 = _
    omega

theorem entryAt_offset_sub (i : Nat) :
    (entryAt i).offset - (entryAt i).getCheckJniSerialNumberEntry.offset = i - chunkOf i := by
  have := entryAt_offset_mod i
  simp only [EntryPtr.getCheckJniSerialNumberEntry, kCheckJniEntriesPerReference, chunkOf_eq]
  omega

/-! ### Tables -/

@[simp] theorem dcheck_true : dcheck true = .ok () := rfl

theorem dcheck_of {c : Bool} (h : c = true) : dcheck c = .ok () := by rw [h, dcheck_true]

theorem dcheck_bind_eq_ok {α : Type} {c : Bool} {g : Unit → Except Failure α} {r : α} :
    (dcheck c >>= g) = .ok r ↔ c = true ∧ g () = .ok r := by
  cases c
  · exact ⟨nofun, nofun⟩
  · exact ⟨fun h => ⟨rfl, h⟩, And.right⟩

@[simp] theorem ok_bind {α β : Type} (a : α) (f : α → Except Failure β) : (Except.ok a >>= f) = f a := rfl

namespace LocalReferenceTable

variable {t : LocalReferenceTable}

/-- There are `k + 1` tables, the first of them small. -/
def HasTables (t : LocalReferenceTable) (k : Nat) : Prop :=
  k ≤ 18 ∧ t.maxEntries = 128 * 2 ^ k ∧ t.smallTable = decide (k = 0) ∧ (k ≠ 0 → t.tables = k + 1)

/-- The tables as `Initialize` and `Resize` allocate them. -/
def Allocated (t : LocalReferenceTable) : Prop := ∃ k, t.HasTables k

theorem Allocated.maxEntries_le (h : t.Allocated) : t.maxEntries ≤ kMaxTableSize := by
  obtain ⟨k, hk, hmax, -⟩ := h
  have : 2 ^ k ≤ 2 ^ 18 := Nat.pow_le_pow_right (by omega) hk
  rw [hmax, kMaxTableSize, kMaxTableSizeInBytes]
  omega

theorem Allocated.lt_of_lt_maxEntries (h : t.Allocated) {i : Nat} (hi : i < t.maxEntries) : i < kMaxTableSize :=
  hi.trans_le h.maxEntries_le

theorem Allocated.maxEntries_mod (h : t.Allocated) : t.maxEntries % 4 = 0 := by
  obtain ⟨k, -, hmax, -⟩ := h
  rw [hmax]
  omega

theorem Allocated.pos (h : t.Allocated) : 0 < t.maxEntries := by
  obtain ⟨k, -, hmax, -⟩ := h
  rw [hmax]
  exact Nat.mul_pos (by omega) (Nat.two_pow_pos k)

theorem table_le {k k' j : Nat} (h : 128 * 2 ^ k' + j < 128 * 2 ^ k) : k' + 1 < k + 1 := by
  have hlt : 2 ^ k' < 2 ^ k := by omega
  exact Nat.succ_lt_succ ((Nat.pow_lt_pow_iff_right (by omega)).mp hlt)

/-- An index in range has an entry. -/
theorem Allocated.getEntry (h : t.Allocated) {i : Nat} (hi : i < t.maxEntries) : t.getEntry i = .ok (entryAt i) := by
  obtain ⟨k, -, hmax, hsmall, htables⟩ := h
  rw [LocalReferenceTable.getEntry, if_pos hi]
  by_cases hk : k = 0
  · subst hk
    replace hmax : t.maxEntries = kSmallLrtEntries := hmax
    rw [hmax] at hi
    rw [if_pos (show t.smallTable = true from hsmall), dcheck_of (decide_eq_true hi), dcheck_of (decide_eq_true hmax),
      entryAt_of_lt hi]
    rfl
  have hlt : (entryAt i).table < t.tables := by
    rw [htables hk]
    rcases index_cases i with hi' | ⟨k', j, hj, rfl⟩
    · rw [entryAt_of_lt hi']
      exact Nat.succ_pos k
    · rw [entryAt_add hj]
      exact table_le (hmax ▸ hi)
  rw [hsmall, decide_eq_false hk]
  unfold entryAt at hlt ⊢
  by_cases hi' : i < kSmallLrtEntries
  · simp only [if_pos hi'] at hlt ⊢
    simp [dcheck_of (decide_eq_true hlt)]
  · simp only [if_neg hi'] at hlt ⊢
    simp [dcheck_of (decide_eq_true hlt)]

/-- The index of an entry is found from its address. -/
theorem Allocated.getReferenceEntryIndex (h : t.Allocated) {i : Nat} (hi : i < t.maxEntries) :
    t.getReferenceEntryIndex (entryAt i) = i := by
  obtain ⟨k, -, hmax, hsmall, htables⟩ := h
  rw [LocalReferenceTable.getReferenceEntryIndex]
  by_cases hk : k = 0
  · subst hk
    rw [hmax] at hi
    rw [if_pos (show t.smallTable = true from hsmall), entryAt_of_lt (by omega), if_pos ⟨rfl, hi⟩]
  have hfind : (List.range t.tables).find? (fun n => (entryAt i).table = n ∧ (entryAt i).offset < getTableSize n) =
      some (entryAt i).table := by
    rw [List.find?_range_eq_some]
    rcases index_cases i with hi' | ⟨k', j, hj, rfl⟩
    · rw [entryAt_of_lt hi', htables hk]
      simpa [getTableSize, kSmallLrtEntries] using hi'
    rw [entryAt_add hj, htables hk]
    have := table_le (hmax ▸ hi)
    simp only [getTableSize_succ, true_and, decide_eq_true_eq, List.mem_range]
    exact ⟨hj, this, fun n hn => by simp [hn.ne']⟩
  rw [hsmall, decide_eq_false hk, hfind]
  exact indexOf_entryAt i

def word (t : LocalReferenceTable) (i : Nat) : LrtEntry := t.entries (entryAt i)

theorem word_write (t : LocalReferenceTable) (i : Nat) (v : LrtEntry) :
    (t.write (entryAt i) v).word = Function.update t.word i v := by
  funext j
  by_cases hj : j = i
  · subst hj
    simp [word, write]
  · rw [Function.update_of_ne hj]
    exact Function.update_of_ne (fun h => hj (entryAt_injective h)) ..

@[simp] theorem entries_entryAt (t : LocalReferenceTable) (i : Nat) : t.entries (entryAt i) = t.word i := by rw [word]

/-! ### Resizing -/

/-- A table that can hold more and holds the same. -/
structure Grows (t t' : LocalReferenceTable) : Prop where
  allocated : t'.Allocated
  maxEntries : t.maxEntries ≤ t'.maxEntries
  word : ∀ i < t.maxEntries, t'.word i = t.word i
  topIndex : t'.topIndex = t.topIndex
  firstFreeIndex : t'.firstFreeIndex = t.firstFreeIndex
  checkJni : t'.checkJni = t.checkJni
  smallTable : t'.smallTable = true → t.smallTable = true

theorem HasTables.numTables {k : Nat} (h : t.HasTables k) : (if t.smallTable then 1 else t.tables) = k + 1 := by
  obtain ⟨-, -, hsmall, htables⟩ := h
  by_cases hk : k = 0
  · subst hk
    exact if_pos hsmall
  · rw [hsmall, decide_eq_false hk]
    exact htables hk

/-- One more table doubles the entries. -/
theorem HasTables.addTable {k : Nat} (h : t.HasTables k) (hk : k + 1 ≤ 18) :
    (t.addTable (getTableSize (k + 1))).HasTables (k + 1) ∧ t.Grows (t.addTable (getTableSize (k + 1))) := by
  have hnum := h.numTables
  obtain ⟨-, hmax, -, -⟩ := h
  have hmax' : 2 * (128 * 2 ^ k) = 128 * 2 ^ (k + 1) := by
    rw [pow_succ]
    omega
  have htables : (t.addTable (getTableSize (k + 1))).HasTables (k + 1) := by
    refine ⟨hk, ?_, rfl, fun _ => ?_⟩
    · rw [← hmax', ← getTableSize_succ]
      rfl
    · change (if t.smallTable then 1 else t.tables) + 1 = _
      rw [hnum]
  refine ⟨htables, ⟨_, htables⟩, ?_, fun i hi => ?_, rfl, rfl, rfl, nofun⟩
  · rw [htables.2.1, hmax, ← hmax']
    omega
  · have hne : (entryAt i).table ≠ k + 1 := by
      rw [hmax] at hi
      rcases index_cases i with hi' | ⟨k', j, hj, rfl⟩
      · rw [entryAt_of_lt hi']
        exact (Nat.succ_ne_zero k).symm
      · rw [entryAt_add hj]
        exact (table_le hi).ne
    simp only [word, LocalReferenceTable.addTable, hnum, if_neg hne]

theorem Grows.trans {t' t'' : LocalReferenceTable} (h : t.Grows t') (h' : t'.Grows t'') : t.Grows t'' where
  allocated := h'.allocated
  maxEntries := h.maxEntries.trans h'.maxEntries
  word i hi := (h'.word i (hi.trans_le h.maxEntries)).trans (h.word i hi)
  topIndex := h'.topIndex.trans h.topIndex
  firstFreeIndex := h'.firstFreeIndex.trans h.firstFreeIndex
  checkJni := h'.checkJni.trans h.checkJni
  smallTable hs := h.smallTable (h'.smallTable hs)

theorem Allocated.grows_refl (h : t.Allocated) : t.Grows t := ⟨h, le_rfl, fun _ _ => rfl, rfl, rfl, rfl, id⟩

/-- Adding tables grows the table, up to a failed allocation. -/
theorem HasTables.addTables {k : Nat} (h : t.HasTables k) (allocates : Nat → Bool) (count : Nat) (hk : k + count ≤ 18) :
    ∃ t' ok, LocalReferenceTable.addTables allocates count t = .ok (t', ok) ∧ t.Grows t' ∧
      (ok = true → t'.HasTables (k + count)) := by
  induction count generalizing t k with
  | zero => exact ⟨t, true, rfl, Allocated.grows_refl ⟨k, h⟩, fun _ => h⟩
  | succ count ih =>
    obtain ⟨htables, hgrows⟩ := h.addTable (by omega)
    have hnum := h.numTables
    rw [LocalReferenceTable.addTables]
    simp only [hnum]
    by_cases hallocates : allocates (k + 1) = true
    · obtain ⟨t', ok, heq, hgrows', hok⟩ := ih htables (by omega)
      refine ⟨t', ok, ?_, hgrows.trans hgrows', fun h' => ?_⟩
      · have hsmall : decide ((k + 1 = 1) = (t.smallTable = true)) = true := by
          rw [decide_eq_true_iff, h.2.2.1, decide_eq_true_iff]
          simp
        have hmax : decide (t.maxEntries = getTableSize (k + 1)) = true := by
          rw [decide_eq_true_iff, h.2.1, getTableSize_succ]
        rw [if_pos hallocates, dcheck_of hsmall, dcheck_of hmax]
        exact heq
      · have := hok h'
        rwa [Nat.add_right_comm, Nat.add_assoc] at this
    · exact ⟨t, false, if_neg hallocates, Allocated.grows_refl ⟨k, h⟩, fun h' => by cases h'⟩

theorem isPowerOfTwo_two_pow (k : Nat) : isPowerOfTwo (2 ^ k) = true := by
  rw [isPowerOfTwo, decide_eq_true_iff, Nat.and_two_pow_sub_one_eq_mod, Nat.mod_self]

theorem HasTables.isPowerOfTwo {k : Nat} (h : t.HasTables k) : isPowerOfTwo t.maxEntries = true := by
  rw [h.2.1, show (128 : Nat) = 2 ^ 7 from rfl, ← pow_add]
  exact isPowerOfTwo_two_pow _

theorem numTablesForSize_two_pow (k : Nat) : numTablesForSize (128 * 2 ^ k) = k + 1 := by
  rw [numTablesForSize, kSmallLrtEntries, Nat.mul_div_cancel_left _ (by omega), Nat.log_pow (by omega), add_comm]

/-- Resizing grows the table, to the new size when all allocations succeed. -/
theorem Allocated.resize (h : t.Allocated) {newSize : Nat} (hlt : t.maxEntries < newSize)
    (hle : newSize ≤ kMaxTableSize)
    (allocates : Nat → Bool) :
    ∃ t' ok, t.resize newSize allocates = .ok (t', ok) ∧ t.Grows t' ∧ (ok = true → newSize ≤ t'.maxEntries) := by
  obtain ⟨k, hk⟩ := h
  have hmax := hk.2.1
  have hpos := Nat.two_pow_pos k
  have hle' : newSize ≤ 2 ^ 25 := hle
  obtain ⟨m, hm⟩ : ∃ m, m = Nat.log 2 (newSize - 1) := ⟨_, rfl⟩
  have hsize : newSize ≤ 2 ^ (m + 1) := by
    have := Nat.lt_pow_succ_log_self (b := 2) (by omega) (newSize - 1)
    rw [← hm] at this
    omega
  have hm_le : m < 25 := by
    rw [hm]
    exact Nat.log_lt_of_lt_pow (by omega) (by omega)
  have hm_ge : k + 7 ≤ m := by
    rw [hm]
    refine Nat.le_log_of_pow_le (by omega) ?_
    rw [pow_add]
    omega
  have hround : roundUpToPowerOfTwo newSize = 128 * 2 ^ (m - 6) := by
    rw [roundUpToPowerOfTwo, if_neg (by omega), ← hm, show (128 : Nat) = 2 ^ 7 from rfl, ← pow_add]
    congr 1
    omega
  have hnum : numTablesForSize (roundUpToPowerOfTwo newSize) = m - 6 + 1 := by rw [hround, numTablesForSize_two_pow]
  obtain ⟨t', ok, heq, hgrows, hok⟩ := hk.addTables allocates (m - 6 - k) (by omega)
  refine ⟨t', ok, ?_, hgrows, fun h' => ?_⟩
  · rw [LocalReferenceTable.resize, dcheck_of (decide_eq_true (by rw [hmax, kSmallLrtEntries]; omega)),
      dcheck_of hk.isPowerOfTwo, dcheck_of (decide_eq_true hlt), dcheck_of (decide_eq_true hle)]
    simp only [ok_bind, hnum, hk.numTables, hmax, numTablesForSize_two_pow]
    rw [dcheck_of (decide_eq_true (by omega)), dcheck_of (decide_eq_true trivial),
      show m - 6 + 1 - (k + 1) = m - 6 - k by omega]
    exact heq
  · rw [(hok h').2.1, show k + (m - 6 - k) = m - 6 by omega, ← hround, roundUpToPowerOfTwo, if_neg (by omega), ← hm]
    exact hsize

/-- A table that is initialized is empty. -/
theorem create_initializeTable {checkJni : Bool} {maxCount : Nat} {allocates : Nat → Bool} {t : LocalReferenceTable}
    (h : (create checkJni).initializeTable maxCount allocates = .ok (t, true)) :
    t.Allocated ∧ t.topIndex = 0 ∧ t.firstFreeIndex = kFreeListEnd ∧ t.checkJni = checkJni := by
  rw [initializeTable, dcheck_bind_eq_ok, dcheck_bind_eq_ok] at h
  obtain ⟨hle, hle', h⟩ := h
  obtain ⟨small, hsmall⟩ :
      ∃ small, small = { create checkJni with smallTable := true, maxEntries := kSmallLrtEntries } :=
    ⟨_, rfl⟩
  have hallocated : small.Allocated := ⟨0, by subst hsmall; exact ⟨Nat.zero_le _, rfl, rfl, fun h => absurd rfl h⟩⟩
  obtain ⟨size, hsize⟩ : ∃ size, size = if checkJni then maxCount * kCheckJniEntriesPerReference else maxCount :=
    ⟨_, rfl⟩
  have hsize_le : size ≤ kMaxTableSize := by
    rw [hsize]
    cases checkJni with
    | false => simpa using hle
    | true =>
      have : maxCount ≤ kMaxTableSize / kCheckJniEntriesPerReference := by simpa [create] using hle'
      exact Nat.mul_le_of_le_div 4 maxCount _ this
  by_cases hallocates : allocates 0 = true
  · rw [if_pos hallocates] at h
    have hrun : (if size ≤ kSmallLrtEntries then pure (small, true) else small.resize size allocates) =
        .ok (t, true) := by
      rw [hsize, hsmall]
      exact h
    split_ifs at hrun with hfits
    · cases hrun
      exact ⟨hallocated, by rw [hsmall]; rfl, by rw [hsmall]; rfl, by rw [hsmall]; rfl⟩
    have hlt : small.maxEntries < size := by
      rw [hsmall]
      exact Nat.lt_of_not_le hfits
    obtain ⟨t', ok, heq, hgrows, -⟩ := hallocated.resize hlt hsize_le allocates
    rw [heq] at hrun
    cases hrun
    exact ⟨hgrows.allocated, hgrows.topIndex.trans (by rw [hsmall]; rfl),
      hgrows.firstFreeIndex.trans (by rw [hsmall]; rfl), hgrows.checkJni.trans (by rw [hsmall]; rfl)⟩
  · rw [if_neg hallocates] at h
    cases h

end LocalReferenceTable

end Art.Lrt
