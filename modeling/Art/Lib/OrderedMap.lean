import Mathlib.Data.List.Basic
import Mathlib.Data.List.Pairwise
import Mathlib.Order.Nat
import Mathlib.Order.Lattice

/-! Maps that are ordered by their keys, with the entries in ascending order. A set is a map to the unit
    type. -/

namespace Art.Lib
open List

variable {κ α β : Type}

/-- The keys ascend strictly. -/
abbrev Ascending [LinearOrder κ] (entries : List (κ × α)) : Prop := entries.Pairwise fun a b => a.1 < b.1

/-- A finite map as its entries in ascending order of the keys. -/
@[ext] structure OrderedMap (κ α : Type) [LinearOrder κ] where
  entries : List (κ × α)
  ascending : Ascending entries
  deriving DecidableEq

/-- The elements of a set are its keys. -/
abbrev OrderedSet (κ : Type) [LinearOrder κ] := OrderedMap κ Unit

section Entries

variable [LinearOrder κ]

@[grind =] def lookupEntry (k : κ) : List (κ × α) → Option α
  | [] => none
  | (k', v) :: rest => if k' = k then some v else lookupEntry k rest

@[grind =] def setEntry (k : κ) (v : α) : List (κ × α) → List (κ × α)
  | [] => [(k, v)]
  | (k', v') :: rest =>
    if k < k' then (k, v) :: (k', v') :: rest
    else if k' = k then (k, v) :: rest
    else (k', v') :: setEntry k v rest

variable {entries : List (κ × α)}

theorem mem_setEntry {k : κ} {v : α} {e : κ × α} (h : e ∈ setEntry k v entries) : e = (k, v) ∨ e ∈ entries := by
  induction entries with
  | nil => exact .inl (mem_singleton.mp h)
  | cons head rest ih =>
    obtain ⟨k', v'⟩ := head
    rw [setEntry] at h
    split_ifs at h
    · exact mem_cons.mp h
    · rcases mem_cons.mp h with h | h
      · exact .inl h
      · exact .inr (mem_cons_of_mem _ h)
    · rcases mem_cons.mp h with rfl | h
      · exact .inr mem_cons_self
      · exact (ih h).imp id (mem_cons_of_mem _)

theorem length_setEntry_le (k : κ) (v : α) (entries : List (κ × α)) :
    (setEntry k v entries).length ≤ entries.length + 1 := by
  induction entries with
  | nil => exact Nat.le_refl _
  | cons head rest ih =>
    rw [setEntry]
    split_ifs <;> simp [ih]

/-- Setting an entry keeps the order of the keys. -/
theorem ascending_setEntry (k : κ) (v : α) (h : Ascending entries) : Ascending (setEntry k v entries) := by
  induction entries with
  | nil => exact pairwise_singleton _ _
  | cons head rest ih =>
    obtain ⟨k', v'⟩ := head
    obtain ⟨hhead, hrest⟩ := pairwise_cons.mp h
    rw [setEntry]
    split_ifs with hlt heq
    · refine pairwise_cons.mpr ⟨fun e he => ?_, h⟩
      rcases mem_cons.mp he with rfl | he
      · exact hlt
      · exact lt_trans hlt (hhead e he)
    · subst heq
      exact pairwise_cons.mpr ⟨hhead, hrest⟩
    · refine pairwise_cons.mpr ⟨fun e he => ?_, ih hrest⟩
      rcases mem_setEntry he with rfl | he
      · exact lt_of_le_of_ne (not_lt.mp hlt) heq
      · exact hhead e he

/-- A set entry is found under its key, and the others as before. -/
theorem lookupEntry_setEntry (k k' : κ) (v : α) (entries : List (κ × α)) :
    lookupEntry k' (setEntry k v entries) = if k' = k then some v else lookupEntry k' entries := by
  induction entries with
  | nil => simp [setEntry, lookupEntry, eq_comm]
  | cons head rest ih =>
    obtain ⟨k₀, v₀⟩ := head
    rw [setEntry]
    by_cases hk : k' = k
    · subst hk
      rw [if_pos rfl] at ih ⊢
      split_ifs with hlt heq
      · rw [lookupEntry, if_pos rfl]
      · rw [lookupEntry, if_pos rfl]
      · rw [lookupEntry, if_neg heq, ih]
    · rw [if_neg hk] at ih ⊢
      split_ifs with hlt heq
      · rw [lookupEntry, if_neg (Ne.symm hk)]
      · rw [lookupEntry, lookupEntry, heq, if_neg (Ne.symm hk), if_neg (Ne.symm hk)]
      · rw [lookupEntry, lookupEntry, ih]

theorem lookupEntry_eq_none {k : κ} (h : ∀ e ∈ entries, e.1 ≠ k) : lookupEntry k entries = none := by
  induction entries with
  | nil => rfl
  | cons head rest ih =>
    rw [forall_mem_cons] at h
    rw [lookupEntry, if_neg h.1, ih h.2]

theorem setEntry_append {k : κ} (h : ∀ e ∈ entries, e.1 < k) (v : α) : setEntry k v entries = entries ++ [(k, v)] := by
  induction entries with
  | nil => rfl
  | cons head rest ih =>
    rw [forall_mem_cons] at h
    rw [setEntry, if_neg (not_lt_of_gt h.1), if_neg (ne_of_lt h.1), ih h.2, cons_append]

theorem lookupEntry_eq_some {k : κ} {v : α} (h : Ascending entries) :
    lookupEntry k entries = some v ↔ (k, v) ∈ entries := by
  induction entries with
  | nil => simp [lookupEntry]
  | cons head rest ih =>
    obtain ⟨k', v'⟩ := head
    obtain ⟨hhead, hrest⟩ := pairwise_cons.mp h
    rw [lookupEntry, mem_cons, Prod.mk.injEq]
    split_ifs with hk
    · have hnot : (k, v) ∉ rest := fun hm => ne_of_lt (hhead _ hm) hk
      simp [hk, hnot, eq_comm]
    · simp [ih hrest, Ne.symm hk]

end Entries

namespace OrderedMap

variable [LinearOrder κ] {m n r : OrderedMap κ α} {k k' : κ}

def empty : OrderedMap κ α := ⟨[], List.Pairwise.nil⟩

def find? (m : OrderedMap κ α) (k : κ) : Option α := lookupEntry k m.entries

/-- Adds an entry or replaces the one with the same key. -/
def set (m : OrderedMap κ α) (k : κ) (v : α) : OrderedMap κ α :=
  ⟨setEntry k v m.entries, ascending_setEntry k v m.ascending⟩

def size (m : OrderedMap κ α) : Nat := m.entries.length

def keys (m : OrderedMap κ α) : List κ := m.entries.map (·.1)

theorem entries_set (m : OrderedMap κ α) (k : κ) (v : α) : (m.set k v).entries = setEntry k v m.entries := rfl

@[simp] theorem length_keys (m : OrderedMap κ α) : m.keys.length = m.size := length_map _

@[simp] theorem find?_empty : (empty : OrderedMap κ α).find? k = none := rfl

theorem find?_set (m : OrderedMap κ α) (k k' : κ) (v : α) :
    (m.set k v).find? k' = if k' = k then some v else m.find? k' :=
  lookupEntry_setEntry k k' v m.entries

theorem mem_entries {v : α} : (k, v) ∈ m.entries ↔ m.find? k = some v := (lookupEntry_eq_some m.ascending).symm

theorem mem_keys : k ∈ m.keys ↔ (m.find? k).isSome = true := by
  rw [keys, mem_map, Option.isSome_iff_exists]
  constructor
  · rintro ⟨⟨k, v⟩, he, rfl⟩
    exact ⟨v, mem_entries.mp he⟩
  · rintro ⟨v, hv⟩
    exact ⟨(k, v), mem_entries.mpr hv, rfl⟩

theorem keys_pairwise (m : OrderedMap κ α) : m.keys.Pairwise (· < ·) := pairwise_map.mpr m.ascending

variable {P : κ → Bool}

theorem find?_le {l : List κ} {a : κ} (hl : l.Pairwise (· < ·)) (h : l.find? P = some a) :
    a ∈ l ∧ P a = true ∧ ∀ b ∈ l, P b = true → a ≤ b := by
  obtain ⟨hP, before, after, rfl, hbefore⟩ := find?_eq_some_iff_append.mp h
  refine ⟨mem_append_right _ mem_cons_self, hP, fun b hb hPb => ?_⟩
  rcases mem_append.mp hb with hb | hb
  · have hnot := hbefore b hb
    rw [hPb] at hnot
    cases hnot
  · rcases mem_cons.mp hb with rfl | hb
    · exact le_refl b
    · exact ((pairwise_cons.mp (pairwise_append.mp hl).2.1).1 b hb).le

theorem find?_keys {a : κ} (h : m.keys.find? P = some a) : a ∈ m.keys ∧ P a = true ∧ ∀ b ∈ m.keys, P b = true → a ≤ b :=
  find?_le (keys_pairwise m) h

theorem find?_reverse_keys {a : κ} (h : m.keys.reverse.find? P = some a) :
    a ∈ m.keys ∧ P a = true ∧ ∀ b ∈ m.keys, P b = true → b ≤ a := by
  obtain ⟨hmem, hP, hle⟩ := find?_le (κ := κᵒᵈ) (pairwise_reverse.mpr (keys_pairwise m)) h
  exact ⟨mem_reverse.mp hmem, hP, fun b hb => hle b (mem_reverse.mpr hb)⟩

theorem getLast?_keys {a : κ} : m.keys.getLast? = some a ↔ a ∈ m.keys ∧ ∀ b ∈ m.keys, b ≤ a := by
  have hmax : ∀ {c}, m.keys.getLast? = some c → c ∈ m.keys ∧ ∀ b ∈ m.keys, b ≤ c := fun hc => by
    obtain ⟨before, heq⟩ := getLast?_eq_some_iff.mp hc
    have hpair := keys_pairwise m
    rw [heq] at hpair ⊢
    refine ⟨mem_append_right _ mem_cons_self, fun b hb => ?_⟩
    rcases mem_append.mp hb with hb | hb
    · exact ((pairwise_append.mp hpair).2.2 b hb _ mem_cons_self).le
    · exact (mem_singleton.mp hb).le
  refine ⟨hmax, fun ⟨hmem, hle⟩ => ?_⟩
  rcases hc : m.keys.getLast? with _ | c
  · rw [getLast?_eq_none_iff.mp hc] at hmem
    cases hmem
  · obtain ⟨hcmem, hcle⟩ := hmax hc
    rw [le_antisymm (hle c hcmem) (hcle a hmem)]

/-- Removes the entry with this key, if there is one. -/
def erase (m : OrderedMap κ α) (k : κ) : OrderedMap κ α :=
  ⟨m.entries.filter fun e => e.1 ≠ k, m.ascending.filter _⟩

theorem find?_erase (m : OrderedMap κ α) (k k' : κ) : (m.erase k).find? k' = if k' = k then none else m.find? k' := by
  refine Option.ext fun v => ?_
  rw [← mem_entries, erase, mem_filter, mem_entries]
  split_ifs with h
  · simp [h]
  · simp [h]

theorem mem_keys_erase : k' ∈ (m.erase k).keys ↔ k' ≠ k ∧ k' ∈ m.keys := by
  rw [mem_keys, mem_keys, find?_erase]
  split_ifs with h
  · simp [h]
  · simp [h]

theorem ext_find? (h : ∀ k, m.find? k = n.find? k) : m = n := by
  refine OrderedMap.ext (List.Perm.eq_of_pairwise
    (fun a b _ _ hab hba => absurd hab hba.asymm) m.ascending n.ascending ?_)
  have hnodup : ∀ r : OrderedMap κ α, r.entries.Nodup := fun r =>
    r.ascending.imp fun {a b} hlt (heq : a = b) => absurd (congrArg Prod.fst heq) hlt.ne
  rw [perm_ext_iff_of_nodup (hnodup m) (hnodup n)]
  rintro ⟨k, v⟩
  rw [mem_entries, mem_entries, h k]

/-- A map that has the first entries of another one: the next entry is added behind them. -/
theorem set_of_append {v : α} {rest : List (κ × α)} (h : m.entries ++ (k, v) :: rest = n.entries) :
    (m.set k v).entries ++ rest = n.entries ∧ m.find? k = none := by
  have hasc : Ascending (m.entries ++ (k, v) :: rest) := h ▸ n.ascending
  have hlt : ∀ e ∈ m.entries, e.1 < k := fun e he => (pairwise_append.mp hasc).2.2 e he (k, v) mem_cons_self
  refine ⟨?_, lookupEntry_eq_none fun e he => ne_of_lt (hlt e he)⟩
  rw [entries_set, setEntry_append hlt, append_assoc, singleton_append, h]

theorem add_length_le {l : List Nat} {a bound : Nat} (hasc : l.Pairwise (· < ·)) (h : ∀ x ∈ l, a ≤ x ∧ x < bound)
    (ha : a ≤ bound) : a + l.length ≤ bound := by
  induction l generalizing a with
  | nil => exact ha
  | cons x l ih =>
    obtain ⟨hx, hasc⟩ := pairwise_cons.mp hasc
    rw [forall_mem_cons] at h
    have hle := ih hasc (fun y hy => ⟨hx y hy, (h.2 y hy).2⟩) h.1.2
    rw [length_cons]
    omega

theorem size_le {m : OrderedMap Nat α} {bound : Nat} (h : ∀ k ∈ m.keys, k < bound) : m.size ≤ bound := by
  rw [← length_keys, ← Nat.zero_add m.keys.length]
  exact add_length_le m.keys_pairwise (fun k hk => ⟨Nat.zero_le k, h k hk⟩) (Nat.zero_le _)

/-- A map with an entry for every number below the bound begins with 0. -/
theorem entries_of_full {m : OrderedMap Nat α} {bound : Nat} (hbound : 0 < bound) (h : ∀ k ∈ m.keys, k < bound)
    (hsize : bound ≤ m.size) : m.size = bound ∧ ∃ v rest, m.entries = (0, v) :: rest := by
  refine ⟨le_antisymm (size_le h) hsize, ?_⟩
  rcases hentries : m.entries with _ | ⟨⟨k, v⟩, rest⟩
  · rw [size, hentries, length_nil] at hsize
    omega
  have hkeys : m.keys = k :: rest.map (·.1) := by rw [keys, hentries, map_cons]
  have hasc := m.keys_pairwise
  rw [← length_keys] at hsize
  have hle : k + m.keys.length ≤ bound := by
    refine add_length_le hasc (fun x hx => ⟨?_, h x hx⟩) (h k (hkeys ▸ mem_cons_self)).le
    rw [hkeys] at hx hasc
    rcases mem_cons.mp hx with rfl | hx
    · exact le_rfl
    · exact ((pairwise_cons.mp hasc).1 x hx).le
  obtain rfl : k = 0 := by omega
  exact ⟨v, rest, rfl⟩

/-- A loop over the entries of `n` that updates the entries of `m` with the same keys. -/
def mergeM (f : κ → Option α → β → Option α) (m : OrderedMap κ α) (n : OrderedMap κ β) : Option (OrderedMap κ α) :=
  n.entries.foldlM (fun m e => (f e.1 (m.find? e.1) e.2).map (m.set e.1 ·)) m

/-- Combining the entries of one map into another changes the other at those keys only. -/
theorem find?_foldlM {f : κ → Option α → β → Option α} {entries : List (κ × β)} (hasc : Ascending entries) :
    ∀ {m r : OrderedMap κ α}, entries.foldlM (fun m e => (f e.1 (m.find? e.1) e.2).map (m.set e.1 ·)) m = some r →
    ∀ k, (lookupEntry k entries = none → r.find? k = m.find? k) ∧
      ∀ v, lookupEntry k entries = some v → ∃ w, f k (m.find? k) v = some w ∧ r.find? k = some w := by
  induction entries with
  | nil =>
    intro m r h k
    cases h
    exact ⟨fun _ => rfl, fun v hv => nomatch hv⟩
  | cons head rest ih =>
    obtain ⟨k₀, v₀⟩ := head
    obtain ⟨hhead, hrest⟩ := pairwise_cons.mp hasc
    intro m r h k
    rw [foldlM_cons] at h
    obtain ⟨m', hm', h⟩ := Option.bind_eq_some_iff.mp h
    obtain ⟨w, hw, rfl⟩ := Option.map_eq_some_iff.mp hm'
    obtain ⟨hnone, hsome⟩ := ih hrest h k
    rw [find?_set] at hnone hsome
    rw [lookupEntry]
    split_ifs with hk
    · subst hk
      have hno : lookupEntry k₀ rest = none := lookupEntry_eq_none fun e he => (ne_of_lt (hhead e he)).symm
      refine ⟨fun h => (nomatch h), fun v hv => ⟨w, ?_, ?_⟩⟩
      · cases hv
        exact hw
      · rw [hnone hno, if_pos rfl]
    · rw [if_neg (Ne.symm hk)] at hnone hsome
      exact ⟨hnone, hsome⟩

theorem find?_mergeM {f : κ → Option α → β → Option α} {n : OrderedMap κ β} (h : mergeM f m n = some r) (k : κ) :
    (n.find? k = none → r.find? k = m.find? k) ∧
      ∀ v, n.find? k = some v → ∃ w, f k (m.find? k) v = some w ∧ r.find? k = some w := find?_foldlM n.ascending h k

end OrderedMap

namespace OrderedSet

variable [LinearOrder κ] {s : OrderedSet κ} {x y : κ}

def insert (s : OrderedSet κ) (x : κ) : OrderedSet κ := OrderedMap.set s x ()

theorem size_insert_le (s : OrderedSet κ) (x : κ) : (insert s x).size ≤ s.size + 1 := length_setEntry_le x () s.entries

theorem mem_insert : y ∈ (insert s x).keys ↔ y = x ∨ y ∈ s.keys := by
  rw [OrderedMap.mem_keys, OrderedMap.mem_keys, insert, OrderedMap.find?_set]
  split_ifs with h <;> simp [h]

variable {t : OrderedSet κ}

theorem ext_keys (h : s.keys = t.keys) : s = t := by
  have hinj : Function.Injective (Prod.fst : κ × Unit → κ) := fun a b hab => Prod.ext hab rfl
  exact OrderedMap.ext (map_injective_iff.mpr hinj h)

/-- A set that has the first elements of another one: the next element is added behind them. -/
theorem insert_of_append {xs : List κ} (h : s.keys ++ x :: xs = t.keys) :
    (insert s x).keys ++ xs = t.keys ∧ x ∉ s.keys := by
  have hlt : ∀ y ∈ s.keys, y < x := by
    have hasc := t.keys_pairwise
    rw [← h] at hasc
    exact fun y hy => (pairwise_append.mp hasc).2.2 y hy x mem_cons_self
  refine ⟨?_, fun hmem => lt_irrefl _ (hlt x hmem)⟩
  rw [insert, OrderedMap.keys, OrderedMap.entries_set, setEntry_append fun e he => hlt e.1 (mem_map_of_mem he),
    map_append, append_assoc]
  exact h

theorem foldl_insert (xs : List κ) (h : s.keys ++ xs = t.keys) : xs.foldl insert s = t := by
  induction xs generalizing s with
  | nil => exact ext_keys ((append_nil _).symm.trans h)
  | cons x xs ih => exact ih (insert_of_append h).1

end OrderedSet

end Art.Lib
