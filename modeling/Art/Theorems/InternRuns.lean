import Art.Theorems.InternTable

/-! Interning is canonical whatever the order in which threads take the lock: the tables never hold two strings of
    the same contents. A search may skip frozen tables because nothing is put into them and new ones come behind
    them. -/

namespace Art.Interns
open List

namespace Table

variable {t : Table} {contents : List Nat} {n : Nat} {s : Str}

theorem findContents_eq_none (h : t.findContents contents n = none) :
    ∀ x ∈ (t.tables.drop n).flatten, x.contents ≠ contents := by
  intro x hx heq
  obtain ⟨set, hset, hx⟩ := mem_flatten.mp hx
  have hnone := findSome?_eq_none_iff.mp h set (mem_reverse.mpr hset)
  exact find?_eq_none.mp hnone x hx (beq_iff_eq.mpr heq)

theorem of_findContents (h : t.findContents contents n = some s) : s ∈ t.strings ∧ s.contents = contents := by
  obtain ⟨set, hset, hfind⟩ := exists_of_findSome?_eq_some h
  have heq := find?_some hfind
  exact ⟨mem_flatten.mpr ⟨set, mem_of_mem_drop (mem_reverse.mp hset), mem_of_find?_eq_some hfind⟩, beq_iff_eq.mp heq⟩

theorem strings_addInternStrings (t : Table) (internStrings : List Str) :
    (t.addInternStrings internStrings).strings ~ internStrings ++ t.strings := by
  rw [strings_eq, strings_eq]
  simpa [addInternStrings] using perm_append_comm_assoc ..

theorem strings_sweepWeaks (t : Table) (isMarked : Str → Option Str) :
    (t.sweepWeaks isMarked).strings = t.strings.filterMap isMarked := by
  rw [strings_eq, strings_eq, filterMap_append, filterMap_flatten]
  rfl

end Table

theorem map_filterMap_sublist {isMarked : Str → Option Str}
    (h : ∀ s s', isMarked s = some s' → s'.contents = s.contents) (l : List Str) :
    (l.filterMap isMarked).map Str.contents <+ l.map Str.contents := by
  induction l with
  | nil => exact .slnil
  | cons s l ih =>
    rw [map_cons, filterMap_cons]
    cases hs : isMarked s with
    | none => exact ih.cons _
    | some s' =>
      rw [map_cons, h s s' hs]
      exact ih.cons_cons _

namespace InternTable

variable {t t' : InternTable} {s x y : Str}

def strings (t : InternTable) : List Str := t.strong.strings ++ t.weak.strings

/-- No two strings of both tables together have the same contents. -/
def Unique (t : InternTable) : Prop := (t.strings.map Str.contents).Nodup

theorem Unique.eq (h : t.Unique) (hx : x ∈ t.strings) (hy : y ∈ t.strings) (heq : x.contents = y.contents) : x = y :=
  inj_on_of_nodup_map h hx hy heq

theorem Unique.cons (h : t.Unique) (hs : ∀ x ∈ t.strings, x.contents ≠ s.contents)
    (hperm : t'.strings ~ s :: t.strings) : t'.Unique := by
  refine (hperm.map Str.contents).nodup_iff.mpr (nodup_cons.mpr ⟨fun hmem => ?_, h⟩)
  obtain ⟨x, hx, heq⟩ := mem_map.mp hmem
  exact hs x hx heq

/-- Strings stay in their tables or become strong, and the frozen strong tables stay in front. -/
structure Kept (t t' : InternTable) : Prop where
  unique : t'.Unique
  strong : t.strong.strings ⊆ t'.strong.strings
  all : t.strings ⊆ t'.strings
  frozen : t.strong.frozen <+: t'.strong.frozen

theorem Kept.refl (h : t.Unique) : t.Kept t := ⟨h, Subset.refl _, Subset.refl _, prefix_rfl⟩

/-- A string without a match in the strong table is found in the weak one or is new, and it is strong if asked for. -/
theorem insertMissing_spec (h : t.Unique) (isStrong : Bool) (hs : ∀ x ∈ t.strong.strings, x.contents ≠ s.contents) :
    ∃ t' x, t.insertMissing s isStrong = some (t', x) ∧ t.Kept t' ∧ x ∈ t'.strings ∧ x.contents = s.contents ∧
      (isStrong = true → x ∈ t'.strong.strings) := by
  have hinsert := fun x => t.strong.strings_insert x
  have hnew := fun x => (hinsert x).mem_iff.mpr mem_cons_self
  have hstrong := fun x y (hy : y ∈ t.strong.strings) => (hinsert x).mem_iff.mpr (mem_cons_of_mem x hy)
  rw [insertMissing]
  cases hweak : t.weak.findContents s.contents 0 with
  | some weak =>
    obtain ⟨hmem, heq⟩ := Table.of_findContents hweak
    cases isStrong with
    | false => exact ⟨t, weak, rfl, .refl h, mem_append_right _ hmem, heq, fun h => by cases h⟩
    | true =>
      -- The promoted string goes from one table to the other.
      have hcanonical : t.weak.Canonical := h.sublist ((sublist_append_right ..).map _)
      obtain ⟨weak', hremove, hperm⟩ := Table.remove_perm hcanonical hmem
      have hall : strings ⟨t.strong.insert weak, weak'⟩ ~ t.strings :=
        ((hinsert weak).append_right _).trans (perm_middle.symm.trans (hperm.symm.append_left _))
      exact ⟨_, weak, by simp only [removeWeak, hremove, Option.map_some, if_true]; rfl,
        ⟨(hall.map Str.contents).nodup_iff.mpr h, hstrong weak, hall.symm.subset, prefix_rfl⟩,
        hall.mem_iff.mpr (mem_append_right _ hmem), heq, fun _ => hnew weak⟩
  | none =>
    have hnot : ∀ x ∈ t.strings, x.contents ≠ s.contents := fun x hx =>
      (mem_append.mp hx).elim (hs x) (Table.findContents_eq_none hweak x)
    obtain ⟨t', ht', hperm, hstrong, hfrozen, hnew⟩ : ∃ t',
        (if isStrong then t.insertStrong s else t.insertWeak s) = t' ∧ t'.strings ~ s :: t.strings ∧
          t.strong.strings ⊆ t'.strong.strings ∧ t.strong.frozen <+: t'.strong.frozen ∧
          (isStrong = true → s ∈ t'.strong.strings) := by
      cases isStrong with
      | true => exact ⟨_, rfl, (hinsert s).append_right _, hstrong s, prefix_rfl, fun _ => hnew s⟩
      | false =>
        have hperm := ((t.weak.strings_insert s).append_left t.strong.strings).trans perm_middle
        exact ⟨_, rfl, hperm, Subset.refl _, prefix_rfl, fun h => by cases h⟩
    have hall : t.strings ⊆ t'.strings := fun x hx => hperm.mem_iff.mpr (mem_cons_of_mem s hx)
    exact ⟨t', s, by rw [ht'], ⟨h.cons hnot hperm, hstrong, hall, hfrozen⟩, hperm.mem_iff.mpr mem_cons_self, rfl, hnew⟩

end InternTable

/-! ### Steps -/

/-- The contents that a call interns. -/
def Op.contents : Op → Option (List Nat)
  | .lookup contents => some contents
  | .insert _ s _ => some s.contents
  | _ => none

/-- The call asks for a strong intern. -/
def Op.isStrong : Op → Bool
  | .lookup _ => true
  | .insert request _ _ => request.isStrong
  | _ => false

/-- A turn of `Insert` that leaves the loop. -/
def Op.completes : Op → Bool
  | .insert _ _ accessible => accessible
  | _ => false

namespace Interning

variable {st st' : Interning}

/-- What the callers have checked: a call of `Insert` from the start, or one that has waited; a visitor that removes
    the strings already interned; a collector that keeps the contents of what it moves. -/
def Enabled (st : Interning) : Op → Prop
  | .insert request s _ =>
    s.contents = request.contents ∧ (request ∈ st.requests ∨ request.numSearchedStrongFrozenTables = 0)
  | .addTableFromMemory strings visitor =>
    (strings.map Str.contents).Nodup ∧
      ∀ s ∈ strings, visitor s = true → ∀ x ∈ st.table.strings, x.contents ≠ s.contents
  | .sweepWeaks isMarked => ∀ s s', isMarked s = some s' → s'.contents = s.contents
  | .lookup _ | .addNewTable => True

/-- The frozen tables that a call has searched do not have its string. -/
def Searched (t : InternTable) (r : Request) : Prop :=
  r.numSearchedStrongFrozenTables ≤ t.strong.frozen.length ∧
    ∀ x ∈ (t.strong.frozen.take r.numSearchedStrongFrozenTables).flatten, x.contents ≠ r.contents

theorem Searched.kept {t t' : InternTable} {r : Request} (h : Searched t r)
    (hk : t.strong.frozen <+: t'.strong.frozen) : Searched t' r := by
  obtain ⟨more, hmore⟩ := hk
  rw [Searched, ← hmore, take_append_of_le_length h.1, length_append]
  exact ⟨Nat.le_add_right_of_le h.1, h.2⟩

/-- An invariant of every run. -/
structure Inv (st : Interning) : Prop where
  unique : st.table.Unique
  searched : ∀ r ∈ st.requests, Searched st.table r

/-- The strong table does not have the contents of a call that returns nothing: a lookup, or a turn of `Insert` that may
    not read the weak roots. It waits. -/
structure Waits (st : Interning) (op : Op) (st' : Interning) (contents : List Nat) : Prop where
  completes : op.completes = false
  missing : ∀ x ∈ st.table.strong.strings, x.contents ≠ contents
  request : ⟨contents, op.isStrong, st.table.strong.frozen.length⟩ ∈ st'.requests

/-- What a step to `st'` keeps, and what it returns. -/
structure Good (st : Interning) (op : Op) (st' : Interning) (ret : Option Str) : Prop where
  inv : st'.Inv
  strong : st.table.strong.strings ⊆ st'.table.strong.strings
  kept : ∀ x ∈ st.table.strings, x ∈ st'.table.strings ∨ ∃ isMarked, op = .sweepWeaks isMarked ∧ isMarked x ≠ some x
  returned : ∀ x ∈ ret, x ∈ st'.table.strings ∧ op.contents = some x.contents ∧
    (op.isStrong = true → x ∈ st'.table.strong.strings)
  waits : ret = none → ∀ contents ∈ op.contents, st.Waits op st' contents

variable {op : Op} {contents : List Nat}

/-- A call that returns `x`. -/
theorem Good.of_returns {table : InternTable} {x : Str} (h : st.Inv) (hk : st.table.Kept table)
    (hx : x ∈ table.strings) (hop : op.contents = some x.contents)
    (hstrong : op.isStrong = true → x ∈ table.strong.strings) : Good st op { st with table } (some x) where
  inv := ⟨hk.unique, fun r hr => (h.searched r hr).kept hk.frozen⟩
  strong := hk.strong
  kept _ hx := .inl (hk.all hx)
  returned y hy := by
    obtain rfl := Option.some.inj hy
    exact ⟨hx, hop, hstrong⟩
  waits hnone := by cases hnone

/-- A change of the tables that interns nothing. -/
theorem Good.of_kept {table : InternTable} (h : st.Inv) (hk : st.table.Kept table) (hop : op.contents = none) :
    Good st op { st with table } none where
  inv := ⟨hk.unique, fun r hr => (h.searched r hr).kept hk.frozen⟩
  strong := hk.strong
  kept _ hx := .inl (hk.all hx)
  returned := nofun
  waits _ contents hc := by
    rw [hop] at hc
    cases hc

theorem Good.await (h : st.Inv) (hop : op.contents = some contents) (hcompletes : op.completes = false)
    (hnot : ∀ x ∈ st.table.strong.strings, x.contents ≠ contents) :
    Good st op (st.await contents op.isStrong) none where
  inv := by
    refine ⟨h.unique, forall_mem_cons.mpr ⟨⟨Nat.le_refl _, fun x hx => hnot x ?_⟩, h.searched⟩⟩
    rw [Table.strings_eq]
    exact mem_append_left _ (take_length (l := st.table.strong.frozen) ▸ hx)
  strong := Subset.refl _
  kept _ hx := .inl hx
  returned := nofun
  waits _ contents' hc := by
    obtain rfl := Option.some.inj (hop.symm.trans hc)
    exact ⟨hcompletes, hnot, mem_cons_self⟩

theorem Good.found (h : st.Inv) {n : Nat} {s : Str} (hfind : st.table.strong.findContents contents n = some s)
    (hop : op.contents = some contents) : Good st op st (some s) := by
  obtain ⟨hmem, rfl⟩ := Table.of_findContents hfind
  exact .of_returns h (.refl h.unique) (mem_append_left _ hmem) hop fun _ => hmem

/-- An enabled step of a thread succeeds and is a good one. -/
theorem step_good (h : st.Inv) (he : st.Enabled op) : ∃ st' ret, st.step op = some (st', ret) ∧ Good st op st' ret := by
  cases op with
  | lookup contents =>
    rw [step]
    cases hfind : st.table.strong.findContents contents 0 with
    | some s => exact ⟨st, some s, rfl, .found h hfind rfl⟩
    | none => exact ⟨_, none, rfl, .await h rfl rfl (Table.findContents_eq_none hfind)⟩
  | insert request s accessible =>
    obtain ⟨hcontents, hrequest⟩ := he
    rw [step]
    cases hfind : st.table.strong.findContents s.contents request.numSearchedStrongFrozenTables with
    | some strong => exact ⟨st, some strong, rfl, .found h hfind rfl⟩
    | none =>
      -- The tables that this search skips were searched before.
      have hskipped : Searched st.table request := by
        rcases hrequest with hr | hzero
        · exact h.searched request hr
        · simp [Searched, hzero]
      have hnot : ∀ x ∈ st.table.strong.strings, x.contents ≠ s.contents := by
        intro x hx
        rw [Table.strings, ← take_append_drop request.numSearchedStrongFrozenTables st.table.strong.tables,
          flatten_append] at hx
        rcases mem_append.mp hx with hx | hx
        · rw [Table.tables, take_append_of_le_length hskipped.1] at hx
          exact hcontents ▸ hskipped.2 x hx
        · exact Table.findContents_eq_none hfind x hx
      cases accessible with
      | false => exact ⟨_, none, rfl, .await h rfl rfl hnot⟩
      | true =>
        obtain ⟨t', x, hinsert, hk, hmem, heq, hstrong⟩ := InternTable.insertMissing_spec h.unique request.isStrong hnot
        have hop : (Op.insert request s true).contents = some x.contents := congrArg some heq.symm
        exact ⟨{ st with table := t' }, some x, by simp [hinsert], .of_returns h hk hmem hop hstrong⟩
  | addNewTable =>
    have hstrings : ∀ t : Table, t.addNewTable.strings = t.strings := fun t => by
      rw [Table.strings_eq]
      exact append_nil _
    refine ⟨_, none, rfl, .of_kept h ⟨?_, ?_, ?_, prefix_append ..⟩ rfl⟩
    all_goals simp only [InternTable.Unique, InternTable.strings, hstrings]
    · exact h.unique
    · exact Subset.refl _
    · exact Subset.refl _
  | addTableFromMemory strings visitor =>
    rw [step]
    simp only
    split_ifs
    · exact ⟨st, none, rfl, .of_kept h (.refl h.unique) rfl⟩
    · have hadd := st.table.strong.strings_addInternStrings (strings.filter visitor)
      have hperm := hadd.append_right st.table.weak.strings
      refine ⟨_, none, rfl, .of_kept h ⟨?_, ?_, ?_, prefix_append ..⟩ rfl⟩
      · refine (hperm.map Str.contents).nodup_iff.mpr ?_
        rw [append_assoc, map_append]
        refine nodup_append.mpr ⟨he.1.sublist (filter_sublist.map _), h.unique, fun a ha b hb heq => ?_⟩
        obtain ⟨s, hs, rfl⟩ := mem_map.mp ha
        obtain ⟨x, hx, rfl⟩ := mem_map.mp hb
        obtain ⟨hs, hvisitor⟩ := mem_filter.mp hs
        exact he.2 s hs hvisitor x hx heq.symm
      · exact fun x hx => hadd.mem_iff.mpr (mem_append_right _ hx)
      · exact fun x hx => hperm.mem_iff.mpr (append_assoc .. ▸ mem_append_right _ hx)
  | sweepWeaks isMarked =>
    have hstrings := st.table.weak.strings_sweepWeaks isMarked
    refine ⟨_, none, rfl, ⟨?_, fun r hr => h.searched r hr⟩, Subset.refl _, fun x hx => ?_, ?_, ?_⟩
    · rw [InternTable.Unique, InternTable.strings, hstrings, map_append]
      refine h.unique.sublist ?_
      rw [InternTable.strings, map_append]
      exact (map_filterMap_sublist he _).append_left _
    · rcases mem_append.mp hx with hx | hx
      · exact .inl (mem_append_left _ hx)
      · by_cases hm : isMarked x = some x
        · refine .inl (mem_append_right _ ?_)
          rw [hstrings]
          exact mem_filterMap.mpr ⟨x, hx, hm⟩
        · exact .inr ⟨isMarked, rfl, hm⟩
    · exact fun _ hret => by cases hret
    · exact fun _ _ hc => by cases hc

/-- Runs of the steps of any threads. -/
inductive Reachable : Interning → Prop
  | start : Reachable start
  | step {st st' : Interning} {op : Op} {ret : Option Str} (before : Reachable st) (enabled : st.Enabled op)
      (eq : st.step op = some (st', ret)) : Reachable st'

theorem Reachable.inv (h : Reachable st) : st.Inv := by
  induction h with
  | start => exact ⟨nodup_nil, nofun⟩
  | step before enabled eq ih =>
    obtain ⟨st', ret, hstep, hgood⟩ := step_good ih enabled
    obtain ⟨rfl, -⟩ := Prod.mk.inj (Option.some.inj (hstep.symm.trans eq))
    exact hgood.inv

/-- In every run the tables have one string for given contents, and a call that interns these contents returns it; only
    a call whose contents are not strong returns nothing and waits, if it is a lookup or may not read the weak roots. A
    step keeps the strings except those that a sweep finds unmarked or moved, and strong strings stay strong. The tables
    that a waiting call will skip do not have its string. -/
theorem interning_canonical (h : Reachable st) :
    st.table.Unique ∧
      (∀ r ∈ st.requests, ∀ table ∈ st.table.strong.tables.take r.numSearchedStrongFrozenTables,
        ∀ x ∈ table, x.contents ≠ r.contents) ∧
      ∀ op, st.Enabled op → ∃ st' ret, st.step op = some (st', ret) ∧
        (∀ x ∈ st.table.strong.strings, x ∈ st'.table.strong.strings) ∧
        (∀ x ∈ st.table.strings, x ∈ st'.table.strings ∨
          ∃ isMarked, op = .sweepWeaks isMarked ∧ isMarked x ≠ some x) ∧
        (∀ x ∈ ret, op.contents = some x.contents ∧ x ∈ st'.table.strings ∧
          (op.isStrong = true → x ∈ st'.table.strong.strings) ∧
          ∀ y ∈ st.table.strings, y.contents = x.contents → y = x) ∧
        (ret = none → ∀ contents ∈ op.contents, st.Waits op st' contents) := by
  refine ⟨h.inv.unique, fun r hr table htable x hx => ?_, fun op he => ?_⟩
  · obtain ⟨hle, hnot⟩ := h.inv.searched r hr
    rw [Table.tables, take_append_of_le_length hle] at htable
    exact hnot x (mem_flatten.mpr ⟨table, htable, hx⟩)
  · obtain ⟨st', ret, hstep, hgood⟩ := step_good h.inv he
    refine ⟨st', ret, hstep, hgood.strong, hgood.kept, fun x hx => ?_, hgood.waits⟩
    obtain ⟨hmem, hcontents, hstrong⟩ := hgood.returned x hx
    refine ⟨hcontents, hmem, hstrong, fun y hy heq => ?_⟩
    rcases hgood.kept y hy with hy | ⟨isMarked, rfl, -⟩
    · exact hgood.inv.unique.eq hy hmem heq
    · cases hcontents

/-- A string that another thread interned between the lookup and the insertion. -/
theorem interning_canonical_race : ∃ st, Reachable st ∧ st.requests = [⟨[97], true, 0⟩] ∧
    st.table.strong.strings = [⟨2, [97]⟩] ∧ st.table.Unique :=
  have lookup : start.Enabled (.lookup [97]) := trivial
  have insert : (start.await [97] true).Enabled (.insert ⟨[97], true, 0⟩ ⟨2, [97]⟩ true) := ⟨rfl, .inr rfl⟩
  have reachable := (Reachable.start.step lookup rfl).step insert rfl
  ⟨_, reachable, rfl, rfl, (interning_canonical reachable).1⟩

/-- Some thread's step. -/
def Leads (st st' : Interning) : Prop := ∃ op ret, st.Enabled op ∧ st.step op = some (st', ret)

/-- A strong string is the one that every later call with its contents returns. -/
theorem strong_stays (h : Reachable st) (hrun : Relation.ReflTransGen Leads st st') {x : Str}
    (hx : x ∈ st.table.strong.strings) : x ∈ st'.table.strong.strings ∧
      ∀ op, st'.Enabled op → op.contents = some x.contents → ∃ next, st'.step op = some (next, some x) := by
  have hlater : Reachable st' ∧ x ∈ st'.table.strong.strings := by
    induction hrun with
    | refl => exact ⟨h, hx⟩
    | tail _ hlead ih =>
      obtain ⟨op, ret, he, heq⟩ := hlead
      obtain ⟨next, ret', hstep, hgood⟩ := step_good ih.1.inv he
      obtain ⟨rfl, -⟩ := Prod.mk.inj (Option.some.inj (hstep.symm.trans heq))
      exact ⟨ih.1.step he heq, hgood.strong ih.2⟩
  refine ⟨hlater.2, fun op he hop => ?_⟩
  obtain ⟨next, ret, hstep, hgood⟩ := step_good hlater.1.inv he
  cases ret with
  | none => exact absurd rfl ((hgood.waits rfl _ hop).missing x hlater.2)
  | some y =>
    obtain ⟨hmem, hcontents, -⟩ := hgood.returned y rfl
    have heq := Option.some.inj (hcontents.symm.trans hop)
    obtain rfl := hgood.inv.unique.eq hmem (mem_append_left _ (hgood.strong hlater.2)) heq
    exact ⟨next, hstep⟩

/-- A string stays strong when its table is frozen, and a later lookup finds it. -/
theorem strong_stays_frozen : ∃ st, Reachable st ∧ st.table.strong.active = [] ∧ ⟨2, [97]⟩ ∈ st.table.strong.strings ∧
    ∃ next, st.step (.lookup [97]) = some (next, some ⟨2, [97]⟩) :=
  have insert : start.Enabled (.insert ⟨[97], true, 0⟩ ⟨2, [97]⟩ true) := ⟨rfl, .inr rfl⟩
  have reachable := Reachable.start.step insert rfl
  have freeze : Enabled _ .addNewTable := trivial
  have stays := strong_stays reachable (.single ⟨_, _, freeze, rfl⟩) mem_cons_self
  ⟨_, reachable.step freeze rfl, rfl, stays.1, stays.2 (.lookup [97]) trivial rfl⟩

end Interning

end Art.Interns
