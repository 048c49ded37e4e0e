import Art.Runtime.RegisterLine

/-! The merge of register lines: when it changes a line without reporting it, when a line that was merged
    once can be merged again without a change, and when it keeps the locks. -/

namespace Art.Verifier
open List

/-! ### Locks -/

section Locks

variable {T O locks : LockDepths} {idx k len : Nat}

/-- A register other than `idx` has these locks, and the loop did not drop it before it came to `idx`. -/
def Aliased (T O : LockDepths) (idx : Nat) (levels : Option Nat) : Prop :=
  levels = none ∨ levels = some 0 ∨ ∃ j, j ≠ idx ∧ T.find? j = levels ∧ (j < idx → T.find? j = O.find? j)

/-- The locks of the register in either line have an alias. -/
def Mergeable (T O : LockDepths) (idx : Nat) : Prop := Aliased T O idx (T.find? idx) ∧ Aliased T O idx (O.find? idx)

/-- The locks that are left before register `k`. -/
def LeftBefore (T O : LockDepths) (k : Nat) (locks : LockDepths) : Prop :=
  ∀ j, locks.find? j = if j < k ∧ T.find? j ≠ O.find? j then none else T.find? j

theorem LeftBefore.start (T O : LockDepths) : LeftBefore T O 0 T := fun j => by simp

/-- An alias is found when another register holds the locks in both lines. -/
theorem findLockAliasedRegister_iff {src : LockDepths} (h : LeftBefore T O idx locks) :
    findLockAliasedRegister idx src locks = true ↔ Aliased T O idx (src.find? idx) := by
  rw [findLockAliasedRegister, Aliased]
  cases hsrc : src.find? idx with
  | none => simp
  | some levels =>
    have hmem : ∀ j, (j, levels) ∈ locks.entries ↔ T.find? j = some levels ∧ (j < idx → T.find? j = O.find? j) :=
      fun j => by
      rw [Lib.OrderedMap.mem_entries, h j]
      by_cases hlt : j < idx <;> by_cases heq : T.find? j = O.find? j <;> simp [hlt, heq]
    by_cases hzero : levels = 0
    · simp [hzero]
    simp only [hzero, if_false, any_eq_true, Bool.and_eq_true, decide_eq_true_eq, reduceCtorEq, Option.some.injEq,
      false_or]
    constructor
    · rintro ⟨⟨j, v⟩, hj, hne, rfl⟩
      exact ⟨j, hne, (hmem j).mp hj⟩
    · rintro ⟨j, hne, hj⟩
      exact ⟨(j, levels), (hmem j).mpr hj, hne, rfl⟩

variable (h : LeftBefore T O k locks)

include h

theorem LeftBefore.find?_self : locks.find? k = T.find? k := by
  rw [h k, if_neg fun hlt => lt_irrefl k hlt.1]

theorem LeftBefore.step_same (heq : T.find? k = O.find? k) : LeftBefore T O (k + 1) locks := by
  intro j
  rw [h j]
  rcases Nat.lt_trichotomy j k with hlt | rfl | hgt
  · simp [hlt, Nat.lt_succ_of_lt hlt]
  · simp [heq]
  · simp [Nat.lt_asymm hgt, Nat.not_lt.mpr hgt]

theorem LeftBefore.step_erase (hne : T.find? k ≠ O.find? k) : LeftBefore T O (k + 1) (locks.erase k) := by
  intro j
  rw [Lib.OrderedMap.find?_erase, h j]
  rcases Nat.lt_trichotomy j k with hlt | rfl | hgt
  · simp [hlt, Nat.lt_succ_of_lt hlt, hlt.ne]
  · simp [hne]
  · simp [Nat.lt_asymm hgt, Nat.not_lt.mpr hgt, hgt.ne']

/-- The branches of the loop at a register: keep the locks, drop them, or fail. -/
theorem mergeLockDepths_cons (rest : List Nat) :
    (T.find? k = O.find? k ∧ mergeLockDepths O (k :: rest) locks = mergeLockDepths O rest locks) ∨
    (T.find? k ≠ O.find? k ∧ Mergeable T O k ∧
      mergeLockDepths O (k :: rest) locks = mergeLockDepths O rest (locks.erase k)) ∨
    (T.find? k ≠ O.find? k ∧ ¬Mergeable T O k ∧ mergeLockDepths O (k :: rest) locks = (locks, true)) := by
  have htest : (!findLockAliasedRegister k locks locks || !findLockAliasedRegister k O locks) = true ↔
      ¬Mergeable T O k := by
    rw [Mergeable, ← h.find?_self, ← findLockAliasedRegister_iff h, ← findLockAliasedRegister_iff h, not_and_or,
      Bool.or_eq_true, Bool.not_eq_true', Bool.not_eq_true', Bool.not_eq_true, Bool.not_eq_true]
  have hdrop : ∀ r, T.find? k ≠ O.find? k →
      r = (if !findLockAliasedRegister k locks locks || !findLockAliasedRegister k O locks then (locks, true)
        else mergeLockDepths O rest (locks.erase k)) →
      (T.find? k = O.find? k ∧ r = mergeLockDepths O rest locks) ∨
      (T.find? k ≠ O.find? k ∧ Mergeable T O k ∧ r = mergeLockDepths O rest (locks.erase k)) ∨
      (T.find? k ≠ O.find? k ∧ ¬Mergeable T O k ∧ r = (locks, true)) := by
    rintro r hne rfl
    by_cases hm : Mergeable T O k
    · exact .inr (.inl ⟨hne, hm, if_neg fun htrue => htest.mp htrue hm⟩)
    · exact .inr (.inr ⟨hne, hm, if_pos (htest.mpr hm)⟩)
  have hself := h.find?_self
  rw [mergeLockDepths]
  split
  · next hT hO => exact .inl ⟨by rw [← hself, hT, hO], rfl⟩
  · next levels hT hO => exact hdrop _ (by simp [← hself, hT, hO]) rfl
  · next levels hT hO => exact hdrop _ (by simp [← hself, hT, hO]) rfl
  · next levels levels' hT hO =>
    by_cases heq : levels = levels'
    · rw [if_neg (not_not.mpr heq)]
      exact .inl ⟨by rw [← hself, hT, hO, heq], rfl⟩
    · rw [if_pos heq]
      exact hdrop _ (by simpa [← hself, hT, hO] using heq) rfl

omit h

variable (len) in
include h in
/-- The loop drops the locks that differ, up to the first one without an alias. -/
theorem mergeLockDepths_spec : ∃ p, k ≤ p ∧ p ≤ k + len ∧ LeftBefore T O p (mergeLockDepths O (range' k len) locks).1 ∧
      (∀ j, k ≤ j → j < p → T.find? j ≠ O.find? j → Mergeable T O j) ∧
      ((mergeLockDepths O (range' k len) locks).2 = false ∧ p = k + len ∨
        (mergeLockDepths O (range' k len) locks).2 = true ∧ p < k + len ∧ T.find? p ≠ O.find? p ∧
        ¬Mergeable T O p) := by
  induction len generalizing k locks with
  | zero => exact ⟨k, Nat.le_refl k, Nat.le_refl k, h, fun j hj hlt => absurd hlt (Nat.not_lt.mpr hj), .inl ⟨rfl, rfl⟩⟩
  | succ len ih =>
    rw [range'_succ]
    have hend : k + 1 + len = k + (len + 1) := by omega
    -- Register `k` itself is as the case says, and the others are the rest of the loop.
    have hcons : ∀ {p}, (T.find? k ≠ O.find? k → Mergeable T O k) →
        (∀ j, k + 1 ≤ j → j < p → T.find? j ≠ O.find? j → Mergeable T O j) →
        ∀ j, k ≤ j → j < p → T.find? j ≠ O.find? j → Mergeable T O j := fun hk hrest j hj hlt hd => by
      rcases Nat.eq_or_lt_of_le hj with rfl | hgt
      · exact hk hd
      · exact hrest j hgt hlt hd
    rcases mergeLockDepths_cons h (range' (k + 1) len) with ⟨heq, hrun⟩ | ⟨hne, hm, hrun⟩ | ⟨hne, hm, hrun⟩
    · obtain ⟨p, hkp, hpl, hleft, hall, hcase⟩ := ih (h.step_same heq)
      rw [hrun]
      exact ⟨p, Nat.le_of_succ_le hkp, hend ▸ hpl, hleft, hcons (absurd heq) hall, hend ▸ hcase⟩
    · obtain ⟨p, hkp, hpl, hleft, hall, hcase⟩ := ih (h.step_erase hne)
      rw [hrun]
      exact ⟨p, Nat.le_of_succ_le hkp, hend ▸ hpl, hleft, hcons (fun _ => hm) hall, hend ▸ hcase⟩
    · rw [hrun]
      exact ⟨k, Nat.le_refl k, by omega, h, fun j hj hlt => absurd hlt (Nat.not_lt.mpr hj),
        .inr ⟨rfl, by omega, hne, hm⟩⟩

end Locks

namespace RegisterLine

variable {τ : Type} {numRegs : Nat} [DecidableEq τ] {types : RegTypes τ} {T O : RegisterLine τ numRegs}

/-- The merge drops a lock of the target: a register with locks that differ, and neither it nor a register before
    it has differing locks without an alias. -/
def DropsLock (T O : RegisterLine τ numRegs) : Prop :=
  0 < T.monitors.length ∧ T.monitors.length = O.monitors.length ∧
    ∃ idx < numRegs, T.regToLockDepths.find? idx ≠ none ∧ T.regToLockDepths.find? idx ≠ O.regToLockDepths.find? idx ∧
      ∀ j ≤ idx, T.regToLockDepths.find? j ≠ O.regToLockDepths.find? j → Mergeable T.regToLockDepths O.regToLockDepths j

/-- The loop over the locks does not stop early. It does not run where the monitor stacks differ in size. -/
def LocksMatch (T O : RegisterLine τ numRegs) : Prop :=
  0 < T.monitors.length → T.monitors.length = O.monitors.length → ∀ j < numRegs,
    T.regToLockDepths.find? j ≠ O.regToLockDepths.find? j → Mergeable T.regToLockDepths O.regToLockDepths j

/-- The type of a register changes, or `this` is not initialized any more. -/
def TypesChange (types : RegTypes τ) (T O : RegisterLine τ numRegs) : Prop :=
  (∃ idx, mergeType types (T.line idx) (O.line idx) ≠ T.line idx) ∨
    (T.thisInitialized = true ∧ O.thisInitialized = false)

omit [DecidableEq τ] in
/-- The locks are as before unless some are dropped. -/
theorem mergeLocks_fst_eq_iff : (mergeLocks T O).1 = T.regToLockDepths ↔ ¬DropsLock T O := by
  rw [mergeLocks]
  split_ifs with hmon hlen hlocks
  · exact ⟨fun _ hd => hlen hd.2.1, fun _ => rfl⟩
  · obtain ⟨p, -, hpl, hleft, hall, hcase⟩ := mergeLockDepths_spec numRegs (.start T.regToLockDepths O.regToLockDepths)
    rw [range_eq_range']
    constructor
    · rintro heq ⟨-, -, idx, hidx, hsome, hne, hbefore⟩
      have hlt : idx < p := by
        rcases hcase with ⟨-, rfl⟩ | ⟨-, -, hp, hnot⟩
        · omega
        · by_contra hge
          exact hnot (hbefore p (by omega) hp)
      have hgone := hleft idx
      rw [heq, if_pos ⟨hlt, hne⟩] at hgone
      exact hsome hgone
    · intro hnot
      refine Lib.OrderedMap.ext_find? fun j => ?_
      rw [hleft j]
      split_ifs with hd
      · by_contra hsome
        refine hnot ⟨by omega, by omega, j, by omega, Ne.symm hsome, hd.2, fun i hi hne => ?_⟩
        exact hall i (Nat.zero_le i) (by omega) hne
      · rfl
  · refine ⟨fun _ hd => ?_, fun _ => rfl⟩
    obtain ⟨-, -, idx, -, -, hne, -⟩ := hd
    rw [not_not.mp hlocks] at hne
    exact hne rfl
  · exact ⟨fun _ hd => hmon (.inl hd.1), fun _ => rfl⟩

theorem changed_iff : (T.mergeRegisters types O).changed = true ↔ TypesChange types T O := by
  simp only [mergeRegisters, TypesChange, Bool.or_eq_true, any_eq_true, mem_finRange, true_and,
    decide_eq_true_eq, Bool.and_eq_true, Bool.not_eq_true', ne_comm]

/-- When the merge tells of every change of the line. -/
theorem reports_iff :
    ((T.mergeRegisters types O).changed = false → (T.mergeRegisters types O).line = T) ↔
      TypesChange types T O ∨ ¬DropsLock T O := by
  by_cases hchange : TypesChange types T O
  · simp [changed_iff.mpr hchange, hchange]
  have hfalse : (T.mergeRegisters types O).changed = false := by
    rw [← Bool.not_eq_true, changed_iff]
    exact hchange
  have hline : (T.mergeRegisters types O).line = { T with regToLockDepths := (mergeLocks T O).1 } := by
    rw [TypesChange, not_or, not_exists] at hchange
    refine RegisterLine.ext (funext fun idx => not_not.mp (hchange.1 idx)) rfl rfl ?_
    simp only [mergeRegisters, Bool.and_eq_true, Bool.not_eq_true']
    rw [if_neg hchange.2]
  rw [hfalse, hline, ← mergeLocks_fst_eq_iff]
  simp only [true_imp_iff, hchange, false_or]
  exact ⟨fun h => congrArg RegisterLine.regToLockDepths h, fun h => by rw [h]⟩

/-! ### Merging again -/

/-- A merge with this type keeps what the register has absorbed, and absorbs the type itself. -/
def Keeps (types : RegTypes τ) (cur incoming : τ) : Prop :=
  mergeType types (mergeType types cur incoming) incoming = mergeType types cur incoming ∧
    ∀ t, mergeType types cur t = cur → mergeType types (mergeType types cur incoming) t = mergeType types cur incoming

/-- `O` has been merged into `T`. -/
structure Settled (types : RegTypes τ) (T O : RegisterLine τ numRegs) : Prop where
  line : ∀ idx, mergeType types (T.line idx) (O.line idx) = T.line idx
  locks : 0 < T.monitors.length → T.monitors.length = O.monitors.length → ∀ idx < numRegs,
    T.regToLockDepths.find? idx = none ∨ T.regToLockDepths.find? idx = O.regToLockDepths.find? idx
  thisInitialized : T.thisInitialized = true → O.thisInitialized = true

theorem mergeType_self (t : τ) : mergeType types t t = t := if_neg (not_not.mpr rfl)

theorem Settled.refl (O : RegisterLine τ numRegs) : Settled types O O :=
  ⟨fun _ => mergeType_self _, fun _ _ _ _ => .inr rfl, id⟩

theorem Settled.mergeRegisters (h : Settled types T O) :
    (T.mergeRegisters types O).line = T ∧ (T.mergeRegisters types O).changed = false := by
  have hsame : ¬TypesChange types T O := by
    rintro (⟨idx, hidx⟩ | ⟨ht, ho⟩)
    · exact hidx (h.line idx)
    · rw [h.thisInitialized ht] at ho
      cases ho
  have hlocks : ¬DropsLock T O := by
    rintro ⟨hpos, hlen, idx, hlt, hsome, hne, -⟩
    exact (h.locks hpos hlen idx hlt).elim hsome hne
  have hfalse : (T.mergeRegisters types O).changed = false := by
    rw [← Bool.not_eq_true, changed_iff]
    exact hsame
  exact ⟨reports_iff.mpr (.inr hlocks) hfalse, hfalse⟩

omit [DecidableEq τ] in
theorem find?_mergeLocks (idx : Nat) :
    (mergeLocks T O).1.find? idx = none ∨ (mergeLocks T O).1.find? idx = T.regToLockDepths.find? idx := by
  rw [mergeLocks]
  split_ifs with hmon hlen hlocks
  · exact .inr rfl
  · obtain ⟨p, -, -, hleft, -, -⟩ := mergeLockDepths_spec numRegs (.start T.regToLockDepths O.regToLockDepths)
    rw [range_eq_range', hleft idx]
    split_ifs with hd
    · exact .inl rfl
    · exact .inr rfl
  · exact .inr rfl
  · exact .inr rfl

omit [DecidableEq τ] in
theorem mergeLocks_agree (h : LocksMatch T O) (hpos : 0 < T.monitors.length)
    (hlen : T.monitors.length = O.monitors.length) {idx : Nat} (hidx : idx < numRegs) :
    (mergeLocks T O).1.find? idx = none ∨ (mergeLocks T O).1.find? idx = O.regToLockDepths.find? idx := by
  rw [mergeLocks, if_pos (.inl hpos), if_neg (not_not.mpr hlen)]
  split_ifs with hlocks
  · obtain ⟨p, -, hpl, hleft, hall, hcase⟩ := mergeLockDepths_spec numRegs (.start T.regToLockDepths O.regToLockDepths)
    rw [range_eq_range', hleft idx]
    rcases hcase with ⟨-, rfl⟩ | ⟨-, hp, hne, hnot⟩
    · split_ifs with hd
      · exact .inl rfl
      · exact .inr (not_not.mp fun hne => hd ⟨by omega, hne⟩)
    · exact absurd (h hpos hlen p (by omega) hne) hnot
  · exact .inr (by rw [not_not.mp hlocks])

theorem settled_mergeRegisters (hmatch : LocksMatch T O) (hkeep : ∀ idx, Keeps types (T.line idx) (O.line idx)) :
    Settled types (T.mergeRegisters types O).line O where
  line idx := (hkeep idx).1
  locks hpos hlen idx hidx := mergeLocks_agree hmatch hpos hlen hidx
  thisInitialized h := by
    simp only [RegisterLine.mergeRegisters] at h
    split_ifs at h with hlost
    simp only [Bool.and_eq_true, Bool.not_eq_true', not_and, Bool.not_eq_false] at hlost
    exact hlost h

theorem Settled.after {I : RegisterLine τ numRegs} (h : Settled types T O)
    (hkeep : ∀ idx, Keeps types (T.line idx) (I.line idx)) : Settled types (T.mergeRegisters types I).line O where
  line idx := (hkeep idx).2 _ (h.line idx)
  locks hpos hlen idx hidx := by
    rcases find?_mergeLocks (T := T) (O := I) idx with hnone | hsame
    · exact .inl hnone
    · exact hsame ▸ h.locks hpos hlen idx hidx
  thisInitialized ht := by
    simp only [RegisterLine.mergeRegisters] at ht
    split_ifs at ht
    exact h.thisInitialized ht

/-! ### Locks that are kept -/

/-- The loop over the locks does not come to this register: there are no monitors, or it is the virtual null register.
    -/
def Skips (T : RegisterLine τ numRegs) (r : Nat) : Prop := T.monitors = [] ∨ numRegs ≤ r

omit [DecidableEq τ] in
/-- A merge without an error keeps the locks that agree. -/
theorem find?_mergeLocks_of_ok (hdepth : T.monitors.length = O.monitors.length) (hok : (mergeLocks T O).2 = false) :
    (∀ r s, (mergeLocks T O).1.find? r = some s ↔ T.regToLockDepths.find? r = some s ∧
      (¬Skips T r → T.regToLockDepths.find? r = O.regToLockDepths.find? r)) ∧
    ∀ r, ¬Skips T r → T.regToLockDepths.find? r ≠ O.regToLockDepths.find? r →
      Mergeable T.regToLockDepths O.regToLockDepths r := by
  rw [mergeLocks, if_neg (not_not.mpr hdepth)] at hok ⊢
  split_ifs at hok ⊢ with hmon hlocks
  · have hskip : ∀ r, ¬Skips T r ↔ r < numRegs := fun r => by
      have hne : T.monitors ≠ [] := fun hnil => by simp [← hdepth, hnil] at hmon
      simp [Skips, hne]
    obtain ⟨p, -, -, hleft, hall, hcase⟩ := mergeLockDepths_spec numRegs (.start T.regToLockDepths O.regToLockDepths)
    rw [range_eq_range'] at hok ⊢
    obtain rfl : p = 0 + numRegs := by
      rcases hcase with ⟨-, hp⟩ | ⟨htrue, -⟩
      · exact hp
      · cases hok.symm.trans htrue
    rw [Nat.zero_add] at hleft hall
    refine ⟨fun r s => ?_, fun r hr => hall r (Nat.zero_le r) ((hskip r).mp hr)⟩
    rw [hleft r, hskip]
    split_ifs with hd
    · simp [hd]
    · rw [not_and, not_not] at hd
      exact (and_iff_left hd).symm
  · have hsame : ∀ r, T.regToLockDepths.find? r = O.regToLockDepths.find? r := fun r => by rw [not_not.mp hlocks]
    exact ⟨fun r s => (and_iff_left fun _ => hsame r).symm, fun r _ hne => absurd (hsame r) hne⟩
  · have hskip : ∀ r, Skips T r := fun r => .inl (length_eq_zero_iff.mp (by omega))
    exact ⟨fun r s => (and_iff_left fun hr => absurd (hskip r) hr).symm, fun r hr => absurd (hskip r) hr⟩

omit [DecidableEq τ] in
/-- A lock level that is held stays with some register. -/
theorem exists_kept
    (hall : ∀ r, ¬Skips T r → T.regToLockDepths.find? r ≠ O.regToLockDepths.find? r →
      Mergeable T.regToLockDepths O.regToLockDepths r)
    {s r : Nat} (hs : s ≠ 0) (hr : T.regToLockDepths.find? r = some s) :
    ∃ r', T.regToLockDepths.find? r' = some s ∧
      (¬Skips T r' → T.regToLockDepths.find? r' = O.regToLockDepths.find? r') := by
  by_cases hkept : ¬Skips T r → T.regToLockDepths.find? r = O.regToLockDepths.find? r
  · exact ⟨r, hr, hkept⟩
  obtain ⟨hvisited, hne⟩ := Classical.not_imp.mp hkept
  rcases (hall r hvisited hne).1 with hnil | hzero | ⟨j, hj, hsame, hbefore⟩
  · cases hr.symm.trans hnil
  · exact absurd (Option.some.inj (hr.symm.trans hzero)) hs
  · rw [hr] at hsame
    by_cases hlt : j < r
    · exact ⟨j, hsame, fun _ => hbefore hlt⟩
    · -- the search goes up to later registers, and these are below `numRegs`
      have hlast : r < numRegs := Nat.not_le.mp (not_or.mp hvisited).2
      exact exists_kept hall hs hsame
termination_by numRegs - r

/-- The locks are kept if those that the loop skips are: the locks of the target are those of the incoming line, and
    the target knows every lock of the incoming line. -/
theorem mergeRegisters_keeps_locks_iff (hdepth : T.monitors.length = O.monitors.length)
    (hok : (T.mergeRegisters types O).lockingError = false) :
    ((∀ r s, (T.mergeRegisters types O).line.regToLockDepths.find? r = some s →
        T.regToLockDepths.find? r = some s ∧ O.regToLockDepths.find? r = some s) ∧
      ∀ r s, s ≠ 0 → T.regToLockDepths.find? r = some s ∨ O.regToLockDepths.find? r = some s →
        ∃ r', (T.mergeRegisters types O).line.regToLockDepths.find? r' = some s) ↔
    ∀ r, Skips T r → ∀ s, (T.regToLockDepths.find? r = some s → O.regToLockDepths.find? r = some s) ∧
      (s ≠ 0 → O.regToLockDepths.find? r = some s → ∃ r', T.regToLockDepths.find? r' = some s) := by
  obtain ⟨hafter, hall⟩ := find?_mergeLocks_of_ok hdepth hok
  constructor
  · rintro ⟨hboth, hheld⟩ r hr s
    refine ⟨fun hT => (hboth r s ((hafter r s).mpr ⟨hT, absurd hr⟩)).2, fun hs hO => ?_⟩
    obtain ⟨r', hr'⟩ := hheld r s hs (.inr hO)
    exact ⟨r', ((hafter r' s).mp hr').1⟩
  · intro hcond
    refine ⟨fun r s hs => ?_, fun r s hs hheld => ?_⟩
    · obtain ⟨hT, hkept⟩ := (hafter r s).mp hs
      refine ⟨hT, ?_⟩
      by_cases hr : Skips T r
      · exact (hcond r hr s).1 hT
      · exact hkept hr ▸ hT
    · obtain ⟨r', hr'⟩ : ∃ r', T.regToLockDepths.find? r' = some s := by
        rcases hheld with hT | hO
        · exact ⟨r, hT⟩
        by_cases hr : Skips T r
        · exact (hcond r hr s).2 hs hO
        by_cases hne : T.regToLockDepths.find? r = O.regToLockDepths.find? r
        · exact ⟨r, hne.trans hO⟩
        rcases (hall r hr hne).2 with hnil | hzero | ⟨j, -, hj, -⟩
        · cases hO.symm.trans hnil
        · exact absurd (Option.some.inj (hO.symm.trans hzero)) hs
        · exact ⟨j, hj.trans hO⟩
      obtain ⟨last, hlast⟩ := exists_kept hall hs hr'
      exact ⟨last, (hafter last s).mpr hlast⟩

/-- Two registers hold the only monitor. -/
def aliasedLine : RegisterLine Unit 2 := ⟨fun _ => (), [0], (Lib.OrderedMap.empty.set 0 1).set 1 1, true⟩

/-- The second of them was overwritten. -/
def overwrittenLine : RegisterLine Unit 2 := { aliasedLine with regToLockDepths := Lib.OrderedMap.empty.set 0 1 }

/-- A register loses its lock, which its alias keeps. -/
theorem mergeRegisters_keeps_locks_alias :
    (aliasedLine.mergeRegisters ⟨(), fun _ _ => ()⟩ overwrittenLine).line.regToLockDepths.find? 1 = none ∧
      ∃ r, (aliasedLine.mergeRegisters ⟨(), fun _ _ => ()⟩ overwrittenLine).line.regToLockDepths.find? r = some 1 := by
  have hskips : ∀ r, Skips aliasedLine r → ∀ s, (aliasedLine.regToLockDepths.find? r = some s →
        overwrittenLine.regToLockDepths.find? r = some s) ∧
      (s ≠ 0 → overwrittenLine.regToLockDepths.find? r = some s →
        ∃ r', aliasedLine.regToLockDepths.find? r' = some s) := by
    rintro r (hnil | hr) s
    · cases hnil
    · have hnone : aliasedLine.regToLockDepths.find? r = none ∧ overwrittenLine.regToLockDepths.find? r = none := by
        simp [aliasedLine, overwrittenLine, Lib.OrderedMap.find?_set, show r ≠ 0 by omega, show r ≠ 1 by omega]
      simp [hnone]
  have hok : (aliasedLine.mergeRegisters ⟨(), fun _ _ => ()⟩ overwrittenLine).lockingError = false := by decide
  have hdepth : aliasedLine.monitors.length = overwrittenLine.monitors.length := rfl
  have hkept := (mergeRegisters_keeps_locks_iff hdepth hok).mpr hskips
  exact ⟨by decide, hkept.2 1 1 (by decide) (.inl (by decide))⟩

/-- The only register holds the only monitor. -/
def objectLine : RegisterLine Unit 1 := ⟨fun _ => (), [0], Lib.OrderedMap.empty.set 0 1, true⟩

/-- The register was a null literal when the monitor was entered. -/
def nullLine : RegisterLine Unit 1 :=
  { objectLine with regToLockDepths := objectLine.regToLockDepths.set kVirtualNullRegister 1 }

/-- One path entered the monitor of a null literal and the other the monitor of an object. -/
theorem mergeRegisters_keeps_virtual_null :
    (nullLine.mergeRegisters ⟨(), fun _ _ => ()⟩ objectLine).lockingError = false ∧
      (nullLine.mergeRegisters ⟨(), fun _ _ => ()⟩ objectLine).line.regToLockDepths.find? kVirtualNullRegister =
      some 1 ∧
      objectLine.regToLockDepths.find? kVirtualNullRegister = none := by
  decide

end RegisterLine

end Art.Verifier
