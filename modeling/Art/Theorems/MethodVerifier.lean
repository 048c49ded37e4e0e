import Art.Runtime.MethodVerifier
import Art.Theorems.RegType
import Art.Theorems.RegisterLine

/-! The dataflow of the method verifier. When no instruction is marked as changed any more, merging the lines that
    a visited instruction passes on changes nothing, if every merge on the way reported what it changed and
    kept what had been merged before. -/

namespace Art.Verifier
open List Function

open RegisterLine (TypesChange DropsLock LocksMatch Keeps Settled mergeType)

variable {τ : Type} {numRegs : Nat} [DecidableEq τ] {m : Method τ numRegs} {s s' s'' : FlowState τ numRegs}
  {i j q insn guess : Nat} {L O l : RegisterLine τ numRegs} {out : Outcome τ numRegs}
  {updates : List (Nat × RegisterLine τ numRegs)}

/-- `IsVisitedOrChanged` -/
abbrev FlowState.touched (s : FlowState τ numRegs) (q : Nat) : Bool := s.visited q || s.changed q

/-! ### Conditions on the merges of a run -/

/-- A call of `UpdateRegisters` that reports its changes and keeps what was merged before: a merge drops locks only
    together with a reported change, has no locking error, and keeps the types that the line has absorbed;
    a line that is adjusted for a return has no register that a conflict does not absorb. What this is for the
    types of the verifier is said by `regTypes_keeps_iff` and `regTypes_conflict_iff`. -/
def Method.Settles (m : Method τ numRegs) (s : FlowState τ numRegs) (q : Nat) (O : RegisterLine τ numRegs) : Prop :=
  if s.touched q then
    (TypesChange m.types (s.regTable q) O ∨ ¬DropsLock (s.regTable q) O) ∧ LocksMatch (s.regTable q) O ∧
      ∀ idx, Keeps m.types ((s.regTable q).line idx) (O.line idx)
  else
    ∀ inst, m.returnInst q = some inst → ∀ idx : Fin numRegs, inst.keeps idx = false →
      mergeType m.types m.types.conflict (O.line idx) = m.types.conflict

/-- The same for all lines for branch targets and handlers. -/
def Method.UpdatesSettle (m : Method τ numRegs) : List (Nat × RegisterLine τ numRegs) → FlowState τ numRegs → Prop
  | [], _ => True
  | (q, O) :: rest, s =>
    m.Settles s q O ∧ ∀ s' l, m.updateRegisters s q O false = some (s', l) → m.UpdatesSettle rest s'

def Method.InstructionSettles (m : Method τ numRegs) (s : FlowState τ numRegs) (insn : Nat) : Prop :=
  ∀ out, m.verifyInstruction insn (m.lineAt s insn) = some out → m.UpdatesSettle out.updates s ∧
    ∀ s' j O, m.updateAll out.updates s = some s' → out.next = some j → m.adjustReturnLine j out.workLine = some O →
      m.isRecorded j = true → m.Settles s' j O

/-- The same for a whole run. -/
def Method.RunSettles (m : Method τ numRegs) : Nat → FlowState τ numRegs → Prop
  | 0, _ => True
  | fuel + 1, s => ∀ insn guess, m.select s = some (insn, guess) →
    m.InstructionSettles { s with startGuess := guess } insn ∧
      ∀ s', m.codeFlowVerifyInstruction { s with startGuess := guess } insn = some s' → m.RunSettles fuel s'

/-! ### Updates -/

/-- What updates do to the table and the flags. -/
structure Extends (types : RegTypes τ) (s s' : FlowState τ numRegs) : Prop where
  visited : s'.visited = s.visited
  changed : ∀ q, s.changed q = true → s'.changed q = true
  /-- A line that is not marked is as before. -/
  reported : ∀ q, s'.changed q = false → s'.regTable q = s.regTable q
  settled : ∀ q O, s.touched q = true → Settled types (s.regTable q) O → Settled types (s'.regTable q) O

namespace Extends

variable {types : RegTypes τ}

theorem refl (s : FlowState τ numRegs) : Extends types s s := ⟨rfl, fun _ h => h, fun _ _ => rfl, fun _ _ _ h => h⟩

theorem touched (h : Extends types s s') (ht : s.touched q = true) : s'.touched q = true := by
  rw [FlowState.touched, Bool.or_eq_true] at ht ⊢
  rw [h.visited]
  exact ht.imp_right (h.changed q)

theorem trans (h : Extends types s s') (h' : Extends types s' s'') : Extends types s s'' where
  visited := h'.visited.trans h.visited
  changed q hq := h'.changed q (h.changed q hq)
  reported q hq := by
    have hq' : s'.changed q = false := by
      rw [← Bool.not_eq_true] at hq ⊢
      exact fun h => hq (h'.changed q h)
    rw [h'.reported q hq, h.reported q hq']
  settled _ _ ht hs := h'.settled _ _ (h.touched ht) (h.settled _ _ ht hs)

end Extends

theorem settled_adjustReturnLine (h : m.adjustReturnLine q O = some L)
    (hret : ∀ inst, m.returnInst q = some inst → ∀ idx : Fin numRegs, inst.keeps idx = false →
      mergeType m.types m.types.conflict (O.line idx) = m.types.conflict) : Settled m.types L O := by
  rw [Method.adjustReturnLine] at h
  split at h
  · cases h
    exact .refl _
  next inst hinst =>
  split_ifs at h
  cases h
  refine ⟨fun idx => ?_, fun _ _ _ _ => .inr rfl, id⟩
  simp only [RegisterLine.markAllRegistersAsConflictsExcept]
  split_ifs with hkeep
  · exact RegisterLine.mergeType_self _
  · exact hret inst hinst idx (by simpa using hkeep)

omit [DecidableEq τ] in
theorem adjustReturnLine_idem (h : m.adjustReturnLine q O = some L) : m.adjustReturnLine q L = some L := by
  unfold Method.adjustReturnLine at h ⊢
  split at h
  · rfl
  next inst hinst =>
  split_ifs at h with hfail
  cases h
  have hidem : (O.markAllRegistersAsConflictsExcept m.types inst.keeps).markAllRegistersAsConflictsExcept
        m.types inst.keeps =
      O.markAllRegistersAsConflictsExcept m.types inst.keeps := by
    refine RegisterLine.ext (funext fun idx => ?_) rfl rfl rfl
    simp only [RegisterLine.markAllRegistersAsConflictsExcept]
    split_ifs <;> rfl
  rw [hidem]
  exact if_neg hfail

/-- The branches of `UpdateRegisters`: the first line of a target, or a merge. -/
theorem updateRegisters_cases {b : Bool} (h : m.updateRegisters s q O b = some (s', l)) :
    (s.touched q = false ∧ ∃ line, m.adjustReturnLine q O = some line ∧ l = O ∧
      s' = { s with regTable := update s.regTable q line, changed := update s.changed q true }) ∨
    (s.touched q = true ∧ l = (if ((s.regTable q).mergeRegisters m.types O).changed && b then
        ((s.regTable q).mergeRegisters m.types O).line else O) ∧
      s' = { s with regTable := update s.regTable q ((s.regTable q).mergeRegisters m.types O).line
                    changed := update s.changed q
                      (((s.regTable q).mergeRegisters m.types O).changed || s.changed q) }) := by
  unfold Method.updateRegisters at h
  split at h
  · next ht =>
    obtain ⟨line, hline, hret⟩ := Option.bind_eq_some_iff.mp h
    cases hret
    exact .inl ⟨by simpa using ht, line, hline, rfl, rfl⟩
  next ht =>
  have ht' : s.touched q = true := by rwa [Bool.not_eq_true', Bool.not_eq_false] at ht
  dsimp only at h
  cases hc : ((s.regTable q).mergeRegisters m.types O).changed with
  | true =>
    rw [hc, if_pos rfl] at h
    cases h
    exact .inr ⟨ht', by rw [Bool.true_and], rfl⟩
  | false =>
    rw [hc, if_neg Bool.false_ne_true] at h
    cases h
    exact .inr ⟨ht', rfl, by rw [Bool.false_or, update_eq_self]⟩

/-- After an update the line of the target has the incoming one merged. -/
theorem updateRegisters_spec {b : Bool} (h : m.updateRegisters s q O b = some (s', l)) (hs : m.Settles s q O) :
    Extends m.types s s' ∧ s'.workLine = s.workLine ∧ s'.startGuess = s.startGuess ∧
      (∀ i, i ≠ q → s'.regTable i = s.regTable i ∧ s'.changed i = s.changed i) ∧
      s'.touched q = true ∧ Settled m.types (s'.regTable q) O := by
  rw [Method.Settles] at hs
  rcases updateRegisters_cases h with ⟨ht, line, hline, -, rfl⟩ | ⟨ht, -, rfl⟩
  · rw [if_neg (by simp [ht])] at hs
    have hsettled := settled_adjustReturnLine hline hs
    refine ⟨⟨rfl, fun i hi => ?_, fun i hi => ?_, fun i P hi hP => ?_⟩, rfl, rfl, fun i hi => ?_, by simp,
      by simpa using hsettled⟩
    · by_cases heq : i = q
      · simp [heq]
      · simpa [heq] using hi
    · by_cases heq : i = q
      · simp [heq] at hi
      · simp [heq]
    · by_cases heq : i = q
      · subst heq
        rw [ht] at hi
        cases hi
      · simpa [heq] using hP
    · simp [hi]
  · rw [if_pos ht] at hs
    obtain ⟨hreport, hmatch, hkeep⟩ := hs
    have hsettled := RegisterLine.settled_mergeRegisters hmatch hkeep
    refine ⟨⟨rfl, fun i hi => ?_, fun i hi => ?_, fun i P hi hP => ?_⟩, rfl, rfl, fun i hi => ?_, ?_,
      by simpa using hsettled⟩
    · by_cases heq : i = q
      · subst heq
        simp [hi]
      · simpa [heq] using hi
    · by_cases heq : i = q
      · subst heq
        simp only [update_self, Bool.or_eq_false_iff] at hi ⊢
        exact RegisterLine.reports_iff.mpr hreport hi.1
      · simp [heq]
    · by_cases heq : i = q
      · subst heq
        simpa using hP.after hkeep
      · simpa [heq] using hP
    · simp [hi]
    · simp only [FlowState.touched, update_self, Bool.or_eq_true] at ht ⊢
      exact ht.imp_right .inr

theorem updateRegisters_same {b : Bool} (h : m.updateRegisters s q (s.regTable q) b = some (s', l))
    (ht : s.touched q = true) : s'.regTable q = s.regTable q := by
  rcases updateRegisters_cases h with ⟨ht', -⟩ | ⟨-, -, rfl⟩
  · rw [ht] at ht'
    cases ht'
  · simpa using (Settled.refl (s.regTable q)).mergeRegisters.1

/-- After all updates, every target has its line merged, and nothing else changed. -/
theorem updateAll_spec (h : m.updateAll updates s = some s') (hs : m.UpdatesSettle updates s) :
    Extends m.types s s' ∧ s'.workLine = s.workLine ∧ s'.startGuess = s.startGuess ∧
      (∀ i, (∀ P, (i, P) ∉ updates) → s'.regTable i = s.regTable i ∧ s'.changed i = s.changed i) ∧
      (∀ i P, (i, P) ∈ updates → s'.touched i = true ∧ Settled m.types (s'.regTable i) P) ∧
      ∀ i, s.touched i = true → (∀ P, (i, P) ∈ updates → P = s.regTable i) → s'.regTable i = s.regTable i := by
  induction updates generalizing s with
  | nil =>
    cases h
    exact ⟨.refl _, rfl, rfl, fun _ _ => ⟨rfl, rfl⟩, fun _ _ hmem => (nomatch hmem), fun _ _ _ => rfl⟩
  | cons first rest ih =>
    obtain ⟨q, O⟩ := first
    obtain ⟨⟨t, l⟩, ht, hrest⟩ := Option.bind_eq_some_iff.mp h
    obtain ⟨hext, hwork, hguess, hframe, htouch, hsettled⟩ := updateRegisters_spec ht hs.1
    obtain ⟨hext', hwork', hguess', hframe', hall, hself⟩ := ih hrest (hs.2 t l ht)
    refine ⟨hext.trans hext', hwork'.trans hwork, hguess'.trans hguess, fun i hi => ?_, fun i P hmem => ?_,
      fun i hi hP => ?_⟩
    · have hne : i ≠ q := by
        rintro rfl
        exact hi O mem_cons_self
      obtain ⟨h1, h2⟩ := hframe i hne
      obtain ⟨h3, h4⟩ := hframe' i fun P hmem => hi P (mem_cons_of_mem _ hmem)
      exact ⟨h3.trans h1, h4.trans h2⟩
    · rcases mem_cons.mp hmem with heq | hmem
      · cases heq
        exact ⟨hext'.touched htouch, hext'.settled _ _ htouch hsettled⟩
      · exact hall i P hmem
    · have hstep : t.regTable i = s.regTable i := by
        by_cases heq : i = q
        · subst heq
          rw [hP O mem_cons_self] at ht
          exact updateRegisters_same ht hi
        · exact (hframe i heq).1
      rw [← hstep]
      refine hself i (hext.touched hi) fun P hmem => ?_
      rw [hP P (mem_cons_of_mem _ hmem), hstep]

/-! ### Chains of instructions -/

/-- The line waits to be carried on to an instruction that has none of its own. -/
def FlowState.Pending (s : FlowState τ numRegs) (j : Nat) (O : RegisterLine τ numRegs) : Prop :=
  s.changed j = true ∧ s.startGuess = j ∧ s.workLine = O

/-- The lines for branch targets and handlers have been merged. -/
def UpdatesDone (types : RegTypes τ) (s : FlowState τ numRegs) (updates : List (Nat × RegisterLine τ numRegs)) : Prop :=
  ∀ q O, (q, O) ∈ updates → s.touched q = true ∧ Settled types (s.regTable q) O

/-- Everything that `insn` passes on from this line has been merged, and so has what follows it up to the next
    instruction with a line of its own. -/
inductive Chain (m : Method τ numRegs) (s : FlowState τ numRegs) : Nat → RegisterLine τ numRegs → Prop
  | last {insn L out : _} (hv : m.verifyInstruction insn L = some out) (hu : UpdatesDone m.types s out.updates)
      (hn : out.next = none) : Chain m s insn L
  | recorded {insn j L O out : _} (hv : m.verifyInstruction insn L = some out) (hu : UpdatesDone m.types s out.updates)
      (hn : out.next = some j) (ha : m.adjustReturnLine j out.workLine = some O) (hr : m.isRecorded j = true)
      (ht : s.touched j = true) (hs : Settled m.types (s.regTable j) O) : Chain m s insn L
  | pending {insn j L O out : _} (hv : m.verifyInstruction insn L = some out) (hu : UpdatesDone m.types s out.updates)
      (hn : out.next = some j) (ha : m.adjustReturnLine j out.workLine = some O) (hr : m.isRecorded j = false)
      (hp : s.Pending j O) : Chain m s insn L
  | carried {insn j L O out : _} (hv : m.verifyInstruction insn L = some out) (hu : UpdatesDone m.types s out.updates)
      (hn : out.next = some j) (ha : m.adjustReturnLine j out.workLine = some O) (hr : m.isRecorded j = false)
      (hc : Chain m s j O) : Chain m s insn L

/-- What was merged stays merged, and what was pending has been carried on. -/
theorem Chain.mono (h : Chain m s insn L) (htouch : ∀ q, s.touched q = true → s'.touched q = true)
    (hsettled : ∀ q O, s.touched q = true → Settled m.types (s.regTable q) O → Settled m.types (s'.regTable q) O)
    (hpending : ∀ j O, m.isRecorded j = false → s.Pending j O → Chain m s' j O) : Chain m s' insn L := by
  have hdone : ∀ {updates}, UpdatesDone m.types s updates → UpdatesDone m.types s' updates := fun hu q O hmem =>
    ⟨htouch q (hu q O hmem).1, hsettled q O (hu q O hmem).1 (hu q O hmem).2⟩
  induction h with
  | last hv hu hn => exact .last hv (hdone hu) hn
  | recorded hv hu hn ha hr ht hs => exact .recorded hv (hdone hu) hn ha hr (htouch _ ht) (hsettled _ _ ht hs)
  | pending hv hu hn ha hr hp => exact .carried hv (hdone hu) hn ha hr (hpending _ _ hr hp)
  | carried hv hu hn ha hr _ ih => exact .carried hv (hdone hu) hn ha hr ih

/-- The invariant of the work list: a line not marked has been merged into its successors. -/
structure FlowInv (m : Method τ numRegs) (s : FlowState τ numRegs) : Prop where
  changed_lt : ∀ i, s.changed i = true → i < m.insnsSize
  /-- A marked instruction that is no branch target is the next one, and the work line is its line. -/
  stray : ∀ i, s.changed i = true → m.isBranchTarget i = false →
    i = s.startGuess ∧ (m.isRecorded i = true → s.workLine = s.regTable i)
  chain : ∀ i, m.isRecorded i = true → s.visited i = true → s.changed i = false → Chain m s i (s.regTable i)

theorem start_inv (table : Nat → RegisterLine τ numRegs) : FlowInv m (Method.start table) where
  changed_lt i hi := by
    rw [show i = 0 by simpa [Method.start] using hi]
    exact m.insnsSize_pos
  stray i hi hb := by
    rw [show i = 0 by simpa [Method.start] using hi, m.isBranchTarget_zero] at hb
    cases hb
  chain i _ hv := nomatch hv

/-- The instruction that is verified next is marked; it is the stray one, if there is one. -/
theorem select_spec (hinv : FlowInv m s) (h : m.select s = some (insn, guess)) :
    s.changed insn = true ∧ ∀ i, s.changed i = true → m.isBranchTarget i = false → i = insn := by
  constructor
  · rw [Method.select] at h
    split at h
    · next i hi =>
      cases h
      exact find?_some hi
    · obtain ⟨i, hi, heq⟩ := Option.map_eq_some_iff.mp h
      cases heq
      exact find?_some hi
  · intro i hi hb
    obtain ⟨rfl, -⟩ := hinv.stray i hi hb
    have hlt := hinv.changed_lt _ hi
    obtain ⟨n, hn⟩ : ∃ n, m.insnsSize - s.startGuess = n + 1 := ⟨m.insnsSize - s.startGuess - 1, by omega⟩
    have hfind : m.findChanged s s.startGuess = some s.startGuess := by
      rw [Method.findChanged, hn, range'_succ, find?_cons_of_pos hi]
    rw [Method.select, hfind] at h
    cases h
    rfl

theorem select_none (hinv : FlowInv m s) (h : m.select s = none) (i : Nat) : s.changed i = false := by
  rw [← Bool.not_eq_true]
  intro hi
  have hlt := hinv.changed_lt i hi
  rw [Method.select] at h
  split at h
  · cases h
  · rw [Option.map_eq_none_iff, Method.findChanged, find?_eq_none] at h
    exact h i (mem_range'_1.mpr ⟨Nat.zero_le i, by omega⟩) hi

/-- The parts of the verification of an instruction. -/
theorem codeFlowVerifyInstruction_cases (h : m.codeFlowVerifyInstruction s insn = some s') :
    ∃ out t, m.verifyInstruction insn (m.lineAt s insn) = some out ∧ m.updateAll out.updates s = some t ∧
      ∃ t', ((out.next = none ∧ t' = { t with workLine := out.workLine }) ∨
        ∃ j, out.next = some j ∧ m.updateNext t j out.workLine = some t') ∧
      s' = { t' with startGuess := out.startGuess.getD t'.startGuess
                     visited := update t'.visited insn true
                     changed := update t'.changed insn false } := by
  obtain ⟨out, hout, h⟩ := Option.bind_eq_some_iff.mp h
  obtain ⟨t, ht, h⟩ := Option.bind_eq_some_iff.mp h
  obtain ⟨t', ht', h⟩ := Option.bind_eq_some_iff.mp h
  cases h
  refine ⟨out, t, hout, ht, t', ?_, rfl⟩
  cases hn : out.next with
  | none =>
    rw [hn] at ht'
    cases ht'
    exact .inl ⟨rfl, rfl⟩
  | some j =>
    rw [hn] at ht'
    exact .inr ⟨j, rfl, ht'⟩

/-- The branches at the next instruction: recorded, or not. -/
theorem updateNext_cases (h : m.updateNext s j L = some s') :
    ∃ O, m.adjustReturnLine j L = some O ∧
      ((m.isRecorded j = true ∧ ∃ t l, m.updateRegisters s j O true = some (t, l) ∧ s' = { t with workLine := l }) ∨
        (m.isRecorded j = false ∧ s' = { s with changed := update s.changed j true, workLine := O })) := by
  obtain ⟨O, hO, h⟩ := Option.bind_eq_some_iff.mp h
  refine ⟨O, hO, ?_⟩
  cases hr : m.isRecorded j with
  | true =>
    rw [if_pos hr] at h
    obtain ⟨⟨t, l⟩, ht, h⟩ := Option.bind_eq_some_iff.mp h
    cases h
    exact .inl ⟨rfl, t, l, ht, rfl⟩
  | false =>
    rw [if_neg (by simp [hr])] at h
    cases h
    exact .inr ⟨rfl, rfl⟩

theorem Extends.withWorkLine {types : RegTypes τ} (h : Extends types s s') (l : RegisterLine τ numRegs) :
    Extends types s { s' with workLine := l } :=
  ⟨h.visited, h.changed, h.reported, h.settled⟩

/-- What happens at the next instruction: its own line takes the line that is passed on, or the line is carried on. -/
def Passed (m : Method τ numRegs) (s : FlowState τ numRegs) (j : Nat) (O : RegisterLine τ numRegs) : Prop :=
  (m.isRecorded j = true ∧ s.touched j = true ∧ Settled m.types (s.regTable j) O ∧
    (m.isBranchTarget j = false → s.changed j = true → s.workLine = s.regTable j)) ∨
  (m.isRecorded j = false ∧ s.changed j = true ∧ s.workLine = O)

/-- The line is passed on to the next instruction. -/
theorem updateNext_spec (h : m.updateNext s j L = some s')
    (hs : ∀ O, m.adjustReturnLine j L = some O → m.isRecorded j = true → m.Settles s j O)
    (hfresh : m.isBranchTarget j = false → s.changed j = false) :
    Extends m.types s s' ∧ (∀ i, i ≠ j → s'.regTable i = s.regTable i ∧ s'.changed i = s.changed i) ∧
      ∃ O, m.adjustReturnLine j L = some O ∧ Passed m s' j O := by
  obtain ⟨O, hO, ⟨hr, t, l, ht, rfl⟩ | ⟨hr, rfl⟩⟩ := updateNext_cases h
  · obtain ⟨hext, -, -, hframe, htouch, hsettled⟩ := updateRegisters_spec ht (hs O hO hr)
    refine ⟨hext.withWorkLine l, hframe, O, hO, .inl ⟨hr, htouch, hsettled, fun hb hc => ?_⟩⟩
    rcases updateRegisters_cases ht with ⟨-, line, hline, rfl, rfl⟩ | ⟨-, rfl, rfl⟩
    · rw [adjustReturnLine_idem hO] at hline
      cases hline
      simp
    · simp only [update_self, hfresh hb, Bool.or_false] at hc ⊢
      rw [hc, Bool.and_self, if_pos rfl]
  · refine ⟨⟨rfl, fun i hi => ?_, fun _ _ => rfl, fun _ _ _ h => h⟩, fun i hi => by simp [hi], O, hO,
      .inr ⟨hr, by simp, rfl⟩⟩
    by_cases heq : i = j
    · simp [heq]
    · simpa [heq] using hi

/-- What verifying an instruction does before its flags are set. -/
structure Verified (m : Method τ numRegs) (s s' : FlowState τ numRegs) (insn : Nat) (out : Outcome τ numRegs) :
    Prop where
  ext : Extends m.types s s'
  updates : UpdatesDone m.types s' out.updates
  fresh : ∀ i, s'.changed i = true →
    s.changed i = true ∨ (i < m.insnsSize ∧ m.isBranchTarget i = true) ∨ out.next = some i
  table : m.lineAt s insn = s.regTable insn → s'.regTable insn = s.regTable insn
  next : ∀ j, out.next = some j → ∃ O, m.adjustReturnLine j out.workLine = some O ∧ Passed m s' j O

/-- The line of the instruction is passed on to all of its successors. -/
theorem codeFlowVerifyInstruction_spec (h : m.codeFlowVerifyInstruction s insn = some s')
    (hset : m.InstructionSettles s insn) (hchanged : s.changed insn = true)
    (hstray : ∀ i, s.changed i = true → m.isBranchTarget i = false → i = insn) :
    ∃ out t, m.verifyInstruction insn (m.lineAt s insn) = some out ∧ Verified m s t insn out ∧
      s' = { t with startGuess := out.startGuess.getD t.startGuess
                    visited := update t.visited insn true
                    changed := update t.changed insn false } := by
  obtain ⟨out, t, hout, ht, t', hnext, rfl⟩ := codeFlowVerifyInstruction_cases h
  obtain ⟨hu, hn⟩ := hset out hout
  obtain ⟨hext, -, -, hframe, hall, hself⟩ := updateAll_spec ht hu
  have hfresh : ∀ i, t.changed i = true → s.changed i = true ∨ (i < m.insnsSize ∧ m.isBranchTarget i = true) :=
    fun i hi => by
    by_cases hmem : ∃ P, (i, P) ∈ out.updates
    · obtain ⟨P, hP⟩ := hmem
      exact .inr (m.isBranchTarget_update hout hP)
    · rw [not_exists] at hmem
      exact .inl ((hframe i hmem).2 ▸ hi)
  have htable : m.lineAt s insn = s.regTable insn → t.regTable insn = s.regTable insn := fun hline =>
    hself insn (by simp [hchanged]) fun P hP => (m.update_self hout hP).trans hline
  refine ⟨out, t', hout, ?_, rfl⟩
  rcases hnext with ⟨hnone, rfl⟩ | ⟨j, hj, hnext⟩
  · exact ⟨hext.withWorkLine _, hall, fun i hi => (hfresh i hi).imp_right .inl, htable,
      fun j hj => by rw [hnone] at hj; cases hj⟩
  obtain ⟨hlt, -, -⟩ := m.next_spec hout hj
  have hold : m.isBranchTarget j = false → t.changed j = false := fun hb => by
    rw [← Bool.not_eq_true]
    intro hc
    rcases hfresh j hc with hs | ⟨-, hb'⟩
    · exact absurd (hstray j hs hb) (by omega)
    · rw [hb] at hb'
      cases hb'
  obtain ⟨hext', hframe', hpassed⟩ := updateNext_spec hnext (fun O hO hr => hn t j O ht hj hO hr) hold
  refine ⟨hext.trans hext', fun q P hmem => ?_, fun i hi => ?_, fun hline => ?_, fun k hk => ?_⟩
  · obtain ⟨htouch, hsettled⟩ := hall q P hmem
    exact ⟨hext'.touched htouch, hext'.settled _ _ htouch hsettled⟩
  · by_cases heq : i = j
    · exact .inr (.inr (heq ▸ hj))
    · exact (hfresh i ((hframe' i heq).2 ▸ hi)).imp_right .inl
  · rw [(hframe' insn (by omega)).1, htable hline]
  · rw [hj] at hk
    cases hk
    exact hpassed

/-- A step of the work list keeps the invariant. -/
theorem FlowInv.step (hinv : FlowInv m s) (hsel : m.select s = some (insn, guess))
    (hset : m.InstructionSettles { s with startGuess := guess } insn)
    (h : m.codeFlowVerifyInstruction { s with startGuess := guess } insn = some s') : FlowInv m s' := by
  obtain ⟨hchanged, hstray⟩ := select_spec hinv hsel
  obtain ⟨out, t, hout, hver, rfl⟩ := codeFlowVerifyInstruction_spec h hset hchanged hstray
  have hline : m.isRecorded insn = true → m.lineAt { s with startGuess := guess } insn = s.regTable insn := fun hr => by
    rw [Method.lineAt]
    split_ifs with hb
    · rfl
    · exact (hinv.stray insn hchanged (by simpa using hb)).2 hr
  set f : FlowState τ numRegs :=
    { t with startGuess := out.startGuess.getD t.startGuess, visited := update t.visited insn true
             changed := update t.changed insn false } with hf
  have htouch : ∀ q, t.touched q = true → f.touched q = true := fun q hq => by
    by_cases heq : q = insn
    · simp [hf, heq]
    · simpa [hf, heq] using hq
  have hmarked : ∀ i, f.changed i = true → i ≠ insn ∧ t.changed i = true := fun i hi => by
    by_cases heq : i = insn
    · simp [hf, heq] at hi
    · exact ⟨heq, by simpa [hf, heq] using hi⟩
  have hdone : UpdatesDone m.types f out.updates := fun q P hmem =>
    ⟨htouch q (hver.updates q P hmem).1, (hver.updates q P hmem).2⟩
  have hchain : Chain m f insn (m.lineAt { s with startGuess := guess } insn) := by
    cases hn : out.next with
    | none => exact .last hout hdone hn
    | some j =>
      obtain ⟨hlt, -, hguess⟩ := m.next_spec hout hn
      obtain ⟨O, hO, ⟨hr, htj, hsettled, -⟩ | ⟨hr, hc, hw⟩⟩ := hver.next j hn
      · exact .recorded hout hdone hn hO hr (htouch j htj) hsettled
      · exact .pending hout hdone hn hO hr ⟨by simpa [hf, hlt.ne'] using hc, by simp [hf, hguess], hw⟩
  refine ⟨fun i hi => ?_, fun i hi hb => ?_, fun i hr hv hc => ?_⟩
  · rcases hver.fresh i (hmarked i hi).2 with hs | ⟨hlt, -⟩ | hn
    · exact hinv.changed_lt i hs
    · exact hlt
    · exact (m.next_spec hout hn).2.1
  · obtain ⟨hne, hi⟩ := hmarked i hi
    rcases hver.fresh i hi with hs | ⟨-, hb'⟩ | hn
    · exact absurd (hstray i hs hb) hne
    · rw [hb] at hb'
      cases hb'
    · refine ⟨by simp [hf, (m.next_spec hout hn).2.2], fun hr => ?_⟩
      obtain ⟨O, -, ⟨-, -, -, hw⟩ | ⟨hr', -⟩⟩ := hver.next i hn
      · exact hw hb hi
      · rw [hr] at hr'
        cases hr'
  · by_cases heq : i = insn
    · subst heq
      have hsame : f.regTable i = s.regTable i := hver.table (hline hr)
      rw [hsame, ← hline hr]
      exact hchain
    · have hc' : t.changed i = false := by simpa [hf, heq] using hc
      have hsame : f.regTable i = s.regTable i := hver.ext.reported i hc'
      have hvs : s.visited i = true := by simpa [hf, heq, hver.ext.visited] using hv
      have hcs : s.changed i = false := by
        rw [← Bool.not_eq_true] at hc' ⊢
        exact fun h => hc' (hver.ext.changed i h)
      rw [hsame]
      refine (hinv.chain i hr hvs hcs).mono (fun q hq => htouch q (hver.ext.touched hq)) hver.ext.settled ?_
      -- The pending line is the one that was verified.
      rintro j O hrj ⟨hcj, -, rfl⟩
      have hbj : m.isBranchTarget j = false := by
        rw [Method.isRecorded, Bool.or_eq_false_iff] at hrj
        exact hrj.2
      obtain rfl := hstray j hcj hbj
      simpa [Method.lineAt, hbj] using hchain

/-! ### The end of the dataflow -/

/-- The lines that visited instructions start with, as far as the table tells. -/
inductive Flows (m : Method τ numRegs) (s : FlowState τ numRegs) : Nat → RegisterLine τ numRegs → Prop
  | recorded {insn : Nat} (hr : m.isRecorded insn = true) (hv : s.visited insn = true) :
    Flows m s insn (s.regTable insn)
  | next {insn j : Nat} {L O : RegisterLine τ numRegs} {out : Outcome τ numRegs} (h : Flows m s insn L)
      (hv : m.verifyInstruction insn L = some out) (hn : out.next = some j)
      (ha : m.adjustReturnLine j out.workLine = some O) (hr : m.isRecorded j = false) : Flows m s j O

/-- Merging `O` into `T` changes and reports nothing. -/
def Unchanged (types : RegTypes τ) (T O : RegisterLine τ numRegs) : Prop :=
  (T.mergeRegisters types O).line = T ∧ (T.mergeRegisters types O).changed = false

/-- Merging the lines that any instruction passes on into the lines of its successors changes nothing. -/
def Fixpoint (m : Method τ numRegs) (s : FlowState τ numRegs) : Prop :=
  ∀ insn L, Flows m s insn L → ∃ out, m.verifyInstruction insn L = some out ∧
    (∀ q O, (q, O) ∈ out.updates → Unchanged m.types (s.regTable q) O) ∧
    ∀ j, out.next = some j → ∃ O, m.adjustReturnLine j out.workLine = some O ∧
      (m.isRecorded j = true → Unchanged m.types (s.regTable j) O)

/-- When nothing is marked, every line that flows to an instruction is merged there. -/
theorem FlowInv.flows (hinv : FlowInv m s) (hstop : ∀ i, s.changed i = false) (h : Flows m s insn L) :
    Chain m s insn L := by
  induction h with
  | recorded hr hv => exact hinv.chain _ hr hv (hstop _)
  | next _ hv hn ha hr ih =>
    cases ih with
    | last hv' hu hn' =>
      cases hv.symm.trans hv'
      rw [hn] at hn'
      cases hn'
    | recorded hv' hu hn' ha' hr' =>
      cases hv.symm.trans hv'
      cases hn.symm.trans hn'
      rw [hr] at hr'
      cases hr'
    | @pending _ j _ O _ hv' hu hn' ha' hr' hp =>
      rw [FlowState.Pending, hstop] at hp
      cases hp.1
    | carried hv' hu hn' ha' hr' hc =>
      cases hv.symm.trans hv'
      cases hn.symm.trans hn'
      cases ha.symm.trans ha'
      exact hc

/-- When nothing is marked, the lines are a fixpoint. -/
theorem FlowInv.fixpoint (hinv : FlowInv m s) (hstop : ∀ i, s.changed i = false) : Fixpoint m s := by
  intro insn L h
  have hdone : ∀ {updates}, UpdatesDone m.types s updates →
      ∀ q O, (q, O) ∈ updates → Unchanged m.types (s.regTable q) O := fun hu q O hmem => (hu q O hmem).2.mergeRegisters
  cases hinv.flows hstop h with
  | last hv hu hn => exact ⟨_, hv, hdone hu, fun j hj => by rw [hn] at hj; cases hj⟩
  | recorded hv hu hn ha hr ht hs =>
    refine ⟨_, hv, hdone hu, fun j hj => ?_⟩
    cases hn.symm.trans hj
    exact ⟨_, ha, fun _ => hs.mergeRegisters⟩
  | pending hv hu hn ha hr hp =>
    rw [FlowState.Pending, hstop] at hp
    cases hp.1
  | carried hv hu hn ha hr hc =>
    refine ⟨_, hv, hdone hu, fun j hj => ?_⟩
    cases hn.symm.trans hj
    exact ⟨_, ha, fun hr' => by rw [hr] at hr'; cases hr'⟩

theorem FlowInv.codeFlowVerifyMethod {fuel : Nat} (hinv : FlowInv m s) (hset : m.RunSettles fuel s)
    (h : m.codeFlowVerifyMethod fuel s = some s') : Fixpoint m s' := by
  induction fuel generalizing s with
  | zero => cases h
  | succ fuel ih =>
    unfold Method.codeFlowVerifyMethod at h
    split at h
    · next hsel =>
      cases h
      exact hinv.fixpoint (select_none hinv hsel)
    next insn guess hsel =>
    obtain ⟨t, ht, h⟩ := Option.bind_eq_some_iff.mp h
    obtain ⟨hinstr, hrest⟩ := hset insn guess hsel
    exact ih (hinv.step hsel hinstr ht) (hrest t ht) h

/-! ### The types of the verifier -/

section RegType

variable {κ : Type} [DecidableEq κ] (classes : ClassTable κ) (a b : { a : RegType κ // a.WF })

def regTypes : RegTypes { a : RegType κ // a.WF } where
  conflict := ⟨.conflict, fun _ h => nomatch h⟩
  merge a b := ⟨RegType.safeMerge classes a.1 b.1, (RegType.safeMerge_absorbs classes a.2 b.2).1.wf a.2⟩

theorem mergeType_val : (mergeType (regTypes classes) a b).1 = RegType.safeMerge classes a.1 b.1 := by
  rw [mergeType]
  split_ifs with hne
  · rfl
  · rw [not_not.mp hne, RegType.safeMerge, if_pos rfl]

theorem mergeType_eq_left_iff : mergeType (regTypes classes) a b = a ↔ RegType.Absorbs classes a.1 b.1 := by
  rw [Subtype.ext_iff, mergeType_val, RegType.safeMerge_eq_left_iff a.2 b.2]

/-- A register keeps what it has absorbed, unless a constant loses the values that are not negative. -/
theorem regTypes_keeps_iff : Keeps (regTypes classes) a b ↔ ¬RegType.LosesNonNegative a.1 b.1 := by
  have hagain : mergeType (regTypes classes) (mergeType (regTypes classes) a b) b =
      mergeType (regTypes classes) a b := by
    rw [mergeType_eq_left_iff, mergeType_val]
    exact (RegType.safeMerge_absorbs classes a.2 b.2).2
  rw [← RegType.safeMerge_absorbs_iff classes a.2 b.2, Keeps, and_iff_right hagain]
  simp only [mergeType_eq_left_iff, mergeType_val, Subtype.forall]

/-- A conflict absorbs every type but the undefined one. -/
theorem regTypes_conflict_iff :
    mergeType (regTypes classes) (regTypes classes).conflict a = (regTypes classes).conflict ↔ a.1 ≠ .undefined := by
  rw [mergeType_eq_left_iff]
  refine ⟨fun h heq => ?_, .conflict⟩
  rw [heq] at h
  cases h.eq_undefined

end RegType

/-- A merge changes a line without reporting it if and only if it drops locks and changes nothing else. The lines of a
    method are a fixpoint when the dataflow stops, if no merge on the way did that and all merges kept what had
    been merged before. -/
theorem mergeRegisters_reports (τ : Type) [DecidableEq τ] (numRegs : Nat) :
    (∀ (types : RegTypes τ) (T O : RegisterLine τ numRegs),
      ((T.mergeRegisters types O).changed = false → (T.mergeRegisters types O).line = T) ↔
        TypesChange types T O ∨ ¬DropsLock T O) ∧
    (∀ (m : Method τ numRegs) (table : Nat → RegisterLine τ numRegs) (fuel : Nat) (s : FlowState τ numRegs),
      m.codeFlowVerifyMethod fuel (Method.start table) = some s → m.RunSettles fuel (Method.start table) →
      Fixpoint m s) ∧
    ∀ (κ : Type) [DecidableEq κ] (classes : ClassTable κ) (a b : { a : RegType κ // a.WF }),
      (Keeps (regTypes classes) a b ↔ ¬RegType.LosesNonNegative a.1 b.1) ∧
      (mergeType (regTypes classes) (regTypes classes).conflict a = (regTypes classes).conflict ↔ a.1 ≠ .undefined) :=
  ⟨fun _ _ _ => RegisterLine.reports_iff, fun _ table _ _ h hset => (start_inv table).codeFlowVerifyMethod hset h,
    fun _ _ classes a b => ⟨regTypes_keeps_iff classes a b, regTypes_conflict_iff classes a⟩⟩

/-! ### Samples -/

/-- Two registers with the same object, which is locked once. -/
def sampleLine (locks : LockDepths) : RegisterLine { a : RegType (Fin 4) // a.WF } 2 where
  line _ := ⟨.reference (.named ⟨2, by decide⟩), by rintro _ ⟨⟩; rfl⟩
  monitors := [0]
  regToLockDepths := locks
  thisInitialized := true

def sampleLocks : LockDepths := (Lib.OrderedMap.empty.set 0 1).set 1 1

/-- The incoming line knows the lock by one register only. The other one is dropped without a report. -/
theorem mergeRegisters_not_reported :
    ((sampleLine sampleLocks).mergeRegisters (regTypes RegType.sampleClasses)
      (sampleLine (sampleLocks.erase 0))).changed =
      false ∧
    ((sampleLine sampleLocks).mergeRegisters (regTypes RegType.sampleClasses) (sampleLine (sampleLocks.erase 0))).line ≠
      sampleLine sampleLocks := by
  refine ⟨by decide, fun h => ?_⟩
  have hlocks := congrArg RegisterLine.regToLockDepths h
  revert hlocks
  decide

/-- An endless loop of two instructions that do nothing. -/
def sampleMethod : Method { a : RegType (Fin 4) // a.WF } 2 where
  types := regTypes RegType.sampleClasses
  insnsSize := 2
  isBranchTarget insn := insn == 0
  interestingDexPc := none
  returnInst _ := none
  isInstanceConstructor := false
  verifyInstruction insn line :=
    if insn = 0 then some ⟨[], line, some 1, some 1⟩
    else if insn = 1 then some ⟨[(0, line)], line, none, some 0⟩
    else none
  insnsSize_pos := by decide
  isBranchTarget_zero := rfl
  isBranchTarget_update h hmem := by
    split_ifs at h
    · cases h
      cases hmem
    · cases h
      cases mem_singleton.mp hmem
      decide
  update_self h hmem := by
    split_ifs at h with h0 h1
    · cases h
      cases hmem
    · cases h
      cases mem_singleton.mp hmem
      rfl
  next_spec h hn := by
    split_ifs at h with h0 h1
    · cases h
      cases hn
      exact ⟨h0 ▸ Nat.zero_lt_one, by decide, rfl⟩
    · cases h
      cases hn

theorem settles_same (h : s.touched q = true) (hO : O = s.regTable q) : m.Settles s q O := by
  rw [Method.Settles, if_pos h, hO]
  refine ⟨.inr ?_, fun _ _ j _ hne => absurd rfl hne, fun idx => ⟨?_, fun t ht => ?_⟩⟩
  · rintro ⟨-, -, idx, -, -, hne, -⟩
    exact hne rfl
  · rw [RegisterLine.mergeType_self, RegisterLine.mergeType_self]
  · rw [RegisterLine.mergeType_self, ht]

theorem sampleMethod_settles : sampleMethod.RunSettles 3 (Method.start fun _ => sampleLine sampleLocks) := by
  rintro insn guess ⟨⟩
  refine ⟨?_, ?_⟩
  · rintro out ⟨⟩
    refine ⟨trivial, ?_⟩
    rintro s' j O - ⟨⟩ - ⟨⟩
  · rintro s' ⟨⟩ insn guess ⟨⟩
    refine ⟨?_, ?_⟩
    · rintro out ⟨⟩
      exact ⟨⟨settles_same rfl rfl, fun _ _ _ => trivial⟩, fun s' j O _ hn => nomatch hn⟩
    · rintro s' ⟨⟩ insn guess hsel
      cases hsel

/-- The loop stops after both instructions have been verified once, with the same line for both. -/
theorem mergeRegisters_reports_sample :
    ∃ s, sampleMethod.codeFlowVerifyMethod 3 (Method.start fun _ => sampleLine sampleLocks) = some s ∧
      Fixpoint sampleMethod s := by
  exact ⟨_, rfl, (mergeRegisters_reports _ 2).2.1 sampleMethod
    (fun _ => sampleLine sampleLocks) 3 _ rfl sampleMethod_settles⟩

end Art.Verifier
