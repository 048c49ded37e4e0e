import Art.Runtime.Transaction
import Art.Theorems.InternTable

/-! # Rollback restores the heap

The intern table always comes back, and a field unless a compare-and-set that is the first to log it expects
another value. An array element comes back when its conversion to
`uint64_t` and back is the identity: always for integral types, and for `float` and `double` only when
the element holds a non-negative integer below `2 ^ 64` (and not `-0.0`). -/

namespace Art.Transaction
open Lib Interns UndoLog List

variable {L : Layout}

/-! ### Values through the logs -/

theorem setWidth_signExtend {w : Nat} (x : BitVec w) (hw : w ≤ 64) : (x.signExtend 64).setWidth w = x := by
  ext i hi
  simp [BitVec.getElem_signExtend, hi, show i < 64 by omega]

theorem setWidth_setWidth_self {w : Nat} (x : BitVec w) (hw : w ≤ 64) : (x.setWidth 64).setWidth w = x := by
  ext i hi
  simp [hi, show i < 64 by omega]

theorem undo_recordWriteField (kind : FieldValueKind) (old : BitVec kind.width) (viaAccessor isVolatile : Bool) :
    let entry := recordWriteField kind old viaAccessor isVolatile
    (entry.value.setWidth entry.kind.width).setWidth kind.width = old := by
  cases kind
  case byte => exact (BitVec.setWidth_eq _).trans (setWidth_signExtend old (by decide))
  case short =>
    cases viaAccessor
    · exact (BitVec.setWidth_eq _).trans (setWidth_setWidth_self old (by decide))
    · exact (BitVec.setWidth_eq _).trans (setWidth_signExtend old (by decide))
  all_goals exact (BitVec.setWidth_eq _).trans (setWidth_setWidth_self old (by decide))

theorem width_format {type : PrimitiveType} {F : BinaryFormat} (h : type.format = some F) :
    F.exponentBits + F.mantissaBits < type.width := by
  cases type <;> cases h <;> decide

/-- An element survives the conversions exactly when it is of an integral type or a 64-bit integer. -/
theorem undo_recordWriteArray_iff (type : PrimitiveType) (old : BitVec type.width) :
    (∀ undefined, undoArrayValue type (recordWriteArray type old undefined) = old) ↔
      ∀ F, type.format = some F → F.IsUint64 old.toNat := by
  unfold undoArrayValue recordWriteArray
  rcases hformat : type.format with _ | F
  · refine iff_of_true (fun _ => ?_) fun F h => by cases h
    have hw : type.width ≤ 64 := by cases type <;> decide
    dsimp only
    split
    · exact setWidth_signExtend old hw
    · exact setWidth_setWidth_self old hw
  have hlt : ∀ n < 2 ^ 64, (BitVec.ofNat type.width (F.ofUint64 n)).toNat = F.ofUint64 n := by
    intro n hn
    have hle := Nat.pow_le_pow_right (n := 2) (by decide) (width_format hformat).le
    exact Nat.mod_eq_of_lt ((BinaryFormat.ofUint64_lt hn).trans_le hle)
  have hconv : ∀ u < 2 ^ 64, (F.toUint64 old.toNat).getD u < 2 ^ 64 := by
    intro u hu
    unfold BinaryFormat.toUint64
    split_ifs with h1 h2 h3
    · exact hu
    · exact hu
    · exact h3
    · exact hu
  have h64 : ∀ n < 2 ^ 64, (BitVec.ofNat 64 n).toNat = n := fun n hn => Nat.mod_eq_of_lt hn
  have hiff : (∀ undefined : BitVec 64, BitVec.ofNat type.width
        (F.ofUint64 (BitVec.ofNat 64 ((F.toUint64 old.toNat).getD undefined.toNat)).toNat) = old) ↔
      ∀ u < 2 ^ 64, F.ofUint64 ((F.toUint64 old.toNat).getD u) = old.toNat := by
    constructor
    · intro h u hu
      have := congrArg BitVec.toNat (h (.ofNat 64 u))
      rwa [h64 u hu, h64 _ (hconv u hu), hlt _ (hconv u hu)] at this
    · intro h u
      refine BitVec.eq_of_toNat_eq ?_
      rw [h64 _ (hconv _ u.isLt), hlt _ (hconv _ u.isLt)]
      exact h _ u.isLt
  rw [hiff, BinaryFormat.ofUint64_toUint64_iff]
  exact ⟨fun h F' hF' => by cases hF'; exact h, fun h => h F rfl⟩

/-! ### What the logs write back -/

/-- An entry that one of the setters makes for a field that holds `old`. -/
def FieldLogged (f : Nat × Nat) (old : BitVec (L.fieldKind f).width) (entry : FieldValue) : Prop :=
  ∃ viaAccessor isVolatile, entry = recordWriteField (L.fieldKind f) old viaAccessor isVolatile

def ElementLogged (undefined : Nat × Nat → BitVec 64) (e : Nat × Nat) (old : BitVec (L.elementType e.1).width)
    (entry : BitVec 64) : Prop :=
  entry = recordWriteArray (L.elementType e.1) old (undefined e)

theorem undoFieldWrite_writesOnly : WritesOnly (undoFieldWrite (L := L)) fun f entry old =>
    if skipped L f then old else (entry.value.setWidth entry.kind.width).setWidth _ where
  self object offset entry fields := by
    unfold undoFieldWrite
    split
    · rfl
    · exact Function.update_self ..
  other object offset entry fields f hf := by
    unfold undoFieldWrite
    split
    · rfl
    · exact Function.update_of_ne hf ..

theorem undoArrayWrite_writesOnly : WritesOnly (undoArrayWrite (L := L)) fun e value _ =>
    undoArrayValue (L.elementType e.1) value where
  self _ _ _ _ := Function.update_self ..
  other _ _ _ _ _ he := Function.update_of_ne he ..

theorem undo_fields {orig cur : L.Fields} {log : UndoLog Nat Nat FieldValue}
    (h : FirstWrites FieldLogged orig cur log) {f : Nat × Nat} (hf : skipped L f = false) :
    log.undo undoFieldWrite cur f = orig f := by
  obtain ⟨object, offset⟩ := f
  have hentry := h object offset
  rw [undo_apply undoFieldWrite_writesOnly]
  rcases hfind : find log object offset with _ | entry
  · rw [hfind] at hentry
    exact hentry
  rw [hfind] at hentry
  obtain ⟨viaAccessor, isVolatile, rfl⟩ := hentry
  simp only [Option.elim_some, hf, Bool.false_eq_true, if_false]
  exact undo_recordWriteField _ _ viaAccessor isVolatile

theorem undo_elements {undefined : Nat × Nat → BitVec 64} {orig cur : L.Elements} {log : UndoLog Nat Nat (BitVec 64)}
    (h : FirstWrites (ElementLogged undefined) orig cur log) (array index : Nat) :
    log.undo undoArrayWrite cur (array, index) =
      if (find log array index).isSome then
        undoArrayValue _ (recordWriteArray (L.elementType array) (orig (array, index)) (undefined (array, index)))
      else orig (array, index) := by
  have hentry := h array index
  rw [undo_apply undoArrayWrite_writesOnly]
  rcases hfind : find log array index with _ | entry
  · rw [hfind] at hentry
    exact hentry
  rw [hfind] at hentry
  replace hentry : entry = _ := hentry
  rw [hentry]
  rfl

/-- Undoing the log of an intern gives the table back. -/
theorem undo_intern {t t₁ t₂ : InternTable} {a : Action} (hc : t.Canonical) (ha : t.Admits a)
    (h₁ : t.apply a = some t₁) (h₂ : t₂.Same t₁) : ∃ t', (logOf a).undo t₂ = some t' ∧ t'.Same t := by
  obtain ⟨_, heq, hc₁⟩ := InternTable.apply_canonical hc ha
  obtain rfl := Option.some.inj (heq.symm.trans h₁)
  have hc₂ := hc₁.same h₂
  cases a with
  | insertStrong s =>
    cases h₁
    have hperm := h₂.1.trans (t.strong.strings_insert s)
    obtain ⟨strong, hremove, hperm'⟩ := Table.remove_perm hc₂.1 (hperm.mem_iff.mpr mem_cons_self)
    exact ⟨{ t₂ with strong }, by simp [InternStringLog.undo, logOf, InternTable.removeStrong, hremove],
      (hperm'.symm.trans hperm).cons_inv, h₂.2⟩
  | insertWeak s =>
    cases h₁
    have hperm := h₂.2.trans (t.weak.strings_insert s)
    obtain ⟨weak, hremove, hperm'⟩ := Table.remove_perm hc₂.2 (hperm.mem_iff.mpr mem_cons_self)
    exact ⟨{ t₂ with weak }, by simp [InternStringLog.undo, logOf, InternTable.removeWeak, hremove],
      h₂.1, (hperm'.symm.trans hperm).cons_inv⟩
  | removeWeak s =>
    obtain ⟨weak, hremove, hperm⟩ := Table.remove_perm hc.2 ha
    simp only [InternTable.apply, InternTable.removeWeak, hremove, Option.map_some, Option.some.injEq] at h₁
    subst h₁
    exact ⟨_, rfl, h₂.1, ((t₂.weak.strings_insert s).trans (h₂.2.cons s)).trans hperm.symm⟩

/-! ### Runs -/

/-- The field that an operation logs. -/
def Op.field : Op L → Option (Nat × Nat)
  | .setField object offset _ _ _ => some (object, offset)
  | .casField object offset _ _ _ => some (object, offset)
  | _ => none

/-- The value that the first of the operations on `f` logs, where the field holds `held` before. -/
def firstLogged (f : Nat × Nat) (held : BitVec (L.fieldKind f).width) : List (Op L) → BitVec (L.fieldKind f).width
  | [] => held
  | .setField object offset _ _ _ :: ops => if (object, offset) = f then held else firstLogged f held ops
  | .casField object offset expected _ _ :: ops =>
    if h : (object, offset) = f then h ▸ expected else firstLogged f held ops
  | .setElement _ _ _ :: ops | .intern _ :: ops => firstLogged f held ops

/-- An operation on another place does not matter to `f`. -/
theorem firstLogged_cons {f : Nat × Nat} {held : BitVec (L.fieldKind f).width} {op : Op L} (hop : op.field ≠ some f)
    (ops : List (Op L)) : firstLogged f held (op :: ops) = firstLogged f held ops := by
  cases op with
  | setField object offset => exact if_neg fun h => hop (congrArg some h)
  | casField object offset => exact dif_neg fun h => hop (congrArg some h)
  | setElement | intern => rfl

/-- The log has what the field held unless a compare-and-set comes first and expects something else. -/
theorem firstLogged_eq_iff {object offset : Nat} {held : BitVec (L.fieldKind (object, offset)).width}
    {ops : List (Op L)} : firstLogged (object, offset) held ops = held ↔
      ∀ pre expected value spuriously, pre ++ [.casField object offset expected value spuriously] <+: ops →
        (∀ op ∈ pre, op.field ≠ some (object, offset)) → expected = held := by
  induction ops with
  | nil => simp [firstLogged]
  | cons op ops ih =>
    by_cases hop : op.field = some (object, offset)
    · -- nothing comes before the first operation on the field
      have hnil : ∀ {pre : List (Op L)} {cas}, pre ++ [cas] <+: op :: ops →
          (∀ op ∈ pre, op.field ≠ some (object, offset)) → cas = op := by
        intro pre cas hpre hfree
        cases pre with
        | nil => exact (cons_prefix_cons.mp hpre).1
        | cons op' pre =>
          obtain ⟨rfl, -⟩ := cons_prefix_cons.mp hpre
          exact absurd hop (hfree _ mem_cons_self)
      cases op with
      | setField object' offset' =>
        cases hop
        refine iff_of_true (if_pos rfl) fun pre expected value spuriously hpre hfree => ?_
        cases hnil hpre hfree
      | casField object' offset' expected value spuriously =>
        cases hop
        rw [firstLogged, dif_pos rfl]
        constructor
        · rintro rfl pre expected' value' spuriously' hpre hfree
          cases hnil hpre hfree
          rfl
        · intro h
          exact h [] expected value spuriously (cons_prefix_cons.mpr ⟨rfl, nil_prefix⟩) fun _ hmem => by cases hmem
      | setElement | intern => cases hop
    · rw [firstLogged_cons hop, ih]
      constructor
      · intro h pre expected value spuriously hpre hfree
        cases pre with
        | nil =>
          obtain ⟨rfl, -⟩ := cons_prefix_cons.mp hpre
          exact absurd rfl hop
        | cons op' pre =>
          obtain ⟨rfl, hrest⟩ := cons_prefix_cons.mp hpre
          exact h pre expected value spuriously hrest fun x hx => hfree x (mem_cons_of_mem _ hx)
      · intro h pre expected value spuriously hpre hfree
        refine h (op :: pre) expected value spuriously (cons_prefix_cons.mpr ⟨rfl, hpre⟩) ?_
        exact forall_mem_cons.mpr ⟨hop, hfree⟩

/-- The change that an operation makes to the intern table. -/
def Op.action : Op L → Option Action
  | .intern a => some a
  | _ => none

/-- The state of a transaction that began in `h₀`, where the field logs give `first` back. -/
structure Inv (undefined : Nat × Nat → BitVec 64) (h₀ : Heap L) (first : L.Fields) (h : Heap L) (logs : Logs) :
    Prop where
  fields : FirstWrites FieldLogged first h.fields logs.objectLogs
  elements : FirstWrites (ElementLogged undefined) h₀.elements h.elements logs.arrayLogs
  canonical : h.interns.Canonical
  interns : ∀ t, t.Same h.interns →
    ∃ t₀, undoInternStringTableModifications logs.internStringLogs t = some t₀ ∧ t₀.Same h₀.interns

/-- What the field logs give back after further operations. -/
def givenBack (first : L.Fields) (logs : Logs) (ops : List (Op L)) (f : Nat × Nat) : BitVec (L.fieldKind f).width :=
  if (find logs.objectLogs f.1 f.2).isSome then first f else firstLogged f (first f) ops

variable {undefined : Nat × Nat → BitVec 64} {h₀ h : Heap L} {first : L.Fields} {logs : Logs}

theorem Inv.init (hc : h₀.interns.Canonical) : Inv undefined h₀ h₀.fields h₀ .empty :=
  ⟨.init _ _, .init _ _, hc, fun t ht => ⟨t, rfl, ht⟩⟩

variable {ops : List (Op L)}

/-- Logging `claimed` for a field does to the logs what `firstLogged` says. -/
theorem givenBack_log {op : Op L} {object offset : Nat} (logs : Logs) (entry : FieldValue)
    (hop : op.field = some (object, offset)) {claimed : BitVec (L.fieldKind (object, offset)).width}
    (hclaimed : firstLogged (object, offset) (first (object, offset)) (op :: ops) = claimed) (f : Nat × Nat) :
    givenBack first logs (op :: ops) f =
      givenBack (if (find logs.objectLogs object offset).isSome then first else
        Function.update first (object, offset) claimed)
      { logs with objectLogs := logs.objectLogs.logValue object offset entry } ops f := by
  unfold givenBack
  by_cases hf : f = (object, offset)
  · subst hf
    rw [find_logValue_self, Option.isSome_some, if_pos rfl]
    split_ifs
    · rfl
    · rw [Function.update_self]
      exact hclaimed
  · rw [find_logValue_ne _ _ hf, firstLogged_cons fun h => hf (Option.some.inj (h.symm.trans hop))]
    have hfirst : Function.update first (object, offset) claimed f = first f := Function.update_of_ne hf ..
    split_ifs <;> simp only [hfirst]

/-- A write keeps the invariant of the logs. -/
theorem Inv.step (hinv : Inv undefined h₀ first h logs) {op : Op L}
    (hop : h.interns.AdmitsAll ((op :: ops).filterMap Op.action)) :
    ∃ first' h' logs', Transaction.step undefined h logs op = some (h', logs') ∧ Inv undefined h₀ first' h' logs' ∧
      h'.interns.AdmitsAll (ops.filterMap Op.action) ∧
      (∀ f, givenBack first logs (op :: ops) f = givenBack first' logs' ops f) ∧
      ∀ array index, (find logs'.arrayLogs array index).isSome ↔
        (find logs.arrayLogs array index).isSome ∨ ∃ value, op = .setElement array index value := by
  cases op with
  | setField object offset value viaAccessor isVolatile =>
    have hfields := hinv.fields.write value ⟨viaAccessor, isVolatile, rfl⟩
    refine ⟨first, _, _, rfl, { hinv with fields := hfields }, hop, fun f => ?_, fun array index => by simp⟩
    have hheld : firstLogged (object, offset) (first (object, offset))
      (.setField object offset value viaAccessor isVolatile :: ops) = first (object, offset) := if_pos rfl
    have hback := fun entry => givenBack_log logs entry rfl hheld f
    rw [Function.update_eq_self, ite_self] at hback
    exact hback _
  | casField object offset expected value spuriously =>
    have hfields := fun v => hinv.fields.claim expected v ⟨false, true, rfl⟩
    exact ⟨_, _, _, rfl, { hinv with fields := hfields _ }, hop, givenBack_log logs _ rfl (dif_pos rfl),
      fun array index => by simp⟩
  | setElement array index value =>
    refine ⟨first, _, _, rfl, { hinv with elements := hinv.elements.write value rfl }, hop, fun _ => rfl,
      fun array' index' => ?_⟩
    by_cases hk : (array', index') = (array, index)
    · obtain ⟨rfl, rfl⟩ := Prod.mk.inj hk
      simp only [find_logValue_self, Option.isSome_some, true_iff]
      exact .inr ⟨value, rfl⟩
    simp only [find_logValue_ne _ _ hk, iff_self_or]
    rintro ⟨value', heq⟩
    cases heq
    exact absurd rfl hk
  | intern a =>
    obtain ⟨ha, hrest⟩ := hop
    obtain ⟨t₁, happly, hc₁⟩ := InternTable.apply_canonical hinv.canonical ha
    refine ⟨first, { h with interns := t₁ }, { logs with internStringLogs := logOf a :: logs.internStringLogs },
      by simp [Transaction.step, happly], ⟨hinv.fields, hinv.elements, hc₁, fun t ht => ?_⟩, hrest t₁ happly,
      fun _ => rfl, fun array index => by simp⟩
    obtain ⟨t', hundo, hsame⟩ := undo_intern hinv.canonical ha happly ht
    obtain ⟨t₀, hundo₀, hsame₀⟩ := hinv.interns t' hsame
    exact ⟨t₀, by simp [undoInternStringTableModifications, hundo, hundo₀], hsame₀⟩

/-- So does a run of writes. -/
theorem Inv.run (hinv : Inv undefined h₀ first h logs) (hops : h.interns.AdmitsAll (ops.filterMap Op.action)) :
    ∃ h' logs', Transaction.run undefined h logs ops = some (h', logs') ∧
      Inv undefined h₀ (givenBack first logs ops) h' logs' ∧
      ∀ array index, (find logs'.arrayLogs array index).isSome ↔
        (find logs.arrayLogs array index).isSome ∨ ∃ value, .setElement array index value ∈ ops := by
  induction ops generalizing first h logs with
  | nil =>
    have hfirst : givenBack first logs [] = first := funext fun f => ite_self _
    exact ⟨h, logs, rfl, by rwa [hfirst], fun array index => by simp⟩
  | cons op ops ih =>
    obtain ⟨first₁, h₁, logs₁, hstep, hinv₁, hops₁, hfirst, hlogged₁⟩ := hinv.step hops
    obtain ⟨h₂, logs₂, hrun, hinv₂, hlogged₂⟩ := ih hinv₁ hops₁
    refine ⟨h₂, logs₂, by simp [Transaction.run, hstep, hrun], funext hfirst ▸ hinv₂, fun array index => ?_⟩
    rw [hlogged₂, hlogged₁, or_assoc]
    refine or_congr_right ?_
    simp only [mem_cons, exists_or, eq_comm]

/-- The state that the transaction began with, but for the class and length fields. -/
structure Restored (h₀ h : Heap L) : Prop where
  fields : ∀ f, skipped L f = false → h.fields f = h₀.fields f
  elements : ∀ e, h.elements e = h₀.elements e
  interns : h.interns.Same h₀.interns

/-- What a rollback gives: each field as it was first logged, each written element after its conversions, and everything
    else as it was. -/
theorem rollback_run (undefined : Nat × Nat → BitVec 64) (hc : h₀.interns.Canonical)
    (hops : h₀.interns.AdmitsAll (ops.filterMap Op.action)) :
    ∃ h logs h', run undefined h₀ .empty ops = some (h, logs) ∧ rollback h logs = some h' ∧
      (∀ f, skipped L f = false → h'.fields f = firstLogged f (h₀.fields f) ops) ∧ h'.interns.Same h₀.interns ∧
      (∀ array index value, .setElement array index value ∈ ops → h'.elements (array, index) = undoArrayValue _
        (recordWriteArray (L.elementType array) (h₀.elements (array, index)) (undefined (array, index)))) ∧
      ∀ array index, (∀ value, .setElement array index value ∉ ops) →
        h'.elements (array, index) = h₀.elements (array, index) := by
  obtain ⟨h, logs, hrun, hinv, hlogged⟩ := (Inv.init hc).run hops
  obtain ⟨t₀, hundo, hsame⟩ := hinv.interns h.interns (.refl _)
  have hwritten : ∀ array index, (find logs.arrayLogs array index).isSome ↔
      ∃ value, .setElement array index value ∈ ops := fun array index => by
    exact (hlogged array index).trans (or_iff_right Bool.false_ne_true)
  refine ⟨h, logs, _, hrun, by rw [rollback, hundo]; rfl, fun f hf => undo_fields hinv.fields hf, hsame, ?_, ?_⟩
  · intro array index value hmem
    exact (undo_elements hinv.elements array index).trans (if_pos ((hwritten array index).mpr ⟨value, hmem⟩))
  · intro array index hnone
    refine (undo_elements hinv.elements array index).trans (if_neg fun h => ?_)
    obtain ⟨value, hmem⟩ := (hwritten array index).mp h
    exact hnone value hmem

/-- Rollback of any run restores the heap, whatever undefined conversions yield, exactly when every compare-and-set that
    is the first operation on its field expects what the field held, and every written `float` or `double` element held
    a non-negative integer below `2 ^ 64`. -/
theorem rollback_restored_iff (h₀ : Heap L) (hc : h₀.interns.Canonical) (ops : List (Op L))
    (hops : h₀.interns.AdmitsAll (ops.filterMap Op.action)) :
    (∀ undefined, ∃ h logs h', run undefined h₀ .empty ops = some (h, logs) ∧ rollback h logs = some h' ∧
      Restored h₀ h') ↔
    (∀ object offset, skipped L (object, offset) = false → ∀ pre expected value spuriously,
      pre ++ [.casField object offset expected value spuriously] <+: ops →
        (∀ op ∈ pre, op.field ≠ some (object, offset)) → expected = h₀.fields (object, offset)) ∧
    ∀ array index value, .setElement array index value ∈ ops →
      ∀ F, (L.elementType array).format = some F → F.IsUint64 (h₀.elements (array, index)).toNat := by
  constructor
  · intro hall
    have hrestored : ∀ undefined : Nat × Nat → BitVec 64, ∃ h', Restored h₀ h' ∧
        (∀ f, skipped L f = false → h'.fields f = firstLogged f (h₀.fields f) ops) ∧
        ∀ array index value, .setElement array index value ∈ ops → h'.elements (array, index) = undoArrayValue _
          (recordWriteArray (L.elementType array) (h₀.elements (array, index)) (undefined (array, index))) := by
      intro undefined
      obtain ⟨h, logs, h', hrun, hrb, hrest⟩ := hall undefined
      obtain ⟨_, _, _, hrun₁, hrb₁, hfields, -, helements, -⟩ := rollback_run undefined hc hops
      obtain ⟨rfl, rfl⟩ := Prod.mk.inj (Option.some.inj (hrun.symm.trans hrun₁))
      obtain rfl := Option.some.inj (hrb.symm.trans hrb₁)
      exact ⟨_, hrest, hfields, helements⟩
    refine ⟨fun object offset hf => ?_, fun array index value hmem => ?_⟩
    · obtain ⟨h', hrest, hfields, -⟩ := hrestored fun _ => 0
      exact firstLogged_eq_iff.mp ((hfields _ hf).symm.trans (hrest.fields _ hf))
    · rw [← undo_recordWriteArray_iff]
      intro u
      obtain ⟨h', hrest, -, helements⟩ := hrestored fun _ => u
      exact (helements array index value hmem).symm.trans (hrest.elements (array, index))
  · intro ⟨hcas, hfloat⟩ undefined
    obtain ⟨h, logs, h', hrun, hrb, hfields, hsame, helements, hothers⟩ := rollback_run undefined hc hops
    refine ⟨h, logs, h', hrun, hrb, fun (object, offset) hf => ?_, fun (array, index) => ?_, hsame⟩
    · exact (hfields _ hf).trans (firstLogged_eq_iff.mpr (hcas object offset hf))
    by_cases hwritten : ∃ value, .setElement array index value ∈ ops
    · obtain ⟨value, hmem⟩ := hwritten
      rw [helements array index value hmem]
      exact (undo_recordWriteArray_iff _ _).mpr (hfloat array index value hmem) _
    · exact hothers array index fun value hmem => hwritten ⟨value, hmem⟩

/-- A field is given the value that a failed compare-and-set expected. -/
example : ((run (fun _ => 0) (L := ⟨fun _ => false, fun _ => .bits32, fun _ => .int⟩)
    ⟨fun _ => 5, fun _ => 0, ⟨⟨[], []⟩, ⟨[], []⟩⟩⟩ .empty
      [.casField 1 12 7 9 false, .setField 1 12 1 false false]).bind fun (h, logs) =>
    rollback h logs).map (fun h => h.fields (1, 12)) = some 7 := by
  decide

/-- A heap of `float` arrays that all hold `value`, with empty intern tables. -/
def floatHeap (value : BitVec 32) : Heap ⟨fun _ => true, fun _ => .bits32, fun _ => .float⟩ :=
  ⟨fun _ => 0, fun _ => value, ⟨⟨[], []⟩, ⟨[], []⟩⟩⟩

/-- An element that holds `3.0f` comes back after two writes to it and an interned string, and so does a field that a
    compare-and-set fails to write after a setter. -/
theorem rollback_restored_iff_three : ∃ h logs h',
    run (fun _ => 0) (floatHeap 0x40400000) .empty
      [.setElement 1 0 0x3f000000, .intern (.insertStrong ⟨0, [97]⟩), .setElement 1 0 0, .setField 2 16 4 false false,
        .casField 2 16 7 9 false] = some (h, logs) ∧
    rollback h logs = some h' ∧ Restored (floatHeap 0x40400000) h' := by
  have hc : (floatHeap 0x40400000).interns.Canonical := ⟨nodup_nil, nodup_nil⟩
  have hops : (floatHeap 0x40400000).interns.AdmitsAll [.insertStrong ⟨0, [97]⟩] := ⟨not_mem_nil, fun _ _ => trivial⟩
  refine (rollback_restored_iff (floatHeap 0x40400000) hc [.setElement 1 0 0x3f000000,
    .intern (.insertStrong ⟨0, [97]⟩), .setElement 1 0 0, .setField 2 16 4 false false, .casField 2 16 7 9 false]
    hops).mpr ⟨?_, ?_⟩ _
  · intro object offset _
    refine firstLogged_eq_iff.mp ?_
    simp only [firstLogged]
    split_ifs <;> rfl
  · intro array index value _ F hF
    cases hF
    change BinaryFormat.IsUint64 _ 0x40400000
    decide

/-- An element that holds `0.5f` comes back as `0.0f`. -/
theorem rollback_truncates_float :
    (((run (fun _ => 0) (floatHeap 0x3f000000) .empty [.setElement 1 0 0x40000000]).bind fun (h, logs) =>
      rollback h logs).map fun h => h.elements (1, 0)) = some 0 := by
  decide

end Art.Transaction
