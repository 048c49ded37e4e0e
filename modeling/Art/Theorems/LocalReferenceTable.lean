import Art.Theorems.LrtRoots

/-! # Live local references stay intact

The invariant of the table along every run of operations, with a fixed CheckJNI setting and with a setting that is
switched. -/

namespace Art.Lrt
open LrtEntry LocalReferenceTable List

/-- The condition under which an operation with CheckJNI enabled finds its indexes aligned. A reference is added to
    a segment that starts with a chunk. If the top-most entry is removed and it was created with CheckJNI disabled,
    it is the first of its segment or the first of its chunk. -/
def Env.Aligned (s : Env) : Op → Prop
  | .add _ _ => s.locals.checkJni = true → s.frame.cookie % 4 = 0
  | .remove iref =>
    s.locals.checkJni = true → (s.locals.entries iref.getCheckJniSerialNumberEntry).isSerialNumber = false →
      s.locals.getReferenceEntryIndex iref + 1 = s.locals.topIndex →
      s.frame.cookie < s.locals.getReferenceEntryIndex iref → s.locals.getReferenceEntryIndex iref % 4 = 0
  | _ => True

def Op.KeepsCheckJni : Op → Prop
  | .setCheckJniEnabled _ => False
  | _ => True

/-- All entries of all segments were created with CheckJNI enabled. -/
def AllChecked : Nat → List Frame → List (List Nat) → Prop
  | top, f :: fs, free :: frees => Checked top f free ∧ AllChecked f.cookie fs frees
  | _, _, _ => True

/-! ### One operation -/

/-- What a step of the table keeps. -/
structure Stepped (s s' : Env) (op : Op) (free : List Nat) (frees : List (List Nat)) : Prop where
  consistent : ∃ stale' free' frees', Consistent s'.locals s'.frame s'.outer stale' free' frees' ∧
    (op.KeepsCheckJni → s.locals.checkJni = true → AllChecked s.locals.topIndex (s.frame :: s.outer) (free :: frees) →
      AllChecked s'.locals.topIndex (s'.frame :: s'.outer) (free' :: frees'))
  checkJni : op.KeepsCheckJni → s'.locals.checkJni = s.locals.checkJni

section

variable {s : Env} {stale free : List Nat} {frees : List (List Nat)}
  (h : Consistent s.locals s.frame s.outer stale free frees)

include h

theorem step_add (obj : Object) (allocates : Nat → Bool) (halign : s.Aligned (.add obj allocates)) :
    ∃ s', s.step (.add obj allocates) = .ok s' ∧ Stepped s s' (.add obj allocates) free frees := by
  obtain ⟨t', ref, hadd, hadded⟩ := add_spec h halign obj allocates
  obtain ⟨stale', free', hc, hck⟩ := hadded.consistent
  simp only [Env.step, hadd, ok_bind]
  cases ref with
  | some ref | none =>
    exact ⟨_, rfl, ⟨stale', free', frees, hc, fun _ hch hall => ⟨hck hch hall.1, hall.2⟩⟩, fun _ => hadded.checkJni⟩

theorem stepped_self (op : Op) : Stepped s s op free frees :=
  ⟨⟨stale, free, frees, h, fun _ _ => id⟩, fun _ => rfl⟩

/-- A reference of the current segment is removed. -/
theorem remove_current {iref : IndirectRef} {obj : Object} (hmem : (iref, obj) ∈ s.frame.refs)
    (halign : s.Aligned (.remove iref)) : ∃ t', s.locals.remove s.frame.cookie iref = .ok (t', true) ∧
      Removed s.locals t' s.frame (s.frame.removeRef iref) s.outer free frees := by
  obtain ⟨i, rfl, hi, hi', hactive, hw⟩ := (h.segment.mem_refs iref obj).mp hmem
  refine remove_spec h ⟨hi, hi', hactive, hw⟩ ?_
  rwa [Env.Aligned, h.allocated.getReferenceEntryIndex (hi'.trans_le h.top_le), getCheckJniSerialNumberEntry_entryAt,
    entries_entryAt] at halign

theorem step_remove (iref : IndirectRef) (legal : s.Legal (.remove iref)) (halign : s.Aligned (.remove iref)) :
    ∃ s', s.step (.remove iref) = .ok s' ∧ Stepped s s' (.remove iref) free frees := by
  obtain ⟨obj, hmem⟩ := legal
  rcases mem_append.mp hmem with hmem | hmem
  · obtain ⟨t', hrun, hremoved⟩ := remove_current h hmem halign
    obtain ⟨free', hc, hck⟩ := hremoved.consistent
    simp only [Env.step, hrun, ok_bind]
    exact ⟨_, rfl, ⟨[], free', frees, hc, fun _ hch hall => ⟨hck hch hall.1, hall.2⟩⟩, fun _ => hremoved.checkJni⟩
  · obtain ⟨i, rfl, hi, hactive, hw⟩ := h.outer.mem_refs.mp hmem
    obtain ⟨i', heq, hlive⟩ := h.isLive (mem_append_right _ hmem)
    obtain rfl := entryAt_injective heq
    simp only [Env.step, remove_below h.allocated h.top_le hlive hi h.segment.le, ok_bind]
    exact ⟨s, rfl, stepped_self h _⟩

theorem step_push : ∃ s', s.step .push = .ok s' ∧ Stepped s s' .push free frees := by
  refine ⟨_, rfl, ⟨stale, [], free :: frees, ?_, fun _ _ hall => ?_⟩, fun _ => rfl⟩
  rotate_left
  · exact ⟨⟨hall.1.top, hall.1.top, nofun, nofun⟩, hall⟩
  exact ⟨h.allocated, h.top_le, .empty h.segment.top_plain, h.segments, h.linked, h.popped, h.stale_nodup⟩

/-- A legal pop succeeds and keeps the invariant. -/
theorem step_pop (legal : s.Legal .pop) : ∃ s', s.step .pop = .ok s' ∧ Stepped s s' .pop free frees := by
  obtain ⟨t, f, fs⟩ := s
  cases fs with
  | nil => exact absurd rfl legal
  | cons f' fs =>
    cases frees with
    | nil => exact absurd h.outer id
    | cons free' frees =>
      refine ⟨_, rfl, ⟨stale ++ free, free', frees, ⟨h.allocated, ?_, h.outer.1, h.outer.2, ?_, fun i hi => ?_, ?_⟩,
        fun _ _ hall => hall.2⟩, fun _ => rfl⟩
      · exact h.segment.le.trans h.top_le
      · have := h.linked
        rwa [flatten_cons, ← append_assoc] at this
      · rcases mem_append.mp hi with hi | hi
        · obtain ⟨hge, hlt, hhole⟩ := h.popped i hi
          exact ⟨h.segment.le.trans hge, hlt, hhole⟩
        · obtain ⟨hge, hlt, -, hhole⟩ := (h.segment.mem_free i).mp hi
          exact ⟨hge, hlt.trans_le h.top_le, hhole⟩
      · refine h.stale_nodup.append h.segment.free_nodup fun i hi hi' => ?_
        exact (h.popped i hi).1.not_gt ((h.segment.mem_free i).mp hi').2.1

/-- Every legal step succeeds and keeps the invariant. -/
theorem step_spec (op : Op) (legal : s.Legal op) (halign : s.Aligned op) :
    ∃ s', s.step op = .ok s' ∧ Stepped s s' op free frees := by
  cases op with
  | add obj allocates => exact step_add h obj allocates halign
  | remove iref => exact step_remove h iref legal halign
  | push => exact step_push h
  | pop => exact step_pop h legal
  | setCheckJniEnabled enabled =>
    exact ⟨_, rfl, ⟨stale, free, frees, ⟨h.allocated, h.top_le, h.segment, h.outer, h.linked, h.popped, h.stale_nodup⟩,
      fun h' => h'.elim⟩, fun h' => h'.elim⟩

theorem aligned_of_allChecked (op : Op) (legal : s.Legal op)
    (hall : s.locals.checkJni = true → AllChecked s.locals.topIndex (s.frame :: s.outer) (free :: frees)) :
    s.Aligned op := by
  cases op with
  | add obj allocates => exact fun hcheck => (hall hcheck).1.cookie
  | remove iref =>
    intro hcheck hplain htop hlt
    obtain ⟨obj, hmem⟩ := legal
    obtain ⟨i, rfl, hlive⟩ := h.isLive hmem
    have hindex := h.allocated.getReferenceEntryIndex (hlive.lt_top.trans_le h.top_le)
    rw [hindex] at htop hlt
    have hserial := (hall hcheck).1.isSerialNumber h ⟨hlt.le, hlive.lt_top, hlive.active, hlive.word⟩
    rw [getCheckJniSerialNumberEntry_entryAt, entries_entryAt] at hplain
    exact absurd (hplain.symm.trans hserial) Bool.false_ne_true
  | push | pop | setCheckJniEnabled enabled => trivial

end

/-! ### Runs -/

theorem init_consistent {checkJni : Bool} {maxCount : Nat} {allocates : Nat → Bool} {t : LocalReferenceTable}
    (h : (create checkJni).initializeTable maxCount allocates = .ok (t, true)) :
    Consistent t ⟨0, []⟩ [] [] [] [] ∧ AllChecked t.topIndex [⟨0, []⟩] [[]] := by
  obtain ⟨hallocated, htop, hfirst, -⟩ := create_initializeTable h
  refine ⟨⟨hallocated, htop ▸ Nat.zero_le _, ?_, rfl, hfirst, nofun, nodup_nil⟩, ⟨?_, rfl, nofun, nofun⟩, trivial⟩
  · rw [htop]
    exact .empty fun h' => absurd rfl h'
  · rw [htop]

theorem reachable_consistent {s : Env} (h : Reachable Env.Aligned s) :
    ∃ stale free frees, Consistent s.locals s.frame s.outer stale free frees := by
  induction h with
  | init _ _ _ h => exact ⟨[], [], [], (init_consistent h).1⟩
  | step _ op legal allowed run ih =>
    obtain ⟨stale, free, frees, hc⟩ := ih
    obtain ⟨s'', hrun, hstep⟩ := step_spec hc op legal allowed
    obtain rfl := Except.ok.inj (run.symm.trans hrun)
    obtain ⟨stale', free', frees', hc', -⟩ := hstep.consistent
    exact ⟨stale', free', frees', hc'⟩

theorem reachable_allChecked {s : Env} (h : Reachable (fun _ op => op.KeepsCheckJni) s) :
    ∃ stale free frees, Consistent s.locals s.frame s.outer stale free frees ∧
      (s.locals.checkJni = true → AllChecked s.locals.topIndex (s.frame :: s.outer) (free :: frees)) := by
  induction h with
  | init _ _ _ h => exact ⟨[], [], [], (init_consistent h).1, fun _ => (init_consistent h).2⟩
  | step _ op legal allowed run ih =>
    obtain ⟨stale, free, frees, hc, hall⟩ := ih
    obtain ⟨s'', hrun, hstep⟩ := step_spec hc op legal (aligned_of_allChecked hc op legal hall)
    obtain rfl := Except.ok.inj (run.symm.trans hrun)
    obtain ⟨stale', free', frees', hc', hall'⟩ := hstep.consistent
    exact ⟨stale', free', frees', hc', fun hcheck =>
      hall' allowed (hstep.checkJni allowed ▸ hcheck) (hall (hstep.checkJni allowed ▸ hcheck))⟩

/-- The references that are live, what they yield and what the garbage collector sees. -/
structure Intact (s : Env) : Prop where
  get : ∀ iref obj, (iref, obj) ∈ s.live → s.locals.get iref = .ok obj.address
  distinct : (s.live.map Prod.fst).Nodup
  below : ∀ iref obj, (iref, obj) ∈ s.live → s.locals.getReferenceEntryIndex iref < s.frame.cookie →
    s.locals.remove s.frame.cookie iref = .ok (s.locals, false)
  below_of_ok : ∀ iref t removed, s.locals.getReferenceEntryIndex iref < s.frame.cookie →
    s.locals.remove s.frame.cookie iref = .ok (t, removed) → t = s.locals ∧ removed = false
  roots : ∃ roots, s.locals.visitRoots = .ok roots ∧ roots.Perm (s.live.map Prod.fst)

theorem remove_below_eq {t t' : LocalReferenceTable} {bottom : Nat} {iref : IndirectRef} {removed : Bool}
    (hlt : t.getReferenceEntryIndex iref < bottom) (hrun : t.remove bottom iref = .ok (t', removed)) :
    t' = t ∧ removed = false := by
  rw [remove, dcheck_bind_eq_ok, dcheck_bind_eq_ok] at hrun
  obtain ⟨-, -, hrun⟩ := hrun
  cases hvalid : t.dcheckValidReference iref with
  | error e =>
    rw [hvalid] at hrun
    cases hrun
  | ok u =>
    rw [hvalid] at hrun
    simp only [ok_bind, if_pos hlt] at hrun
    cases hrun
    exact ⟨rfl, rfl⟩

theorem Consistent.intact {s : Env} {stale free : List Nat} {frees : List (List Nat)}
    (h : Consistent s.locals s.frame s.outer stale free frees) : Intact s where
  get iref obj hmem := by
    obtain ⟨i, rfl, hlive⟩ := h.isLive hmem
    exact get_spec h.allocated h.top_le hlive
  distinct := h.segments.nodup_refs
  below iref obj hmem hlt := by
    obtain ⟨i, rfl, hlive⟩ := h.isLive hmem
    rw [h.allocated.getReferenceEntryIndex (hlive.lt_top.trans_le h.top_le)] at hlt
    exact remove_below h.allocated h.top_le hlive hlt h.segment.le
  below_of_ok iref t removed hlt hrun := remove_below_eq hlt hrun
  roots := visitRoots_spec h

/-- With a fixed CheckJNI setting no operation fails, references of the current segment can be removed, and live
    references stay intact. -/
theorem fixed_checkJni_intact {s : Env} (h : Reachable (fun _ op => op.KeepsCheckJni) s) :
    (∀ op, s.Legal op → op.KeepsCheckJni → ∃ s', s.step op = .ok s') ∧
    (∀ iref obj, (iref, obj) ∈ s.frame.refs → ∃ t, s.locals.remove s.frame.cookie iref = .ok (t, true)) ∧ Intact s := by
  obtain ⟨stale, free, frees, hc, hall⟩ := reachable_allChecked h
  refine ⟨fun op legal _ => ?_, fun iref obj hmem => ?_, hc.intact⟩
  · obtain ⟨s', hrun, -⟩ := step_spec hc op legal (aligned_of_allChecked hc op legal hall)
    exact ⟨s', hrun⟩
  · have halign := aligned_of_allChecked hc (.remove iref) ⟨obj, mem_append_left _ hmem⟩ hall
    obtain ⟨t, hrun, -⟩ := remove_current hc hmem halign
    exact ⟨t, hrun⟩

/-- Two references are added to one segment and two to the next, with CheckJNI enabled, and one of these is removed. -/
theorem fixed_checkJni_intact_three :
    ∃ s, Reachable (fun _ op => op.KeepsCheckJni) s ∧ s.live.length = 3 ∧
      (∀ op, s.Legal op → op.KeepsCheckJni → ∃ s', s.step op = .ok s') ∧
      (∃ t, s.locals.remove s.frame.cookie ⟨0, 13⟩ = .ok (t, true)) ∧ Intact s :=
  have init : Reachable (fun _ op => op.KeepsCheckJni) _ := .init true 1 (fun _ => true) rfl
  have two := (init.step (.add ⟨8, by decide, by decide⟩ fun _ => true) trivial trivial rfl).step
    (.add ⟨16, by decide, by decide⟩ fun _ => true) trivial trivial rfl
  have four := ((two.step .push trivial trivial rfl).step (.add ⟨24, by decide, by decide⟩ fun _ => true)
    trivial trivial rfl).step (.add ⟨32, by decide, by decide⟩ fun _ => true) trivial trivial rfl
  have run := four.step (.remove ⟨0, 9⟩) ⟨_, mem_cons_of_mem _ mem_cons_self⟩ trivial rfl
  have intact := fixed_checkJni_intact run
  ⟨_, run, rfl, intact.1, intact.2.1 ⟨0, 13⟩ _ mem_cons_self, intact.2.2⟩

/-- Three references are added with CheckJNI disabled. After it is enabled, removing the last of them looks for the
    chunk that ends at index 2, and without the check reads the entry with the wrapped index. A segment that was
    pushed above one reference starts in the middle of a chunk, where no reference can be added. -/
theorem switch_not_aligned :
    (∃ s, Reachable (fun _ _ => True) s ∧ s.Legal (.remove ⟨0, 2⟩) ∧
      s.step (.remove ⟨0, 2⟩) = .error (.notAligned 2) ∧
      s.locals.getEntry (subSize 2 kCheckJniEntriesPerReference) = .error (.outOfBounds (2 ^ 64 - 2))) ∧
    ∃ s, Reachable (fun _ _ => True) s ∧ ∀ obj allocates, s.step (.add obj allocates) = .error (.notAligned 1) :=
  have init : Reachable (fun _ _ => True) _ := .init false 1 (fun _ => true) rfl
  have one := init.step (.add ⟨8, by decide, by decide⟩ fun _ => true) trivial trivial rfl
  have three := (one.step (.add ⟨16, by decide, by decide⟩ fun _ => true) trivial trivial rfl).step
    (.add ⟨24, by decide, by decide⟩ fun _ => true) trivial trivial rfl
  have run := three.step (.setCheckJniEnabled true) trivial trivial rfl
  have run' := (one.step .push trivial trivial rfl).step (.setCheckJniEnabled true) trivial trivial rfl
  ⟨⟨_, run, ⟨_, mem_cons_self⟩, rfl, rfl⟩, _, run', fun _ _ => rfl⟩

/-- When the CheckJNI setting is switched, aligned operations do not fail, references of the current segment can be
    removed if that is aligned, and live references stay intact. -/
theorem aligned_intact {s : Env} (h : Reachable Env.Aligned s) :
    (∀ op, s.Legal op → s.Aligned op → ∃ s', s.step op = .ok s') ∧
    (∀ iref obj, (iref, obj) ∈ s.frame.refs → s.Aligned (.remove iref) →
      ∃ t, s.locals.remove s.frame.cookie iref = .ok (t, true)) ∧ Intact s := by
  obtain ⟨stale, free, frees, hc⟩ := reachable_consistent h
  refine ⟨fun op legal allowed => ?_, fun iref obj hmem allowed => ?_, hc.intact⟩
  · obtain ⟨s', hrun, -⟩ := step_spec hc op legal allowed
    exact ⟨s', hrun⟩
  · obtain ⟨t, hrun, -⟩ := remove_current hc hmem allowed
    exact ⟨t, hrun⟩

/-- A reference is added with CheckJNI disabled, and one with CheckJNI enabled. -/
theorem aligned_intact_two :
    ∃ s, Reachable Env.Aligned s ∧ s.live.length = 2 ∧ s.locals.checkJni = true ∧
      (∀ op, s.Legal op → s.Aligned op → ∃ s', s.step op = .ok s') ∧ Intact s :=
  have init : Reachable Env.Aligned _ := .init false 1 (fun _ => true) rfl
  have one := init.step (.add ⟨8, by decide, by decide⟩ fun _ => true) trivial (fun h => by cases h) rfl
  have run := (one.step (.setCheckJniEnabled true) trivial trivial rfl).step
    (.add ⟨16, by decide, by decide⟩ fun _ => true) trivial (fun _ => rfl) rfl
  have intact := aligned_intact run
  ⟨_, run, rfl, rfl, intact.1, intact.2.2⟩

end Art.Lrt
