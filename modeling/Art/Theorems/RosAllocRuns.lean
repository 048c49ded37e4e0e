import Art.Theorems.RosAllocSlots

/-! Where the runs are. A run has exactly one place: it is the local run of a thread, the current run of its bracket, a
    member of the set of runs that are not full, or full and nowhere. An operation takes a run out of its place, changes
    it and puts it into another place or frees its pages; in between the run is out. -/

namespace Art.RosAllocRuns
open Function

variable {Thread : Type}

/-- Every run but the one that is out has one place. -/
structure Placed (runs : Nat → Option Run) (loc : Thread → Nat → Option Nat) (cur : Nat → Option Nat)
    (non : Nat → Lib.OrderedSet Nat) (out : Option Nat) : Prop where
  local_run : ∀ t i r, loc t i = some r → out ≠ some r ∧
    ∃ run, runs r = some run ∧ run.sizeBracketIdx = i ∧ run.isThreadLocal = true
  local_inj : ∀ t t' i r, loc t i = some r → loc t' i = some r → t = t'
  current_run : ∀ i r, cur i = some r → out ≠ some r ∧ r ∉ (non i).keys ∧
    ∃ run, runs r = some run ∧ run.sizeBracketIdx = i ∧ run.isThreadLocal = false
  nonFull_run : ∀ i r, r ∈ (non i).keys → out ≠ some r ∧
    ∃ run, runs r = some run ∧ run.sizeBracketIdx = i ∧ run.isThreadLocal = false ∧ run.isFull = false
  placed : ∀ r run, runs r = some run → out ≠ some r →
    (run.isThreadLocal = true ∧ ∃ t, loc t run.sizeBracketIdx = some r) ∨
    (run.isThreadLocal = false ∧ (cur run.sizeBracketIdx = some r ∨ r ∈ (non run.sizeBracketIdx).keys ∨
      run.isFull = true))

namespace Placed

variable {runs : Nat → Option Run} {loc : Thread → Nat → Option Nat} {cur : Nat → Option Nat}
  {non : Nat → Lib.OrderedSet Nat} {r i : Nat} {run run' : Run} {t : Thread}

abbrev setLocal [DecidableEq Thread] (loc : Thread → Nat → Option Nat) (t : Thread) (i : Nat) (r : Option Nat) :
    Thread → Nat → Option Nat :=
  update loc t (update (loc t) i r)

theorem setLocal_eq [DecidableEq Thread] (loc : Thread → Nat → Option Nat) (t t' : Thread) (i i' : Nat)
    (r : Option Nat) :
    setLocal loc t i r t' i' = if t' = t ∧ i' = i then r else loc t' i' := by
  by_cases ht : t' = t
  · subst ht
    rw [setLocal, update_self, update_apply]
    by_cases hi : i' = i
    · rw [if_pos hi, if_pos ⟨rfl, hi⟩]
    · rw [if_neg hi, if_neg fun h => hi h.2]
  · rw [setLocal, update_of_ne ht, if_neg fun h => ht h.1]

/-! ### Taking a run out of its place -/

section

variable {out : Option Nat} (h : Placed runs loc cur non out) (hrun : runs r = some run)
include h hrun

theorem of_local (hr : loc t i = some r) : run.sizeBracketIdx = i ∧ run.isThreadLocal = true := by
  obtain ⟨-, run', hrun', hrest⟩ := h.local_run t i r hr
  cases hrun.symm.trans hrun'
  exact hrest

theorem of_current (hr : cur i = some r) : run.sizeBracketIdx = i ∧ run.isThreadLocal = false := by
  obtain ⟨-, -, run', hrun', hrest⟩ := h.current_run i r hr
  cases hrun.symm.trans hrun'
  exact hrest

theorem of_nonFull (hr : r ∈ (non i).keys) : run.sizeBracketIdx = i ∧ run.isThreadLocal = false := by
  obtain ⟨-, run', hrun', hidx, hlocal, -⟩ := h.nonFull_run i r hr
  cases hrun.symm.trans hrun'
  exact ⟨hidx, hlocal⟩

theorem not_local (hlocal : run.isThreadLocal = false) (t : Thread) (i : Nat) : loc t i ≠ some r :=
  fun hr => absurd (h.of_local hrun hr).2 (ne_true_of_eq_false hlocal)

end

theorem iff_and_ne {P : Nat → Prop} (hr : ¬P r) (q : Nat) : P q ↔ P q ∧ q ≠ r :=
  ⟨fun hq => ⟨hq, fun heq => hr (heq ▸ hq)⟩, And.left⟩

section

variable (h : Placed runs loc cur non none)
include h

/-- A run taken from its place has none. -/
theorem take_out {loc' : Thread → Nat → Option Nat} {cur' : Nat → Option Nat} {non' : Nat → Lib.OrderedSet Nat}
    (hloc : ∀ t i q, loc' t i = some q ↔ loc t i = some q ∧ q ≠ r)
    (hcur : ∀ i q, cur' i = some q ↔ cur i = some q ∧ q ≠ r)
    (hnon : ∀ i q, q ∈ (non' i).keys ↔ q ∈ (non i).keys ∧ q ≠ r) : Placed runs loc' cur' non' (some r) where
  local_run t i q hq := by
    obtain ⟨hq, hne⟩ := (hloc t i q).mp hq
    exact ⟨fun heq => hne (Option.some.inj heq).symm, (h.local_run t i q hq).2⟩
  local_inj t t' i q hq hq' := h.local_inj t t' i q ((hloc t i q).mp hq).1 ((hloc t' i q).mp hq').1
  current_run i q hq := by
    obtain ⟨hq, hne⟩ := (hcur i q).mp hq
    obtain ⟨-, hnot, hrest⟩ := h.current_run i q hq
    exact ⟨fun heq => hne (Option.some.inj heq).symm, fun hmem => hnot ((hnon i q).mp hmem).1, hrest⟩
  nonFull_run i q hq := by
    obtain ⟨hq, hne⟩ := (hnon i q).mp hq
    exact ⟨fun heq => hne (Option.some.inj heq).symm, (h.nonFull_run i q hq).2⟩
  placed q run' hq hne := by
    have hqr : q ≠ r := fun heq => hne (congrArg some heq.symm)
    refine (h.placed q run' hq nofun).imp (fun ⟨hl, t, ht⟩ => ⟨hl, t, (hloc _ _ q).mpr ⟨ht, hqr⟩⟩) fun ⟨hl, hplace⟩ =>
      ⟨hl, ?_⟩
    exact hplace.imp (fun hc => (hcur _ q).mpr ⟨hc, hqr⟩) (Or.imp_left fun hm => (hnon _ q).mpr ⟨hm, hqr⟩)

theorem detach_full (hrun : runs r = some run) (hlocal : run.isThreadLocal = false)
    (hcur : cur run.sizeBracketIdx ≠ some r) (hnon : r ∉ (non run.sizeBracketIdx).keys) :
    Placed runs loc cur non (some r) :=
  h.take_out (fun t i => iff_and_ne (h.not_local hrun hlocal t i))
    (fun _ => iff_and_ne fun hr => hcur ((h.of_current hrun hr).1 ▸ hr))
    fun _ => iff_and_ne fun hr => hnon ((h.of_nonFull hrun hr).1 ▸ hr)

theorem detach_local [DecidableEq Thread] (hr : loc t i = some r) :
    Placed runs (setLocal loc t i none) cur non (some r) := by
  obtain ⟨-, run, hrun, hidx, hlocal⟩ := h.local_run t i r hr
  refine h.take_out (fun t' i' q => ?_)
    (fun _ => iff_and_ne fun hr' => absurd hlocal (ne_true_of_eq_false (h.of_current hrun hr').2))
    fun _ => iff_and_ne fun hr' => absurd hlocal (ne_true_of_eq_false (h.of_nonFull hrun hr').2)
  rw [setLocal_eq]
  split_ifs with hcond
  · simp [hcond.1, hcond.2, hr, eq_comm]
  revert q
  refine iff_and_ne fun hq => hcond ?_
  obtain rfl := hidx.symm.trans (h.of_local hrun hq).1
  exact ⟨h.local_inj t' t i r hq hr, rfl⟩

theorem detach_current (hr : cur i = some r) : Placed runs loc (update cur i none) non (some r) := by
  obtain ⟨-, hnot, run, hrun, hidx, hlocal⟩ := h.current_run i r hr
  refine h.take_out (fun t' j => iff_and_ne (h.not_local hrun hlocal t' j)) (fun j q => ?_)
    fun _ => iff_and_ne fun hr' => hnot (hidx.symm.trans (h.of_nonFull hrun hr').1 ▸ hr')
  rw [update_apply]
  split_ifs with hcond
  · simp [hcond, hr, eq_comm]
  · revert q
    exact iff_and_ne fun hq => hcond ((h.of_current hrun hq).1.symm.trans hidx)

theorem detach_nonFull (hr : r ∈ (non i).keys) : Placed runs loc cur (update non i ((non i).erase r)) (some r) := by
  obtain ⟨-, run, hrun, hidx, hlocal, -⟩ := h.nonFull_run i r hr
  refine h.take_out (fun t' j => iff_and_ne (h.not_local hrun hlocal t' j)) (fun j => iff_and_ne fun hr' => ?_)
    fun j q => ?_
  · exact (h.current_run j r hr').2.1 (hidx.symm.trans (h.of_current hrun hr').1 ▸ hr)
  · rw [update_apply]
    split_ifs with hcond
    · rw [hcond, Lib.OrderedMap.mem_keys_erase, and_comm]
    · revert q
      exact iff_and_ne fun hq => hcond ((h.of_nonFull hrun hq).1.symm.trans hidx)

end

/-! ### The run that is out -/

section

variable (h : Placed runs loc cur non (some r))
include h

theorem out_not_placed : (∀ t i, loc t i ≠ some r) ∧ (∀ i, cur i ≠ some r) ∧ ∀ i, r ∉ (non i).keys :=
  ⟨fun t i hr => (h.local_run t i r hr).1 rfl, fun i hr => (h.current_run i r hr).1 rfl,
    fun i hr => (h.nonFull_run i r hr).1 rfl⟩

theorem update_out (o : Option Run) : Placed (update runs r o) loc cur non (some r) := by
  have hother : ∀ q, some r ≠ some q → update runs r o q = runs q :=
    fun q hq => update_of_ne (fun heq => hq (congrArg some heq.symm)) ..
  refine ⟨fun t i q hq => ?_, h.local_inj, fun i q hq => ?_, fun i q hq => ?_, fun q run hq hne => ?_⟩
  · obtain ⟨hne, hrest⟩ := h.local_run t i q hq
    exact ⟨hne, (hother q hne).symm ▸ hrest⟩
  · obtain ⟨hne, hnot, hrest⟩ := h.current_run i q hq
    exact ⟨hne, hnot, (hother q hne).symm ▸ hrest⟩
  · obtain ⟨hne, hrest⟩ := h.nonFull_run i q hq
    exact ⟨hne, (hother q hne).symm ▸ hrest⟩
  · rw [hother q hne] at hq
    exact h.placed q run hq hne

/-- A run that is out is put somewhere, or is there no more. -/
theorem of_out
    (hplaced : ∀ run, runs r = some run → run.isThreadLocal = false ∧ run.isFull = true) :
    Placed runs loc cur non none := by
  refine ⟨fun t i q hq => ⟨nofun, (h.local_run t i q hq).2⟩, h.local_inj,
    fun i q hq => ⟨nofun, (h.current_run i q hq).2⟩, fun i q hq => ⟨nofun, (h.nonFull_run i q hq).2⟩,
    fun q run hq _ => ?_⟩
  by_cases hqr : q = r
  · obtain ⟨hlocal, hfull⟩ := hplaced run (hqr ▸ hq)
    exact .inr ⟨hlocal, .inr (.inr hfull)⟩
  · exact h.placed q run hq fun heq => hqr (Option.some.inj heq).symm

theorem remove : Placed (update runs r none) loc cur non none :=
  (h.update_out none).of_out fun run hrun => by
    rw [update_self] at hrun
    cases hrun

end

theorem new (h : Placed runs loc cur non none) (hnone : runs r = none) (run : Run) :
    Placed (update runs r (some run)) loc cur non (some r) := by
  have hnot : ∀ {p : Run → Prop}, ¬∃ run, runs r = some run ∧ p run := fun ⟨run', hrun', _⟩ => by
    cases hnone.symm.trans hrun'
  have hout : Placed runs loc cur non (some r) :=
    h.take_out (fun t i => iff_and_ne fun hr => hnot (h.local_run t i r hr).2)
    (fun i => iff_and_ne fun hr => hnot (h.current_run i r hr).2.2) fun i => iff_and_ne fun hr =>
      hnot (h.nonFull_run i r hr).2
  exact hout.update_out (some run)

/-! ### Putting a run into a place -/

variable (h : Placed runs loc cur non (some r))

include h

/-- A run with no place becomes the run of a thread. -/
theorem attach_local [DecidableEq Thread] (hrun : runs r = some run) (hidx : run.sizeBracketIdx = i)
    (hlocal : run.isThreadLocal = true) (t : Thread) (hnone : loc t i = none) :
    Placed runs (setLocal loc t i (some r)) cur non none := by
  subst hidx
  obtain ⟨hnotLocal, -, -⟩ := h.out_not_placed
  refine ⟨fun t' i q hq => ⟨nofun, ?_⟩, fun t' t'' i q hq hq' => ?_, fun i q hq => ⟨nofun, (h.current_run i q hq).2⟩,
    fun i q hq => ⟨nofun, (h.nonFull_run i q hq).2⟩, fun q run' hq _ => ?_⟩
  · rw [setLocal_eq] at hq
    split_ifs at hq with hcond
    · cases hq
      exact ⟨run, hrun, hcond.2.symm, hlocal⟩
    · exact (h.local_run t' i q hq).2
  · rw [setLocal_eq] at hq hq'
    split_ifs at hq hq' with hcond hcond' hcond'
    · exact hcond.1.trans hcond'.1.symm
    · cases hq
      exact absurd hq' (hnotLocal t'' i)
    · cases hq'
      exact absurd hq (hnotLocal t' i)
    · exact h.local_inj t' t'' i q hq hq'
  · by_cases hqr : q = r
    · subst hqr
      cases hrun.symm.trans hq
      exact .inl ⟨hlocal, t, by rw [setLocal_eq, if_pos ⟨rfl, rfl⟩]⟩
    · refine (h.placed q run' hq fun heq => hqr (Option.some.inj heq).symm).imp_left fun ⟨hl, t', ht'⟩ => ⟨hl, t', ?_⟩
      rw [setLocal_eq, if_neg]
      · exact ht'
      · rintro ⟨rfl, heq⟩
        rw [heq, hnone] at ht'
        cases ht'

/-- A run with no place becomes the current run of its bracket. -/
theorem attach_current (hrun : runs r = some run) (hidx : run.sizeBracketIdx = i) (hlocal : run.isThreadLocal = false)
    (hnone : cur i = none) : Placed runs loc (update cur i (some r)) non none := by
  subst hidx
  obtain ⟨-, -, hnotNon⟩ := h.out_not_placed
  refine ⟨fun t' i q hq => ⟨nofun, (h.local_run t' i q hq).2⟩, h.local_inj, fun i q hq => ⟨nofun, ?_⟩,
    fun i q hq => ⟨nofun, (h.nonFull_run i q hq).2⟩, fun q run' hq _ => ?_⟩
  · rw [update_apply] at hq
    split_ifs at hq with hcond
    · cases hq
      exact ⟨hnotNon i, run, hrun, hcond.symm, hlocal⟩
    · exact (h.current_run i q hq).2
  · by_cases hqr : q = r
    · subst hqr
      cases hrun.symm.trans hq
      exact .inr ⟨hlocal, .inl (update_self ..)⟩
    · refine (h.placed q run' hq fun heq => hqr (Option.some.inj heq).symm).imp_right
        fun ⟨hl, hplace⟩ => ⟨hl, hplace.imp_left fun hc => ?_⟩
      rw [update_apply, if_neg]
      · exact hc
      · intro heq
        rw [heq, hnone] at hc
        cases hc

/-- A run with no place joins the non-full runs of its bracket. -/
theorem attach_nonFull (hrun : runs r = some run) (hidx : run.sizeBracketIdx = i) (hlocal : run.isThreadLocal = false)
    (hfull : run.isFull = false) : Placed runs loc cur (update non i (Lib.OrderedSet.insert (non i) r)) none := by
  subst hidx
  obtain ⟨-, hnotCur, -⟩ := h.out_not_placed
  refine ⟨fun t' i q hq => ⟨nofun, (h.local_run t' i q hq).2⟩, h.local_inj, fun i q hq => ⟨nofun, ?_⟩,
    fun i q hq => ⟨nofun, ?_⟩, fun q run' hq _ => ?_⟩
  · obtain ⟨-, hnot, hrest⟩ := h.current_run i q hq
    refine ⟨fun hmem => ?_, hrest⟩
    rw [update_apply] at hmem
    split_ifs at hmem with hcond
    · rcases Lib.OrderedSet.mem_insert.mp hmem with rfl | hmem
      · exact hnotCur i hq
      · exact hnot (hcond ▸ hmem)
    · exact hnot hmem
  · rw [update_apply] at hq
    split_ifs at hq with hcond
    · rcases Lib.OrderedSet.mem_insert.mp hq with rfl | hq
      · exact ⟨run, hrun, hcond.symm, hlocal, hfull⟩
      · exact (h.nonFull_run i q (hcond ▸ hq)).2
    · exact (h.nonFull_run i q hq).2
  · by_cases hqr : q = r
    · subst hqr
      cases hrun.symm.trans hq
      refine .inr ⟨hlocal, .inr (.inl ?_)⟩
      rw [update_self]
      exact Lib.OrderedSet.mem_insert.mpr (.inl rfl)
    · refine (h.placed q run' hq fun heq => hqr (Option.some.inj heq).symm).imp_right
        fun ⟨hl, hplace⟩ => ⟨hl, hplace.imp_right (Or.imp_left fun hm => ?_)⟩
      rw [update_apply]
      split_ifs with hcond
      · exact Lib.OrderedSet.mem_insert.mpr (.inr (hcond ▸ hm))
      · exact hm

omit h

/-! ### Changing a run where it is -/

/-- A run whose place does not depend on whether it is full, or that is as full as before. -/
theorem modify (h : Placed runs loc cur non none) (hrun : runs r = some run)
    (hidx : run'.sizeBracketIdx = run.sizeBracketIdx) (hlocal : run'.isThreadLocal = run.isThreadLocal)
    (hfull : run.isThreadLocal = true ∨ cur run.sizeBracketIdx = some r ∨ run'.isFull = run.isFull) :
    Placed (update runs r (some run')) loc cur non none := by
  have hget : ∀ q, update runs r (some run') q = if q = r then some run' else runs q := fun q => update_apply ..
  refine ⟨fun t i q hq => ⟨nofun, ?_⟩, h.local_inj, fun i q hq => ⟨nofun, ?_⟩, fun i q hq => ⟨nofun, ?_⟩,
    fun q other hq _ => ?_⟩
  · obtain ⟨-, other, hother, hi, hl⟩ := h.local_run t i q hq
    rw [hget]
    split_ifs with hqr
    · cases hrun.symm.trans (hqr ▸ hother)
      exact ⟨run', rfl, hidx.trans hi, hlocal.trans hl⟩
    · exact ⟨other, hother, hi, hl⟩
  · obtain ⟨-, hnot, other, hother, hi, hl⟩ := h.current_run i q hq
    rw [hget]
    split_ifs with hqr
    · cases hrun.symm.trans (hqr ▸ hother)
      exact ⟨hnot, run', rfl, hidx.trans hi, hlocal.trans hl⟩
    · exact ⟨hnot, other, hother, hi, hl⟩
  · obtain ⟨-, other, hother, hi, hl, hf⟩ := h.nonFull_run i q hq
    rw [hget]
    split_ifs with hqr
    · subst hqr
      cases hrun.symm.trans hother
      refine ⟨run', rfl, hidx.trans hi, hlocal.trans hl, ?_⟩
      rcases hfull with hlt | hc | heq
      · exact absurd hlt (ne_true_of_eq_false hl)
      · exact absurd (hi ▸ hq) (h.current_run _ _ hc).2.1
      · exact heq.trans hf
    · exact ⟨other, hother, hi, hl, hf⟩
  · rw [hget] at hq
    split_ifs at hq with hqr
    · cases hq
      subst hqr
      rw [hidx, hlocal]
      rcases h.placed q run hrun nofun with hl | ⟨hl, hplace⟩
      · exact .inl hl
      refine .inr ⟨hl, ?_⟩
      rcases hfull with hlt | hc | heq
      · exact absurd hlt (ne_true_of_eq_false hl)
      · exact .inl hc
      · rwa [heq]
    · exact h.placed q other hq nofun

end Placed

end Art.RosAllocRuns
