import Art.Theorems.RosAllocRuns

/-! # Runs of slots

In every state that the operations on runs lead to, a slot is live or on one of the three lists of its run, the lists
count their slots, a run has one place, and the pages that were freed were those of runs with all slots on the
free list. -/

namespace Art.RosAllocRuns
open List Function

variable {Thread : Type}

abbrev Live := Nat → Nat → Prop

/-- The slots of the runs, with those of the runs that a bulk free has still to look at. -/
structure Slots (cfg : Config) (runs : Nat → Option Run) (freed : List Run) (bulk : List Nat) (live : Live) :
    Prop where
  ok : ∀ r run, runs r = some run → run.Ok cfg (live r)
  none : ∀ r, runs r = none → ∀ slot, ¬ live r slot
  freed : ∀ run ∈ freed, run.AllOnFreeList cfg
  nodup : bulk.Nodup
  pending : ∀ r, r ∈ bulk ↔ ∃ run, runs r = some run ∧ run.bulkFreeList.size ≠ 0

namespace Slots

variable {cfg : Config} {runs : Nat → Option Run} {freed : List Run} {bulk : List Nat} {live : Live} {r : Nat}
  {run run' : Run}

section

variable (h : Slots cfg runs freed bulk live)
include h

/-- A change of one run keeps the slots right when the run is. -/
theorem update {p : Nat → Prop} {bulk' : List Nat} (hok : run'.Ok cfg p) (hnodup : bulk'.Nodup)
    (hother : ∀ q, q ≠ r → (q ∈ bulk' ↔ q ∈ bulk)) (hbulk : r ∈ bulk' ↔ run'.bulkFreeList.size ≠ 0) :
    Slots cfg (update runs r (some run')) freed bulk' (update live r p) := by
  refine ⟨fun q other hq => ?_, fun q hq slot => ?_, h.freed, hnodup, fun q => ?_⟩
  · by_cases hqr : q = r
    · subst hqr
      rw [update_self] at hq ⊢
      cases hq
      exact hok
    · rw [update_of_ne hqr] at hq ⊢
      exact h.ok q other hq
  · by_cases hqr : q = r
    · subst hqr
      rw [update_self] at hq
      cases hq
    · rw [update_of_ne hqr] at hq ⊢
      exact h.none q hq slot
  · by_cases hqr : q = r
    · simp [hqr, hbulk]
    · rw [update_of_ne hqr, hother q hqr]
      exact h.pending q

theorem mem_bulk (hrun : runs r = some run) : r ∈ bulk ↔ run.bulkFreeList.size ≠ 0 := by
  simp [h.pending r, hrun]

theorem setRun (hrun : runs r = some run) {p : Nat → Prop} (hok : run'.Ok cfg p)
    (hbulk : run'.bulkFreeList = run.bulkFreeList) :
    Slots cfg (Function.update runs r (some run')) freed bulk (Function.update live r p) :=
  h.update hok h.nodup (fun _ _ => Iff.rfl) (hbulk ▸ h.mem_bulk hrun)

theorem setRun_same (hrun : runs r = some run) (hok : run'.Ok cfg (live r))
    (hbulk : run'.bulkFreeList = run.bulkFreeList) :
    Slots cfg (Function.update runs r (some run')) freed bulk live := by
  have hset := h.setRun hrun hok hbulk
  rwa [update_eq_self] at hset

/-- Freeing the pages of a run with all slots free. -/
theorem freePages (hrun : runs r = some run) (hall : run.isAllFree cfg = true) :
    Slots cfg (Function.update runs r Option.none) (run :: freed) bulk live := by
  obtain ⟨hfree, hlive, hempty⟩ := (h.ok r run hrun).isAllFree hall
  refine ⟨fun q other hq => ?_, fun q hq slot => ?_, fun other hother => ?_, h.nodup, fun q => ?_⟩
  · by_cases hqr : q = r
    · rw [hqr, update_self] at hq
      cases hq
    · rw [update_of_ne hqr] at hq
      exact h.ok q other hq
  · by_cases hqr : q = r
    · exact hqr ▸ hlive slot
    · rw [update_of_ne hqr] at hq
      exact h.none q hq slot
  · rcases mem_cons.mp hother with rfl | hother
    · exact hfree
    · exact h.freed other hother
  · by_cases hqr : q = r
    · simp [hqr, h.mem_bulk hrun, hempty]
    · rw [update_of_ne hqr]
      exact h.pending q

theorem run_of_live {slot : Nat} (hlive : live r slot) : ∃ run, runs r = some run := by
  cases hrun : runs r with
  | none => exact absurd hlive (h.none r hrun slot)
  | some run => exact ⟨run, rfl⟩

end

end Slots

/-- Every slot is live or on one free list, and every run is where its flags say. -/
structure Inv (cfg : Config) (s : State Thread) (live : Live) : Prop where
  slots : Slots cfg s.runs s.freed s.bulkFreeRuns live
  placed : Placed s.runs s.rosAllocRun s.currentRuns s.nonFullRuns none

def granted (live : Live) : Option (Nat × Nat) → Live
  | none => live
  | some (r, slot) => update live r fun c => live r c ∨ c = slot

def released (live : Live) (r slot : Nat) : Live := update live r fun c => live r c ∧ c ≠ slot

/-- A slot that the allocation returns was not live, and is one of its run. -/
def FreshSlot (cfg : Config) (live : Live) (s : State Thread) (slotAddr : Option (Nat × Nat)) : Prop :=
  ∀ r slot, slotAddr = some (r, slot) → ¬ live r slot ∧
    ∃ run, s.runs r = some run ∧ 0 < slot ∧ slot ≤ cfg.numOfSlots run.sizeBracketIdx

namespace State

variable {cfg : Config} {s s' : State Thread} {live : Live} {r i idx slot : Nat} {run : Run}
  {loc : Thread → Nat → Option Nat} {cur : Nat → Option Nat} {pages : Option Nat}

/-- What an allocation returns, and the state after it. -/
structure Allocates (cfg : Config) (live : Live) (result : Option (Nat × Nat) × State Thread) : Prop where
  inv : Inv cfg result.2 (granted live result.1)
  fresh : FreshSlot cfg live result.2 result.1

theorem allocSlotFrom_some (h : Inv cfg s live) (hrun : s.runs r = some run) (hfull : run.isFull = false)
    (hplace : run.isThreadLocal = true ∨ s.currentRuns run.sizeBracketIdx = some r) :
    ∃ slot s', s.allocSlotFrom (some r) = (some slot, s') ∧ Allocates cfg live (some slot, s') := by
  rcases (h.slots.ok r run hrun).allocSlot with ⟨hfull', -⟩ |
    ⟨-, slot, run', halloc, hpos, hle, hnot, hidx, hlocal, hbulk, hok⟩
  · exact absurd hfull' (ne_true_of_eq_false hfull)
  have heq : s.allocSlotFrom (some r) = (some (r, slot), s.setRun r run') := by
    simp only [allocSlotFrom, hrun, halloc, if_neg (Nat.pos_iff_ne_zero.mp hpos)]
  refine ⟨(r, slot), _, heq, ⟨h.slots.setRun hrun hok hbulk, h.placed.modify hrun hidx hlocal (hplace.imp_right .inl)⟩,
    fun q c hq => ?_⟩
  cases hq
  exact ⟨hnot, run', update_self .., hpos, hidx ▸ hle⟩

theorem allocSlotFrom_inv (h : Inv cfg s live) (hrun : s.runs r = some run) (hfull : run.isFull = false)
    (hplace : run.isThreadLocal = true ∨ s.currentRuns run.sizeBracketIdx = some r) :
    Allocates cfg live (s.allocSlotFrom (some r)) := by
  obtain ⟨slot, s', halloc, hinv⟩ := allocSlotFrom_some h hrun hfull hplace
  rwa [halloc]

variable (hslots : Slots cfg s.runs s.freed s.bulkFreeRuns live)

include hslots in
theorem allocSlotFrom_full (hrun : s.runs r = some run) (hfull : run.isFull = true) :
    s.allocSlotFrom (some r) = (none, s) := by
  rcases (hslots.ok r run hrun).allocSlot with ⟨-, halloc⟩ | ⟨hfull', -⟩
  · have hsame : s.setRun r run = s := by
      rw [setRun, ← hrun, update_eq_self]
    simp only [allocSlotFrom, hrun, halloc, if_true, hsame]
  · exact absurd hfull (ne_true_of_eq_false hfull')

/-- The pages that `AllocPages` returns are not those of a run. -/
def FreshPages (s : State Thread) (pages : Option Nat) : Prop := ∀ r, pages = some r → s.runs r = none

theorem FreshPages.setRun (h : s.FreshPages pages) (hrun : s.runs r = some run) (run' : Run) :
    (s.setRun r run').FreshPages pages := by
  intro q hq
  have hnone := h q hq
  have hne : q ≠ r := fun heq => by
    rw [heq, hrun] at hnone
    cases hnone
  exact (update_of_ne hne ..).trans hnone

include hslots

/-- `RefillRun` takes a run that is not full out of its set, or makes one. -/
theorem refillRun_spec (hplaced : Placed s.runs loc cur s.nonFullRuns none) (hpages : s.FreshPages pages) (idx : Nat) :
    s.refillRun cfg pages idx = (s, none) ∨
    ∃ s' r run, s.refillRun cfg pages idx = (s', some (r, run)) ∧ s'.runs r = some run ∧ run.sizeBracketIdx = idx ∧
      run.isThreadLocal = false ∧ run.isFull = false ∧ Slots cfg s'.runs s'.freed s'.bulkFreeRuns live ∧
      Placed s'.runs loc cur s'.nonFullRuns (some r) ∧ s'.rosAllocRun = s.rosAllocRun ∧
      s'.currentRuns = s.currentRuns := by
  unfold refillRun
  cases hhead : (s.nonFullRuns idx).keys.head? with
  | some q =>
    have hq : q ∈ (s.nonFullRuns idx).keys := mem_of_head? hhead
    obtain ⟨-, run, hrun, hidx, hlocal, hfull⟩ := hplaced.nonFull_run idx q hq
    refine .inr ⟨s.eraseNonFull idx q, q, run, ?_, hrun, hidx, hlocal, hfull, hslots, hplaced.detach_nonFull hq,
      rfl, rfl⟩
    simp only [hrun, Option.map_some]
  | none =>
    cases pages with
    | none => exact .inl rfl
    | some q =>
      have hnone := hpages q rfl
      obtain ⟨hok, hidx, hlocal, hfull⟩ := Run.allocated_ok cfg idx
      have hempty : live q = fun _ => False := funext fun c => eq_false (hslots.none q hnone c)
      refine .inr ⟨s.setRun q (Run.allocated cfg idx), q, Run.allocated cfg idx, rfl, update_self .., hidx,
        hlocal, hfull, ?_, hplaced.new hnone _, rfl, rfl⟩
      have hbulk : q ∈ s.bulkFreeRuns ↔ (Run.allocated cfg idx).bulkFreeList.size ≠ 0 := by
        simp [hslots.pending q, hnone, (Run.Holds.allocated cfg idx).bulk.size]
      have hslots' := hslots.update hok hslots.nodup (fun _ _ => Iff.rfl) hbulk
      rwa [← hempty, update_eq_self] at hslots'

/-! ### Allocation -/

/-- An allocation from a current run that was refilled. -/
theorem refillCurrent_inv (hplaced : Placed s.runs s.rosAllocRun (update s.currentRuns idx none) s.nonFullRuns none)
    (hpages : s.FreshPages pages) : Allocates cfg live (match s.refillRun cfg pages idx with
      | (s, none) => (none, s.setCurrentRun idx none)
      | (s, some (r, run)) =>
        ((s.setRun r (run.setIsThreadLocal false)).setCurrentRun idx (some r)).allocSlotFrom (some r)) := by
  rcases refillRun_spec hslots hplaced hpages idx with
    hnone | ⟨s₁, r, run, hrefill, hrun, hidx, hlocal, hfull, hslots₁, hplaced₁, hloc, hcur⟩
  · rw [hnone]
    exact ⟨⟨hslots, hplaced⟩, nofun⟩
  rw [hrefill]
  have hslots₂ := hslots₁.setRun_same hrun ((hslots₁.ok r run hrun).setIsThreadLocal hlocal false) rfl
  have hattached := (hplaced₁.update_out (some (run.setIsThreadLocal false))).attach_current (Function.update_self ..)
    hidx rfl (update_self ..)
  rw [Function.update_idem, ← hcur, ← hloc] at hattached
  refine allocSlotFrom_inv ⟨hslots₂, hattached⟩ (update_self ..) hfull (.inr ?_)
  rw [show (run.setIsThreadLocal false).sizeBracketIdx = idx from hidx]
  exact Function.update_self ..

omit hslots

/-- An allocation from the current run of a bracket. -/
theorem allocFromCurrentRunUnlocked_inv (h : Inv cfg s live) (hpages : s.FreshPages pages) (idx : Nat) :
    Allocates cfg live (s.allocFromCurrentRunUnlocked cfg pages idx) := by
  unfold allocFromCurrentRunUnlocked
  cases hcur : s.currentRuns idx with
  | none =>
    have hsame : update s.currentRuns idx none = s.currentRuns := by rw [← hcur, update_eq_self]
    exact refillCurrent_inv h.slots (hsame.symm ▸ h.placed) hpages
  | some r =>
    obtain ⟨-, -, run, hrun, hidx, hlocal⟩ := h.placed.current_run idx r hcur
    cases hfull : run.isFull with
    | false =>
      obtain ⟨slot, s', halloc, hinv⟩ := allocSlotFrom_some h hrun hfull (.inr (hidx ▸ hcur))
      rwa [halloc]
    | true =>
      rw [allocSlotFrom_full h.slots hrun hfull]
      refine refillCurrent_inv h.slots ((h.placed.detach_current hcur).of_out fun other hother => ?_) hpages
      cases hrun.symm.trans hother
      exact ⟨hlocal, hfull⟩

/-- The run found becomes the local run of the thread, whose old one has been given up. -/
theorem refillThreadLocal_inv [DecidableEq Thread] (self : Thread)
    (hslots : Slots cfg s.runs s.freed s.bulkFreeRuns live)
    (hplaced : Placed s.runs (Placed.setLocal s.rosAllocRun self idx none) s.currentRuns s.nonFullRuns none)
    (hpages : s.FreshPages pages) : Allocates cfg live (s.refillThreadLocal cfg self pages idx) := by
  unfold refillThreadLocal
  rcases refillRun_spec hslots hplaced hpages idx with
    hnone | ⟨s₁, r, run, hrefill, hrun, hidx, hlocal, hfull, hslots₁, hplaced₁, hloc, hcur⟩
  · rw [hnone]
    exact ⟨⟨hslots, hplaced⟩, nofun⟩
  rw [hrefill]
  have hslots₂ := hslots₁.setRun_same hrun ((hslots₁.ok r run hrun).setIsThreadLocal hlocal true) rfl
  have hattached := (hplaced₁.update_out (some (run.setIsThreadLocal true))).attach_local (Function.update_self ..)
    hidx rfl self (by rw [Placed.setLocal_eq]; exact if_pos ⟨rfl, rfl⟩)
  rw [Placed.setLocal, Placed.setLocal, Function.update_self, Function.update_idem, Function.update_idem, ← hcur,
    ← hloc] at hattached
  exact allocSlotFrom_inv ⟨hslots₂, hattached⟩ (update_self ..) hfull (.inl rfl)

/-- An allocation from a full thread-local run, whose freed slots are merged first. -/
theorem mergeThreadLocal_inv [DecidableEq Thread] {self : Thread} (h : Inv cfg s live) (hpages : s.FreshPages pages)
    (hloc : s.rosAllocRun self idx = some r) (hrun : s.runs r = some run) (hfull : run.isFull = true) :
    Allocates cfg live (match run.mergeThreadLocalFreeListToFreeList with
      | (true, run) => (s.setRun r run).allocSlotFrom (some r)
      | (false, run) => (s.setRun r (run.setIsThreadLocal false)).refillThreadLocal cfg self pages idx) := by
  obtain ⟨hidx, hlocal⟩ := h.placed.of_local hrun hloc
  have hok := h.slots.ok r run hrun
  have hmerged := Run.Ok.mergeThreadLocal_fst hfull
  rcases hmerge : run.mergeThreadLocalFreeListToFreeList with ⟨_ | _, run₁⟩
  · have hfull₁ := (congrArg Prod.fst hmerge).symm.trans hmerged
    obtain rfl : run.mergeThreadLocalFreeListToFreeList.2 = run₁ := by rw [hmerge]
    refine refillThreadLocal_inv self (h.slots.setRun_same hrun (hok.mergeThreadLocal false) rfl) ?_
      (hpages.setRun hrun _)
    refine ((h.placed.detach_local hloc).update_out _).of_out fun other hother => ?_
    rw [update_self] at hother
    cases hother
    have hfull₂ : run.mergeThreadLocalFreeListToFreeList.2.isFull = true := by simpa using hfull₁.symm
    exact ⟨rfl, hfull₂⟩
  · have hfull₁ := (congrArg Prod.fst hmerge).symm.trans hmerged
    obtain rfl : run.mergeThreadLocalFreeListToFreeList.2 = run₁ := by rw [hmerge]
    have hslots := h.slots.setRun_same hrun (hok.mergeThreadLocal run.isThreadLocal) rfl
    exact allocSlotFrom_inv ⟨hslots, h.placed.modify hrun rfl rfl (.inl hlocal)⟩ (update_self ..)
      (by simpa using hfull₁.symm) (.inl hlocal)

/-- An allocation from the runs keeps the invariant, with one more live slot. -/
theorem allocFromRun_inv [DecidableEq Thread] (h : Inv cfg s live) (hpages : s.FreshPages pages) (self : Thread)
    (idx : Nat) :
    Allocates cfg live (s.allocFromRun cfg self pages idx) := by
  unfold allocFromRun
  split_ifs with hbracket
  · cases hloc : s.rosAllocRun self idx with
    | none =>
      have hsame : Placed.setLocal s.rosAllocRun self idx none = s.rosAllocRun := by
        rw [Placed.setLocal, ← hloc, update_eq_self, update_eq_self]
      simp only [allocSlotFrom, hloc]
      exact refillThreadLocal_inv self h.slots (hsame.symm ▸ h.placed) hpages
    | some r =>
      obtain ⟨-, run, hrun, hidx, hlocal⟩ := h.placed.local_run self idx r hloc
      cases hfull : run.isFull with
      | false =>
        obtain ⟨slot, s', halloc, hinv⟩ := allocSlotFrom_some h hrun hfull (.inl hlocal)
        rwa [halloc]
      | true =>
        rw [allocSlotFrom_full h.slots hrun hfull]
        simp only [hloc, hrun]
        exact mergeThreadLocal_inv h hpages hloc hrun hfull
  · exact allocFromCurrentRunUnlocked_inv h hpages idx

/-! ### Freeing -/

/-- Freeing a run keeps the invariant. -/
theorem freeRun_inv {run' : Run} (hslots : Slots cfg (s.setRun r run').runs s.freed s.bulkFreeRuns live)
    (hplaced : Placed s.runs s.rosAllocRun s.currentRuns s.nonFullRuns none) (hrun : s.runs r = some run)
    (hlocal : run.isThreadLocal = false) (hidx : run'.sizeBracketIdx = run.sizeBracketIdx)
    (hall : run'.isAllFree cfg = true) : Inv cfg ((s.setRun r run').freeRun r run') live := by
  have hslots' := hslots.freePages (update_self ..) hall
  unfold freeRun
  simp only [hidx]
  by_cases hnon : r ∈ (s.nonFullRuns run.sizeBracketIdx).keys
  · have hcur : s.currentRuns run.sizeBracketIdx ≠ some r := fun hc => (hplaced.current_run _ r hc).2.1 hnon
    have hnon' : r ∈ ((s.setRun r run').nonFullRuns run.sizeBracketIdx).keys := hnon
    have hcur' : ((s.setRun r run').eraseNonFull run.sizeBracketIdx r).currentRuns run.sizeBracketIdx ≠ some r := hcur
    rw [if_pos hnon', if_neg hcur']
    exact ⟨hslots', ((hplaced.detach_nonFull hnon).update_out (some run')).remove⟩
  have hnon' : r ∉ ((s.setRun r run').nonFullRuns run.sizeBracketIdx).keys := hnon
  rw [if_neg hnon']
  by_cases hcur : s.currentRuns run.sizeBracketIdx = some r
  · have hcur' : (s.setRun r run').currentRuns run.sizeBracketIdx = some r := hcur
    rw [if_pos hcur']
    exact ⟨hslots', ((hplaced.detach_current hcur).update_out (some run')).remove⟩
  · have hcur' : (s.setRun r run').currentRuns run.sizeBracketIdx ≠ some r := hcur
    rw [if_neg hcur']
    exact ⟨hslots', ((hplaced.detach_full hrun hlocal hcur hnon).update_out (some run')).remove⟩

/-- Freeing a slot keeps the invariant, with one live slot less. -/
theorem freeFromRun_inv (h : Inv cfg s live) (hlive : live r slot) :
    Inv cfg (s.freeFromRun cfg r slot) (released live r slot) := by
  obtain ⟨run, hrun⟩ := h.slots.run_of_live hlive
  have hok := h.slots.ok r run hrun
  unfold freeFromRun
  simp only [hrun]
  cases hlocal : run.isThreadLocal with
  | true =>
    rw [if_pos rfl]
    exact ⟨h.slots.setRun hrun (hok.addToThreadLocalFreeList hlive hlocal) rfl,
      h.placed.modify hrun rfl rfl (.inl hlocal)⟩
  | false =>
    rw [if_neg Bool.false_ne_true]
    obtain ⟨hok', hfull'⟩ := hok.freeSlot hlive hlocal
    have hslots := h.slots.setRun hrun hok' rfl
    split_ifs with hall hplace
    · exact freeRun_inv hslots h.placed hrun hlocal rfl hall
    · -- the run was full
      refine ⟨hslots, ?_⟩
      exact ((h.placed.detach_full hrun hlocal hplace.1 hplace.2).update_out _).attach_nonFull (update_self ..)
        rfl hlocal hfull'
    · refine ⟨hslots, h.placed.modify hrun rfl rfl (.inr ?_)⟩
      by_cases hcur : s.currentRuns run.sizeBracketIdx = some r
      · exact .inl hcur
      have hnon : r ∈ (s.nonFullRuns run.sizeBracketIdx).keys := Decidable.not_not.mp fun hnon => hplace ⟨hcur, hnon⟩
      obtain ⟨-, other, hother, -, -, hfull⟩ := h.placed.nonFull_run _ r hnon
      cases hrun.symm.trans hother
      exact .inr (hfull'.trans hfull.symm)

/-- Marking a slot for a bulk free keeps the invariant. -/
theorem bulkFreeSlot_inv (h : Inv cfg s live) (hlive : live r slot) :
    Inv cfg (s.bulkFreeSlot r slot) (released live r slot) := by
  obtain ⟨run, hrun⟩ := h.slots.run_of_live hlive
  obtain ⟨hok, hfull⟩ := (h.slots.ok r run hrun).addToBulkFreeList hlive
  have hsize := Run.Ok.addToBulkFreeList_size run slot
  unfold bulkFreeSlot
  simp only [hrun]
  refine ⟨h.slots.update hok ?_ (fun q hq => ?_) (iff_of_true ?_ hsize),
    h.placed.modify hrun rfl rfl (.inr (.inr hfull))⟩
  · split_ifs with hr
    · exact h.slots.nodup
    · exact nodup_cons.mpr ⟨hr, h.slots.nodup⟩
  · split_ifs
    · rfl
    · simp [hq]
  · split_ifs with hr
    · exact hr
    · exact mem_cons_self

/-- A run with bulk-freed slots goes to its new place. -/
theorem placeBulkFreed_inv {run' : Run} (hslots : Slots cfg (s.setRun r run').runs s.freed s.bulkFreeRuns live)
    (hplaced : Placed s.runs s.rosAllocRun s.currentRuns s.nonFullRuns none) (hrun : s.runs r = some run)
    (hlocal : run.isThreadLocal = false) (hidx : run'.sizeBracketIdx = run.sizeBracketIdx)
    (hlocal' : run'.isThreadLocal = run.isThreadLocal) (hfull' : run'.isFull = false) :
    Inv cfg ((s.setRun r run').placeBulkFreed cfg r run' run.isFull) live := by
  unfold placeBulkFreed
  simp only [hidx]
  by_cases hcur : s.currentRuns run.sizeBracketIdx = some r
  · have hcur' : (s.setRun r run').currentRuns run.sizeBracketIdx = some r := hcur
    rw [if_pos hcur', if_pos hcur', ite_self]
    exact ⟨hslots, hplaced.modify hrun hidx hlocal' (.inr (.inl hcur))⟩
  have hcur' : (s.setRun r run').currentRuns run.sizeBracketIdx ≠ some r := hcur
  rw [if_neg hcur', if_neg hcur']
  have hplace : r ∈ (s.nonFullRuns run.sizeBracketIdx).keys ↔ run.isFull = false := by
    constructor
    · intro hnon
      obtain ⟨-, other, hother, -, -, hfull⟩ := hplaced.nonFull_run _ r hnon
      cases hrun.symm.trans hother
      exact hfull
    · intro hfull
      rcases hplaced.placed r run hrun nofun with ⟨hl, -⟩ | ⟨-, hc | hnon | hf⟩
      · exact absurd hl (ne_true_of_eq_false hlocal)
      · exact absurd hc hcur
      · exact hnon
      · exact absurd hf (ne_true_of_eq_false hfull)
  cases hfull : run.isFull with
  | true =>
    have hout := (hplaced.detach_full hrun hlocal hcur
      fun hnon => absurd (hplace.mp hnon) (ne_false_of_eq_true hfull)).update_out (some run')
    simp only [if_true]
    split_ifs with hall
    · exact ⟨hslots.freePages (update_self ..) hall, hout.remove⟩
    · exact ⟨hslots, hout.attach_nonFull (update_self ..) hidx (hlocal'.trans hlocal) hfull'⟩
  | false =>
    simp only [Bool.false_eq_true, if_false]
    split_ifs with hall
    · exact ⟨hslots.freePages (update_self ..) hall,
        ((hplaced.detach_nonFull (hplace.mpr hfull)).update_out (some run')).remove⟩
    · exact ⟨hslots, hplaced.modify hrun hidx hlocal' (.inr (.inr (hfull'.trans hfull.symm)))⟩

/-- Merging the bulk-freed slots of a run keeps the invariant. -/
theorem bulkFreeRun_inv (h : Inv cfg s live) (hr : r ∈ s.bulkFreeRuns) : Inv cfg (s.bulkFreeRun cfg r) live := by
  obtain ⟨run, hrun, hsize⟩ := (h.slots.pending r).mp hr
  have hok := h.slots.ok r run hrun
  -- the run is looked at, and its bulk list is empty then
  have herase : ∀ {run' : Run} {p : Nat → Prop}, run'.Ok cfg p → run'.bulkFreeList.size = 0 →
      Slots cfg (update s.runs r (some run')) s.freed (s.bulkFreeRuns.erase r) (update live r p) := fun hok hempty =>
    h.slots.update hok (h.slots.nodup.erase r) (fun q hq => mem_erase_of_ne hq)
      (iff_of_false h.slots.nodup.not_mem_erase (not_not.mpr hempty))
  unfold bulkFreeRun
  simp only [hrun]
  cases hlocal : run.isThreadLocal with
  | true =>
    rw [if_pos rfl]
    have hslots := herase (hok.mergeBulkToThreadLocal hlocal) (SlotFreeList.merge_size ..)
    rw [update_eq_self] at hslots
    exact ⟨hslots, h.placed.modify hrun rfl rfl (.inl hlocal)⟩
  | false =>
    rw [if_neg Bool.false_ne_true]
    have hslots := herase (hok.mergeBulk hlocal) (SlotFreeList.merge_size ..)
    rw [update_eq_self] at hslots
    exact placeBulkFreed_inv (s := { s with bulkFreeRuns := s.bulkFreeRuns.erase r }) hslots h.placed hrun hlocal
      rfl rfl
      (hok.mergeBulk_isFull (.inr hsize))

/-! ### Revoking -/

include hslots in
theorem revokeRun_inv (hplaced : Placed s.runs s.rosAllocRun s.currentRuns s.nonFullRuns (some r))
    (hrun : s.runs r = some run) (hidx : run.sizeBracketIdx = idx) (hlocal : run.isThreadLocal = false) :
    Inv cfg (s.revokeRun cfg idx r run) live := by
  unfold revokeRun
  split_ifs with hfull hall
  · refine ⟨hslots, hplaced.of_out fun other hother => ?_⟩
    cases hrun.symm.trans hother
    exact ⟨hlocal, hfull⟩
  · exact ⟨hslots.freePages hrun hall, hplaced.remove⟩
  · exact ⟨hslots, hplaced.attach_nonFull hrun hidx hlocal (Bool.not_eq_true _ ▸ hfull)⟩

theorem revokeThreadLocalRun_inv [DecidableEq Thread] (h : Inv cfg s live) (thread : Thread) (idx : Nat) :
    Inv cfg (s.revokeThreadLocalRun cfg thread idx) live := by
  unfold revokeThreadLocalRun
  cases hloc : s.rosAllocRun thread idx with
  | none => exact h
  | some r =>
    obtain ⟨-, run, hrun, hidx, hlocal⟩ := h.placed.local_run thread idx r hloc
    have hrun' : (s.setRosAllocRun thread idx none).runs r = some run := hrun
    simp only [hrun']
    refine revokeRun_inv ?_ ((h.placed.detach_local hloc).update_out _) (update_self ..) hidx rfl
    exact h.slots.setRun_same hrun ((h.slots.ok r run hrun).mergeThreadLocal false) rfl

theorem revokeCurrentRun_inv (h : Inv cfg s live) (idx : Nat) : Inv cfg (s.revokeCurrentRun cfg idx) live := by
  unfold revokeCurrentRun
  cases hcur : s.currentRuns idx with
  | none => exact h
  | some r =>
    obtain ⟨-, -, run, hrun, hidx, hlocal⟩ := h.placed.current_run idx r hcur
    simp only [hrun]
    have hcomm : (s.revokeRun cfg idx r run).setCurrentRun idx none =
        (s.setCurrentRun idx none).revokeRun cfg idx r run := by
      unfold revokeRun
      split_ifs <;> rfl
    rw [hcomm]
    exact revokeRun_inv h.slots (h.placed.detach_current hcur) hrun hidx hlocal

theorem foldl_inv {step : State Thread → Nat → State Thread}
    (hstep : ∀ s idx, Inv cfg s live → Inv cfg (step s idx) live) (h : Inv cfg s live) (brackets : List Nat) :
    Inv cfg (brackets.foldl step s) live := by
  induction brackets generalizing s with
  | nil => exact h
  | cons idx brackets ih => exact ih (hstep s idx h)

theorem write_inv (h : Inv cfg s live) (hlive : live r slot) (value : Nat) : Inv cfg (s.write r slot value) live := by
  obtain ⟨run, hrun⟩ := h.slots.run_of_live hlive
  unfold write
  simp only [hrun]
  exact ⟨h.slots.setRun_same hrun ((h.slots.ok r run hrun).write hlive value) rfl,
    h.placed.modify hrun rfl rfl (.inr (.inr rfl))⟩

end State

/-! ### Runs of the allocator -/

open State in
/-- The states that the operations lead to, with the live slots. A bulk free is its steps: one for each slot, then one
    for each run. -/
inductive Reachable [DecidableEq Thread] (cfg : Config) : State Thread → Live → Prop
  | init : Reachable cfg init fun _ _ => False
  | allocFromRun {s live pages} (self : Thread) (idx : Nat) : Reachable cfg s live → s.FreshPages pages →
      Reachable cfg (s.allocFromRun cfg self pages idx).2 (granted live (s.allocFromRun cfg self pages idx).1)
  | allocThreadUnsafe {s live pages} (idx : Nat) : Reachable cfg s live → s.FreshPages pages →
      Reachable cfg (s.allocFromCurrentRunUnlocked cfg pages idx).2
        (granted live (s.allocFromCurrentRunUnlocked cfg pages idx).1)
  | freeFromRun {s live r slot} : Reachable cfg s live → live r slot →
      Reachable cfg (s.freeFromRun cfg r slot) (released live r slot)
  | bulkFreeSlot {s live r slot} : Reachable cfg s live → live r slot →
      Reachable cfg (s.bulkFreeSlot r slot) (released live r slot)
  | bulkFreeRun {s live r} : Reachable cfg s live → r ∈ s.bulkFreeRuns → Reachable cfg (s.bulkFreeRun cfg r) live
  | revokeThreadLocalRuns {s live} (thread : Thread) : Reachable cfg s live →
      Reachable cfg (s.revokeThreadLocalRuns cfg thread) live
  | revokeThreadUnsafeCurrentRuns {s live} : Reachable cfg s live →
      Reachable cfg (s.revokeThreadUnsafeCurrentRuns cfg) live
  | write {s live r slot} (value : Nat) : Reachable cfg s live → live r slot → Reachable cfg (s.write r slot value) live

variable {cfg : Config} {s : State Thread} {live : Live}

theorem init_inv : Inv cfg (State.init : State Thread) fun _ _ => False :=
  ⟨⟨nofun, nofun, nofun, nodup_nil, fun _ => iff_of_false not_mem_nil fun ⟨_, h, _⟩ => by cases h⟩,
    ⟨nofun, nofun, nofun, nofun, nofun⟩⟩

open State in
theorem Reachable.inv [DecidableEq Thread] (h : Reachable cfg s live) : Inv cfg s live := by
  induction h with
  | init => exact init_inv
  | allocFromRun self idx _ hpages ih => exact (allocFromRun_inv ih hpages self idx).inv
  | allocThreadUnsafe idx _ hpages ih => exact (allocFromCurrentRunUnlocked_inv ih hpages idx).inv
  | freeFromRun _ hlive ih => exact freeFromRun_inv ih hlive
  | bulkFreeSlot _ hlive ih => exact bulkFreeSlot_inv ih hlive
  | bulkFreeRun _ hr ih => exact bulkFreeRun_inv ih hr
  | revokeThreadLocalRuns thread _ ih => exact foldl_inv (fun _ idx h => revokeThreadLocalRun_inv h thread idx) ih _
  | revokeThreadUnsafeCurrentRuns _ ih => exact foldl_inv (fun _ idx h => revokeCurrentRun_inv h idx) ih _
  | write value _ hlive ih => exact write_inv ih hlive value

/-! ### Slots and places -/

/-- The slots that a list leads through. -/
def SlotFreeList.Through (next : Nat → Nat) (list : SlotFreeList) (slots : List Nat) : Prop :=
  Linked next 0 list.head slots ∧ 0 ∉ slots

/-- The ways a slot can be accounted for. -/
inductive SlotState
  | live
  | free
  | threadLocal
  | bulk

/-- A slot of a run is live, or on a list. -/
def Run.InState (run : Run) (live : Nat → Prop) (slot : Nat) : SlotState → Prop
  | .live => live slot
  | .free => ∃ slots, run.freeList.Through run.next slots ∧ slot ∈ slots
  | .threadLocal => ∃ slots, run.threadLocalFreeList.Through run.next slots ∧ slot ∈ slots
  | .bulk => ∃ slots, run.bulkFreeList.Through run.next slots ∧ slot ∈ slots

/-- The places of a run. -/
inductive Place
  | threadLocal
  | current
  | nonFull
  | full

/-- Where a run is; full runs that no thread allocates from are nowhere. -/
def State.InPlace (s : State Thread) (r : Nat) (run : Run) : Place → Prop
  | .threadLocal => ∃ t, s.rosAllocRun t run.sizeBracketIdx = some r
  | .current => s.currentRuns run.sizeBracketIdx = some r
  | .nonFull => r ∈ (s.nonFullRuns run.sizeBracketIdx).keys ∧ run.isFull = false
  | .full => run.isFull = true ∧ (∀ t, s.rosAllocRun t run.sizeBracketIdx ≠ some r) ∧
      s.currentRuns run.sizeBracketIdx ≠ some r ∧ r ∉ (s.nonFullRuns run.sizeBracketIdx).keys

/-- The size of a list is its length. -/
def SlotFreeList.Counts (next : Nat → Nat) (list : SlotFreeList) : Prop :=
  ∃ slots, list.Through next slots ∧ list.size = slots.length

theorem SlotFreeList.Holds.through_iff {useTail : Bool} {next : Nat → Nat} {list : SlotFreeList} {slots : List Nat}
    (h : list.Holds useTail next slots) (slot : Nat) :
    (∃ slots, list.Through next slots ∧ slot ∈ slots) ↔ slot ∈ slots := by
  constructor
  · rintro ⟨slots', ⟨hlinked, hnonnull⟩, hslot⟩
    rwa [h.linked.unique hlinked h.nonnull hnonnull]
  · exact fun hslot => ⟨slots, ⟨h.linked, h.nonnull⟩, hslot⟩

theorem SlotFreeList.Holds.counts {useTail : Bool} {next : Nat → Nat} {list : SlotFreeList} {slots : List Nat}
    (h : list.Holds useTail next slots) : list.Counts next := ⟨slots, ⟨h.linked, h.nonnull⟩, h.size⟩

/-- Each slot of a run is in exactly one state. -/
theorem Run.Ok.inState {run : Run} {live : Nat → Prop} (h : run.Ok cfg live) {slot : Nat} (hpos : 0 < slot)
    (hle : slot ≤ cfg.numOfSlots run.sizeBracketIdx) : ∃! state, run.InState live slot state := by
  obtain ⟨f, t, b, hholds, hiff, -⟩ := h
  have hlive : run.InState live slot .live ↔ slot ∉ f ∧ slot ∉ t ∧ slot ∉ b := by
    simp only [InState, hiff slot, mem_append, not_or]
    tauto
  have hfree : run.InState live slot .free ↔ slot ∈ f := hholds.free.through_iff slot
  have hlocal : run.InState live slot .threadLocal ↔ slot ∈ t := hholds.threadLocal.through_iff slot
  have hbulk : run.InState live slot .bulk ↔ slot ∈ b := hholds.bulk.through_iff slot
  have hnodup := hholds.nodup
  rw [nodup_append, nodup_append] at hnodup
  obtain ⟨-, ⟨-, -, htb⟩, hdisj⟩ := hnodup
  have hft : slot ∈ f → slot ∉ t := fun hf ht => hdisj slot hf slot (mem_append_left b ht) rfl
  have hfb : slot ∈ f → slot ∉ b := fun hf hb => hdisj slot hf slot (mem_append_right t hb) rfl
  have htb : slot ∈ t → slot ∉ b := fun ht hb => htb slot ht slot hb rfl
  -- The list that has the slot, or none of them, says the state.
  have hiff : ∀ state, run.InState live slot state ↔
      (if slot ∈ f then .free else if slot ∈ t then .threadLocal else if slot ∈ b then .bulk else .live) = state := by
    intro state
    cases state with
    | live =>
      rw [hlive]
      split_ifs <;> simp [*]
    | free =>
      rw [hfree]
      split_ifs <;> simp [*]
    | threadLocal =>
      rw [hlocal]
      split_ifs <;> simp [*]
    | bulk =>
      rw [hbulk]
      split_ifs <;> simp [*]
  exact ⟨_, (hiff _).mpr rfl, fun state hstate => ((hiff state).mp hstate).symm⟩

/-- Each run is in exactly one place. -/
theorem Inv.inPlace (h : Inv cfg s live) {r : Nat} {run : Run} (hrun : s.runs r = some run) :
    ∃! place, s.InPlace r run place := by
  -- what being in a place says about the run
  have hlocal : ∀ t, s.rosAllocRun t run.sizeBracketIdx = some r → run.isThreadLocal = true := fun t ht => by
    obtain ⟨-, other, hother, -, hl⟩ := h.placed.local_run t _ r ht
    cases hrun.symm.trans hother
    exact hl
  have hcur : s.currentRuns run.sizeBracketIdx = some r →
      run.isThreadLocal = false ∧ r ∉ (s.nonFullRuns run.sizeBracketIdx).keys := fun hc => by
    obtain ⟨-, hnot, other, hother, -, hl⟩ := h.placed.current_run _ r hc
    cases hrun.symm.trans hother
    exact ⟨hl, hnot⟩
  have hnon : r ∈ (s.nonFullRuns run.sizeBracketIdx).keys → run.isThreadLocal = false ∧ run.isFull = false :=
    fun hn => by
    obtain ⟨-, other, hother, -, hl⟩ := h.placed.nonFull_run _ r hn
    cases hrun.symm.trans hother
    exact hl
  rcases h.placed.placed r run hrun nofun with ⟨hl, t, ht⟩ | ⟨hl, hplace⟩
  · refine ⟨.threadLocal, ⟨t, ht⟩, fun place hp => ?_⟩
    cases place with
    | threadLocal => rfl
    | current => exact absurd hl (ne_true_of_eq_false (hcur hp).1)
    | nonFull => exact absurd hl (ne_true_of_eq_false (hnon hp.1).1)
    | full => exact absurd ht (hp.2.1 t)
  have hnotLocal : ∀ t, s.rosAllocRun t run.sizeBracketIdx ≠ some r :=
    fun t ht => absurd (hlocal t ht) (ne_true_of_eq_false hl)
  by_cases hc : s.currentRuns run.sizeBracketIdx = some r
  · refine ⟨.current, hc, fun place hp => ?_⟩
    cases place with
    | threadLocal => exact absurd hp.choose_spec (hnotLocal _)
    | current => rfl
    | nonFull => exact absurd hp.1 (hcur hc).2
    | full => exact absurd hc hp.2.2.1
  by_cases hn : r ∈ (s.nonFullRuns run.sizeBracketIdx).keys
  · refine ⟨.nonFull, ⟨hn, (hnon hn).2⟩, fun place hp => ?_⟩
    cases place with
    | threadLocal => exact absurd hp.choose_spec (hnotLocal _)
    | current => exact absurd hp hc
    | nonFull => rfl
    | full => exact absurd hn hp.2.2.2
  · have hfull : run.isFull = true := (hplace.resolve_left hc).resolve_left hn
    refine ⟨.full, ⟨hfull, hnotLocal, hc, hn⟩, fun place hp => ?_⟩
    cases place with
    | threadLocal => exact absurd hp.choose_spec (hnotLocal _)
    | current => exact absurd hp hc
    | nonFull => exact absurd hp.1 hn
    | full => rfl

/-- Each slot of the run is in exactly one state, and its free lists count their slots. -/
structure SlotsConsistent (cfg : Config) (run : Run) (live : Nat → Prop) : Prop where
  exactlyOne : ∀ slot, 0 < slot → slot ≤ cfg.numOfSlots run.sizeBracketIdx → ∃! state, run.InState live slot state
  freeList : run.freeList.Counts run.next
  threadLocalFreeList : run.threadLocalFreeList.Counts run.next
  bulkFreeList : run.bulkFreeList.Counts run.next

open State in
/-- Every slot is in one state, the lists count their slots, every run is in one place (in the set of the runs that are
    not full only if it is not), no live slot is handed out, and pages are freed when all slots are on the free list. -/
theorem slots_consistent [DecidableEq Thread] (h : Reachable cfg s live) :
    (∀ r run, s.runs r = some run → SlotsConsistent cfg run (live r) ∧ ∃! place, s.InPlace r run place) ∧
    (∀ self idx pages, s.FreshPages pages →
      FreshSlot cfg live (s.allocFromRun cfg self pages idx).2 (s.allocFromRun cfg self pages idx).1 ∧
      FreshSlot cfg live (s.allocFromCurrentRunUnlocked cfg pages idx).2
        (s.allocFromCurrentRunUnlocked cfg pages idx).1) ∧
    ∀ run ∈ s.freed, ∀ slot, 0 < slot → slot ≤ cfg.numOfSlots run.sizeBracketIdx →
      run.InState (fun _ => False) slot .free := by
  have hinv := h.inv
  refine ⟨fun r run hrun => ⟨?_, hinv.inPlace hrun⟩, fun self idx pages hpages => ⟨?_, ?_⟩,
    fun run hrun slot hpos hle => ?_⟩
  · have hok := hinv.slots.ok r run hrun
    obtain ⟨f, t, b, hholds, -, -⟩ := hok
    exact ⟨fun slot hpos hle => (hinv.slots.ok r run hrun).inState hpos hle, hholds.free.counts,
      hholds.threadLocal.counts, hholds.bulk.counts⟩
  · exact (allocFromRun_inv hinv hpages self idx).fresh
  · exact (allocFromCurrentRunUnlocked_inv hinv hpages idx).fresh
  · obtain ⟨f, hholds, hmem⟩ := hinv.slots.freed run hrun
    exact ⟨f, ⟨hholds.linked, hholds.nonnull⟩, hmem slot hpos hle⟩

def sampleConfig : Config := ⟨fun _ => 2, 1, fun _ => Nat.succ_pos 1⟩

/-- One slot of a new thread-local run. -/
def sampleState : State Unit := (State.init.allocFromRun sampleConfig () (some 5) 0).2

theorem slots_consistent_sample : (State.init.allocFromRun sampleConfig () (some 5) 0).1 = some (5, 1) ∧
    ∃ run, sampleState.runs 5 = some run ∧
      (∃! state, run.InState (granted (fun _ _ => False) (some (5, 1)) 5) 1 state) ∧
      ∃! place, sampleState.InPlace 5 run place := by
  have hfresh : (State.init : State Unit).FreshPages (some 5) := fun _ _ => rfl
  have hreach : Reachable sampleConfig sampleState (granted (fun _ _ => False) (some (5, 1))) :=
    Reachable.allocFromRun () 0 .init hfresh
  obtain ⟨hruns, -, -⟩ := slots_consistent hreach
  obtain ⟨hslots, hplace⟩ := hruns 5 _ rfl
  exact ⟨rfl, _, rfl, hslots.exactlyOne 1 Nat.one_pos (Nat.le_succ 1), hplace⟩

/-! ### Bulk frees -/

/-- What a bulk free does to the runs: they stay, or their pages are freed. -/
structure State.BulkFrees (s s' : State Thread) : Prop where
  run : ∀ r run, s.runs r = some run → (∃ run', s'.runs r = some run' ∧ run'.sizeBracketIdx = run.sizeBracketIdx) ∨
    s'.runs r = none ∧ ∃ run' ∈ s'.freed, run'.sizeBracketIdx = run.sizeBracketIdx
  none : ∀ r, s.runs r = Option.none → s'.runs r = Option.none
  freed : s.freed ⊆ s'.freed

namespace State.BulkFrees

variable {s₁ s₂ s₃ : State Thread}

theorem refl (s : State Thread) : s.BulkFrees s := ⟨fun _ run hrun => .inl ⟨run, hrun, rfl⟩, fun _ => id, Subset.refl _⟩

theorem trans (h₁ : s₁.BulkFrees s₂) (h₂ : s₂.BulkFrees s₃) : s₁.BulkFrees s₃ := by
  refine ⟨fun r run hrun => ?_, fun r hr => h₂.none r (h₁.none r hr), fun run hrun => h₂.freed (h₁.freed hrun)⟩
  rcases h₁.run r run hrun with ⟨run', hrun', hidx⟩ | ⟨hnone, run', hmem, hidx⟩
  · rw [← hidx]
    exact h₂.run r run' hrun'
  · exact .inr ⟨h₂.none r hnone, run', h₂.freed hmem, hidx⟩

/-- One run is changed, and its pages may be freed. -/
theorem of_update {r : Nat} {run : Run} (run' : Run) (hrun : s₁.runs r = some run)
    (hidx : run'.sizeBracketIdx = run.sizeBracketIdx)
    (h : s₂.runs = update s₁.runs r (some run') ∧ s₂.freed = s₁.freed ∨
      s₂.runs = update s₁.runs r Option.none ∧ s₂.freed = run' :: s₁.freed) : s₁.BulkFrees s₂ := by
  rcases h with ⟨hruns, hfreed⟩ | ⟨hruns, hfreed⟩ <;> refine ⟨fun q other hq => ?_, fun q hq => ?_, by simp [hfreed]⟩
  all_goals
    rw [hruns]
    by_cases hqr : q = r
    · subst hqr
      simp_all
    · simp_all

theorem bulkFreeSlot (s : State Thread) (r slot : Nat) : s.BulkFrees (s.bulkFreeSlot r slot) := by
  unfold State.bulkFreeSlot
  cases hrun : s.runs r with
  | none => exact refl s
  | some run => exact of_update (run.addToBulkFreeList slot) hrun rfl (.inl ⟨rfl, rfl⟩)

theorem bulkFreeRun (cfg : Config) (s : State Thread) (r : Nat) : s.BulkFrees (s.bulkFreeRun cfg r) := by
  dsimp only [State.bulkFreeRun, State.placeBulkFreed]
  cases hrun : s.runs r with
  | none => exact ⟨fun _ run hrun => .inl ⟨run, hrun, rfl⟩, fun _ => id, Subset.refl _⟩
  | some run =>
    dsimp only
    split_ifs
    · exact of_update run.mergeBulkFreeListToThreadLocalFreeList hrun rfl (.inl ⟨rfl, rfl⟩)
    all_goals refine of_update run.mergeBulkFreeListToFreeList hrun rfl ?_
    all_goals first
      | exact .inl ⟨rfl, rfl⟩
      | exact .inr ⟨update_idem .., rfl⟩

end State.BulkFrees

/-- The second phase of a bulk free is a run of steps. -/
theorem Reachable.bulkFreeMerge [DecidableEq Thread] (h : Reachable cfg s live) :
    Reachable cfg (s.bulkFreeMerge cfg) live ∧ s.BulkFrees (s.bulkFreeMerge cfg) ∧
      (s.bulkFreeMerge cfg).bulkFreeRuns = [] := by
  unfold State.bulkFreeMerge
  generalize hruns : s.bulkFreeRuns = runs
  induction runs generalizing s with
  | nil => exact ⟨h, .refl s, hruns⟩
  | cons r runs ih =>
    have herase : (s.bulkFreeRun cfg r).bulkFreeRuns = runs := by
      rw [← erase_cons_head r runs, ← hruns]
      dsimp only [State.bulkFreeRun, State.placeBulkFreed]
      split
      · rfl
      · split_ifs <;> rfl
    obtain ⟨hreach, hfrees, hnil⟩ := ih (h.bulkFreeRun (hruns ▸ mem_cons_self)) herase
    exact ⟨hreach, (State.BulkFrees.bulkFreeRun cfg s r).trans hfrees, hnil⟩

/-- A bulk free is a run of steps that frees just the slots it is given. -/
theorem Reachable.bulkFree [DecidableEq Thread] (h : Reachable cfg s live) {ptrs : List (Nat × Nat)}
    (hnodup : ptrs.Nodup) (hlive : ∀ p ∈ ptrs, live p.1 p.2) :
    Reachable cfg ((s.bulkFreeMark ptrs).bulkFreeMerge cfg) (fun r slot => live r slot ∧ (r, slot) ∉ ptrs) ∧
      s.BulkFrees ((s.bulkFreeMark ptrs).bulkFreeMerge cfg) ∧
      ((s.bulkFreeMark ptrs).bulkFreeMerge cfg).bulkFreeRuns = [] := by
  induction ptrs generalizing s live with
  | nil => simpa [State.bulkFreeMark] using h.bulkFreeMerge
  | cons p ptrs ih =>
    obtain ⟨hnot, hnodup⟩ := nodup_cons.mp hnodup
    obtain ⟨hp, hlive⟩ := forall_mem_cons.mp hlive
    have heq : released live p.1 p.2 = fun r slot => live r slot ∧ (r, slot) ≠ p := by
      funext r slot
      by_cases hr : r = p.1 <;> simp [released, update, hr, Prod.ext_iff]
    obtain ⟨hreach, hfrees, hnil⟩ := ih (h.bulkFreeSlot hp) hnodup fun q hq =>
      heq ▸ ⟨hlive q hq, ne_of_mem_of_not_mem hq hnot⟩
    refine ⟨?_, (State.BulkFrees.bulkFreeSlot s p.1 p.2).trans hfrees, hnil⟩
    simpa only [heq, and_assoc, mem_cons, not_or, ne_eq] using! hreach

/-- A slot that is not live and not on a bulk list is on one of the other lists. -/
theorem Run.Ok.inState_free {run : Run} {live : Nat → Prop} (h : run.Ok cfg live) {slot : Nat} (hpos : 0 < slot)
    (hle : slot ≤ cfg.numOfSlots run.sizeBracketIdx) (hlive : ¬ live slot) (hbulk : run.bulkFreeList.size = 0) :
    run.InState live slot .free ∨ run.InState live slot .threadLocal := by
  obtain ⟨f, t, b, hholds, hiff, -⟩ := h
  obtain rfl := hholds.bulk.size_eq_zero.mp hbulk
  have hmem : slot ∈ f ∨ slot ∈ t := by
    by_contra hnot
    exact hlive ((hiff slot).mpr ⟨hpos, hle, by simpa using hnot⟩)
  exact hmem.imp (hholds.free.through_iff slot).mpr (hholds.threadLocal.through_iff slot).mpr

/-- A bulk free is a run of steps that frees the slots it is given and no others. It leaves no run to look at and no
    slot on a bulk list: the slots are on the free list or the thread-local free list of their run, or its pages were
    freed with them on the free list. -/
theorem bulkFree_reachable [DecidableEq Thread] (h : Reachable cfg s live) {ptrs : List (Nat × Nat)}
    (hnodup : ptrs.Nodup) (hlive : ∀ p ∈ ptrs, live p.1 p.2) :
    let s' := (s.bulkFreeMark ptrs).bulkFreeMerge cfg
    let live' := fun r slot => live r slot ∧ (r, slot) ∉ ptrs
    Reachable cfg s' live' ∧ s'.bulkFreeRuns = [] ∧
      (∀ r run, s'.runs r = some run → run.bulkFreeList.size = 0) ∧
      ∀ r slot, (r, slot) ∈ ptrs →
        (∃ run, s'.runs r = some run ∧ (run.InState (live' r) slot .free ∨ run.InState (live' r) slot .threadLocal)) ∨
        s'.runs r = none ∧ ∃ run ∈ s'.freed, run.InState (fun _ => False) slot .free := by
  obtain ⟨hreach, hfrees, hnil⟩ := h.bulkFree hnodup hlive
  have hempty : ∀ r run, ((s.bulkFreeMark ptrs).bulkFreeMerge cfg).runs r = some run → run.bulkFreeList.size = 0 :=
    fun r run hrun => not_not.mp fun hsize => not_mem_nil (hnil ▸ (hreach.inv.slots.mem_bulk hrun).mpr hsize)
  refine ⟨hreach, hnil, hempty, fun r slot hmem => ?_⟩
  obtain ⟨run, hrun⟩ := h.inv.slots.run_of_live (hlive _ hmem)
  obtain ⟨_, _, _, -, hiff, -⟩ := h.inv.slots.ok r run hrun
  obtain ⟨hpos, hle, -⟩ := (hiff slot).mp (hlive _ hmem)
  rcases hfrees.run r run hrun with ⟨run', hrun', hidx⟩ | ⟨hnone, run', hfreed, hidx⟩
  · refine .inl ⟨run', hrun', ?_⟩
    exact (hreach.inv.slots.ok r run' hrun').inState_free hpos (hidx ▸ hle) (fun h => h.2 hmem) (hempty r run' hrun')
  · obtain ⟨f, hholds, hall⟩ := hreach.inv.slots.freed run' hfreed
    exact .inr ⟨hnone, run', hfreed, f, ⟨hholds.linked, hholds.nonnull⟩, hall slot hpos (hidx ▸ hle)⟩

theorem bulkFree_reachable_sample : ∃ run,
    ((sampleState.bulkFreeMark [(5, 1)]).bulkFreeMerge sampleConfig).runs 5 = some run ∧
      (run.InState (fun _ => False) 1 .free ∨ run.InState (fun _ => False) 1 .threadLocal) := by
  have hreach : Reachable sampleConfig sampleState (granted (fun _ _ => False) (some (5, 1))) :=
    .allocFromRun () 0 .init fun _ _ => rfl
  have hlive : granted (fun _ _ => False) (some (5, 1)) 5 1 := by simp [granted]
  obtain ⟨-, -, -, hslots⟩ := bulkFree_reachable hreach (nodup_singleton (5, 1)) (forall_mem_singleton.mpr hlive)
  exact (hslots 5 1 mem_cons_self).resolve_right fun h => by cases h.1

end Art.RosAllocRuns
