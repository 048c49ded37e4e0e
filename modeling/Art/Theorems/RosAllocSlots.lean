import Art.Lib.Linked
import Art.Runtime.RosAllocRuns
import Mathlib.Data.List.Nodup
import Mathlib.Order.Interval.Finset.Nat
import Mathlib.Tactic.Tauto

/-! The lists of a run. A list is threaded through its slots and counts them; the lists of a run have no slot in common,
    and the slots on none of them are live. Each operation on a run is described by what it does to the lists. -/

namespace Art.RosAllocRuns
open List Function

/-! ### Lists -/

/-- The list goes through these slots. -/
structure SlotFreeList.Holds (useTail : Bool) (next : Nat → Nat) (list : SlotFreeList) (slots : List Nat) : Prop where
  linked : Linked next 0 list.head slots
  nonnull : 0 ∉ slots
  size : list.size = slots.length
  tail : useTail = true → ∀ slot, slots.getLast? = some slot → list.tail = slot

namespace SlotFreeList

variable {useTail : Bool} {next next' : Nat → Nat} {list other : SlotFreeList} {slots others : List Nat} {a : Nat}

theorem holds_empty : Holds useTail next empty [] := ⟨rfl, not_mem_nil, rfl, nofun⟩

namespace Holds

variable (h : Holds useTail next list slots)

include h

theorem frame (heq : ∀ b ∈ slots, next' b = next b) :
    Holds useTail next' list slots := { h with linked := h.linked.congr heq }

theorem head_eq_zero : list.head = 0 ↔ slots = [] := by
  cases slots with
  | nil => exact iff_of_true h.linked rfl
  | cons b slots =>
    refine iff_of_false (fun hzero => h.nonnull ?_) nofun
    rw [← hzero, h.linked.1]
    exact mem_cons_self

theorem size_eq_zero : list.size = 0 ↔ slots = [] := by
  rw [h.size, length_eq_zero_iff]

omit h

theorem remove_nil (h : Holds useTail next list []) : list.remove useTail next = (0, next, list) :=
  if_pos (h.head_eq_zero.mpr rfl)

theorem remove_cons (h : Holds false next list (a :: slots)) (ha : a ∉ slots) :
    ∃ list', list.remove false next = (a, update next a 0, list') ∧
      Holds false (update next a 0) list' slots := by
  have hhead : list.head = a := h.linked.1
  have hne : list.head ≠ 0 := fun hzero => nomatch h.head_eq_zero.mp hzero
  refine ⟨⟨next a, list.tail, list.size - 1⟩, ?_, h.linked.2.update ha, ?_, ?_, nofun⟩
  · rw [remove, if_neg hne, hhead]
    rfl
  · exact fun hzero => h.nonnull (mem_cons_of_mem a hzero)
  · rw [h.size, length_cons, Nat.add_sub_cancel]

include h

/-- Adding a slot to a free list. -/
theorem add (ha : a ∉ slots) (hne : a ≠ 0) (hclear : next a = 0) :
    Holds useTail (list.add useTail next a).1 (list.add useTail next a).2 (a :: slots) ∧
      ∀ b, b ≠ a → (list.add useTail next a).1 b = next b := by
  have hnonnull : 0 ∉ a :: slots := fun hzero => (mem_cons.mp hzero).elim (hne ·.symm) h.nonnull
  by_cases hhead : list.head = 0
  · obtain rfl := h.head_eq_zero.mp hhead
    rw [SlotFreeList.add, if_pos hhead]
    refine ⟨⟨⟨rfl, hclear⟩, hnonnull, ?_, fun htail slot hslot => ?_⟩, fun _ _ => rfl⟩
    · rw [h.size]
      rfl
    · rw [if_pos htail]
      exact Option.some.inj hslot
  · have hslots : slots ≠ [] := fun hnil => hhead (h.head_eq_zero.mpr hnil)
    rw [SlotFreeList.add, if_neg hhead]
    refine ⟨⟨⟨rfl, ?_⟩, hnonnull, ?_, fun htail slot hslot => ?_⟩, fun b hb => update_of_ne hb ..⟩
    · dsimp only
      rw [update_self]
      exact h.linked.update ha
    · rw [h.size]
      rfl
    · obtain ⟨b, slots, rfl⟩ := exists_cons_of_ne_nil hslots
      exact h.tail htail slot (by rwa [getLast?_cons_cons] at hslot)

/-- Merging a free list into another. -/
theorem merge (ho : Holds true next other others) (hdisj : ∀ b ∈ others, b ∉ slots) (hnodup : others.Nodup) :
    Holds useTail (list.merge useTail next other).1 (list.merge useTail next other).2.1 (others ++ slots) ∧
      Holds true (list.merge useTail next other).1 (list.merge useTail next other).2.2 [] ∧
      ∀ b, b ∉ others → (list.merge useTail next other).1 b = next b := by
  have hnonnull : 0 ∉ others ++ slots := fun hzero => (mem_append.mp hzero).elim ho.nonnull h.nonnull
  by_cases hsize : other.size = 0
  · obtain rfl := ho.size_eq_zero.mp hsize
    rw [SlotFreeList.merge, if_pos hsize]
    exact ⟨h, ho, fun _ _ => rfl⟩
  have hothers : others ≠ [] := fun hnil => hsize (ho.size_eq_zero.mpr hnil)
  obtain ⟨front, last, rfl⟩ : ∃ front last, others = front ++ [last] := ⟨_, _, (dropLast_append_getLast hothers).symm⟩
  have htail : other.tail = last := ho.tail rfl last getLast?_concat
  by_cases hhead : list.head = 0
  · obtain rfl := h.head_eq_zero.mp hhead
    rw [SlotFreeList.merge, if_neg hsize, if_pos hhead, append_nil]
    refine ⟨{ ho with tail := fun hu slot hslot => ?_ }, holds_empty, fun _ _ => rfl⟩
    rw [if_pos hu]
    exact ho.tail rfl slot hslot
  rw [SlotFreeList.merge, if_neg hsize, if_neg hhead, htail]
  have hlast : last ∉ slots := hdisj last mem_concat_self
  have hfront : last ∉ front := fun hmem => (nodup_append.mp hnodup).2.2 last hmem last mem_cons_self rfl
  refine ⟨⟨?_, hnonnull, ?_, fun hu slot hslot => ?_⟩, holds_empty, fun b hb => ?_⟩
  · obtain ⟨j, hj, hjl, -⟩ := Linked.append_iff.mp ho.linked
    rw [append_assoc]
    refine Linked.append_iff.mpr ⟨j, hj.update hfront, hjl, ?_⟩
    dsimp only
    rw [update_self]
    exact h.linked.update hlast
  · rw [h.size, ho.size, Nat.add_comm, ← length_append]
  · have hslots : slots ≠ [] := fun hnil => hhead (h.head_eq_zero.mpr hnil)
    rw [getLast?_append_of_ne_nil _ hslots] at hslot
    exact h.tail hu slot hslot
  · have hne : b ≠ last := fun heq => hb (by rw [heq]; exact mem_concat_self)
    exact update_of_ne hne ..

end Holds

end SlotFreeList

/-! ### Runs -/

theorem SlotFreeList.merge_size (useTail : Bool) (next : Nat → Nat) (list other : SlotFreeList) :
    (list.merge useTail next other).2.2.size = 0 := by
  unfold merge
  split_ifs with hsize
  · exact hsize
  all_goals rfl

/-- The three lists of a run, which have no slot in common. -/
structure Run.Holds (n : Nat) (run : Run) (f t b : List Nat) : Prop where
  free : run.freeList.Holds false run.next f
  threadLocal : run.threadLocalFreeList.Holds true run.next t
  bulk : run.bulkFreeList.Holds true run.next b
  nodup : (f ++ (t ++ b)).Nodup
  le : ∀ slot ∈ f ++ (t ++ b), slot ≤ n

namespace Run

variable {cfg : Config} {run : Run} {live : Nat → Prop} {n slot : Nat} {f t b : List Nat}

namespace Holds

section

variable (h : run.Holds n f t b)
include h

theorem isFull_iff : run.isFull = true ↔ f = [] := by
  rw [isFull, decide_eq_true_iff, h.free.size_eq_zero]

theorem isFull_eq_false : run.isFull = false ↔ f ≠ [] := by
  rw [← Bool.not_eq_true, h.isFull_iff]

theorem nonnull : 0 ∉ f ++ (t ++ b) := by
  simp only [mem_append, not_or]
  exact ⟨h.free.nonnull, h.threadLocal.nonnull, h.bulk.nonnull⟩

theorem frame (hslot : slot ∉ f ++ (t ++ b)) (value : Nat) :
    { run with next := update run.next slot value }.Holds n f t b := by
  simp only [mem_append, not_or] at hslot
  have hne : ∀ list : List Nat, slot ∉ list → ∀ c ∈ list, update run.next slot value c = run.next c :=
    fun list hlist c hc => update_of_ne (ne_of_mem_of_not_mem hc hlist) ..
  exact { h with
    free := h.free.frame (hne _ hslot.1)
    threadLocal := h.threadLocal.frame (hne _ hslot.2.1)
    bulk := h.bulk.frame (hne _ hslot.2.2) }

/-- The slots that are not live, in another order or with one more. -/
theorem nodup_of_perm {f' t' b' : List Nat} (hperm : (f' ++ (t' ++ b')).Perm (f ++ (t ++ b))) :
    (f' ++ (t' ++ b')).Nodup ∧ ∀ slot ∈ f' ++ (t' ++ b'), slot ≤ n :=
  ⟨hperm.nodup_iff.mpr h.nodup, fun slot hslot => h.le slot (hperm.mem_iff.mp hslot)⟩

theorem nodup_of_perm_cons {f' t' b' : List Nat} (hslot : slot ∉ f ++ (t ++ b)) (hle : slot ≤ n)
    (hperm : (f' ++ (t' ++ b')).Perm (slot :: (f ++ (t ++ b)))) :
    (f' ++ (t' ++ b')).Nodup ∧ ∀ slot ∈ f' ++ (t' ++ b'), slot ≤ n := by
  refine ⟨hperm.nodup_iff.mpr (nodup_cons.mpr ⟨hslot, h.nodup⟩), fun c hc => ?_⟩
  rcases mem_cons.mp (hperm.mem_iff.mp hc) with rfl | hc
  · exact hle
  · exact h.le c hc

end

section Add

variable (h : run.Holds n f t b) (hslot : slot ∉ f ++ (t ++ b)) (hne : slot ≠ 0) (hle : slot ≤ n)
include h hslot hne hle

theorem freeSlot : (run.freeSlot slot).Holds n (slot :: f) t b := by
  have hclear := h.frame hslot 0
  have hnot := hslot
  simp only [mem_append, not_or] at hnot
  obtain ⟨hadd, hother⟩ := hclear.free.add hnot.1 hne (update_self ..)
  obtain ⟨hnodup, hbound⟩ := h.nodup_of_perm_cons hslot hle (List.Perm.refl (slot :: f ++ (t ++ b)))
  exact ⟨hadd, hclear.threadLocal.frame fun c hc => hother c (ne_of_mem_of_not_mem hc hnot.2.1),
    hclear.bulk.frame fun c hc => hother c (ne_of_mem_of_not_mem hc hnot.2.2), hnodup, hbound⟩

theorem addToThreadLocalFreeList : (run.addToThreadLocalFreeList slot).Holds n f (slot :: t) b := by
  have hclear := h.frame hslot 0
  have hnot := hslot
  simp only [mem_append, not_or] at hnot
  obtain ⟨hadd, hother⟩ := hclear.threadLocal.add hnot.2.1 hne (update_self ..)
  have hperm : (f ++ (slot :: t ++ b)).Perm (slot :: (f ++ (t ++ b))) := perm_middle
  obtain ⟨hnodup, hbound⟩ := h.nodup_of_perm_cons hslot hle hperm
  exact ⟨hclear.free.frame fun c hc => hother c (ne_of_mem_of_not_mem hc hnot.1), hadd,
    hclear.bulk.frame fun c hc => hother c (ne_of_mem_of_not_mem hc hnot.2.2), hnodup, hbound⟩

theorem addToBulkFreeList : (run.addToBulkFreeList slot).Holds n f t (slot :: b) := by
  have hclear := h.frame hslot 0
  have hnot := hslot
  simp only [mem_append, not_or] at hnot
  obtain ⟨hadd, hother⟩ := hclear.bulk.add hnot.2.2 hne (update_self ..)
  have hperm : (f ++ (t ++ slot :: b)).Perm (slot :: (f ++ (t ++ b))) := (perm_middle.append_left f).trans perm_middle
  obtain ⟨hnodup, hbound⟩ := h.nodup_of_perm_cons hslot hle hperm
  exact ⟨hclear.free.frame fun c hc => hother c (ne_of_mem_of_not_mem hc hnot.1),
    hclear.threadLocal.frame fun c hc => hother c (ne_of_mem_of_not_mem hc hnot.2.1), hadd, hnodup, hbound⟩

end Add

/-! #### Taking a slot -/

theorem allocSlot_nil (h : run.Holds n [] t b) : run.allocSlot = (0, run) := by
  rw [allocSlot, h.free.remove_nil]

theorem allocSlot_cons (h : run.Holds n (slot :: f) t b) :
    ∃ run', run.allocSlot = (slot, run') ∧ run'.Holds n f t b ∧ run'.sizeBracketIdx = run.sizeBracketIdx ∧
      run'.isThreadLocal = run.isThreadLocal ∧ run'.bulkFreeList = run.bulkFreeList := by
  have hall := h.nodup
  rw [cons_append, nodup_cons] at hall
  obtain ⟨hnot, hnodup⟩ := hall
  simp only [mem_append, not_or] at hnot
  obtain ⟨list', hremove, hfree⟩ := h.free.remove_cons hnot.1
  have hother : ∀ list : List Nat, slot ∉ list → ∀ c ∈ list, update run.next slot 0 c = run.next c :=
    fun list hlist c hc => update_of_ne (ne_of_mem_of_not_mem hc hlist) ..
  refine ⟨{ run with next := update run.next slot 0, freeList := list' }, ?_, ?_, rfl, rfl, rfl⟩
  · rw [allocSlot, hremove]
  · exact ⟨hfree, h.threadLocal.frame (hother _ hnot.2.1), h.bulk.frame (hother _ hnot.2.2), hnodup,
      fun c hc => h.le c (mem_cons_of_mem slot hc)⟩

/-! #### Merging -/

theorem mergeThreadLocal (h : run.Holds n f t b) : run.mergeThreadLocalFreeListToFreeList.2.Holds n (t ++ f) [] b := by
  have hnodup := h.nodup
  rw [nodup_append, nodup_append] at hnodup
  obtain ⟨-, ⟨ht, -, htb⟩, hdisj⟩ := hnodup
  obtain ⟨hmerged, hempty, hother⟩ := h.free.merge h.threadLocal
    (fun c hc hcf => hdisj c hcf c (mem_append_left b hc) rfl) ht
  have hperm : (t ++ f ++ ([] ++ b)).Perm (f ++ (t ++ b)) := by
    rw [nil_append, ← append_assoc]
    exact perm_append_comm.append_right b
  obtain ⟨hnodup, hbound⟩ := h.nodup_of_perm hperm
  exact ⟨hmerged, hempty, h.bulk.frame fun c hc => hother c fun hct => htb c hct c hc rfl, hnodup, hbound⟩

theorem mergeBulk (h : run.Holds n f t b) : run.mergeBulkFreeListToFreeList.Holds n (b ++ f) t [] := by
  have hnodup := h.nodup
  rw [nodup_append, nodup_append] at hnodup
  obtain ⟨-, ⟨-, hb, htb⟩, hdisj⟩ := hnodup
  obtain ⟨hmerged, hempty, hother⟩ := h.free.merge h.bulk (fun c hc hcf => hdisj c hcf c (mem_append_right t hc) rfl) hb
  have hperm : (b ++ f ++ (t ++ [])).Perm (f ++ (t ++ b)) := by
    rw [append_nil, append_assoc, ← append_assoc f]
    exact perm_append_comm
  obtain ⟨hnodup, hbound⟩ := h.nodup_of_perm hperm
  exact ⟨hmerged, h.threadLocal.frame fun c hc => hother c fun hcb => htb c hc c hcb rfl, hempty, hnodup, hbound⟩

theorem mergeBulkToThreadLocal (h : run.Holds n f t b) :
    run.mergeBulkFreeListToThreadLocalFreeList.Holds n f (b ++ t) [] := by
  have hnodup := h.nodup
  rw [nodup_append, nodup_append] at hnodup
  obtain ⟨-, ⟨-, hb, htb⟩, hdisj⟩ := hnodup
  obtain ⟨hmerged, hempty, hother⟩ := h.threadLocal.merge h.bulk (fun c hc hct => htb c hct c hc rfl) hb
  have hperm : (f ++ (b ++ t ++ [])).Perm (f ++ (t ++ b)) := by
    rw [append_nil]
    exact perm_append_comm.append_left f
  obtain ⟨hnodup, hbound⟩ := h.nodup_of_perm hperm
  exact ⟨h.free.frame fun c hc => hother c fun hcb => hdisj c hc c (mem_append_right t hcb) rfl, hmerged, hempty,
    hnodup, hbound⟩

/-! #### A new run -/

/-- A new run has all of its slots on the free list. -/
theorem initFreeList (hle : slot ≤ n) (hnext : ∀ c ≤ slot, run.next c = 0)
    (h : run.Holds n (range' (slot + 1) (n - slot)) [] []) :
    (initFreeList slot run).Holds n (range' 1 n) [] [] := by
  induction slot generalizing run with
  | zero => exact h
  | succ slot ih =>
    have hnot : slot + 1 ∉ range' (slot + 1 + 1) (n - (slot + 1)) := by
      rw [mem_range'_1]
      omega
    obtain ⟨hadd, hother⟩ := h.free.add hnot (Nat.succ_ne_zero slot) (hnext (slot + 1) (Nat.le_refl _))
    have hrange : (slot + 1) :: range' (slot + 1 + 1) (n - (slot + 1)) = range' (slot + 1) (n - slot) := by
      rw [show n - slot = n - (slot + 1) + 1 by omega, range'_succ]
    rw [hrange] at hadd
    refine ih (by omega) (fun c hc => ?_) ?_
    · exact (hother c (by omega)).trans (hnext c (by omega))
    · refine ⟨hadd, h.threadLocal.frame nofun, h.bulk.frame nofun, ?_, fun c hc => ?_⟩
      · rw [append_nil, append_nil]
        exact nodup_range'
      · rw [append_nil, append_nil, mem_range'_1] at hc
        omega

theorem allocated (cfg : Config) (idx : Nat) :
    (allocated cfg idx).Holds (cfg.numOfSlots idx) (range' 1 (cfg.numOfSlots idx)) [] [] := by
  refine initFreeList (Nat.le_refl _) (fun _ _ => rfl) ?_
  rw [Nat.sub_self]
  exact ⟨SlotFreeList.holds_empty, SlotFreeList.holds_empty, SlotFreeList.holds_empty, nodup_nil, nofun⟩

end Holds

/-- The lists of the run have the slots that are not live, and only a thread-local run has a thread-local list. -/
def Ok (cfg : Config) (run : Run) (live : Nat → Prop) : Prop :=
  ∃ f t b, run.Holds (cfg.numOfSlots run.sizeBracketIdx) f t b ∧
    (∀ slot, live slot ↔ 0 < slot ∧ slot ≤ cfg.numOfSlots run.sizeBracketIdx ∧ slot ∉ f ++ (t ++ b)) ∧
    (run.isThreadLocal = false → t = [])

def AllOnFreeList (cfg : Config) (run : Run) : Prop :=
  ∃ f, run.freeList.Holds false run.next f ∧ ∀ slot, 0 < slot → slot ≤ cfg.numOfSlots run.sizeBracketIdx → slot ∈ f

namespace Ok

theorem freed {run' : Run} {f' t' b' : List Nat} (hidx : run'.sizeBracketIdx = run.sizeBracketIdx)
    (hholds : run'.Holds (cfg.numOfSlots run.sizeBracketIdx) f' t' b')
    (hlive : ∀ c, live c ↔ 0 < c ∧ c ≤ cfg.numOfSlots run.sizeBracketIdx ∧ c ∉ f ++ (t ++ b))
    (hmem : ∀ c, c ∈ f' ++ (t' ++ b') ↔ c = slot ∨ c ∈ f ++ (t ++ b)) (ht : run'.isThreadLocal = false → t' = []) :
    run'.Ok cfg fun c => live c ∧ c ≠ slot := by
  refine ⟨f', t', b', hidx ▸ hholds, fun c => ?_, ht⟩
  simp only [hlive c, hmem c, hidx, not_or]
  tauto

variable (h : run.Ok cfg live)

include h

theorem freeSlot (hlive : live slot) (hlocal : run.isThreadLocal = false) :
    (run.freeSlot slot).Ok cfg (fun c => live c ∧ c ≠ slot) ∧ (run.freeSlot slot).isFull = false := by
  obtain ⟨f, t, b, hholds, hiff, ht⟩ := h
  obtain ⟨hpos, hle, hnot⟩ := (hiff slot).mp hlive
  have hfree := hholds.freeSlot hnot (by omega) hle
  refine ⟨freed rfl hfree hiff (fun c => ?_) fun _ => ht hlocal, hfree.isFull_eq_false.mpr nofun⟩
  rw [cons_append, mem_cons]

theorem addToThreadLocalFreeList (hlive : live slot) (hlocal : run.isThreadLocal = true) :
    (run.addToThreadLocalFreeList slot).Ok cfg fun c => live c ∧ c ≠ slot := by
  obtain ⟨f, t, b, hholds, hiff, -⟩ := h
  obtain ⟨hpos, hle, hnot⟩ := (hiff slot).mp hlive
  refine freed rfl (hholds.addToThreadLocalFreeList hnot (by omega) hle) hiff (fun c => ?_) fun hnot => ?_
  · simp only [mem_append, mem_cons]
    tauto
  · exact absurd hlocal (ne_true_of_eq_false hnot)

theorem addToBulkFreeList (hlive : live slot) : (run.addToBulkFreeList slot).Ok cfg (fun c => live c ∧ c ≠ slot) ∧
      (run.addToBulkFreeList slot).isFull = run.isFull := by
  obtain ⟨f, t, b, hholds, hiff, ht⟩ := h
  obtain ⟨hpos, hle, hnot⟩ := (hiff slot).mp hlive
  refine ⟨freed rfl (hholds.addToBulkFreeList hnot (by omega) hle) hiff (fun c => ?_) ht, rfl⟩
  simp only [mem_append, mem_cons]
  tauto

omit h

theorem addToBulkFreeList_size (run : Run) (slot : Nat) : (run.addToBulkFreeList slot).bulkFreeList.size ≠ 0 := by
  unfold Run.addToBulkFreeList SlotFreeList.add
  dsimp only
  split_ifs <;> exact Nat.succ_ne_zero _

include h

/-- A full run gives no slot; another gives one that is not live. -/
theorem allocSlot : (run.isFull = true ∧ run.allocSlot = (0, run)) ∨
    (run.isFull = false ∧ ∃ slot run', run.allocSlot = (slot, run') ∧ 0 < slot ∧
      slot ≤ cfg.numOfSlots run.sizeBracketIdx ∧ ¬ live slot ∧ run'.sizeBracketIdx = run.sizeBracketIdx ∧
      run'.isThreadLocal = run.isThreadLocal ∧ run'.bulkFreeList = run.bulkFreeList ∧
      run'.Ok cfg fun c => live c ∨ c = slot) := by
  obtain ⟨f, t, b, hholds, hiff, ht⟩ := h
  cases f with
  | nil => exact .inl ⟨hholds.isFull_iff.mpr rfl, hholds.allocSlot_nil⟩
  | cons slot f =>
    have hmem : slot ∈ slot :: f ++ (t ++ b) := mem_cons_self
    have hpos : 0 < slot := Nat.pos_of_ne_zero fun hzero => hholds.nonnull (hzero ▸ hmem)
    obtain ⟨run', halloc, hholds', hidx, hlocal, hbulk⟩ := hholds.allocSlot_cons
    refine .inr ⟨hholds.isFull_eq_false.mpr nofun, slot, run', halloc, hpos, hholds.le slot hmem,
      fun hlive => ((hiff slot).mp hlive).2.2 hmem, hidx, hlocal, hbulk, f, t, b, hidx ▸ hholds', fun c => ?_,
      hlocal ▸ ht⟩
    have hnodup := hholds.nodup
    rw [cons_append, nodup_cons] at hnodup
    simp only [hiff c, hidx, cons_append, mem_cons, not_or]
    constructor
    · rintro (⟨hc, hcle, -, hcnot⟩ | rfl)
      · exact ⟨hc, hcle, hcnot⟩
      · exact ⟨hpos, hholds.le c hmem, hnodup.1⟩
    · rintro ⟨hc, hcle, hcnot⟩
      by_cases heq : c = slot
      · exact .inr heq
      · exact .inl ⟨hc, hcle, heq, hcnot⟩

theorem write (hlive : live slot) (value : Nat) : { run with next := update run.next slot value }.Ok cfg live := by
  obtain ⟨f, t, b, hholds, hiff, ht⟩ := h
  exact ⟨f, t, b, hholds.frame ((hiff slot).mp hlive).2.2 value, hiff, ht⟩

omit h

/-- The same slots are live when slots go from one list to another. -/
theorem moved {run' : Run} {f' t' b' : List Nat} (hidx : run'.sizeBracketIdx = run.sizeBracketIdx)
    (hholds : run'.Holds (cfg.numOfSlots run.sizeBracketIdx) f' t' b')
    (hlive : ∀ c, live c ↔ 0 < c ∧ c ≤ cfg.numOfSlots run.sizeBracketIdx ∧ c ∉ f ++ (t ++ b))
    (hmem : ∀ c, c ∈ f' ++ (t' ++ b') ↔ c ∈ f ++ (t ++ b)) (ht : run'.isThreadLocal = false → t' = []) :
    run'.Ok cfg live := by
  refine ⟨f', t', b', hidx ▸ hholds, fun c => ?_, ht⟩
  rw [hlive c, hmem c, hidx]

include h in
theorem mergeThreadLocal (isThreadLocal : Bool) :
    (run.mergeThreadLocalFreeListToFreeList.2.setIsThreadLocal isThreadLocal).Ok cfg live := by
  obtain ⟨f, t, b, hholds, hiff, -⟩ := h
  have hmerged := hholds.mergeThreadLocal
  refine moved rfl ⟨hmerged.free, hmerged.threadLocal, hmerged.bulk, hmerged.nodup, hmerged.le⟩ hiff (fun c => ?_)
    fun _ => rfl
  simp only [mem_append, not_mem_nil]
  tauto

theorem mergeThreadLocal_fst (hfull : run.isFull = true) :
    run.mergeThreadLocalFreeListToFreeList.1 = !run.mergeThreadLocalFreeListToFreeList.2.isFull := by
  have hsize : run.freeList.size = 0 := of_decide_eq_true hfull
  unfold mergeThreadLocalFreeListToFreeList isFull
  rw [hsize]
  simp [Nat.pos_iff_ne_zero]

include h

theorem mergeBulk (hlocal : run.isThreadLocal = false) : run.mergeBulkFreeListToFreeList.Ok cfg live := by
  obtain ⟨f, t, b, hholds, hiff, ht⟩ := h
  refine moved rfl hholds.mergeBulk hiff (fun c => ?_) fun _ => ht hlocal
  simp only [mem_append, not_mem_nil]
  tauto

/-- A run that had a free slot, or one freed in bulk, has a free slot after the merge. -/
theorem mergeBulk_isFull (hsome : run.isFull = false ∨ run.bulkFreeList.size ≠ 0) :
    run.mergeBulkFreeListToFreeList.isFull = false := by
  obtain ⟨f, t, b, hholds, -, -⟩ := h
  rw [hholds.isFull_eq_false, Ne, Ne, hholds.bulk.size_eq_zero] at hsome
  rw [hholds.mergeBulk.isFull_eq_false, Ne, append_eq_nil_iff]
  exact fun hnil => hsome.elim (fun hf => hf hnil.2) fun hb => hb hnil.1

theorem mergeBulkToThreadLocal (hlocal : run.isThreadLocal = true) :
    run.mergeBulkFreeListToThreadLocalFreeList.Ok cfg live := by
  obtain ⟨f, t, b, hholds, hiff, -⟩ := h
  refine moved rfl hholds.mergeBulkToThreadLocal hiff (fun c => ?_) fun hnot => absurd hlocal (ne_true_of_eq_false hnot)
  simp only [mem_append, not_mem_nil]
  tauto

theorem setIsThreadLocal (hlocal : run.isThreadLocal = false) (isThreadLocal : Bool) :
    (run.setIsThreadLocal isThreadLocal).Ok cfg live := by
  obtain ⟨f, t, b, hholds, hiff, ht⟩ := h
  exact ⟨f, t, b, ⟨hholds.free, hholds.threadLocal, hholds.bulk, hholds.nodup, hholds.le⟩, hiff, fun _ => ht hlocal⟩

/-- Where all slots are counted on the free list, they are there, none is live and none on another list. -/
theorem isAllFree (hall : run.isAllFree cfg = true) :
    run.AllOnFreeList cfg ∧ (∀ slot, ¬ live slot) ∧ run.bulkFreeList.size = 0 := by
  obtain ⟨f, t, b, hholds, hiff, -⟩ := h
  have hlength : f.length = cfg.numOfSlots run.sizeBracketIdx := hholds.free.size.symm.trans (of_decide_eq_true hall)
  have hsub : f.toFinset ⊆ Finset.Icc 1 (cfg.numOfSlots run.sizeBracketIdx) := fun c hc => by
    have hmem : c ∈ f ++ (t ++ b) := mem_append_left _ (mem_toFinset.mp hc)
    exact Finset.mem_Icc.mpr ⟨Nat.pos_of_ne_zero fun hzero => hholds.nonnull (hzero ▸ hmem), hholds.le c hmem⟩
  have hcard : (Finset.Icc 1 (cfg.numOfSlots run.sizeBracketIdx)).card ≤ f.toFinset.card := by
    rw [Nat.card_Icc, toFinset_card_of_nodup (nodup_append.mp hholds.nodup).1]
    omega
  have hmem : ∀ slot, 0 < slot → slot ≤ cfg.numOfSlots run.sizeBracketIdx → slot ∈ f := fun slot hpos hle => by
    rw [← mem_toFinset, Finset.eq_of_subset_of_card_le hsub hcard]
    exact Finset.mem_Icc.mpr ⟨hpos, hle⟩
  refine ⟨⟨f, hholds.free, hmem⟩, fun slot hlive => ?_, hholds.bulk.size_eq_zero.mpr ?_⟩
  · obtain ⟨hpos, hle, hnot⟩ := (hiff slot).mp hlive
    exact hnot (mem_append_left _ (hmem slot hpos hle))
  · refine eq_nil_iff_forall_not_mem.mpr fun slot hslot => ?_
    have hother : slot ∈ t ++ b := mem_append_right t hslot
    have hall := mem_append_right f hother
    have hpos := Nat.pos_of_ne_zero fun hzero => hholds.nonnull (hzero ▸ hall)
    exact (nodup_append.mp hholds.nodup).2.2 slot (hmem slot hpos (hholds.le slot hall)) slot hother rfl

end Ok

theorem initFreeList_header (slot : Nat) (run : Run) : (initFreeList slot run).sizeBracketIdx = run.sizeBracketIdx ∧
    (initFreeList slot run).isThreadLocal = run.isThreadLocal := by
  induction slot generalizing run with
  | zero => exact ⟨rfl, rfl⟩
  | succ slot ih => exact ih _

theorem allocated_ok (cfg : Config) (idx : Nat) :
    (allocated cfg idx).Ok cfg (fun _ => False) ∧ (allocated cfg idx).sizeBracketIdx = idx ∧
      (allocated cfg idx).isThreadLocal = false ∧ (allocated cfg idx).isFull = false := by
  obtain ⟨hidx, hlocal⟩ := initFreeList_header (cfg.numOfSlots idx) ⟨idx, false, fun _ => 0, .empty, .empty, .empty⟩
  have hidx : (allocated cfg idx).sizeBracketIdx = idx := hidx
  have hholds := Holds.allocated cfg idx
  have hpos := cfg.numOfSlots_pos idx
  refine ⟨⟨range' 1 (cfg.numOfSlots idx), [], [], ?_, fun slot => ?_, fun _ => rfl⟩, hidx, hlocal, ?_⟩
  · rwa [hidx]
  · rw [hidx, append_nil, append_nil, mem_range'_1, false_iff]
    omega
  · refine hholds.isFull_eq_false.mpr fun hnil => ?_
    have := congrArg length hnil
    rw [length_range', length_nil] at this
    omega

end Run

end Art.RosAllocRuns
