import Art.Runtime.ImmuneSpaces
import Mathlib.Data.List.Induction

/-! The immune region found is a longest one: regions that end where the current one ends have at most its heap
    bytes, and no gap-free region of the intervals seen so far ends behind it. -/

namespace Art.Gc.ImmuneSpaces
open List

def Interval.heapBytes (i : Interval) : Nat := if i.isHeap then i.stop - i.start else 0

/-- Intervals of `l`, each starting where the one before it ends and the first one a heap interval, lead from `b` to
    `e` with `n` bytes of heap; `last` is whether the last of them is a heap interval. -/
inductive GapFree (l : List Interval) (b : Nat) : (e n : Nat) → (last : Bool) → Prop
  | first {i : Interval} (hi : i ∈ l) (hb : i.start = b) (hheap : i.isHeap = true) : GapFree l b i.stop i.heapBytes true
  | next {e n : Nat} {last : Bool} {i : Interval} (h : GapFree l b e n last) (hi : i ∈ l) (he : i.start = e) :
    GapFree l b i.stop (n + i.heapBytes) i.isHeap

/-- Intervals of the address space, one of any two of which ends before the other one starts. -/
structure Separate (l : List Interval) : Prop where
  valid : ∀ i ∈ l, i.start ≤ i.stop ∧ i.stop < 2 ^ 64
  disjoint : l.Pairwise fun a b => a.stop ≤ b.start ∨ b.stop ≤ a.start

theorem GapFree.mono {l l' : List Interval} (hl : l ⊆ l') {b e n : Nat} {last : Bool} (h : GapFree l b e n last) :
    GapFree l' b e n last := by
  induction h with
  | first hi hb hheap => exact first (hl hi) hb hheap
  | next _ hi he ih => exact next ih (hl hi) he

section Step

variable {pre : List Interval} {x : Interval} (hpre : ∀ i ∈ pre, i.start ≤ i.stop ∧ i.stop ≤ x.start)
  (hx : x.start ≤ x.stop ∧ x.stop < 2 ^ 64)
include hpre hx

/-- A new last interval is not used, or it starts the region, or ends it. -/
theorem GapFree.of_append {b e n : Nat} {last : Bool} (h : GapFree (pre ++ [x]) b e n last) :
    GapFree pre b e n last ∨ e = x.stop ∧ (x.isHeap = true ∧ n = x.heapBytes ∨
      ∃ m last', GapFree pre b x.start m last' ∧ n = m + x.heapBytes ∧ last = x.isHeap) := by
  obtain ⟨hx, -⟩ := hx
  have hempty : x.start = x.stop → x.heapBytes = 0 := by simp [Interval.heapBytes]; omega
  induction h with
  | first hi hb hheap =>
    rcases mem_append.mp hi with hi | hi
    · exact Or.inl (first hi hb hheap)
    · rw [mem_singleton.mp hi] at hheap ⊢
      exact Or.inr ⟨rfl, Or.inl ⟨hheap, rfl⟩⟩
  | @next e n last i _ hi he ih =>
    rcases mem_append.mp hi with hi | hi
    · rcases ih with h | ⟨hend, h⟩
      · exact Or.inl (h.next hi he)
      -- behind `x` only empty intervals of `pre` can follow, and then `x` is empty as well
      have hi' := hpre i hi
      have hsize : i.heapBytes = 0 := by simp [Interval.heapBytes]; omega
      rcases h with ⟨hheap, rfl⟩ | ⟨m, last', h, rfl, -⟩
      · exact Or.inr ⟨by omega, Or.inl ⟨hheap, by omega⟩⟩
      · have hm := h.next hi (by omega)
        rw [hempty (by omega)]
        exact Or.inl hm
    · cases mem_singleton.mp hi
      rcases ih with h | ⟨hend, h⟩
      · exact Or.inr ⟨rfl, Or.inr ⟨n, last, he ▸ h, rfl, rfl⟩⟩
      have := hempty (by omega)
      rcases h with ⟨hheap, rfl⟩ | ⟨m, last', h, rfl, -⟩
      · exact Or.inr ⟨rfl, Or.inl ⟨hheap, by omega⟩⟩
      · exact Or.inr ⟨rfl, Or.inr ⟨m, last', h, by omega, rfl⟩⟩

/-- The loop has seen the intervals `pre`. -/
structure Inv (pre : List Interval) (s : Regions) : Prop where
  curEnd_le : ∀ y, (∀ i ∈ pre, i.stop ≤ y) → s.curEnd ≤ y
  fits : s.curBegin + s.curHeapSize ≤ s.curEnd
  cur : s.curEnd = 0 ∨ ∃ last, GapFree pre s.curBegin s.curEnd s.curHeapSize last
  best : s.bestHeapSize = 0 ∧ s.bestBegin = s.bestEnd ∨ GapFree pre s.bestBegin s.bestEnd s.bestHeapSize true
  longest : ∀ {b e n last}, GapFree pre b e n last → e ≤ s.curEnd ∧ (e = s.curEnd → n ≤ s.curHeapSize) ∧
    (last = true → n ≤ s.bestHeapSize)

omit hpre hx in
theorem inv_init : Inv [] {} where
  curEnd_le y _ := Nat.zero_le y
  fits := Nat.le_refl 0
  cur := Or.inl rfl
  best := Or.inl ⟨rfl, rfl⟩
  longest h := by induction h with
    | first hi | next _ hi => exact absurd hi not_mem_nil

omit hpre in
theorem extend_eq {s : Regions} (hfits : s.curBegin + s.curHeapSize ≤ x.start) : ∃ bb be n,
    s.extend x = ⟨bb, be, n, s.curBegin, x.stop, s.curHeapSize + x.heapBytes⟩ ∧ s.bestHeapSize ≤ n ∧
    (x.isHeap = true → s.curHeapSize + x.heapBytes ≤ n) ∧
    (bb = s.bestBegin ∧ be = s.bestEnd ∧ n = s.bestHeapSize ∨
      x.isHeap = true ∧ bb = s.curBegin ∧ be = x.stop ∧ n = s.curHeapSize + x.heapBytes) := by
  have hmod : (s.curHeapSize + (x.stop - x.start)) % 2 ^ 64 = s.curHeapSize + (x.stop - x.start) :=
    Nat.mod_eq_of_lt (by omega)
  simp only [Regions.extend, Interval.heapBytes, hmod]
  split_ifs with hheap hmore
  · exact ⟨_, _, _, rfl, hmore.le, fun _ => le_rfl, Or.inr ⟨hheap, rfl, rfl, rfl⟩⟩
  · exact ⟨_, _, _, rfl, le_rfl, fun _ => not_lt.mp hmore, Or.inl ⟨rfl, rfl, rfl⟩⟩
  · exact ⟨_, _, _, rfl, le_rfl, fun h => absurd h hheap, Or.inl ⟨rfl, rfl, rfl⟩⟩

/-- The invariant after a space, given the current region with it. -/
theorem Inv.extend {s : Regions} (hfits : s.curBegin + s.curHeapSize ≤ x.start)
    (hcur : GapFree (pre ++ [x]) s.curBegin x.stop (s.curHeapSize + x.heapBytes) x.isHeap)
    (hbest : s.bestHeapSize = 0 ∧ s.bestBegin = s.bestEnd ∨ GapFree pre s.bestBegin s.bestEnd s.bestHeapSize true)
    (hlongest : ∀ {b e n last}, GapFree pre b e n last → e ≤ x.start ∧ (e = x.start → n ≤ s.curHeapSize) ∧
      (last = true → n ≤ s.bestHeapSize)) : Inv (pre ++ [x]) (s.extend x) := by
  obtain ⟨bb, be, best, heq, hbest_le, hheap_le, hnew⟩ := extend_eq hx hfits
  rw [heq]
  refine ⟨fun y hy => hy x (by simp), ?_, Or.inr ⟨_, hcur⟩, ?_, fun {b e n last} h => ?_⟩
  · change s.curBegin + (s.curHeapSize + x.heapBytes) ≤ x.stop
    unfold Interval.heapBytes
    split <;> omega
  · rcases hnew with ⟨rfl, rfl, rfl⟩ | ⟨hheap, rfl, rfl, rfl⟩
    · exact hbest.imp_right (·.mono (subset_append_left ..))
    · exact Or.inr (hheap ▸ hcur)
  · change e ≤ x.stop ∧ (e = x.stop → n ≤ s.curHeapSize + x.heapBytes) ∧ (last = true → n ≤ best)
    rcases h.of_append hpre hx with h | ⟨rfl, ⟨hheap, rfl⟩ | ⟨m, last', h', rfl, rfl⟩⟩
    · obtain ⟨hle, hn, hlast⟩ := hlongest h
      exact ⟨hle.trans hx.1, fun _ => (hn (by omega)).trans (by omega), fun hl => (hlast hl).trans hbest_le⟩
    · exact ⟨le_rfl, fun _ => by omega, fun _ => (hheap_le hheap).trans' (by omega)⟩
    · have hm := (hlongest h').2.1 rfl
      exact ⟨le_rfl, fun _ => by omega, fun hl => (hheap_le hl).trans' (by omega)⟩

/-- A space extends the current region or starts a new one. -/
theorem Inv.visit {s : Regions} (h : Inv pre s) (hzero : x.isHeap = false → x.start ≠ 0) :
    Inv (pre ++ [x]) (s.visit x) := by
  have hle : s.curEnd ≤ x.start := h.curEnd_le _ fun i hi => (hpre i hi).2
  have hmem : x ∈ pre ++ [x] := mem_append_right _ (mem_singleton.mpr rfl)
  have hsub : pre ⊆ pre ++ [x] := subset_append_left ..
  unfold Regions.visit
  split_ifs with hend hheap
  · refine Inv.extend hpre hx le_rfl ?_ h.best fun hg => ?_
    · rw [Nat.zero_add, hheap]
      exact .first hmem rfl hheap
    · obtain ⟨he, -, hlast⟩ := h.longest hg
      exact ⟨he.trans hle, fun heq => absurd (heq ▸ he) (by omega), hlast⟩
  · refine ⟨fun y hy => h.curEnd_le y fun i hi => hy i (hsub hi), h.fits, ?_, ?_, fun hg => ?_⟩
    · exact h.cur.imp_right fun ⟨last, hcur⟩ => ⟨last, hcur.mono hsub⟩
    · exact h.best.imp_right (·.mono hsub)
    · rcases hg.of_append hpre hx with hg | ⟨-, ⟨hh, -⟩ | ⟨m, last', hg, -, -⟩⟩
      · exact h.longest hg
      · exact absurd hh hheap
      · exact absurd (h.longest hg).1 (by omega)
  · have hend : x.start = s.curEnd := not_not.mp hend
    refine Inv.extend hpre hx (hend ▸ h.fits) ?_ h.best (hend ▸ h.longest)
    rcases h.cur with h0 | ⟨last, hcur⟩
    · have hfits := h.fits
      have hheap : x.isHeap = true := by
        by_contra hne
        exact hzero (eq_false_of_ne_true hne) (by omega)
      rw [show s.curHeapSize = 0 by omega, Nat.zero_add, hheap]
      exact .first hmem (by omega) hheap
    · exact (hcur.mono hsub).next hmem hend

end Step

theorem inv_foldl {l : List Interval} (hvalid : ∀ i ∈ l, i.start ≤ i.stop ∧ i.stop < 2 ^ 64)
    (hl : l.Pairwise fun a b => a.stop ≤ b.start) (hzero : ∀ i ∈ l, i.isHeap = false → i.start ≠ 0) :
    Inv l (l.foldl Regions.visit {}) := by
  induction l using List.reverseRecOn with
  | nil => exact inv_init
  | append_singleton pre x ih =>
    simp only [mem_append, mem_singleton] at hvalid hzero
    obtain ⟨hpre, -, hlast⟩ := pairwise_append.mp hl
    rw [foldl_append]
    refine Inv.visit (fun i hi => ⟨(hvalid i (Or.inl hi)).1, hlast i hi x (by simp)⟩) (hvalid x (Or.inr rfl)) ?_
      (hzero x (Or.inr rfl))
    exact ih (fun i hi => hvalid i (Or.inl hi)) hpre fun i hi => hzero i (Or.inl hi)

theorem pairwise_insertionSort_le (l : List Interval) : (l.insertionSort Interval.le).Pairwise Interval.le := by
  have : Std.Total Interval.le := ⟨fun _ _ => le_total ..⟩
  have : IsTrans Interval Interval.le := ⟨fun _ _ _ => le_trans⟩
  exact pairwise_insertionSort ..

/-- Of disjoint intervals in the order of the tuples, each ends before the next one starts. -/
theorem Separate.sort {l : List Interval} (h : Separate l) :
    (l.insertionSort Interval.le).Pairwise fun a b => a.stop ≤ b.start := by
  have hperm := perm_insertionSort Interval.le l
  have hdisj := (hperm.pairwise_iff fun h => h.symm).mpr h.disjoint
  refine (hdisj.and (pairwise_insertionSort_le l)).imp_of_mem fun {a b} ha hb hab => ?_
  have hva := h.valid a (hperm.mem_iff.mp ha)
  have hvb := h.valid b (hperm.mem_iff.mp hb)
  obtain ⟨hab | hba, hle⟩ := hab
  · exact hab
  -- otherwise `b` is empty and where `a` starts, so that `a` is empty as well
  rcases Prod.Lex.toLex_le_toLex.mp hle with hlt | ⟨heq, hle⟩
  · exact absurd hlt (by omega)
  · have hstop : a.stop ≤ b.stop := (Prod.Lex.toLex_le_toLex.mp hle).elim le_of_lt fun h => h.1.le
    omega

/-- Only heap intervals can be at the address 0. -/
theorem start_ne_zero {spaces : List ContinuousSpace} {i : Interval} (hi : i ∈ intervals spaces)
    (hoat : i.isHeap = false) : i.start ≠ 0 := by
  obtain ⟨space, -, hi⟩ := mem_flatMap.mp hi
  unfold ContinuousSpace.intervals at hi
  split at hi
  · cases mem_singleton.mp hi
    cases hoat
  · rcases mem_append.mp hi with hi | hi
    · obtain ⟨oat, -, rfl⟩ := mem_map.mp hi
      exact oat.start_ne_zero
    · cases mem_singleton.mp hi
      cases hoat

/-- The region chosen is gap-free, ends with a heap space and has the most bytes of heap. -/
theorem createLargestImmuneRegion_longest (spaces : List ContinuousSpace) (hspaces : Separate (intervals spaces)) :
    ∃ b e n, createLargestImmuneRegion spaces = (b, e) ∧
      (GapFree (intervals spaces) b e n true ∨
        n = 0 ∧ b = e ∧ ∀ i ∈ intervals spaces, i.isHeap = true → i.stop = i.start) ∧
      ∀ b' e' m, GapFree (intervals spaces) b' e' m true → m ≤ n := by
  have hmem : ∀ {i}, i ∈ (intervals spaces).insertionSort Interval.le ↔ i ∈ intervals spaces := mem_insertionSort _
  have hinv := inv_foldl (fun i hi => hspaces.valid i (hmem.mp hi)) hspaces.sort fun i hi => start_ne_zero (hmem.mp hi)
  have hmax : ∀ b e m, GapFree (intervals spaces) b e m true → m ≤ _ := fun b e m h =>
    (hinv.longest (h.mono fun i => hmem.mpr)).2.2 rfl
  refine ⟨_, _, _, rfl, ?_, hmax⟩
  rcases hinv.best with ⟨hsize, heq⟩ | hbest
  · refine Or.inr ⟨hsize, heq, fun i hi hheap => ?_⟩
    have hle := hmax _ _ _ (.first hi rfl hheap)
    have hvalid := hspaces.valid i hi
    rw [hsize, Interval.heapBytes, if_pos hheap] at hle
    omega
  · exact Or.inl (hbest.mono fun i => hmem.mp)

theorem createLargestImmuneRegion_longest_boot :
    ∃ n, GapFree (intervals [⟨4096, 8192, some ⟨8192, some ⟨8192, 9000, by decide⟩⟩⟩]) 4096 8192 n true := by
  obtain ⟨b, e, n, heq, h, -⟩ := createLargestImmuneRegion_longest
    [⟨4096, 8192, some ⟨8192, some ⟨8192, 9000, by decide⟩⟩⟩] ⟨by decide, by decide⟩
  rw [show createLargestImmuneRegion _ = (4096, 8192) by decide] at heq
  cases heq
  exact ⟨n, h.resolve_right fun h => absurd h.2.1 (by decide)⟩

end Art.Gc.ImmuneSpaces
