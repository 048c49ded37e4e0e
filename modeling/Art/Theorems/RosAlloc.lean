import Art.Lib.Segments
import Art.Runtime.RosAlloc

/-! The pages of the allocator: free page runs and allocated ranges divide the space, and the page map says which
    pages belong to which allocation. -/

namespace Art.RosAlloc
open List Function

open Lib (Partition)

/-- The ranges of pages by their first page; the owner of a free one is `none`. -/
abbrev Ranges := Nat → Option (Nat × Option PageMapType)

variable {cfg : Config} {s s' : State} {seg : Ranges} {f p q n k req inc : Nat} {t : PageMapType}

/-- What holds at any time, also while a free page run is not in the set. -/
structure Base (s : State) (seg : Ranges) : Prop where
  part : Partition seg s.footprint
  footprint_le : s.footprint ≤ s.capacity
  pageMapSize : s.pageMapSize = s.footprint
  size : ∀ {p n}, seg p = some (n, none) → s.size p = n
  marked : ∀ {p n t}, seg p = some (n, some t) →
    s.pageMap p = t.first ∧ ∀ i, p < i → i < p + n → s.pageMap i = t.part
  free : ∀ {p n}, seg p = some (n, none) → ∀ i, p ≤ i → i < p + n → (s.pageMap i).isFreePage = true
  beyond : ∀ i, s.footprint ≤ i → (s.pageMap i).isFreePage = true

/-- The free page runs are the free ranges, and no two of them touch. -/
structure Inv (s : State) (seg : Ranges) : Prop extends Base s seg where
  runs : ∀ p, p ∈ s.freePageRuns.keys ↔ ∃ n, seg p = some (n, none)
  /-- No two free page runs are neighbours. -/
  apart : ∀ {p n k}, seg p = some (n, none) → seg (p + n) ≠ some (k, none)

/-- While the free page run `f` is not in the set and may have free neighbours. -/
structure Open (s : State) (seg : Ranges) (f : Nat) : Prop extends Base s seg where
  isFree : ∃ n, seg f = some (n, none)
  runs : ∀ p, p ∈ s.freePageRuns.keys ↔ p ≠ f ∧ ∃ n, seg p = some (n, none)
  apart : ∀ {p n k}, p ≠ f → p + n ≠ f → seg p = some (n, none) → seg (p + n) ≠ some (k, none)

/-- A range that a step keeps, with its pages. -/
def Kept (s s' : State) (seg : Ranges) (q k : Nat) (o : Option PageMapType) : Prop :=
  seg q = some (k, o) ∧ s'.size q = s.size q ∧ ∀ i, q ≤ i → i < q + k → s'.pageMap i = s.pageMap i

/-- A range as it has to be recorded. -/
def Recorded (s : State) (q k : Nat) : Option PageMapType → Prop
  | none => s.size q = k ∧ ∀ i, q ≤ i → i < q + k → (s.pageMap i).isFreePage = true
  | some t => s.pageMap q = t.first ∧ ∀ i, q < i → i < q + k → s.pageMap i = t.part

/-- A step keeps the page map right when each new range was there or is recorded. -/
theorem Base.step {seg' : Ranges} (h : Base s seg) (hpart : Partition seg' s'.footprint)
    (hle : s'.footprint ≤ s'.capacity) (hsize : s'.pageMapSize = s'.footprint)
    (hbeyond : ∀ i, s'.footprint ≤ i → (s'.pageMap i).isFreePage = true)
    (hseg : ∀ {q k o}, seg' q = some (k, o) → Kept s s' seg q k o ∨ Recorded s' q k o) : Base s' seg' where
  part := hpart
  footprint_le := hle
  pageMapSize := hsize
  size hq := by
    rcases hseg hq with ⟨hq', hsame, -⟩ | hrec
    · rw [hsame, h.size hq']
    · exact hrec.1
  marked {q k t} hq := by
    rcases hseg hq with ⟨hq', -, hsame⟩ | hrec
    · obtain ⟨hfirst, hmark⟩ := h.marked hq'
      have hpos := hpart.pos hq
      exact ⟨(hsame q (Nat.le_refl q) (by omega)).trans hfirst, fun i h1 h2 => (hsame i h1.le h2).trans (hmark i h1 h2)⟩
    · exact hrec
  free hq i h1 h2 := by
    rcases hseg hq with ⟨hq', -, hsame⟩ | hrec
    · rw [hsame i h1 h2]
      exact h.free hq' i h1 h2
    · exact hrec.2 i h1 h2
  beyond := hbeyond

/-! ### Allocation -/

theorem Inv.getLast?_keys (h : Inv s seg) (hp : seg p = some (n, none)) (hend : p + n = s.footprint) :
    s.freePageRuns.keys.getLast? = some p := by
  refine Lib.OrderedMap.getLast?_keys.mpr ⟨(h.runs p).mpr ⟨n, hp⟩, fun b hb => ?_⟩
  obtain ⟨k, hk⟩ := (h.runs b).mp hb
  have hpos := h.part.pos hk
  have hle := h.part.le hk
  by_contra hlt
  have := h.part.apart hp hk (Nat.not_le.mp hlt)
  omega

/-- The last free page run, if it ends at the footprint. -/
theorem Inv.lastRun_some (h : Inv s seg) : s.lastRun = some p ↔ ∃ n, seg p = some (n, none) ∧ p + n = s.footprint := by
  have hspec : s.lastRun = some p ↔ s.freePageRuns.keys.getLast? = some p ∧ s.runEnd p = s.footprint := by
    rw [State.lastRun]
    rcases s.freePageRuns.keys.getLast? with _ | last
    · simp
    by_cases hend : s.runEnd last = s.footprint
    · simp only [hend, if_true, Option.some.injEq]
      exact ⟨fun heq => ⟨heq, heq ▸ hend⟩, fun heq => heq.1⟩
    · simp only [hend, if_false, Option.some.injEq, reduceCtorEq, false_iff]
      rintro ⟨rfl, hend'⟩
      exact hend hend'
  rw [hspec]
  constructor
  · rintro ⟨hlast, hend⟩
    obtain ⟨n, hn⟩ := (h.runs p).mp (Lib.OrderedMap.getLast?_keys.mp hlast).1
    rw [State.runEnd, h.size hn] at hend
    exact ⟨n, hn, hend⟩
  · rintro ⟨n, hn, hend⟩
    exact ⟨h.getLast?_keys hn hend, by rw [State.runEnd, h.size hn, hend]⟩

/-- The ranges after the first pages of a free run have been allocated. -/
def Ranges.take (seg : Ranges) (f n req : Nat) (t : PageMapType) : Ranges :=
  if req < n then update (update seg f (some (req, some t))) (f + req) (some (n - req, none))
  else update seg f (some (n, some t))

/-- The ranges after taking pages from the front of a free one. -/
theorem Ranges.take_eq_some {bound : Nat} {o : Option PageMapType} (h : Partition seg bound)
    (hf : seg f = some (n, none))
    (hreq : 0 < req) (hle : req ≤ n) : seg.take f n req t q = some (k, o) ↔
      (q = f ∧ k = req ∧ o = some t) ∨ (req < n ∧ q = f + req ∧ k = n - req ∧ o = none) ∨
      (q ≠ f ∧ seg q = some (k, o)) := by
  rw [Ranges.take]
  split_ifs with hlt
  · have hinside := h.inside hf (show f < f + req by omega) (by omega)
    by_cases h1 : q = f + req
    · subst h1
      rw [update_self, hinside]
      simp [hreq.ne', hlt, eq_comm]
    rw [update_of_ne h1]
    by_cases h2 : q = f
    · subst h2
      simp [eq_comm, hreq.ne']
    · rw [update_of_ne h2]
      simp [h1, h2]
  · obtain rfl : req = n := by omega
    by_cases h2 : q = f
    · subst h2
      simp [eq_comm]
    · rw [update_of_ne h2]
      simp [h2]

theorem Ranges.take_partition {bound : Nat} (h : Partition seg bound) (hf : seg f = some (n, none)) (hreq : 0 < req) :
    Partition (seg.take f n req t) bound := by
  rw [Ranges.take]
  split_ifs with hlt
  · exact h.split hf hreq hlt _ _
  · exact h.relabel hf _

/-- What taking a run changes. -/
theorem takeRun_eq (s : State) (f req : Nat) :
    (s.takeRun f req).footprint = s.footprint ∧ (s.takeRun f req).capacity = s.capacity ∧
      (s.takeRun f req).pageMapSize = s.pageMapSize ∧ (s.takeRun f req).pageMap = s.pageMap ∧
      (∀ q, q ≠ f → (s.takeRun f req).size q = if req < s.size f ∧ q = f + req then s.size f - req else s.size q) ∧
      ∀ q, q ∈ (s.takeRun f req).freePageRuns.keys ↔ (req < s.size f ∧ q = f + req) ∨
      (q ≠ f ∧ q ∈ s.freePageRuns.keys) := by
  rw [State.takeRun]
  split_ifs with hlt
  · refine ⟨rfl, rfl, rfl, rfl, fun q hq => ?_, fun q => ?_⟩
    · by_cases h1 : q = f + req
      · subst h1
        rw [if_pos ⟨hlt, rfl⟩]
        simp [State.size, State.setSize, State.insert, State.erase, update_of_ne hq]
      · rw [if_neg fun h => h1 h.2]
        simp [State.size, State.setSize, State.insert, State.erase, update_of_ne hq, h1]
    · simp [State.setSize, State.insert, State.erase, Lib.OrderedSet.mem_insert, Lib.OrderedMap.mem_keys_erase, hlt]
  · refine ⟨rfl, rfl, rfl, rfl, fun q hq => ?_, fun q => ?_⟩
    · rw [if_neg fun h => hlt h.1]
      rfl
    · simp [State.erase, Lib.OrderedMap.mem_keys_erase, hlt]

/-- Taking pages from a free run allocates them. -/
theorem Inv.take (h : Inv s seg) (hf : seg f = some (n, none)) (hreq : 0 < req) (hle : req ≤ n) :
    Inv ((s.takeRun f req).markPages f req t) (seg.take f n req t) := by
  have hsize := h.size hf
  have hcases := fun {q k o} => Ranges.take_eq_some (t := t) (q := q) (k := k) (o := o) h.part hf hreq hle
  obtain ⟨hfoot, hcap, hpms, hpm, hsizes, hkeys⟩ := takeRun_eq s f req
  rw [hsize] at hsizes hkeys
  have hout : ∀ i, ¬(f ≤ i ∧ i < f + req) → ((s.takeRun f req).markPages f req t).pageMap i = s.pageMap i :=
    fun i hi => by
    simp only [State.markPages, hpm]
    rw [if_neg (by omega), if_neg (by omega)]
  refine ⟨h.toBase.step (hfoot.symm ▸ Ranges.take_partition h.part hf hreq) (hfoot.symm ▸ hcap.symm ▸ h.footprint_le)
    (hpms.trans (h.pageMapSize.trans hfoot.symm)) (fun i hi => ?_) fun {q k o} hq => ?_, ?_, ?_⟩
  · have hend := h.part.le hf
    have hi' : s.footprint ≤ i := hfoot ▸ hi
    rw [hout i (by omega)]
    exact h.beyond i hi'
  · rcases hcases.mp hq with ⟨rfl, rfl, rfl⟩ | ⟨hlt, rfl, rfl, rfl⟩ | ⟨hne, hq'⟩
    · refine .inr ⟨by simp [State.markPages], fun i hlt hlt' => ?_⟩
      simp only [State.markPages]
      rw [if_neg (by omega), if_pos ⟨hlt, hlt'⟩]
    · refine .inr ⟨(hsizes _ (by omega)).trans (if_pos ⟨hlt, rfl⟩), fun i h1 h2 => ?_⟩
      rw [hout i (by omega)]
      exact h.free hf i (by omega) (by omega)
    · -- Another range is outside of what is taken.
      refine .inl ⟨hq', (hsizes q hne).trans (if_neg ?_), fun i h1 h2 => hout i fun h3 => ?_⟩
      · rintro ⟨hlt, rfl⟩
        rw [h.part.inside hf (by omega) (by omega)] at hq'
        cases hq'
      · exact hne (h.part.unique hq' hf h1 h2 h3.1 (by omega))
  · intro q
    show q ∈ (s.takeRun f req).freePageRuns.keys ↔ _
    rw [hkeys, h.runs]
    constructor
    · rintro (⟨hlt, rfl⟩ | ⟨hne, k, hk⟩)
      · exact ⟨n - req, hcases.mpr (.inr (.inl ⟨hlt, rfl, rfl, rfl⟩))⟩
      · exact ⟨k, hcases.mpr (.inr (.inr ⟨hne, hk⟩))⟩
    · rintro ⟨k, hk⟩
      rcases hcases.mp hk with ⟨-, -, ho⟩ | ⟨hlt, rfl, -, -⟩ | ⟨hne, hk'⟩
      · cases ho
      · exact .inl ⟨hlt, rfl⟩
      · exact .inr ⟨hne, k, hk'⟩
  · intro q k l hq hnext
    rcases hcases.mp hq with ⟨-, -, ho⟩ | ⟨hlt, rfl, rfl, -⟩ | ⟨hne, hq'⟩
    · cases ho
    · have heq : f + req + (n - req) = f + n := by omega
      rw [heq] at hnext
      rcases hcases.mp hnext with ⟨h1, -⟩ | ⟨-, h1, -⟩ | ⟨-, hnext'⟩
      · omega
      · omega
      · exact h.apart hf hnext'
    · rcases hcases.mp hnext with ⟨-, -, ho⟩ | ⟨hlt, h1, -, -⟩ | ⟨-, hnext'⟩
      · cases ho
      · -- What ends where the remainder starts is the allocation itself.
        have hpos := h.part.pos hq'
        exact hne (h.part.unique (x := f + req - 1) hq' hf (by omega) (by omega) (by omega) (by omega))
      · exact h.apart hq' hnext'

def State.lastSize (s : State) : Nat := (s.lastRun.map s.size).getD 0

/-- Growing adds the pages to the last free run, or as a new one. -/
theorem Inv.grow (h : Inv s seg) (hinc : 0 < inc) (hle : s.footprint + inc ≤ s.capacity) :
    ∃ seg' f, Inv (s.grow inc) seg' ∧ (s.grow inc).footprint = s.footprint + inc ∧ (s.grow inc).capacity = s.capacity ∧
      seg' f = some (s.lastSize + inc, none) ∧ f + (s.lastSize + inc) = s.footprint + inc ∧
      (s.lastRun = some f ∨ s.lastRun = none ∧ f = s.footprint) ∧
      (∀ q k t, seg' q = some (k, some t) ↔ seg q = some (k, some t)) := by
  -- The run at the end is the last one, or an empty one that is not in the set yet.
  obtain ⟨f, hsome, hlast, hfree, hbelow, hpart, hgrow, hkeys⟩ : ∃ f, (∀ k t, seg f ≠ some (k, some t)) ∧
      (s.lastRun = some f ∨ s.lastRun = none ∧ f = s.footprint) ∧ (f + s.lastSize = s.footprint ∧
        ∀ i, f ≤ i → (s.pageMap i).isFreePage = true) ∧ (∀ {q k}, q ≠ f → seg q = some (k, none) → q + k ≠ f) ∧
      Partition (update seg f (some (s.lastSize + inc, none))) (s.footprint + inc) ∧
      s.grow inc = { s.setSize f (s.lastSize + inc) with
        pageMapSize := s.footprint + inc, footprint := s.footprint + inc, freePageRuns := (s.grow inc).freePageRuns } ∧
      ∀ q, q ∈ (s.grow inc).freePageRuns.keys ↔ q = f ∨ q ∈ s.freePageRuns.keys := by
    rw [State.lastSize, State.grow]
    cases hlast : s.lastRun with
    | some last =>
      obtain ⟨m, hm, hend⟩ := h.lastRun_some.mp hlast
      rw [Option.map_some, Option.getD_some, h.size hm]
      refine ⟨last, fun k t hk => (nomatch hm.symm.trans hk), .inl rfl, ⟨hend, fun i hi => ?_⟩,
        fun _ hq heq => h.apart hq (heq ▸ hm), h.part.extendLast hm hend hinc none, by rw [← h.size hm]; rfl,
          fun q => ?_⟩
      · by_cases hlt : i < last + m
        · exact h.free hm i hi hlt
        · exact h.beyond i (by omega)
      · refine (or_iff_right_of_imp ?_).symm
        rintro rfl
        exact (h.runs q).mpr ⟨m, hm⟩
    | none =>
      have hnone : seg s.footprint = none := h.part.eq_none (Nat.le_refl _)
      rw [Option.map_none, Option.getD_none, Nat.zero_add]
      refine ⟨s.footprint, fun k t hk => (nomatch hnone.symm.trans hk), .inr ⟨rfl, rfl⟩, ⟨rfl, h.beyond⟩,
        fun _ hq heq => ?_,
        h.part.append hinc none, rfl, fun q => Lib.OrderedSet.mem_insert⟩
      -- There would have been a free run at the end.
      rw [h.lastRun_some.mpr ⟨_, hq, heq⟩] at hlast
      cases hlast
  refine ⟨update seg f _, f, ?_, by rw [hgrow], by rw [hgrow]; rfl, update_self .., by omega, hlast, fun q k t => ?_⟩
  · refine ⟨h.toBase.step (by rwa [hgrow]) (by rwa [hgrow]) (by rw [hgrow]) (fun i hi => ?_) fun {q k o} hq => ?_,
      fun q => ?_,
      fun {q k l} hq hnext => ?_⟩
    · rw [hgrow] at hi ⊢
      exact h.beyond i (by simp only at hi; omega)
    · rw [hgrow]
      rcases Lib.update_some.mp hq with ⟨rfl, rfl, rfl⟩ | ⟨hne, hq'⟩
      · exact .inr ⟨by simp [State.size, State.setSize], fun i h1 _ => hfree.2 i h1⟩
      · exact .inl ⟨hq', by simp [State.size, State.setSize, update_of_ne hne], fun _ _ _ => rfl⟩
    · rw [hkeys, h.runs]
      by_cases heq : q = f
      · subst heq
        simp
      · simp [heq]
    · rcases Lib.update_some.mp hq with ⟨rfl, rfl, -⟩ | ⟨hne, hq'⟩ <;>
        rcases Lib.update_some.mp hnext with ⟨h1, -⟩ | ⟨-, hnext'⟩
      · omega
      · rw [h.part.eq_none (by omega)] at hnext'
        cases hnext'
      · exact hbelow hne hq' h1
      · exact h.apart hq' hnext'
  · rw [Lib.update_some]
    refine ⟨fun hq => (hq.resolve_left (by simp)).2, fun hq => .inr ⟨?_, hq⟩⟩
    rintro rfl
    exact hsome k t hq

theorem Inv.findRun_some (h : Inv s seg) (hf : s.findRun req = some f) :
    ∃ n, seg f = some (n, none) ∧ req ≤ n ∧ ∀ {q k}, seg q = some (k, none) → req ≤ k → f ≤ q := by
  obtain ⟨hmem, hP, hle⟩ := Lib.OrderedMap.find?_keys hf
  obtain ⟨n, hn⟩ := (h.runs f).mp hmem
  rw [decide_eq_true_eq, h.size hn] at hP
  refine ⟨n, hn, hP, fun {q k} hq hk => hle q ((h.runs q).mpr ⟨k, hq⟩) ?_⟩
  rw [decide_eq_true_eq, h.size hq]
  exact hk

theorem Inv.findRun_none (h : Inv s seg) (hf : s.findRun req = none) (hq : seg q = some (k, none)) : k < req := by
  have hnot := find?_eq_none.mp hf q ((h.runs q).mpr ⟨k, hq⟩)
  rw [decide_eq_true_eq, h.size hq] at hnot
  exact Nat.not_le.mp hnot

theorem Inv.lastSize_lt (h : Inv s seg) (hreq : 0 < req) (hf : s.findRun req = none) : s.lastSize < req := by
  rw [State.lastSize]
  cases hlast : s.lastRun with
  | none => exact hreq
  | some last =>
    obtain ⟨m, hm, -⟩ := h.lastRun_some.mp hlast
    rw [Option.map_some, Option.getD_some, h.size hm]
    exact h.findRun_none hf hm

/-- Where `AllocPages` allocates: in the lowest free run that is large enough, or, if there is none, in the free run at
    the end of the grown space. -/
def Placed (s : State) (seg : Ranges) (req p : Nat) : Prop :=
  (∃ m, seg p = some (m, none) ∧ req ≤ m ∧ ∀ q k, seg q = some (k, none) → req ≤ k → p ≤ q) ∨
  ((∀ q k, seg q = some (k, none) → k < req) ∧ (s.lastRun = some p ∨ s.lastRun = none ∧ p = s.footprint))

/-- An allocation adds one range of the requested pages, or changes no range. -/
theorem Inv.allocPages (h : Inv s seg) (hreq : 0 < req) (hmax : req < cfg.maxPages) (t : PageMapType) :
    (∃ s' p seg', s.allocPages cfg req t = (s', some p) ∧ Inv s' seg' ∧ s'.capacity = s.capacity ∧ Placed s seg req p ∧
      ∀ q k t', seg' q = some (k, some t') ↔ (q = p ∧ k = req ∧ t' = t) ∨ (q ≠ p ∧ seg q = some (k, some t'))) ∨
    (s.allocPages cfg req t = (s, none) ∧ (∀ q k, seg q = some (k, none) → k < req) ∧
      s.capacity - s.footprint + s.lastSize < req) := by
  -- Both cases of success take pages of a free run.
  have htake : ∀ {s : State} {seg : Ranges} {f n : Nat}, Inv s seg → seg f = some (n, none) → req ≤ n →
      ∃ seg', Inv ((s.takeRun f req).markPages f req t) seg' ∧
        ((s.takeRun f req).markPages f req t).capacity = s.capacity ∧
        ∀ q k t', seg' q = some (k, some t') ↔ (q = f ∧ k = req ∧ t' = t) ∨ (q ≠ f ∧ seg q = some (k, some t')) := by
    intro s seg f n h hf hle
    refine ⟨seg.take f n req t, h.take hf hreq hle, (takeRun_eq s f req).2.1, fun q k t' => ?_⟩
    rw [Ranges.take_eq_some h.part hf hreq hle]
    simp
  rw [State.allocPages, Nat.mod_eq_of_lt hmax]
  cases hfind : s.findRun req with
  | some f =>
    obtain ⟨n, hf, hle, hlow⟩ := h.findRun_some hfind
    obtain ⟨seg', hinv, hcap, hseg⟩ := htake h hf hle
    exact .inl ⟨_, f, seg', rfl, hinv, hcap, .inl ⟨n, hf, hle, fun q k => hlow⟩, hseg⟩
  | none =>
    have hnone : ∀ q k, seg q = some (k, none) → k < req := fun q k => h.findRun_none hfind
    have hlast := h.lastSize_lt hreq hfind
    have hfoot := h.footprint_le
    dsimp only
    split_ifs with hcap hroom
    · change s.capacity - s.footprint + s.lastSize ≥ req at hroom
      set increment := min (max cfg.growth (req - s.lastSize)) (s.capacity - s.footprint) with hincr
      have hgrowth := cfg.growth_pos
      obtain ⟨seg₁, f, hinv₁, hfoot₁, hcap₁, hf, hend, hpos, hseg₁⟩ :=
        h.grow (show 0 < increment by omega) (show s.footprint + increment ≤ s.capacity by omega)
      obtain ⟨seg', hinv, hcap', hseg⟩ := htake hinv₁ hf (by omega)
      have hget : (s.grow increment).freePageRuns.keys.getLast? = some f := hinv₁.getLast?_keys hf (by omega)
      refine .inl ⟨_, f, seg', ?_, hinv, hcap'.trans hcap₁, .inr ⟨hnone, hpos⟩, fun q k t' => ?_⟩
      · rw [show min (max cfg.growth (req - (s.lastRun.map s.size).getD 0)) (s.capacity - s.footprint) =
          increment from rfl, hget]
      · rw [hseg, hseg₁]
    · exact .inr ⟨rfl, hnone, by change ¬s.capacity - s.footprint + s.lastSize ≥ req at hroom; omega⟩
    · exact .inr ⟨rfl, hnone, by omega⟩

/-! ### Freeing -/

/-- The ranges after two neighbours have been made one free run. -/
def Ranges.join (seg : Ranges) (p n k : Nat) : Ranges :=
  update (update seg (p + n) none) p (some (n + k, none))

theorem Ranges.join_eq_some {o : Option PageMapType} {l : Nat} : seg.join p n k q = some (l, o) ↔
    (q = p ∧ l = n + k ∧ o = none) ∨ (q ≠ p ∧ q ≠ p + n ∧ seg q = some (l, o)) := by
  rw [Ranges.join, Lib.update_some, Lib.update_none]

/-- Joining two neighbouring free ranges. -/
theorem Open.join {other : Nat} (h : Open s seg f) (hp : seg p = some (n, none)) (hq : seg (p + n) = some (k, none))
    (hother : (f = p ∧ other = p + n) ∨ (f = p + n ∧ other = p)) :
    Open ((s.erase other).setSize p (n + k)) (seg.join p n k) p := by
  refine ⟨h.toBase.step (h.part.join hp hq none) h.footprint_le h.pageMapSize h.beyond fun {q l o} hl => ?_,
    ⟨n + k, Ranges.join_eq_some.mpr (.inl ⟨rfl, rfl, rfl⟩)⟩, fun q => ?_, fun {q l j} hne hne' hl hj => ?_⟩
  · rcases Ranges.join_eq_some.mp hl with ⟨rfl, rfl, rfl⟩ | ⟨hne, -, hl'⟩
    · refine .inr ⟨by simp [State.size, State.setSize], fun i h1 h2 => ?_⟩
      by_cases hi : i < q + n
      · exact h.free hp i h1 hi
      · exact h.free hq i (by omega) (by omega)
    · exact .inl ⟨hl', by simp [State.size, State.setSize, State.erase, update_of_ne hne], fun _ _ _ => rfl⟩
  · show q ∈ (s.freePageRuns.erase other).keys ↔ _
    rw [Lib.OrderedMap.mem_keys_erase, h.runs]
    constructor
    · rintro ⟨h1, h2, l, hl⟩
      have hqp : q ≠ p ∧ q ≠ p + n := by omega
      exact ⟨hqp.1, l, Ranges.join_eq_some.mpr (.inr ⟨hqp.1, hqp.2, hl⟩)⟩
    · rintro ⟨hne, l, hl⟩
      rcases Ranges.join_eq_some.mp hl with ⟨heq, -⟩ | ⟨-, hne', hl'⟩
      · exact absurd heq hne
      · exact ⟨by omega, by omega, l, hl'⟩
  · rcases Ranges.join_eq_some.mp hl with ⟨heq, -⟩ | ⟨-, h2, hl'⟩
    · exact hne heq
    · rcases Ranges.join_eq_some.mp hj with ⟨heq, -⟩ | ⟨-, h4, hj'⟩
      · exact hne' heq
      · exact h.apart (by omega) (by omega) hl' hj'

/-- Nothing free follows `f`. -/
def NoneAbove (seg : Ranges) (f : Nat) : Prop := ∀ n k, seg f = some (n, none) → seg (f + n) ≠ some (k, none)

/-- Nothing free ends at `f`. -/
def NoneBelow (seg : Ranges) (f : Nat) : Prop := ∀ p n, seg p = some (n, none) → p + n ≠ f

def SameAllocated (seg seg' : Ranges) : Prop := ∀ q k t, seg' q = some (k, some t) ↔ seg q = some (k, some t)

theorem sameAllocated_join (hp : seg p = some (n, none)) (hq : seg (p + n) = some (k, none)) :
    SameAllocated seg (seg.join p n k) := by
  intro q l t
  rw [Ranges.join_eq_some]
  refine ⟨fun hl => (hl.resolve_left (by simp)).2.2, fun hl => .inr ⟨?_, ?_, hl⟩⟩
  · rintro rfl
    cases hp.symm.trans hl
  · rintro rfl
    cases hq.symm.trans hl

section

variable (h : Open s seg f)
include h

/-- The next free run either touches the range or none does. -/
theorem Open.find?_above (hf : seg f = some (n, none)) :
    (∃ k, s.freePageRuns.keys.find? (f < ·) = some (f + n) ∧ seg (f + n) = some (k, none)) ∨
    (NoneAbove seg f ∧ ∀ a, s.freePageRuns.keys.find? (f < ·) = some a → a ≠ f + n) := by
  have hpos := h.part.pos hf
  by_cases hnext : ∃ k, seg (f + n) = some (k, none)
  · obtain ⟨k, hk⟩ := hnext
    have hmem : f + n ∈ s.freePageRuns.keys := (h.runs _).mpr ⟨by omega, k, hk⟩
    left
    refine ⟨k, ?_, hk⟩
    rcases hfind : s.freePageRuns.keys.find? (f < ·) with _ | a
    · have := find?_eq_none.mp hfind _ hmem
      simp at this
      omega
    obtain ⟨ha, hlt, hle⟩ := Lib.OrderedMap.find?_keys hfind
    simp only [decide_eq_true_eq] at hlt hle
    obtain ⟨-, j, hj⟩ := (h.runs a).mp ha
    have h1 := hle _ hmem (by omega)
    have h2 := h.part.apart hf hj hlt
    rw [show a = f + n by omega]
  · right
    refine ⟨fun m k hm hk => ?_, fun a ha heq => ?_⟩
    · rw [hf] at hm
      cases hm
      exact hnext ⟨k, hk⟩
    · obtain ⟨hmem, -⟩ := Lib.OrderedMap.find?_keys ha
      obtain ⟨-, k, hk⟩ := (h.runs a).mp hmem
      exact hnext ⟨k, heq ▸ hk⟩

theorem Open.coalesceHigher_stop (hnone : NoneAbove seg f) (fuel : Nat) : State.coalesceHigher f fuel s = s := by
  obtain ⟨n, hf⟩ := h.isFree
  cases fuel with
  | zero => rfl
  | succ fuel =>
    rw [State.coalesceHigher]
    rcases h.find?_above hf with ⟨k, -, hk⟩ | ⟨-, hne⟩
    · exact absurd hk (hnone n k hf)
    rcases hfind : s.freePageRuns.keys.find? (f < ·) with _ | a
    · rfl
    · dsimp only
      rw [State.runEnd, h.size hf, if_neg fun heq => hne a hfind heq.symm]

/-- Coalescing upwards leaves no free run right above. -/
theorem Open.coalesceHigher {fuel : Nat} (hfuel : s.freePageRuns.size = fuel) :
    ∃ seg', Open (State.coalesceHigher f fuel s) seg' f ∧ NoneAbove seg' f ∧ SameAllocated seg seg' ∧
      (State.coalesceHigher f fuel s).capacity = s.capacity := by
  obtain ⟨n, hf⟩ := h.isFree
  rcases h.find?_above hf with ⟨k, hfind, hk⟩ | ⟨hnone, -⟩
  · have hpos := h.part.pos hf
    have hkpos := h.part.pos hk
    obtain ⟨fuel, rfl⟩ : ∃ m, fuel = m + 1 := by
      have hmem := (Lib.OrderedMap.find?_keys hfind).1
      rw [← Lib.OrderedMap.length_keys] at hfuel
      exact ⟨fuel - 1, by have := length_pos_of_mem hmem; omega⟩
    have hopen := h.join hf hk (.inl ⟨rfl, rfl⟩)
    have hnone : NoneAbove (seg.join f n k) f := by
      intro m j hm hj
      rcases Ranges.join_eq_some.mp hm with ⟨-, rfl, -⟩ | ⟨hne, -⟩
      · rcases Ranges.join_eq_some.mp hj with ⟨heq, -⟩ | ⟨-, -, hj'⟩
        · omega
        · exact h.apart (p := f + n) (n := k) (by omega) (by omega) hk (by rwa [Nat.add_assoc])
      · exact hne rfl
    have hrun : State.coalesceHigher f (fuel + 1) s = (s.erase (f + n)).setSize f (n + k) := by
      rw [State.coalesceHigher, hfind]
      dsimp only
      rw [State.runEnd, h.size hf, if_pos rfl, h.size hk, hopen.coalesceHigher_stop hnone]
    rw [hrun]
    exact ⟨_, hopen, hnone, sameAllocated_join hf hk, rfl⟩
  · rw [h.coalesceHigher_stop hnone]
    exact ⟨seg, h, hnone, fun _ _ _ => Iff.rfl, rfl⟩

/-- The previous free run either touches the range or none does. -/
theorem Open.find?_below :
    (∃ l k, s.freePageRuns.keys.reverse.find? (· ≤ f) = some l ∧ seg l = some (k, none) ∧ l + k = f) ∨
    (NoneBelow seg f ∧ ∀ l, s.freePageRuns.keys.reverse.find? (· ≤ f) = some l → s.runEnd l ≠ f) := by
  by_cases hprev : ∃ l k, seg l = some (k, none) ∧ l + k = f
  · obtain ⟨l, k, hl, hend⟩ := hprev
    have hpos := h.part.pos hl
    have hmem : l ∈ s.freePageRuns.keys := (h.runs _).mpr ⟨by omega, k, hl⟩
    left
    refine ⟨l, k, ?_, hl, hend⟩
    rcases hfind : s.freePageRuns.keys.reverse.find? (· ≤ f) with _ | a
    · have := find?_eq_none.mp hfind _ (mem_reverse.mpr hmem)
      simp at this
      omega
    obtain ⟨ha, hle, hmax⟩ := Lib.OrderedMap.find?_reverse_keys hfind
    simp only [decide_eq_true_eq] at hle hmax
    obtain ⟨hne, j, hj⟩ := (h.runs a).mp ha
    have h1 := hmax _ hmem (by omega)
    have h2 : ¬l < a := fun hlt => by
      have := h.part.apart hl hj hlt
      omega
    rw [show a = l by omega]
  · right
    refine ⟨fun p m hp heq => hprev ⟨p, m, hp, heq⟩, fun l hl hend => ?_⟩
    obtain ⟨hmem, -⟩ := Lib.OrderedMap.find?_reverse_keys hl
    obtain ⟨-, k, hk⟩ := (h.runs l).mp hmem
    rw [State.runEnd, h.size hk] at hend
    exact hprev ⟨l, k, hk, hend⟩

theorem Open.coalesceLower_stop (hnone : NoneBelow seg f) (fuel : Nat) : State.coalesceLower fuel s f = (s, f) := by
  cases fuel with
  | zero => rfl
  | succ fuel =>
    rw [State.coalesceLower]
    rcases h.find?_below with ⟨l, k, -, hl, hend⟩ | ⟨-, hne⟩
    · exact absurd hend (hnone l k hl)
    rcases hfind : s.freePageRuns.keys.reverse.find? (· ≤ f) with _ | a
    · rfl
    · dsimp only
      rw [if_neg (hne a hfind)]

/-- Coalescing downwards leaves no free run right below. -/
theorem Open.coalesceLower (habove : NoneAbove seg f) {fuel : Nat} (hfuel : s.freePageRuns.size = fuel) :
    ∃ seg' s' f', State.coalesceLower fuel s f = (s', f') ∧ Open s' seg' f' ∧ NoneAbove seg' f' ∧ NoneBelow seg' f' ∧
      SameAllocated seg seg' ∧ s'.capacity = s.capacity := by
  obtain ⟨n, hf⟩ := h.isFree
  rcases h.find?_below with ⟨l, k, hfind, hl, hend⟩ | ⟨hnone, -⟩
  · subst hend
    have hpos := h.part.pos hl
    have hnpos := h.part.pos hf
    obtain ⟨fuel, rfl⟩ : ∃ m, fuel = m + 1 := by
      have hmem := (Lib.OrderedMap.find?_reverse_keys hfind).1
      rw [← Lib.OrderedMap.length_keys] at hfuel
      exact ⟨fuel - 1, by have := length_pos_of_mem hmem; omega⟩
    have hopen := h.join hl hf (.inr ⟨rfl, rfl⟩)
    have habove' : NoneAbove (seg.join l k n) l := by
      intro m j hm hj
      rcases Ranges.join_eq_some.mp hm with ⟨-, rfl, -⟩ | ⟨hne, -⟩
      · rcases Ranges.join_eq_some.mp hj with ⟨heq, -⟩ | ⟨-, -, hj'⟩
        · omega
        · exact habove n j hf (by rwa [Nat.add_assoc])
      · exact hne rfl
    have hbelow : NoneBelow (seg.join l k n) l := by
      intro p m hp heq
      rcases Ranges.join_eq_some.mp hp with ⟨rfl, rfl, -⟩ | ⟨hne, hne', hp'⟩
      · omega
      · have hmpos := h.part.pos hp'
        exact h.apart (p := p) (n := m) hne' (by omega) hp' (heq ▸ hl)
    have hrun : State.coalesceLower (fuel + 1) s (l + k) = ((s.erase l).setSize l (k + n), l) := by
      rw [State.coalesceLower, hfind]
      dsimp only
      rw [State.runEnd, h.size hl, if_pos rfl, h.size hf, hopen.coalesceLower_stop hbelow]
    exact ⟨_, _, _, hrun, hopen, habove', hbelow, sameAllocated_join hl hf, rfl⟩
  · exact ⟨seg, s, f, h.coalesceLower_stop hnone fuel, h, habove, hnone, fun _ _ _ => Iff.rfl, rfl⟩

end

variable (cfg) in
theorem releasePages_eq (s : State) (f : Nat) :
    ∃ pageMap, s.releasePages cfg f = { s with pageMap } ∧
      ∀ i, pageMap i = s.pageMap i ∨ (s.pageMap i = .empty ∧ pageMap i = .released) := by
  rw [State.releasePages]
  split_ifs
  · refine ⟨_, rfl, fun i => ?_⟩
    split_ifs with h
    · exact .inr ⟨h.2.2, rfl⟩
    · exact .inl rfl
  · exact ⟨s.pageMap, rfl, fun i => .inl rfl⟩

theorem PageMapType.first_ne_empty (t : PageMapType) : t.first ≠ .empty := by cases t <;> decide

theorem PageMapType.part_ne_empty (t : PageMapType) : t.part ≠ .empty := by cases t <;> decide

variable (cfg) in
/-- With no free neighbour, the range goes into the set of free runs. -/
theorem Open.close (h : Open s seg f) (habove : NoneAbove seg f) (hbelow : NoneBelow seg f) :
    Inv ((s.releasePages cfg f).insert f) seg ∧ ((s.releasePages cfg f).insert f).capacity = s.capacity := by
  obtain ⟨pageMap, heq, hmap⟩ := releasePages_eq cfg s f
  rw [heq]
  have hfree : ∀ i, (s.pageMap i).isFreePage = true → (pageMap i).isFreePage = true := fun i hi => by
    rcases hmap i with heq | ⟨-, heq⟩
    · rwa [heq]
    · rw [heq]
      rfl
  have hkept : ∀ i kind, s.pageMap i = kind → kind ≠ .empty → pageMap i = kind := fun i kind hi hne => by
    rcases hmap i with heq | ⟨hempty, -⟩
    · rwa [heq]
    · exact absurd (hi.symm.trans hempty) hne
  refine ⟨⟨⟨h.part, h.footprint_le, h.pageMapSize, h.size, fun {p n t} hp => ?_,
    fun hp i h1 h2 => hfree i (h.free hp i h1 h2),
    fun i hi => hfree i (h.beyond i hi)⟩, fun p => ?_, fun {p n k} hp hk => ?_⟩, rfl⟩
  · obtain ⟨hfirst, hpart⟩ := h.marked hp
    exact ⟨hkept p _ hfirst t.first_ne_empty, fun i h1 h2 => hkept i _ (hpart i h1 h2) t.part_ne_empty⟩
  · show p ∈ (Lib.OrderedSet.insert s.freePageRuns f).keys ↔ _
    rw [Lib.OrderedSet.mem_insert, h.runs]
    constructor
    · rintro (rfl | ⟨-, hp⟩)
      · exact h.isFree
      · exact hp
    · intro hp
      by_cases heq : p = f
      · exact .inl heq
      · exact .inr ⟨heq, hp⟩
  · by_cases heq : p = f
    · subst heq
      exact habove n k hp hk
    · exact h.apart heq (hbelow p n hp) hp hk

theorem PageMapType.part_ne_first (t t' : PageMapType) : t.first ≠ t'.part := by
  cases t <;> cases t' <;> decide

theorem PageMapType.part_not_free (t : PageMapType) : t.part.isFreePage = false := by cases t <;> rfl

/-- Counting the parts of an allocation gives its pages. -/
theorem Inv.partEnd (h : Inv s seg) (hp : seg p = some (n, some t)) {fuel idx : Nat} (hlt : p < idx) (hle : idx ≤ p + n)
    (hfuel : idx + fuel = s.pageMapSize) : s.partEnd t.part fuel idx = p + n := by
  have hend := h.part.le hp
  have hsize := h.pageMapSize
  induction fuel generalizing idx with
  | zero =>
    rw [State.partEnd]
    omega
  | succ fuel ih =>
    rw [State.partEnd]
    rcases Nat.lt_or_eq_of_le hle with hin | rfl
    · rw [if_pos ⟨by omega, (h.marked hp).2 idx hlt hin⟩]
      exact ih (by omega) hin (by omega)
    -- The page after the allocation is the first one of another range.
    obtain ⟨k, o, hk⟩ := h.part.next hp (by omega)
    have hkpos := h.part.pos hk
    refine if_neg fun hpart => ?_
    cases o with
    | none =>
      have hfree := h.free hk (p + n) (Nat.le_refl _) (by omega)
      rw [hpart.2, t.part_not_free] at hfree
      cases hfree
    | some t' => exact t'.part_ne_first t ((h.marked hk).1.symm.trans hpart.2)

/-- Freed pages are a free run that is not in the set. -/
theorem Inv.opened (h : Inv s seg) (hp : seg p = some (n, some t)) :
    Open ({ s with pageMap := fun idx => if p ≤ idx ∧ idx < p + n then .empty else s.pageMap idx }.setSize p n)
      (update seg p (some (n, none))) p := by
  have hout : ∀ {q k o}, seg q = some (k, o) → q ≠ p → ∀ i, q ≤ i → i < q + k → ¬(p ≤ i ∧ i < p + n) :=
    fun hq hne i h1 h2 h3 => hne (h.part.unique hq hp h1 h2 h3.1 h3.2)
  have hend := h.part.le hp
  refine ⟨h.toBase.step (h.part.relabel hp none) h.footprint_le h.pageMapSize (fun i hi => ?_) fun {q k o} hq => ?_,
    ⟨n, update_self ..⟩, fun q => ?_, fun {q k l} hne hne' hq hl => ?_⟩
  · simp only [State.setSize] at hi ⊢
    rw [if_neg (by omega)]
    exact h.beyond i hi
  · rcases Lib.update_some.mp hq with ⟨rfl, rfl, rfl⟩ | ⟨hne, hq'⟩
    · exact .inr ⟨by simp [State.size, State.setSize],
        fun i h1 h2 => by simp [State.setSize, h1, h2, PageMapKind.isFreePage]⟩
    · exact .inl ⟨hq', by simp [State.size, State.setSize, update_of_ne hne],
        fun i h1 h2 => if_neg (hout hq' hne i h1 h2)⟩
  · show q ∈ s.freePageRuns.keys ↔ _
    rw [h.runs]
    by_cases heq : q = p
    · subst heq
      simp [hp]
    · simp [heq]
  · rcases Lib.update_some.mp hq with ⟨heq, -⟩ | ⟨-, hq'⟩
    · exact hne heq
    · rcases Lib.update_some.mp hl with ⟨heq, -⟩ | ⟨-, hl'⟩
      · exact hne' heq
      · exact h.apart hq' hl'

variable (cfg) in
/-- Freeing pages removes their range, and only it. -/
theorem Inv.freePagesOf (h : Inv s seg) (hp : seg p = some (n, some t)) :
    ∃ s' seg', s.freePagesOf cfg p t = (s', n) ∧ Inv s' seg' ∧ s'.capacity = s.capacity ∧
      ∀ q k t', seg' q = some (k, some t') ↔ q ≠ p ∧ seg q = some (k, some t') := by
  have hpos := h.part.pos hp
  have hend := h.part.le hp
  have hlast : s.partEnd t.part (s.pageMapSize - (p + 1)) (p + 1) = p + n :=
    h.partEnd hp (Nat.lt_succ_self p) (by omega) (by rw [h.pageMapSize]; omega)
  obtain ⟨seg₁, hopen₁, habove₁, hsame₁, hcap₁⟩ := (h.opened hp).coalesceHigher rfl
  obtain ⟨seg₂, s₂, f, hlower, hopen₂, habove₂, hbelow₂, hsame₂, hcap₂⟩ := hopen₁.coalesceLower habove₁ rfl
  obtain ⟨hinv, hcap⟩ := hopen₂.close cfg habove₂ hbelow₂
  refine ⟨(s₂.releasePages cfg f).insert f, seg₂, ?_, hinv, hcap.trans (hcap₂.trans hcap₁), fun q k t' => ?_⟩
  · rw [State.freePagesOf, hlast, Nat.add_sub_cancel_left]
    rw [hlower]
  · rw [hsame₂, hsame₁]
    by_cases heq : q = p
    · subst heq
      simp
    · simp [heq]

variable (cfg) in
theorem Inv.freePages (h : Inv s seg) (hp : seg p = some (n, some t)) :
    ∃ s' seg', s.freePages cfg p = some (s', n) ∧ Inv s' seg' ∧ s'.capacity = s.capacity ∧
      ∀ q k t', seg' q = some (k, some t') ↔ q ≠ p ∧ seg q = some (k, some t') := by
  obtain ⟨s', seg', hrun, hrest⟩ := h.freePagesOf cfg hp
  refine ⟨s', seg', ?_, hrest⟩
  rw [State.freePages, (h.marked hp).1, ← hrun]
  cases t <;> rfl

/-! ### Other operations -/

/-- Trimming leaves the allocated ranges as they are. -/
theorem Inv.trim (h : Inv s seg) : ∃ seg', Inv s.trim.1 seg' ∧ SameAllocated seg seg' := by
  rw [State.trim]
  cases hlast : s.lastRun with
  | none => exact ⟨seg, h, fun _ _ _ => Iff.rfl⟩
  | some last =>
    obtain ⟨m, hm, hend⟩ := h.lastRun_some.mp hlast
    have hmpos := h.part.pos hm
    have hfoot : s.footprint - s.size last = last := by rw [h.size hm]; omega
    have hle := h.footprint_le
    have hpart := h.part.removeLast hm hend
    simp only [hfoot]
    refine ⟨update seg last none, ⟨h.toBase.step hpart (show last ≤ s.capacity by omega) rfl (fun i hi => ?_)
      fun {q k o} hq => ?_, fun q => ?_, fun hq hk => h.apart (Lib.update_none.mp hq).2 (Lib.update_none.mp hk).2⟩,
        fun q k t => ?_⟩
    · simp only
      rw [if_pos hi]
      rfl
    · have hq' := hpart.le hq
      exact .inl ⟨(Lib.update_none.mp hq).2, rfl, fun i h1 h2 => if_neg (by omega)⟩
    · show q ∈ (s.freePageRuns.erase last).keys ↔ _
      simp only [Lib.OrderedMap.mem_keys_erase, h.runs, Lib.update_none, exists_and_left]
    · rw [Lib.update_none]
      refine ⟨And.right, fun hq => ⟨?_, hq⟩⟩
      rintro rfl
      cases hm.symm.trans hq

theorem Inv.setFootprintLimit (h : Inv s seg) (newCapacity : Nat) : Inv (s.setFootprintLimit newCapacity) seg := by
  rw [State.setFootprintLimit]
  split_ifs with hlt
  · have hle := h.footprint_le
    exact ⟨⟨h.part, show s.footprint ≤ newCapacity by omega, h.pageMapSize, h.size, h.marked, h.free, h.beyond⟩,
      h.runs, h.apart⟩
  · exact h

/-- At first all pages are one free run. -/
theorem init_inv {capacity : Nat} (hpos : 0 < capacity) :
    Inv (State.init capacity) (update (fun _ => none) 0 (some (capacity, none))) := by
  have hcases : ∀ {q k o}, update (fun _ => none : Ranges) 0 (some (capacity, none)) q = some (k, o) ↔
      q = 0 ∧ k = capacity ∧ o = none := by
    intro q k o
    simp [Lib.update_some]
  have hnone : Partition (fun _ => none : Ranges) 0 := ⟨nofun, nofun, nofun, nofun⟩
  have hpart := hnone.append hpos none
  rw [Nat.zero_add] at hpart
  refine ⟨⟨hpart, Nat.le_refl _, rfl, fun hq => ?_, fun hq => ?_, fun _ _ _ _ => rfl, fun _ _ => rfl⟩, fun q => ?_,
    fun hq hk => ?_⟩
  · obtain ⟨rfl, rfl, -⟩ := hcases.mp hq
    simp [State.size, State.init]
  · obtain ⟨-, -, ho⟩ := hcases.mp hq
    cases ho
  · simp only [State.init, Lib.OrderedSet.mem_insert, hcases]
    simp [Lib.OrderedMap.keys, Lib.OrderedMap.empty]
  · obtain ⟨-, rfl, -⟩ := hcases.mp hq
    obtain ⟨h0, -⟩ := hcases.mp hk
    omega

/-! ### Runs -/

/-- The allocated ranges, as the callers know them. -/
abbrev Live := Nat → Option (Nat × PageMapType)

/-- The states of the allocator after any sequence of calls. A size in bytes is not zero and fits in `size_t`. -/
inductive Reachable (cfg : Config) : State → Live → Prop
  | init {capacity : Nat} (hpos : 0 < capacity) : Reachable cfg (State.init capacity) fun _ => none
  | alloc {s s' : State} {live : Live} {n p : Nat} {t : PageMapType} (h : Reachable cfg s live) (hn : 0 < n)
      (hmax : n < cfg.maxPages) (hr : s.allocPages cfg n t = (s', some p)) :
      Reachable cfg s' (update live p (some (n, t)))
  | allocFailed {s s' : State} {live : Live} {n : Nat} {t : PageMapType} (h : Reachable cfg s live) (hn : 0 < n)
      (hmax : n < cfg.maxPages) (hr : s.allocPages cfg n t = (s', none)) : Reachable cfg s' live
  | free {s s' : State} {live : Live} {p n k : Nat} {t : PageMapType} (h : Reachable cfg s live)
      (hp : live p = some (n, t)) (hr : s.freePages cfg p = some (s', k)) : Reachable cfg s' (update live p none)
  | setFootprintLimit {s : State} {live : Live} (h : Reachable cfg s live) (newCapacity : Nat) :
      Reachable cfg (s.setFootprintLimit newCapacity) live
  | trim {s : State} {live : Live} (h : Reachable cfg s live) : Reachable cfg s.trim.1 live

/-- The allocated ranges are the live ones. -/
def Agrees (seg : Ranges) (live : Live) : Prop := ∀ q k t, seg q = some (k, some t) ↔ live q = some (k, t)

/-- Every reachable state has the ranges that are live. -/
theorem Reachable.inv {live : Live} (h : Reachable cfg s live) : ∃ seg, Inv s seg ∧ Agrees seg live := by
  induction h with
  | init hpos =>
    refine ⟨_, init_inv hpos, fun q k t => ?_⟩
    by_cases heq : q = 0
    · subst heq
      simp
    · simp [heq]
  | @alloc s s' live n p t _ hn hmax hr ih =>
    obtain ⟨seg, hinv, hagree⟩ := ih
    rcases hinv.allocPages hn hmax t with ⟨s₁, p₁, seg', hrun, hinv', -, -, hseg⟩ | ⟨hrun, -⟩
    · rw [hr] at hrun
      cases hrun
      refine ⟨seg', hinv', fun q k t' => ?_⟩
      rw [hseg, hagree]
      by_cases heq : q = p
      · subst heq
        simp [eq_comm]
      · simp [heq]
    · rw [hr] at hrun
      cases hrun
  | @allocFailed s s' live n t _ hn hmax hr ih =>
    obtain ⟨seg, hinv, hagree⟩ := ih
    rcases hinv.allocPages hn hmax t with ⟨s₁, p₁, seg', hrun, -⟩ | ⟨hrun, -⟩
    · rw [hr] at hrun
      cases hrun
    · rw [hr] at hrun
      cases hrun
      exact ⟨seg, hinv, hagree⟩
  | @free s s' live p n k t _ hp hr ih =>
    obtain ⟨seg, hinv, hagree⟩ := ih
    obtain ⟨s₁, seg', hrun, hinv', -, hseg⟩ := hinv.freePages cfg ((hagree p n t).mpr hp)
    rw [hr] at hrun
    cases hrun
    refine ⟨seg', hinv', fun q l t' => ?_⟩
    rw [hseg, hagree]
    by_cases heq : q = p
    · subst heq
      simp
    · simp [heq]
  | setFootprintLimit _ newCapacity ih =>
    obtain ⟨seg, hinv, hagree⟩ := ih
    exact ⟨seg, hinv.setFootprintLimit newCapacity, hagree⟩
  | trim _ ih =>
    obtain ⟨seg, hinv, hagree⟩ := ih
    obtain ⟨seg', hinv', hsame⟩ := hinv.trim
    exact ⟨seg', hinv', fun q k t => (hsame q k t).trans (hagree q k t)⟩

theorem PageMapType.first_not_free (t : PageMapType) : t.first.isFreePage = false := by cases t <;> rfl

/-- A page is free in the page map when it is in no allocated range. -/
theorem Inv.isFreePage_iff (h : Inv s seg) (i : Nat) :
    (s.pageMap i).isFreePage = true ↔ ∀ p n t, seg p = some (n, some t) → ¬(p ≤ i ∧ i < p + n) := by
  constructor
  · rintro hfree p n t hp ⟨h1, h2⟩
    obtain ⟨hfirst, hpart⟩ := h.marked hp
    rcases Nat.eq_or_lt_of_le h1 with rfl | hlt
    · rw [hfirst, t.first_not_free] at hfree
      cases hfree
    · rw [hpart i hlt h2, t.part_not_free] at hfree
      cases hfree
  · intro hnot
    by_cases hlt : i < s.footprint
    · obtain ⟨p, n, o, hp, h1, h2⟩ := h.part.cover hlt
      cases o with
      | none => exact h.free hp i h1 h2
      | some t => exact absurd ⟨h1, h2⟩ (hnot p n t hp)
    · exact h.beyond i (Nat.not_lt.mp hlt)

theorem Inv.not_allocated (h : Inv s seg) (hplaced : Placed s seg req p) (k : Nat) (t : PageMapType) :
    seg p ≠ some (k, some t) := by
  intro hp
  rcases hplaced with ⟨m, hm, -⟩ | ⟨-, hlast | ⟨-, rfl⟩⟩
  · cases hp.symm.trans hm
  · obtain ⟨m, hm, -⟩ := h.lastRun_some.mp hlast
    cases hp.symm.trans hm
  · cases hp.symm.trans (h.part.eq_none (Nat.le_refl _))

theorem placed_iff (hruns : ∀ q k, seg q = some (k, none) ↔ q ∈ s.freePageRuns.keys ∧ s.size q = k) :
    Placed s seg req p ↔
      (p ∈ s.freePageRuns.keys ∧ req ≤ s.size p ∧ ∀ q ∈ s.freePageRuns.keys, req ≤ s.size q → p ≤ q) ∨
      ((∀ q ∈ s.freePageRuns.keys, s.size q < req) ∧ (s.lastRun = some p ∨ s.lastRun = none ∧ p = s.footprint)) := by
  simp only [Placed, hruns]
  constructor
  · rintro (⟨m, ⟨hp, rfl⟩, hle, hmin⟩ | ⟨hsmall, hlast⟩)
    · exact .inl ⟨hp, hle, fun q hq hfit => hmin q _ ⟨hq, rfl⟩ hfit⟩
    · exact .inr ⟨fun q hq => hsmall q _ ⟨hq, rfl⟩, hlast⟩
  · rintro (⟨hp, hle, hmin⟩ | ⟨hsmall, hlast⟩)
    · exact .inl ⟨_, ⟨hp, rfl⟩, hle, fun q k hq hfit => hmin q hq.1 (hq.2 ▸ hfit)⟩
    · exact .inr ⟨fun q k hq => hq.2 ▸ hsmall q hq.1, hlast⟩

/-- In every reachable state, free runs and allocated ranges divide the space, the page map marks the allocated ranges,
    no two free runs are neighbours, `AllocPages` takes the lowest free run that is large enough or grows the space
    and fails only if it cannot, and `FreePages` frees what was allocated. -/
theorem pages_consistent {live : Live} (h : Reachable cfg s live) :
    (∃ seg : Ranges, Partition seg s.footprint ∧ Agrees seg live ∧
      ∀ q k, seg q = some (k, none) ↔ q ∈ s.freePageRuns.keys ∧ s.size q = k) ∧
    (∀ p n t, live p = some (n, t) → s.pageMap p = t.first ∧ ∀ i, p < i → i < p + n → s.pageMap i = t.part) ∧
    (∀ i, (s.pageMap i).isFreePage = true ↔ ∀ p n t, live p = some (n, t) → ¬(p ≤ i ∧ i < p + n)) ∧
    (∀ p ∈ s.freePageRuns.keys, ∀ q ∈ s.freePageRuns.keys, p + s.size p ≠ q) ∧
    (∀ n t, 0 < n → n < cfg.maxPages →
      (∃ s' p, s.allocPages cfg n t = (s', some p) ∧
        ((p ∈ s.freePageRuns.keys ∧ n ≤ s.size p ∧ ∀ q ∈ s.freePageRuns.keys, n ≤ s.size q → p ≤ q) ∨
          ((∀ q ∈ s.freePageRuns.keys, s.size q < n) ∧ (s.lastRun = some p ∨ s.lastRun = none ∧ p = s.footprint))) ∧
        ∀ q k t', live q = some (k, t') → q + k ≤ p ∨ p + n ≤ q) ∨
      (s.allocPages cfg n t = (s, none) ∧ (∀ q ∈ s.freePageRuns.keys, s.size q < n) ∧
        s.capacity - s.footprint + s.lastSize < n)) ∧
    (∀ p n t, live p = some (n, t) → ∃ s', s.freePages cfg p = some (s', n) ∧
      ∀ i, (s'.pageMap i).isFreePage = true ↔ (s.pageMap i).isFreePage = true ∨ (p ≤ i ∧ i < p + n)) := by
  obtain ⟨seg, hinv, hagree⟩ := h.inv
  have hruns : ∀ q k, seg q = some (k, none) ↔ q ∈ s.freePageRuns.keys ∧ s.size q = k := fun q k => by
    rw [hinv.runs]
    constructor
    · exact fun hq => ⟨⟨k, hq⟩, hinv.size hq⟩
    · rintro ⟨⟨l, hl⟩, rfl⟩
      rw [hinv.size hl, hl]
  refine ⟨⟨seg, hinv.part, hagree, hruns⟩, fun p n t hp => hinv.marked ((hagree p n t).mpr hp), fun i => ?_,
    fun p hp q hq heq => ?_,
    fun n t hn hmax => ?_, fun p n t hp => ?_⟩
  · rw [hinv.isFreePage_iff]
    simp only [hagree _ _ _]
  · subst heq
    exact hinv.apart ((hruns _ _).mpr ⟨hp, rfl⟩) ((hruns _ _).mpr ⟨hq, rfl⟩)
  · rcases hinv.allocPages hn hmax t with ⟨s', p, seg', hrun, hinv', -, hplaced, hseg⟩ | ⟨hrun, hsmall, hroom⟩
    · refine .inl ⟨s', p, hrun, (placed_iff hruns).mp hplaced, fun q k t' hq => ?_⟩
      have hq' := (hagree q k t').mpr hq
      have hne : q ≠ p := fun heq => hinv.not_allocated hplaced k t' (heq ▸ hq')
      have hp₁ := (hseg p n t).mpr (.inl ⟨rfl, rfl, rfl⟩)
      have hq₁ := (hseg q k t').mpr (.inr ⟨hne, hq'⟩)
      rcases Nat.lt_or_gt_of_ne hne with hlt | hlt
      · exact .inl (hinv'.part.apart hq₁ hp₁ hlt)
      · exact .inr (hinv'.part.apart hp₁ hq₁ hlt)
    · exact .inr ⟨hrun, fun q hq => hsmall q _ ((hruns q _).mpr ⟨hq, rfl⟩), hroom⟩
  · obtain ⟨s', seg', hrun, hinv', -, hseg⟩ := hinv.freePages cfg ((hagree p n t).mpr hp)
    refine ⟨s', hrun, fun i => ?_⟩
    rw [hinv'.isFreePage_iff, hinv.isFreePage_iff]
    have hp' := (hagree p n t).mpr hp
    constructor
    · intro hnot
      by_cases hin : p ≤ i ∧ i < p + n
      · exact .inr hin
      refine .inl fun q k t' hq => ?_
      by_cases heq : q = p
      · subst heq
        cases hq.symm.trans hp'
        exact hin
      · exact hnot q k t' ((hseg q k t').mpr ⟨heq, hq⟩)
    · rintro (hnot | ⟨h1, h2⟩) q k t' hq ⟨h3, h4⟩
      · exact hnot q k t' ((hseg q k t').mp hq).2 ⟨h3, h4⟩
      · exact ((hseg q k t').mp hq).1 (hinv.part.unique ((hseg q k t').mp hq).2 hp' h3 h4 h1 h2)

/-- A machine whose `size_t` holds sixteen pages. -/
def sampleConfig : Config where
  maxPages := 16
  growth := 2
  pageReleaseMode := .none
  pageReleaseSizeThreshold := 1
  maxPages_pos := by decide
  growth_pos := Nat.two_pos

theorem pages_consistent_sample :
    ∃ s live, Reachable sampleConfig s live ∧ live 0 = some (2, .largeObject) ∧
      ∃ s', s.freePages sampleConfig 0 = some (s', 2) ∧
        ∀ i, (s'.pageMap i).isFreePage = true ↔ (s.pageMap i).isFreePage = true ∨ (0 ≤ i ∧ i < 0 + 2) := by
  have hreach : Reachable sampleConfig _ _ :=
    .alloc (.init (by decide : 0 < 4)) (by decide : 0 < 2) (by decide) (by rfl : _ = (_, some 0)) (t := .largeObject)
  have hlive : update (fun _ => none : Live) 0 (some (2, PageMapType.largeObject)) 0 = some (2, .largeObject) := rfl
  exact ⟨_, _, hreach, hlive, (pages_consistent hreach).2.2.2.2.2 0 2 .largeObject hlive⟩

/-- Zero pages are taken from a free run as well: the run is then listed with no pages, its page belongs to no run and
    to no range, and the page map has it as allocated. -/
theorem allocPages_zero :
    ∃ s', (State.init 1).allocPages sampleConfig 0 .run = (s', some 0) ∧ s'.footprint = 1 ∧
      0 ∈ s'.freePageRuns.keys ∧ s'.size 0 = 0 ∧ (∀ q ∈ s'.freePageRuns.keys, q = 0) ∧
      s'.pageMap 0 = PageMapType.first .run :=
  ⟨_, rfl, rfl, by decide, by decide, by decide, by decide⟩

end Art.RosAlloc
