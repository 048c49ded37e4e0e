import Art.Base.HashSet
import Art.Lib.Probing

/-! A `HashSet` refines a finite set, as long as a bucket stays empty: every element can be reached from
    its ideal index, so lookups, insertions and removals end and find what was inserted and not erased. -/

namespace Art.HashSet
open List Function

open Lib.Probing

variable {T K : Type} {fns : Functions T K} {lf : LoadFactors} {s : HashSet T} {A : Multiset T} {e : T} {i m : Nat}

/-- The assumptions about the functions: `MakeEmpty` makes elements empty, and equal elements have equal
    hashes. -/
structure Functions.Lawful (fns : Functions T K) : Prop where
  isEmpty_makeEmpty : ∀ x, fns.isEmpty (fns.makeEmpty x) = true
  hash_eq : ∀ x k, fns.pred x k = true → fns.hashfn (fns.key x) = fns.hashfn k

/-! ### The table as slots -/

def slots (fns : Functions T K) (s : HashSet T) (index : Nat) : Option T :=
  if s.isFreeSlot fns index then none else some (s.elementForIndex fns index)

def ideal (fns : Functions T K) (s : HashSet T) (x : T) : Nat := s.indexForHash (fns.hashfn (fns.key x))

theorem slots_eq_none : slots fns s i = none ↔ fns.isEmpty (s.elementForIndex fns i) = true := by
  unfold slots isFreeSlot
  split_ifs with h <;> simp [h]

theorem slots_eq_some : slots fns s i = some e ↔
    s.elementForIndex fns i = e ∧ fns.isEmpty (s.elementForIndex fns i) = false := by
  unfold slots isFreeSlot
  split_ifs with h <;> simp [h]

@[simp] theorem numBuckets_setElement (s : HashSet T) (i : Nat) (x : T) :
    (s.setElement i x).numBuckets = s.numBuckets := by simp [setElement, numBuckets]

@[simp] theorem ideal_setElement (s : HashSet T) (i : Nat) (x : T) : ideal fns (s.setElement i x) = ideal fns s := by
  funext y
  simp [ideal, indexForHash]

theorem slots_setElement (hi : i < s.numBuckets) (x : T) : slots fns (s.setElement i x) =
    update (slots fns s) i (if fns.isEmpty x then none else some x) := by
  funext j
  rcases eq_or_ne j i with rfl | hne
  · have hx : (s.setElement j x).elementForIndex fns j = x := by
      simp [elementForIndex, setElement, getD, show j < s.data.length from hi]
    rw [update_self, slots, isFreeSlot, hx]
  · have hx : (s.setElement i x).elementForIndex fns j = s.elementForIndex fns j := by
      simp [elementForIndex, setElement, getD, getElem?_set_ne hne.symm]
    rw [update_of_ne hne, slots, slots, isFreeSlot, isFreeSlot, hx]

theorem indexForHash_lt (hn : 0 < s.numBuckets) (hash : Nat) : s.indexForHash hash < s.numBuckets := by
  rw [indexForHash, if_neg (by omega)]
  exact Nat.mod_lt _ hn

theorem nextIndex_after (hi : i < s.numBuckets) (hm : m < s.numBuckets) :
    s.nextIndex (after s.numBuckets i m) = after s.numBuckets i (m + 1) := by
  rw [nextIndex, after_succ hi hm]

theorem contents_slots (fns : Functions T K) (s : HashSet T) :
    contents s.numBuckets (slots fns s) = (s.data.filter fun x => !fns.isEmpty x : List T) := by
  have hdata : s.data = (range s.numBuckets).map (s.elementForIndex fns) := by
    refine ext_getElem (by simp [numBuckets]) fun i h _ => ?_
    simp [elementForIndex, getD, h]
  have hslots : slots fns s = fun i =>
      (fun x => if fns.isEmpty x then none else some x) (s.elementForIndex fns i) := rfl
  rw [contents, Multiset.range, Multiset.filterMap_coe, hslots]
  conv_rhs => rw [hdata]
  rw [← filterMap_eq_filter, filterMap_map]
  congr 2
  funext i
  cases h : fns.isEmpty (s.elementForIndex fns i) <;> simp [h, Option.guard]

/-! ### Stored elements -/

/-- The buckets hold the elements of `A`, each within reach of its ideal index. -/
structure Stores (fns : Functions T K) (s : HashSet T) (A : Multiset T) : Prop where
  elements : contents s.numBuckets (slots fns s) = A
  placed : Placed s.numBuckets (ideal fns s) (slots fns s)

variable (h : Stores fns s A)

include h

theorem Stores.numElements_irrel {n u : Nat} :
    Stores fns { s with numElements := n, elementsUntilExpand := u } A := ⟨h.elements, h.placed⟩

theorem Stores.exists_free (hroom : A.card < s.numBuckets) (hi : i < s.numBuckets) :
    ∃ m < s.numBuckets, slots fns s (after s.numBuckets i m) = none := by
  obtain ⟨j, hj, hfree⟩ := Lib.Probing.exists_free (h.elements.symm ▸ hroom)
  exact ⟨steps s.numBuckets i j, steps_lt hi hj, by rwa [after_steps hi hj]⟩

omit h

/-- Where a lookup that started at `start` ends. -/
structure Looked (fns : Functions T K) (s : HashSet T) (canFind : Bool) (key : K) (start m : Nat) (found : Bool) :
    Prop where
  passed : ∀ k < m, ∃ x, slots fns s (after s.numBuckets start k) = some x ∧ (canFind = true → fns.pred x key = false)
  free : found = false → slots fns s (after s.numBuckets start m) = none
  equal : found = true → canFind = true ∧ ∃ x, slots fns s (after s.numBuckets start m) = some x ∧ fns.pred x key = true

include h in
theorem Stores.fill (he : fns.isEmpty e = false) (hm : m < s.numBuckets) {canFind : Bool}
    (hlook : Looked fns s canFind (fns.key e) (ideal fns s e) m false) :
    Stores fns (s.setElement (after s.numBuckets (ideal fns s e) m) e) (e ::ₘ A) := by
  have hi : ideal fns s e < s.numBuckets := indexForHash_lt (by omega) _
  have hlt := after_lt hi hm.le
  refine ⟨?_, ?_⟩
  · rw [numBuckets_setElement, slots_setElement hlt, he]
    exact (contents_fill hlt (hlook.free rfl)).trans (congrArg _ h.elements)
  · rw [numBuckets_setElement, ideal_setElement, slots_setElement hlt, he]
    refine placed_fill hi hm h.placed fun k hk => ?_
    obtain ⟨x, hx, -⟩ := hlook.passed k hk
    rw [hx]
    exact Option.some_ne_none x

/-- Probing ends at the first empty slot or at the element it looks for. -/
theorem findLoop_ok (fns : Functions T K) (canFind : Bool) (key : K) (hi : i < s.numBuckets) :
    ∀ (fuel p : Nat), p + fuel = s.numBuckets →
    (∀ k < p, ∃ x, slots fns s (after s.numBuckets i k) = some x ∧ (canFind = true → fns.pred x key = false)) →
    (∃ t < s.numBuckets, slots fns s (after s.numBuckets i t) = none) →
    ∃ m < s.numBuckets, ∃ found, s.findLoop fns canFind key fuel (after s.numBuckets i p) =
      .ok (after s.numBuckets i m, found) ∧ Looked fns s canFind key i m found := by
  intro fuel
  induction fuel with
  | zero =>
    rintro p hp hpassed ⟨t, ht, hfree⟩
    obtain ⟨x, hx, -⟩ := hpassed t (by omega)
    rw [hfree] at hx
    cases hx
  | succ fuel ih =>
    intro p hp hpassed hex
    rw [findLoop]
    split_ifs with hempty hpred
    · exact ⟨p, by omega, false, rfl, hpassed, fun _ => slots_eq_none.mpr hempty, fun h => (nomatch h)⟩
    · rw [Bool.and_eq_true] at hpred
      exact ⟨p, by omega, true, rfl, hpassed, fun h => (nomatch h),
        fun _ => ⟨hpred.1, _, slots_eq_some.mpr ⟨rfl, by simpa using hempty⟩, hpred.2⟩⟩
    · rw [nextIndex_after hi (by omega)]
      refine ih (p + 1) (by omega) (fun k hk => ?_) hex
      rcases Nat.lt_or_eq_of_le (Nat.le_of_lt_succ hk) with hlt | rfl
      · exact hpassed k hlt
      · refine ⟨_, slots_eq_some.mpr ⟨rfl, by simpa using hempty⟩, fun hc => ?_⟩
        rw [hc, Bool.true_and, Bool.not_eq_true] at hpred
        exact hpred

include h in
theorem Stores.findIndexImpl_ok (hroom : A.card < s.numBuckets) (canFind : Bool) (key : K) (hash : Nat) :
    ∃ m < s.numBuckets, ∃ found, s.findIndexImpl fns canFind key hash =
      .ok (after s.numBuckets (s.indexForHash hash) m, found) ∧
      Looked fns s canFind key (s.indexForHash hash) m found := by
  have hi := indexForHash_lt (s := s) (by omega) hash
  have := findLoop_ok fns canFind key hi s.numBuckets 0 (by omega)
    (fun k hk => absurd hk (by omega)) (h.exists_free hroom hi)
  rwa [after_zero hi] at this

/-- A lookup that ends at an empty bucket has seen every element with the hash of the key. -/
theorem Stores.not_pred_of_free (hl : fns.Lawful) (h : Stores fns s A) {key : K} (hm : m < s.numBuckets)
    (hlook : Looked fns s true key (s.indexForHash (fns.hashfn key)) m false) {x : T} (hx : x ∈ A) :
    fns.pred x key = false := by
  rw [Bool.eq_false_iff]
  intro hp
  rw [← h.elements, mem_contents] at hx
  obtain ⟨j, hj, hxj⟩ := hx
  have hideal : ideal fns s x = s.indexForHash (fns.hashfn key) := by rw [ideal, hl.hash_eq x key hp]
  have hlt : ideal fns s x < s.numBuckets := hideal ▸ indexForHash_lt (by omega) _
  rcases passed_of_placed h.placed hj hxj hlt (hideal ▸ hlook.free rfl) with hpass | hge
  · obtain ⟨y, hy, hne⟩ := hlook.passed _ hpass
    rw [← hideal, after_steps hlt hj, hxj] at hy
    cases hy
    rw [hne rfl] at hp
    cases hp
  · omega

include h in
theorem Stores.mem_of_slots (hi : i < s.numBuckets) {x : T} (hx : slots fns s i = some x) : x ∈ A := by
  rw [← h.elements, mem_contents]
  exact ⟨i, hi, hx⟩

/-! ### Growth -/

theorem firstAvailableLoop_eq (key : K) : ∀ fuel i, s.firstAvailableLoop fns fuel i =
    (s.findLoop fns false key fuel i).map (·.1)
  | 0, _ => rfl
  | fuel + 1, i => by
    rw [firstAvailableLoop, findLoop, isFreeSlot, Bool.false_and]
    split_ifs with h hfalse
    · rfl
    · exact hfalse.elim
    · exact firstAvailableLoop_eq key fuel _

include h in
theorem Stores.reinsert_ok (hroom : A.card < s.numBuckets) (he : fns.isEmpty e = false) :
    ∃ next, s.reinsert fns e = .ok next ∧ Stores fns next (e ::ₘ A) ∧ next.numBuckets = s.numBuckets ∧
      next.numElements = s.numElements := by
  obtain ⟨m, hm, found, hfind, hlook⟩ := h.findIndexImpl_ok hroom false (fns.key e) (fns.hashfn (fns.key e))
  have hslot : s.firstAvailableSlot fns (ideal fns s e) = .ok (after s.numBuckets (ideal fns s e) m) := by
    rw [firstAvailableSlot, firstAvailableLoop_eq (fns.key e)]
    exact congrArg (Except.map _) hfind
  rcases found with _ | _
  · refine ⟨_, ?_, h.fill he hm hlook, numBuckets_setElement .., rfl⟩
    rw [ideal] at hslot
    simp only [reinsert, he, Bool.false_eq_true, if_false, hslot]
    rfl
  · exact nomatch (hlook.equal rfl).1

/-- Reinserting elements stores them all. -/
theorem reinsert_all : ∀ (l : List T) {s : HashSet T} {A : Multiset T}, Stores fns s A →
    A.card + (l.filter fun x => !fns.isEmpty x).length < s.numBuckets →
    ∃ next, l.foldlM (fun moved element => reinsert fns moved element) s = .ok next ∧
      Stores fns next ((l.filter fun x => !fns.isEmpty x : List T) + A) ∧ next.numBuckets = s.numBuckets ∧
      next.numElements = s.numElements
  | [], s, A, h, _ => ⟨s, rfl, by simpa using h, rfl, rfl⟩
  | x :: l, s, A, h, hroom => by
    rw [foldlM_cons]
    rcases hx : fns.isEmpty x with _ | _
    · simp only [filter_cons, hx, Bool.not_false, if_true, length_cons] at hroom ⊢
      obtain ⟨mid, hmid, hstores, hn, hcount⟩ := h.reinsert_ok (by omega) hx
      obtain ⟨next, hnext, hstores', hn', hcount'⟩ := reinsert_all l hstores (by
        rw [Multiset.card_cons, hn]
        omega)
      refine ⟨next, ?_, ?_, hn'.trans hn, hcount'.trans hcount⟩
      · rw [hmid]
        exact hnext
      · rwa [← Multiset.cons_coe, Multiset.cons_add, ← Multiset.add_cons]
    · simp only [filter_cons, hx, Bool.not_true, Bool.false_eq_true, if_false] at hroom ⊢
      have hskip : s.reinsert fns x = .ok s := by
        rw [reinsert, if_pos hx]
      rw [hskip]
      exact reinsert_all l h hroom

theorem stores_of_isEmpty (h : ∀ x ∈ s.data, fns.isEmpty x = true) : Stores fns s 0 := by
  refine ⟨?_, fun j hj a ha => ?_⟩
  · rw [contents_slots, filter_eq_nil_iff.mpr fun x hx => by simp [h x hx]]
    rfl
  · have hlt : j < s.data.length := hj
    rw [slots_eq_some, elementForIndex, getD_eq_getElem?_getD, getElem?_eq_getElem hlt, Option.getD_some,
      h _ (getElem_mem hlt)] at ha
    exact nomatch ha.2

theorem stores_allocateStorage (hl : fns.Lawful) (n : Nat) : Stores fns (s.allocateStorage fns n) 0 := by
  refine stores_of_isEmpty fun x hx => ?_
  rw [eq_of_mem_replicate hx]
  exact hl.isEmpty_makeEmpty _

theorem Stores.resize_ok (lf : LoadFactors) (hl : fns.Lawful) (h : Stores fns s A) {newSize : Nat}
    (hroom : A.card < resizeBuckets newSize) :
    ∃ next, s.resize fns lf newSize = .ok next ∧ Stores fns next A ∧ next.numBuckets = resizeBuckets newSize ∧
      next.numElements = s.numElements := by
  have hA : (s.data.filter fun x => !fns.isEmpty x : List T) = A := (contents_slots fns s).symm.trans h.elements
  have hn : (s.allocateStorage fns (resizeBuckets newSize)).numBuckets = resizeBuckets newSize := length_replicate
  obtain ⟨moved, hmoved, hstores, hbuckets, hcount⟩ := reinsert_all s.data
    (stores_allocateStorage (s := s) hl (resizeBuckets newSize)) (by
      rw [hn, ← Multiset.coe_card, hA]
      simpa using hroom)
  rw [hA, add_zero] at hstores
  refine ⟨{ moved with elementsUntilExpand := lf.mulMax moved.numBuckets }, ?_, hstores.numElements_irrel,
    hbuckets.trans hn, hcount⟩
  rw [resize, hmoved]
  rfl

/-! ### Removal -/

theorem unwrapped_eq {hole : Nat} (hhole : hole < s.numBuckets) (i : Nat) :
    s.unwrapped i hole = hole + steps s.numBuckets hole i := by
  unfold unwrapped steps
  split_ifs <;> omega

/-- The loop of `erase`: `hole` is the empty index, and `m` steps behind it is the next element to look at.
    Whatever is left in the bucket of the hole does not matter. -/
theorem eraseLoop_ok (hl : fns.Lawful) : ∀ (fuel : Nat) (s : HashSet T) (hole m t : Nat) (filled : Bool),
    hole < s.numBuckets → 0 < m → m ≤ t → t < s.numBuckets → t < m + fuel →
    slots fns s (after s.numBuckets hole t) = none →
    contents s.numBuckets (update (slots fns s) hole none) = A →
    PlacedBut s.numBuckets (ideal fns s) hole (update (slots fns s) hole none) →
    Settled s.numBuckets (ideal fns s) (update (slots fns s) hole none) hole m →
    ∃ next filled', eraseLoop fns fuel s hole (after s.numBuckets hole (m - 1)) filled = .ok (next, filled') ∧
      Stores fns next A ∧ next.numBuckets = s.numBuckets ∧ next.numElements = s.numElements := by
  intro fuel
  induction fuel with
  | zero => intro s hole m t filled _ _ hmt _ hfuel; omega
  | succ fuel ih =>
    intro s hole m t filled hhole hm hmt htn hfuel hfree hA hplaced hsettled
    have hideal : ∀ x, ideal fns s x < s.numBuckets := fun x => indexForHash_lt (by omega) _
    have hp := after_lt hhole (show m ≤ s.numBuckets by omega)
    have hpos : ∀ k, 0 < k → k < s.numBuckets → after s.numBuckets hole k ≠ hole := by
      intro k hk hkn he
      have := after_injective (i := hole) hkn (show 0 < s.numBuckets by omega) (by rw [he, after_zero hhole])
      omega
    have hne := hpos m hm (by omega)
    have hbusy : ¬fns.isEmpty (s.elementForIndex fns (after s.numBuckets hole m)) = true → m ≠ t := by
      rintro hfull rfl
      exact hfull (slots_eq_none.mp hfree)
    rw [eraseLoop]
    simp only [nextIndex_after hhole (show m - 1 < s.numBuckets by omega), Nat.sub_add_cancel hm, unwrapped_eq hhole]
    split_ifs with hempty hpast
    · -- The next bucket is empty: the hole is closed by making its bucket empty.
      refine ⟨_, filled, rfl, ⟨?_, ?_⟩, numBuckets_setElement .., rfl⟩
      · rwa [numBuckets_setElement, slots_setElement hhole, if_pos (hl.isEmpty_makeEmpty _)]
      · rw [numBuckets_setElement, ideal_setElement, slots_setElement hhole, if_pos (hl.isEmpty_makeEmpty _)]
        refine placed_of_settled hideal hm (by omega) hplaced hsettled ?_
        rw [update_of_ne hne, slots_eq_none]
        exact hempty
    · -- The next element was probed from before the hole: it moves there, and its bucket is the new hole.
      have hx := slots_eq_some.mpr ⟨rfl, by simpa using hempty⟩
      have htm := hbusy hempty
      have hpast' : steps s.numBuckets hole (ideal fns s (s.elementForIndex fns (after s.numBuckets hole m))) = 0 ∨
          steps s.numBuckets hole (after s.numBuckets hole m) <
            steps s.numBuckets hole (ideal fns s (s.elementForIndex fns (after s.numBuckets hole m))) := by
        rw [Bool.or_eq_true, decide_eq_true_eq, decide_eq_true_eq] at hpast
        unfold ideal
        omega
      generalize s.elementForIndex fns (after s.numBuckets hole m) = x at hx hpast' hempty ⊢
      generalize hq : after s.numBuckets hole m = q at hp hne hx hpast' ⊢
      have hslots : slots fns ((s.setElement hole x).setElement q (fns.movedFrom x)) =
          update (update (slots fns s) hole (some x)) q
            (if fns.isEmpty (fns.movedFrom x) then none else some (fns.movedFrom x)) := by
        rw [slots_setElement (by simpa using hp), slots_setElement hhole, if_neg hempty]
      have hnext : update (slots fns ((s.setElement hole x).setElement q (fns.movedFrom x))) q none =
          update (update (update (slots fns s) hole none) hole (some x)) q none := by
        rw [hslots, update_idem, update_idem]
      have hx' : update (slots fns s) hole none q = some x := by rwa [update_of_ne hne]
      have := ih ((s.setElement hole x).setElement q (fns.movedFrom x)) q 1 (t - m) true
      simp only [numBuckets_setElement, ideal_setElement, hnext, Nat.sub_self, after_zero hp] at this
      refine this hp Nat.one_pos (by omega) (by omega) (by omega) ?_ ?_ ?_ settled_one
      · have hat : after s.numBuckets q (t - m) = after s.numBuckets hole t := by
          rw [← hq, after_after hhole (by omega), Nat.add_sub_cancel' hmt]
        have hth : after s.numBuckets hole t ≠ hole := hpos t (by omega) htn
        have htq : after s.numBuckets hole t ≠ q := by
          rw [← hq]
          exact fun he => htm (after_injective (by omega) htn he.symm)
        rw [hat, hslots, update_of_ne htq, update_of_ne hth, hfree]
      · rw [update_comm hne.symm, contents_fill hhole, ← contents_free hp hx', hA]
        rw [update_of_ne hne.symm, update_self]
      · exact placedBut_move hideal hhole hp hne hplaced hx' hpast'
    · -- The next element stays: its ideal index lies behind the hole.
      have hx := slots_eq_some.mpr ⟨rfl, by simpa using hempty⟩
      have htm := hbusy hempty
      rw [Bool.or_eq_true, decide_eq_true_eq, decide_eq_true_eq, steps_after hhole (by omega)] at hpast
      have := ih s hole (m + 1) t filled hhole (by omega) (by omega) htn (by omega) hfree hA hplaced
        (settled_succ hsettled (a := s.elementForIndex fns (after s.numBuckets hole m))
          (by rwa [update_of_ne hne]) (by unfold ideal; omega) (by unfold ideal; omega))
      rwa [Nat.add_sub_cancel] at this

/-- Erasing a slot stores the other elements, with no hole in a probe sequence. -/
theorem Stores.erase_ok (hl : fns.Lawful) {x : T} (h : Stores fns s (x ::ₘ A)) (hroom : A.card + 1 < s.numBuckets)
    (hi : i < s.numBuckets) (hx : slots fns s i = some x) :
    ∃ next index, s.erase fns i = .ok (next, index) ∧ Stores fns next A ∧ next.numBuckets = s.numBuckets ∧
      next.numElements = s.numElements - 1 := by
  obtain ⟨t, ht, hfree⟩ := h.exists_free (by simpa using hroom) hi
  have ht0 : 0 < t := by
    rcases Nat.eq_zero_or_pos t with rfl | hpos
    · rw [after_zero hi, hx] at hfree
      cases hfree
    · exact hpos
  have hA : contents s.numBuckets (update (slots fns s) i none) = A := by
    have := (contents_free hi hx).symm.trans h.elements
    exact (Multiset.cons_inj_right x).mp this
  obtain ⟨next, filled, hloop, hstores, hn, hcount⟩ := eraseLoop_ok hl s.numBuckets s i 1 t false hi Nat.one_pos
    ht0 ht (by omega) hfree hA (placedBut_open h.placed) settled_one
  rw [Nat.sub_self, after_zero hi] at hloop
  refine ⟨{ next with numElements := next.numElements - 1 },
    if filled then i else nextNonEmptySlot fns { next with numElements := next.numElements - 1 } i, ?_,
    hstores.numElements_irrel, hn, congrArg (· - 1) hcount⟩
  rw [erase, hloop]
  rfl

/-! ### Runs -/

/-- The operations on a set. -/
inductive Op (T K : Type)
  | insert (element : T)
  | put (element : T)
  /-- `erase(find(key))` -/
  | erase (key : K)
  | reserve (numElements : Nat)
  | shrinkToMaximumLoad

def step (fns : Functions T K) (lf : LoadFactors) (s : HashSet T) : Op T K → Except Failure (HashSet T)
  | .insert element => do return (← s.insert fns lf element).1
  | .put element => s.put fns lf element
  | .erase key => do return (← s.erase fns (← s.find fns key)).1
  | .reserve numElements => s.reserve fns lf numElements
  | .shrinkToMaximumLoad => s.shrinkToMaximumLoad fns lf

/-- The number of buckets after an insertion has decided about growth. -/
def insertBuckets (lf : LoadFactors) (s : HashSet T) : Nat :=
  if s.numElements ≥ s.elementsUntilExpand then resizeBuckets (lf.divMin s.size) else s.numBuckets

instance (A : Multiset T) (k : K) : Decidable (∃ x ∈ A, fns.pred x k = true) := Multiset.decidableExistsMultiset

/-- What `A` is after an element has been inserted. -/
def inserted (fns : Functions T K) (A : Multiset T) (e : T) : Multiset T :=
  if ∃ x ∈ A, fns.pred x (fns.key e) = true then A else e ::ₘ A

/-- The operations that may be applied to a set with the elements `A`: inserted elements are not empty, only
    absent elements are put, only present ones are erased, and a bucket stays empty after a decision about
    growth. -/
def Admissible (fns : Functions T K) (lf : LoadFactors) (s : HashSet T) (A : Multiset T) : Op T K → Prop
  | .insert e => fns.isEmpty e = false ∧ (inserted fns A e).card < s.insertBuckets lf
  | .put e => fns.isEmpty e = false ∧ (∀ x ∈ A, fns.pred x (fns.key e) = false) ∧ A.card + 1 < s.insertBuckets lf
  | .erase k => ∃ x ∈ A, fns.pred x k = true
  | .reserve numElements => ∃ n, reserveBuckets lf numElements = .ok n
  | .shrinkToMaximumLoad => A.card < resizeBuckets (lf.divMax s.size)

/-- What an operation does to the finite set `A`; `erase(find(k))` removes the element that was found. -/
inductive Effect (fns : Functions T K) (s : HashSet T) : Multiset T → Op T K → Multiset T → Prop
  | insert {A : Multiset T} (e : T) : Effect fns s A (.insert e) (inserted fns A e)
  | put {A : Multiset T} (e : T) : Effect fns s A (.put e) (e ::ₘ A)
  | erase {A B : Multiset T} {k : K} {i : Nat} (found : s.find fns k = .ok i)
      (removed : A = s.elementForIndex fns i ::ₘ B) : Effect fns s A (.erase k) B
  | reserve {A : Multiset T} (n : Nat) : Effect fns s A (.reserve n) A
  | shrink {A : Multiset T} : Effect fns s A .shrinkToMaximumLoad A

/-- `s` is reached by a run of admissible operations; `A` are the elements inserted and not erased. -/
inductive Run (fns : Functions T K) (lf : LoadFactors) : HashSet T → Multiset T → Prop
  | new : Run fns lf new 0
  | ofBuffer (buffer : List T) : Run fns lf (ofBuffer fns lf buffer) 0
  | step {s next : HashSet T} {A B : Multiset T} {op : Op T K} (before : Run fns lf s A)
      (admissible : Admissible fns lf s A op) (returns : s.step fns lf op = .ok next) (effect : Effect fns s A op B) :
      Run fns lf next B

/-- The set stores `A`, counts it and has a free bucket. -/
structure Inv (fns : Functions T K) (s : HashSet T) (A : Multiset T) : Prop where
  stores : Stores fns s A
  count : s.numElements = A.card
  room : A.card < s.numBuckets ∨ s.numBuckets = 0

theorem Inv.lt_of_mem (h : Inv fns s A) (he : e ∈ A) : A.card < s.numBuckets := by
  rcases h.room with hroom | hzero
  · exact hroom
  · rw [← h.stores.elements, hzero, mem_contents] at he
    obtain ⟨i, hi, -⟩ := he
    omega

/-- `find` returns a slot with the key, or the end when no element has it. -/
theorem Inv.find_ok (hl : fns.Lawful) (h : Inv fns s A) (key : K) : ∃ i, s.find fns key = .ok i ∧
    ((i < s.numBuckets ∧ ∃ x, slots fns s i = some x ∧ fns.pred x key = true) ∨
      (i = s.numBuckets ∧ ∀ x ∈ A, fns.pred x key = false)) := by
  rcases h.room with hroom | hzero
  · obtain ⟨m, hm, found, hfind, hlook⟩ := h.stores.findIndexImpl_ok hroom true key (fns.hashfn key)
    have hlt := after_lt (indexForHash_lt (s := s) (by omega) (fns.hashfn key)) hm.le
    have hret : s.find fns key = .ok (if found then after s.numBuckets (s.indexForHash (fns.hashfn key)) m
        else s.numBuckets) := by
      rw [find, findIndex, if_neg (by omega), hfind]
      rfl
    rcases found with _ | _
    · exact ⟨_, hret, .inr ⟨rfl, fun x hx => h.stores.not_pred_of_free hl hm hlook hx⟩⟩
    · exact ⟨_, hret, .inl ⟨hlt, (hlook.equal rfl).2⟩⟩
  · refine ⟨0, by rw [find, findIndex, if_pos hzero], .inr ⟨hzero.symm, fun x hx => ?_⟩⟩
    have := h.lt_of_mem hx
    omega

theorem Stores.growForInsert_ok (lf : LoadFactors) (hl : fns.Lawful) (h : Stores fns s A)
    (hroom : A.card < s.insertBuckets lf) :
    ∃ next, s.growForInsert fns lf = .ok next ∧ Stores fns next A ∧ next.numBuckets = s.insertBuckets lf ∧
      next.numElements = s.numElements := by
  unfold growForInsert
  unfold insertBuckets at hroom ⊢
  split_ifs at hroom ⊢
  · exact h.resize_ok lf hl hroom
  · exact ⟨s, rfl, h, rfl, rfl⟩

include h in
theorem Stores.inv_add (he : fns.isEmpty e = false) (hm : m < s.numBuckets) {canFind : Bool}
    (hlook : Looked fns s canFind (fns.key e) (ideal fns s e) m false) (hcount : s.numElements = A.card)
    (hroom : A.card + 1 < s.numBuckets) :
    Inv fns { s.setElement (after s.numBuckets (ideal fns s e) m) e with numElements := s.numElements + 1 }
      (e ::ₘ A) := by
  refine ⟨(h.fill he hm hlook).numElements_irrel, ?_, .inl ?_⟩
  · rw [Multiset.card_cons, hcount]
  · rw [Multiset.card_cons]
    exact (numBuckets_setElement ..).symm ▸ hroom

theorem card_le_inserted (fns : Functions T K) (A : Multiset T) (e : T) : A.card ≤ (inserted fns A e).card := by
  unfold inserted
  split_ifs
  · exact le_rfl
  · rw [Multiset.card_cons]
    omega

/-- `insert` adds the element unless one with its key is there. -/
theorem Inv.insert_ok (hl : fns.Lawful) (h : Inv fns s A) (he : fns.isEmpty e = false)
    (hroom : (inserted fns A e).card < s.insertBuckets lf) :
    ∃ next index added, s.insert fns lf e = .ok (next, index, added) ∧ Inv fns next (inserted fns A e) := by
  have hle := card_le_inserted fns A e
  obtain ⟨mid, hmid, hstores, hn, hcount⟩ := h.stores.growForInsert_ok lf hl (by omega)
  obtain ⟨m, hm, found, hfind, hlook⟩ := hstores.findIndexImpl_ok (by omega) true (fns.key e) (fns.hashfn (fns.key e))
  rcases found with _ | _
  · have habsent : inserted fns A e = e ::ₘ A := by
      refine if_neg ?_
      rintro ⟨x, hx, hpred⟩
      rw [hstores.not_pred_of_free hl hm hlook hx] at hpred
      cases hpred
    rw [habsent, Multiset.card_cons] at hroom
    rw [habsent]
    refine ⟨_, after mid.numBuckets (ideal fns mid e) m, true, ?_, hstores.inv_add he hm hlook (hcount.trans h.count)
      (by omega)⟩
    rw [insert, insertWithHash, hmid]
    simp only [bind, Except.bind, hfind]
    rfl
  · obtain ⟨-, x, hx, hpred⟩ := hlook.equal rfl
    have hlt := after_lt (indexForHash_lt (s := mid) (by omega) (fns.hashfn (fns.key e))) hm.le
    have hpresent : inserted fns A e = A := if_pos ⟨x, hstores.mem_of_slots hlt hx, hpred⟩
    rw [hpresent] at hroom ⊢
    refine ⟨mid, after mid.numBuckets (ideal fns mid e) m, false, ?_, hstores, hcount.trans h.count, .inl (by omega)⟩
    rw [insert, insertWithHash, hmid]
    simp only [bind, Except.bind, hfind]
    rfl

theorem Inv.put_ok (hl : fns.Lawful) (h : Inv fns s A) (he : fns.isEmpty e = false)
    (hroom : A.card + 1 < s.insertBuckets lf) :
    ∃ next, s.put fns lf e = .ok next ∧ Inv fns next (e ::ₘ A) := by
  obtain ⟨mid, hmid, hstores, hn, hcount⟩ := h.stores.growForInsert_ok lf hl (by omega)
  obtain ⟨m, hm, found, hfind, hlook⟩ := hstores.findIndexImpl_ok (by omega) false (fns.key e) (fns.hashfn (fns.key e))
  rcases found with _ | _
  · refine ⟨_, ?_, hstores.inv_add he hm hlook (hcount.trans h.count) (by omega)⟩
    rw [put, putWithHash, hmid]
    simp only [bind, Except.bind, hfind]
    rfl
  · exact nomatch (hlook.equal rfl).1

/-- Erasing a key that is present removes one element with it. -/
theorem Inv.erase_find_ok (hl : fns.Lawful) (h : Inv fns s A) {k : K} (hk : ∃ x ∈ A, fns.pred x k = true) :
    ∃ next B, s.step fns lf (.erase k) = .ok next ∧ Effect fns s A (.erase k) B ∧ Inv fns next B := by
  obtain ⟨y, hy, hpred⟩ := hk
  have hroom := h.lt_of_mem hy
  obtain ⟨i, hfind, ⟨hi, x, hx, -⟩ | ⟨-, habsent⟩⟩ := h.find_ok hl k
  · obtain ⟨B, hB⟩ := Multiset.exists_cons_of_mem (h.stores.mem_of_slots hi hx)
    have hcard := congrArg Multiset.card hB
    rw [Multiset.card_cons] at hcard
    obtain ⟨next, index, herase, hstores, hn, hcount⟩ := (hB ▸ h.stores).erase_ok hl (by omega) hi hx
    refine ⟨next, B, ?_, .erase hfind ?_, hstores, ?_, .inl (by omega)⟩
    · simp only [step, bind, Except.bind, hfind, herase]
      rfl
    · rw [(slots_eq_some.mp hx).1, hB]
    · rw [hcount, h.count, hcard, Nat.add_sub_cancel]
  · rw [habsent y hy] at hpred
    cases hpred

/-- An admissible operation returns, has its effect on the finite set, and keeps the invariant. -/
theorem Inv.step_ok (hl : fns.Lawful) (h : Inv fns s A) {op : Op T K} (hop : Admissible fns lf s A op) :
    ∃ next B, s.step fns lf op = .ok next ∧ Effect fns s A op B ∧ Inv fns next B := by
  cases op with
  | insert e =>
    obtain ⟨next, index, added, hok, hinv⟩ := h.insert_ok hl hop.1 hop.2
    refine ⟨next, _, ?_, .insert e, hinv⟩
    rw [step, hok]
    rfl
  | put e =>
    obtain ⟨next, hok, hinv⟩ := h.put_ok hl hop.1 hop.2.2
    exact ⟨next, _, hok, .put e, hinv⟩
  | erase k => exact h.erase_find_ok hl hop
  | reserve numElements =>
    obtain ⟨n, hn⟩ := hop
    rcases Nat.lt_or_ge s.numBuckets n with hlt | hge
    · -- More buckets than before are more than there are elements.
      have hcard : A.card < resizeBuckets n := by
        have : n ≤ resizeBuckets n := by
          unfold resizeBuckets
          split_ifs <;> omega
        rcases h.room with hroom | hzero
        · omega
        have : A.card = 0 := by
          rw [← h.stores.elements, hzero]
          rfl
        omega
      obtain ⟨next, hok, hstores, hbuckets, hcount⟩ := h.stores.resize_ok lf hl hcard
      refine ⟨next, A, ?_, .reserve _, hstores, hcount.trans h.count, .inl (by omega)⟩
      simp only [step, reserve, bind, Except.bind, hn, gt_iff_lt, hlt, if_true, hok]
    · refine ⟨s, A, ?_, .reserve _, h⟩
      simp only [step, reserve, bind, Except.bind, hn, gt_iff_lt, Nat.not_lt.mpr hge, if_false]
      rfl
  | shrinkToMaximumLoad =>
    obtain ⟨next, hok, hstores, hbuckets, hcount⟩ := h.stores.resize_ok lf hl hop
    exact ⟨next, A, hok, .shrink, hstores, hcount.trans h.count, .inl (hbuckets.symm ▸ hop)⟩

theorem effect_unique {op : Op T K} {B C : Multiset T} (hB : Effect fns s A op B) (hC : Effect fns s A op C) :
    B = C := by
  cases hB with
  | erase found removed =>
    cases hC with
    | erase found' removed' =>
      cases found.symm.trans found'
      exact (Multiset.cons_inj_right _).mp (removed.symm.trans removed')
  | _ => cases hC; rfl

theorem Run.inv (hl : fns.Lawful) (h : Run fns lf s A) : Inv fns s A := by
  induction h with
  | new => exact ⟨⟨rfl, fun j hj => absurd hj (Nat.not_lt_zero j)⟩, rfl, .inr rfl⟩
  | ofBuffer buffer =>
    refine ⟨stores_of_isEmpty fun x hx => ?_, rfl, ?_⟩
    · obtain ⟨y, -, rfl⟩ := mem_map.mp hx
      exact hl.isEmpty_makeEmpty y
    · exact (Nat.eq_zero_or_pos _).symm
  | step before admissible returns effect ih =>
    obtain ⟨next, B, hok, heffect, hinv⟩ := ih.step_ok hl admissible
    cases hok.symm.trans returns
    rwa [effect_unique effect heffect]

/-- If elements equal themselves, none is stored twice. -/
theorem Run.nodup (hrefl : ∀ x, fns.pred x (fns.key x) = true) (h : Run fns lf s A) : A.Nodup := by
  induction h with
  | new | ofBuffer => exact Multiset.nodup_zero
  | step before admissible returns effect ih =>
    cases effect with
    | insert e =>
      unfold inserted
      split_ifs with hpresent
      · exact ih
      · exact Multiset.nodup_cons.mpr ⟨fun he => hpresent ⟨e, he, hrefl e⟩, ih⟩
    | put e =>
      refine Multiset.nodup_cons.mpr ⟨fun he => ?_, ih⟩
      have := admissible.2.1 e he
      rw [hrefl e] at this
      cases this
    | erase found removed => exact (Multiset.nodup_cons.mp (removed ▸ ih)).2
    | reserve | shrink => exact ih

/-- In every run that leaves a bucket empty: the non-empty buckets are counted by `size()`, no empty bucket lies
    on the probe path of an element, `find` returns an element equal to the key if and only if one was
    inserted and not erased, and every operation returns and does to `A` what it does to a finite set. -/
theorem run_refines_set (hl : fns.Lawful) (h : Run fns lf s A) :
    (s.data.countP fun x => !fns.isEmpty x) = s.size ∧
    (∀ j < s.numBuckets, s.isFreeSlot fns j = false →
      ∀ k < steps s.numBuckets (ideal fns s (s.elementForIndex fns j)) j,
        s.isFreeSlot fns (after s.numBuckets (ideal fns s (s.elementForIndex fns j)) k) = false) ∧
    (∀ key, ∃ i, s.find fns key = .ok i ∧
      ((i < s.numBuckets ∧ s.elementForIndex fns i ∈ A ∧ fns.pred (s.elementForIndex fns i) key = true) ∨
        (i = s.numBuckets ∧ ∀ x ∈ A, fns.pred x key = false))) ∧
    (∀ op, Admissible fns lf s A op → ∃ next B, s.step fns lf op = .ok next ∧ Effect fns s A op B) ∧
    ((∀ x, fns.pred x (fns.key x) = true) → A.Nodup) := by
  have hinv := h.inv hl
  refine ⟨?_, fun j hj hbusy k hk => ?_, fun key => ?_, fun op hop => ?_, fun hrefl => h.nodup hrefl⟩
  · rw [countP_eq_length_filter, ← Multiset.coe_card, ← contents_slots, hinv.stores.elements]
    exact hinv.count.symm
  · have := hinv.stores.placed j hj _ (slots_eq_some.mpr ⟨rfl, hbusy⟩) k hk
    rw [Ne, slots_eq_none, Bool.not_eq_true] at this
    exact this
  · obtain ⟨i, hfind, ⟨hi, x, hx, hpred⟩ | habsent⟩ := hinv.find_ok hl key
    · have hmem := hinv.stores.mem_of_slots hi hx
      obtain ⟨rfl, -⟩ := slots_eq_some.mp hx
      exact ⟨i, hfind, .inl ⟨hi, hmem, hpred⟩⟩
    · exact ⟨i, hfind, .inr habsent⟩
  · obtain ⟨next, B, hok, heffect, -⟩ := hinv.step_ok hl hop
    exact ⟨next, B, hok, heffect⟩

/-- Numbers, of which 0 is the empty element. -/
def natFunctions : Functions Nat Nat where
  isEmpty x := x == 0
  makeEmpty _ := 0
  hashfn k := k
  pred x k := x == k
  key x := x
  construct := 0
  movedFrom x := x

theorem natFunctions_lawful : natFunctions.Lawful := ⟨fun _ => rfl, fun _ _ h => by simpa [natFunctions] using h⟩

/-- A buffer of three buckets in which 4 and 7 collide; after 4 has been erased, 7 is found in its place. -/
theorem run_refines_set_collision :
    (HashSet.mk [0, 7, 0] 1 2).find natFunctions 7 = .ok 1 ∧
    ((HashSet.mk [0, 7, 0] 1 2).data.countP fun x => !natFunctions.isEmpty x) = 1 := by
  have hrun : Run natFunctions ⟨id, id, (· - 1)⟩ (HashSet.mk [0, 7, 0] 1 2) {7} := by
    have h4 : Run natFunctions ⟨id, id, (· - 1)⟩ (HashSet.mk [0, 4, 0] 1 2) {4} :=
      .step (.ofBuffer [0, 0, 0]) (show Admissible _ _ _ _ (.insert 4) from ⟨rfl, by decide⟩) rfl (.insert 4)
    have h7 : Run natFunctions ⟨id, id, (· - 1)⟩ (HashSet.mk [0, 4, 7] 2 2) {7, 4} :=
      .step h4 (show Admissible _ _ _ _ (.insert 7) from ⟨rfl, by decide⟩) rfl (.insert 7)
    exact .step h7 (show Admissible _ _ _ _ (.erase 4) from ⟨4, by decide, rfl⟩) rfl
      (.erase (i := 1) rfl (Multiset.cons_swap 7 4 0))
  exact ⟨rfl, (run_refines_set natFunctions_lawful hrun).1⟩

end Art.HashSet
