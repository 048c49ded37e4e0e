import Art.Theorems.LrtFreeList

/-! # Adding a local reference -/

namespace Art.Lrt
open LrtEntry List Function

variable {t : LocalReferenceTable} {f : Frame} {fs : List Frame} {free : List Nat} {frees : List (List Nat)}
  {refs : List (IndirectRef × Object)} {obj : Object} {i k : Nat}

variable {w : Nat → LrtEntry} {bottom top : Nat}

theorem Segment.notMem_refs (h : Segment w bottom top refs free)
    (hk : top ≤ k ∨ ∀ obj, w k ≠ reference obj) : entryAt k ∉ refs.map Prod.fst := by
  intro hmem
  obtain ⟨⟨r, obj⟩, hr, heq⟩ := mem_map.mp hmem
  obtain ⟨i, rfl, -, hi, -, hw⟩ := (h.mem_refs r obj).mp hr
  obtain rfl := entryAt_injective heq
  exact hk.elim (fun hle => hi.not_ge hle) fun hne => hne obj hw

variable {free' : List Nat}

/-- A reference overwrites a free entry or a new one. -/
theorem Segment.overwrites_reference
    (h : Segment w bottom top refs free) (hk : top ≤ k ∨ ∀ obj, w k ≠ reference obj)
    (hmem : ∀ i, i ∈ free' ↔ i ∈ free ∧ i ≠ k) (hnodup : free'.Nodup) :
    Segment.Overwrites k (reference obj) refs ((entryAt k, obj) :: refs) free free' where
  mem_refs r o := by
    have hnot := h.notMem_refs hk
    simp only [mem_cons, Prod.mk.injEq, reference_inj]
    constructor
    · rintro (⟨rfl, rfl⟩ | hr)
      · exact .inr ⟨rfl, rfl⟩
      · exact .inl ⟨hr, fun heq => hnot (heq ▸ mem_map_of_mem hr)⟩
    · rintro (⟨hr, -⟩ | ⟨rfl, rfl⟩)
      · exact .inr hr
      · exact .inl ⟨rfl, rfl⟩
  mem_free i := by simp [hmem]
  refs_nodup := by
    rw [map_cons, nodup_cons]
    exact ⟨h.notMem_refs hk, h.refs_nodup⟩
  free_nodup := hnodup

/-- In a chunk, the new serial number selects the new reference only. -/
theorem Segment.select_reference {w w' : Nat → LrtEntry}
    (h : Segment w bottom top refs free) {c n top' : Nat} (hc : c % 4 = 0) (hbc : bottom ≤ c) (hn : 1 ≤ n) (hn' : n ≤ 3)
    (hserial : w' c = serial n) (hobj : w' (c + n) = reference obj) (hsame : ∀ i, i < c ∨ c + 4 ≤ i → w' i = w i)
    (htop : c + 4 ≤ top ∧ top' = top ∨ c = top ∧ top' = top + 4)
    (hfresh : ∀ i, chunkOf i = c → entryAt i ∉ refs.map Prod.fst)
    (hfree : ∀ i, i ∈ free' ↔ i ∈ free ∧ chunkOf i ≠ c) (hnodup : free'.Nodup) :
    Segment w' bottom top' ((entryAt (c + n), obj) :: refs) free' := by
  have hchunk : chunkOf (c + n) = c := by
    rw [chunkOf_eq]
    omega
  refine h.select hc hbc hn hn' hserial hobj hsame htop (fun r o => ?_) hfree ?_ hnodup
  · simp only [mem_cons, Prod.mk.injEq]
    constructor
    · rintro (heq | hr)
      · exact .inr heq
      · exact .inl ⟨hr, fun i hi heq => hfresh i hi (heq ▸ mem_map_of_mem hr)⟩
    · rintro (⟨hr, -⟩ | heq)
      · exact .inr hr
      · exact .inl heq
  · rw [map_cons, nodup_cons]
    exact ⟨hfresh _ hchunk, h.refs_nodup⟩

/-- Two entries of one chunk with a serial number are the same if they are in use. -/
theorem Active.unique (hi : Active w i) (hk : Active w k) (heq : chunkOf i = chunkOf k)
    (hs : (w (chunkOf k)).isSerialNumber = true) : i = k := by
  have hi' := hi (heq.symm ▸ hs)
  rw [heq, hk hs] at hi'
  have := serial_inj.mp hi'
  have := chunkOf_le i
  have := chunkOf_le k
  omega

variable (h : Consistent t f fs [] free frees)

namespace Consistent

include h

/-- A new entry at the top. -/
theorem addTop (htop : t.topIndex < t.maxEntries) (obj : Object) :
    Consistent ({ t with topIndex := t.topIndex + 1 }.write (entryAt t.topIndex) (reference obj))
      { f with refs := (entryAt t.topIndex, obj) :: f.refs } fs [] free frees := by
  have hw := LocalReferenceTable.word_write { t with topIndex := t.topIndex + 1 } t.topIndex (reference obj)
  have hsame : ∀ i < t.topIndex, update t.word t.topIndex (reference obj) i = t.word i := fun i hi =>
    update_of_ne hi.ne ..
  have hfree : ∀ i, i ∈ free ↔ i ∈ free ∧ i ≠ t.topIndex := fun i =>
    ⟨fun hi => ⟨hi, (h.hole (mem_append_left _ hi)).1.ne⟩, And.left⟩
  refine ⟨h.allocated, htop, ?_, ?_, ?_, nofun, nodup_nil⟩
  · rw [hw]
    exact h.segment.push (isEntry_reference obj)
      (h.segment.overwrites_reference (.inl le_rfl) hfree h.segment.free_nodup)
  · rw [hw]
    exact h.outer.congr fun i hi => hsame i (hi.trans_le h.segment.le)
  · rw [hw]
    exact h.linked.congr fun i hi => congrArg link (hsame i (h.hole hi).1)

theorem first_mem (hne : t.firstFreeIndex ≠ kFreeListEnd) (hge : t.firstFreeIndex ≥ f.cookie) :
    ∃ free', free = t.firstFreeIndex :: free' := by
  have hlinked := h.linked
  cases free with
  | nil =>
    cases hrest : frees.flatten with
    | nil =>
      rw [hrest] at hlinked
      exact absurd hlinked hne
    | cons a rest =>
      rw [hrest] at hlinked
      have hlt := (h.outer.mem_flatten (hrest ▸ mem_cons_self)).1
      exact absurd (hlinked.1 ▸ hge) hlt.not_ge
  | cons a free => exact ⟨free, by rw [hlinked.1]⟩

omit h

/-- A reference in the place of the first free entry. -/
theorem reusePlain (h : Consistent t f fs [] (k :: free) frees) (obj : Object) :
    Consistent ({ t with firstFreeIndex := (t.word k).link }.write (entryAt k) (reference obj))
      { f with refs := (entryAt k, obj) :: f.refs } fs [] free frees := by
  have hw := LocalReferenceTable.word_write { t with firstFreeIndex := (t.word k).link } k (reference obj)
  obtain ⟨hk, hk', hactive, hhole⟩ := (h.segment.mem_free k).mp mem_cons_self
  have hnodup := nodup_cons.mp h.nodup
  have hfree : ∀ i, i ∈ free ↔ i ∈ k :: free ∧ i ≠ k := fun i =>
    ⟨fun hi => ⟨mem_cons_of_mem k hi, fun heq => hnodup.1 (heq ▸ mem_append_left _ hi)⟩,
      fun hi => (mem_cons.mp hi.1).resolve_left hi.2⟩
  refine ⟨h.allocated, h.top_le, ?_, ?_, ?_, nofun, nodup_nil⟩
  · rw [hw]
    refine h.segment.update hk hk' hactive (isEntry_reference obj)
      (h.segment.overwrites_reference (.inr fun o heq => ?_) hfree (nodup_cons.mp h.segment.free_nodup).2)
    rw [heq] at hhole
    exact not_isHole_reference hhole
  · rw [hw]
    exact h.outer.congr fun i hi => update_of_ne (hi.trans_le hk).ne ..
  · rw [hw]
    exact h.linked.2.congr fun i hi => congrArg link (update_of_ne (ne_of_mem_of_not_mem hi hnodup.1) ..)

theorem word_select (t : LocalReferenceTable) (c n : Nat) (obj : Object) (hn : 1 ≤ n) (hn' : n ≤ 3) :
    let w' := ((t.write (entryAt c) (serial n)).write (entryAt (c + n)) (reference obj)).word
    w' c = serial n ∧ w' (c + n) = reference obj ∧ ∀ i, i < c ∨ c + 4 ≤ i → w' i = t.word i := by
  intro w'
  have hw : w' = update (update t.word c (serial n)) (c + n) (reference obj) := by
    rw [← LocalReferenceTable.word_write, ← LocalReferenceTable.word_write]
  refine ⟨?_, ?_, fun i hi => ?_⟩
  · rw [hw, update_of_ne (by omega), update_self]
  · rw [hw, update_self]
  · rw [hw, update_of_ne (by omega), update_of_ne (by omega)]

/-- A reference in the chunk of the first free entry. -/
theorem reuseChunk (h : Consistent t f fs [] (k :: free) frees) (hs : (t.word (chunkOf k)).isSerialNumber = true)
    {n : Nat} (hn : 1 ≤ n) (hn' : n ≤ 3) (obj : Object) :
    Consistent (({ t with firstFreeIndex := (t.word k).link }.write (entryAt (chunkOf k)) (serial n)).write
        (entryAt (chunkOf k + n)) (reference obj))
      { f with refs := (entryAt (chunkOf k + n), obj) :: f.refs } fs [] free frees := by
  obtain ⟨hserial, hobj, hsame⟩ := word_select { t with firstFreeIndex := (t.word k).link } (chunkOf k) n obj hn hn'
  obtain ⟨hk, hk', hactive, hhole⟩ := (h.segment.mem_free k).mp mem_cons_self
  have hnodup := nodup_cons.mp h.nodup
  have hbottom := h.segment.chunkOf_ge hk hs
  have hchunk := fun i => chunkOf_eq i
  have hother : ∀ i ∈ free ++ frees.flatten, chunkOf i ≠ chunkOf k := by
    intro i hi heq
    rcases mem_append.mp hi with hi' | hi'
    · obtain ⟨-, -, hactive', -⟩ := (h.segment.mem_free i).mp (mem_cons_of_mem k hi')
      exact hnodup.1 (hactive'.unique hactive heq hs ▸ hi)
    · exact (h.outer.mem_flatten hi').1.not_ge (hbottom.trans (heq ▸ chunkOf_le i))
  refine ⟨h.allocated, h.top_le, ?_, ?_, ?_, nofun, nodup_nil⟩
  · refine h.segment.select_reference (by rw [hchunk]; omega) hbottom hn hn' hserial hobj hsame
      (.inl ⟨(h.segment.chunk k hk hk' hs).1, rfl⟩) (fun i hi hmem => ?_) (fun i => ?_)
        (nodup_cons.mp h.segment.free_nodup).2
    · obtain ⟨⟨r, o⟩, hr, heq⟩ := mem_map.mp hmem
      obtain ⟨j, rfl, -, -, hactive', hw⟩ := (h.segment.mem_refs r o).mp hr
      obtain rfl := entryAt_injective heq
      obtain rfl := hactive'.unique hactive hi hs
      rw [hw] at hhole
      exact not_isHole_reference hhole
    · rw [mem_cons]
      exact ⟨fun hi => ⟨.inr hi, hother i (mem_append_left _ hi)⟩,
        fun hi => hi.1.resolve_left fun heq => hi.2 (heq ▸ rfl)⟩
  · exact h.outer.congr fun i hi => hsame i (.inl (hi.trans_le hbottom))
  · refine h.linked.2.congr fun i hi => congrArg link (hsame i ?_)
    have := hother i hi
    rw [hchunk, hchunk] at this
    rw [hchunk]
    omega

include h

theorem addChunk (halign : t.topIndex % 4 = 0) (htop : t.topIndex + 4 ≤ t.maxEntries) {n : Nat} (hn : 1 ≤ n)
    (hn' : n ≤ 3) (obj : Object) :
    Consistent (({ t with topIndex := t.topIndex + 4 }.write (entryAt t.topIndex) (serial n)).write
        (entryAt (t.topIndex + n)) (reference obj))
      { f with refs := (entryAt (t.topIndex + n), obj) :: f.refs } fs [] free frees := by
  obtain ⟨hserial, hobj, hsame⟩ := word_select { t with topIndex := t.topIndex + 4 } t.topIndex n obj hn hn'
  have hbelow : ∀ i < t.topIndex, chunkOf i ≠ t.topIndex := fun i hi => ((chunkOf_le i).trans_lt hi).ne
  refine ⟨h.allocated, htop, ?_, ?_, ?_, nofun, nodup_nil⟩
  · refine h.segment.select_reference halign h.segment.le hn hn' hserial hobj hsame (.inr ⟨rfl, rfl⟩)
      (fun i hi => h.segment.notMem_refs (.inl ?_)) (fun i => ?_) h.segment.free_nodup
    · exact hi ▸ chunkOf_le i
    · exact ⟨fun hi => ⟨hi, hbelow i (h.hole (mem_append_left _ hi)).1⟩, And.left⟩
  · exact h.outer.congr fun i hi => hsame i (.inl (hi.trans_le h.segment.le))
  · exact h.linked.congr fun i hi => congrArg link (hsame i (.inl (h.hole hi).1))

/-- A hole at the top, at the head of the free list. -/
theorem addHole (htop : t.topIndex < t.maxEntries) :
    Consistent ({ t with firstFreeIndex := t.topIndex, topIndex := t.topIndex + 1 }.write (entryAt t.topIndex)
      (LrtEntry.free t.firstFreeIndex)) f fs [] (t.topIndex :: free) frees := by
  have hw := LocalReferenceTable.word_write { t with firstFreeIndex := t.topIndex, topIndex := t.topIndex + 1 }
    t.topIndex (LrtEntry.free t.firstFreeIndex)
  have hsame : ∀ i < t.topIndex, update t.word t.topIndex (LrtEntry.free t.firstFreeIndex) i = t.word i :=
    fun i hi => update_of_ne hi.ne ..
  have hnot : t.topIndex ∉ free := fun hi => (h.hole (mem_append_left _ hi)).1.ne rfl
  refine ⟨h.allocated, htop, ?_, ?_, ?_, nofun, nodup_nil⟩
  · rw [hw]
    refine h.segment.push (isEntry_free _) ⟨fun r o => ?_, fun i => ?_, h.segment.refs_nodup,
      nodup_cons.mpr ⟨hnot, h.segment.free_nodup⟩⟩
    · have hne : LrtEntry.free t.firstFreeIndex ≠ reference o := fun heq => not_isHole_reference (heq ▸ isHole_free)
      simp only [hne, and_false, or_false]
      exact ⟨fun hr => ⟨hr, fun heq => h.segment.notMem_refs (.inl le_rfl) (heq ▸ mem_map_of_mem hr)⟩, And.left⟩
    · simp only [mem_cons, isHole_free, and_true]
      exact ⟨fun hi => hi.elim .inr fun hi => .inl ⟨hi, fun heq => hnot (heq ▸ hi)⟩,
        fun hi => hi.elim (fun hi => .inr hi.1) .inl⟩
  · rw [hw]
    exact h.outer.congr fun i hi => hsame i (hi.trans_le h.segment.le)
  · rw [hw]
    refine ⟨rfl, ?_⟩
    simp only [update_self, link_free]
    exact h.linked.congr fun i hi => congrArg link (hsame i (h.hole hi).1)

theorem grows {t' : LocalReferenceTable} (hg : t.Grows t') : Consistent t' f fs [] free frees := by
  have hsame : ∀ i < t.topIndex, t'.word i = t.word i := fun i hi => hg.word i (hi.trans_le h.top_le)
  refine ⟨hg.allocated, ?_, ?_, ?_, ?_, nofun, nodup_nil⟩
  · rw [hg.topIndex]
    exact h.top_le.trans hg.maxEntries
  · rw [hg.topIndex]
    exact h.segment.congr fun i hi => .inl (hsame i hi)
  · exact h.outer.congr fun i hi => hsame i (hi.trans_le h.segment.le)
  · rw [hg.firstFreeIndex]
    exact h.linked.congr fun i hi => congrArg link (hsame i (h.hole hi).1)

end Consistent

/-! ### The paths of `Add` -/

/-- The segment with the reference that `Add` returned, if any. -/
def Frame.addRef (f : Frame) (obj : Object) : Option IndirectRef → Frame
  | some ref => { f with refs := (ref, obj) :: f.refs }
  | none => f

/-- All entries of the segment were created with CheckJNI enabled. -/
structure Checked (top : Nat) (f : Frame) (free : List Nat) : Prop where
  top : top % 4 = 0
  cookie : f.cookie % 4 = 0
  refs : ∀ i, entryAt i ∈ f.refs.map Prod.fst → i % 4 ≠ 0
  free : ∀ i ∈ free, i % 4 ≠ 0

theorem Checked.addRef {top top' : Nat} (h : Checked top f free) (htop : top' % 4 = 0) (hk : k % 4 ≠ 0)
    (hfree : free' ⊆ free) : Checked top' { f with refs := (entryAt k, obj) :: f.refs } free' where
  top := htop
  cookie := h.cookie
  refs i hi := by
    rw [map_cons, mem_cons, entryAt_inj] at hi
    exact hi.elim (fun heq => heq ▸ hk) (h.refs i)
  free i hi := h.free i (hfree hi)

/-- The state after a step of `Add`. The holes below the current segment stay. -/
structure Added (t t' : LocalReferenceTable) (f f' : Frame) (fs : List Frame) (free : List Nat)
    (frees : List (List Nat)) : Prop where
  consistent : ∃ stale free', Consistent t' f' fs stale free' frees ∧
    (t.checkJni = true → Checked t.topIndex f free → Checked t'.topIndex f' free')
  checkJni : t'.checkJni = t.checkJni
  smallTable : t'.smallTable = true → t.smallTable = true

theorem Added.trans {t' t'' : LocalReferenceTable} {f' f'' : Frame}
    (hchecked : t.checkJni = true → Checked t.topIndex f free → Checked t'.topIndex f' free')
    (hcheck : t'.checkJni = t.checkJni) (hsmall : t'.smallTable = true → t.smallTable = true)
    (h : Added t' t'' f' f'' fs free' frees) : Added t t'' f f'' fs free frees := by
  obtain ⟨stale, free'', hc, h'⟩ := h.consistent
  exact ⟨⟨stale, free'', hc, fun hch hck => h' (hcheck.trans hch) (hchecked hch hck)⟩, h.checkJni.trans hcheck,
    fun hs => hsmall (h.smallTable hs)⟩

theorem Added.of_not_checkJni {t' : LocalReferenceTable} {f' : Frame} (hcheck : t.checkJni ≠ true)
    (h : Consistent t' f' fs [] free' frees) (hcheck' : t'.checkJni = t.checkJni)
    (hsmall : t'.smallTable = true → t.smallTable = true) : Added t t' f f' fs free frees :=
  ⟨⟨[], free', h, fun h' => absurd h' hcheck⟩, hcheck', hsmall⟩

theorem Added.refl {stale : List Nat} (h : Consistent t f fs stale free frees) : Added t t f f fs free frees :=
  ⟨⟨stale, free, h, fun _ => id⟩, rfl, id⟩

namespace LocalReferenceTable

theorem Allocated.small (h : t.Allocated) (hsmall : t.smallTable = true) : t.maxEntries = kSmallLrtEntries := by
  obtain ⟨k, -, hmax, hk, -⟩ := h
  rw [hsmall] at hk
  obtain rfl := of_decide_eq_true hk.symm
  exact hmax

theorem getSmallEntry_of_lt (h : i < kSmallLrtEntries) : getSmallEntry i = .ok (entryAt i) := by
  rw [getSmallEntry, if_pos h, entryAt_of_lt h]

include h in
/-- The fast path of a small table adds at the top while there is room. -/
theorem addSmallTop_spec (hsmall : t.maxEntries = kSmallLrtEntries) (obj : Object) (hcheck : t.checkJni = false) :
    ∃ t' ref, t.addSmallTop obj = .ok (t', ref) ∧ Added t t' f (f.addRef obj ref) fs free frees ∧
      (ref = none → t' = t ∧ t.topIndex = kSmallLrtEntries) := by
  by_cases htop : t.topIndex = kSmallLrtEntries
  · exact ⟨t, none, if_neg (not_not.mpr htop), .refl h, fun _ => ⟨rfl, htop⟩⟩
  have hlt : t.topIndex < kSmallLrtEntries := Nat.lt_of_le_of_ne (hsmall ▸ h.top_le) htop
  refine ⟨_, some (entryAt t.topIndex), ?_,
    .of_not_checkJni (Bool.eq_false_iff.mp hcheck) (h.addTop (hsmall ▸ hlt) obj) rfl id, nofun⟩
  rw [addSmallTop, if_pos htop, getSmallEntry_of_lt hlt]
  rfl

variable {stale : List Nat}

/-- The fast path adds, or fails with CheckJNI or in a full table. -/
theorem addFast_spec (h : Consistent t f fs stale free frees) (hsmall : t.smallTable = true) (obj : Object) :
    ∃ t' ref, t.addFast f.cookie obj = .ok (t', ref) ∧ Added t t' f (f.addRef obj ref) fs free frees ∧
      (ref = none → t.checkJni = true ∨ t'.topIndex = kSmallLrtEntries) := by
  have hmax := h.allocated.small hsmall
  rw [addFast, dcheck_of (decide_eq_true hmax), dcheck_of (decide_eq_true (hmax ▸ h.top_le))]
  cases hcheck : t.checkJni with
  | true => exact ⟨t, none, by simp, .refl h, fun _ => .inl rfl⟩
  | false =>
    by_cases hend : t.firstFreeIndex = kFreeListEnd
    · have hstale : stale = [] := by
        cases stale with
        | nil => rfl
        | cons a stale =>
          have ha := h.popped a mem_cons_self
          exact absurd (h.linked.1.symm.trans hend) (h.of_lt_maxEntries ha.2.1).ne
      subst hstale
      obtain ⟨t', ref, heq, hadded, hnone⟩ := addSmallTop_spec h hmax obj hcheck
      exact ⟨t', ref, by simp [hend, heq], hadded, fun h' => .inr ((hnone h').1 ▸ (hnone h').2)⟩
    · have hget : ∀ i < t.maxEntries, getSmallEntry i = .ok (entryAt i) := fun i hi => getSmallEntry_of_lt (hmax ▸ hi)
      obtain ⟨j, hprune, hc⟩ := h.prune hget
      have hcond : (if t.firstFreeIndex ≥ t.topIndex then t.prunePoppedFreeEntries getSmallEntry else pure t) =
          .ok { t with firstFreeIndex := j } := by
        rw [← hprune]
        simp [hend]
      simp only [hend, false_and, if_false, Bool.not_false, if_true, ne_eq, not_false_eq_true, decide_true,
        dcheck_true, ok_bind, hcond]
      obtain ⟨t', ref, htop, hadded, hnone⟩ := addSmallTop_spec hc hmax obj hcheck
      have hfull : ∃ t'' ref', addSmallTop { t with firstFreeIndex := j } obj = .ok (t'', ref') ∧
          Added t t'' f (f.addRef obj ref') fs free frees ∧
            (ref' = none → false = true ∨ t''.topIndex = kSmallLrtEntries) :=
        ⟨t', ref, htop, ⟨hadded.consistent, hadded.checkJni, hadded.smallTable⟩,
          fun h' => .inr ((hnone h').1 ▸ (hnone h').2)⟩
      by_cases hfirst : j ≠ kFreeListEnd ∧ j ≥ f.cookie
      · obtain ⟨free', rfl⟩ := hc.first_mem hfirst.1 hfirst.2
        obtain ⟨hlt, hhole⟩ := hc.hole mem_cons_self
        replace hhole : (t.word j).IsHole := hhole
        have hj : j < kSmallLrtEntries := hmax ▸ hlt.trans_le h.top_le
        rw [if_pos hfirst, dcheck_of (decide_eq_true hlt), getSmallEntry_of_lt hj]
        simp only [ok_bind, getCheckJniSerialNumberEntry_entryAt]
        by_cases hserial : (t.word (chunkOf j)).isSerialNumber = true
        · rw [if_neg (by simpa using hserial)]
          exact hfull
        rw [if_pos (by simpa using hserial)]
        simp only [entries_entryAt, getNextFree_of_isHole hhole, ok_bind, storeObj]
        refine ⟨_, some (entryAt j), rfl, ?_, nofun⟩
        rw [← hcheck]
        exact .of_not_checkJni (Bool.eq_false_iff.mp hcheck) (hc.reusePlain obj) rfl id
      · rw [if_neg hfirst]
        exact hfull

/-- The serial number of a chunk moves on to the next of its three. -/
theorem incrementSerialNumber_spec (t : LocalReferenceTable) {c : Nat} (hc : c % 4 = 0) :
    ∃ n, 1 ≤ n ∧ n ≤ 3 ∧ t.incrementSerialNumber (entryAt c) = .ok (t.write (entryAt c) (serial n), n) := by
  have hchunk : chunkOf c = c := by
    rw [chunkOf_eq]
    omega
  have hself : decide (entryAt c = (entryAt c).getCheckJniSerialNumberEntry) = true := by
    rw [getCheckJniSerialNumberEntry_entryAt, hchunk, decide_eq_true_iff]
  have hlt : (t.word c).getSerialNumberUnchecked % 4 < 4 := Nat.mod_lt _ (by omega)
  rw [incrementSerialNumber, dcheck_of hself]
  refine ⟨_, ?_, ?_, rfl⟩
  · split_ifs <;> simp
  · split_ifs with h
    · rw [entries_entryAt, kCheckJniEntriesPerReference] at h ⊢
      omega
    · omega

include h in
/-- A free entry of the segment is reused, if there is one. -/
theorem reuseFreeEntry_spec (obj : Object) :
    ∃ t' ref, t.reuseFreeEntry f.cookie obj = .ok (t', ref) ∧ Added t t' f (f.addRef obj ref) fs free frees ∧
      (ref = none → t' = t) := by
  by_cases hfirst : t.firstFreeIndex ≠ kFreeListEnd ∧ t.firstFreeIndex ≥ f.cookie
  · obtain ⟨free', rfl⟩ := h.first_mem hfirst.1 hfirst.2
    obtain ⟨hlt, hhole⟩ := h.hole mem_cons_self
    have hmax := hlt.trans_le h.top_le
    rw [reuseFreeEntry, if_pos hfirst, dcheck_of (decide_eq_true hlt), h.allocated.getEntry hmax]
    simp only [ok_bind, getCheckJniSerialNumberEntry_entryAt, entries_entryAt]
    by_cases hserial : (t.word (chunkOf t.firstFreeIndex)).isSerialNumber = t.checkJni
    · rw [if_pos hserial, getNextFree_of_isHole hhole]
      simp only [ok_bind]
      by_cases hcheck : t.checkJni = true
      · have hs : (t.word (chunkOf t.firstFreeIndex)).isSerialNumber = true := hserial.trans hcheck
        obtain ⟨hk, hk', hactive, -⟩ := (h.segment.mem_free t.firstFreeIndex).mp mem_cons_self
        have hne := h.segment.ne_chunkOf hk hk' hactive hs
        have haligned : chunkOf t.firstFreeIndex % 4 = 0 := by
          rw [chunkOf_eq]
          omega
        have hend := (h.segment.chunk _ hk hk' hs).1.trans h.top_le
        obtain ⟨n, hn, hn', hincr⟩ := incrementSerialNumber_spec
          { t with firstFreeIndex := (t.word t.firstFreeIndex).link } haligned
        have halloc : (write { t with firstFreeIndex := (t.word t.firstFreeIndex).link }
            (entryAt (chunkOf t.firstFreeIndex)) (serial n)).Allocated := h.allocated
        have hentry : getEntry (write { t with firstFreeIndex := (t.word t.firstFreeIndex).link }
            (entryAt (chunkOf t.firstFreeIndex)) (serial n)) (t.firstFreeIndex / kCheckJniEntriesPerReference *
              kCheckJniEntriesPerReference + n) = .ok (entryAt (chunkOf t.firstFreeIndex + n)) :=
          halloc.getEntry (show chunkOf t.firstFreeIndex + n < t.maxEntries by omega)
        rw [if_pos hcheck, dcheck_of (decide_eq_true (entryAt_injective.ne hne.ne')), hincr]
        simp only [ok_bind, hentry, entryAt_add_of_aligned haligned (Nat.lt_succ_of_le hn')]
        rw [dcheck_of (decide_eq_true trivial)]
        refine ⟨_, some (entryAt (chunkOf t.firstFreeIndex + n)), rfl,
          ⟨⟨[], free', h.reuseChunk hs hn hn' obj, fun _ hck => ?_⟩, rfl, id⟩, nofun⟩
        exact hck.addRef hck.top (by omega) (subset_cons_self _ free')
      · rw [if_neg hcheck]
        exact ⟨_, some (entryAt t.firstFreeIndex), rfl, .of_not_checkJni hcheck (h.reusePlain obj) rfl id, nofun⟩
    · rw [if_neg hserial]
      exact ⟨t, none, rfl, .refl h, fun _ => rfl⟩
  · exact ⟨t, none, if_neg hfirst, .refl h, fun _ => rfl⟩

/-- Holes are added up to the next chunk. -/
theorem addHoles_spec (steps : Nat) (h : Consistent t f fs [] free frees) (hsteps : (4 - t.topIndex % 4) % 4 < steps) :
    ∃ t' free', addHoles steps t = .ok t' ∧ Consistent t' f fs [] free' frees ∧ t'.topIndex % 4 = 0 ∧
      t'.checkJni = t.checkJni ∧ t'.smallTable = t.smallTable ∧ (t.topIndex % 4 = 0 → t' = t ∧ free' = free) := by
  induction steps generalizing t free with
  | zero => exact absurd hsteps (Nat.not_lt_zero _)
  | succ steps ih =>
    by_cases haligned : t.topIndex % 4 = 0
    · exact ⟨t, free, if_neg (not_not.mpr haligned), h, haligned, rfl, rfl, fun _ => ⟨rfl, rfl⟩⟩
    have hmod := h.allocated.maxEntries_mod
    have hlt : t.topIndex < t.maxEntries := by
      have := h.top_le
      omega
    obtain ⟨t', free', heq, hc, htop, hcheck, hsmall, -⟩ := ih (h.addHole hlt)
      (show (4 - (t.topIndex + 1) % 4) % 4 < steps by omega)
    refine ⟨t', free', ?_, hc, htop, hcheck, hsmall, fun h' => absurd h' haligned⟩
    rw [addHoles, if_pos (show t.topIndex % kCheckJniEntriesPerReference ≠ 0 from haligned), h.allocated.getEntry hlt]
    exact heq

include h

/-- A full table grows when the memory can be allocated. -/
theorem growIfFull_spec (allocates : Nat → Bool) :
    ∃ t' ok, t.growIfFull allocates = .ok (t', ok) ∧ Consistent t' f fs [] free frees ∧ t'.topIndex = t.topIndex ∧
      t'.checkJni = t.checkJni ∧ (t'.smallTable = true → t.smallTable = true) ∧
      (ok = true → t'.topIndex < t'.maxEntries) := by
  by_cases hfull : t.topIndex = t.maxEntries
  · obtain ⟨k, hk⟩ := h.allocated
    rw [growIfFull, if_pos hfull, dcheck_of hk.isPowerOfTwo]
    by_cases hover : kMaxTableSizeInBytes = t.maxEntries * 4
    · exact ⟨t, false, if_pos hover, h, rfl, rfl, id, nofun⟩
    have hle : t.maxEntries * 2 ≤ kMaxTableSize := by
      have hmax := hk.2.1
      have hne : k ≠ 18 := by
        rintro rfl
        exact hover (by rw [hmax]; norm_num [kMaxTableSizeInBytes])
      have hpow : 2 ^ k ≤ 2 ^ 17 := Nat.pow_le_pow_right (by omega) (by have := hk.1; omega)
      rw [hmax, kMaxTableSize, kMaxTableSizeInBytes]
      omega
    have hpos := h.allocated.pos
    obtain ⟨t', ok, heq, hgrows, hok⟩ := h.allocated.resize (by omega) hle allocates
    refine ⟨t', ok, (if_neg hover).trans heq, h.grows hgrows, hgrows.topIndex, hgrows.checkJni, hgrows.smallTable,
      fun h' => ?_⟩
    rw [hgrows.topIndex, hfull]
    have := hok h'
    omega
  · exact ⟨t, true, if_neg hfull, h, rfl, rfl, id, fun _ => Nat.lt_of_le_of_ne h.top_le hfull⟩

/-- With room, the next entry or the next chunk is used. -/
theorem useNextEntry_spec (htop : t.topIndex < t.maxEntries)
    (haligned : t.checkJni = true → t.topIndex % 4 = 0 ∧ f.cookie % 4 = 0) (obj : Object) :
    ∃ t' ref, t.useNextEntry f.cookie obj = .ok (t', ref) ∧ Added t t' f (f.addRef obj (some ref)) fs free frees := by
  by_cases hcheck : t.checkJni = true
  · obtain ⟨htop4, hcookie⟩ := haligned hcheck
    have hmax4 := h.allocated.maxEntries_mod
    have hlt : t.topIndex + 4 ≤ t.maxEntries := by omega
    obtain ⟨n, hn, hn', hincr⟩ := t.incrementSerialNumber_spec htop4
    have halloc : (t.write (entryAt t.topIndex) (serial n)).Allocated := h.allocated
    have hentry : (t.write (entryAt t.topIndex) (serial n)).getEntry (t.topIndex + n) =
        .ok (entryAt (t.topIndex + n)) :=
      halloc.getEntry (show t.topIndex + n < t.maxEntries by omega)
    have hcheckAligned : ∀ {i}, i % 4 = 0 → dcheckAligned i = .ok () := fun hi => if_pos hi
    rw [useNextEntry, if_pos hcheck, hcheckAligned htop4, hcheckAligned hcookie, hcheckAligned hmax4]
    simp only [ok_bind, h.allocated.getEntry htop, hincr, hentry, entryAt_add_of_aligned htop4 (Nat.lt_succ_of_le hn')]
    rw [dcheck_of (decide_eq_true trivial)]
    refine ⟨_, entryAt (t.topIndex + n), rfl, ⟨[], free, h.addChunk htop4 hlt hn hn' obj, fun _ hck => ?_⟩, rfl, id⟩
    exact hck.addRef (show (t.topIndex + 4) % 4 = 0 by omega) (by omega) (List.Subset.refl free)
  · rw [useNextEntry, if_neg hcheck, h.allocated.getEntry htop]
    exact ⟨_, entryAt t.topIndex, rfl, .of_not_checkJni hcheck (h.addTop htop obj) rfl id⟩

omit h

/-- The slow path adds a reference, or fails and changes nothing a reference can see. -/
theorem addSlow_spec (h : Consistent t f fs stale free frees)
    (hcookie : t.checkJni = true → f.cookie % 4 = 0) (obj : Object) (allocates : Nat → Bool) :
    ∃ t' ref, t.addSlow f.cookie obj allocates = .ok (t', ref) ∧ Added t t' f (f.addRef obj ref) fs free frees := by
  obtain ⟨j, hprune, hc⟩ := h.pruneIfPopped
  obtain ⟨t1, ref, hreuse, hadded, hnone⟩ := reuseFreeEntry_spec hc obj
  rw [addSlow, hprune]
  simp only [ok_bind, hreuse]
  cases ref with
  | some ref => exact ⟨t1, some ref, rfl, hadded.consistent, hadded.checkJni, hadded.smallTable⟩
  | none =>
    obtain rfl := hnone rfl
    simp only
    -- The top is aligned for CheckJNI.
    obtain ⟨t2, free2, hpad, hc2, hcheck2, hsmall2, htop2, hchecked2⟩ : ∃ t2 free2,
        (if t.checkJni then addHoles kCheckJniEntriesPerReference { t with firstFreeIndex := j }
          else pure { t with firstFreeIndex := j }) = .ok t2 ∧ Consistent t2 f fs [] free2 frees ∧
        t2.checkJni = t.checkJni ∧ t2.smallTable = t.smallTable ∧ (t.checkJni = true → t2.topIndex % 4 = 0) ∧
        (t.topIndex % 4 = 0 → t2.topIndex = t.topIndex ∧ free2 = free) := by
      by_cases hcheck : t.checkJni = true
      · obtain ⟨t2, free2, heq, hc2, htop, hcheck2, hsmall2, hsame⟩ := addHoles_spec 4 hc (Nat.mod_lt _ (by omega))
        exact ⟨t2, free2, (if_pos hcheck).trans heq, hc2, hcheck2, hsmall2, fun _ => htop,
          fun h' => ⟨by rw [(hsame h').1], (hsame h').2⟩⟩
      · exact ⟨_, free, if_neg hcheck, hc, rfl, rfl, fun h' => absurd h' hcheck, fun _ => ⟨rfl, rfl⟩⟩
    obtain ⟨t3, ok, hgrow, hc3, htop3, hcheck3, hsmall3, hok⟩ := growIfFull_spec hc2 allocates
    have haligned3 : t.checkJni = true → t3.topIndex % 4 = 0 := fun h' => htop3 ▸ htop2 h'
    have hcheck : t3.checkJni = t.checkJni := hcheck3.trans hcheck2
    have hchecked3 : t.checkJni = true → Checked t.topIndex f free → Checked t3.topIndex f free2 := fun _ hck => by
      obtain ⟨htop, rfl⟩ := hchecked2 hck.top
      rwa [htop3, htop]
    have hsmall : t3.smallTable = true → t.smallTable = true := fun hs => hsmall2 ▸ hsmall3 hs
    simp only [hpad, ok_bind, hgrow]
    cases ok with
    | false => exact ⟨t3, none, rfl, ⟨[], free2, hc3, hchecked3⟩, hcheck, hsmall⟩
    | true =>
      obtain ⟨t4, ref, huse, hadded4⟩ := useNextEntry_spec hc3 (hok rfl)
        (fun h' => ⟨haligned3 (hcheck ▸ h'), hcookie (hcheck ▸ h')⟩) obj
      simp only [huse, ok_bind]
      exact ⟨t4, some ref, rfl, hadded4.trans hchecked3 hcheck hsmall⟩

theorem Allocated.has_table (h : t.Allocated) :
    (if t.maxEntries = kSmallLrtEntries then t.smallTable else decide (t.tables ≠ 0)) = true := by
  obtain ⟨k, -, hmax, hsmall, htables⟩ := h
  by_cases hk : k = 0
  · subst hk
    exact (if_pos hmax).trans hsmall
  have hne : t.maxEntries ≠ kSmallLrtEntries := by
    rw [hmax, kSmallLrtEntries]
    have : 2 ^ k ≠ 2 ^ 0 := fun h' => hk (Nat.pow_right_injective le_rfl h')
    omega
  rw [if_neg hne, htables hk]
  rfl

/-- `Add` fails only when CheckJNI is enabled and the segment starts in the middle of a chunk. -/
theorem add_spec (h : Consistent t f fs stale free frees)
    (hcookie : t.checkJni = true → f.cookie % 4 = 0) (obj : Object) (allocates : Nat → Bool) :
    ∃ t' ref, t.add f.cookie obj allocates = .ok (t', ref) ∧ Added t t' f (f.addRef obj ref) fs free frees := by
  rw [add, dcheck_of (decide_eq_true h.segment.le), dcheck_of h.allocated.has_table]
  cases hsmall : t.smallTable with
  | false =>
    simp only [Bool.false_eq_true, if_false, pure_bind, ok_bind, hsmall, Bool.not_false, Bool.or_true, Bool.true_or,
      dcheck_true]
    exact addSlow_spec h hcookie obj allocates
  | true =>
    obtain ⟨t1, ref, hfast, hadded, hnone⟩ := addFast_spec h hsmall obj
    simp only [if_true, hfast, ok_bind]
    cases ref with
    | some ref => exact ⟨t1, some ref, rfl, hadded⟩
    | none =>
      obtain ⟨stale1, free1, hc, hchecked⟩ := hadded.consistent
      have hslow : (t1.checkJni || !t1.smallTable || decide (t1.topIndex = kSmallLrtEntries)) = true := by
        rcases hnone rfl with hcheck | htop
        · simp [hadded.checkJni, hcheck]
        · simp [htop]
      simp only [dcheck_of hslow, ok_bind]
      obtain ⟨t2, ref, heq, hadded'⟩ := addSlow_spec hc (fun h' => hcookie (hadded.checkJni ▸ h')) obj allocates
      exact ⟨t2, ref, heq, hadded'.trans hchecked hadded.checkJni hadded.smallTable⟩

end LocalReferenceTable

end Art.Lrt
