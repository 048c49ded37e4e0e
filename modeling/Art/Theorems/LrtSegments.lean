import Art.Theorems.LrtEntries

/-! # Segments of the local reference table

A segment is a range of entries. Some of its chunks of four start with a serial number, which selects one of the
other three entries of the chunk. Every other entry stands for itself. -/

namespace Art.Lrt
open LrtEntry Function

variable {w w' : Nat → LrtEntry} {bottom top i k : Nat} {refs refs' : List (IndirectRef × Object)}
  {free free' : List Nat} {v : LrtEntry}

/-- An entry that is in use, as opposed to a serial number and the entries that it does not select. -/
def Active (w : Nat → LrtEntry) (i : Nat) : Prop :=
  (w (chunkOf i)).isSerialNumber = true → w (chunkOf i) = serial (i - chunkOf i)

theorem serial_inj {m n : Nat} : serial m = serial n ↔ m = n :=
  ⟨fun h => by
    have := congrArg getSerialNumberUnchecked h
    rwa [getSerialNumberUnchecked_serial, getSerialNumberUnchecked_serial] at this, congrArg serial⟩

theorem active_congr (h : w' (chunkOf i) = w (chunkOf i) ∨
    ((w' (chunkOf i)).isSerialNumber = false ∧ (w (chunkOf i)).isSerialNumber = false)) : Active w' i ↔ Active w i := by
  rcases h with h | ⟨h', h⟩
  · rw [Active, Active, h]
  · simp [Active, h, h']

theorem active_of_plain (h : (w (chunkOf i)).isSerialNumber = false) : Active w i := fun h' => by
  rw [h] at h'
  cases h'

/-- An entry holds a reference or is a hole. -/
def IsEntry (v : LrtEntry) : Prop := (∃ obj, v = reference obj) ∨ v.IsHole

theorem IsEntry.isSerialNumber (h : IsEntry v) : v.isSerialNumber = false := by
  rcases h with ⟨obj, rfl⟩ | h
  · exact isSerialNumber_reference
  · exact h.2

theorem isEntry_reference (obj : Object) : IsEntry (reference obj) := .inl ⟨obj, rfl⟩

theorem isEntry_free (n : Nat) : IsEntry (LrtEntry.free n) := .inr isHole_free

/-- The entries from `bottom` to `top`, with the references and the holes among them. -/
structure Segment (w : Nat → LrtEntry) (bottom top : Nat) (refs : List (IndirectRef × Object)) (free : List Nat) :
    Prop where
  le : bottom ≤ top
  bottom_plain : bottom % 4 ≠ 0 → (w (chunkOf bottom)).isSerialNumber = false
  chunk : ∀ i, bottom ≤ i → i < top → (w (chunkOf i)).isSerialNumber = true →
    chunkOf i + 4 ≤ top ∧ ∃ n, 1 ≤ n ∧ n ≤ 3 ∧ w (chunkOf i) = serial n
  entry : ∀ i, bottom ≤ i → i < top → Active w i → IsEntry (w i)
  mem_refs : ∀ r obj, (r, obj) ∈ refs ↔
    ∃ i, r = entryAt i ∧ bottom ≤ i ∧ i < top ∧ Active w i ∧ w i = reference obj
  mem_free : ∀ i, i ∈ free ↔ bottom ≤ i ∧ i < top ∧ Active w i ∧ (w i).IsHole
  refs_nodup : (refs.map Prod.fst).Nodup
  free_nodup : free.Nodup

namespace Segment

theorem empty (hplain : bottom % 4 ≠ 0 → (w (chunkOf bottom)).isSerialNumber = false) :
    Segment w bottom bottom [] [] where
  le := le_rfl
  bottom_plain := hplain
  chunk _ h h' := absurd h' h.not_gt
  entry _ h h' := absurd h' h.not_gt
  mem_refs _ _ := ⟨fun h => absurd h List.not_mem_nil, fun ⟨_, _, h, h', _⟩ => absurd h' h.not_gt⟩
  mem_free _ := ⟨fun h => absurd h List.not_mem_nil, fun ⟨h, h', _⟩ => absurd h' h.not_gt⟩
  refs_nodup := List.nodup_nil
  free_nodup := List.nodup_nil

section

variable (h : Segment w bottom top refs free)
include h

theorem top_plain (htop : top % 4 ≠ 0) : (w (chunkOf top)).isSerialNumber = false := by
  have hchunk := chunkOf_eq top
  rcases Nat.lt_or_ge (chunkOf top) bottom with hlt | hge
  · have hle := h.le
    have hbottom := chunkOf_eq bottom
    have heq : chunkOf bottom = chunkOf top := by omega
    rw [← heq]
    exact h.bottom_plain (by omega)
  · rw [Bool.eq_false_iff]
    intro hserial
    have heq : chunkOf (chunkOf top) = chunkOf top := by
      rw [chunkOf_eq (chunkOf top)]
      omega
    have := (h.chunk (chunkOf top) hge (by omega) (heq.symm ▸ hserial)).1
    omega

theorem ne_chunkOf (hi : bottom ≤ i) (hi' : i < top) (ha : Active w i)
    (hs : (w (chunkOf i)).isSerialNumber = true) : chunkOf i < i := by
  obtain ⟨-, n, hn, -, heq⟩ := h.chunk i hi hi' hs
  have := serial_inj.mp (heq.symm.trans (ha hs))
  omega

theorem chunkOf_ge (hi : bottom ≤ i)
    (hs : (w (chunkOf i)).isSerialNumber = true) : bottom ≤ chunkOf i := by
  by_contra hlt
  have hchunk := chunkOf_eq i
  have hbottom := chunkOf_eq bottom
  have heq : chunkOf bottom = chunkOf i := by omega
  have := h.bottom_plain (by omega)
  rw [heq, hs] at this
  cases this

/-- The segment depends only on the entries below its top, and not on the links of holes. -/
theorem congr
    (heq : ∀ i < top, w' i = w i ∨ ((w' i).IsHole ∧ (w i).IsHole)) : Segment w' bottom top refs free := by
  have hchunk : ∀ i < top, w' (chunkOf i) = w (chunkOf i) ∨
      ((w' (chunkOf i)).isSerialNumber = false ∧ (w (chunkOf i)).isSerialNumber = false) := fun i hi =>
    (heq _ ((chunkOf_le i).trans_lt hi)).imp_right fun hh => ⟨hh.1.2, hh.2.2⟩
  have hactive : ∀ i < top, Active w' i ↔ Active w i := fun i hi => active_congr (hchunk i hi)
  have href : ∀ i < top, ∀ obj, w' i = reference obj ↔ w i = reference obj := by
    intro i hi obj
    rcases heq i hi with h' | ⟨h', h⟩
    · rw [h']
    · exact iff_of_false (fun h'' => not_isHole_reference (h'' ▸ h')) fun h'' => not_isHole_reference (h'' ▸ h)
  have hhole : ∀ i < top, (w' i).IsHole ↔ (w i).IsHole := by
    intro i hi
    rcases heq i hi with h' | ⟨h', h⟩
    · rw [h']
    · exact iff_of_true h' h
  refine ⟨h.le, fun hb => ?_, fun i hi hi' hs => ?_, fun i hi hi' ha => ?_, fun r obj => ?_, fun i => ?_, h.refs_nodup,
    h.free_nodup⟩
  · have hlt : chunkOf bottom < bottom := by
      rw [chunkOf_eq]
      omega
    rcases heq _ (hlt.trans_le h.le) with h' | ⟨h', -⟩
    · rw [h']
      exact h.bottom_plain hb
    · exact h'.2
  · have h' := (hchunk i hi').resolve_right fun h' => Bool.false_ne_true (h'.1.symm.trans hs)
    rw [h'] at hs ⊢
    exact h.chunk i hi hi' hs
  · rcases h.entry i hi hi' ((hactive i hi').mp ha) with ⟨obj, h'⟩ | h'
    · exact .inl ⟨obj, (href i hi' obj).mpr h'⟩
    · exact .inr ((hhole i hi').mpr h')
  · rw [h.mem_refs]
    refine exists_congr fun i => and_congr_right fun _ => and_congr_right fun _ => and_congr_right fun hi' => ?_
    rw [hactive i hi', href i hi']
  · rw [h.mem_free]
    refine and_congr_right fun _ => and_congr_right fun hi' => ?_
    rw [hactive i hi', hhole i hi']

/-- What `refs` and `free` become when entry `k` is overwritten with `v`. -/
structure Overwrites (k : Nat) (v : LrtEntry) (refs refs' : List (IndirectRef × Object)) (free free' : List Nat) :
    Prop where
  mem_refs : ∀ r obj, (r, obj) ∈ refs' ↔ ((r, obj) ∈ refs ∧ r ≠ entryAt k) ∨ (r = entryAt k ∧ v = reference obj)
  mem_free : ∀ i, i ∈ free' ↔ (i ∈ free ∧ i ≠ k) ∨ (i = k ∧ v.IsHole)
  refs_nodup : (refs'.map Prod.fst).Nodup
  free_nodup : free'.Nodup

theorem active_update (hk : bottom ≤ k) (hk' : k < top) (ha : Active w k)
    (hv : IsEntry v) (i : Nat) :
    (update w k v) (chunkOf i) = w (chunkOf i) ∨
      ((update w k v (chunkOf i)).isSerialNumber = false ∧ (w (chunkOf i)).isSerialNumber = false) := by
  by_cases hi : chunkOf i = k
  · refine .inr ⟨?_, ?_⟩
    · rw [hi, update_self]
      exact hv.isSerialNumber
    · have hchunk : chunkOf k = k := by
        rw [← hi, chunkOf_eq (chunkOf i), chunkOf_eq]
        omega
      rw [Bool.eq_false_iff, hi, ← hchunk]
      exact fun hs => (h.ne_chunkOf hk hk' ha hs).ne hchunk
  · exact .inl (update_of_ne hi ..)

end

/-- Memberships after an overwrite, in terms of the entries. -/
theorem Overwrites.mem (ho : Overwrites k v refs refs' free free') (h : Segment w bottom top refs free)
    (top' : Nat) (htop : ∀ i, i < top' ↔ i < top ∨ i = k) (hk : bottom ≤ k) (ha : Active w' k) (hw : w' k = v)
    (hsame : ∀ i, i ≠ k → i < top → w' i = w i ∧ (Active w' i ↔ Active w i)) :
    (∀ r obj, (r, obj) ∈ refs' ↔ ∃ i, r = entryAt i ∧ bottom ≤ i ∧ i < top' ∧ Active w' i ∧ w' i = reference obj) ∧
    ∀ i, i ∈ free' ↔ bottom ≤ i ∧ i < top' ∧ Active w' i ∧ (w' i).IsHole := by
  refine ⟨fun r obj => ?_, fun i => ?_⟩
  · rw [ho.mem_refs, h.mem_refs]
    constructor
    · rintro (⟨⟨i, rfl, hi, hi', hact, heq⟩, hne⟩ | ⟨rfl, rfl⟩)
      · have hik : i ≠ k := fun h => hne (h ▸ rfl)
        obtain ⟨hw', hact'⟩ := hsame i hik hi'
        exact ⟨i, rfl, hi, (htop i).mpr (.inl hi'), hact'.mpr hact, hw'.trans heq⟩
      · exact ⟨k, rfl, hk, (htop k).mpr (.inr rfl), ha, hw⟩
    · rintro ⟨i, rfl, hi, hi', hact, heq⟩
      by_cases hik : i = k
      · subst hik
        exact .inr ⟨rfl, hw.symm.trans heq⟩
      · have hlt := ((htop i).mp hi').resolve_right hik
        obtain ⟨hw', hact'⟩ := hsame i hik hlt
        exact .inl ⟨⟨i, rfl, hi, hlt, hact'.mp hact, hw'.symm.trans heq⟩, fun h => hik (entryAt_injective h)⟩
  · rw [ho.mem_free, h.mem_free]
    constructor
    · rintro (⟨⟨hi, hi', hact, hhole⟩, hik⟩ | ⟨rfl, hhole⟩)
      · obtain ⟨hw', hact'⟩ := hsame i hik hi'
        exact ⟨hi, (htop i).mpr (.inl hi'), hact'.mpr hact, hw' ▸ hhole⟩
      · exact ⟨hk, (htop i).mpr (.inr rfl), ha, hw ▸ hhole⟩
    · rintro ⟨hi, hi', hact, hhole⟩
      by_cases hik : i = k
      · subst hik
        exact .inr ⟨rfl, hw ▸ hhole⟩
      · have hlt := ((htop i).mp hi').resolve_right hik
        obtain ⟨hw', hact'⟩ := hsame i hik hlt
        exact .inl ⟨⟨hi, hlt, hact'.mp hact, hw' ▸ hhole⟩, hik⟩

section

variable (h : Segment w bottom top refs free)
include h

/-- Overwriting an active entry of a segment. -/
theorem update (hk : bottom ≤ k) (hk' : k < top) (ha : Active w k)
    (hv : IsEntry v) (ho : Overwrites k v refs refs' free free') :
    Segment (update w k v) bottom top refs' free' := by
  have hchunk := h.active_update hk hk' ha hv
  have hactive : ∀ i, Active (Function.update w k v) i ↔ Active w i := fun i => active_congr (hchunk i)
  have hserial : ∀ i, (Function.update w k v (chunkOf i)).isSerialNumber = true →
      Function.update w k v (chunkOf i) = w (chunkOf i) := fun i hs =>
    (hchunk i).resolve_right fun h' => Bool.false_ne_true (h'.1.symm.trans hs)
  have hmem := ho.mem h top (fun i => ⟨.inl, fun h => h.elim id fun h => h ▸ hk'⟩) hk ((hactive k).mpr ha)
    (update_self ..) fun i hik _ => ⟨update_of_ne hik .., hactive i⟩
  refine ⟨h.le, fun hb => ?_, fun i hi hi' hs => ?_, fun i hi hi' hact => ?_, hmem.1, hmem.2, ho.refs_nodup,
    ho.free_nodup⟩
  · rcases hchunk bottom with heq | ⟨heq, -⟩
    · rw [heq]
      exact h.bottom_plain hb
    · exact heq
  · have heq := hserial i hs
    rw [heq] at hs ⊢
    exact h.chunk i hi hi' hs
  · by_cases hik : i = k
    · subst hik
      rwa [update_self]
    · rw [update_of_ne hik]
      exact h.entry i hi hi' ((hactive i).mp hact)

/-- Adding an entry at the top of a segment. -/
theorem push (hv : IsEntry v) (ho : Overwrites top v refs refs' free free') :
    Segment (Function.update w top v) bottom (top + 1) refs' free' := by
  have hsame : ∀ i < top, Function.update w top v i = w i := fun i hi => Function.update_of_ne hi.ne ..
  have hchunk : ∀ i < top, Function.update w top v (chunkOf i) = w (chunkOf i) := fun i hi =>
    hsame _ ((chunkOf_le i).trans_lt hi)
  have hplain : (Function.update w top v (chunkOf top)).isSerialNumber = false := by
    by_cases heq : chunkOf top = top
    · rw [heq, update_self]
      exact hv.isSerialNumber
    · rw [update_of_ne heq]
      exact h.top_plain (by rw [chunkOf_eq] at heq; omega)
  have hmem := ho.mem h (top + 1) (fun i => Nat.lt_succ_iff_lt_or_eq) h.le (active_of_plain hplain)
    (update_self ..) fun i _ hi => ⟨hsame i hi, active_congr (.inl (hchunk i hi))⟩
  refine ⟨h.le.trans (Nat.le_succ top), fun hb => ?_, fun i hi hi' hs => ?_, fun i hi hi' hact => ?_, hmem.1, hmem.2,
    ho.refs_nodup, ho.free_nodup⟩
  · have hlt : chunkOf bottom < bottom := by
      rw [chunkOf_eq]
      omega
    rw [hsame _ (hlt.trans_le h.le)]
    exact h.bottom_plain hb
  · rcases Nat.lt_succ_iff_lt_or_eq.mp hi' with hlt | rfl
    · rw [hchunk i hlt] at hs ⊢
      exact ⟨(h.chunk i hi hlt hs).1.trans (Nat.le_succ top), (h.chunk i hi hlt hs).2⟩
    · rw [hplain] at hs
      cases hs
  · rcases Nat.lt_succ_iff_lt_or_eq.mp hi' with hlt | rfl
    · rw [hsame i hlt]
      exact h.entry i hi hlt ((active_congr (.inl (hchunk i hlt))).mp hact)
    · rwa [update_self]

/-- A chunk with a new serial number, in the place of an old chunk or at the top. -/
theorem select {c n top' : Nat} {obj : Object} (hc : c % 4 = 0) (hbc : bottom ≤ c)
    (hn : 1 ≤ n) (hn' : n ≤ 3) (hserial : w' c = serial n) (hobj : w' (c + n) = reference obj)
    (hsame : ∀ i, i < c ∨ c + 4 ≤ i → w' i = w i) (htop : c + 4 ≤ top ∧ top' = top ∨ c = top ∧ top' = top + 4)
    (hrefs : ∀ r o, (r, o) ∈ refs' ↔ ((r, o) ∈ refs ∧ ∀ i, chunkOf i = c → r ≠ entryAt i) ∨
      (r = entryAt (c + n) ∧ o = obj))
    (hfree : ∀ i, i ∈ free' ↔ i ∈ free ∧ chunkOf i ≠ c)
    (hrefs_nodup : (refs'.map Prod.fst).Nodup) (hfree_nodup : free'.Nodup) :
    Segment w' bottom top' refs' free' := by
  have hle := h.le
  have hother : ∀ i, chunkOf i ≠ c → w' i = w i ∧ w' (chunkOf i) = w (chunkOf i) ∧ (Active w' i ↔ Active w i) := by
    intro i hi
    have hchunk := chunkOf_eq i
    have heq := hsame (chunkOf i) (by omega)
    exact ⟨hsame i (by omega), heq, active_congr (.inl heq)⟩
  have hrange : ∀ i, chunkOf i ≠ c → (i < top' ↔ i < top) := by
    intro i hi
    have hchunk := chunkOf_eq i
    omega
  have hactive : ∀ i, chunkOf i = c → (Active w' i ↔ i = c + n) := by
    intro i hi
    have hle' := chunkOf_le i
    rw [Active, hi, hserial, serial_inj]
    simp only [isSerialNumber_serial, forall_const]
    omega
  have hchunkn : chunkOf (c + n) = c := by
    rw [chunkOf_eq]
    omega
  refine ⟨by omega, fun hb => ?_, fun i hi hi' hs => ?_, fun i hi hi' hact => ?_, fun r o => ?_, fun i => ?_,
    hrefs_nodup, hfree_nodup⟩
  · have hchunk := chunkOf_eq bottom
    rw [hsame _ (by omega)]
    exact h.bottom_plain hb
  · by_cases hic : chunkOf i = c
    · exact ⟨by omega, n, hn, hn', hic ▸ hserial⟩
    · obtain ⟨-, heq, -⟩ := hother i hic
      rw [heq] at hs ⊢
      obtain ⟨hle', hn⟩ := h.chunk i hi ((hrange i hic).mp hi') hs
      exact ⟨by omega, hn⟩
  · by_cases hic : chunkOf i = c
    · rw [(hactive i hic).mp hact, hobj]
      exact isEntry_reference obj
    · obtain ⟨heq, -, hact'⟩ := hother i hic
      rw [heq]
      exact h.entry i hi ((hrange i hic).mp hi') (hact'.mp hact)
  · rw [hrefs, h.mem_refs]
    constructor
    · rintro (⟨⟨i, rfl, hi, hi', hact, heq⟩, hne⟩ | ⟨rfl, rfl⟩)
      · have hic : chunkOf i ≠ c := fun hic => hne i hic rfl
        obtain ⟨hw, -, hact'⟩ := hother i hic
        exact ⟨i, rfl, hi, (hrange i hic).mpr hi', hact'.mpr hact, hw.trans heq⟩
      · exact ⟨c + n, rfl, by omega, by omega, (hactive _ hchunkn).mpr rfl, hobj⟩
    · rintro ⟨i, rfl, hi, hi', hact, heq⟩
      by_cases hic : chunkOf i = c
      · obtain rfl := (hactive i hic).mp hact
        exact .inr ⟨rfl, reference_inj.mp (heq.symm.trans hobj)⟩
      obtain ⟨hw, -, hact'⟩ := hother i hic
      refine .inl ⟨⟨i, rfl, hi, (hrange i hic).mp hi', hact'.mp hact, hw.symm.trans heq⟩, ?_⟩
      rintro j hj h'
      exact hic (entryAt_injective h' ▸ hj)
  · rw [hfree, h.mem_free]
    constructor
    · rintro ⟨⟨hi, hi', hact, hhole⟩, hic⟩
      obtain ⟨hw, -, hact'⟩ := hother i hic
      exact ⟨hi, (hrange i hic).mpr hi', hact'.mpr hact, hw ▸ hhole⟩
    · rintro ⟨hi, hi', hact, hhole⟩
      by_cases hic : chunkOf i = c
      · rw [(hactive i hic).mp hact, hobj] at hhole
        exact absurd hhole not_isHole_reference
      · obtain ⟨hw, -, hact'⟩ := hother i hic
        exact ⟨⟨hi, (hrange i hic).mp hi', hact'.mp hact, hw ▸ hhole⟩, hic⟩

/-- A segment with a lower top. -/
theorem restrict {top' : Nat} (hb : bottom ≤ top') (htop : top' ≤ top)
    (hchunk : ∀ i, bottom ≤ i → i < top' → (w (chunkOf i)).isSerialNumber = true → chunkOf i + 4 ≤ top')
    (hrefs : ∀ r o, (r, o) ∈ refs' ↔ (r, o) ∈ refs ∧ ∃ i < top', r = entryAt i)
    (hfree : ∀ i, i ∈ free' ↔ i ∈ free ∧ i < top')
    (hrefs_nodup : (refs'.map Prod.fst).Nodup) (hfree_nodup : free'.Nodup) :
    Segment w bottom top' refs' free' := by
  refine ⟨hb, h.bottom_plain, fun i hi hi' hs => ⟨hchunk i hi hi' hs, (h.chunk i hi (hi'.trans_le htop) hs).2⟩,
    fun i hi hi' => h.entry i hi (hi'.trans_le htop), fun r o => ?_, fun i => ?_, hrefs_nodup, hfree_nodup⟩
  · rw [hrefs, h.mem_refs]
    constructor
    · rintro ⟨⟨i, rfl, hi, -, hact, heq⟩, j, hj, hij⟩
      obtain rfl := entryAt_injective hij
      exact ⟨i, rfl, hi, hj, hact, heq⟩
    · rintro ⟨i, rfl, hi, hi', hact, heq⟩
      exact ⟨⟨i, rfl, hi, hi'.trans_le htop, hact, heq⟩, i, hi', rfl⟩
  · rw [hfree, h.mem_free]
    exact ⟨fun ⟨⟨hi, _, hact⟩, hi'⟩ => ⟨hi, hi', hact⟩, fun ⟨hi, hi', hact⟩ => ⟨⟨hi, hi'.trans_le htop, hact⟩, hi'⟩⟩

end

end Segment

end Art.Lrt
