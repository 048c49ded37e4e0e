import Art.Dex2oat.IndexBssMapping
import Mathlib.Tactic.Ring
import Mathlib.Tactic.SplitIfs

/-! The mapping that the oat writer encodes is the one that is looked up. An entry is a partial function of the indexes;
    merging an index into it adds that index and keeps the others, because no bit of the mask is lost. -/

namespace Art.Bss
open List
open UInt32 (le_iff_toNat_le lt_iff_toNat_lt lt_trans ofNat size toNat_and toNat_inj toNat_or toNat_shiftRight
  toNat_sub_of_le)

/-! ### Bits of an entry -/

section bits

variable {b : Nat} (hb : b ≤ 32)
include hb

theorem indexMask_toNat : (indexMask b).toNat = 2 ^ b - 1 := by
  have h : ∀ b < 33, (indexMask b).toNat = 2 ^ b - 1 := by decide
  exact h b (by omega)

theorem getIndex_toNat (entry : IndexBssMappingEntry) :
    (entry.getIndex b).toNat = entry.indexAndMask.toNat % 2 ^ b := by
  rw [IndexBssMappingEntry.getIndex, toNat_and, indexMask_toNat hb, Nat.and_two_pow_sub_one_eq_mod]

end bits

theorem indexBits_le (n : UInt32) : indexBits n ≤ 32 := Nat.size_le.mpr (n - 1).toNat_lt

theorem toNat_lt_indexBits {n index : UInt32} (h : index < n) : index.toNat < 2 ^ indexBits n := by
  have hlt := lt_iff_toNat_lt.mp h
  have hsub : (n - 1).toNat = n.toNat - 1 := toNat_sub_of_le n 1 (le_iff_toNat_le.mpr (by
    change 1 ≤ n.toNat
    omega))
  have := Nat.lt_size_self (n - 1).toNat
  rw [indexBits]
  omega

/-- The indexes of the mask that are not more than `d` before the highest one. -/
def countBefore (x d : Nat) : Nat := ((Finset.range 32).filter fun bit => x.testBit (32 - d + bit)).card

theorem popCount_shiftRight {x d : UInt32} (hpos : 0 < d.toNat) (hd : d.toNat ≤ 32) :
    popCount (x >>> (32 - d)) = countBefore x.toNat d.toNat := by
  have hsub : (32 - d).toNat = 32 - d.toNat := toNat_sub_of_le 32 d (le_iff_toNat_le.mpr hd)
  rw [popCount, countBefore, toNat_shiftRight, hsub, Nat.mod_eq_of_lt (by omega)]
  simp only [Nat.testBit_shiftRight]

theorem and_one_ne_zero {x d : UInt32} (hpos : 0 < d.toNat) (hd : d.toNat ≤ 32) :
    (x >>> (32 - d)) &&& 1 ≠ 0 ↔ x.toNat.testBit (32 - d.toNat) = true := by
  have hsub : (32 - d).toNat = 32 - d.toNat := toNat_sub_of_le 32 d (le_iff_toNat_le.mpr hd)
  rw [Ne, ← toNat_inj, toNat_and, toNat_shiftRight, hsub, Nat.mod_eq_of_lt (by omega),
    Nat.testBit, Nat.and_comm, bne_iff_ne]
  rfl

/-! ### Lookup in an entry -/

section entry

variable {entry : IndexBssMappingEntry} {b : Nat} {index : UInt32} {slotSize : UInt64}

theorem getBssOffset_of_eq (h : entry.getIndex b = index) :
    entry.getBssOffset b index slotSize = entry.bssOffset.toUInt64 := by
  rw [IndexBssMappingEntry.getBssOffset, h, UInt32.sub_self, if_pos rfl]

/-- The offset of an index below the entry's own, from its bit of the mask. -/
theorem getBssOffset_of_lt (hb : b ≤ 32) {d : Nat} (hpos : 0 < d) (h : index.toNat + d = (entry.getIndex b).toNat) :
    entry.getBssOffset b index slotSize =
      if d ≤ 32 - b ∧ entry.indexAndMask.toNat.testBit (32 - d) = true then
        entry.bssOffset.toUInt64 - UInt64.ofNat (countBefore entry.indexAndMask.toNat d) * slotSize
      else npos := by
  have hd : (entry.getIndex b - index).toNat = d := by
    rw [toNat_sub_of_le _ _ (le_iff_toNat_le.mpr (by omega))]
    omega
  have hne : entry.getIndex b - index ≠ 0 := by
    rw [Ne, ← toNat_inj, hd]
    exact hpos.ne'
  rw [IndexBssMappingEntry.getBssOffset]
  simp only [hne, if_false, hd]
  by_cases hle : d ≤ 32 - b
  · rw [if_neg (by omega), popCount_shiftRight (by omega) (by omega), hd]
    by_cases hbit : entry.indexAndMask.toNat.testBit (32 - d) = true
    · rw [if_pos ((and_one_ne_zero (by omega) (by omega)).mpr (hd.symm ▸ hbit)), if_pos ⟨hle, hbit⟩]
    · rw [if_neg fun hand => hbit (hd ▸ (and_one_ne_zero (by omega) (by omega)).mp hand), if_neg fun h => hbit h.2]
  · rw [if_pos (by omega), if_neg fun h => hle h.1]

/-- An entry has no index above its own. -/
theorem getBssOffset_of_gt (hb : b ≤ 32) (hindex : index.toNat < 2 ^ b) (h : (entry.getIndex b).toNat < index.toNat) :
    entry.getBssOffset b index slotSize = npos := by
  have hd : (entry.getIndex b - index).toNat = 2 ^ 32 - index.toNat + (entry.getIndex b).toNat := by
    rw [UInt32.toNat_sub, Nat.mod_eq_of_lt]
    have := index.toNat_lt
    omega
  have hfar : 32 - b < (entry.getIndex b - index).toNat := by
    rw [hd]
    obtain rfl | hlt := Nat.eq_or_lt_of_le hb
    · omega
    · have : 2 ^ b ≤ 2 ^ 31 := Nat.pow_le_pow_right (by decide) (by omega)
      omega
  have hne : entry.getIndex b - index ≠ 0 := by
    rintro hzero
    rw [hzero] at hfar
    exact absurd hfar (Nat.not_lt_zero _)
  rw [IndexBssMappingEntry.getBssOffset]
  simp only [hne, if_false]
  rw [if_pos hfar]

/-- An entry with no mask has its own index only. -/
theorem getBssOffset_single (hb : b ≤ 32) {single bssOffset : UInt32} (hsingle : single.toNat < 2 ^ b)
    (hindex : index.toNat < 2 ^ b) :
    IndexBssMappingEntry.getBssOffset ⟨single, bssOffset⟩ b index slotSize =
      if index = single then bssOffset.toUInt64 else npos := by
  have hget : IndexBssMappingEntry.getIndex ⟨single, bssOffset⟩ b = single := by
    rw [← toNat_inj, getIndex_toNat hb, Nat.mod_eq_of_lt hsingle]
  obtain hlt | heq | hgt := Nat.lt_trichotomy index.toNat single.toNat
  · have hne : index ≠ single := fun heq => absurd (heq ▸ hlt) (Nat.lt_irrefl _)
    rw [if_neg hne, getBssOffset_of_lt hb (d := single.toNat - index.toNat) (by omega) (by rw [hget]; omega), if_neg]
    rintro ⟨hle, hbit⟩
    have hpow : 2 ^ b ≤ 2 ^ (32 - (single.toNat - index.toNat)) := Nat.pow_le_pow_right (by decide) (by omega)
    rw [Nat.testBit_lt_two_pow (hsingle.trans_le hpow)] at hbit
    exact Bool.false_ne_true hbit
  · have heq := toNat_inj.mp heq
    rw [if_pos heq, getBssOffset_of_eq (hget.trans heq.symm)]
  · have hne : index ≠ single := fun heq => absurd (heq ▸ hgt) (Nat.lt_irrefl _)
    rw [if_neg hne, getBssOffset_of_gt hb hindex (by rwa [hget])]

end entry

/-! ### Merging -/

/-- What merging the index that is `d` after the highest one does to an entry. -/
structure Merged (b : Nat) (slotSize : UInt64) (entry entry' : IndexBssMappingEntry) (index bssOffset : UInt32)
    (d : Nat) :
    Prop where
  next_slot : entry.bssOffset.toUInt64 + slotSize = bssOffset.toUInt64
  bssOffset_eq : entry'.bssOffset = bssOffset
  pos : 0 < d
  le : d ≤ 32 - b
  diff : (entry.getIndex b).toNat + d = index.toNat
  getIndex_eq : entry'.getIndex b = index
  testBit_eq : ∀ k, b ≤ k → k < 32 →
    entry'.indexAndMask.toNat.testBit k = (entry.indexAndMask.toNat.testBit (k + d) || decide (k = 32 - d))
  dropped : ∀ k, b ≤ k → k < b + d → entry.indexAndMask.toNat.testBit k = false

theorem and_not_shiftLeft_eq_zero {x d : UInt32} (hd : d.toNat < 32) (h : x &&& ~~~(0xffffffff <<< d) = 0) (k : Nat)
    (hk : k < d.toNat) : x.toNat.testBit k = false := by
  have hmask : ∀ n < 32, (~~~(0xffffffff <<< ofNat n) : UInt32).toNat = 2 ^ n - 1 := by decide
  have hzero : x.toNat % 2 ^ d.toNat = 0 := by
    rw [← Nat.and_two_pow_sub_one_eq_mod, ← hmask d.toNat hd, UInt32.ofNat_toNat, ← toNat_and, h]
    rfl
  have hbit := Nat.testBit_mod_two_pow x.toNat d.toNat k
  rw [hzero, Nat.zero_testBit, decide_eq_true hk, Bool.true_and] at hbit
  exact hbit.symm

/-- The mask moves down by the distance, and a bit for the index before comes in at the top. -/
theorem testBit_mergedMask (e d index : UInt32) {b : Nat} (hb : b < 32) (hpos : 0 < d.toNat) (hd : d.toNat < 32)
    (k : Nat) :
    ((((e >>> ofNat b) <<< ofNat b) >>> d) ||| (1 <<< (32 - d)) ||| index).toNat.testBit k =
      ((decide (b ≤ k + d.toNat) && e.toNat.testBit (k + d.toNat)) || decide (k = 32 - d.toNat) ||
        index.toNat.testBit k) := by
  have hbits : (ofNat b).toNat % 32 = b := by
    rw [UInt32.toNat_ofNat_of_lt' (by norm_num [size]; omega), Nat.mod_eq_of_lt hb]
  have hsub : (32 - d).toNat % 32 = 32 - d.toNat := by
    rw [toNat_sub_of_le 32 d (le_iff_toNat_le.mpr (by change d.toNat ≤ 32; omega))]
    change (32 - d.toNat) % 32 = _
    omega
  have hone : (1 <<< (32 - d) : UInt32).toNat = 2 ^ (32 - d.toNat) := by
    rw [UInt32.toNat_shiftLeft, hsub]
    change 1 <<< (32 - d.toNat) % 2 ^ 32 = _
    rw [Nat.one_shiftLeft, Nat.mod_eq_of_lt (Nat.pow_lt_pow_right (by decide) (by omega))]
  have hhigh : e.toNat.testBit (k + d.toNat) = true → k + d.toNat < 32 := by
    intro hbit
    by_contra hge
    rw [Nat.testBit_lt_two_pow] at hbit
    · exact Bool.false_ne_true hbit
    · exact e.toNat_lt.trans_le (Nat.pow_le_pow_right (by decide) (by omega))
  rw [toNat_or, toNat_or, hone, Nat.testBit_or, Nat.testBit_or, Nat.testBit_two_pow,
    toNat_shiftRight, Nat.mod_eq_of_lt hd, Nat.testBit_shiftRight, UInt32.toNat_shiftLeft, hbits,
    Nat.testBit_mod_two_pow, Nat.testBit_shiftLeft, toNat_shiftRight, hbits, Nat.testBit_shiftRight]
  congr 2
  · rw [Nat.add_comm d.toNat k]
    by_cases hle : b ≤ k + d.toNat
    · rw [Nat.add_sub_cancel' hle]
      cases hbit : e.toNat.testBit (k + d.toNat) with
      | false => simp
      | true => simp [hle, hhigh hbit]
    · simp [hle]
  · exact decide_eq_decide.mpr eq_comm

/-- A merge moves the entry to the new index and keeps the others in the mask. -/
theorem tryMerge_merged {encoder encoder' : IndexBssMappingEncoder} {index bssOffset : UInt32}
    (hb : encoder.indexBits ≤ 32) (hindex : index.toNat < 2 ^ encoder.indexBits)
    (hlt : (encoder.entry.getIndex encoder.indexBits).toNat < index.toNat)
    (h : encoder.tryMerge index bssOffset = some encoder') :
    ∃ entry' d, encoder' = { encoder with entry := entry' } ∧
      Merged encoder.indexBits encoder.slotSize encoder.entry entry' index bssOffset d := by
  rw [IndexBssMappingEncoder.tryMerge] at h
  obtain ⟨d, hd⟩ : ∃ d, d = index - encoder.entry.getIndex encoder.indexBits := ⟨_, rfl⟩
  have hdNat : d.toNat = index.toNat - (encoder.entry.getIndex encoder.indexBits).toNat := by
    rw [hd, toNat_sub_of_le _ _ (le_iff_toNat_le.mpr hlt.le)]
  have hbpos : 0 < encoder.indexBits := by
    by_contra hzero
    rw [Nat.eq_zero_of_not_pos hzero] at hindex
    omega
  simp only [← hd] at h
  split_ifs at h with hoffset hfar hmask
  rw [ne_eq, not_not] at hoffset hmask
  have hpos : 0 < d.toNat := by omega
  have hd32 : d.toNat < 32 := by omega
  have hbits := testBit_mergedMask encoder.entry.indexAndMask d index (by omega : encoder.indexBits < 32) hpos hd32
  have hdropped : ∀ k, encoder.indexBits ≤ k → k < encoder.indexBits + d.toNat →
      encoder.entry.indexAndMask.toNat.testBit k = false := by
    intro k hk hkd
    have := and_not_shiftLeft_eq_zero hd32 hmask (k - encoder.indexBits) (by omega)
    rw [IndexBssMappingEntry.getMask, toNat_shiftRight, UInt32.toNat_ofNat_of_lt' (by norm_num [size]; omega),
      Nat.mod_eq_of_lt (by omega), Nat.testBit_shiftRight, Nat.add_sub_cancel' hk] at this
    exact this
  have hindexBit : ∀ k, encoder.indexBits ≤ k → index.toNat.testBit k = false := fun k hk =>
    Nat.testBit_lt_two_pow (hindex.trans_le (Nat.pow_le_pow_right (by decide) hk))
  refine ⟨_, d.toNat, (Option.some.inj h).symm, hoffset, rfl, hpos, by omega, by omega, ?_, fun k hk hk32 => ?_,
    hdropped⟩
  · -- No bit of the mask falls into the index.
    rw [← toNat_inj, getIndex_toNat hb]
    refine Nat.eq_of_testBit_eq fun k => ?_
    rw [Nat.testBit_mod_two_pow]
    by_cases hk : k < encoder.indexBits
    · rw [decide_eq_true hk, Bool.true_and, IndexBssMappingEntry.getMask, hbits,
        decide_eq_false (by omega : k ≠ 32 - d.toNat)]
      by_cases hle : encoder.indexBits ≤ k + d.toNat
      · rw [hdropped _ hle (by omega)]
        simp
      · simp [hle]
    · rw [decide_eq_false hk, Bool.false_and, hindexBit k (by omega)]
  · rw [IndexBssMappingEntry.getMask, hbits, hindexBit k hk,
      decide_eq_true (by omega : encoder.indexBits ≤ k + d.toNat),
      Bool.true_and, Bool.or_false]

theorem testBit_high (x : UInt32) {k : Nat} (hk : 32 ≤ k) : x.toNat.testBit k = false :=
  Nat.testBit_lt_two_pow (x.toNat_lt.trans_le (Nat.pow_le_pow_right (by decide) hk))

namespace Merged

variable {b : Nat} {slotSize : UInt64} {entry entry' : IndexBssMappingEntry} {index bssOffset : UInt32} {d : Nat}
variable (h : Merged b slotSize entry entry' index bssOffset d)
include h

/-- The merge adds one slot before each index that was there. -/
theorem countBefore_eq {d₀ : Nat} (hle : d₀ + d ≤ 32 - b) :
    countBefore entry'.indexAndMask.toNat (d₀ + d) = countBefore entry.indexAndMask.toNat d₀ + 1 := by
  have hpos := h.pos
  have hinsert : ((Finset.range 32).filter fun t => entry'.indexAndMask.toNat.testBit (32 - (d₀ + d) + t) = true) =
      insert d₀ ((Finset.range 32).filter fun t => entry.indexAndMask.toNat.testBit (32 - d₀ + t) = true) := by
    ext t
    rw [Finset.mem_insert, Finset.mem_filter, Finset.mem_filter, Finset.mem_range]
    by_cases hk : 32 - (d₀ + d) + t < 32
    · rw [h.testBit_eq _ (by omega) hk, (by omega : 32 - (d₀ + d) + t + d = 32 - d₀ + t), Bool.or_eq_true,
        decide_eq_true_iff]
      constructor
      · rintro ⟨ht, hbit | heq⟩
        · exact .inr ⟨ht, hbit⟩
        · exact .inl (by omega)
      · rintro (rfl | ⟨ht, hbit⟩)
        · exact ⟨by omega, .inr (by omega)⟩
        · exact ⟨ht, .inl hbit⟩
    · rw [testBit_high _ (by omega), testBit_high _ (by omega)]
      constructor
      · rintro ⟨-, hfalse⟩
        cases hfalse
      · rintro (rfl | ⟨-, hfalse⟩)
        · omega
        · cases hfalse
  have hnotMem : d₀ ∉ (Finset.range 32).filter fun t => entry.indexAndMask.toNat.testBit (32 - d₀ + t) = true := by
    rw [Finset.mem_filter, testBit_high _ (by omega)]
    exact fun hmem => Bool.false_ne_true hmem.2
  rw [countBefore, hinsert, Finset.card_insert_of_notMem hnotMem, countBefore]

theorem offset_eq (n : Nat) :
    bssOffset.toUInt64 - UInt64.ofNat (n + 1) * slotSize = entry.bssOffset.toUInt64 - UInt64.ofNat n * slotSize := by
  rw [← h.next_slot, UInt64.ofNat_add]
  grind

/-- A merged entry has the offsets it had and that of the new index. -/
theorem getBssOffset_eq (hb : b ≤ 32) {i : UInt32} (hi : i.toNat < 2 ^ b) :
    entry'.getBssOffset b i slotSize =
      if i = index then bssOffset.toUInt64 else entry.getBssOffset b i slotSize := by
  have hpos := h.pos
  have hle := h.le
  have hdiff := h.diff
  obtain hlt | heq | hgt := Nat.lt_trichotomy i.toNat index.toNat
  · have hne : i ≠ index := fun heq => absurd (heq ▸ hlt) (Nat.lt_irrefl _)
    rw [if_neg hne, getBssOffset_of_lt hb (d := index.toNat - i.toNat) (by omega) (by rw [h.getIndex_eq]; omega)]
    obtain hbelow | hsame | habove := Nat.lt_trichotomy i.toNat (entry.getIndex b).toNat
    · -- An index of the mask, which may have been too far away before.
      obtain ⟨d₀, hd₀⟩ : ∃ d₀, i.toNat + d₀ = (entry.getIndex b).toNat := ⟨_, Nat.add_sub_cancel' hbelow.le⟩
      rw [getBssOffset_of_lt hb (d := d₀) (by omega) hd₀, (by omega : index.toNat - i.toNat = d₀ + d)]
      by_cases hfar : d₀ + d ≤ 32 - b
      · rw [h.countBefore_eq hfar, h.bssOffset_eq, h.offset_eq, h.testBit_eq _ (by omega) (by omega),
          (by omega : 32 - (d₀ + d) + d = 32 - d₀), decide_eq_false (by omega : 32 - (d₀ + d) ≠ 32 - d), Bool.or_false]
        simp only [hfar, (by omega : d₀ ≤ 32 - b)]
      rw [if_neg fun hand => hfar hand.1, if_neg]
      rintro ⟨hnear, hbit⟩
      rw [h.dropped _ (by omega) (by omega)] at hbit
      exact Bool.false_ne_true hbit
    · have hd : index.toNat - i.toNat = 0 + d := by omega
      have hcount : countBefore entry.indexAndMask.toNat 0 = 0 := by
        rw [countBefore, Finset.card_eq_zero, Finset.filter_eq_empty_iff]
        intro t _
        rw [testBit_high _ (by omega)]
        exact Bool.false_ne_true
      rw [hd, h.countBefore_eq (by omega), h.bssOffset_eq, h.offset_eq, h.testBit_eq _ (by omega) (by omega), hcount,
        getBssOffset_of_eq (toNat_inj.mp hsame.symm), if_pos ⟨by omega, by simp⟩]
      grind
    · rw [getBssOffset_of_gt hb hi habove, if_neg]
      rintro ⟨-, hbit⟩
      rw [h.testBit_eq _ (by omega) (by omega), testBit_high _ (by omega), Bool.false_or, decide_eq_true_iff] at hbit
      omega
  · have heq := toNat_inj.mp heq
    rw [if_pos heq, getBssOffset_of_eq (h.getIndex_eq.trans heq.symm), h.bssOffset_eq]
  · have hne : i ≠ index := fun heq => absurd (heq ▸ hgt) (Nat.lt_irrefl _)
    rw [if_neg hne, getBssOffset_of_gt hb hi (by rwa [h.getIndex_eq]), getBssOffset_of_gt hb hi (by omega)]

end Merged

/-! ### The whole mapping -/

section mapping

variable {b : Nat} {slotSize : UInt64} {assigned : UInt32 → UInt64}

/-- The first entry whose highest index is not below the one looked up. -/
def findEntry (b : Nat) (entries : List IndexBssMappingEntry) (index : UInt32) : Option IndexBssMappingEntry :=
  entries.find? fun entry => !decide (entry.getIndex b < index)

def lookupIn (b : Nat) (slotSize : UInt64) (entries : List IndexBssMappingEntry) (index : UInt32) : UInt64 :=
  (findEntry b entries index).elim npos (·.getBssOffset b index slotSize)

theorem lookupIn_concat (hb : b ≤ 32) (entries : List IndexBssMappingEntry) (entry : IndexBssMappingEntry)
    {index : UInt32} (hindex : index.toNat < 2 ^ b) :
    lookupIn b slotSize (entries ++ [entry]) index =
      (findEntry b entries index).elim (entry.getBssOffset b index slotSize) (·.getBssOffset b index slotSize) := by
  rw [lookupIn, findEntry, find?_append, ← findEntry]
  cases findEntry b entries index with
  | some found => rfl
  | none =>
    by_cases hlt : entry.getIndex b < index
    · rw [Option.none_or, find?_cons_of_neg (by simp [hlt]), find?_nil]
      exact (getBssOffset_of_gt hb hindex (lt_iff_toNat_lt.mp hlt)).symm
    · rw [Option.none_or, find?_cons_of_pos (by simp [hlt])]
      rfl

/-- The entries up to the one in the encoder hold the indexes so far. -/
structure Written (b : Nat) (slotSize : UInt64) (assigned : UInt32 → UInt64) (indexes : List UInt32)
    (encoder : IndexBssMappingEncoder) (written : List IndexBssMappingEntry) : Prop where
  indexBits_eq : encoder.indexBits = b
  slotSize_eq : encoder.slotSize = slotSize
  mem : encoder.entry.getIndex b ∈ indexes
  sorted : (written ++ [encoder.entry]).Pairwise fun e e' => e.getIndex b < e'.getIndex b
  lookup : ∀ i : UInt32, i.toNat < 2 ^ b → lookupIn b slotSize (written ++ [encoder.entry]) i =
    if i ∈ indexes then (assigned i).toUInt32.toUInt64 else npos

namespace Written

variable {indexes : List UInt32} {encoder : IndexBssMappingEncoder} {written : List IndexBssMappingEntry}
  {index : UInt32}

theorem single (hb : b ≤ 32) (hindex : index.toNat < 2 ^ b) (entry : IndexBssMappingEntry) :
    Written b slotSize assigned [index]
      (IndexBssMappingEncoder.reset ⟨b, slotSize, entry⟩ index (assigned index).toUInt32) [] := by
  refine ⟨rfl, rfl, ?_, pairwise_singleton .., fun i hi => ?_⟩
  · rw [mem_singleton, ← toNat_inj, getIndex_toNat hb]
    exact Nat.mod_eq_of_lt hindex
  · rw [lookupIn_concat hb _ _ hi]
    refine (getBssOffset_single hb hindex hi).trans ?_
    simp only [mem_singleton]
    split_ifs with heq
    · rw [heq]
    · rfl

variable (h : Written b slotSize assigned indexes encoder written) (hb : b ≤ 32) (hindex : index.toNat < 2 ^ b)
variable (hlt : ∀ j ∈ indexes, j < index)
include h hlt

theorem getIndex_lt {entry : IndexBssMappingEntry} (hmem : entry ∈ written ++ [encoder.entry]) :
    entry.getIndex b < index := by
  have hlast := hlt _ h.mem
  obtain hmem | hmem := mem_append.mp hmem
  · have := (pairwise_append.mp h.sorted).2.2 entry hmem encoder.entry (mem_singleton_self _)
    exact lt_trans this hlast
  · rwa [mem_singleton.mp hmem]

theorem ne_of_findEntry {entries : List IndexBssMappingEntry} (hsub : ∀ e ∈ entries, e ∈ written ++ [encoder.entry])
    {i : UInt32} {found : IndexBssMappingEntry} (hfound : findEntry b entries i = some found) : i ≠ index := by
  rintro rfl
  have hle := find?_some hfound
  have := h.getIndex_lt hlt (hsub found (mem_of_find?_eq_some hfound))
  simp [this] at hle

include hb hindex

/-- The mapping written stays right when an index is merged. -/
theorem merge {encoder' : IndexBssMappingEncoder}
    (hmerge : encoder.tryMerge index (assigned index).toUInt32 = some encoder') :
    Written b slotSize assigned (indexes ++ [index]) encoder' written := by
  obtain ⟨rfl, rfl⟩ : b = encoder.indexBits ∧ slotSize = encoder.slotSize := ⟨h.indexBits_eq.symm, h.slotSize_eq.symm⟩
  obtain ⟨entry', d, rfl, hmerged⟩ := tryMerge_merged hb hindex (lt_iff_toNat_lt.mp (hlt _ h.mem)) hmerge
  refine ⟨rfl, rfl, ?_, ?_, fun i hi => ?_⟩
  · exact hmerged.getIndex_eq ▸ mem_append_right _ (mem_singleton_self _)
  · refine pairwise_append.mpr ⟨(pairwise_append.mp h.sorted).1, pairwise_singleton .., ?_⟩
    intro e he e' he'
    rw [mem_singleton.mp he', hmerged.getIndex_eq]
    exact h.getIndex_lt hlt (mem_append_left _ he)
  · have hlookup := h.lookup i hi
    rw [lookupIn_concat hb _ _ hi] at hlookup ⊢
    simp only [mem_append, mem_singleton]
    cases hfound : findEntry encoder.indexBits written i with
    | some found =>
      have hne := h.ne_of_findEntry hlt (fun e he => mem_append_left _ he) hfound
      rw [hfound] at hlookup
      simpa only [hne, or_false, Option.elim_some] using hlookup
    | none =>
      rw [hfound] at hlookup
      refine (hmerged.getBssOffset_eq hb hi).trans ?_
      by_cases heq : i = index
      · simp only [heq, if_true, or_true]
      · simpa only [heq, if_false, or_false, Option.elim_none] using hlookup

/-- The mapping written stays right when an index starts an entry. -/
theorem reset :
    Written b slotSize assigned (indexes ++ [index]) (encoder.reset index (assigned index).toUInt32)
      (written ++ [encoder.entry]) := by
  have hget : IndexBssMappingEntry.getIndex ⟨index, (assigned index).toUInt32⟩ b = index := by
    rw [← toNat_inj, getIndex_toNat hb, Nat.mod_eq_of_lt hindex]
  refine ⟨h.indexBits_eq, h.slotSize_eq, ?_, ?_, fun i hi => ?_⟩
  · exact mem_append_right _ (mem_singleton.mpr hget)
  · refine pairwise_append.mpr ⟨h.sorted, pairwise_singleton .., fun e he e' he' => ?_⟩
    rw [mem_singleton.mp he', IndexBssMappingEncoder.reset, hget]
    exact h.getIndex_lt hlt he
  · have hlookup := h.lookup i hi
    rw [lookupIn] at hlookup
    rw [lookupIn_concat hb _ _ hi]
    simp only [mem_append, mem_singleton]
    cases hfound : findEntry b (written ++ [encoder.entry]) i with
    | some found =>
      have hne := h.ne_of_findEntry hlt (fun e he => he) hfound
      rw [hfound] at hlookup
      simpa only [hne, or_false, Option.elim_some] using hlookup
    | none =>
      rw [hfound] at hlookup
      refine (getBssOffset_single hb hindex hi).trans ?_
      by_cases heq : i = index
      · simp only [heq, if_true, or_true]
      · simpa only [heq, if_false, or_false, Option.elim_none] using hlookup

end Written

/-- Both loops of the oat writer, side by side. -/
theorem foldl_written (numberOfIndexes slotSize : UInt64) (assigned : UInt32 → UInt64)
    (hb : indexBits numberOfIndexes.toUInt32 = b) {indexes : List UInt32}
    (hne : indexes ≠ []) (hsorted : indexes.Pairwise (· < ·)) (hlt : ∀ i ∈ indexes, i.toNat < 2 ^ b) :
    ∃ encoder written, Written b slotSize assigned indexes encoder written ∧
      indexes.foldl (writeStep assigned) (.new numberOfIndexes slotSize, [], true) = (encoder, written, false) ∧
      indexes.foldl (calculateStep assigned) (.new numberOfIndexes slotSize, 0, true) =
        (encoder, written.length + 1, false) := by
  have hb32 : b ≤ 32 := hb ▸ indexBits_le _
  induction indexes using reverseRecOn with
  | nil => exact absurd rfl hne
  | append_singleton indexes index ih =>
    have hindex := hlt index (by simp)
    obtain ⟨hsorted, -, hbelow⟩ := pairwise_append.mp hsorted
    have hbelow := fun j hj => hbelow j hj index (mem_singleton_self _)
    simp only [foldl_append, foldl_cons, foldl_nil]
    by_cases hnil : indexes = []
    · subst hnil
      refine ⟨_, _, hb ▸ Written.single (hb ▸ hb32) (hb ▸ hindex) ⟨0xffffffff, 0xffffffff⟩, rfl, rfl⟩
    obtain ⟨encoder, written, hwritten, hwrite, hcalculate⟩ := ih hnil hsorted fun i hi => hlt i (mem_append_left _ hi)
    rw [hwrite, hcalculate]
    simp only [writeStep, calculateStep, Bool.false_eq_true, if_false]
    cases hmerge : encoder.tryMerge index (assigned index).toUInt32 with
    | some encoder' => exact ⟨_, _, hwritten.merge hb32 hindex hbelow hmerge, rfl, rfl⟩
    | none => exact ⟨_, _, hwritten.reset hb32 hindex hbelow, rfl, by simp⟩

theorem getBssOffset_eq_lookupIn {entries : List IndexBssMappingEntry} {numberOfIndexes : UInt32}
    (hsorted : entries.Pairwise fun e e' =>
      e.getIndex (indexBits numberOfIndexes) < e'.getIndex (indexBits numberOfIndexes))
    (index : UInt32) :
    getBssOffset (some entries) index numberOfIndexes slotSize =
      lookupIn (indexBits numberOfIndexes) slotSize entries index := by
  have hpoint : entries[Lib.partitionPoint (fun entry =>
      decide (entry.indexAndMask &&& indexMask (indexBits numberOfIndexes) < index)) entries]? =
      findEntry (indexBits numberOfIndexes) entries index :=
    Lib.getElem?_partitionPoint (hsorted.imp fun hlt hle =>
      decide_eq_true (lt_trans hlt (of_decide_eq_true hle)))
  simp only [getBssOffset, hpoint, lookupIn]
  cases findEntry (indexBits numberOfIndexes) entries index <;> rfl

end mapping

/-- The written mapping has the precomputed number of entries, is sorted, and looks up the offset assigned to each of
    the indexes, of which an entry keeps 32 bits, and nothing for the others. -/
theorem indexBssMapping_roundTrip (numberOfIndexes : UInt32) (slotSize : UInt64) (indexes : List UInt32)
    (assigned : UInt32 → UInt64) (hsorted : indexes.Pairwise (· < ·))
    (hlt : ∀ index ∈ indexes, index < numberOfIndexes) :
    ((indexBssMapping numberOfIndexes.toUInt64 slotSize indexes assigned).getD []).length =
        calculateNumberOfIndexBssMappingEntries numberOfIndexes.toUInt64 slotSize indexes assigned ∧
      ((indexBssMapping numberOfIndexes.toUInt64 slotSize indexes assigned).getD []).Pairwise
        (fun e e' => e.getIndex (indexBits numberOfIndexes) < e'.getIndex (indexBits numberOfIndexes)) ∧
      ∀ index < numberOfIndexes,
        getBssOffset (indexBssMapping numberOfIndexes.toUInt64 slotSize indexes assigned) index
            numberOfIndexes slotSize =
          if index ∈ indexes then (assigned index).toUInt32.toUInt64 else npos := by
  by_cases hnil : indexes = []
  · subst hnil
    exact ⟨rfl, List.Pairwise.nil, fun index _ => rfl⟩
  obtain ⟨encoder, written, hwritten, hwrite, hcalculate⟩ := foldl_written numberOfIndexes.toUInt64
    slotSize assigned (b := indexBits numberOfIndexes) (by rw [UInt32.toUInt32_toUInt64]) hnil hsorted fun i hi =>
      toNat_lt_indexBits (hlt i hi)
  have hmapping : indexBssMapping numberOfIndexes.toUInt64 slotSize indexes assigned =
      some (written ++ [encoder.entry]) := by
    rw [indexBssMapping, if_neg hnil, writeIndexBssMapping, hwrite]
  rw [hmapping, calculateNumberOfIndexBssMappingEntries, hcalculate, Option.getD_some]
  refine ⟨by simp, hwritten.sorted, fun index hindex => ?_⟩
  rw [getBssOffset_eq_lookupIn hwritten.sorted, hwritten.lookup index (toNat_lt_indexBits hindex)]

/-- Consecutive slots for the indexes 1, 5, 17 and 18. -/
def fourSlots (index : UInt32) : UInt64 :=
  if index = 1 then 0 else if index = 5 then 8 else if index = 17 then 16 else 24

/-- With 16 bits of index 18 is too far from 1 for the mask, so that there are two entries. -/
theorem indexBssMapping_four :
    ((indexBssMapping 0x10000 8 [1, 5, 17, 18] fourSlots).getD []).length =
        calculateNumberOfIndexBssMappingEntries 0x10000 8 [1, 5, 17, 18] fourSlots ∧
      getBssOffset (indexBssMapping 0x10000 8 [1, 5, 17, 18] fourSlots) 5 0x10000 8 = 8 ∧
      getBssOffset (indexBssMapping 0x10000 8 [1, 5, 17, 18] fourSlots) 16 0x10000 8 = npos := by
  obtain ⟨hlength, -, hlookup⟩ := indexBssMapping_roundTrip 0x10000 8 [1, 5, 17, 18] fourSlots (by decide) (by simp)
  exact ⟨hlength, hlookup 5 (by decide), hlookup 16 (by decide)⟩

end Art.Bss
