import Art.Lib.Except
import Art.Libprofile.ProfileFile
import Art.Theorems.ProfileMerge

/-! Reading back what is written for one dex file: its classes, and its methods with their inline caches and
    flags. -/

namespace Art.Profile
open List

open Lib (OrderedMap OrderedSet Yields ofBytes)

variable {numTypeIds extra : Nat} {tail : Bytes}

/-! ### Numbers and strings -/

@[simp] theorem length_writeUint (size n : Nat) : (writeUint size n).length = size := Lib.length_toBytes size n

@[simp] theorem length_writeString (s : Str) : (writeString s).length = 2 + s.length := by
  rw [writeString, length_append, length_writeUint]

theorem take_writeUint (size n : Nat) (tail : Bytes) : (writeUint size n ++ tail).take size = writeUint size n :=
  take_left' (length_writeUint size n)

theorem drop_writeUint (size n : Nat) (tail : Bytes) : (writeUint size n ++ tail).drop size = tail :=
  drop_left' (length_writeUint size n)

theorem ofBytes_writeUint {size n : Nat} (h : n < 256 ^ size) : ofBytes (writeUint size n) = n :=
  Lib.ofBytes_toBytes_of_lt h

theorem readUint_writeUint_mod (size n : Nat) (message : String) (tail : Bytes) :
    readUint size message (writeUint size n ++ tail) = .ok (n % 256 ^ size, tail) := by
  have hle : ¬size > (writeUint size n ++ tail).length := by simp
  rw [readUint, if_neg hle, take_writeUint, drop_writeUint, writeUint, Lib.ofBytes_toBytes]

theorem readUint_writeUint {size n : Nat} (h : n < 256 ^ size) (message : String) (tail : Bytes) :
    readUint size message (writeUint size n ++ tail) = .ok (n, tail) := by
  rw [readUint_writeUint_mod, Nat.mod_eq_of_lt h]

theorem readString_writeString {s : Str} (h : s.length < 2 ^ 16) (message : String) (tail : Bytes) :
    Yields (readString message (writeString s ++ tail)) (s, tail) (0 ∉ s) := by
  have hlen : ¬s.length > (s ++ tail).length := by simp
  rw [writeString, append_assoc]
  refine .after (readUint_writeUint h message _) ?_
  dsimp only
  rw [if_neg hlen, take_left, drop_left]
  by_cases hnull : 0 ∈ s
  · rw [if_pos hnull]
    exact .of_error (not_not.mpr hnull) ⟨_, rfl⟩
  · rw [if_neg hnull]
    exact .of_ok hnull rfl

/-! ### Type indexes -/

theorem length_writeClassSet (last : Nat) (types : List Nat) :
    (writeClassSet last types).length = 2 * types.length := by
  induction types generalizing last with
  | nil => rfl
  | cons t types ih =>
    rw [writeClassSet, length_append, length_writeUint, ih, length_cons]
    omega

/-- The identity remaps an index to itself. -/
theorem remapTypeIndex_range {index : Nat} (h : TypeIndexFits numTypeIds extra index) :
    remapTypeIndex numTypeIds (range extra) index = some index := by
  rw [remapTypeIndex]
  split_ifs with hlt
  · rfl
  have hn : numTypeIds ≤ kDexNoIndex16 := (not_lt.mp hlt).trans h.2.le
  have hidx : index - numTypeIds < (range extra).length := by
    rw [length_range]
    have := h.1
    omega
  have hnew : (range extra).getD (index - numTypeIds) 0 = index - numTypeIds := by
    rw [getD_eq_getElem _ _ hidx, getElem_range]
  have hmax : index - numTypeIds < maxArtificialIds numTypeIds := by
    rw [maxArtificialIds_eq hn]
    have := h.2
    omega
  have hindex : numTypeIds + (index - numTypeIds) = index := by omega
  rw [hnew]
  rw [if_neg (not_le.mpr hmax), (artificial_fits hn hmax (length_range ▸ hidx)).1, hindex]

/-- The types of a class set are read back; `first` says that nothing is in front of them. -/
theorem readTypeIndexes_writeClassSet (messages : TypeIndexMessages) :
    ∀ (types : List Nat) (first : Bool) (last : Nat), types.Pairwise (· < ·) →
    (∀ t ∈ types, last ≤ t ∧ (t = last → first = true) ∧ TypeIndexFits numTypeIds extra t) →
    readTypeIndexes messages numTypeIds (range extra) types.length first last (writeClassSet last types ++ tail) =
      .ok (types, tail)
  | [], _, _, _, _ => rfl
  | t :: types, first, last, hasc, hfits => by
    rw [forall_mem_cons] at hfits
    obtain ⟨⟨hle, hfirst, hfit⟩, hfits⟩ := hfits
    obtain ⟨hlt, hasc⟩ := pairwise_cons.mp hasc
    have hdiff : t - last < 256 ^ 2 := by
      have := hfit.2
      unfold kDexNoIndex16 at this
      omega
    have hdup : ¬(t - last = 0 ∧ (!first) = true) := by
      rintro ⟨hzero, hnot⟩
      rw [hfirst (by omega)] at hnot
      cases hnot
    have hvalid : ¬t - last ≥ min (numTypeIds + (range extra).length) kDexNoIndex16 - last := by
      rw [length_range]
      obtain ⟨h1, h2⟩ := hfit
      omega
    have hnext : last + (t - last) = t := by omega
    have hrest := readTypeIndexes_writeClassSet messages types false t hasc fun u hu =>
      ⟨(hlt u hu).le, fun heq => absurd heq (hlt u hu).ne', (hfits u hu).2.2⟩
    rw [writeClassSet, append_assoc, length_cons, readTypeIndexes, readUint_writeUint hdiff]
    simp only [Lib.ok_bind, if_neg hdup, if_neg hvalid, hnext, remapTypeIndex_range hfit, hrest]
    rfl

theorem readTypeIndexes_classSet (messages : TypeIndexMessages) {classes : OrderedSet Nat}
    (hfits : ∀ t ∈ classes.keys, TypeIndexFits numTypeIds extra t) (tail : Bytes) :
    readTypeIndexes messages numTypeIds (range extra) classes.size true 0 (writeClassSet 0 classes.keys ++ tail) =
      .ok (classes.keys, tail) := by
  rw [← OrderedMap.length_keys]
  exact readTypeIndexes_writeClassSet messages classes.keys true 0 classes.keys_pairwise fun t ht =>
    ⟨Nat.zero_le t, fun _ => rfl, hfits t ht⟩

/-! ### Inline caches -/

/-- Adding the classes of a cache one by one gives the cache. -/
theorem DexPcData.foldl_addClass {data : DexPcData} {classes : OrderedSet Nat} (hmissing : data.isMissingTypes = false)
    (hmega : data.isMegamorphic = false) (hfew : classes.size < kIndividualInlineCacheSize) (types : List Nat)
    (h : data.classes.keys ++ types = classes.keys) : types.foldl addClass data = { data with classes } := by
  induction types generalizing data with
  | nil => rw [foldl_nil, ← OrderedSet.ext_keys ((append_nil _).symm.trans h)]
  | cons t types ih =>
    obtain ⟨hkeys, hnew⟩ := OrderedSet.insert_of_append h
    have hsize : ¬data.classes.size + 1 ≥ kIndividualInlineCacheSize := by
      have hlen := congrArg length h
      rw [length_append, length_cons, OrderedMap.length_keys, OrderedMap.length_keys] at hlen
      omega
    have hadd : data.addClass t = { data with classes := OrderedSet.insert data.classes t } := by
      rw [addClass, hmissing, hmega, if_neg hnew, if_neg hsize]
      rfl
    rw [foldl_cons, hadd]
    exact ih hmissing hmega hkeys

namespace DexFileData

theorem length_writeDexPcData {pc : Nat} {data : DexPcData} (h : data.WF numTypeIds extra) :
    (writeDexPcData (pc, data)).length = 3 + data.classes.size * 2 := by
  have hmarked : data.isMissingTypes = true ∨ data.isMegamorphic = true → data.classes.size = 0 := fun hm => by
    rw [h.marked hm]
    rfl
  rw [writeDexPcData, length_append, length_writeUint]
  split_ifs with hmissing hmega
  · rw [hmarked (.inl hmissing), length_writeUint]
  · rw [hmarked (.inr hmega), length_writeUint]
  · rw [length_append, length_writeUint, length_writeClassSet, OrderedMap.length_keys]
    dsimp only
    omega

/-- A written inline cache is read back. -/
theorem readDexPcData_writeDexPcData {cache : InlineCacheMap} {pc : Nat} {data : DexPcData} (hpc : pc < 2 ^ 16)
    (h : data.WF numTypeIds extra) (hnew : cache.find? pc = none) (tail : Bytes) :
    readDexPcData numTypeIds (range extra) cache (writeDexPcData (pc, data) ++ tail) =
    .ok (cache.set pc data, tail) := by
  have hsize : data.classes.size < 256 ^ 1 := h.few.trans (by decide)
  rw [writeDexPcData, append_assoc, readDexPcData, readUint_writeUint hpc]
  simp only [Lib.ok_bind, hnew, Option.getD_none]
  split_ifs with hmissing hmega
  · have hdata : DexPcData.empty.setIsMissingTypes = data := by
      cases data
      simp only [DexPcData.setIsMissingTypes, DexPcData.mk.injEq]
      exact ⟨hmissing.symm, (h.exclusive hmissing).symm, (h.marked (.inl hmissing)).symm⟩
    rw [readUint_writeUint (by decide)]
    simp only [Lib.ok_bind, hdata, if_pos]
  · have hdata : DexPcData.empty.setIsMegamorphic = data := by
      cases data
      exact DexPcData.mk.injEq .. ▸ ⟨(Bool.not_eq_true _ ▸ hmissing).symm, hmega.symm, (h.marked (.inr hmega)).symm⟩
    rw [readUint_writeUint (by decide)]
    simp only [Lib.ok_bind, hdata]
    rfl
  · have hdata : data.classes.keys.foldl DexPcData.addClass DexPcData.empty = data := by
      rw [DexPcData.foldl_addClass rfl rfl h.few data.classes.keys rfl]
      cases data
      simp only [DexPcData.empty, DexPcData.mk.injEq, and_true]
      exact ⟨(Bool.not_eq_true _ ▸ hmissing).symm, (Bool.not_eq_true _ ▸ hmega).symm⟩
    have hfew := h.few
    have h6 : data.classes.size ≠ kIsMissingTypesEncoding := ne_of_lt (hfew.trans (by decide))
    have h7 : data.classes.size ≠ kIsMegamorphicEncoding := ne_of_lt (hfew.trans (by decide))
    rw [append_assoc, readUint_writeUint hsize]
    simp only [Lib.ok_bind, if_neg h6, if_neg h7, if_neg (not_le.mpr hfew), readTypeIndexes_classSet _ h.types, hdata]
    rfl

theorem readInlineCache_write {caches : InlineCacheMap} (hc : CachesWF numTypeIds extra caches) (tail : Bytes)
    (rest : List (Nat × DexPcData)) {cache : InlineCacheMap} (h : cache.entries ++ rest = caches.entries) :
    readInlineCache numTypeIds (range extra) rest.length cache (rest.flatMap writeDexPcData ++ tail) =
      .ok (caches, tail) := by
  induction rest generalizing cache with
  | nil =>
    obtain rfl : cache = caches := OrderedMap.ext ((append_nil _).symm.trans h)
    rfl
  | cons entry rest ih =>
    obtain ⟨pc, data⟩ := entry
    have hmem : (pc, data) ∈ caches.entries := h ▸ mem_append_right _ mem_cons_self
    obtain ⟨hpc, hdata⟩ := hc pc data (OrderedMap.mem_entries.mp hmem)
    obtain ⟨hset, hnew⟩ := OrderedMap.set_of_append h
    rw [flatMap_cons, append_assoc, length_cons, readInlineCache, readDexPcData_writeDexPcData hpc hdata hnew]
    exact ih hset

/-! ### Hot methods -/

variable {data : DexFileData} {atEnd last m : Nat} {first : Bool}

/-- A hot method is read from the difference to the last one. -/
theorem readHotMethods_cons (data : DexFileData) (remap : List Nat) (n fuel : Nat) (hdiff : last ≤ m)
    (hfirst : m = last → first = true) (hm : m < data.numMethodIds)
    (hm' : m ≤ kMaxSupportedMethodIndex) (tail : Bytes) (hend : atEnd < tail.length + 4) :
    readHotMethods remap atEnd (fuel + 1) first last data (writeUint 2 (m - last) ++ writeUint 2 n ++ tail) = (do
      let (inlineCache, buffer) ← readInlineCache data.numTypeIds remap (n % 256 ^ 2)
        ((data.methodMap.find? m).getD .empty) tail
      readHotMethods remap atEnd fuel false m { data with methodMap := data.methodMap.set m inlineCache } buffer) := by
  have hmore : ¬(writeUint 2 (m - last) ++ writeUint 2 n ++ tail).length ≤ atEnd := by
    simp only [length_append, length_writeUint]
    omega
  have hlt : m - last < 256 ^ 2 := by
    unfold kMaxSupportedMethodIndex at hm'
    omega
  have hdup : ¬(m - last = 0 ∧ (!first) = true) := by
    rintro ⟨hzero, hnot⟩
    rw [hfirst (by omega)] at hnot
    cases hnot
  have hvalid : ¬m - last ≥ min (kMaxSupportedMethodIndex + 1) data.numMethodIds - last := by omega
  have hnext : last + (m - last) = m := by omega
  rw [readHotMethods, if_neg hmore, append_assoc, readUint_writeUint hlt]
  simp only [Lib.ok_bind, if_neg hdup, if_neg hvalid, hnext, readUint_writeUint_mod]

theorem readHotMethods_duplicate (data : DexFileData) (remap : List Nat) (last fuel : Nat) {tail : Bytes}
    (hend : atEnd < tail.length + 2) :
    readHotMethods remap atEnd (fuel + 1) false last data (writeUint 2 0 ++ tail) =
    badData "Duplicate method index." := by
  have hmore : ¬(writeUint 2 0 ++ tail).length ≤ atEnd := by
    rw [length_append, length_writeUint]
    omega
  rw [readHotMethods, if_neg hmore, readUint_writeUint (by decide)]
  rfl

theorem CachesWF.key_lt {caches : InlineCacheMap} (h : CachesWF numTypeIds extra caches) :
    ∀ pc ∈ caches.keys, pc < 2 ^ 16 := by
  intro pc hpc
  obtain ⟨d, hd⟩ := Option.isSome_iff_exists.mp (OrderedMap.mem_keys.mp hpc)
  exact (h pc d hd).1

/-- The hot methods behind those that have been read. A method with an entry for every dex pc cannot be read:
    the number of its entries is written as 0, and then the first entry is taken for the next method. -/
theorem readHotMethods_write (hdata : data.WF extra) (tail : Bytes) : ∀ (rest : List (Nat × InlineCacheMap))
    (methodMap : OrderedMap Nat InlineCacheMap) (first : Bool) (last fuel : Nat),
    methodMap.entries ++ rest = data.methodMap.entries → (∀ e ∈ rest, last ≤ e.1 ∧ (e.1 = last → first = true)) →
    (writeHotMethods last rest).length ≤ fuel →
    Yields (readHotMethods (range extra) tail.length fuel first last { data with methodMap }
      (writeHotMethods last rest ++ tail)) (data, tail) (∀ e ∈ rest, e.2.size < 2 ^ 16)
  | [], methodMap, first, last, fuel, hmap, _, _ => by
    obtain rfl : methodMap = data.methodMap := OrderedMap.ext ((append_nil _).symm.trans hmap)
    refine .of_ok (fun _ h => (nomatch h)) ?_
    unfold readHotMethods
    exact if_pos (Nat.le_refl _)
  | (m, caches) :: rest, methodMap, first, last, fuel, hmap, hlast, hfuel => by
    have hmem : (m, caches) ∈ data.methodMap.entries := hmap ▸ mem_append_right _ mem_cons_self
    obtain ⟨hm, hm', hcaches⟩ := hdata.methods m caches (OrderedMap.mem_entries.mp hmem)
    obtain ⟨hset, hnew⟩ := OrderedMap.set_of_append hmap
    have hasc : ∀ e ∈ rest, m < e.1 := by
      have hasc := data.methodMap.ascending
      rw [← hmap] at hasc
      exact (pairwise_cons.mp (pairwise_append.mp hasc).2.1).1
    rw [forall_mem_cons] at hlast
    rw [writeHotMethods, length_append, length_append, length_append, length_writeUint, length_writeUint] at hfuel
    obtain ⟨fuel, rfl⟩ : ∃ f, fuel = f + 1 := ⟨fuel - 1, by omega⟩
    rw [writeHotMethods, append_assoc, append_assoc, readHotMethods_cons { data with methodMap } (range extra)
      caches.size fuel hlast.1.1 hlast.1.2 hm hm' _ (by simp only [length_append]; omega)]
    have hgetD : (methodMap.find? m).getD .empty = OrderedMap.empty := by rw [hnew, Option.getD_none]
    by_cases hsize : caches.size < 2 ^ 16
    · have hempty : (OrderedMap.empty : InlineCacheMap).entries ++ caches.entries = caches.entries := rfl
      have hread := readInlineCache_write hcaches (writeHotMethods m rest ++ tail) caches.entries hempty
      have hmod : caches.size % 256 ^ 2 = caches.entries.length := Nat.mod_eq_of_lt hsize
      rw [hgetD, hmod, hread]
      refine (readHotMethods_write hdata tail rest (methodMap.set m caches) false m fuel hset
        (fun e he => ⟨(hasc e he).le, fun heq => absurd heq (hasc e he).ne'⟩) (by omega)).congr ?_
      rw [forall_mem_cons]
      exact (and_iff_right hsize).symm
    · obtain ⟨hfull, d, more, hentries⟩ := OrderedMap.entries_of_full (by decide) (CachesWF.key_lt hcaches)
        (not_lt.mp hsize)
      have hmod : caches.size % 256 ^ 2 = 0 := by simp [hfull]
      obtain ⟨fuel, rfl⟩ : ∃ f, fuel = f + 1 := ⟨fuel - 1, by omega⟩
      refine .of_error (fun hall => hsize (hall _ mem_cons_self)) ⟨.status .badData "Duplicate method index.", ?_⟩
      rw [hmod, hentries, readInlineCache, Lib.ok_bind, flatMap_cons, append_assoc, writeDexPcData, append_assoc]
      exact readHotMethods_duplicate _ _ _ _ (by simp only [length_append]; omega)

/-! ### Method flags -/

theorem testBit_getUsedBitmapFlags (data : DexFileData) (j : Nat) :
    data.getUsedBitmapFlags.testBit j = true ↔ j ∈ bitmapFlags data.isForBootImage ∧ data.flagBits j ≠ 0 := by
  have h := testBit_foldl_or (fun f => decide (data.flagBits f ≠ 0)) id (bitmapFlags data.isForBootImage) 0 j
  simp only [decide_eq_true_eq, id, Nat.zero_testBit, Bool.false_or] at h
  rw [getUsedBitmapFlags, h, any_eq_true]
  constructor
  · rintro ⟨f, hf, hc⟩
    rw [Bool.and_eq_true, decide_eq_true_eq, beq_iff_eq] at hc
    exact hc.2 ▸ ⟨hf, hc.1⟩
  · rintro ⟨hj, hbits⟩
    exact ⟨j, hj, by simp [hbits]⟩

theorem zero_notMem_bitmapFlags (boot : Bool) : 0 ∉ bitmapFlags boot :=
  fun h => absurd (mem_bitmapFlags.mp h).1 (by decide)

theorem testBit_methodFlags (data : DexFileData) {j : Nat} (hj : j ≠ 0) :
    data.methodFlags.testBit j = data.getUsedBitmapFlags.testBit j := by
  unfold methodFlags
  split_ifs
  · rfl
  · rw [Nat.testBit_or, show (1 : Nat) = 2 ^ 0 from rfl, Nat.testBit_two_pow, decide_eq_false (Ne.symm hj),
      Bool.or_false]

theorem testBit_methodFlags_zero (data : DexFileData) :
    data.methodFlags.testBit 0 = !data.methodMap.entries.isEmpty := by
  have hused : data.getUsedBitmapFlags.testBit 0 = false := by
    rw [← Bool.not_eq_true, testBit_getUsedBitmapFlags]
    exact fun h => zero_notMem_bitmapFlags _ h.1
  unfold methodFlags
  split_ifs with hempty
  · rw [hused, hempty]
    rfl
  · rw [Nat.testBit_or, hused, Bool.eq_false_iff.mpr hempty]
    rfl

theorem methodFlags_sub_mod (data : DexFileData) :
    data.methodFlags - data.methodFlags % 2 = data.getUsedBitmapFlags := by
  refine Nat.eq_of_testBit_eq fun j => ?_
  have hdiv : data.methodFlags - data.methodFlags % 2 = 2 * (data.methodFlags / 2) := by omega
  rw [hdiv]
  rcases j with _ | j
  · have hused : data.getUsedBitmapFlags.testBit 0 = false := by
      rw [← Bool.not_eq_true, testBit_getUsedBitmapFlags]
      exact fun h => zero_notMem_bitmapFlags _ h.1
    rw [hused, Nat.testBit_zero]
    simp
  · rw [Nat.testBit_succ, Nat.mul_div_cancel_left _ (by decide), ← Nat.testBit_succ, testBit_methodFlags _ (by omega)]

theorem methodFlags_lt (data : DexFileData) : data.methodFlags < 2 ^ (lastFlag data.isForBootImage + 1) := by
  refine Nat.lt_pow_two_of_testBit _ fun j hj => ?_
  rw [testBit_methodFlags _ (by omega), ← Bool.not_eq_true, testBit_getUsedBitmapFlags, mem_bitmapFlags]
  omega

theorem lastFlag_le (boot : Bool) : lastFlag boot ≤ 15 := by cases boot <;> decide

/-- The used flags are counted by their bits. -/
theorem popcount_getUsedBitmapFlags (data : DexFileData) :
    popcount data.getUsedBitmapFlags = (bitmapFlags data.isForBootImage).countP data.methodFlags.testBit := by
  have hsplit : ∀ boot, range 16 = 0 :: (bitmapFlags boot ++ range' (lastFlag boot + 1) (15 - lastFlag boot)) := by
    decide
  have hzero : ¬data.getUsedBitmapFlags.testBit 0 = true := by
    rw [testBit_getUsedBitmapFlags]
    exact fun h => zero_notMem_bitmapFlags _ h.1
  have hlast : (range' (lastFlag data.isForBootImage + 1) (15 - lastFlag data.isForBootImage)).countP
      data.getUsedBitmapFlags.testBit = 0 := by
    refine countP_eq_zero.mpr fun j hj => ?_
    rw [testBit_getUsedBitmapFlags, mem_bitmapFlags]
    rw [mem_range'_1] at hj
    omega
  rw [popcount, hsplit data.isForBootImage, countP_cons_of_neg hzero, countP_append, hlast, Nat.add_zero]
  refine countP_congr fun j hj => ?_
  rw [testBit_methodFlags _ (ne_of_mem_of_not_mem hj (zero_notMem_bitmapFlags _))]

/-! ### The bitmap -/

theorem flagBits_lt (data : DexFileData) (flag : Nat) : data.flagBits flag < 2 ^ data.numMethodIds :=
  Nat.mod_lt _ (Nat.two_pow_pos _)

theorem saveBitmap_lt (data : DexFileData) (flags : Nat) (l : List Nat) :
    data.saveBitmap flags l < 2 ^ (l.countP flags.testBit * data.numMethodIds) := by
  induction l with
  | nil => exact Nat.two_pow_pos _
  | cons flag l ih =>
    rw [saveBitmap]
    by_cases hflag : flags.testBit flag
    · rw [if_pos hflag, countP_cons_of_pos hflag, Nat.succ_mul]
      refine Nat.or_lt_two_pow ((data.flagBits_lt flag).trans_le (Nat.pow_le_pow_right (by decide) (by omega))) ?_
      rw [Nat.shiftLeft_eq, pow_add]
      exact Nat.mul_lt_mul_of_pos_right ih (Nat.two_pow_pos _)
    · rw [if_neg hflag, countP_cons_of_neg hflag]
      exact ih

theorem or_shiftLeft_parts {a b n : Nat} (ha : a < 2 ^ n) :
    (a ||| b <<< n) % 2 ^ n = a ∧ (a ||| b <<< n) >>> n = b := by
  have hsum : a ||| b <<< n = b * 2 ^ n + a := by
    rw [Nat.or_comm, ← Nat.shiftLeft_add_eq_or_of_lt ha, Nat.shiftLeft_eq]
  rw [hsum, Nat.shiftRight_eq_div_pow]
  constructor
  · rw [Nat.mul_add_mod', Nat.mod_eq_of_lt ha]
  · rw [Nat.add_comm, Nat.add_mul_div_right _ _ (Nat.two_pow_pos n), Nat.div_eq_of_lt ha, Nat.zero_add]

theorem loadBitmap_saveBitmap (data : DexFileData) (flags : Nat) (l : List Nat)
    (h : ∀ f ∈ l, flags.testBit f = false → data.flagBits f = 0) (bitmap : Nat) :
    loadBitmap data.numMethodIds flags l (data.saveBitmap flags l) bitmap =
      l.foldl (fun bitmap f => bitmap ||| data.flagBits f <<< (flagBitmapIndex f * data.numMethodIds)) bitmap := by
  induction l generalizing bitmap with
  | nil => rfl
  | cons flag l ih =>
    rw [forall_mem_cons] at h
    rw [loadBitmap, saveBitmap, foldl_cons]
    by_cases hflag : flags.testBit flag
    · obtain ⟨hmod, hshift⟩ := or_shiftLeft_parts (data.flagBits_lt flag) (b := data.saveBitmap flags l)
      rw [if_pos hflag, if_pos hflag, hmod, hshift, ih h.2]
    · rw [if_neg hflag, if_neg hflag, ih h.2, h.1 (Bool.eq_false_iff.mpr hflag), Nat.zero_shiftLeft, Nat.or_zero]

/-- The bits of the flags make up the bitmap. -/
theorem foldl_flagBits (data : DexFileData) (k : Nat) :
    (range' 1 k).foldl (fun bitmap f => bitmap ||| data.flagBits f <<< (flagBitmapIndex f * data.numMethodIds)) 0 =
      data.methodBitmap % 2 ^ (k * data.numMethodIds) := by
  induction k with
  | zero => simp [Nat.mod_one]
  | succ k ih =>
    rw [range'_concat, foldl_append, ih, foldl_cons, foldl_nil, Nat.one_mul, flagBitmapIndex,
      Nat.add_sub_cancel_left, flagBits, flagBitmapIndex, Nat.add_sub_cancel_left]
    refine Nat.eq_of_testBit_eq fun j => ?_
    rw [Nat.testBit_or, Nat.testBit_shiftLeft, Nat.testBit_mod_two_pow, Nat.testBit_mod_two_pow, Nat.testBit_shiftRight,
      Nat.testBit_mod_two_pow, Nat.succ_mul]
    rcases Nat.lt_or_ge j (k * data.numMethodIds) with hlt | hge
    · simp [hlt, Nat.not_le.mpr hlt, Nat.lt_add_right _ hlt]
    · have hlt : j - k * data.numMethodIds < data.numMethodIds ↔ j < k * data.numMethodIds + data.numMethodIds := by
        omega
      simp [hge, Nat.not_lt.mpr hge, hlt]

/-! ### The data of a dex file -/

theorem WF.size_classSet_lt (h : data.WF extra) : data.classSet.size < 256 ^ 2 :=
  (OrderedMap.size_le fun t ht => (h.classes t ht).2).trans_lt (by decide)

theorem readClasses_write (h : data.WF extra) (start : DexFileData) (hnum : start.numTypeIds = data.numTypeIds)
    (hstart : start.classSet = .empty) (tail : Bytes) :
    start.readClasses (range extra)
      (writeUint 2 data.classSet.size ++ writeClassSet 0 data.classSet.keys ++ tail) =
      .ok ({ start with classSet := data.classSet }, tail) := by
  have hinsert : data.classSet.keys.foldl OrderedSet.insert start.classSet = data.classSet :=
    OrderedSet.foldl_insert _ (by rw [hstart]; rfl)
  rw [readClasses, append_assoc, readUint_writeUint h.size_classSet_lt, hnum]
  simp only [Lib.ok_bind, readTypeIndexes_classSet _ h.classes, hinsert]
  rfl

/-- The size of the hot methods, from the numbers of their caches and classes. -/
theorem length_writeHotMethods (entries : List (Nat × InlineCacheMap)) (last : Nat)
    (h : ∀ e ∈ entries, CachesWF numTypeIds extra e.2) :
    (writeHotMethods last entries).length = entries.length * (2 + 2) + (entries.map fun e => e.2.size).sum * (2 + 1) +
      (entries.map fun e => (e.2.entries.map fun e => e.2.classes.size).sum).sum * 2 := by
  induction entries generalizing last with
  | nil => rfl
  | cons e entries ih =>
    rw [forall_mem_cons] at h
    have hcaches : (e.2.entries.flatMap writeDexPcData).length =
        e.2.size * (2 + 1) + (e.2.entries.map fun e => e.2.classes.size).sum * 2 := by
      have hmem : ∀ x ∈ e.2.entries, (writeDexPcData x).length = 3 + x.2.classes.size * 2 := fun x hx =>
        length_writeDexPcData (h.1 x.1 x.2 (OrderedMap.mem_entries.mp hx)).2
      rw [OrderedMap.size]
      generalize e.2.entries = l at hmem
      induction l with
      | nil => rfl
      | cons x l ih =>
        rw [forall_mem_cons] at hmem
        rw [flatMap_cons, length_append, hmem.1, ih hmem.2, map_cons, sum_cons, length_cons]
        omega
    rw [writeHotMethods, length_append, length_append, length_append, length_writeUint, length_writeUint, hcaches,
      ih e.1 h.2, map_cons, sum_cons, map_cons, sum_cons, length_cons]
    omega

/-- The number of bytes for the methods, if there are any. -/
def methodsDataLength (data : DexFileData) : Nat :=
  2 + 4 + 2 + bitsToBytesRoundUp (popcount data.getUsedBitmapFlags * data.numMethodIds) +
    data.methodMap.size * (2 + 2) + data.numDexPcEntries * (2 + 1) + data.numClassEntries * 2

theorem WF.length_hotMethods (h : data.WF extra) : (writeHotMethods 0 data.methodMap.entries).length =
    data.methodMap.size * (2 + 2) + data.numDexPcEntries * (2 + 1) + data.numClassEntries * 2 :=
  length_writeHotMethods _ 0 fun e he => (h.methods e.1 e.2 (OrderedMap.mem_entries.mp he)).2.2

theorem WF.length_writeMethods (h : data.WF extra) (hsize : data.methodsDataSize ≠ 0) :
    data.writeMethods.length = data.methodsDataLength := by
  rw [writeMethods, if_neg hsize, methodsDataLength]
  simp only [length_append, length_writeUint, h.length_hotMethods]
  omega

theorem bitsToBytesRoundUp_mod_le (n : Nat) : bitsToBytesRoundUp (n % 2 ^ 32) ≤ bitsToBytesRoundUp n := by
  have := Nat.mod_le n (2 ^ 32)
  unfold bitsToBytesRoundUp
  omega

theorem methodsDataSize_le (data : DexFileData) : data.methodsDataSize ≤ data.methodsDataLength := by
  have hle := bitsToBytesRoundUp_mod_le (popcount data.getUsedBitmapFlags * data.numMethodIds)
  unfold methodsDataSize methodsDataLength savedBitmapBitSize
  split_ifs
  · exact Nat.zero_le _
  · exact (Nat.mod_le _ _).trans (by omega)

theorem bitsToBytesRoundUp_of_size_eq (h : data.methodsDataSize = data.methodsDataLength) :
    bitsToBytesRoundUp (popcount data.getUsedBitmapFlags * data.numMethodIds % 2 ^ 32) =
      bitsToBytesRoundUp (popcount data.getUsedBitmapFlags * data.numMethodIds) ∧ data.methodsDataLength < 2 ^ 32 := by
  have hle := bitsToBytesRoundUp_mod_le (popcount data.getUsedBitmapFlags * data.numMethodIds)
  unfold methodsDataSize methodsDataLength savedBitmapBitSize at h
  unfold methodsDataLength
  split_ifs at h
  · omega
  · generalize bitsToBytesRoundUp (popcount data.getUsedBitmapFlags * data.numMethodIds % 2 ^ 32) = a at hle h ⊢
    generalize bitsToBytesRoundUp (popcount data.getUsedBitmapFlags * data.numMethodIds) = b at hle h ⊢
    omega

/-- A written bitmap is read back. -/
theorem WF.loadBitmap_bytes (h : data.WF extra) :
    loadBitmap data.numMethodIds data.methodFlags (bitmapFlags data.isForBootImage)
      (ofBytes (writeUint (bitsToBytesRoundUp (popcount data.getUsedBitmapFlags * data.numMethodIds))
        (data.saveBitmap data.methodFlags (bitmapFlags data.isForBootImage)))) 0 = data.methodBitmap := by
  have hlt : data.saveBitmap data.methodFlags (bitmapFlags data.isForBootImage) <
      256 ^ bitsToBytesRoundUp (popcount data.getUsedBitmapFlags * data.numMethodIds) := by
    refine (saveBitmap_lt _ _ _).trans_le ?_
    rw [← popcount_getUsedBitmapFlags, show (256 : Nat) = 2 ^ 8 from rfl, ← pow_mul]
    refine Nat.pow_le_pow_right (by decide) ?_
    unfold bitsToBytesRoundUp
    omega
  have hunused : ∀ f ∈ bitmapFlags data.isForBootImage, data.methodFlags.testBit f = false → data.flagBits f = 0 := by
    intro f hf hbit
    rw [testBit_methodFlags _ (ne_of_mem_of_not_mem hf (zero_notMem_bitmapFlags _)), ← Bool.not_eq_true,
      testBit_getUsedBitmapFlags] at hbit
    exact not_not.mp fun hne => hbit ⟨hf, hne⟩
  rw [ofBytes_writeUint hlt, loadBitmap_saveBitmap data _ _ hunused, bitmapFlags, foldl_flagBits,
    Nat.mod_eq_of_lt h.bitmap]

/-- The written methods are read back when their size is the one announced. -/
theorem readMethods_write (h : data.WF extra) (hsize : data.methodsDataSize = data.methodsDataLength) (tail : Bytes) :
    Yields (readMethods { data with methodMap := .empty, methodBitmap := 0 } (range extra)
      (writeUint 4 (data.methodsDataSize - 2 - 4) ++ writeUint 2 data.methodFlags ++
        writeUint (bitsToBytesRoundUp (popcount data.getUsedBitmapFlags * data.numMethodIds))
          (data.saveBitmap data.methodFlags (bitmapFlags data.isForBootImage)) ++
        writeHotMethods 0 data.methodMap.entries ++ tail))
      (data, tail) (∀ e ∈ data.methodMap.entries, e.2.size < 2 ^ 16) := by
  obtain ⟨hbits, hlt⟩ := bitsToBytesRoundUp_of_size_eq hsize
  have hlen := h.length_hotMethods
  have hfollow : data.methodsDataSize - 2 - 4 < 256 ^ 4 := by omega
  have htotal : data.methodsDataSize - 2 - 4 =
    2 + (bitsToBytesRoundUp (popcount data.getUsedBitmapFlags * data.numMethodIds) +
      (writeHotMethods 0 data.methodMap.entries).length) := by
    rw [hsize, hlen, methodsDataLength]
    omega
  have hflags : data.methodFlags < 256 ^ 2 := data.methodFlags_lt.trans_le
    (Nat.pow_le_pow_right (by decide) (Nat.succ_le_succ (lastFlag_le _)))
  have hregular : ¬((!data.isForBootImage) = true ∧ data.methodFlags ≥ 2 ^ (2 + 1)) := by
    rintro ⟨hboot, hge⟩
    have := data.methodFlags_lt
    rw [Bool.not_eq_true'] at hboot
    rw [hboot] at this
    exact absurd hge (not_le.mpr this)
  rw [append_assoc, append_assoc, append_assoc, readMethods]
  refine .after (readUint_writeUint hfollow _ _) ?_
  dsimp only
  rw [if_neg (by simp only [length_append, length_writeUint]; omega)]
  refine .after (readUint_writeUint hflags _ _) ?_
  rw [if_neg hregular, methodFlags_sub_mod, hbits, if_neg (by omega), take_writeUint, drop_writeUint,
    h.loadBitmap_bytes]
  have hend : (writeUint 2 data.methodFlags ++ (writeUint (bitsToBytesRoundUp (popcount data.getUsedBitmapFlags *
      data.numMethodIds)) (data.saveBitmap data.methodFlags (bitmapFlags data.isForBootImage)) ++
      (writeHotMethods 0 data.methodMap.entries ++ tail))).length - (data.methodsDataSize - 2 - 4) = tail.length := by
    simp only [length_append, length_writeUint]
    omega
  rw [hend, testBit_methodFlags_zero]
  have hread : Yields (if (!data.methodMap.entries.isEmpty) = true then
      readHotMethods (range extra) tail.length (writeHotMethods 0 data.methodMap.entries ++ tail).length true 0
        { data with methodMap := .empty } (writeHotMethods 0 data.methodMap.entries ++ tail)
      else .ok ({ data with methodMap := .empty }, writeHotMethods 0 data.methodMap.entries ++ tail)) (data, tail)
      (∀ e ∈ data.methodMap.entries, e.2.size < 2 ^ 16) := by
    split_ifs with hempty
    · exact readHotMethods_write h tail _ .empty true 0 _ rfl (fun e _ => ⟨Nat.zero_le _, fun _ => rfl⟩) (by simp)
    have hnil : data.methodMap.entries = [] := by simpa using hempty
    have hmap : (OrderedMap.empty : OrderedMap Nat InlineCacheMap) = data.methodMap := OrderedMap.ext hnil.symm
    rw [hnil, hmap]
    exact .of_ok (fun _ he => (nomatch he)) rfl
  exact hread.then_ok (if_neg (not_not.mpr rfl))

end DexFileData

end Art.Profile
