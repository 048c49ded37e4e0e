import Art.Libprofile.ProfileCompilationInfo
import Mathlib.Data.List.Nodup
import Mathlib.Data.List.Range

/-! What holds for every profile that is built by recording methods and classes and by merging. -/

namespace Art.Profile
open List

open Lib (OrderedMap OrderedSet)
open Option (bind_eq_some_iff map_eq_some_iff)

variable {numTypeIds extra extra' index : Nat} {remap : List Nat}

/-! ### Type indexes -/

/-- A type of the dex file, or one of the first `extra` extra descriptors, with a valid index. -/
def TypeIndexFits (numTypeIds extra index : Nat) : Prop := index < numTypeIds + extra ∧ index < kDexNoIndex16

theorem TypeIndexFits.mono (h : TypeIndexFits numTypeIds extra index) (hle : extra ≤ extra') :
    TypeIndexFits numTypeIds extra' index := ⟨h.1.trans_le (by omega), h.2⟩

theorem maxArtificialIds_eq (h : numTypeIds ≤ kDexNoIndex16) :
    maxArtificialIds numTypeIds = kDexNoIndex16 - numTypeIds := by
  unfold maxArtificialIds kDexNoIndex16 at *
  omega

theorem artificial_fits (hn : numTypeIds ≤ kDexNoIndex16) (h : index < maxArtificialIds numTypeIds)
    (hx : index < extra) :
    typeIndex (numTypeIds + index) = numTypeIds + index ∧ TypeIndexFits numTypeIds extra (numTypeIds + index) := by
  rw [maxArtificialIds_eq hn] at h
  unfold typeIndex TypeIndexFits kDexNoIndex16 at *
  omega

/-- A remapped index stands for the same type. -/
theorem remapTypeIndex_cases {index' : Nat} (hfits : TypeIndexFits numTypeIds extra index)
    (hremap : ∀ i ∈ remap, i < extra') (hlen : remap.length = extra)
    (h : remapTypeIndex numTypeIds remap index = some index') : (index < numTypeIds ∧ index' = index ∨
      numTypeIds ≤ index ∧ ∃ new, remap[index - numTypeIds]? = some new ∧ index' = numTypeIds + new) ∧
    TypeIndexFits numTypeIds extra' index' := by
  rw [remapTypeIndex] at h
  dsimp only at h
  split_ifs at h with hlt hmax
  · cases h
    exact ⟨.inl ⟨hlt, rfl⟩, by omega, hfits.2⟩
  have hidx : index - numTypeIds < remap.length := by
    have := hfits.1
    omega
  have hn : numTypeIds ≤ kDexNoIndex16 := (not_lt.mp hlt).trans hfits.2.le
  have hget : remap.getD (index - numTypeIds) 0 = remap[index - numTypeIds] := getD_eq_getElem _ _ hidx
  rw [hget] at h hmax
  obtain ⟨heq, hfit⟩ := artificial_fits hn (not_le.mp hmax) (hremap _ (getElem_mem hidx))
  cases h
  rw [heq]
  exact ⟨.inr ⟨not_lt.mp hlt, _, getElem?_eq_getElem hidx, rfl⟩, hfit⟩

/-! ### Inline caches -/

variable (hremap : ∀ i ∈ remap, i < extra')

variable (hlen : remap.length = extra)

namespace DexPcData

/-- The class indexes of a cache are valid and few, and none is kept with a mark. -/
structure WF (numTypeIds extra : Nat) (data : DexPcData) : Prop where
  types : ∀ t ∈ data.classes.keys, TypeIndexFits numTypeIds extra t
  few : data.classes.size < kIndividualInlineCacheSize
  marked : data.isMissingTypes = true ∨ data.isMegamorphic = true → data.classes = .empty
  exclusive : data.isMissingTypes = true → data.isMegamorphic = false

variable {data other : DexPcData}

theorem WF.mono (h : data.WF numTypeIds extra) (hle : extra ≤ extra') : data.WF numTypeIds extra' :=
  { h with types := fun t ht => (h.types t ht).mono hle }

theorem size_empty_lt : (OrderedMap.empty : OrderedSet Nat).size < kIndividualInlineCacheSize := by decide

theorem empty_wf : empty.WF numTypeIds extra :=
  ⟨fun _ ht => (nomatch ht), size_empty_lt, fun _ => rfl, fun h => nomatch h⟩

theorem WF.setIsMissingTypes (data : DexPcData) : data.setIsMissingTypes.WF numTypeIds extra :=
  ⟨fun _ ht => (nomatch ht), size_empty_lt, fun _ => rfl, fun _ => rfl⟩

theorem WF.setIsMegamorphic (h : data.WF numTypeIds extra) : data.setIsMegamorphic.WF numTypeIds extra := by
  unfold DexPcData.setIsMegamorphic
  split_ifs with hm
  · exact h
  · exact ⟨fun _ ht => (nomatch ht), size_empty_lt, fun _ => rfl, fun h => absurd h hm⟩

/-- Adding a class keeps an inline cache well formed. -/
theorem WF.addClass (h : data.WF numTypeIds extra) (hfits : TypeIndexFits numTypeIds extra index) :
    (data.addClass index).WF numTypeIds extra := by
  unfold DexPcData.addClass
  split_ifs with hmark hmem hsize
  · exact h
  · exact h
  · refine ⟨fun _ ht => (nomatch ht), size_empty_lt, fun _ => rfl, fun hm => ?_⟩
    simp [show data.isMissingTypes = true from hm] at hmark
  · simp only [Bool.or_eq_true, not_or, Bool.not_eq_true] at hmark
    refine ⟨fun t ht => ?_, ?_, fun hm => ?_, fun hm => ?_⟩
    · rcases OrderedSet.mem_insert.mp ht with rfl | ht
      · exact hfits
      · exact h.types t ht
    · exact (OrderedSet.size_insert_le _ _).trans_lt (not_le.mp hsize)
    · simp [hmark.1, hmark.2] at hm
    · exact hmark.1

include hlen hremap

theorem WF.addClasses {classes : List Nat} (hfits : ∀ t ∈ classes, TypeIndexFits numTypeIds extra t)
    {result : DexPcData} (h : data.WF numTypeIds extra')
    (hfold : classes.foldlM (fun data index => (remapTypeIndex numTypeIds remap index).map data.addClass) data =
      some result) : result.WF numTypeIds extra' := by
  induction classes generalizing data with
  | nil =>
    cases hfold
    exact h
  | cons t classes ih =>
    rw [forall_mem_cons] at hfits
    rw [foldlM_cons] at hfold
    obtain ⟨data', hdata', hfold⟩ := bind_eq_some_iff.mp hfold
    obtain ⟨t', ht', rfl⟩ := map_eq_some_iff.mp hdata'
    exact ih hfits.2 (h.addClass (remapTypeIndex_cases hfits.1 hremap hlen ht').2) hfold

/-- A merged inline cache is well formed. -/
theorem WF.merge (h : data.WF numTypeIds extra') (ho : other.WF numTypeIds extra) {result : DexPcData}
    (hmerge : data.merge numTypeIds remap other = some result) : result.WF numTypeIds extra' := by
  unfold DexPcData.merge at hmerge
  split_ifs at hmerge
  · cases hmerge
    exact .setIsMissingTypes data
  · cases hmerge
    exact h.setIsMegamorphic
  · exact h.addClasses hremap hlen ho.types hmerge

end DexPcData

def CachesWF (numTypeIds extra : Nat) (caches : InlineCacheMap) : Prop :=
  ∀ pc data, caches.find? pc = some data → pc < 2 ^ 16 ∧ data.WF numTypeIds extra

namespace CachesWF

variable {caches other : InlineCacheMap}

theorem empty : CachesWF numTypeIds extra OrderedMap.empty := fun _ _ h => nomatch h

variable (h : CachesWF numTypeIds extra caches)

include h

theorem mono (hle : extra ≤ extra') : CachesWF numTypeIds extra' caches :=
  fun pc data hd => ⟨(h pc data hd).1, (h pc data hd).2.mono hle⟩

theorem getD (pc : Nat) : ((caches.find? pc).getD .empty).WF numTypeIds extra := by
  rcases hd : caches.find? pc with _ | data
  · exact DexPcData.empty_wf
  · exact (h pc data hd).2

theorem set {pc : Nat} (hpc : pc < 2 ^ 16) {data : DexPcData} (hdata : data.WF numTypeIds extra) :
    CachesWF numTypeIds extra (caches.set pc data) := by
  intro pc' data' hd
  rw [OrderedMap.find?_set] at hd
  split_ifs at hd with hk
  · cases hd
    exact ⟨hk ▸ hpc, hdata⟩
  · exact h pc' data' hd

omit h

include hlen hremap in
theorem merge (h : CachesWF numTypeIds extra' caches) (ho : CachesWF numTypeIds extra other) {result : InlineCacheMap}
    (hmerge : mergeInlineCaches numTypeIds remap caches other = some result) : CachesWF numTypeIds extra' result := by
  intro pc data hd
  obtain ⟨hnone, hsome⟩ := OrderedMap.find?_mergeM hmerge pc
  rcases hother : other.find? pc with _ | o
  · exact h pc data (hnone hother ▸ hd)
  obtain ⟨w, hw, hr⟩ := hsome o hother
  rw [hr] at hd
  cases hd
  exact ⟨(ho pc o hother).1, (h.getD pc).merge hremap hlen (ho pc o hother).2 hw⟩

end CachesWF

/-! ### Dex files -/

/-- The numbers of the header fit their fields of the file. -/
structure HeaderFits (checksum numTypeIds numMethodIds : Nat) : Prop where
  checksum_lt : checksum < 2 ^ 32
  numTypeIds_lt : numTypeIds < 2 ^ 32
  numMethodIds_lt : numMethodIds < 2 ^ 32

theorem DexFile.header (dexFile : DexFile) :
    HeaderFits dexFile.locationChecksum dexFile.numTypeIds dexFile.numMethodIds :=
  ⟨dexFile.locationChecksum_lt, dexFile.length_typeDescriptors_le.trans_lt (by decide), dexFile.numMethodIds_lt⟩

namespace DexFileData

/-- The indexes in the data of a dex file are in their ranges. -/
structure WF (extra : Nat) (data : DexFileData) : Prop where
  header : HeaderFits data.checksum data.numTypeIds data.numMethodIds
  classes : ∀ t ∈ data.classSet.keys, TypeIndexFits data.numTypeIds extra t
  methods : ∀ m caches, data.methodMap.find? m = some caches →
    m < data.numMethodIds ∧ m ≤ kMaxSupportedMethodIndex ∧ CachesWF data.numTypeIds extra caches
  bitmap : data.methodBitmap < 2 ^ (lastFlag data.isForBootImage * data.numMethodIds)

/-- What no update of the data of a dex file changes. -/
structure SameFile (data data' : DexFileData) : Prop where
  profileKey : data'.profileKey = data.profileKey
  profileIndex : data'.profileIndex = data.profileIndex
  checksum : data'.checksum = data.checksum
  numTypeIds : data'.numTypeIds = data.numTypeIds
  numMethodIds : data'.numMethodIds = data.numMethodIds
  isForBootImage : data'.isForBootImage = data.isForBootImage

variable {data other result : DexFileData}

theorem WF.mono (h : data.WF extra) (hle : extra ≤ extra') : data.WF extra' where
  header := h.header
  classes t ht := (h.classes t ht).mono hle
  methods m caches hm := ⟨(h.methods m caches hm).1, (h.methods m caches hm).2.1, (h.methods m caches hm).2.2.mono hle⟩
  bitmap := h.bitmap

theorem WF.insertClass (h : data.WF extra) (hfits : TypeIndexFits data.numTypeIds extra index) :
    WF extra { data with classSet := OrderedSet.insert data.classSet index } where
  header := h.header
  classes t ht := by
    rcases OrderedSet.mem_insert.mp ht with rfl | ht
    · exact hfits
    · exact h.classes t ht
  methods := h.methods
  bitmap := h.bitmap

theorem WF.getCaches (h : data.WF extra) (m : Nat) :
    CachesWF data.numTypeIds extra ((data.methodMap.find? m).getD .empty) := by
  rcases hm : data.methodMap.find? m with _ | caches
  · exact .empty
  · exact (h.methods m caches hm).2.2

theorem WF.setCaches (h : data.WF extra) {m : Nat} (hm : m < data.numMethodIds) (hm' : m ≤ kMaxSupportedMethodIndex)
    {caches : InlineCacheMap} (hc : CachesWF data.numTypeIds extra caches) :
    WF extra { data with methodMap := data.methodMap.set m caches } where
  header := h.header
  classes := h.classes
  methods m' caches' hf := by
    rw [show OrderedMap.find? _ m' = _ from OrderedMap.find?_set data.methodMap m m' caches] at hf
    split_ifs at hf with hk
    · cases hf
      exact ⟨hk ▸ hm, hk ▸ hm', hc⟩
    · exact h.methods m' caches' hf
  bitmap := h.bitmap

theorem mem_bitmapFlags {boot : Bool} {flag : Nat} : flag ∈ bitmapFlags boot ↔ 1 ≤ flag ∧ flag ≤ lastFlag boot := by
  rw [bitmapFlags, mem_range'_1]
  omega

theorem methodFlagBitmapIndex_lt {flag m : Nat} (hflag : flag ∈ bitmapFlags data.isForBootImage)
    (hm : m < data.numMethodIds) :
    data.methodFlagBitmapIndex flag m < lastFlag data.isForBootImage * data.numMethodIds := by
  obtain ⟨h1, h2⟩ := mem_bitmapFlags.mp hflag
  have hle : (flag - 1 + 1) * data.numMethodIds ≤ lastFlag data.isForBootImage * data.numMethodIds :=
    Nat.mul_le_mul_right _ (by omega)
  rw [Nat.succ_mul] at hle
  unfold methodFlagBitmapIndex flagBitmapIndex
  omega

/-- Setting flags keeps the data well formed. -/
theorem WF.setMethodHotness (h : data.WF extra) {m : Nat} (hm : m < data.numMethodIds) (flags : Nat) :
    (data.setMethodHotness m flags).WF extra where
  header := h.header
  classes := h.classes
  methods := h.methods
  bitmap := by
    have hfold : ∀ (l : List Nat) (bitmap : Nat), (∀ f ∈ l, f ∈ bitmapFlags data.isForBootImage) →
        bitmap < 2 ^ (lastFlag data.isForBootImage * data.numMethodIds) →
        l.foldl (fun bitmap flag =>
          if flags.testBit flag then bitmap ||| 2 ^ data.methodFlagBitmapIndex flag m else bitmap)
          bitmap < 2 ^ (lastFlag data.isForBootImage * data.numMethodIds) := by
      intro l
      induction l with
      | nil => exact fun _ _ hb => hb
      | cons f l ih =>
        intro bitmap hl hb
        rw [forall_mem_cons] at hl
        refine ih _ hl.2 ?_
        dsimp only
        split_ifs
        · exact Nat.or_lt_two_pow hb (Nat.pow_lt_pow_right (by omega) (methodFlagBitmapIndex_lt hl.1 hm))
        · exact hb
    exact hfold _ _ (fun _ hf => hf) h.bitmap

/-- An added method has an index in range, and the data stay well formed. -/
theorem addMethod_spec (h : data.WF extra) {flags m : Nat} (hadd : data.addMethod flags m = some result) :
    SameFile data result ∧ result.WF extra ∧ m < data.numMethodIds ∧ m ≤ kMaxSupportedMethodIndex := by
  unfold addMethod at hadd
  split_ifs at hadd with hm hhot
  · push Not at hm
    obtain ⟨caches, hcaches, hadd⟩ := bind_eq_some_iff.mp hadd
    cases hadd
    have hwf := h.setMethodHotness hm.1 flags
    have hmod : m % 2 ^ 16 = m := Nat.mod_eq_of_lt (by have := hm.2; unfold kMaxSupportedMethodIndex at this; omega)
    rw [hmod] at hcaches ⊢
    unfold findOrAddHotMethod at hcaches
    split_ifs at hcaches
    cases hcaches
    exact ⟨⟨rfl, rfl, rfl, rfl, rfl, rfl⟩, hwf.setCaches hm.1 hm.2 (hwf.getCaches m), hm⟩
  · push Not at hm
    cases hadd
    exact ⟨⟨rfl, rfl, rfl, rfl, rfl, rfl⟩, h.setMethodHotness hm.1 flags, hm⟩

/-- The merged class set has the classes of both, remapped. -/
theorem mergeClassSet_spec {classSet other result : OrderedSet Nat}
    (h : mergeClassSet numTypeIds remap classSet other = some result) :
    (∀ t, t ∈ result.keys ↔ t ∈ classSet.keys ∨ ∃ u ∈ other.keys, remapTypeIndex numTypeIds remap u = some t) ∧
      ∀ u ∈ other.keys, ∃ t, remapTypeIndex numTypeIds remap u = some t := by
  unfold mergeClassSet at h
  generalize other.keys = classes at h ⊢
  induction classes generalizing classSet with
  | nil =>
    cases h
    simp
  | cons u classes ih =>
    rw [foldlM_cons] at h
    obtain ⟨next, hnext, h⟩ := bind_eq_some_iff.mp h
    obtain ⟨u', hu', rfl⟩ := map_eq_some_iff.mp hnext
    rw [forall_mem_cons]
    refine ⟨fun t => ?_, ⟨u', hu'⟩, (ih h).2⟩
    rw [(ih h).1, OrderedSet.mem_insert, exists_mem_cons_iff, hu', Option.some.injEq]
    tauto

theorem merge_eq_some {mergeClasses : Bool} (h : data.merge remap mergeClasses other = some result) :
    SameFile data result ∧ result.methodBitmap = data.methodBitmap ||| other.methodBitmap ∧
    (mergeClasses = false → result.classSet = data.classSet) ∧
    (mergeClasses = true → mergeClassSet data.numTypeIds remap data.classSet other.classSet = some result.classSet) ∧
    OrderedMap.mergeM (fun m caches otherCaches => if m ≥ data.numMethodIds then none
      else mergeInlineCaches data.numTypeIds remap (caches.getD .empty) otherCaches) data.methodMap other.methodMap =
      some result.methodMap := by
  obtain ⟨classSet, hclasses, h⟩ := bind_eq_some_iff.mp h
  obtain ⟨methodMap, hmethods, h⟩ := bind_eq_some_iff.mp h
  cases h
  refine ⟨⟨rfl, rfl, rfl, rfl, rfl, rfl⟩, rfl, fun hm => ?_, fun hm => ?_, hmethods⟩
  · rw [hm] at hclasses
    cases hclasses
    rfl
  · rwa [hm, if_pos rfl] at hclasses

include hlen hremap in
/-- The merged data of a dex file are well formed. -/
theorem WF.merge {mergeClasses : Bool} (h : data.WF extra') (ho : other.WF extra)
    (htypes : other.numTypeIds = data.numTypeIds) (hmethods : other.numMethodIds = data.numMethodIds)
    (hboot : other.isForBootImage = data.isForBootImage) (hmerge : data.merge remap mergeClasses other = some result) :
    result.WF extra' := by
  obtain ⟨hsame, hbitmap, hkeep, hclasses, hmap⟩ := merge_eq_some hmerge
  refine ⟨?_, ?_, fun m caches hm => ?_, ?_⟩
  · rw [hsame.checksum, hsame.numTypeIds, hsame.numMethodIds]
    exact h.header
  · rw [hsame.numTypeIds]
    cases mergeClasses with
    | false => exact hkeep rfl ▸ h.classes
    | true =>
      intro t ht
      rcases ((mergeClassSet_spec (hclasses rfl)).1 t).mp ht with ht | ⟨u, hu, hut⟩
      · exact h.classes t ht
      · exact (remapTypeIndex_cases (htypes ▸ ho.classes u hu) hremap hlen hut).2
  · rw [hsame.numTypeIds, hsame.numMethodIds]
    obtain ⟨hnone, hsome⟩ := OrderedMap.find?_mergeM hmap m
    rcases hother : other.methodMap.find? m with _ | o
    · exact h.methods m caches (hnone hother ▸ hm)
    obtain ⟨w, hw, hr⟩ := hsome o hother
    obtain ⟨hlt, hle, hwf⟩ := ho.methods m o hother
    split_ifs at hw
    rw [hr] at hm
    cases hm
    exact ⟨hmethods ▸ hlt, hle, (h.getCaches m).merge hremap hlen (htypes ▸ hwf) hw⟩
  · rw [hbitmap, hsame.isForBootImage, hsame.numMethodIds]
    exact Nat.or_lt_two_pow h.bitmap (hboot ▸ hmethods ▸ ho.bitmap)

end DexFileData

/-! ### Profiles -/

namespace ProfileCompilationInfo

open DexFileData (SameFile)

/-- The data of a profile are well formed and stand at their profile indexes. -/
structure WF (profile : ProfileCompilationInfo) : Prop where
  keys : (profile.info.map (·.profileKey)).Nodup
  size : profile.info.length ≤ maxProfileIndex
  data : ∀ (i : Nat) (data : DexFileData), profile.info[i]? = some data → data.profileIndex = i ∧
    data.isForBootImage = profile.isForBootImage ∧
    data.WF profile.extraDescriptors.length
  descriptors : profile.extraDescriptors.Nodup
  descriptors_le : profile.extraDescriptors.length ≤ kMaxExtraDescriptors
  descriptor_le : ∀ d ∈ profile.extraDescriptors, d.length ≤ kMaxExtraDescriptorLength

variable {profile profile' : ProfileCompilationInfo} {i : Nat}

theorem empty_wf (isForBootImage : Bool) : (empty isForBootImage).WF :=
  ⟨nodup_nil, Nat.zero_le _, fun _ _ h => (nomatch h), nodup_nil, Nat.zero_le _, fun _ h => nomatch h⟩

/-- A change of the extra descriptors only, which keeps all indexes. -/
structure AddsDescriptors (profile profile' : ProfileCompilationInfo) : Prop where
  isForBootImage : profile'.isForBootImage = profile.isForBootImage
  info : profile'.info = profile.info
  descriptors : ∃ new, profile'.extraDescriptors = profile.extraDescriptors ++ new

namespace AddsDescriptors

theorem refl (profile : ProfileCompilationInfo) : AddsDescriptors profile profile := ⟨rfl, rfl, [], (append_nil _).symm⟩

theorem trans {profile'' : ProfileCompilationInfo} (h : AddsDescriptors profile profile')
    (h' : AddsDescriptors profile' profile'') : AddsDescriptors profile profile'' := by
  obtain ⟨new, hnew⟩ := h.descriptors
  obtain ⟨new', hnew'⟩ := h'.descriptors
  exact ⟨h'.1.trans h.1, h'.2.trans h.2, new ++ new', by rw [hnew', hnew, append_assoc]⟩

theorem length_le (h : AddsDescriptors profile profile') :
    profile.extraDescriptors.length ≤ profile'.extraDescriptors.length := by
  obtain ⟨new, hnew⟩ := h.descriptors
  rw [hnew, length_append]
  omega

end AddsDescriptors

/-- Changing the data of a dex file keeps the profile well formed. -/
theorem WF.modifyData (h : profile.WF) {f : DexFileData → DexFileData}
    (hf : ∀ data, profile.info[i]? = some data → SameFile data (f data) ∧ (f data).WF profile.extraDescriptors.length) :
    (profile.modifyData i f).WF := by
  have hkeys : (profile.info.modify i f).map (·.profileKey) = profile.info.map (·.profileKey) := by
    refine ext_getElem? fun j => ?_
    rw [getElem?_map, getElem?_map, getElem?_modify]
    rcases hj : profile.info[j]? with _ | data
    · rfl
    by_cases hij : i = j
    · subst hij
      simp [(hf data hj).1.profileKey]
    · simp [hij]
  refine ⟨hkeys ▸ h.keys, ?_, fun j data hj => ?_, h.descriptors, h.descriptors_le, h.descriptor_le⟩
  · rw [ProfileCompilationInfo.modifyData, length_modify]
    exact h.size
  · rw [ProfileCompilationInfo.modifyData, getElem?_modify] at hj
    obtain ⟨data₀, hj₀, rfl⟩ := map_eq_some_iff.mp hj
    obtain ⟨hidx, hboot, hwf⟩ := h.data j data₀ hj₀
    by_cases hij : i = j
    · subst hij
      obtain ⟨hsame, hwf'⟩ := hf data₀ hj₀
      rw [if_pos rfl]
      exact ⟨hsame.profileIndex.trans hidx, hsame.isForBootImage.trans hboot, hwf'⟩
    · rw [if_neg hij]
      exact ⟨hidx, hboot, hwf⟩

variable {descriptor : Str}

/-- A new extra descriptor goes to the end. -/
theorem addExtraDescriptor_spec (h : profile.WF) (hle : descriptor.length ≤ kMaxExtraDescriptorLength)
    (hnew : profile.findExtraDescriptor descriptor = none)
    (hadd : profile.addExtraDescriptor descriptor = some (profile', i)) :
    profile'.WF ∧ AddsDescriptors profile profile' ∧ i = profile.extraDescriptors.length ∧
      profile'.extraDescriptors[i]? = some descriptor := by
  unfold addExtraDescriptor at hadd
  split_ifs at hadd with hlen
  cases hadd
  have hnot : descriptor ∉ profile.extraDescriptors := by
    intro hm
    rw [findExtraDescriptor, findIdx?_eq_none_iff] at hnew
    simpa using hnew descriptor hm
  refine ⟨⟨h.keys, h.size, fun j data hj => ?_, ?_, ?_, ?_⟩, ⟨rfl, rfl, [descriptor], rfl⟩, rfl, by simp⟩
  · obtain ⟨hidx, hboot, hwf⟩ := h.data j data hj
    exact ⟨hidx, hboot, hwf.mono (by simp)⟩
  · exact concat_eq_append ▸ h.descriptors.concat hnot
  · have := h.descriptors_le
    simp only [length_append, length_singleton]
    omega
  · rw [forall_mem_append, forall_mem_singleton]
    exact ⟨h.descriptor_le, hle⟩

/-- An extra descriptor is found at its index. -/
theorem findExtraDescriptor_spec (h : profile.findExtraDescriptor descriptor = some i) :
    profile.extraDescriptors[i]? = some descriptor := by
  obtain ⟨hlt, heq, -⟩ := findIdx?_eq_some_iff_getElem.mp h
  rw [getElem?_eq_getElem hlt, beq_iff_eq.mp heq]

variable {dexFile : DexFile}

/-- The index given to a descriptor is valid for the profile with it. -/
theorem findOrCreateTypeIndexOf_spec (h : profile.WF)
    (heq : profile.findOrCreateTypeIndexOf dexFile descriptor = (profile', i)) :
    profile'.WF ∧ AddsDescriptors profile profile' ∧
      (TypeIndexIsValid i → TypeIndexFits dexFile.numTypeIds profile'.extraDescriptors.length i) := by
  have hn : dexFile.numTypeIds ≤ kDexNoIndex16 := dexFile.length_typeDescriptors_le
  have hinvalid : profile.WF ∧ AddsDescriptors profile profile ∧
      (TypeIndexIsValid kDexNoIndex16 →
        TypeIndexFits dexFile.numTypeIds profile.extraDescriptors.length kDexNoIndex16) :=
    ⟨h, .refl profile, fun hv => absurd rfl hv⟩
  unfold findOrCreateTypeIndexOf at heq
  split at heq
  · next typeId hfind =>
    cases heq
    have hlt : typeId < dexFile.numTypeIds := (findIdx?_eq_some_iff_getElem.mp hfind).1
    refine ⟨h, .refl profile, fun _ => ?_⟩
    unfold typeIndex TypeIndexFits kDexNoIndex16 at *
    omega
  split at heq
  · cases heq
    exact hinvalid
  next hlong =>
    split at heq
    · next index hfind =>
      cases heq
      refine ⟨h, .refl profile, fun hv => ?_⟩
      split_ifs at hv ⊢ with hmax
      · obtain ⟨hlt, -⟩ := List.getElem?_eq_some_iff.mp (findExtraDescriptor_spec hfind)
        obtain ⟨htype, hfits⟩ := artificial_fits hn hmax hlt
        rwa [htype]
      · exact absurd rfl hv
    · next hfind =>
      split_ifs at heq with hmax
      · cases heq
        exact hinvalid
      split at heq
      · next hnone =>
        -- There is room for another descriptor whenever there is an artificial type index.
        exfalso
        unfold addExtraDescriptor at hnone
        split_ifs at hnone with hfull
        rw [maxArtificialIds_eq hn] at hmax
        unfold kMaxExtraDescriptors at hfull
        omega
      · next hadd =>
        cases heq
        obtain ⟨hwf, hadds, rfl, hget⟩ := addExtraDescriptor_spec h (not_lt.mp hlong) hfind hadd
        refine ⟨hwf, hadds, fun _ => ?_⟩
        obtain ⟨hlt, -⟩ := List.getElem?_eq_some_iff.mp hget
        obtain ⟨htype, hfits⟩ := artificial_fits hn (not_le.mp hmax) hlt
        rwa [htype]

/-- The references of an inline cache are to types of the dex file, or to other types by their descriptors. -/
def ClassRefFits (dexFile : DexFile) : ClassRef → Prop
  | .own index => index < dexFile.numTypeIds
  | .foreign _ => True

/-- The index given to a class is valid for the profile with it. -/
theorem findOrCreateTypeIndex_spec (h : profile.WF) {classRef : ClassRef}
    (hfits : ClassRefFits dexFile classRef) (heq : profile.findOrCreateTypeIndex dexFile classRef = (profile', i)) :
    profile'.WF ∧ AddsDescriptors profile profile' ∧
      (TypeIndexIsValid i → TypeIndexFits dexFile.numTypeIds profile'.extraDescriptors.length i) := by
  cases classRef with
  | own index =>
    cases heq
    have hn : dexFile.numTypeIds ≤ kDexNoIndex16 := dexFile.length_typeDescriptors_le
    exact ⟨h, .refl profile, fun _ => ⟨Nat.lt_add_right _ hfits, hfits.trans_le hn⟩⟩
  | foreign descriptor => exact findOrCreateTypeIndexOf_spec h heq

/-- Adding classes to a cache keeps the profile and the cache well formed. -/
theorem addCacheClasses_spec : ∀ (classes : List ClassRef) {profile profile' : ProfileCompilationInfo}
    {data data' : Option DexPcData}, profile.WF → (∀ r ∈ classes, ClassRefFits dexFile r) →
    (∀ d ∈ data, d.WF dexFile.numTypeIds profile.extraDescriptors.length) →
    addCacheClasses dexFile profile data classes = (profile', data') →
    profile'.WF ∧ AddsDescriptors profile profile' ∧
      ∀ d ∈ data', d.WF dexFile.numTypeIds profile'.extraDescriptors.length
  | [], _, _, _, _, h, _, hdata, heq => by
    cases heq
    exact ⟨h, .refl _, hdata⟩
  | classRef :: rest, profile, profile', data, data', h, hfits, hdata, heq => by
    rw [forall_mem_cons] at hfits
    have hwf : (data.getD .empty).WF dexFile.numTypeIds profile.extraDescriptors.length := by
      cases data with
      | none => exact DexPcData.empty_wf
      | some d => exact hdata d rfl
    rw [addCacheClasses] at heq
    split at heq
    · cases heq
      refine ⟨h, .refl _, fun d hd => ?_⟩
      cases hd
      exact hwf
    rcases hfind : profile.findOrCreateTypeIndex dexFile classRef with ⟨next, index⟩
    rw [hfind] at heq
    obtain ⟨hnext, hadds, hindex⟩ := findOrCreateTypeIndex_spec h hfits.1 hfind
    have hwf' := hwf.mono hadds.length_le
    obtain ⟨hp', hadds', hd'⟩ := addCacheClasses_spec rest hnext hfits.2 (fun d hd => by
      cases hd
      split_ifs with hv
      · exact hwf'.addClass (hindex hv)
      · exact .setIsMissingTypes _) heq
    exact ⟨hp', hadds.trans hadds', hd'⟩

/-- Adding an inline cache keeps the profile and the caches well formed. -/
theorem addInlineCache_spec {caches caches' : InlineCacheMap} {cache : ProfileInlineCache}
    (h : profile.WF) (hfits : ∀ r ∈ cache.classes, ClassRefFits dexFile r)
    (hcaches : CachesWF dexFile.numTypeIds profile.extraDescriptors.length caches)
    (heq : addInlineCache dexFile (profile, caches) cache = (profile', caches')) :
    profile'.WF ∧ AddsDescriptors profile profile' ∧
      CachesWF dexFile.numTypeIds profile'.extraDescriptors.length caches' := by
  have hpc : cache.dexPc % 2 ^ 16 < 2 ^ 16 := Nat.mod_lt _ (by decide)
  have hdata := hcaches.getD (cache.dexPc % 2 ^ 16)
  unfold addInlineCache at heq
  dsimp only at heq
  split_ifs at heq
  · cases heq
    exact ⟨h, .refl _, hcaches.set hpc (.setIsMissingTypes _)⟩
  · cases heq
    exact ⟨h, .refl _, hcaches.set hpc hdata.setIsMegamorphic⟩
  · rcases hadd : addCacheClasses dexFile profile (caches.find? (cache.dexPc % 2 ^ 16)) cache.classes with ⟨next, data⟩
    obtain ⟨hnext, hadds, hwf⟩ := addCacheClasses_spec cache.classes h hfits (fun d hd => (hcaches _ d hd).2) hadd
    rw [hadd] at heq
    cases data with
    | none =>
      cases heq
      exact ⟨hnext, hadds, hcaches.mono hadds.length_le⟩
    | some data =>
      cases heq
      exact ⟨hnext, hadds, (hcaches.mono hadds.length_le).set hpc (hwf data rfl)⟩

/-- Adding inline caches keeps the profile and the caches well formed. -/
theorem addInlineCaches_spec : ∀ (inlineCaches : List ProfileInlineCache)
    {profile profile' : ProfileCompilationInfo} {caches caches' : InlineCacheMap}, profile.WF →
    (∀ cache ∈ inlineCaches, ∀ r ∈ cache.classes, ClassRefFits dexFile r) →
    CachesWF dexFile.numTypeIds profile.extraDescriptors.length caches →
    inlineCaches.foldl (addInlineCache dexFile) (profile, caches) = (profile', caches') →
    profile'.WF ∧ AddsDescriptors profile profile' ∧
      CachesWF dexFile.numTypeIds profile'.extraDescriptors.length caches'
  | [], _, _, _, _, h, _, hcaches, heq => by
    cases heq
    exact ⟨h, .refl _, hcaches⟩
  | cache :: rest, profile, profile', caches, caches', h, hfits, hcaches, heq => by
    rw [forall_mem_cons] at hfits
    rw [foldl_cons] at heq
    rcases hadd : addInlineCache dexFile (profile, caches) cache with ⟨next, caches₁⟩
    rw [hadd] at heq
    obtain ⟨hnext, hadds, hwf⟩ := addInlineCache_spec h hfits.1 hcaches hadd
    obtain ⟨hp', hadds', hwf'⟩ := addInlineCaches_spec rest hnext hfits.2 hwf heq
    exact ⟨hp', hadds.trans hadds', hwf'⟩

/-! ### Recording -/

/-- The data of a dex file is there, with these values. -/
structure HasFile (profile : ProfileCompilationInfo) (i : Nat) (profileKey : Str)
    (checksum numTypeIds numMethodIds : Nat)
    (data : DexFileData) : Prop where
  get : profile.info[i]? = some data
  profileKey : data.profileKey = profileKey
  checksum : data.checksum = checksum
  numTypeIds : data.numTypeIds = numTypeIds
  numMethodIds : data.numMethodIds = numMethodIds

variable {checksum numMethodIds : Nat}

theorem create_wf (profileKey : Str) (profileIndex : Nat) (isForBootImage : Bool)
    (hn : HeaderFits checksum numTypeIds numMethodIds) :
    (DexFileData.create profileKey checksum profileIndex numTypeIds numMethodIds isForBootImage).WF extra :=
  ⟨hn, fun _ ht => (nomatch ht), fun _ _ h => (nomatch h), Nat.two_pow_pos _⟩

/-- The data of the dex file are there, or were added at the end. -/
theorem getOrAddDexFileData_cases {profileKey : Str}
    (hadd : profile.getOrAddDexFileData profileKey checksum numTypeIds numMethodIds = some (profile', i)) :
    (∃ data, HasFile profile' i profileKey checksum numTypeIds numMethodIds data) ∧
    (profile' = profile ∨ profileKey ∉ profile.info.map (·.profileKey) ∧ profile.info.length ≠ maxProfileIndex ∧
      profile' = { profile with info := profile.info ++ [DexFileData.create profileKey checksum profile.info.length
        numTypeIds numMethodIds profile.isForBootImage] }) := by
  unfold getOrAddDexFileData at hadd
  split at hadd
  · next hnone =>
    split_ifs at hadd with hlen
    cases hadd
    refine ⟨⟨_, getElem?_concat_length, rfl, rfl, rfl, rfl⟩, .inr ⟨fun hm => ?_, hlen, rfl⟩⟩
    obtain ⟨data, hdata, rfl⟩ := mem_map.mp hm
    have := findIdx?_eq_none_iff.mp hnone data hdata
    simp at this
  · next index hsome =>
    obtain ⟨hlt, hkey, -⟩ := findIdx?_eq_some_iff_getElem.mp hsome
    rw [getElem?_eq_getElem hlt] at hadd
    dsimp only at hadd
    split_ifs at hadd with hchecksum hnum
    cases hadd
    push Not at hchecksum hnum
    exact ⟨⟨_, getElem?_eq_getElem hlt, beq_iff_eq.mp hkey, hchecksum, hnum.1.symm, hnum.2.symm⟩, .inl rfl⟩

/-- Adding a dex file keeps the profile well formed. -/
theorem getOrAddDexFileData_wf (h : profile.WF) {profileKey : Str}
    (hn : HeaderFits checksum numTypeIds numMethodIds)
    (hadd : profile.getOrAddDexFileData profileKey checksum numTypeIds numMethodIds = some (profile', i)) :
    profile'.WF := by
  rcases (getOrAddDexFileData_cases hadd).2 with rfl | ⟨hkey, hlen, rfl⟩
  · exact h
  refine ⟨?_, ?_, fun j data hj => ?_, h.descriptors, h.descriptors_le, h.descriptor_le⟩
  · rw [map_append, map_singleton]
    exact concat_eq_append ▸ h.keys.concat hkey
  · have := h.size
    simp only [length_append, length_singleton]
    omega
  · rcases Nat.lt_or_ge j profile.info.length with hlt | hge
    · exact h.data j data (by rwa [getElem?_append_left hlt] at hj)
    · rw [getElem?_append_right hge, getElem?_singleton] at hj
      split_ifs at hj with hzero
      cases hj
      exact ⟨by simp only [DexFileData.create]; omega, rfl, create_wf _ _ _ hn⟩

theorem getElem?_modifyData_self {data : DexFileData} {f : DexFileData → DexFileData}
    (h : profile.info[i]? = some data) :
    (profile.modifyData i f).info[i]? = some (f data) := by
  rw [ProfileCompilationInfo.modifyData, getElem?_modify, h]
  simp

/-- Adding a method keeps the profile well formed. -/
theorem addMethod_wf (h : profile.WF) {pmi : ProfileMethodInfo} {flags : Nat} {originPackage : Str}
    (hfits : ∀ cache ∈ pmi.inlineCaches, ∀ r ∈ cache.classes, ClassRefFits pmi.dexFile r)
    (hadd : profile.addMethod pmi flags originPackage = some profile') :
    profile'.WF ∧ profile'.isForBootImage = profile.isForBootImage := by
  obtain ⟨⟨p₁, i⟩, h₁, hadd₁⟩ := bind_eq_some_iff.mp hadd
  obtain ⟨data, hdata, hadd₂⟩ := bind_eq_some_iff.mp hadd₁
  obtain ⟨data', hdata', hresult⟩ := bind_eq_some_iff.mp hadd₂
  have hwf₁ : p₁.WF := getOrAddDexFileData_wf h pmi.dexFile.header h₁
  obtain ⟨⟨file, hfile⟩, hcases⟩ := getOrAddDexFileData_cases h₁
  have hboot₁ : p₁.isForBootImage = profile.isForBootImage := by
    rcases hcases with rfl | ⟨-, -, rfl⟩ <;> rfl
  obtain rfl : file = data := Option.some.inj (hfile.get.symm.trans hdata)
  obtain ⟨hsame, hwf', hlt, hle⟩ := DexFileData.addMethod_spec (hwf₁.data i file hdata).2.2 hdata'
  have hwf₂ : (p₁.modifyData i fun _ => data').WF := hwf₁.modifyData fun d hd => by
    cases hdata.symm.trans hd
    exact ⟨hsame, hwf'⟩
  split_ifs at hresult
  · cases hresult
    exact ⟨hwf₂, hboot₁⟩
  obtain ⟨caches, hcaches, hresult⟩ := bind_eq_some_iff.mp hresult
  cases hresult
  have hmod : pmi.index % 2 ^ 16 = pmi.index := Nat.mod_eq_of_lt (by unfold kMaxSupportedMethodIndex at hle; omega)
  unfold DexFileData.findOrAddHotMethod at hcaches
  split_ifs at hcaches with hge
  cases hcaches
  have hnum : data'.numTypeIds = pmi.dexFile.numTypeIds := hsame.numTypeIds.trans hfile.numTypeIds
  rcases hfold : pmi.inlineCaches.foldl (addInlineCache pmi.dexFile) ((p₁.modifyData i fun _ => data'),
    (data'.methodMap.find? (pmi.index % 2 ^ 16)).getD .empty) with ⟨p₃, caches'⟩
  obtain ⟨hwf₃, hadds, hcwf⟩ := addInlineCaches_spec pmi.inlineCaches hwf₂ hfits (hnum ▸ hwf'.getCaches _) hfold
  have hget : p₃.info[i]? = some data' := by
    rw [hadds.info]
    exact getElem?_modifyData_self hdata
  refine ⟨hwf₃.modifyData fun d hd => ?_, hadds.isForBootImage.trans hboot₁⟩
  cases hget.symm.trans hd
  refine ⟨⟨rfl, rfl, rfl, rfl, rfl, rfl⟩, DexFileData.WF.setCaches (hwf₃.data i data' hget).2.2 ?_ ?_ (hnum ▸ hcwf)⟩
  · exact not_le.mp hge
  · rwa [hmod]

theorem addMethods_wf {flags : Nat} {originPackage : Str} : ∀ (methods : List ProfileMethodInfo)
    {profile profile' : ProfileCompilationInfo}, profile.WF →
    (∀ pmi ∈ methods, ∀ cache ∈ pmi.inlineCaches, ∀ r ∈ cache.classes, ClassRefFits pmi.dexFile r) →
    profile.addMethods methods flags originPackage = some profile' →
    profile'.WF ∧ profile'.isForBootImage = profile.isForBootImage
  | [], _, _, h, _, hadd => by
    cases hadd
    exact ⟨h, rfl⟩
  | pmi :: rest, profile, profile', h, hfits, hadd => by
    rw [forall_mem_cons] at hfits
    rw [addMethods, foldlM_cons] at hadd
    obtain ⟨next, hnext, hadd⟩ := bind_eq_some_iff.mp hadd
    obtain ⟨hwf, hboot⟩ := addMethod_wf h hfits.1 hnext
    obtain ⟨hwf', hboot'⟩ := addMethods_wf rest hwf hfits.2 hadd
    exact ⟨hwf', hboot'.trans hboot⟩

/-- Adding a class keeps the profile well formed. -/
theorem addClass_wf (h : profile.WF) {descriptor originPackage : Str}
    (hadd : profile.addClass dexFile descriptor originPackage = some profile') :
    profile'.WF ∧ profile'.isForBootImage = profile.isForBootImage := by
  obtain ⟨⟨p₁, i⟩, h₁, hadd⟩ := bind_eq_some_iff.mp hadd
  dsimp only at hadd
  have hwf₁ : p₁.WF := getOrAddDexFileData_wf h dexFile.header h₁
  obtain ⟨⟨file, hfile⟩, hcases⟩ := getOrAddDexFileData_cases h₁
  have hboot₁ : p₁.isForBootImage = profile.isForBootImage := by
    rcases hcases with rfl | ⟨-, -, rfl⟩ <;> rfl
  rcases hfind : p₁.findOrCreateTypeIndexOf dexFile descriptor with ⟨p₂, index⟩
  obtain ⟨hwf₂, hadds, hindex⟩ := findOrCreateTypeIndexOf_spec hwf₁ hfind
  rw [hfind] at hadd
  split_ifs at hadd with hv
  cases hadd
  refine ⟨hwf₂.modifyData fun d hd => ⟨⟨rfl, rfl, rfl, rfl, rfl, rfl⟩, ?_⟩, hadds.isForBootImage.trans hboot₁⟩
  cases (hadds.info ▸ hfile.get).symm.trans hd
  refine (hwf₂.data i file hd).2.2.insertClass ?_
  rw [hfile.numTypeIds]
  exact hindex hv

/-! ### Merging -/

variable {other : ProfileCompilationInfo} {remap : List Nat}

/-- The first loop of `MergeWith`: every dex file of the other profile has data at its new index. -/
theorem addFiles_spec : ∀ (files : List DexFileData) {profile profile' : ProfileCompilationInfo} {remap : List Nat},
    profile.WF → (∀ o ∈ files, HeaderFits o.checksum o.numTypeIds o.numMethodIds) →
    collectM (fun profile otherData => profile.getOrAddDexFileData otherData.profileKey otherData.checksum
      otherData.numTypeIds otherData.numMethodIds) profile files = some (profile', remap) →
    profile'.WF ∧ profile'.isForBootImage = profile.isForBootImage ∧
    profile'.extraDescriptors = profile.extraDescriptors ∧ (∃ new, profile'.info = profile.info ++ new) ∧
    ∀ (j : Nat) (o : DexFileData), files[j]? = some o →
      ∃ data, HasFile profile' (remap.getD j 0) o.profileKey o.checksum o.numTypeIds o.numMethodIds data
  | [], _, _, _, h, _, hcollect => by
    cases hcollect
    exact ⟨h, rfl, rfl, ⟨[], (append_nil _).symm⟩, fun _ _ hj => nomatch hj⟩
  | file :: rest, profile, profile', remap, h, hn, hcollect => by
    rw [forall_mem_cons] at hn
    rw [collectM] at hcollect
    obtain ⟨⟨next, index⟩, hnext, hcollect⟩ := bind_eq_some_iff.mp hcollect
    obtain ⟨⟨last, indexes⟩, hlast, hcollect⟩ := bind_eq_some_iff.mp hcollect
    cases hcollect
    have hwf := getOrAddDexFileData_wf h hn.1 hnext
    obtain ⟨⟨data, hfile⟩, hcases⟩ := getOrAddDexFileData_cases hnext
    obtain ⟨hwf', hboot, hdesc, ⟨new, hinfo⟩, hall⟩ := addFiles_spec rest hwf hn.2 hlast
    have hstep : next.isForBootImage = profile.isForBootImage ∧ next.extraDescriptors = profile.extraDescriptors ∧
        ∃ new, next.info = profile.info ++ new := by
      rcases hcases with rfl | ⟨-, -, rfl⟩
      · exact ⟨rfl, rfl, [], (append_nil _).symm⟩
      · exact ⟨rfl, rfl, _, rfl⟩
    obtain ⟨hboot₁, hdesc₁, new₁, hinfo₁⟩ := hstep
    refine ⟨hwf', hboot.trans hboot₁, hdesc.trans hdesc₁, ⟨new₁ ++ new, by rw [hinfo, hinfo₁, append_assoc]⟩,
      fun j o hj => ?_⟩
    rcases j with _ | j
    · cases hj
      refine ⟨data, ?_, hfile.profileKey, hfile.checksum, hfile.numTypeIds, hfile.numMethodIds⟩
      obtain ⟨hlt, -⟩ := List.getElem?_eq_some_iff.mp hfile.get
      rw [getD_cons_zero, hinfo, getElem?_append_left hlt]
      exact hfile.get
    · rw [getD_cons_succ]
      exact hall j o hj

/-- A remapped extra descriptor is at its new index. -/
theorem remapExtraDescriptor_spec (h : profile.WF) (hle : descriptor.length ≤ kMaxExtraDescriptorLength)
    (hremap : profile.remapExtraDescriptor descriptor = some (profile', i)) :
    profile'.WF ∧ AddsDescriptors profile profile' ∧ profile'.extraDescriptors[i]? = some descriptor ∧
      ∀ d ∈ profile'.extraDescriptors, d ∈ profile.extraDescriptors ∨ d = descriptor := by
  unfold remapExtraDescriptor at hremap
  split at hremap
  · next hfind =>
    cases hremap
    exact ⟨h, .refl _, findExtraDescriptor_spec hfind, fun _ hd => .inl hd⟩
  next hfind =>
  obtain ⟨hwf, hadds, -, hget⟩ := addExtraDescriptor_spec h hle hfind hremap
  refine ⟨hwf, hadds, hget, fun d hd => ?_⟩
  unfold addExtraDescriptor at hremap
  split_ifs at hremap
  cases hremap
  simpa using hd

/-- The second loop: every extra descriptor of the other profile has a new index. -/
theorem remapExtraDescriptors_spec : ∀ (descriptors : List Str) {profile profile' : ProfileCompilationInfo}
    {remap : List Nat}, profile.WF → (∀ d ∈ descriptors, d.length ≤ kMaxExtraDescriptorLength) →
    collectM remapExtraDescriptor profile descriptors = some (profile', remap) →
    profile'.WF ∧ AddsDescriptors profile profile' ∧ remap.length = descriptors.length ∧
    (∀ d ∈ descriptors, d ∈ profile'.extraDescriptors) ∧
    (∀ d ∈ profile'.extraDescriptors, d ∈ profile.extraDescriptors ∨ d ∈ descriptors) ∧
    ∀ j new : Nat, remap[j]? = some new → profile'.extraDescriptors[new]? = descriptors[j]?
  | [], _, _, _, h, _, hcollect => by
    cases hcollect
    exact ⟨h, .refl _, rfl, fun _ hd => (nomatch hd), fun _ hd => .inl hd, fun _ _ hj => nomatch hj⟩
  | descriptor :: rest, profile, profile', remap, h, hle, hcollect => by
    rw [forall_mem_cons] at hle
    rw [collectM] at hcollect
    obtain ⟨⟨next, index⟩, hnext, hcollect⟩ := bind_eq_some_iff.mp hcollect
    dsimp only at hcollect
    obtain ⟨⟨last, indexes⟩, hlast, hcollect⟩ := bind_eq_some_iff.mp hcollect
    cases hcollect
    obtain ⟨hwf, hadds, hget, hfrom⟩ := remapExtraDescriptor_spec h hle.1 hnext
    obtain ⟨hwf', hadds', hlen, hmem, hold, hall⟩ := remapExtraDescriptors_spec rest hwf hle.2 hlast
    obtain ⟨new, hnew⟩ := hadds'.descriptors
    have hget' : last.extraDescriptors[index]? = some descriptor := by
      obtain ⟨hlt, -⟩ := List.getElem?_eq_some_iff.mp hget
      rw [hnew, getElem?_append_left hlt, hget]
    refine ⟨hwf', hadds.trans hadds', congrArg (· + 1) hlen, ?_, fun d hd => ?_, fun j new hj => ?_⟩
    · rw [forall_mem_cons]
      exact ⟨mem_of_getElem? hget', hmem⟩
    · rcases hold d hd with hd | hd
      · rcases hfrom d hd with hd | rfl
        · exact .inl hd
        · exact .inr mem_cons_self
      · exact .inr (mem_cons_of_mem _ hd)
    · rcases j with _ | j
      · cases hj
        exact hget'
      · exact hall j new hj

end ProfileCompilationInfo

end Art.Profile
