import Art.Theorems.ProfileLoad
import Art.Lib.CappedSet
import Mathlib.Data.Finset.Dedup
import Mathlib.Data.Finset.Image
import Mathlib.Data.Set.Lattice
import Mathlib.Order.WithBot
import Mathlib.Order.ConditionallyCompleteLattice.Basic

/-! `MergeWith` as a join. What a profile records is a view in which dex files are named by their keys and
    types by their descriptors, so that the numbering of dex files and extra descriptors does not show. -/

namespace Art.Profile
open List

open Lib (OrderedMap OrderedSet CappedSet)
open Option (bind_eq_some_iff elim_none elim_some getD_some)

/-! ### Views -/

/-- A type of a dex file, or another one by its descriptor. -/
inductive TypeRef
  | id (index : Nat)
  | extra (descriptor : Str)
  deriving DecidableEq

/-- An inline cache entry: at most four classes, megamorphic, or with missing types, in this order. -/
abbrev CacheView := CappedSet TypeRef (kIndividualInlineCacheSize - 1)

/-- What a profile says of the dex files with one key. -/
@[ext] structure DexView where
  /-- Checksums with the numbers of types and methods. -/
  files : Set (Nat × Nat × Nat)
  /-- The flags of a method. -/
  flags : Nat → Nat
  classes : Set TypeRef
  /-- The inline caches by method and dex pc. -/
  caches : Nat → Nat → WithBot CacheView

namespace DexView

instance : Max DexView where
  max a b := ⟨a.files ∪ b.files, fun m => a.flags m ||| b.flags m, a.classes ∪ b.classes, a.caches ⊔ b.caches⟩

/-- Nothing is recorded. -/
instance : Bot DexView where
  bot := ⟨∅, fun _ => 0, ∅, fun _ _ => ⊥⟩

/-- Views of a dex file are ordered by inclusion of what they record. -/
instance : SemilatticeSup DexView :=
  SemilatticeSup.mk'
    (fun _ _ => DexView.ext (Set.union_comm _ _) (funext fun _ => Nat.lor_comm _ _) (Set.union_comm _ _) (sup_comm _ _))
    (fun _ _ _ => DexView.ext (Set.union_assoc _ _ _) (funext fun _ => Nat.lor_assoc _ _ _) (Set.union_assoc _ _ _)
      (sup_assoc _ _ _))
    (fun _ => DexView.ext (Set.union_self _) (funext fun _ => Nat.or_self _) (Set.union_self _) (sup_idem _))

theorem sup_def (a b : DexView) : a ⊔ b =
    ⟨a.files ∪ b.files, fun m => a.flags m ||| b.flags m, a.classes ∪ b.classes, a.caches ⊔ b.caches⟩ := rfl

instance : OrderBot DexView where
  bot_le a := by
    refine sup_eq_right.mp ?_
    exact DexView.ext (Set.empty_union _) (funext fun m => Nat.zero_or _) (Set.empty_union _)
      (funext fun m => funext fun pc => bot_sup_eq (a.caches m pc))

end DexView

/-- What is recorded in a profile: by keys of dex files, and the extra descriptors. -/
abbrev View := (Str → DexView) × Set Str

def typeRef (descriptors : List Str) (numTypeIds index : Nat) : TypeRef :=
  if index < numTypeIds then .id index else .extra (descriptors.getD (index - numTypeIds) [])

def DexPcData.view (ref : Nat → TypeRef) (data : DexPcData) : CacheView :=
  if data.isMissingTypes then .unknown
  else if data.isMegamorphic then .many
  else .ofFinset (data.classes.keys.toFinset.image ref)

def cacheView (ref : Nat → TypeRef) (methodMap : OrderedMap Nat InlineCacheMap) (m pc : Nat) : WithBot CacheView :=
  match (methodMap.find? m).bind (·.find? pc) with
  | none => ⊥
  | some data => data.view ref

def DexFileData.view (descriptors : List Str) (data : DexFileData) : DexView where
  files := {(data.checksum, data.numTypeIds, data.numMethodIds)}
  flags m := if m < data.numMethodIds then data.getHotnessInfo m else 0
  classes := {t | ∃ index ∈ data.classSet.keys, t = typeRef descriptors data.numTypeIds index}
  caches := cacheView (typeRef descriptors data.numTypeIds) data.methodMap

namespace ProfileCompilationInfo

def dexView (profile : ProfileCompilationInfo) (key : Str) : DexView :=
  match profile.findDexData key with
  | none => ⊥
  | some data => data.view profile.extraDescriptors

def view (profile : ProfileCompilationInfo) : View := (profile.dexView, {d | d ∈ profile.extraDescriptors})

end ProfileCompilationInfo

/-! ### Types -/

section Types

variable {descriptors descriptors' new : List Str} {numTypeIds extra extra' index index' : Nat} {remap : List Nat}

theorem typeRef_append (h : index < numTypeIds + descriptors.length) :
    typeRef (descriptors ++ new) numTypeIds index = typeRef descriptors numTypeIds index := by
  unfold typeRef
  split_ifs with hlt
  · rfl
  · rw [getD_append _ _ _ _ (by omega)]

theorem typeRef_injOn (hnodup : descriptors.Nodup) (h : index < numTypeIds + descriptors.length)
    (h' : index' < numTypeIds + descriptors.length)
    (heq : typeRef descriptors numTypeIds index = typeRef descriptors numTypeIds index') : index = index' := by
  unfold typeRef at heq
  split_ifs at heq with hlt hlt'
  · exact TypeRef.id.inj heq
  have hi : index - numTypeIds < descriptors.length := by omega
  have hi' : index' - numTypeIds < descriptors.length := by omega
  have hget := TypeRef.extra.inj heq
  rw [getD_eq_getElem _ _ hi, getD_eq_getElem _ _ hi', hnodup.getElem_inj_iff] at hget
  omega

/-- The new indexes of the extra descriptors of another profile. -/
structure Remaps (remap : List Nat) (descriptors descriptors' : List Str) : Prop where
  length : remap.length = descriptors'.length
  get : ∀ j new : Nat, remap[j]? = some new → descriptors[new]? = descriptors'[j]?
  nodup : descriptors.Nodup

theorem Remaps.lt (hremap : Remaps remap descriptors descriptors') : ∀ i ∈ remap, i < descriptors.length := by
  intro i hi
  obtain ⟨j, hj, rfl⟩ := mem_iff_getElem.mp hi
  have hget := hremap.get j _ (getElem?_eq_getElem hj)
  rw [getElem?_eq_getElem (hj.trans_eq hremap.length)] at hget
  exact (List.getElem?_eq_some_iff.mp hget).1

theorem typeRef_remap (hremap : Remaps remap descriptors descriptors')
    (hfits : TypeIndexFits numTypeIds descriptors'.length index)
    (h : remapTypeIndex numTypeIds remap index = some index') :
    typeRef descriptors numTypeIds index' = typeRef descriptors' numTypeIds index ∧
      TypeIndexFits numTypeIds descriptors.length index' := by
  obtain ⟨hcases, hfits'⟩ := remapTypeIndex_cases hfits hremap.lt hremap.length h
  refine ⟨?_, hfits'⟩
  rcases hcases with ⟨hid, rfl⟩ | ⟨hge, new, hnew, rfl⟩
  · rw [typeRef, typeRef, if_pos hid, if_pos hid]
  · rw [typeRef, typeRef, if_neg (by omega), if_neg (by omega), Nat.add_sub_cancel_left, getD_eq_getElem?_getD,
      getD_eq_getElem?_getD, hremap.get _ _ hnew]

end Types

/-! ### Inline caches -/

namespace DexPcData

variable {ref ref' : Nat → TypeRef} {data other : DexPcData} {index : Nat}

theorem view_setIsMissingTypes (data : DexPcData) : data.setIsMissingTypes.view ref = .unknown := rfl

theorem view_setIsMegamorphic (data : DexPcData) : data.setIsMegamorphic.view ref = data.view ref ⊔ .many := by
  unfold DexPcData.setIsMegamorphic DexPcData.view
  by_cases hmissing : data.isMissingTypes = true
  · rw [if_pos hmissing, if_pos hmissing]
    exact (sup_eq_left.mpr (CappedSet.le_unknown _)).symm
  rw [if_neg hmissing, if_neg hmissing]
  simp only [if_neg hmissing, if_true]
  split_ifs
  · exact (sup_idem _).symm
  · exact (sup_eq_right.mpr (CappedSet.ofFinset_le_many _)).symm

theorem card_image_keys {s : OrderedSet Nat} (hinj : Set.InjOn ref {t | t ∈ s.keys}) :
    (s.keys.toFinset.image ref).card = s.size := by
  have hcard : s.keys.toFinset.card = s.keys.length := toFinset_card_of_nodup (s.keys_pairwise.imp ne_of_lt)
  rw [Finset.card_image_of_injOn (by simpa [Set.InjOn] using hinj), hcard, OrderedMap.keys, length_map, OrderedMap.size]

/-- Adding a class joins it to the view of a cache. -/
theorem view_addClass (hinj : Set.InjOn ref {t | t = index ∨ t ∈ data.classes.keys}) :
    (data.addClass index).view ref = data.view ref ⊔ .ofFinset {ref index} := by
  unfold DexPcData.addClass
  split_ifs with hmark hmem hsize
  · -- A marked entry absorbs its classes.
    unfold DexPcData.view
    rw [Bool.or_eq_true] at hmark
    split_ifs with hmissing hmega
    · exact (sup_eq_left.mpr (CappedSet.le_unknown _)).symm
    · exact (CappedSet.many_sup_ofFinset _).symm
    · exact absurd hmark (by simp [hmissing, hmega])
  all_goals
    rw [Bool.or_eq_true, not_or, Bool.not_eq_true, Bool.not_eq_true] at hmark
    simp only [DexPcData.view, hmark.1, hmark.2, Bool.false_eq_true, if_false, if_true, CappedSet.ofFinset_sup_ofFinset]
  · refine congrArg _ (Finset.union_eq_left.mpr ?_).symm
    rw [Finset.singleton_subset_iff]
    exact Finset.mem_image_of_mem ref (mem_toFinset.mpr hmem)
  · -- The set becomes too large, which the entry records as megamorphic.
    have hnot : ref index ∉ data.classes.keys.toFinset.image ref := by
      rw [Finset.mem_image]
      rintro ⟨t, ht, heq⟩
      rw [mem_toFinset] at ht
      exact hmem (hinj (.inr ht) (.inl rfl) heq ▸ ht)
    refine (CappedSet.ofFinset_of_lt ?_).symm
    rw [Finset.union_comm, ← Finset.insert_eq, Finset.card_insert_of_notMem hnot,
      card_image_keys (hinj.mono fun t ht => .inr ht)]
    omega
  · refine congrArg _ (Finset.ext fun r => ?_)
    simp [OrderedSet.mem_insert]
    tauto

variable {descriptors descriptors' : List Str} {numTypeIds : Nat} {remap : List Nat}

/-- Adding the remapped classes of another cache joins its view. -/
theorem view_addClasses (hremap : Remaps remap descriptors descriptors') {classes : List Nat}
    (hfits : ∀ t ∈ classes, TypeIndexFits numTypeIds descriptors'.length t) {result : DexPcData}
    (hdata : data.WF numTypeIds descriptors.length)
    (hfold : classes.foldlM (fun data index => (remapTypeIndex numTypeIds remap index).map data.addClass) data =
      some result) :
    result.view (typeRef descriptors numTypeIds) = data.view (typeRef descriptors numTypeIds) ⊔
      .ofFinset (classes.toFinset.image (typeRef descriptors' numTypeIds)) := by
  induction classes generalizing data with
  | nil =>
    cases hfold
    rw [toFinset_nil, Finset.image_empty]
    exact (sup_eq_left.mpr (CappedSet.ofFinset_empty_le _)).symm
  | cons t classes ih =>
    rw [forall_mem_cons] at hfits
    rw [foldlM_cons] at hfold
    obtain ⟨next, hnext, hfold⟩ := bind_eq_some_iff.mp hfold
    obtain ⟨t', ht', rfl⟩ := Option.map_eq_some_iff.mp hnext
    obtain ⟨href, hfit⟩ := typeRef_remap hremap hfits.1 ht'
    have hinj : Set.InjOn (typeRef descriptors numTypeIds) {u | u = t' ∨ u ∈ data.classes.keys} := by
      have hlt : ∀ u, u = t' ∨ u ∈ data.classes.keys → u < numTypeIds + descriptors.length := by
        rintro u (rfl | hu)
        · exact hfit.1
        · exact (hdata.types u hu).1
      exact fun u hu u' hu' heq => typeRef_injOn hremap.nodup (hlt u hu) (hlt u' hu') heq
    rw [ih hfits.2 (hdata.addClass hfit) hfold, view_addClass hinj, href, sup_assoc, CappedSet.ofFinset_sup_ofFinset,
      toFinset_cons, Finset.image_insert, Finset.insert_eq]

theorem view_merge (hremap : Remaps remap descriptors descriptors') {result : DexPcData}
    (hdata : data.WF numTypeIds descriptors.length) (hother : other.WF numTypeIds descriptors'.length)
    (h : data.merge numTypeIds remap other = some result) :
    result.view (typeRef descriptors numTypeIds) =
      data.view (typeRef descriptors numTypeIds) ⊔ other.view (typeRef descriptors' numTypeIds) := by
  unfold DexPcData.merge at h
  split_ifs at h with hmissing hmega
  · cases h
    rw [view_setIsMissingTypes, DexPcData.view.eq_1 _ other, if_pos hmissing]
    exact (sup_eq_right.mpr (CappedSet.le_unknown _)).symm
  · cases h
    rw [view_setIsMegamorphic, DexPcData.view.eq_1 _ other, if_neg hmissing, if_pos hmega]
  · rw [view_addClasses hremap hother.types hdata h, DexPcData.view.eq_1 _ other, if_neg hmissing, if_neg hmega]

theorem view_empty_le (a : CacheView) : DexPcData.empty.view ref ≤ a := CappedSet.ofFinset_empty_le a

end DexPcData

section Merge

variable {descriptors descriptors' : List Str} {remap : List Nat} {data other result : DexFileData}
  {mergeClasses : Bool}

theorem find?_getD_empty (caches : Option InlineCacheMap) (pc : Nat) :
    (caches.getD .empty).find? pc = caches.bind (·.find? pc) := by cases caches <;> rfl

theorem cacheView_eq (ref : Nat → TypeRef) (methodMap : OrderedMap Nat InlineCacheMap) (m pc : Nat) :
    cacheView ref methodMap m pc =
      (((methodMap.find? m).getD .empty).find? pc).elim ⊥ fun data => (data.view ref : WithBot CacheView) := by
  rw [cacheView, find?_getD_empty]
  cases (methodMap.find? m).bind (·.find? pc) <;> rfl

/-- Merged inline caches have the joins of the views. -/
theorem mergeInlineCaches_view {numTypeIds : Nat} (hremap : Remaps remap descriptors descriptors')
    {caches otherCaches caches' : InlineCacheMap} (hcaches : CachesWF numTypeIds descriptors.length caches)
    (hother : CachesWF numTypeIds descriptors'.length otherCaches)
    (h : mergeInlineCaches numTypeIds remap caches otherCaches = some caches') (pc : Nat) :
    (caches'.find? pc).elim ⊥ (fun data => (data.view (typeRef descriptors numTypeIds) : WithBot CacheView)) =
      (caches.find? pc).elim ⊥ (fun data => (data.view (typeRef descriptors numTypeIds) : WithBot CacheView)) ⊔
      (otherCaches.find? pc).elim ⊥
        (fun data => (data.view (typeRef descriptors' numTypeIds) : WithBot CacheView)) := by
  obtain ⟨hnone, hsome⟩ := OrderedMap.find?_mergeM h pc
  rcases hpc : otherCaches.find? pc with _ | o
  · rw [hnone hpc, elim_none, sup_bot_eq]
  obtain ⟨w, hw, hr⟩ := hsome o hpc
  have hview := DexPcData.view_merge hremap (hcaches.getD pc) (hother pc o hpc).2 hw
  rw [hr, elim_some, elim_some, hview]
  rcases caches.find? pc with _ | d
  · rw [elim_none, bot_sup_eq]
    exact congrArg _ (sup_eq_right.mpr (DexPcData.view_empty_le _))
  · rfl

/-- The caches of merged data are the joins. -/
theorem DexFileData.caches_merge (hremap : Remaps remap descriptors descriptors')
    (hdata : data.WF descriptors.length) (hother : other.WF descriptors'.length)
    (htypes : other.numTypeIds = data.numTypeIds) (h : data.merge remap mergeClasses other = some result) (m pc : Nat) :
    cacheView (typeRef descriptors data.numTypeIds) result.methodMap m pc =
      cacheView (typeRef descriptors data.numTypeIds) data.methodMap m pc ⊔
      cacheView (typeRef descriptors' data.numTypeIds) other.methodMap m pc := by
  obtain ⟨-, -, -, -, hmap⟩ := merge_eq_some h
  obtain ⟨hnone, hsome⟩ := OrderedMap.find?_mergeM hmap m
  rw [cacheView_eq, cacheView_eq, cacheView_eq]
  rcases hm : other.methodMap.find? m with _ | o
  · rw [hnone hm, Option.getD_none, OrderedMap.find?_empty, elim_none, sup_bot_eq]
  obtain ⟨w, hw, hr⟩ := hsome o hm
  split_ifs at hw
  rw [hr, getD_some, getD_some]
  exact mergeInlineCaches_view hremap (hdata.getCaches m)
    (htypes ▸ (hother.methods m o hm).2.2) hw pc

theorem testBit_foldl_or (c : Nat → Bool) (g : Nat → Nat) (l : List Nat) (acc j : Nat) :
    (l.foldl (fun acc f => if c f then acc ||| 2 ^ g f else acc) acc).testBit j =
      (acc.testBit j || l.any fun f => c f && g f == j) := by
  induction l generalizing acc with
  | nil => simp
  | cons f l ih =>
    rw [foldl_cons, ih, any_cons]
    cases hc : c f
    · simp
    · simp [Nat.testBit_or, Nat.testBit_two_pow, Bool.or_assoc, Bool.beq_eq_decide_eq]

theorem DexFileData.testBit_getHotnessInfo (data : DexFileData) (m j : Nat) : (data.getHotnessInfo m).testBit j =
    (((bitmapFlags data.isForBootImage).any fun flag =>
      data.methodBitmap.testBit (data.methodFlagBitmapIndex flag m) && flag == j) ||
      ((data.methodMap.find? m).isSome && decide (j = 0))) := by
  unfold getHotnessInfo
  split_ifs with hhot
  · rw [Nat.testBit_or, testBit_foldl_or, Nat.zero_testBit, Bool.false_or, hhot, Bool.true_and,
      show (1 : Nat) = 2 ^ 0 from rfl, Nat.testBit_two_pow, decide_eq_decide.mpr (eq_comm (a := 0) (b := j))]
  · rw [Bool.not_eq_true] at hhot
    rw [testBit_foldl_or, Nat.zero_testBit, Bool.false_or, hhot, Bool.false_and, Bool.or_false]

/-- The flags of merged data are the disjunctions. -/
theorem DexFileData.getHotnessInfo_merge (hmethods : other.numMethodIds = data.numMethodIds)
    (hboot : other.isForBootImage = data.isForBootImage) (h : data.merge remap mergeClasses other = some result)
    (m : Nat) :
    result.getHotnessInfo m = data.getHotnessInfo m ||| other.getHotnessInfo m := by
  obtain ⟨hsame, hbitmap, -, -, hmap⟩ := merge_eq_some h
  obtain ⟨hnone, hsome⟩ := OrderedMap.find?_mergeM hmap m
  have hhot : (result.methodMap.find? m).isSome =
      ((data.methodMap.find? m).isSome || (other.methodMap.find? m).isSome) := by
    rcases hm : other.methodMap.find? m with _ | o
    · rw [hnone hm]
      simp
    · obtain ⟨w, -, hr⟩ := hsome o hm
      rw [hr]
      simp
  have hindex : ∀ flag, result.methodFlagBitmapIndex flag m = data.methodFlagBitmapIndex flag m ∧
      other.methodFlagBitmapIndex flag m = data.methodFlagBitmapIndex flag m := fun flag => by
    unfold methodFlagBitmapIndex
    rw [hsame.numMethodIds, hmethods]
    exact ⟨rfl, rfl⟩
  refine Nat.eq_of_testBit_eq fun j => ?_
  rw [Nat.testBit_or, testBit_getHotnessInfo, testBit_getHotnessInfo, testBit_getHotnessInfo, hhot, hbitmap,
    hsame.isForBootImage, hboot]
  simp only [hindex, Nat.testBit_or]
  rw [Bool.eq_iff_iff]
  simp only [Bool.or_eq_true, Bool.and_eq_true, any_eq_true, or_and_right, and_or_left, exists_or]
  exact or_or_or_comm

/-- The view of merged data is the join. -/
theorem DexFileData.view_merge (hremap : Remaps remap descriptors descriptors')
    (hdata : data.WF descriptors.length) (hother : other.WF descriptors'.length)
    (hchecksum : other.checksum = data.checksum) (htypes : other.numTypeIds = data.numTypeIds)
    (hmethods : other.numMethodIds = data.numMethodIds) (hboot : other.isForBootImage = data.isForBootImage)
    (h : data.merge remap true other = some result) :
    result.view descriptors = data.view descriptors ⊔ other.view descriptors' := by
  obtain ⟨hsame, -, -, hclasses, -⟩ := merge_eq_some h
  rw [DexView.sup_def]
  refine DexView.ext ?_ (funext fun m => ?_) ?_ (funext fun m => funext fun pc => ?_)
  · simp [view, hsame.checksum, hsame.numTypeIds, hsame.numMethodIds, hchecksum, htypes, hmethods]
  · simp only [view, hsame.numMethodIds, hmethods]
    split_ifs
    · exact getHotnessInfo_merge hmethods hboot h m
    · rfl
  · ext r
    simp only [view, hsame.numTypeIds, htypes, Set.mem_ofPred_eq, Set.mem_union, (mergeClassSet_spec (hclasses rfl)).1]
    constructor
    · rintro ⟨t, ht | ⟨u, hu, hut⟩, rfl⟩
      · exact .inl ⟨t, ht, rfl⟩
      · exact .inr ⟨u, hu, (typeRef_remap hremap (htypes ▸ hother.classes u hu) hut).1⟩
    · rintro (⟨t, ht, rfl⟩ | ⟨u, hu, rfl⟩)
      · exact ⟨t, .inl ht, rfl⟩
      · obtain ⟨t, ht⟩ := (mergeClassSet_spec (hclasses rfl)).2 u hu
        exact ⟨t, .inr ⟨u, hu, ht⟩,
          (typeRef_remap hremap (htypes ▸ hother.classes u hu) ht).1.symm⟩
  · simp only [view, hsame.numTypeIds, htypes, Pi.sup_apply]
    exact caches_merge hremap hdata hother htypes h m pc

end Merge

/-! ### Profiles -/

namespace DexPcData

theorem view_congr {ref ref' : Nat → TypeRef} {data : DexPcData} (h : ∀ t ∈ data.classes.keys, ref t = ref' t) :
    data.view ref = data.view ref' := by
  unfold DexPcData.view
  rw [Finset.image_congr fun t ht => h t (mem_toFinset.mp ht)]

end DexPcData

theorem DexFileData.view_append {descriptors : List Str} {data : DexFileData} (hdata : data.WF descriptors.length)
    (new : List Str) : data.view (descriptors ++ new) = data.view descriptors := by
  refine DexView.ext rfl rfl ?_ (funext fun m => funext fun pc => ?_)
  · ext r
    refine exists_congr fun t => and_congr_right fun ht => ?_
    rw [typeRef_append (hdata.classes t ht).1]
  · simp only [view, cacheView_eq]
    rcases hd : ((data.methodMap.find? m).getD .empty).find? pc with _ | d
    · rfl
    · rw [elim_some, elim_some, DexPcData.view_congr fun t ht =>
        typeRef_append ((hdata.getCaches m pc d hd).2.types t ht).1]

/-- Nothing but the dex file is recorded. -/
def fileView (checksum numTypeIds numMethodIds : Nat) : DexView :=
  { (⊥ : DexView) with files := {(checksum, numTypeIds, numMethodIds)} }

theorem fileView_le (descriptors : List Str) (data : DexFileData) :
    fileView data.checksum data.numTypeIds data.numMethodIds ≤ data.view descriptors := by
  refine sup_eq_right.mp (DexView.ext (Set.union_self _) (funext fun m => Nat.zero_or _) (Set.empty_union _) ?_)
  exact funext fun m => funext fun pc => bot_sup_eq _

theorem view_create (descriptors : List Str) (profileKey : Str) (checksum profileIndex numTypeIds numMethodIds : Nat)
    (isForBootImage : Bool) :
    (DexFileData.create profileKey checksum profileIndex numTypeIds numMethodIds isForBootImage).view descriptors =
      fileView checksum numTypeIds numMethodIds := by
  refine DexView.ext rfl (funext fun m => ?_) ?_ rfl
  · have hzero : (DexFileData.create profileKey checksum profileIndex numTypeIds numMethodIds
        isForBootImage).getHotnessInfo m = 0 := by
      refine Nat.eq_of_testBit_eq fun j => ?_
      rw [DexFileData.testBit_getHotnessInfo]
      simp [DexFileData.create]
    simp only [DexFileData.view, hzero, ite_self]
    rfl
  · ext r
    simp [DexFileData.view, DexFileData.create, fileView, OrderedMap.keys, OrderedMap.empty, Bot.bot]

/-- What several dex files contribute to the view of a key. -/
def contributions (f : DexFileData → DexView) (files : List DexFileData) (key : Str) : DexView :=
  files.foldr (fun file rest => (if file.profileKey = key then f file else ⊥) ⊔ rest) ⊥

theorem contributions_cons (f : DexFileData → DexView) (file : DexFileData) (rest : List DexFileData) (key : Str) :
    contributions f (file :: rest) key = (if file.profileKey = key then f file else ⊥) ⊔ contributions f rest key := rfl

theorem contributions_mono {f g : DexFileData → DexView} (h : ∀ file, f file ≤ g file) (files : List DexFileData)
    (key : Str) :
    contributions f files key ≤ contributions g files key := by
  induction files with
  | nil => exact le_rfl
  | cons file rest ih =>
    refine sup_le_sup ?_ ih
    split_ifs
    · exact h file
    · exact le_rfl

theorem contributions_of_not_mem {f : DexFileData → DexView} {files : List DexFileData} {key : Str}
    (h : key ∉ files.map (·.profileKey)) : contributions f files key = ⊥ := by
  induction files with
  | nil => rfl
  | cons file rest ih =>
    rw [map_cons, mem_cons, not_or] at h
    rw [contributions_cons, if_neg (Ne.symm h.1), bot_sup_eq, ih h.2]

namespace ProfileCompilationInfo

variable {profile profile' other : ProfileCompilationInfo} {i : Nat} {mergeClasses : Bool}

theorem dexView_eq_contributions (h : profile.WF) (key : Str) :
    profile.dexView key = contributions (·.view profile.extraDescriptors) profile.info key := by
  have hkeys := h.keys
  unfold dexView findDexData
  generalize profile.info = files at hkeys ⊢
  induction files with
  | nil => rfl
  | cons file rest ih =>
    rw [map_cons, nodup_cons] at hkeys
    rw [find?_cons, contributions_cons]
    by_cases hkey : file.profileKey = key
    · rw [if_pos hkey, beq_iff_eq.mpr hkey, contributions_of_not_mem (hkey ▸ hkeys.1), sup_bot_eq]
    · rw [if_neg hkey, beq_eq_false_iff_ne.mpr hkey, bot_sup_eq]
      exact ih hkeys.2

theorem contributions_append (f : DexFileData → DexView) (files new : List DexFileData) (key : Str) :
    contributions f (files ++ new) key = contributions f files key ⊔ contributions f new key := by
  induction files with
  | nil => exact (bot_sup_eq _).symm
  | cons file rest ih =>
    rw [cons_append, contributions_cons, contributions_cons, ih, sup_assoc]

theorem WF.findDexData (h : profile.WF) {data : DexFileData} (hget : profile.info[i]? = some data) :
    profile.findDexData data.profileKey = some data := by
  have hmem := mem_of_getElem? hget
  unfold ProfileCompilationInfo.findDexData
  rcases hfind : profile.info.find? (·.profileKey == data.profileKey) with _ | data'
  · have := find?_eq_none.mp hfind data hmem
    simp at this
  · have hkey := find?_some hfind
    rw [hfind, inj_on_of_nodup_map h.keys (mem_of_find?_eq_some hfind) hmem (beq_iff_eq.mp hkey)]

/-- An added dex file joins its header to the view. -/
theorem getOrAddDexFileData_view (h : profile.WF) {profileKey : Str} {checksum numTypeIds numMethodIds : Nat}
    (hn : HeaderFits checksum numTypeIds numMethodIds)
    (hadd : profile.getOrAddDexFileData profileKey checksum numTypeIds numMethodIds = some (profile', i)) (key : Str) :
    profile'.dexView key = profile.dexView key ⊔
      (if profileKey = key then fileView checksum numTypeIds numMethodIds else ⊥) := by
  have hwf := getOrAddDexFileData_wf h hn hadd
  obtain ⟨⟨data, hfile⟩, hcases⟩ := getOrAddDexFileData_cases hadd
  rcases hcases with rfl | ⟨-, -, rfl⟩
  · refine (sup_eq_left.mpr ?_).symm
    split_ifs with hkey
    · rw [dexView, ← hkey, ← hfile.profileKey, hwf.findDexData hfile.get, ← hfile.checksum, ← hfile.numTypeIds,
        ← hfile.numMethodIds]
      exact fileView_le _ data
    · exact bot_le
  · rw [dexView_eq_contributions hwf, dexView_eq_contributions h, contributions_append]
    congr 1
    rw [contributions_cons, view_create]
    exact sup_bot_eq _

/-- The added dex files join their headers to the view. -/
theorem addFiles_view : ∀ (files : List DexFileData) {profile profile' : ProfileCompilationInfo} {remap : List Nat},
    profile.WF → (∀ o ∈ files, HeaderFits o.checksum o.numTypeIds o.numMethodIds) →
    collectM (fun profile otherData => profile.getOrAddDexFileData otherData.profileKey otherData.checksum
      otherData.numTypeIds otherData.numMethodIds) profile files = some (profile', remap) →
    ∀ key, profile'.dexView key = profile.dexView key ⊔
      contributions (fun o => fileView o.checksum o.numTypeIds o.numMethodIds) files key
  | [], _, _, _, _, _, hcollect, key => by
    cases hcollect
    exact (sup_bot_eq _).symm
  | file :: rest, profile, profile', remap, h, hn, hcollect, key => by
    rw [forall_mem_cons] at hn
    rw [collectM] at hcollect
    obtain ⟨⟨next, index⟩, hnext, hrest⟩ := bind_eq_some_iff.mp hcollect
    obtain ⟨⟨last, indexes⟩, hlast, hresult⟩ := bind_eq_some_iff.mp hrest
    cases hresult
    rw [addFiles_view rest (getOrAddDexFileData_wf h hn.1 hnext) hn.2 hlast key,
      getOrAddDexFileData_view h hn.1 hnext key, sup_assoc]
    rfl

theorem AddsDescriptors.dexView (h : profile.WF) (hadds : AddsDescriptors profile profile') :
    profile'.dexView = profile.dexView := by
  funext key
  obtain ⟨new, hnew⟩ := hadds.descriptors
  unfold ProfileCompilationInfo.dexView ProfileCompilationInfo.findDexData
  rw [hadds.info, hnew]
  rcases hfind : profile.info.find? (·.profileKey == key) with _ | data
  · simp only [hfind]
  · obtain ⟨i, hi⟩ := getElem?_of_mem (mem_of_find?_eq_some hfind)
    simp only [hfind]
    exact DexFileData.view_append (h.data i data hi).2.2 new

theorem find?_modify {α : Type} {p : α → Bool} {a b : α} (ha : p a = false) (hb : p b = false) :
    ∀ (l : List α) (i : Nat), l[i]? = some a → (l.modify i fun _ => b).find? p = l.find? p
  | [], _, h => nomatch h
  | x :: l, 0, h => by
    cases h
    rw [modify_zero_cons, find?_cons, find?_cons, ha, hb]
  | x :: l, i + 1, h => by
    rw [modify_succ_cons, find?_cons, find?_cons, find?_modify ha hb l i h]

theorem dexView_modifyData {data data' : DexFileData} (hget : profile.info[i]? = some data)
    (hwf : (profile.modifyData i fun _ => data').WF) (hsame : data'.profileKey = data.profileKey) (key : Str) :
    (profile.modifyData i fun _ => data').dexView key =
      if data.profileKey = key then data'.view profile.extraDescriptors else profile.dexView key := by
  split_ifs with hkey
  · rw [dexView, ← hkey, ← hsame, hwf.findDexData (getElem?_modifyData_self hget)]
    rfl
  unfold dexView findDexData
  have hfind := find?_modify (p := (·.profileKey == key)) (beq_eq_false_iff_ne.mpr hkey)
    (beq_eq_false_iff_ne.mpr (hsame.trans_ne hkey)) _ _ hget
  rw [modifyData]
  rw [hfind]

/-- Merging the data of the dex files joins their views. -/
theorem mergeFiles_spec {dexRemap remap : List Nat} {descriptors : List Str} (hother : other.WF)
    (hremap : Remaps remap descriptors other.extraDescriptors) :
    ∀ (files : List DexFileData) {profile profile' : ProfileCompilationInfo}, (∀ o ∈ files, o ∈ other.info) →
    profile.WF → profile.isForBootImage = other.isForBootImage → profile.extraDescriptors = descriptors →
    (∀ (j : Nat) (o : DexFileData), other.info[j]? = some o →
      ∃ data, HasFile profile (dexRemap.getD j 0) o.profileKey o.checksum o.numTypeIds o.numMethodIds data) →
    files.foldlM (fun profile otherData => do
      let index := dexRemap.getD otherData.profileIndex 0
      let data ← profile.info[index]?
      let data ← data.merge remap mergeClasses otherData
      return profile.modifyData index fun _ => data) profile = some profile' →
    profile'.WF ∧ profile'.isForBootImage = other.isForBootImage ∧ profile'.extraDescriptors = descriptors ∧
      (mergeClasses = true → ∀ key, profile'.dexView key = profile.dexView key ⊔
        contributions (·.view other.extraDescriptors) files key)
  | [], profile, profile', _, h, hboot, hdesc, _, hfold => by
    cases hfold
    exact ⟨h, hboot, hdesc, fun _ key => (sup_bot_eq _).symm⟩
  | file :: rest, profile, profile', hmem, h, hboot, hdesc, hfiles, hfold => by
    rw [forall_mem_cons] at hmem
    rw [foldlM_cons] at hfold
    obtain ⟨next, hstep, hfold'⟩ := bind_eq_some_iff.mp hfold
    obtain ⟨data, hdata, hstep'⟩ := bind_eq_some_iff.mp hstep
    obtain ⟨data', hmerge, hresult⟩ := bind_eq_some_iff.mp hstep'
    cases hresult
    obtain ⟨j, hj⟩ := getElem?_of_mem hmem.1
    obtain ⟨hjindex, hjboot, hjwf⟩ := hother.data j file hj
    obtain ⟨found, hfile⟩ := hfiles j file hj
    rw [← hjindex] at hfile
    obtain rfl : found = data := Option.some.inj (hfile.get.symm.trans hdata)
    obtain ⟨-, hdboot, hdwf⟩ := h.data _ _ hdata
    have hfboot : file.isForBootImage = found.isForBootImage := by rw [hjboot, hdboot, hboot]
    have hsame := (DexFileData.merge_eq_some hmerge).1
    subst hdesc
    have hwf' := hdwf.merge hremap.lt hremap.length hjwf hfile.numTypeIds.symm hfile.numMethodIds.symm hfboot hmerge
    have hnext : (profile.modifyData (dexRemap.getD file.profileIndex 0) fun _ => data').WF :=
      h.modifyData fun d hd => by
      cases hdata.symm.trans hd
      exact ⟨hsame, hwf'⟩
    obtain ⟨hwf, hboot', hdesc', hview⟩ := mergeFiles_spec hother hremap rest hmem.2 hnext hboot rfl
      (fun j' o hj' => by
        obtain ⟨d, hd⟩ := hfiles j' o hj'
        by_cases heq : dexRemap.getD file.profileIndex 0 = dexRemap.getD j' 0
        · obtain rfl : found = d := Option.some.inj (hdata.symm.trans (heq ▸ hd.get))
          exact ⟨data', heq ▸ getElem?_modifyData_self hdata, hsame.profileKey.trans hd.profileKey,
            hsame.checksum.trans hd.checksum, hsame.numTypeIds.trans hd.numTypeIds,
            hsame.numMethodIds.trans hd.numMethodIds⟩
        · refine ⟨d, ?_, hd.profileKey, hd.checksum, hd.numTypeIds, hd.numMethodIds⟩
          rw [modifyData, getElem?_modify, hd.get]
          exact congrArg some (if_neg heq)) hfold'
    refine ⟨hwf, hboot', hdesc', fun hclasses key => ?_⟩
    subst hclasses
    have hdata' := DexFileData.view_merge hremap hdwf hjwf hfile.checksum.symm hfile.numTypeIds.symm
      hfile.numMethodIds.symm hfboot hmerge
    rw [hview rfl key, dexView_modifyData hdata hnext hsame.profileKey, contributions_cons, ← sup_assoc]
    refine congrArg (· ⊔ _) ?_
    rw [hfile.profileKey]
    split_ifs with hkey
    · rw [hdata', dexView, ← hkey, ← hfile.profileKey, h.findDexData hdata]
    · exact (sup_bot_eq _).symm

/-- A merge with the classes joins the views. -/
theorem mergeWith_spec (h : profile.WF) (hother : other.WF)
    (hmerge : profile.mergeWith other mergeClasses = some profile') :
    profile'.WF ∧ profile'.isForBootImage = profile.isForBootImage ∧
      (mergeClasses = true → profile'.view = profile.view ⊔ other.view) := by
  unfold mergeWith at hmerge
  split_ifs at hmerge with hversion hchecksum
  rw [not_not] at hversion
  obtain ⟨⟨p₁, dexRemap⟩, h₁, hrest₁⟩ := bind_eq_some_iff.mp hmerge
  obtain ⟨⟨p₂, remap⟩, h₂, hrest₂⟩ := bind_eq_some_iff.mp hrest₁
  have hn : ∀ o ∈ other.info, HeaderFits o.checksum o.numTypeIds o.numMethodIds := fun o ho => by
    obtain ⟨j, hj⟩ := getElem?_of_mem ho
    exact (hother.data j o hj).2.2.header
  obtain ⟨hwf₁, hboot₁, hdesc₁, -, hfiles⟩ := addFiles_spec other.info h hn h₁
  obtain ⟨hwf₂, hadds, hlen, hmem, hold, hremap⟩ := remapExtraDescriptors_spec other.extraDescriptors hwf₁
    hother.descriptor_le h₂
  have hboot₂ : p₂.isForBootImage = other.isForBootImage := by rw [hadds.isForBootImage, hboot₁, hversion]
  obtain ⟨hwf, hboot, hdesc, hview⟩ := mergeFiles_spec hother ⟨hlen, hremap, hwf₂.descriptors⟩ other.info
    (fun _ ho => ho)
    hwf₂ hboot₂ rfl (fun j o hj => by
      obtain ⟨data, hdata⟩ := hfiles j o hj
      exact ⟨data, hadds.info ▸ hdata.get, hdata.profileKey, hdata.checksum, hdata.numTypeIds, hdata.numMethodIds⟩)
        hrest₂
  refine ⟨hwf, hboot.trans hversion.symm, fun hclasses => Prod.ext (funext fun key => ?_) ?_⟩
  · -- The dex files that are only added are among those whose data is merged.
    have hle : contributions (fun o => fileView o.checksum o.numTypeIds o.numMethodIds) other.info key ≤
        contributions (·.view other.extraDescriptors) other.info key :=
      contributions_mono (fun o => fileView_le _ o) _ _
    change profile'.dexView key = profile.dexView key ⊔ other.dexView key
    rw [hview hclasses key, hadds.dexView hwf₁, addFiles_view other.info h hn h₁ key, sup_assoc, sup_eq_right.mpr hle,
      dexView_eq_contributions hother]
  · ext d
    change d ∈ profile'.extraDescriptors ↔ d ∈ profile.extraDescriptors ∨ d ∈ other.extraDescriptors
    rw [hdesc, ← hdesc₁]
    constructor
    · exact hold d
    · rintro (hd | hd)
      · obtain ⟨new, hnew⟩ := hadds.descriptors
        exact hnew ▸ mem_append_left _ hd
      · exact hmem d hd

/-- The profiles of one version that recording, merging and loading lead to, where any dex files may be
    filtered out of a file that is loaded. -/
inductive Built (isForBootImage : Bool) : ProfileCompilationInfo → Prop
  | empty : Built isForBootImage (.empty isForBootImage)
  | addMethods {profile profile' : ProfileCompilationInfo} {methods : List ProfileMethodInfo} {flags : Nat}
      {originPackage : Str} (built : Built isForBootImage profile)
      (fits : ∀ pmi ∈ methods, ∀ cache ∈ pmi.inlineCaches, ∀ r ∈ cache.classes, ClassRefFits pmi.dexFile r)
      (eq : profile.addMethods methods flags originPackage = some profile') : Built isForBootImage profile'
  | addClass {profile profile' : ProfileCompilationInfo} {dexFile : DexFile} {descriptor originPackage : Str}
      (built : Built isForBootImage profile) (eq : profile.addClass dexFile descriptor originPackage = some profile') :
      Built isForBootImage profile'
  | mergeWith {profile other profile' : ProfileCompilationInfo} {mergeClasses : Bool}
    (built : Built isForBootImage profile)
      (builtOther : Built isForBootImage other) (eq : profile.mergeWith other mergeClasses = some profile') :
      Built isForBootImage profile'
  | load {profile profile' : ProfileCompilationInfo} {context : LoadContext} {file : Bytes} {mergeClasses : Bool}
      (built : Built isForBootImage profile) (eq : profile.loadInternal context file mergeClasses = .ok profile') :
      Built isForBootImage profile'

/-- A profile built by calls is well formed. -/
theorem Built.wf {isForBootImage : Bool} (h : Built isForBootImage profile) :
    profile.WF ∧ profile.isForBootImage = isForBootImage := by
  induction h with
  | empty => exact ⟨empty_wf _, rfl⟩
  | addMethods _ fits eq ih =>
    obtain ⟨hwf, hboot⟩ := addMethods_wf _ ih.1 fits eq
    exact ⟨hwf, hboot.trans ih.2⟩
  | addClass _ eq ih =>
    obtain ⟨hwf, hboot⟩ := addClass_wf ih.1 eq
    exact ⟨hwf, hboot.trans ih.2⟩
  | mergeWith _ _ eq ih ih' =>
    obtain ⟨hwf, hboot, -⟩ := mergeWith_spec ih.1 ih'.1 eq
    exact ⟨hwf, hboot.trans ih.2⟩
  | load _ eq ih =>
    obtain ⟨hwf, hboot⟩ := loadInternal_wf _ _ _ ih.1 _ eq
    exact ⟨hwf, hboot.trans ih.2⟩

/-- A dex file with the type `A` and two methods. -/
def sampleDexFile : DexFile := ⟨[97], 1, [[65]], 2, by decide, by decide, by decide⟩

def sampleMethod (type type' : ClassRef) : ProfileMethodInfo := ⟨sampleDexFile, 0, [⟨3, false, false, [type, type']⟩]⟩

/-- The class `C`, so that `C` is the first extra descriptor. -/
def sampleClass : ProfileCompilationInfo := ((empty false).addClass sampleDexFile [67] []).getD (empty false)

def sampleOther : ProfileCompilationInfo :=
  (sampleClass.addMethods [sampleMethod (.foreign [66]) (.foreign [67])] 3 []).getD (empty false)

theorem sampleOther_built : Built false sampleOther := by
  have hclass : (empty false).addClass sampleDexFile [67] [] = some sampleClass := rfl
  have heq : sampleClass.addMethods [sampleMethod (.foreign [66]) (.foreign [67])] 3 [] = some sampleOther := rfl
  refine .addMethods (.addClass .empty hclass) ?_ heq
  simp [sampleMethod, ClassRefFits]

end ProfileCompilationInfo

end Art.Profile
