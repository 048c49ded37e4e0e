import Art.Lib.Except
import Art.Libprofile.ProfileFile
import Art.Theorems.ProfileInvariant

/-! Whatever bytes `LoadInternal` accepts, and whatever dex files are filtered out, it keeps what holds for the
    profiles that are built by recording and merging. -/

namespace Art.Profile
open List

open Lib (Ensures OrderedMap OrderedSet ofBytes)

variable {numTypeIds extra : Nat} {remap : List Nat} {buffer : Bytes}

/-! ### Numbers and strings -/

theorem readUint_lt (size : Nat) (message : String) (buffer : Bytes) :
    Ensures (readUint size message buffer) fun r => r.1 < 256 ^ size := by
  unfold readUint
  split_ifs with h
  · exact .of_error _
  · refine .of_ok ?_
    have hlt := Lib.ofBytes_lt (buffer.take size)
    rwa [length_take, min_eq_left (not_lt.mp h)] at hlt

theorem readString_length_lt (message : String) (buffer : Bytes) :
    Ensures (readString message buffer) fun r => r.1.length < 2 ^ 16 := by
  refine (readUint_lt 2 message buffer).bind fun ⟨length, rest⟩ hlt => ?_
  dsimp only
  split_ifs
  · exact .of_error _
  · exact .of_error _
  · refine .of_ok ?_
    rw [length_take]
    exact (min_le_left _ _).trans_lt hlt

/-! ### The data of a dex file -/

theorem DexPcData.WF.foldl_addClass {cache : DexPcData} {indexes : List Nat} (h : cache.WF numTypeIds extra)
    (hfits : ∀ t ∈ indexes, TypeIndexFits numTypeIds extra t) :
    (indexes.foldl DexPcData.addClass cache).WF numTypeIds extra := by
  induction indexes generalizing cache with
  | nil => exact h
  | cons t indexes ih =>
    rw [forall_mem_cons] at hfits
    exact ih (h.addClass hfits.1) hfits.2

namespace DexFileData

variable {data : DexFileData}

/-- What reading a part of the data of a dex file must keep. -/
def Kept (extra : Nat) (data result : DexFileData) : Prop := SameFile data result ∧ result.WF extra

theorem WF.insertClasses {indexes : List Nat} (h : data.WF extra)
    (hfits : ∀ t ∈ indexes, TypeIndexFits data.numTypeIds extra t) :
    WF extra { data with classSet := indexes.foldl OrderedSet.insert data.classSet } := by
  induction indexes generalizing data with
  | nil => exact h
  | cons t indexes ih =>
    rw [forall_mem_cons] at hfits
    exact ih (h.insertClass hfits.1) hfits.2

/-- A loaded bitmap has bits of the flags only. -/
theorem loadBitmap_lt {last numMethodIds : Nat} (methodFlags : Nat) {flags : List Nat}
    (hflags : ∀ f ∈ flags, 1 ≤ f ∧ f ≤ last) (saved : Nat) {bitmap : Nat}
    (h : bitmap < 2 ^ (last * numMethodIds)) :
    loadBitmap numMethodIds methodFlags flags saved bitmap < 2 ^ (last * numMethodIds) := by
  induction flags generalizing saved bitmap with
  | nil => exact h
  | cons flag flags ih =>
    rw [forall_mem_cons] at hflags
    rw [loadBitmap]
    split_ifs
    · refine ih hflags.2 _ (Nat.or_lt_two_pow h ?_)
      -- The bits of a flag end where those of the next flag begin.
      have hle : flagBitmapIndex flag * numMethodIds + numMethodIds ≤ last * numMethodIds := by
        rw [← Nat.succ_mul]
        refine Nat.mul_le_mul_right _ ?_
        unfold flagBitmapIndex
        omega
      rw [Nat.shiftLeft_eq]
      calc saved % 2 ^ numMethodIds * 2 ^ (flagBitmapIndex flag * numMethodIds)
        _ < 2 ^ numMethodIds * 2 ^ (flagBitmapIndex flag * numMethodIds) :=
          Nat.mul_lt_mul_of_pos_right (Nat.mod_lt _ (Nat.two_pow_pos _)) (Nat.two_pow_pos _)
        _ = 2 ^ (flagBitmapIndex flag * numMethodIds + numMethodIds) := by rw [pow_add, mul_comm]
        _ ≤ 2 ^ (last * numMethodIds) := Nat.pow_le_pow_right (by omega) hle
    · exact ih hflags.2 _ h

theorem WF.setLoadedBitmap (h : data.WF extra) (methodFlags saved : Nat) :
    WF extra { data with
      methodBitmap :=
        loadBitmap data.numMethodIds methodFlags (bitmapFlags data.isForBootImage) saved data.methodBitmap } :=
  ⟨h.header, h.classes, h.methods, loadBitmap_lt methodFlags (fun _ hf => mem_bitmapFlags.mp hf) saved h.bitmap⟩

end DexFileData

/-! ### Reading the data of a dex file -/

section TypeIndexes

variable (hremap : ∀ i ∈ remap, i < extra)

include hremap

/-- A type index that is read is below the number of types and extra descriptors of the file, so the
    remapped one is valid. -/
theorem readTypeIndexes_fits (messages : TypeIndexMessages) (count : Nat) (first : Bool) (last : Nat) (buffer : Bytes) :
    Ensures (readTypeIndexes messages numTypeIds remap count first last buffer)
      fun r => ∀ t ∈ r.1, TypeIndexFits numTypeIds extra t := by
  induction count generalizing first last buffer with
  | zero => exact .of_ok fun t ht => by cases ht
  | succ count ih =>
    refine (Ensures.trivial _).bind fun ⟨diff, rest⟩ _ => ?_
    dsimp only
    split_ifs with hdup hvalid
    · exact .of_error _
    · exact .of_error _
    split
    · exact .of_error _
    next index hindex =>
    have hfits : TypeIndexFits numTypeIds remap.length (last + diff) := by
      constructor <;> omega
    refine (ih false (last + diff) rest).bind fun ⟨indexes, rest⟩ hrest => .of_ok ?_
    rw [forall_mem_cons]
    exact ⟨(remapTypeIndex_cases hfits hremap rfl hindex).2, hrest⟩

namespace DexFileData

variable {data : DexFileData}

theorem readClasses_kept (h : data.WF extra) (buffer : Bytes) :
    Ensures (data.readClasses remap buffer) fun r => Kept extra data r.1 := by
  refine (Ensures.trivial _).bind fun ⟨classesSize, rest⟩ _ => ?_
  refine (readTypeIndexes_fits hremap _ _ _ _ _).bind fun ⟨indexes, rest⟩ hfits => .of_ok ?_
  exact ⟨⟨rfl, rfl, rfl, rfl, rfl, rfl⟩, h.insertClasses hfits⟩

theorem readDexPcData_wf {caches : InlineCacheMap} (h : CachesWF numTypeIds extra caches) (buffer : Bytes) :
    Ensures (readDexPcData numTypeIds remap caches buffer) fun r => CachesWF numTypeIds extra r.1 := by
  refine (readUint_lt 2 _ buffer).bind fun ⟨dexPc, rest⟩ hpc => ?_
  refine (Ensures.trivial _).bind fun ⟨classesSize, rest⟩ _ => ?_
  dsimp only
  split_ifs
  · exact .of_ok (h.set hpc (.setIsMissingTypes _))
  · exact .of_ok (h.set hpc (h.getD dexPc).setIsMegamorphic)
  · exact .of_error _
  · refine (readTypeIndexes_fits hremap _ _ _ _ _).bind fun ⟨indexes, rest⟩ hfits => .of_ok ?_
    exact h.set hpc ((h.getD dexPc).foldl_addClass hfits)

theorem readInlineCache_wf (count : Nat) {caches : InlineCacheMap} (h : CachesWF numTypeIds extra caches)
    (buffer : Bytes) :
    Ensures (readInlineCache numTypeIds remap count caches buffer) fun r => CachesWF numTypeIds extra r.1 := by
  induction count generalizing caches buffer with
  | zero => exact .of_ok h
  | succ count ih => exact (readDexPcData_wf hremap h buffer).bind fun ⟨caches, rest⟩ hcaches => ih hcaches rest

/-- Reading hot methods keeps the data well formed. -/
theorem readHotMethods_kept (atEnd fuel : Nat) (first : Bool) (last : Nat) (h : data.WF extra) (buffer : Bytes) :
    Ensures (readHotMethods remap atEnd fuel first last data buffer) fun r => Kept extra data r.1 := by
  induction fuel generalizing first last data buffer with
  | zero =>
    unfold readHotMethods
    split_ifs
    · exact .of_ok ⟨⟨rfl, rfl, rfl, rfl, rfl, rfl⟩, h⟩
    · exact .of_error _
  | succ fuel ih =>
    unfold readHotMethods
    split_ifs
    · exact .of_ok ⟨⟨rfl, rfl, rfl, rfl, rfl, rfl⟩, h⟩
    refine (Ensures.trivial _).bind fun ⟨diff, rest⟩ _ => ?_
    dsimp only
    split_ifs with hdup hvalid
    · exact .of_error _
    · exact .of_error _
    have hm : last + diff < data.numMethodIds ∧ last + diff ≤ kMaxSupportedMethodIndex := by omega
    refine (Ensures.trivial _).bind fun ⟨size, rest⟩ _ => ?_
    refine (readInlineCache_wf hremap size (h.getCaches (last + diff)) rest).bind fun ⟨caches, rest⟩ hcaches => ?_
    refine (ih false (last + diff) (h.setCaches hm.1 hm.2 hcaches) rest).mono fun r hr => ⟨?_, hr.2⟩
    obtain ⟨hkey, hindex, hchecksum, htypes, hmethods, hboot⟩ := hr.1
    exact ⟨hkey, hindex, hchecksum, htypes, hmethods, hboot⟩

/-- Reading methods keeps the data well formed. -/
theorem readMethods_kept (h : data.WF extra) (buffer : Bytes) :
    Ensures (data.readMethods remap buffer) fun r => Kept extra data r.1 := by
  refine (Ensures.trivial _).bind fun ⟨followingDataSize, rest⟩ _ => ?_
  dsimp only
  split_ifs
  · exact .of_error _
  refine (Ensures.trivial _).bind fun ⟨methodFlags, rest⟩ _ => ?_
  dsimp only
  split_ifs with hboot hsize hhot
  · exact .of_error _
  · exact .of_error _
  · refine (readHotMethods_kept hremap _ _ _ _ (h.setLoadedBitmap methodFlags _) _).bind fun ⟨result, rest⟩ hr => ?_
    dsimp only
    split_ifs
    · exact .of_error _
    · obtain ⟨⟨hkey, hindex, hchecksum, htypes, hmethods, hboot⟩, hr⟩ := hr
      exact .of_ok ⟨⟨hkey, hindex, hchecksum, htypes, hmethods, hboot⟩, hr⟩
  · rw [Lib.ok_bind]
    dsimp only
    split_ifs
    · exact .of_error _
    · exact .of_ok ⟨⟨rfl, rfl, rfl, rfl, rfl, rfl⟩, h.setLoadedBitmap methodFlags _⟩

end DexFileData

end TypeIndexes

/-! ### Sections -/

namespace ProfileCompilationInfo

variable {profile : ProfileCompilationInfo}

/-- Reading the dex files keeps the profile well formed. -/
theorem readDexFiles_wf (filter : Str → Nat → Bool) (count : Nat) (h : profile.WF) (buffer : Bytes) :
    Ensures (readDexFiles filter count profile buffer)
      fun r => r.1.WF ∧ r.1.isForBootImage = profile.isForBootImage := by
  induction count generalizing profile buffer with
  | zero => exact .of_ok ⟨h, rfl⟩
  | succ count ih =>
    refine (readUint_lt 4 _ buffer).bind fun ⟨checksum, rest⟩ hchecksum => ?_
    refine (readUint_lt 4 _ rest).bind fun ⟨numTypeIds, rest⟩ htypes => ?_
    refine (readUint_lt 4 _ rest).bind fun ⟨numMethodIds, rest⟩ hmethods => ?_
    refine (Ensures.trivial _).bind fun ⟨profileKey, rest⟩ _ => ?_
    dsimp only
    split
    · exact .of_error _
    split
    · exact (ih h rest).bind fun ⟨profile, remap, rest⟩ hrest => .of_ok hrest
    split
    · split_ifs <;> exact .of_error _
    next next index hadd =>
    have hwf := getOrAddDexFileData_wf h ⟨hchecksum, htypes, hmethods⟩ hadd
    have hboot : next.isForBootImage = profile.isForBootImage := by
      rcases (getOrAddDexFileData_cases hadd).2 with rfl | ⟨-, -, rfl⟩ <;> rfl
    exact (ih hwf rest).bind fun ⟨profile, remap, rest⟩ hrest => .of_ok ⟨hrest.1, hrest.2.trans hboot⟩

theorem readDexFilesSection_wf (context : LoadContext) (file : Bytes) (info : FileSectionInfo) (h : profile.WF) :
    Ensures (profile.readDexFilesSection context file info)
      fun r => r.1.WF ∧ r.1.isForBootImage = profile.isForBootImage := by
  refine (Ensures.trivial _).bind fun buffer _ => (Ensures.trivial _).bind fun ⟨numDexFiles, buffer⟩ _ => ?_
  dsimp only
  split_ifs
  · exact .of_error _
  refine (readDexFiles_wf context.filter numDexFiles h buffer).bind fun ⟨profile, remap, rest⟩ hrest => ?_
  dsimp only
  split_ifs
  · exact .of_error _
  · exact .of_ok hrest

/-- Reading extra descriptors keeps the profile well formed, with indexes in range. -/
theorem readExtraDescriptors_wf (isValidDescriptor : Str → Bool) (count : Nat) (h : profile.WF) (buffer : Bytes) :
    Ensures (readExtraDescriptors isValidDescriptor count profile buffer) fun r =>
      r.1.WF ∧ AddsDescriptors profile r.1 ∧ ∀ i ∈ r.2.1, i < r.1.extraDescriptors.length := by
  induction count generalizing profile buffer with
  | zero => exact .of_ok ⟨h, .refl _, fun i hi => by cases hi⟩
  | succ count ih =>
    refine (readString_length_lt _ buffer).bind fun ⟨descriptor, rest⟩ hlt => ?_
    dsimp only
    split_ifs
    · exact .of_error _
    split
    · exact .of_error _
    next next index hnext =>
    obtain ⟨hwf, hadds, hget, -⟩ := remapExtraDescriptor_spec h (Nat.le_of_lt_succ hlt) hnext
    refine (ih hwf rest).bind fun ⟨last, indexes, rest⟩ ⟨hlast, hadds', hindexes⟩ => .of_ok ?_
    refine ⟨hlast, hadds.trans hadds', ?_⟩
    rw [forall_mem_cons]
    exact ⟨(List.getElem?_eq_some_iff.mp hget).1.trans_le hadds'.length_le, hindexes⟩

/-- The loop over the dex files of a section, if reading the data of one of them keeps what must be kept. -/
theorem readForDexFiles_wf (name : String) {read : DexFileData → Bytes → Except Failure (DexFileData × Bytes)}
    (skip : Bytes → Except Failure Bytes) (dexRemap : List Nat) (fuel : Nat) (h : profile.WF)
    (hread : ∀ data buffer, data.WF profile.extraDescriptors.length →
      Ensures (read data buffer) fun r => DexFileData.Kept profile.extraDescriptors.length data r.1)
    (buffer : Bytes) :
    Ensures (readForDexFiles name read skip dexRemap fuel profile buffer)
      fun r => r.WF ∧ r.isForBootImage = profile.isForBootImage ∧ r.extraDescriptors = profile.extraDescriptors := by
  induction fuel generalizing profile buffer with
  | zero =>
    unfold readForDexFiles
    split_ifs
    · exact .of_ok ⟨h, rfl, rfl⟩
    · exact .of_error _
  | succ fuel ih =>
    unfold readForDexFiles
    split_ifs
    · exact .of_ok ⟨h, rfl, rfl⟩
    refine (Ensures.trivial _).bind fun ⟨profileIndex, rest⟩ _ => ?_
    dsimp only
    split
    · exact .of_error _
    next profileIndex _ =>
    split_ifs
    · exact (Ensures.trivial _).bind fun rest _ => ih h hread rest
    split
    · exact .of_error _
    next data hdata =>
    refine (hread data rest (h.data _ data hdata).2.2).bind fun ⟨result, rest⟩ hresult => ?_
    have hwf : (profile.modifyData profileIndex fun _ => result).WF := h.modifyData fun data' hdata' => by
      cases hdata.symm.trans hdata'
      exact hresult
    exact ih hwf hread rest

/-- Reading the other sections keeps the profile well formed. -/
theorem readSections_wf (context : LoadContext) (file : Bytes) (mergeClasses : Bool) (dexRemap : List Nat)
    (infos : List FileSectionInfo) (remap : List Nat) (h : profile.WF)
    (hremap : ∀ i ∈ remap, i < profile.extraDescriptors.length) :
    Ensures (readSections context file mergeClasses dexRemap infos remap profile)
      fun r => r.WF ∧ r.isForBootImage = profile.isForBootImage := by
  induction infos generalizing remap profile with
  | nil => exact .of_ok ⟨h, rfl⟩
  | cons info rest ih =>
    unfold readSections
    split_ifs
    · exact .of_error _
    · refine Ensures.bind (P := fun r => r.1.WF ∧ r.1.isForBootImage = profile.isForBootImage ∧
        ∀ i ∈ r.2, i < r.1.extraDescriptors.length) ?_ fun ⟨next, remap⟩ ⟨hwf, hboot, hlt⟩ =>
          (ih remap hwf hlt).mono fun r hr => ⟨hr.1, hr.2.trans hboot⟩
      refine (Ensures.trivial _).bind fun buffer _ => (Ensures.trivial _).bind fun ⟨count, buffer⟩ _ => ?_
      refine (readExtraDescriptors_wf context.isValidDescriptor count h buffer).bind
        fun ⟨next, new, _⟩ ⟨hwf, hadds, hnew⟩ => .of_ok ⟨hwf, hadds.isForBootImage, ?_⟩
      rw [forall_mem_append]
      exact ⟨fun i hi => (hremap i hi).trans_le hadds.length_le, hnew⟩
    · refine ((Ensures.trivial _).bind fun buffer _ => readForDexFiles_wf "classes" _ dexRemap _ h
        (fun data buffer hdata => DexFileData.readClasses_kept hremap hdata buffer) buffer).bind
          fun next ⟨hwf, hboot, hdesc⟩ => ?_
      exact (ih remap hwf (hdesc ▸ hremap)).mono fun r hr => ⟨hr.1, hr.2.trans hboot⟩
    · refine ((Ensures.trivial _).bind fun buffer _ => readForDexFiles_wf "methods" _ dexRemap _ h
        (fun data buffer hdata => DexFileData.readMethods_kept hremap hdata buffer) buffer).bind
          fun next ⟨hwf, hboot, hdesc⟩ => ?_
      exact (ih remap hwf (hdesc ▸ hremap)).mono fun r hr => ⟨hr.1, hr.2.trans hboot⟩
    · exact ih remap h hremap

/-- A file that is loaded leaves a profile with all its invariants, even one that no profile is saved as. -/
theorem loadInternal_wf (context : LoadContext) (file : Bytes) (mergeClasses : Bool) (h : profile.WF) :
    Ensures (profile.loadInternal context file mergeClasses)
      fun r => r.WF ∧ r.isForBootImage = profile.isForBootImage := by
  unfold loadInternal
  split
  · exact .of_ok ⟨h, rfl⟩
  refine (Ensures.trivial _).bind fun bytes _ => ?_
  dsimp only
  split
  · exact .of_error _
  split
  · exact .of_error _
  split
  · exact .of_error _
  refine (Ensures.trivial _).bind fun infos _ => (Ensures.trivial _).bind fun size _ => ?_
  split_ifs
  · exact .of_error _
  split
  · exact .of_error _
  split_ifs
  · exact .of_error _
  refine (readDexFilesSection_wf context file _ h).bind fun ⟨next, dexRemap⟩ ⟨hwf, hboot⟩ => ?_
  refine (readSections_wf context file mergeClasses dexRemap _ [] hwf fun i hi => by cases hi).mono fun r hr => ?_
  exact ⟨hr.1, hr.2.trans hboot⟩

end ProfileCompilationInfo

end Art.Profile
