import Art.Theorems.ProfileCodec
import Mathlib.Algebra.Order.BigOperators.Group.List
import Mathlib.Data.List.TakeWhile

/-! Loading a saved profile: the sections of the file, and when the loaded profile equals the saved one. -/

namespace Art.Profile
open List

open Lib (OrderedMap OrderedSet Yields ofBytes)

namespace DexFileData

/-- The data without what the later sections have. -/
def created (data : DexFileData) : DexFileData :=
  { data with methodMap := .empty, classSet := .empty, methodBitmap := 0 }

def withoutMethods (data : DexFileData) : DexFileData := { data with methodMap := .empty, methodBitmap := 0 }

/-- Methods whose size is truncated to 0 are not written. -/
def restored (data : DexFileData) : DexFileData := if data.methodsDataSize = 0 then data.withoutMethods else data

end DexFileData

/-- Compression is lossless, and its result is not longer than `deflateBound` allows. -/
structure Zlib.Lossless (zlib : Zlib) : Prop where
  inflate_deflate : ∀ bytes content, zlib.deflate bytes = some content → zlib.inflate content bytes.length = some bytes
  length_deflate_le : ∀ bytes content, zlib.deflate bytes = some content → content.length ≤ 2 * bytes.length + 64

def Section.getMemSize (s : Section) : Nat := if s.inflatedSize ≠ 0 then s.inflatedSize else s.content.length

namespace ProfileCompilationInfo

variable {context : LoadContext} {profile : ProfileCompilationInfo} {file tail : Bytes} {off : Nat}

theorem WF.of_mem (h : profile.WF) {data : DexFileData} (hdata : data ∈ profile.info) :
    data.WF profile.extraDescriptors.length := by
  obtain ⟨i, hi⟩ := getElem?_of_mem hdata
  exact (h.data i data hi).2.2

/-! ### Dex files -/

theorem getOrAddDexFileData_new {profileKey : Str} (hkey : profileKey ∉ profile.info.map (·.profileKey))
    (hlen : profile.info.length < maxProfileIndex) (checksum numTypeIds numMethodIds : Nat) :
    profile.getOrAddDexFileData profileKey checksum numTypeIds numMethodIds =
      some ({ profile with info := profile.info ++
        [DexFileData.create profileKey checksum profile.info.length numTypeIds
        numMethodIds profile.isForBootImage] }, profile.info.length) := by
  have hnone : profile.info.findIdx? (·.profileKey == profileKey) = none := by
    rw [findIdx?_eq_none_iff]
    intro data hdata
    rw [← Bool.not_eq_true, beq_iff_eq]
    exact fun heq => hkey (mem_map.mpr ⟨data, hdata, heq⟩)
  rw [getOrAddDexFileData, hnone]
  exact if_neg hlen.ne

/-- The written dex files are read back. -/
theorem readDexFiles_write (h : profile.WF) (hfilter : ∀ key checksum, context.filter key checksum = true)
    (hkeys : ∀ data ∈ profile.info, data.profileKey ≠ [] ∧ data.profileKey.length ≤ kMaxDexFileKeyLength)
    (tail : Bytes) :
    ∀ (rest done : List DexFileData), done ++ rest = profile.info →
    Yields (readDexFiles context.filter rest.length ⟨profile.isForBootImage, done.map (·.created), []⟩
        (rest.flatMap (·.writeDexFile) ++ tail))
      (⟨profile.isForBootImage, profile.info.map (·.created), []⟩, range' done.length rest.length, tail)
      (∀ data ∈ rest, 0 ∉ data.profileKey)
  | [], done, heq => by
    rw [append_nil] at heq
    subst heq
    exact .of_ok (fun _ hd => (nomatch hd)) rfl
  | data :: rest, done, heq => by
    have hget : profile.info[done.length]? = some data := by
      rw [← heq, getElem?_append_right (Nat.le_refl _), Nat.sub_self]
      rfl
    obtain ⟨hindex, hboot, hwf⟩ := h.data _ _ hget
    obtain ⟨hnil, hle⟩ := hkeys data (mem_of_getElem? hget)
    have hkey : ¬(data.profileKey.length = 0 ∨ data.profileKey.length > kMaxDexFileKeyLength) := by
      rw [length_eq_zero_iff]
      exact fun hor => hor.elim hnil (not_lt.mpr hle)
    have hnew : data.profileKey ∉ (done.map (·.created)).map (·.profileKey) := by
      have hnodup := h.keys
      rw [← heq, map_append, map_cons] at hnodup
      rw [map_map]
      exact fun hmem => (nodup_append.mp hnodup).2.2 _ hmem _ mem_cons_self rfl
    have hlen : done.length < maxProfileIndex := (List.getElem?_eq_some_iff.mp hget).1.trans_le h.size
    have hadd : getOrAddDexFileData ⟨profile.isForBootImage, done.map (·.created), []⟩ data.profileKey data.checksum
        data.numTypeIds data.numMethodIds =
        some (⟨profile.isForBootImage, (done ++ [data]).map (·.created), []⟩, done.length) := by
      have hcreate : DexFileData.create data.profileKey data.checksum (done.map (·.created)).length data.numTypeIds
          data.numMethodIds profile.isForBootImage = data.created := by
        rw [length_map, ← hindex, ← hboot]
        rfl
      rw [getOrAddDexFileData_new hnew (by rwa [length_map])]
      rw [hcreate, length_map, map_append, map_singleton]
    have hstr : data.profileKey.length < 2 ^ 16 := hle.trans_lt (by decide)
    rw [flatMap_cons, DexFileData.writeDexFile, length_cons, readDexFiles]
    simp only [append_assoc]
    refine .after (readUint_writeUint hwf.header.checksum_lt _ _) ?_
    refine .after (readUint_writeUint hwf.header.numTypeIds_lt _ _) ?_
    refine .after (readUint_writeUint hwf.header.numMethodIds_lt _ _) ?_
    rw [forall_mem_cons]
    refine (readString_writeString hstr _ _).bind fun _ => ?_
    rw [if_neg hkey, hfilter, hadd]
    refine (readDexFiles_write h hfilter hkeys tail rest (done ++ [data])
      (by rw [append_assoc, singleton_append, heq])).then_ok ?_
    rw [length_append, length_singleton, range'_succ]
    rfl

/-! ### Extra descriptors -/

theorem remapExtraDescriptor_new {descriptor : Str} (hnew : descriptor ∉ profile.extraDescriptors)
    (hlen : profile.extraDescriptors.length < kMaxExtraDescriptors) :
    profile.remapExtraDescriptor descriptor =
    some ({ profile with extraDescriptors := profile.extraDescriptors ++ [descriptor] },
      profile.extraDescriptors.length) := by
  have hnone : profile.findExtraDescriptor descriptor = none := by
    rw [findExtraDescriptor, findIdx?_eq_none_iff]
    intro d hd
    rw [← Bool.not_eq_true, beq_iff_eq]
    exact fun heq => hnew (heq ▸ hd)
  rw [remapExtraDescriptor, hnone]
  exact if_neg hlen.ne

/-- The written extra descriptors are read back. -/
theorem readExtraDescriptors_write (h : profile.WF)
    (hvalid : ∀ d ∈ profile.extraDescriptors, context.isValidDescriptor d = true ∧ 0 ∉ d) (boot : Bool)
    (info : List DexFileData) (tail : Bytes) :
    ∀ (rest done : List Str), done ++ rest = profile.extraDescriptors →
    readExtraDescriptors context.isValidDescriptor rest.length ⟨boot, info, done⟩ (rest.flatMap writeString ++ tail) =
      .ok (⟨boot, info, profile.extraDescriptors⟩, range' done.length rest.length, tail)
  | [], done, heq => by
    rw [append_nil] at heq
    subst heq
    rfl
  | d :: rest, done, heq => by
    have hmem : d ∈ profile.extraDescriptors := heq ▸ mem_append_right _ mem_cons_self
    have hnew : d ∉ done := by
      have hnodup := h.descriptors
      rw [← heq] at hnodup
      exact fun hd => (nodup_append.mp hnodup).2.2 d hd d mem_cons_self rfl
    have hlen : done.length < kMaxExtraDescriptors := by
      have hle := h.descriptors_le
      rw [← heq, length_append, length_cons] at hle
      omega
    have hstr : d.length < 2 ^ 16 := (h.descriptor_le d hmem).trans_lt (by decide)
    have hadd : remapExtraDescriptor ⟨boot, info, done⟩ d = some (⟨boot, info, done ++ [d]⟩, done.length) :=
      remapExtraDescriptor_new hnew hlen
    have hrest := readExtraDescriptors_write h hvalid boot info tail rest (done ++ [d])
      (by rw [append_assoc, singleton_append, heq])
    rw [flatMap_cons, append_assoc, length_cons, readExtraDescriptors,
      (readString_writeString hstr _ _).1 (hvalid d hmem).2]
    simp only [Lib.ok_bind, (hvalid d hmem).1, Bool.not_true, hadd, hrest, length_append, length_singleton, range'_succ]
    rfl

/-! ### Classes and methods -/

theorem modify_length_append {α : Type} (l : List α) (a : α) (r : List α) (f : α → α) :
    (l ++ a :: r).modify l.length f = l ++ f a :: r := by
  induction l with
  | nil => rfl
  | cons b l ih => rw [cons_append, length_cons, modify_succ_cons, ih, cons_append]

/-- What a section has for a dex file takes its data from `before` to `after`, unless it is not `good`. -/
def ReadsBack (read : DexFileData → Bytes → Except Failure (DexFileData × Bytes)) (write : DexFileData → Bytes)
    (before after : DexFileData → DexFileData) (good : DexFileData → Prop) (data : DexFileData) : Prop :=
  (write data = [] ∧ before data = after data ∧ good data) ∨
    ∃ bytes, write data = writeUint 2 data.profileIndex ++ bytes ∧
      ∀ tail, Yields (read (before data) (bytes ++ tail)) (after data, tail) (good data)

/-- A section that is read back file by file is read back. -/
theorem readForDexFiles_write (name : String) {read : DexFileData → Bytes → Except Failure (DexFileData × Bytes)}
    (skip : Bytes → Except Failure Bytes) {write : DexFileData → Bytes} {before after : DexFileData → DexFileData}
    {good : DexFileData → Prop} (h : profile.WF) (hlen : profile.info.length < maxProfileIndex)
    (hread : ∀ data ∈ profile.info, ReadsBack read write before after good data) (descriptors : List Str) :
    ∀ (rest done : List DexFileData) (fuel : Nat), done ++ rest = profile.info → (rest.flatMap write).length ≤ fuel →
    Yields (readForDexFiles name read skip (range profile.info.length) fuel
        ⟨profile.isForBootImage, done.map after ++ rest.map before, descriptors⟩ (rest.flatMap write))
      ⟨profile.isForBootImage, profile.info.map after, descriptors⟩ (∀ data ∈ rest, good data)
  | [], done, fuel, heq, _ => by
    rw [append_nil] at heq
    subst heq
    refine .of_ok (fun _ hd => (nomatch hd)) ?_
    unfold readForDexFiles
    rw [map_nil, append_nil]
    rfl
  | data :: rest, done, fuel, heq, hfuel => by
    have hget : profile.info[done.length]? = some data := by
      rw [← heq, getElem?_append_right (Nat.le_refl _), Nat.sub_self]
      rfl
    have hindex := (h.data _ _ hget).1
    have hlt := (List.getElem?_eq_some_iff.mp hget).1
    have hnext : (done ++ [data]) ++ rest = profile.info := by rw [append_assoc, singleton_append, heq]
    rw [forall_mem_cons]
    rw [flatMap_cons] at hfuel ⊢
    rcases hread data (mem_of_getElem? hget) with ⟨hwrite, hsame, hgood⟩ | ⟨bytes, hwrite, hyields⟩
    · have hrest := readForDexFiles_write name skip h hlen hread descriptors rest (done ++ [data]) fuel hnext
        (by rwa [hwrite] at hfuel)
      rw [hwrite, nil_append, map_cons, hsame]
      rw [map_append, map_singleton, append_assoc, singleton_append] at hrest
      exact hrest.congr (and_iff_right hgood).symm
    rw [hwrite] at hfuel ⊢
    rw [length_append, length_append, length_writeUint] at hfuel
    obtain ⟨fuel, rfl⟩ : ∃ f, fuel = f + 1 := ⟨fuel - 1, by omega⟩
    have hmore : ¬(writeUint 2 data.profileIndex ++ bytes ++ rest.flatMap write).length = 0 := by
      simp only [length_append, length_writeUint]
      omega
    have hremap : (range profile.info.length)[data.profileIndex]? = some done.length := by
      rw [hindex, getElem?_range hlt]
    have hinfo : (done.map after ++ (data :: rest).map before)[done.length]? = some (before data) := by
      rw [getElem?_append_right (by rw [length_map]), length_map, Nat.sub_self]
      rfl
    have hmodify :
        modifyData ⟨profile.isForBootImage, done.map after ++ (data :: rest).map before, descriptors⟩ done.length
          (fun _ => after data) =
        ⟨profile.isForBootImage, (done ++ [data]).map after ++ rest.map before, descriptors⟩ := by
      have hsplit := modify_length_append (done.map after) (before data) (rest.map before) fun _ => after data
      rw [length_map] at hsplit
      rw [modifyData, map_cons, hsplit, map_append, map_singleton, append_assoc, singleton_append]
    have h16 : data.profileIndex < 256 ^ 2 := by
      rw [hindex]
      exact hlt.trans (hlen.trans (by decide))
    rw [readForDexFiles, if_neg hmore, append_assoc]
    refine .after (readUint_writeUint h16 _ _) ?_
    dsimp only
    rw [hremap]
    dsimp only
    rw [if_neg (hlt.trans hlen).ne, hinfo]
    refine (hyields _).bind fun _ => ?_
    rw [hmodify]
    exact readForDexFiles_write name skip h hlen hread descriptors rest (done ++ [data]) fuel hnext (by omega)

/-! ### Sections -/

def sectionInfos (off : Nat) : List Section → List FileSectionInfo
  | [] => []
  | s :: rest => ⟨s.type, off, s.content.length, s.inflatedSize⟩ :: sectionInfos (off + s.content.length) rest

/-- The written section infos are read back. -/
theorem readSectionInfos_write : ∀ (sections : List Section) (off : Nat),
    (∀ s ∈ sections, s.type < 2 ^ 32 ∧ s.inflatedSize < 2 ^ 32) → off + (sections.flatMap (·.content)).length < 2 ^ 32 →
    readSectionInfos sections.length (writeSectionInfos off sections) = sectionInfos off sections
  | [], _, _, _ => rfl
  | s :: rest, off, hfits, hoff => by
    rw [forall_mem_cons] at hfits
    rw [flatMap_cons, length_append] at hoff
    have hrest := readSectionInfos_write rest (off + s.content.length) hfits.2 (by omega)
    have h4 : ∀ n, n < 2 ^ 32 → n < 256 ^ 4 := fun n hn => hn
    have hdrop : ∀ (k n : Nat) (bytes : Bytes), (writeUint 4 n ++ bytes).drop (4 + k) = bytes.drop k :=
      fun k n bytes => by
      rw [← drop_drop, drop_writeUint]
    rw [writeSectionInfos, length_cons, readSectionInfos, sectionInfos, sizeofFileSectionInfo]
    simp only [append_assoc, take_writeUint, drop_writeUint, hdrop 4, hdrop 8, hdrop 12,
      ofBytes_writeUint (h4 _ hfits.1.1),
      ofBytes_writeUint (h4 off (by omega)), ofBytes_writeUint (h4 s.content.length (by omega)),
      ofBytes_writeUint (h4 _ hfits.1.2), hrest]

variable {zlib : Zlib} {bytes : Bytes}

theorem compressedSection_eq_some {type size : Nat} {sections : List Section}
    (h : compressedSection zlib type size bytes = some sections) :
    size = 0 ∧ sections = [] ∨ size ≠ 0 ∧ bytes.length = size ∧
      ∃ content, zlib.deflate bytes = some content ∧ sections = [⟨type, content, size⟩] := by
  unfold compressedSection at h
  split_ifs at h with hzero
  · cases h
    exact .inl ⟨hzero, rfl⟩
  obtain ⟨buffer, hbuffer, h⟩ := Option.bind_eq_some_iff.mp h
  obtain ⟨content, hcontent, h⟩ := Option.bind_eq_some_iff.mp h
  cases h
  unfold fillBuffer at hbuffer
  split_ifs at hbuffer with hlen
  cases hbuffer
  exact .inr ⟨hzero, hlen, content, hcontent, rfl⟩

theorem readAt_of_drop {content : Bytes} (h : file.drop off = content ++ tail) (stage : String) :
    readAt file off content.length stage = .ok content := by
  have hlen := congrArg length h
  rw [length_drop, length_append] at hlen
  have hin : content.length = 0 ∨ off + content.length ≤ file.length := by omega
  rw [readAt, if_pos hin, h, take_left]

theorem readSectionData_compressed (hz : zlib.Lossless) {type : Nat} {bytes content : Bytes}
    (hbytes : bytes.length ≠ 0) (hcontent : zlib.deflate bytes = some content) (h : file.drop off = content ++ tail) :
    readSectionData zlib file ⟨type, off, content.length, bytes.length⟩ = .ok bytes := by
  rw [readSectionData, readAt_of_drop h]
  simp only [Lib.ok_bind, if_neg hbytes, hz.inflate_deflate _ _ hcontent]

theorem drop_section {s : Section} {rest : List Section} (h : file.drop off = (s :: rest).flatMap (·.content)) :
    file.drop (off + s.content.length) = rest.flatMap (·.content) := by
  rw [← drop_drop, h, flatMap_cons, drop_left]

/-- The profile with the data that its sections have given so far. -/
abbrev mapInfo (profile : ProfileCompilationInfo) (f : DexFileData → DexFileData) : ProfileCompilationInfo :=
  { profile with info := profile.info.map f }

/-- Read the sections from `off` on, when all dex files have been read and no index changes. -/
abbrev readRest (context : LoadContext) (file : Bytes) (profile : ProfileCompilationInfo) (off : Nat)
    (sections : List Section) :
    ProfileCompilationInfo → Except Failure ProfileCompilationInfo :=
  readSections context file true (range profile.info.length) (sectionInfos off sections)
    (range profile.extraDescriptors.length)

section Load

variable {sections rest : List Section} (h : profile.WF) (hz : context.zlib.Lossless)

include h hz

/-- The section of the extra descriptors is read back. -/
theorem readSections_extraDescriptors
    (hvalid : ∀ d ∈ profile.extraDescriptors, context.isValidDescriptor d = true ∧ 0 ∉ d)
    (hsections : compressedSection context.zlib kExtraDescriptors profile.extraDescriptorsSectionSize
      profile.writeExtraDescriptors = some sections)
    (hfile : file.drop off = (sections ++ rest).flatMap (·.content)) (boot : Bool) (info : List DexFileData) :
    ∃ off', file.drop off' = rest.flatMap (·.content) ∧
      readSections context file true (range profile.info.length) (sectionInfos off (sections ++ rest)) []
        ⟨boot, info, []⟩ =
        readRest context file profile off' rest ⟨boot, info, profile.extraDescriptors⟩ := by
  rcases compressedSection_eq_some hsections with ⟨hzero, rfl⟩ | ⟨hsize, hlen, content, hcontent, rfl⟩
  · have hnil : profile.extraDescriptors = [] := by
      unfold extraDescriptorsSectionSize at hzero
      split_ifs at hzero with hempty
      · exact isEmpty_iff.mp hempty
      · omega
    unfold readRest
    rw [hnil]
    exact ⟨off, hfile, rfl⟩
  · refine ⟨off + content.length, drop_section hfile, ?_⟩
    have hcount : profile.extraDescriptors.length < 256 ^ 2 := h.descriptors_le.trans_lt (by decide)
    have hread : readExtraDescriptorsSection context file
        ⟨kExtraDescriptors, off, content.length, profile.extraDescriptorsSectionSize⟩ ⟨boot, info, []⟩ [] =
        .ok (⟨boot, info, profile.extraDescriptors⟩, range profile.extraDescriptors.length) := by
      have hall := readExtraDescriptors_write h hvalid boot info [] profile.extraDescriptors [] rfl
      rw [append_nil, length_nil] at hall
      rw [readExtraDescriptorsSection, ← hlen, readSectionData_compressed hz (hlen ▸ hsize) hcontent hfile]
      rw [Lib.ok_bind, writeExtraDescriptors, readUint_writeUint hcount]
      simp only [Lib.ok_bind, hall, nil_append, range_eq_range']
      rfl
    rw [singleton_append, sectionInfos, readSections]
    dsimp only
    rw [if_neg (by decide), if_pos rfl, hread]
    rfl

omit hz in
theorem classesDataSize_eq {data : DexFileData} (hdata : data ∈ profile.info) :
    data.classesDataSize = data.writeClasses.length ∧ (data.classesDataSize = 0 → data.classSet = .empty) := by
  have hsize := (h.of_mem hdata).size_classSet_lt
  unfold DexFileData.classesDataSize DexFileData.writeClasses
  split_ifs with hempty
  · exact ⟨rfl, fun _ => OrderedMap.ext (isEmpty_iff.mp hempty)⟩
  · simp only [length_append, length_writeUint, length_writeClassSet, OrderedMap.length_keys]
    exact ⟨by omega, fun hzero => by omega⟩

/-- The section of the classes is read back. -/
theorem readSections_classes (hlt : profile.info.length < maxProfileIndex)
    (hsections : compressedSection context.zlib kClasses profile.classesSectionSize
      (profile.info.flatMap (·.writeClasses)) = some sections)
    (hfile : file.drop off = (sections ++ rest).flatMap (·.content)) :
    ∃ off', file.drop off' = rest.flatMap (·.content) ∧
      readRest context file profile off (sections ++ rest) (profile.mapInfo (·.created)) =
        readRest context file profile off' rest (profile.mapInfo (·.withoutMethods)) := by
  rcases compressedSection_eq_some hsections with ⟨hzero, rfl⟩ | ⟨hsize, hlen, content, hcontent, rfl⟩
  · have hmap : profile.info.map (·.created) = profile.info.map (·.withoutMethods) := by
      refine map_congr_left fun data hdata => ?_
      have hnone : data.classesDataSize = 0 := sum_eq_zero_iff.mp hzero _ (mem_map_of_mem hdata)
      have hclasses := (classesDataSize_eq h hdata).2 hnone
      rw [DexFileData.created, DexFileData.withoutMethods, hclasses]
    rw [mapInfo, hmap]
    exact ⟨off, hfile, rfl⟩
  · refine ⟨off + content.length, drop_section hfile, ?_⟩
    have hread : ∀ data ∈ profile.info, ReadsBack (·.readClasses (range profile.extraDescriptors.length))
        (·.writeClasses) (·.created) (·.withoutMethods) (fun _ => True) data := by
      intro data hdata
      unfold ReadsBack DexFileData.writeClasses
      dsimp only
      split_ifs with hempty
      · have hclasses : data.classSet = .empty := OrderedMap.ext (isEmpty_iff.mp hempty)
        exact .inl ⟨rfl, by rw [DexFileData.created, DexFileData.withoutMethods, hclasses], trivial⟩
      · exact .inr ⟨_, append_assoc .., fun tail => .of_ok trivial
          (DexFileData.readClasses_write (h.of_mem hdata) data.created rfl rfl tail)⟩
    have hall :=
      (readForDexFiles_write "classes" DexFileData.skipClasses h hlt hread profile.extraDescriptors profile.info [] _
      rfl (Nat.le_refl _)).1 fun _ _ => trivial
    have hmore : profile.info ≠ [] := fun hnil => hsize (by rw [classesSectionSize, hnil]; rfl)
    rw [readRest, singleton_append, sectionInfos, readSections]
    dsimp only
    rw [if_neg (by decide), if_neg (by decide), if_pos ⟨rfl, by simpa using hmore, rfl⟩, readClassesSection, ← hlen,
      readSectionData_compressed hz (hlen ▸ hsize) hcontent hfile]
    exact congrArg (· >>= _) hall

omit hz in
theorem methodsDataSize_eq (hlen : (profile.info.flatMap (·.writeMethods)).length = profile.methodsSectionSize)
    {data : DexFileData} (hdata : data ∈ profile.info) (hsize : data.methodsDataSize ≠ 0) :
    data.methodsDataSize = data.methodsDataLength := by
  have hle : ∀ d ∈ profile.info, d.methodsDataSize ≤ d.writeMethods.length := by
    intro d hd
    by_cases hzero : d.methodsDataSize = 0
    · exact hzero ▸ Nat.zero_le _
    · rw [(h.of_mem hd).length_writeMethods hzero]
      exact d.methodsDataSize_le
  rw [← (h.of_mem hdata).length_writeMethods hsize]
  refine le_antisymm (hle data hdata) (not_lt.mp fun hlt => ?_)
  have hsum := sum_lt_sum (fun d : DexFileData => d.methodsDataSize) (fun d => d.writeMethods.length) hle
    ⟨data, hdata, hlt⟩
  rw [length_flatMap, methodsSectionSize] at hlen
  exact absurd hlen hsum.ne'

/-- The section of the methods is read back. -/
theorem readSections_methods (hlt : profile.info.length < maxProfileIndex)
    (hsections : compressedSection context.zlib kMethods profile.methodsSectionSize
      (profile.info.flatMap (·.writeMethods)) = some sections)
    (hfile : file.drop off = sections.flatMap (·.content)) :
    Yields (readRest context file profile off sections (profile.mapInfo (·.withoutMethods)))
    (profile.mapInfo (·.restored))
      (∀ data ∈ profile.info, data.methodsDataSize ≠ 0 → ∀ e ∈ data.methodMap.entries, e.2.size < 2 ^ 16) := by
  rcases compressedSection_eq_some hsections with ⟨hzero, rfl⟩ | ⟨hsize, hlen, content, hcontent, rfl⟩
  · have hnone : ∀ data ∈ profile.info, data.methodsDataSize = 0 := fun data hdata =>
      sum_eq_zero_iff.mp hzero _ (mem_map_of_mem hdata)
    have hmap : profile.info.map (·.withoutMethods) = profile.info.map (·.restored) :=
      map_congr_left fun data hdata => (if_pos (hnone data hdata)).symm
    rw [mapInfo, hmap]
    exact .of_ok (fun data hdata hsome => absurd (hnone data hdata) hsome) rfl
  have hread : ∀ data ∈ profile.info, ReadsBack (·.readMethods (range profile.extraDescriptors.length))
      (·.writeMethods) (·.withoutMethods) (·.restored)
      (fun data => data.methodsDataSize ≠ 0 → ∀ e ∈ data.methodMap.entries, e.2.size < 2 ^ 16) data := by
    intro data hdata
    unfold ReadsBack DexFileData.writeMethods DexFileData.restored
    dsimp only
    split_ifs with hsome
    · exact .inl ⟨rfl, rfl, fun hne => absurd hsome hne⟩
    · refine .inr ⟨_, by simp only [append_assoc]; rfl, fun tail => ?_⟩
      have hyields := DexFileData.readMethods_write (h.of_mem hdata) (methodsDataSize_eq h hlen hdata hsome) tail
      exact hyields.congr (imp_iff_right hsome).symm
  have hall :=
    readForDexFiles_write "methods" DexFileData.skipMethods h hlt hread profile.extraDescriptors profile.info [] _
    rfl (Nat.le_refl _)
  have hmore : profile.info ≠ [] := fun hnil => hsize (by rw [methodsSectionSize, hnil]; rfl)
  have hfile' : file.drop off = content ++ [] := hfile
  rw [readRest, sectionInfos, readSections]
  dsimp only
  rw [if_neg (by decide), if_neg (by decide), if_neg (fun hc => absurd hc.1 (by decide)),
    if_pos ⟨rfl, by simpa using hmore⟩,
    readMethodsSection, ← hlen, readSectionData_compressed hz (hlen ▸ hsize) hcontent hfile']
  exact hall.then_ok rfl

end Load

/-! ### The file -/

theorem length_writeSectionInfos (sections : List Section) (off : Nat) :
    (writeSectionInfos off sections).length = sections.length * sizeofFileSectionInfo := by
  induction sections generalizing off with
  | nil => exact (Nat.zero_mul _).symm
  | cons s rest ih =>
    simp only [writeSectionInfos, length_append, length_writeUint, ih, length_cons, sizeofFileSectionInfo]
    omega

theorem addMemSizes_sectionInfos (sections : List Section) (size off : Nat)
    (h : size + (sections.map Section.getMemSize).sum < 2 ^ 32) :
    addMemSizes size (sectionInfos off sections) = .ok (size + (sections.map Section.getMemSize).sum) := by
  induction sections generalizing size off with
  | nil => rfl
  | cons s rest ih =>
    rw [map_cons, sum_cons] at h ⊢
    have hmem : (⟨s.type, off, s.content.length, s.inflatedSize⟩ : FileSectionInfo).getMemSize = s.getMemSize := rfl
    rw [sectionInfos, addMemSizes, hmem, if_neg (by omega), ih _ _ (by omega), Nat.add_assoc]

theorem compressedSection_sizes (hz : zlib.Lossless) {type size : Nat} {sections : List Section}
    (h : compressedSection zlib type size bytes = some sections) :
    sections.length = (if size ≠ 0 then 1 else 0) ∧ (sections.map Section.getMemSize).sum = size ∧
      (sections.flatMap (·.content)).length ≤ 2 * size + 64 ∧
      ∀ s ∈ sections, s.type = type ∧ s.inflatedSize = size := by
  rcases compressedSection_eq_some h with ⟨rfl, rfl⟩ | ⟨hsize, hlen, content, hcontent, rfl⟩
  · exact ⟨rfl, rfl, Nat.zero_le _, fun _ hs => nomatch hs⟩
  have hle := hz.length_deflate_le _ _ hcontent
  rw [hlen] at hle
  refine ⟨(if_pos hsize).symm, ?_, ?_, ?_⟩
  · rw [map_singleton, sum_singleton, Section.getMemSize, if_pos hsize]
  · rwa [flatMap_singleton]
  · rw [forall_mem_singleton]
    exact ⟨rfl, rfl⟩

def fileOf (profile : ProfileCompilationInfo) (sections : List Section) : Bytes :=
  kProfileMagic ++ profile.version ++ writeUint 4 sections.length ++
    writeSectionInfos profile.headerAndInfosSize sections ++
    sections.flatMap (·.content)

/-- The sections that are saved behind the one with the dex files. -/
structure SavedAs (profile : ProfileCompilationInfo) (zlib : Zlib) (extraDescriptors classes methods : List Section) :
    Prop where
  keys : ∀ data ∈ profile.info, data.profileKey.length ≤ kMaxDexFileKeyLength
  total : profile.totalUncompressedSize ≤ profile.getSizeErrorThresholdBytes
  dexFiles : profile.writeDexFiles.length = profile.dexFilesSectionSize
  extraDescriptors : compressedSection zlib kExtraDescriptors profile.extraDescriptorsSectionSize
    profile.writeExtraDescriptors = some extraDescriptors
  classes : compressedSection zlib kClasses profile.classesSectionSize (profile.info.flatMap (·.writeClasses)) =
    some classes
  methods : compressedSection zlib kMethods profile.methodsSectionSize (profile.info.flatMap (·.writeMethods)) =
    some methods

/-- A saved file is the header, the section infos and the sections. -/
theorem save_eq_some (h : profile.save zlib = some bytes) :
    ∃ extraDescriptors classes methods, profile.SavedAs zlib extraDescriptors classes methods ∧
      bytes = profile.fileOf (⟨kDexFiles, profile.writeDexFiles, 0⟩ :: (extraDescriptors ++ (classes ++ methods))) := by
  unfold save at h
  split_ifs at h with hkeys hsize
  obtain ⟨sections, hsections, hbytes⟩ := Option.bind_eq_some_iff.mp h
  obtain ⟨dexFiles, hdexFiles, hrest₁⟩ := Option.bind_eq_some_iff.mp hsections
  obtain ⟨extraDescriptors, hextra, hrest₂⟩ := Option.bind_eq_some_iff.mp hrest₁
  obtain ⟨classes, hclasses, hrest₃⟩ := Option.bind_eq_some_iff.mp hrest₂
  obtain ⟨methods, hmethods, hrest₄⟩ := Option.bind_eq_some_iff.mp hrest₃
  unfold fillBuffer at hdexFiles
  split_ifs at hdexFiles with hlen
  cases hdexFiles
  cases hrest₄
  cases hbytes
  push Not at hkeys
  exact ⟨extraDescriptors, classes, methods, ⟨hkeys, not_lt.mp hsize, hlen, hextra, hclasses, hmethods⟩,
    by simp only [fileOf, append_assoc]⟩

theorem readDexFilesSection_tooMany (hlen : profile.info.length = maxProfileIndex)
    (hfile : file.drop off = profile.writeDexFiles ++ tail) (loaded : ProfileCompilationInfo) :
    readDexFilesSection context file ⟨kDexFiles, off, profile.writeDexFiles.length, 0⟩ loaded =
      badData "Too many dex files." := by
  rw [readDexFilesSection, readSectionData, readAt_of_drop hfile]
  simp only [Lib.ok_bind, if_true]
  rw [writeDexFiles, readUint_writeUint (hlen ▸ by decide), Lib.ok_bind]
  exact if_pos hlen.ge

/-- The section of the dex files is read back. -/
theorem readDexFilesSection_write (h : profile.WF) (hfilter : ∀ key checksum, context.filter key checksum = true)
    (hkeys : ∀ data ∈ profile.info, data.profileKey ≠ [] ∧ data.profileKey.length ≤ kMaxDexFileKeyLength)
    (hfile : file.drop off = profile.writeDexFiles ++ tail) :
    Yields (readDexFilesSection context file ⟨kDexFiles, off, profile.writeDexFiles.length, 0⟩
      (.empty profile.isForBootImage))
      (⟨profile.isForBootImage, profile.info.map (·.created), []⟩, range profile.info.length)
      (profile.info.length < maxProfileIndex ∧ ∀ data ∈ profile.info, 0 ∉ data.profileKey) := by
  by_cases hlt : profile.info.length < maxProfileIndex
  · have hcount : profile.info.length < 256 ^ 2 := h.size.trans_lt (by decide)
    have hbuffer : readSectionData context.zlib file ⟨kDexFiles, off, profile.writeDexFiles.length, 0⟩ =
        .ok profile.writeDexFiles := by
      rw [readSectionData, readAt_of_drop hfile]
      rfl
    refine .after hbuffer (.after (readUint_writeUint hcount _ _) ?_)
    dsimp only
    have hall := readDexFiles_write h hfilter hkeys [] profile.info [] rfl
    rw [append_nil] at hall
    rw [if_neg (not_le.mpr hlt)]
    refine (hall.then_ok ?_).congr (and_iff_right hlt).symm
    rw [range_eq_range']
    rfl
  · exact .of_error (fun hand => hlt hand.1)
      ⟨_, readDexFilesSection_tooMany (le_antisymm h.size (not_lt.mp hlt)) hfile _⟩

theorem length_version (profile : ProfileCompilationInfo) : profile.version.length = 4 := by
  unfold version
  split_ifs <;> rfl

/-- Sections of a size that can be read. -/
structure SectionsFit (profile : ProfileCompilationInfo) (sections : List Section) : Prop where
  count : sections.length = profile.fileSectionCount
  fits : ∀ s ∈ sections, s.type < 2 ^ 32 ∧ s.inflatedSize < 2 ^ 32
  content : profile.headerAndInfosSize + (sections.flatMap (·.content)).length < 2 ^ 32
  memSize : profile.headerAndInfosSize + (sections.map Section.getMemSize).sum ≤ profile.getSizeErrorThresholdBytes

/-- The load of a file finds its sections. -/
theorem loadInternal_fileOf {first : Section} {rest : List Section} (hfit : profile.SectionsFit (first :: rest))
    (htype : first.type = kDexFiles) (hfile : file = profile.fileOf (first :: rest)) :
    file.drop profile.headerAndInfosSize = (first :: rest).flatMap (·.content) ∧
    loadInternal context file true (.empty profile.isForBootImage) = (do
      let (loaded, dexRemap) ← (empty profile.isForBootImage).readDexFilesSection context file
        ⟨kDexFiles, profile.headerAndInfosSize, first.content.length, first.inflatedSize⟩
      readSections context file true dexRemap (sectionInfos (profile.headerAndInfosSize + first.content.length) rest) []
        loaded) := by
  obtain ⟨hn, hfits, hcontent, hmem⟩ := hfit
  have hcount : profile.fileSectionCount ≤ 4 := by
    unfold fileSectionCount
    split_ifs <;> omega
  have hoff : sizeofFileHeader + profile.fileSectionCount * sizeofFileSectionInfo = profile.headerAndInfosSize := rfl
  have hversion := length_version profile
  have hthreshold : profile.getSizeErrorThresholdBytes < 2 ^ 32 := by
    unfold getSizeErrorThresholdBytes
    split_ifs <;> decide
  have hsame : (empty profile.isForBootImage).version = profile.version := rfl
  have hsame' : (empty profile.isForBootImage).getSizeErrorThresholdBytes = profile.getSizeErrorThresholdBytes := rfl
  have hpos : profile.fileSectionCount ≠ 0 := by
    rw [← hn]
    exact Nat.succ_ne_zero _
  obtain ⟨header, hheader⟩ : ∃ header, header = kProfileMagic ++ profile.version ++
    writeUint 4 profile.fileSectionCount := ⟨_, rfl⟩
  rw [fileOf, hn, ← hheader, append_assoc] at hfile
  have hlen : header.length = sizeofFileHeader := by
    simp only [hheader, length_append, length_writeUint, hversion]
    rfl
  have hinfos : (writeSectionInfos profile.headerAndInfosSize (first :: rest)).length =
      profile.fileSectionCount * sizeofFileSectionInfo := by
    rw [length_writeSectionInfos, hn]
  have hdropInfos : file.drop sizeofFileHeader =
      writeSectionInfos profile.headerAndInfosSize (first :: rest) ++ (first :: rest).flatMap (·.content) := by
    rw [← hlen, hfile, drop_left]
  have hread := readAt_of_drop (drop_zero.trans hfile) "ReadProfileHeader"
  have hreadInfos := readAt_of_drop hdropInfos "ReadSectionInfos"
  rw [hlen] at hread
  rw [hinfos] at hreadInfos
  have hne : file.length ≠ 0 := by
    rw [hfile, length_append, hlen]
    exact Nat.ne_of_gt (Nat.lt_add_right _ (by decide))
  have hmagic : header.take 4 = kProfileMagic := by
    rw [hheader]
    rfl
  have hver : (header.drop 4).take 4 = profile.version := by
    rw [hheader, append_assoc, show (4 : Nat) = kProfileMagic.length from rfl, drop_left]
    exact take_left' hversion
  have hsections : ofBytes (header.drop 8) = profile.fileSectionCount := by
    rw [hheader, drop_left' (by rw [length_append, hversion]; rfl), ofBytes_writeUint (by omega)]
  have hmax : profile.fileSectionCount ≤ kMaxFileSectionCount := by
    unfold kMaxFileSectionCount sizeofFileHeader sizeofFileSectionInfo
    omega
  have hknown : profile.version = kProfileVersion ∨ profile.version = kProfileVersionForBootImage := by
    unfold version
    split_ifs <;> simp
  have hvalid : FileHeader.isValid ⟨kProfileMagic, profile.version, profile.fileSectionCount⟩ = true := by
    simp [FileHeader.isValid, hknown, hpos, hmax]
  have hall := readSectionInfos_write (first :: rest) _ hfits hcontent
  rw [hn] at hall
  refine ⟨by rw [← hoff, ← drop_drop, hdropInfos, ← hinfos, drop_left], ?_⟩
  unfold loadInternal
  rw [if_neg hne, hread]
  simp only [Lib.ok_bind, hmagic, hver, hsections, hsame, hsame', hvalid, Bool.not_true, Bool.false_eq_true, ne_eq,
    not_true_eq_false, if_false, hoff]
  rw [if_neg (by omega), hreadInfos]
  simp only [Lib.ok_bind, hall, addMemSizes_sectionInfos (first :: rest) _ _ (hmem.trans_lt hthreshold)]
  rw [if_neg (not_lt.mpr hmem), sectionInfos]
  dsimp only
  rw [htype, if_neg (not_not.mpr rfl)]

/-- The sections of a saved file fit the fields that describe them. -/
theorem SavedAs.fit {extraDescriptors classes methods : List Section} (hz : zlib.Lossless)
    (h : profile.SavedAs zlib extraDescriptors classes methods) :
    profile.SectionsFit (⟨kDexFiles, profile.writeDexFiles, 0⟩ :: (extraDescriptors ++ (classes ++ methods))) := by
  obtain ⟨-, htotal, hlen, hextra, hclasses, hmethods⟩ := h
  obtain ⟨hcount₁, hmem₁, hcontent₁, hfits₁⟩ := compressedSection_sizes hz hextra
  obtain ⟨hcount₂, hmem₂, hcontent₂, hfits₂⟩ := compressedSection_sizes hz hclasses
  obtain ⟨hcount₃, hmem₃, hcontent₃, hfits₃⟩ := compressedSection_sizes hz hmethods
  have hthreshold : profile.getSizeErrorThresholdBytes ≤ 100000000 := by
    unfold getSizeErrorThresholdBytes
    split_ifs <;> decide
  unfold totalUncompressedSize at htotal
  constructor
  · rw [length_cons, length_append, length_append, hcount₁, hcount₂, hcount₃, fileSectionCount]
    omega
  · rw [forall_mem_cons, forall_mem_append, forall_mem_append]
    refine ⟨⟨Nat.two_pow_pos _, Nat.two_pow_pos _⟩, fun s hs => ?_, fun s hs => ?_, fun s hs => ?_⟩
    · rw [(hfits₁ s hs).1, (hfits₁ s hs).2]
      exact ⟨by decide, by omega⟩
    · rw [(hfits₂ s hs).1, (hfits₂ s hs).2]
      exact ⟨by decide, by omega⟩
    · rw [(hfits₃ s hs).1, (hfits₃ s hs).2]
      exact ⟨by decide, by omega⟩
  · rw [flatMap_cons, flatMap_append, flatMap_append, length_append, length_append, length_append, hlen]
    omega
  · have hfirst : Section.getMemSize ⟨kDexFiles, profile.writeDexFiles, 0⟩ = profile.writeDexFiles.length := rfl
    rw [map_cons, sum_cons, map_append, sum_append, map_append, sum_append, hmem₁, hmem₂, hmem₃, hfirst, hlen]
    omega

/-- Loading a saved file gives the profile as it was read back. -/
theorem loadInternal_save (h : profile.WF) (hz : context.zlib.Lossless)
    (hfilter : ∀ key checksum, context.filter key checksum = true)
    (hvalid : ∀ d ∈ profile.extraDescriptors, context.isValidDescriptor d = true ∧ 0 ∉ d)
    (hkeys : ∀ data ∈ profile.info, data.profileKey ≠ []) (hsave : profile.save context.zlib = some file) :
    Yields (loadInternal context file true (.empty profile.isForBootImage))
      (profile.mapInfo (·.restored))
      ((profile.info.length < maxProfileIndex ∧ ∀ data ∈ profile.info, 0 ∉ data.profileKey) ∧
        ∀ data ∈ profile.info, data.methodsDataSize ≠ 0 → ∀ e ∈ data.methodMap.entries, e.2.size < 2 ^ 16) := by
  obtain ⟨extraDescriptors, classes, methods, hsaved, hfile⟩ := save_eq_some hsave
  obtain ⟨hdrop, hload⟩ := loadInternal_fileOf (hsaved.fit hz) rfl hfile
  have hdex := readDexFilesSection_write h hfilter (fun data hdata => ⟨hkeys data hdata, hsaved.keys data hdata⟩) hdrop
  rw [hload]
  refine hdex.bind fun hgood => ?_
  dsimp only
  obtain ⟨off₁, hdrop₁, heq₁⟩ := readSections_extraDescriptors h hz hvalid hsaved.extraDescriptors
    (drop_section hdrop) profile.isForBootImage (profile.info.map (·.created))
  obtain ⟨off₂, hdrop₂, heq₂⟩ := readSections_classes h hz hgood.1 hsaved.classes hdrop₁
  rw [heq₁, heq₂]
  exact readSections_methods h hz hgood.1 hsaved.methods hdrop₂

/-! ### The round trip -/

/-- What a saved profile must be like to be loaded as it was. -/
structure Loadable (profile : ProfileCompilationInfo) : Prop where
  /-- `GetOrAddDexFileData` accepts one dex file more than `ReadDexFilesSection`. -/
  fewDexFiles : profile.info.length < maxProfileIndex
  /-- `ReadStringAndAdvance` does not accept a null character. -/
  keys : ∀ data ∈ profile.info, 0 ∉ data.profileKey
  /-- The number of dex pcs of an inline cache is written with 16 bits. -/
  dexPcs : ∀ data ∈ profile.info, ∀ e ∈ data.methodMap.entries, e.2.size < 2 ^ 16
  /-- The size of the methods is a number of 32 bits, and 0 if there are no methods. -/
  methods : ∀ data ∈ profile.info, data.methodsDataSize = 0 → data.methodFlags = 0

theorem loadBitmap_zero (numMethodIds saved bitmap : Nat) (flags : List Nat) :
    DexFileData.loadBitmap numMethodIds 0 flags saved bitmap = bitmap := by
  induction flags with
  | nil => rfl
  | cons flag flags ih => rw [DexFileData.loadBitmap, Nat.zero_testBit, if_neg Bool.false_ne_true, ih]

theorem methodFlags_eq_zero {data : DexFileData} {extra : Nat} (h : data.WF extra) :
    data.methodFlags = 0 ↔ data.methodMap = .empty ∧ data.methodBitmap = 0 := by
  constructor
  · intro hflags
    have hzero := data.testBit_methodFlags_zero
    have hbitmap := h.loadBitmap_bytes
    rw [hflags, Nat.zero_testBit, eq_comm, Bool.not_eq_false', List.isEmpty_iff] at hzero
    rw [hflags, loadBitmap_zero] at hbitmap
    exact ⟨OrderedMap.ext hzero, hbitmap.symm⟩
  · rintro ⟨hmap, hbitmap⟩
    rw [DexFileData.methodFlags, if_pos (by rw [hmap]; rfl)]
    refine Nat.eq_of_testBit_eq fun j => ?_
    rw [Nat.zero_testBit, ← Bool.not_eq_true, DexFileData.testBit_getUsedBitmapFlags, DexFileData.flagBits, hbitmap,
      Nat.zero_shiftRight, Nat.zero_mod]
    exact fun hj => hj.2 rfl

theorem equals_map (profile : ProfileCompilationInfo) (f : DexFileData → DexFileData) :
    profile.equals (profile.mapInfo f) = true ↔
      ∀ data ∈ profile.info, data.checksum = (f data).checksum ∧ data.numMethodIds = (f data).numMethodIds ∧
        data.methodMap = (f data).methodMap ∧ data.classSet = (f data).classSet ∧
        data.methodBitmap = (f data).methodBitmap := by
  have hzip : profile.info.zip (profile.info.map f) = profile.info.map fun data => (data, f data) := by
    have hmap := zip_map' (f := id) (g := f) (l := profile.info)
    rwa [map_id] at hmap
  rw [equals, hzip]
  simp [and_assoc]

/-- A profile that can be saved is loaded from the file as it was, if and only if it is `Loadable`. -/
theorem load_save_iff {isForBootImage : Bool} (hbuilt : Built isForBootImage profile) (hz : context.zlib.Lossless)
    (hfilter : ∀ key checksum, context.filter key checksum = true)
    (hvalid : ∀ d ∈ profile.extraDescriptors, context.isValidDescriptor d = true ∧ 0 ∉ d)
    (hkeys : ∀ data ∈ profile.info, data.profileKey ≠ []) (hsave : profile.save context.zlib = some file) :
    (∃ loaded, loadInternal context file true (.empty isForBootImage) = .ok loaded ∧ profile.equals loaded = true) ↔
      profile.Loadable := by
  obtain ⟨h, rfl⟩ := hbuilt.wf
  obtain ⟨hok, herror⟩ := loadInternal_save h hz hfilter hvalid hkeys hsave
  constructor
  · rintro ⟨loaded, hload, hequals⟩
    have hgood := not_not.mp fun hbad => by
      obtain ⟨e, he⟩ := herror hbad
      exact nomatch hload.symm.trans he
    obtain rfl := Except.ok.inj (hload.symm.trans (hok hgood))
    rw [equals_map] at hequals
    -- Where no methods are written there were none.
    have hnone : ∀ data ∈ profile.info, data.methodsDataSize = 0 → data.methodMap = .empty ∧ data.methodBitmap = 0 := by
      intro data hdata hzero
      have hsame := hequals data hdata
      rw [DexFileData.restored, if_pos hzero] at hsame
      exact ⟨hsame.2.2.1, hsame.2.2.2.2⟩
    refine ⟨hgood.1.1, hgood.1.2, fun data hdata => ?_, fun data hdata hzero =>
      (methodFlags_eq_zero (h.of_mem hdata)).mpr (hnone data hdata hzero)⟩
    by_cases hzero : data.methodsDataSize = 0
    · rw [(hnone data hdata hzero).1]
      exact fun _ he => nomatch he
    · exact hgood.2 data hdata hzero
  · intro hl
    refine ⟨_, hok ⟨⟨hl.fewDexFiles, hl.keys⟩, fun data hdata _ => hl.dexPcs data hdata⟩,
      (equals_map _ _).mpr fun data hdata => ?_⟩
    have hsame : data.restored = data := by
      unfold DexFileData.restored
      split_ifs with hzero
      · obtain ⟨hmap, hbitmap⟩ := (methodFlags_eq_zero (h.of_mem hdata)).mp (hl.methods data hdata hzero)
        rw [DexFileData.withoutMethods, ← hmap, ← hbitmap]
      · rfl
    rw [hsame]
    exact ⟨rfl, rfl, rfl, rfl, rfl⟩

/-- A file that stores everything uncompressed. -/
def storing : LoadContext := ⟨⟨some, fun content _ => some content⟩, fun _ => true, fun _ _ => true⟩

theorem storing_lossless : storing.zlib.Lossless where
  inflate_deflate _ _ h := by
    cases h
    rfl
  length_deflate_le _ _ h := by
    cases h
    omega

theorem load_save_iff_sample : ∃ bytes loaded, sampleOther.save storing.zlib = some bytes ∧
    loadInternal storing bytes true (.empty false) = .ok loaded ∧ sampleOther.equals loaded = true := by
  have hsome : (sampleOther.save storing.zlib).isSome = true := by decide
  obtain ⟨bytes, hbytes⟩ := Option.isSome_iff_exists.mp hsome
  obtain ⟨loaded, hloaded⟩ := (load_save_iff sampleOther_built storing_lossless (fun _ _ => rfl) (by decide)
    (by decide) hbytes).mpr ⟨by decide, by decide, by decide, by decide⟩
  exact ⟨bytes, loaded, hbytes, hloaded⟩

/-! ### Too many dex files -/

theorem length_writeDexFiles (profile : ProfileCompilationInfo) :
    profile.writeDexFiles.length = profile.dexFilesSectionSize := by
  have hfile : ∀ data : DexFileData, data.writeDexFile.length = 3 * 4 + 2 + data.profileKey.length := fun data => by
    simp only [DexFileData.writeDexFile, length_append, length_writeUint, length_writeString]
    omega
  rw [writeDexFiles, length_append, length_writeUint, length_flatMap, dexFilesSectionSize]
  simp only [hfile]

/-- The location of the dex file with this number, which has three characters. -/
def locationOf (i : Nat) : Str :=
  [UInt8.ofNat (64 + i / 4096), UInt8.ofNat (64 + i / 64 % 64), UInt8.ofNat (64 + i % 64)]

theorem locationOf_injOn {i j : Nat} (hi : i < 2 ^ 16) (hj : j < 2 ^ 16) (h : locationOf i = locationOf j) : i = j := by
  simp only [locationOf, cons.injEq, and_true] at h
  have h1 := congrArg UInt8.toNat h.1
  have h2 := congrArg UInt8.toNat h.2.1
  have h3 := congrArg UInt8.toNat h.2.2
  rw [UInt8.toNat_ofNat', UInt8.toNat_ofNat'] at h1 h2 h3
  omega

theorem getProfileDexFileAugmentedKey_locationOf {i : Nat} (hi : i < 2 ^ 16) :
    getProfileDexFileAugmentedKey (locationOf i) [] = locationOf i := by
  have hne : ∀ n, 64 ≤ n → n < 256 → UInt8.ofNat n ≠ 47 := fun n h1 h2 heq => by
    have := congrArg UInt8.toNat heq
    rw [UInt8.toNat_ofNat', Nat.mod_eq_of_lt h2] at this
    exact absurd h1 (by rw [this]; decide)
  have hall : ∀ b ∈ (locationOf i).reverse, (b != 47) = true := by
    simp only [locationOf, mem_reverse, forall_mem_cons, bne_iff_ne]
    exact ⟨hne _ (by omega) (by omega), hne _ (by omega) (by omega), hne _ (by omega) (by omega),
      fun _ hb => nomatch hb⟩
  rw [getProfileDexFileAugmentedKey, if_pos rfl, getProfileDexFileBaseKey, takeWhile_eq_self_iff.mpr hall,
    reverse_reverse]

def dexFileOf (i : Nat) : DexFile := ⟨locationOf i, 0, [], 1, by decide, by decide, Nat.one_lt_two_pow' 31⟩

/-- A boot image profile with the first dex files and nothing else. -/
def manyDexFiles (n : Nat) : ProfileCompilationInfo :=
  ⟨true, (range n).map fun i => DexFileData.create (locationOf i) 0 i 0 1 true, []⟩

theorem modify_of_getElem? {α : Type} {l : List α} {i : Nat} {a : α} (h : l[i]? = some a) :
    l.modify i (fun _ => a) = l := by
  refine ext_getElem? fun j => ?_
  rw [getElem?_modify]
  by_cases hj : i = j
  · subst hj
    rw [h]
    simp
  · simp [hj]

/-- One more dex file, added by a call. -/
theorem addMethods_manyDexFiles {n : Nat} (hn : n < maxProfileIndex) :
    (manyDexFiles n).addMethods [⟨dexFileOf n, 0, []⟩] 0 [] = some (manyDexFiles (n + 1)) := by
  have hlt : n < 2 ^ 16 := hn.trans (by decide)
  have hnew : locationOf n ∉ (manyDexFiles n).info.map (·.profileKey) := by
    rw [manyDexFiles, map_map, mem_map]
    rintro ⟨i, hi, heq⟩
    rw [mem_range] at hi
    exact hi.ne (locationOf_injOn (hi.trans hlt) hlt heq)
  have hlen : (manyDexFiles n).info.length = n := by rw [manyDexFiles, length_map, length_range]
  have hadd : (manyDexFiles n).getOrAddData (dexFileOf n) [] = some (manyDexFiles (n + 1), n) := by
    have hnew' := getOrAddDexFileData_new hnew (hlen.symm ▸ hn) 0 0 1
    rw [getOrAddData, dexFileOf]
    dsimp only [DexFile.numTypeIds, length_nil]
    rw [getProfileDexFileAugmentedKey_locationOf hlt, hnew', hlen, manyDexFiles, manyDexFiles, range_succ, map_append]
    rfl
  have hget : (manyDexFiles (n + 1)).info[n]? = some (DexFileData.create (locationOf n) 0 n 0 1 true) := by
    rw [manyDexFiles, getElem?_map, getElem?_range (Nat.lt_succ_self n)]
    rfl
  have hsame : (manyDexFiles (n + 1)).modifyData n (fun _ => DexFileData.create (locationOf n) 0 n 0 1 true) =
      manyDexFiles (n + 1) := congrArg (ProfileCompilationInfo.mk true · []) (modify_of_getElem? hget)
  have hmethod : (manyDexFiles n).addMethod ⟨dexFileOf n, 0, []⟩ 0 [] =
      some ((manyDexFiles (n + 1)).modifyData n fun _ => DexFileData.create (locationOf n) 0 n 0 1 true) := by
    rw [addMethod, hadd]
    dsimp only [Option.bind_eq_bind, Option.bind_some]
    rw [hget]
    rfl
  rw [addMethods, foldlM_cons, hmethod, hsame]
  rfl

theorem manyDexFiles_built : ∀ n ≤ maxProfileIndex, Built true (manyDexFiles n)
  | 0, _ => .empty
  | n + 1, hn => .addMethods (manyDexFiles_built n (Nat.le_of_succ_le hn))
      (fun _ hpmi => by
        rw [mem_singleton.mp hpmi]
        exact fun _ hcache => nomatch hcache)
      (addMethods_manyDexFiles hn)

/-- A profile of many dex files can be saved. -/
theorem save_manyDexFiles {n : Nat} (hn : n ≤ maxProfileIndex) :
    ∃ bytes, (manyDexFiles n).save storing.zlib = some bytes := by
  have hzero : ∀ f : DexFileData → Nat, (∀ i, f (DexFileData.create (locationOf i) 0 i 0 1 true) = 0) →
      ((manyDexFiles n).info.map f).sum = 0 := fun f hf => by
    rw [manyDexFiles, map_map]
    refine sum_eq_zero_iff.mpr fun x hx => ?_
    obtain ⟨i, -, rfl⟩ := mem_map.mp hx
    exact hf i
  have hclasses : (manyDexFiles n).classesSectionSize = 0 := hzero _ fun _ => rfl
  have hmethods : (manyDexFiles n).methodsSectionSize = 0 := hzero _ fun i =>
    if_pos ((methodFlags_eq_zero (show DexFileData.WF 0 _ from create_wf _ _ _ ⟨by decide, by decide, by decide⟩)).mpr
      ⟨rfl, rfl⟩)
  have hextra : (manyDexFiles n).extraDescriptorsSectionSize = 0 := rfl
  have hdexFiles : (manyDexFiles n).dexFilesSectionSize = 2 + n * 17 := by
    rw [dexFilesSectionSize, manyDexFiles, map_map]
    refine congrArg (2 + ·) ?_
    have hconst : (range n).map ((fun data : DexFileData => 3 * 4 + 2 + data.profileKey.length) ∘
        fun i => DexFileData.create (locationOf i) 0 i 0 1 true) = replicate n 17 := by
      rw [eq_replicate_iff, length_map, length_range]
      refine ⟨rfl, fun x hx => ?_⟩
      obtain ⟨i, -, rfl⟩ := mem_map.mp hx
      rfl
    rw [hconst, sum_replicate_nat]
  have hkeys : ¬∃ data ∈ (manyDexFiles n).info, data.profileKey.length > kMaxDexFileKeyLength := by
    rintro ⟨data, hdata, hlong⟩
    obtain ⟨i, -, rfl⟩ := mem_map.mp hdata
    exact absurd (show 3 > kMaxDexFileKeyLength from hlong) (by decide)
  have htotal : ¬(manyDexFiles n).totalUncompressedSize > (manyDexFiles n).getSizeErrorThresholdBytes := by
    have hthreshold : (manyDexFiles n).getSizeErrorThresholdBytes = 100000000 := rfl
    have hheader : (manyDexFiles n).headerAndInfosSize = 28 := by
      rw [headerAndInfosSize, fileSectionCount, hextra, hclasses, hmethods]
      rfl
    unfold maxProfileIndex at hn
    rw [totalUncompressedSize, hthreshold, hheader, hextra, hclasses, hmethods, hdexFiles]
    omega
  rw [save, if_neg hkeys, if_neg htotal, saveSections, fillBuffer, if_pos (length_writeDexFiles _), hextra, hclasses,
    hmethods]
  exact ⟨_, rfl⟩

theorem profileKey_manyDexFiles (n : Nat) : ∀ data ∈ (manyDexFiles n).info, data.profileKey ≠ [] := by
  intro data hdata
  obtain ⟨i, -, rfl⟩ := mem_map.mp hdata
  exact cons_ne_nil _ _

theorem load_manyDexFiles {n : Nat} (hn : n = maxProfileIndex) :
    ∃ bytes, (manyDexFiles n).save storing.zlib = some bytes ∧
    loadInternal storing bytes true (.empty true) = .error (.status .badData "Too many dex files.") := by
  have hlen : (manyDexFiles n).info.length = maxProfileIndex := by
    rw [manyDexFiles, length_map, length_range, hn]
  obtain ⟨bytes, hsave⟩ := save_manyDexFiles hn.le
  obtain ⟨extraDescriptors, classes, methods, hsaved, hfile⟩ := save_eq_some hsave
  obtain ⟨hdrop, hload⟩ := loadInternal_fileOf (hsaved.fit storing_lossless) rfl hfile
  refine ⟨bytes, hsave, hload.trans ?_⟩
  rw [readDexFilesSection_tooMany hlen hdrop]
  rfl

/-- A boot image profile with as many dex files as `GetOrAddDexFileData` accepts is saved, but not loaded. -/
theorem manyDexFiles_not_loaded : Built true (manyDexFiles maxProfileIndex) ∧
    (∀ data ∈ (manyDexFiles maxProfileIndex).info, data.profileKey ≠ []) ∧
    (manyDexFiles maxProfileIndex).extraDescriptors = [] ∧ ∃ bytes,
      (manyDexFiles maxProfileIndex).save storing.zlib = some bytes ∧
      loadInternal storing bytes true (.empty true) = .error (.status .badData "Too many dex files.") := by
  exact ⟨manyDexFiles_built _ (Nat.le_refl _), profileKey_manyDexFiles _, rfl, load_manyDexFiles rfl⟩

end ProfileCompilationInfo

end Art.Profile
