import Art.Theorems.ClassLoaderEncoding

/-! The round trip of class loader contexts that are created from class loaders of the runtime. -/

namespace Art.ClassLoaderContext
open List

variable {lib : Library} {s : Str} {c : Char} {info : ClassLoaderInfo}

/-! ### Created trees -/

/-- What `CreateInfoFromClassLoader` guarantees for each class loader. -/
def Created (info : ClassLoaderInfo) : Prop :=
  info.checksums.length = info.classpath.length ∧ (info.type = .inMemoryDexClassLoader →
    ∀ location ∈ info.classpath, location = kInMemoryDexClassLoaderDexLocationMagic)

/-- The dex files of an in-memory loader are all recorded under the magic location. -/
theorem populateDexFiles_inMemory : ∀ (fuel : Nat) (dexFiles : List DexFile) (elements : List (Str × UInt32)),
    populateDexFiles .inMemoryDexClassLoader fuel dexFiles = .ok elements →
    ∀ e ∈ elements, e.1 = kInMemoryDexClassLoaderDexLocationMagic
  | 0, [], _, h => by
    cases h
    simp
  | _ + 1, [], _, h => by
    cases h
    simp
  | 0, _ :: _, _, h => nomatch h
  | fuel + 1, dexFile :: rest, elements, h => by
    rw [populateDexFiles, if_pos rfl] at h
    split_ifs at h
    obtain ⟨tail, htail, h⟩ := Lib.bind_eq_ok.mp h
    rw [Lib.return_eq_ok] at h
    subst h
    rw [forall_mem_cons]
    exact ⟨rfl, populateDexFiles_inMemory fuel _ _ htail⟩

mutual

/-- Every node of a tree made from a runtime loader is of the created form. -/
theorem createInfo_created : ∀ (dexElements : List DexFile) (loader : ClassLoader) (info : ClassLoaderInfo),
    createInfoFromClassLoader dexElements loader = .ok (some info) → Everywhere Created info
  | _, .boot, _, h => nomatch h
  | dexElements, .mk kind dexFiles libraries after parent, info, h => by
    rw [createInfoFromClassLoader] at h
    obtain ⟨type, -, h⟩ := Lib.bind_eq_ok.mp h
    obtain ⟨elements, helements, h⟩ := Lib.bind_eq_ok.mp h
    obtain ⟨libraryInfos, hlibs, h⟩ := Lib.bind_eq_ok.mp h
    obtain ⟨afterInfos, hafter, h⟩ := Lib.bind_eq_ok.mp h
    obtain ⟨parentInfo, hparent, h⟩ := Lib.bind_eq_ok.mp h
    rw [Lib.return_eq_ok] at h
    cases h
    refine everywhere_iff.mpr
      ⟨⟨by simp [ClassLoaderInfo.checksums, ClassLoaderInfo.classpath], fun ht location hl => ?_⟩,
      createLibraries_created libraries _ hlibs, createLibraries_created after _ hafter, fun q hq => ?_⟩
    · obtain ⟨e, he, rfl⟩ := mem_map.mp hl
      cases (show type = .inMemoryDexClassLoader from ht)
      exact populateDexFiles_inMemory _ _ _ helements e he
    · cases (show parentInfo = some q from hq)
      exact createInfo_created [] parent q hparent

/-- So is every node of its shared libraries. -/
theorem createLibraries_created : ∀ (libraries : List ClassLoader) (infos : List ClassLoaderInfo),
    createLibraries libraries = .ok infos → ∀ l ∈ infos, Everywhere Created l
  | [], _, h => by
    cases h
    simp
  | library :: rest, infos, h => by
    rw [createLibraries] at h
    obtain ⟨info, hinfo, h⟩ := Lib.bind_eq_ok.mp h
    obtain ⟨restInfos, hrest, h⟩ := Lib.bind_eq_ok.mp h
    rw [Lib.return_eq_ok] at h
    subst h
    intro l hl
    rcases mem_append.mp hl with hl | hl
    · rw [Option.mem_toList] at hl
      subst hl
      exact createInfo_created [] library l hinfo
    · exact createLibraries_created rest restInfos hrest l hl

end

/-! ### Null characters -/

/-- Class paths are written through `c_str()`, so they have no null characters. -/
theorem null_not_mem_encodeClassPath (type : ClassLoaderType) (locations : List Str) (checksums : List UInt32) :
    '\x00' ∉ encodeClassPath type locations checksums := by
  intro hc
  rw [encodeClassPath_eq, append_assoc, mem_append, cons_append, mem_cons, mem_append, mem_singleton] at hc
  rcases hc with hc | hc | hc | hc
  · revert hc
    cases type <;> decide
  · cases hc
  · rcases mem_intercalate hc with hc | ⟨l, hl, hcl⟩
    · cases hc
    · obtain ⟨location, -, checksum, rfl⟩ := mem_zipWith_encodeElement hl
      rcases mem_encodeElement hcl with hm | hm | hm | hd
      · revert hm
        decide
      · exact (mem_cStr hm).2 rfl
      · cases hm
      · cases hd
  · cases hc

/-- Joined library texts without a null character have none. -/
theorem null_not_mem_joinEntries {es : List (Bool × ClassLoaderInfo)}
    (h : ∀ e ∈ es, '\x00' ∉ encodeContextInternal e.2) : '\x00' ∉ joinEntries es := by
  have hentry : ∀ e ∈ es, '\x00' ∉ encodeEntry e := by
    intro e he hc
    rw [encodeEntry, mem_append] at hc
    rcases hc with hc | hc
    · split_ifs at hc <;> simp at hc
    · exact h e he hc
  rcases es with _ | ⟨e, rest⟩
  · simp [joinEntries]
  intro hc
  rw [joinEntries, mem_append, mem_flatMap] at hc
  rcases hc with hc | ⟨e', he', hc⟩
  · exact hentry e mem_cons_self hc
  · rcases mem_cons.mp hc with hc | hc
    · cases hc
    · exact hentry e' (mem_cons_of_mem _ he') hc

/-- An encoding has no null character. -/
theorem null_not_mem_encode (info : ClassLoaderInfo) : '\x00' ∉ encodeContextInternal info := by
  induction info using ClassLoaderInfo.tree_induction with
  | h type classpath checksums libraries after parent hlibs hafter hparent =>
    intro hc
    rw [encode_eq, loaderText, mem_append, mem_append] at hc
    rcases hc with (hc | hc) | hc
    · exact null_not_mem_encodeClassPath _ _ _ hc
    · rw [librariesText] at hc
      split_ifs at hc
      · cases hc
      have hjoin : '\x00' ∉ joinEntries (entries libraries after) := by
        refine null_not_mem_joinEntries fun e he => ?_
        rcases mem_entries he with ⟨-, hm⟩ | ⟨-, hm⟩
        · exact hlibs _ hm
        · exact hafter _ hm
      simp [hjoin] at hc
    · rcases parent with _ | q
      · cases hc
      · rcases mem_cons.mp hc with hc | hc
        · cases hc
        · exact hparent q rfl hc

theorem subset_intercalate {x : Char} {part : Str} : ∀ {ls : List Str}, part ∈ ls → part ⊆ [x].intercalate ls
  | [l], h => by
    rw [mem_singleton] at h
    simp [intercalate, h]
  | l :: l' :: ls, h => by
    rw [intercalate_cons_cons]
    rcases mem_cons.mp h with rfl | h
    · exact fun c hc => mem_append_left _ (mem_append_left _ hc)
    · exact fun c hc => mem_append_right _ (subset_intercalate h hc)

theorem subset_of_mem_split {separator : Char} {part : Str} (h : part ∈ split s separator) : part ⊆ s := by
  have hsub : part ⊆ [separator].intercalate (s.splitOn separator) := subset_intercalate (mem_filter.mp h).1
  rwa [intercalate_splitOn] at hsub

theorem parseElement_subset {type : ClassLoaderType} {element : Str} {result : Str × UInt32}
    (h : parseElement lib type element = .ok result) : result.1 ⊆ element := by
  unfold parseElement at h
  split at h
  · next location checksum heq =>
    have hmem : location ∈ split element kDexFileChecksumSeparator := by simp [heq]
    split at h
    · cases h
    · split_ifs at h
      cases h
      exact subset_of_mem_split hmem
  · cases h

/-- The locations that are read are cut out of the elements. -/
theorem mapM_parseElement_subset {type : ClassLoaderType} : ∀ (elements : List Str) (result : List (Str × UInt32)),
    elements.mapM (parseElement lib type) = .ok result → ∀ e ∈ result, ∃ element ∈ elements, e.1 ⊆ element
  | [], _, h => by
    cases h
    simp
  | element :: rest, result, h => by
    rw [mapM_cons] at h
    obtain ⟨e, he, h⟩ := Lib.bind_eq_ok.mp h
    obtain ⟨es, hes, h⟩ := Lib.bind_eq_ok.mp h
    rw [Lib.return_eq_ok] at h
    subst h
    intro e' he'
    rcases mem_cons.mp he' with rfl | he'
    · exact ⟨element, mem_cons_self, parseElement_subset he⟩
    · obtain ⟨element', hmem, hsub⟩ := mapM_parseElement_subset rest es hes e' he'
      exact ⟨element', mem_cons_of_mem _ hmem, hsub⟩

theorem classpathOf_subset (spec : Str) (k : Nat) : classpathOf spec k ⊆ spec := by
  unfold classpathOf
  split
  · exact fun _ h => mem_of_mem_drop h
  · exact substr_subset _ _ _

theorem parse_locations {spec : Str} (h : parse lib spec true = .ok info) :
    Everywhere (fun n => ∀ location ∈ n.classpath, location ⊆ spec) info := by
  have hp : FromSpec lib fun s n => ∀ location ∈ n.classpath, location ⊆ s := by
    refine ⟨fun hs h location hl => List.Subset.trans (h location hl) hs, fun _ hl => (nomatch hl),
      fun libraries after parent h => ?_⟩
    rw [parseClassPath, if_pos rfl, Lib.bind_eq_ok] at h
    obtain ⟨elements, helements, h⟩ := h
    rw [Lib.return_eq_ok] at h
    subst h
    intro location hl
    obtain ⟨e, he, rfl⟩ := mem_map.mp hl
    obtain ⟨element, hmem, hsub⟩ := mapM_parseElement_subset _ _ helements e he
    exact List.Subset.trans hsub (List.Subset.trans (subset_of_mem_split hmem) (classpathOf_subset _ _))
  exact hp.parse h

/-- No location contains a null character. -/
def NulFree (info : ClassLoaderInfo) : Prop := Everywhere (fun n => ∀ location ∈ n.classpath, '\x00' ∉ location) info

/-- `ClassLoaderContext` round trip: what `CreateInfoFromClassLoader` builds from class loaders with plain
    locations is read back from its encoding if and only if the parser can tell the shared libraries apart and
    no location is cut at a null character. -/
theorem parse_encode_iff (hlib : lib.ReadsDecimal) {dexElements : List DexFile} {loader : ClassLoader}
    (hcreate : createInfoFromClassLoader dexElements loader = .ok (some info))
    (hplain : Everywhere (fun n => ∀ location ∈ n.classpath, PlainLocation location) info)
    (hlen : NoLibraries info ∨ (encodeContextInternal info).length < 2 ^ 32) :
    parse lib (encodeContextInternal info) true = .ok info ↔ Splittable info ∧ NulFree info := by
  have hcreated := createInfo_created dexElements loader info hcreate
  have hloaders : NulFree info → Everywhere PlainLoader info := fun hnul n hn =>
    ⟨(hcreated n hn).1, hplain n hn, hnul n hn, (hcreated n hn).2⟩
  constructor
  · intro h
    have hnul : NulFree info := fun n hn location hl hc =>
      null_not_mem_encode info (parse_locations h n hn location hl hc)
    refine ⟨?_, hnul⟩
    by_contra hsplit
    obtain ⟨e, he⟩ := (parse_encode hlib (hloaders hnul) hlen).2 hsplit
    rw [h] at he
    cases he
  · rintro ⟨hsplit, hnul⟩
    exact (parse_encode hlib (hloaders hnul) hlen).1 hsplit

theorem plainLibrary_readsDecimal : plainLibrary.ReadsDecimal := by
  intro n
  have hdigits : (decimal n.toNat).all Char.isDigit = true := all_eq_true.mpr fun _ h => isDigit_of_mem_decimal h
  change (if (decimal n.toNat).all Char.isDigit then some (UInt32.ofNat (Nat.ofDigitChars 10 (decimal n.toNat) 0))
    else none) = some n
  rw [if_pos hdigits, decimal, Nat.ofDigitChars_toDigits (by decide) (by decide), UInt32.ofNat_toNat]

def dexLoader (name : Char) (checksum : UInt32) (libraries : List ClassLoader) (parent : ClassLoader) : ClassLoader :=
  .mk .pathOrDex [⟨[name], checksum, 39⟩] libraries [] parent

def dexInfo (name : Char) (checksum : UInt32) (libraries : List ClassLoaderInfo) (parent : Option ClassLoaderInfo) :
    ClassLoaderInfo := .mk .pathClassLoader [[name]] [kEmptyMultiDexChecksum ^^^ checksum] libraries [] parent

theorem dexInfo_plain {name : Char} {checksum : UInt32} {libraries : List ClassLoaderInfo}
    {parent : Option ClassLoaderInfo}
    (hname : name ∈ ['a', 'b', 'c', 'd', 'e'])
    (hlibs : ∀ l ∈ libraries, Everywhere (fun n => ∀ location ∈ n.classpath, PlainLocation location) l)
    (hparent : ∀ q, parent = some q → Everywhere (fun n => ∀ location ∈ n.classpath, PlainLocation location) q) :
    Everywhere (fun n => ∀ location ∈ n.classpath, PlainLocation location)
    (dexInfo name checksum libraries parent) := by
  have hplain : ∀ name ∈ ['a', 'b', 'c', 'd', 'e'], PlainLocation [name] := by
    simp [PlainLocation]
  refine everywhere_iff.mpr ⟨fun location hl => ?_, hlibs, fun _ hl => (nomatch hl), hparent⟩
  rw [show location = [name] from mem_singleton.mp hl]
  exact hplain name hname

/-- `PCL[a*1];PCL[b*2]` -/
def twoLoaders : ClassLoaderInfo := dexInfo 'a' 0 [] (some (dexInfo 'b' 3 [] none))

theorem parse_encode_iff_parent : parse plainLibrary (encodeContextInternal twoLoaders) true = .ok twoLoaders ↔
    Splittable twoLoaders ∧ NulFree twoLoaders := by
  have hcreate : createInfoFromClassLoader [] (dexLoader 'a' 0 [] (dexLoader 'b' 3 [] .boot)) =
      .ok (some twoLoaders) := rfl
  refine parse_encode_iff plainLibrary_readsDecimal hcreate ?_ (.inr (by decide))
  refine dexInfo_plain (by decide) (by simp) fun q hq => ?_
  cases hq
  exact dexInfo_plain (by decide) (by simp) (by simp)

/-- `PCL[a*1]{PCL[b*1]{PCL[c*1]};PCL[d*1]#PCL[e*1]}`: the library `b` has a library and a parent, and the
    library `e` follows. -/
def libraryWithParent : ClassLoaderInfo :=
  dexInfo 'a' 0 [dexInfo 'b' 0 [dexInfo 'c' 0 [] none] (some (dexInfo 'd' 0 [] none)), dexInfo 'e' 0 [] none] none

/-- The parser ends the library `b` before its parent. -/
theorem library_with_parent_not_parsed :
    createInfoFromClassLoader [] (dexLoader 'a' 0
      [dexLoader 'b' 0 [dexLoader 'c' 0 [] .boot] (dexLoader 'd' 0 [] .boot),
      dexLoader 'e' 0 [] .boot] .boot) = .ok (some libraryWithParent) ∧
    Everywhere (fun n => ∀ location ∈ n.classpath, PlainLocation location) libraryWithParent ∧
    parse plainLibrary (encodeContextInternal libraryWithParent) true = .error .invalid := by
  refine ⟨rfl, ?_, rfl⟩
  have hleaf : ∀ name ∈ ['a', 'b', 'c', 'd', 'e'], ∀ l, l = dexInfo name 0 [] none →
      Everywhere (fun n => ∀ location ∈ n.classpath, PlainLocation location) l := by
    rintro name hname _ rfl
    exact dexInfo_plain hname (by simp) (by simp)
  refine dexInfo_plain (by decide) ?_ (by simp)
  rw [forall_mem_cons, forall_mem_singleton]
  refine ⟨dexInfo_plain (by decide) ?_ fun q hq => ?_, hleaf 'e' (by decide) _ rfl⟩
  · rw [forall_mem_singleton]
    exact hleaf 'c' (by decide) _ rfl
  · exact hleaf 'd' (by decide) q (Option.some.inj hq).symm

end Art.ClassLoaderContext
