import Art.Theorems.ClassLoaderSpec

/-! Encoding a class loader tree and parsing it again. The parser ends a shared library at the closing mark of
    the first list of libraries in its chain, so a library whose chain goes on behind that list is not read back
    when the parser has to look for its end. -/

namespace Art.ClassLoaderContext
open List

open Lib (Yields)

variable {lib : Library} {a b s pre : Str} {info : ClassLoaderInfo} {entry : Bool × ClassLoaderInfo}

/-! ### The class path -/

/-- `ParseUint` reads what is written for a 32-bit number. -/
def Library.ReadsDecimal (lib : Library) : Prop := ∀ n : UInt32, lib.parseUint (decimal n.toNat) = some n

theorem cStr_of_not_mem (h : '\x00' ∉ s) : cStr s = s := by
  refine takeWhile_eq_self_iff.mpr fun c hc => ?_
  rw [bne_iff_ne]
  rintro rfl
  exact h hc

theorem cStr_decimal (n : Nat) : cStr (decimal n) = decimal n :=
  cStr_of_not_mem fun h => nomatch isDigit_of_mem_decimal h

theorem split_intercalate {x : Char} {ls : List Str} (h : ∀ l ∈ ls, l ≠ [] ∧ x ∉ l) :
    split ([x].intercalate ls) x = ls := by
  rcases ls with _ | ⟨l, ls⟩
  · rfl
  rw [split, splitOn_intercalate x (fun l hl => (h l hl).2) (cons_ne_nil _ _)]
  refine filter_eq_self.mpr fun l hl => ?_
  rw [bne_iff_ne]
  exact (h l hl).1

variable {location : Str}

theorem PlainLocation.not_mem (h : PlainLocation location) {c : Char}
    (hc : c ∈ ['[', ']', '\x7b', '\x7d', '#', '~', ';', ':', '*']) : c ∉ location := fun hm => h.2 c hm hc

variable {type : ClassLoaderType}

theorem encodeElement_eq (hnull : '\x00' ∉ location)
    (hmem : type = .inMemoryDexClassLoader → location = kInMemoryDexClassLoaderDexLocationMagic) (checksum : UInt32) :
    encodeElement type location checksum = location ++ '*' :: decimal checksum.toNat := by
  rw [encodeElement, cStr_of_not_mem hnull]
  split_ifs with htype
  · rw [← hmem htype]
    rfl
  · rfl

theorem parseElement_encodeElement (hlib : lib.ReadsDecimal)
    (hplain : PlainLocation location) (hnull : '\x00' ∉ location)
    (hmem : type = .inMemoryDexClassLoader → location = kInMemoryDexClassLoaderDexLocationMagic) (checksum : UInt32) :
    parseElement lib type (encodeElement type location checksum) = .ok (location, checksum) := by
  have hdigits : '*' ∉ decimal checksum.toNat := fun h => nomatch isDigit_of_mem_decimal h
  have hsplit : split (location ++ '*' :: decimal checksum.toNat) '*' =
      [location, decimal checksum.toNat] := by
    have hne : decimal checksum.toNat ≠ [] := Nat.toDigits_ne_nil
    have hparts : ∀ l ∈ [location, decimal checksum.toNat], l ≠ [] ∧ '*' ∉ l := by
      simp [hplain.1, hplain.not_mem (c := '*') (by decide), hdigits, hne]
    simpa [intercalate] using split_intercalate hparts
  rw [encodeElement_eq hnull hmem, parseElement, kDexFileChecksumSeparator, hsplit]
  simp only [cStr_decimal, hlib checksum]
  rw [if_neg fun h => h.2 (hmem h.1)]

/-- The encoded elements of a class path are read back. -/
theorem mapM_parseElement (hlib : lib.ReadsDecimal) : ∀ (locations : List Str)
    (checksums : List UInt32), checksums.length = locations.length →
    (∀ location ∈ locations, PlainLocation location ∧ '\x00' ∉ location ∧
      (type = .inMemoryDexClassLoader → location = kInMemoryDexClassLoaderDexLocationMagic)) →
    ∃ elements, (zipWith (encodeElement type) locations checksums).mapM (parseElement lib type) = .ok elements ∧
      elements.map (·.1) = locations ∧ elements.map (·.2) = checksums
  | [], [], _, _ => ⟨[], rfl, rfl, rfl⟩
  | [], _ :: _, hlen, _ => nomatch hlen
  | _ :: _, [], hlen, _ => nomatch hlen
  | location :: locations, checksum :: checksums, hlen, h => by
    obtain ⟨hplain, hnull, hmem⟩ := h location mem_cons_self
    obtain ⟨elements, hok, rfl, rfl⟩ := mapM_parseElement hlib locations checksums (Nat.succ.inj hlen)
      fun l hl => h l (mem_cons_of_mem _ hl)
    refine ⟨(location, checksum) :: elements, ?_, rfl, rfl⟩
    rw [zipWith_cons_cons, mapM_cons, parseElement_encodeElement hlib hplain hnull hmem, hok]
    rfl

/-- The encoded class path of a plain loader is read back. -/
theorem parseClassPath_text (hlib : lib.ReadsDecimal) (h : PlainLoader info) :
    parseClassPath lib info.type true (classpathText info.type info.classpath info.checksums) =
      .ok (info.classpath, info.checksums) := by
  have hall : ∀ location ∈ info.classpath, PlainLocation location ∧ '\x00' ∉ location ∧
      (info.type = .inMemoryDexClassLoader → location = kInMemoryDexClassLoaderDexLocationMagic) :=
    fun l hl => ⟨h.locations l hl, h.nonNull l hl, fun ht => h.inMemory ht l hl⟩
  have hsplit : split (classpathText info.type info.classpath info.checksums) kClasspathSeparator =
      zipWith (encodeElement info.type) info.classpath info.checksums := by
    refine split_intercalate fun l hl => ?_
    obtain ⟨location, hloc, checksum, rfl⟩ := mem_zipWith_encodeElement hl
    obtain ⟨hplain, hnull, hmem⟩ := hall location hloc
    rw [encodeElement_eq hnull hmem]
    refine ⟨by simp, fun hm => ?_⟩
    rw [mem_append, mem_cons] at hm
    rcases hm with hm | hm | hm
    · exact hplain.not_mem (c := ':') (by decide) hm
    · cases hm
    · exact nomatch isDigit_of_mem_decimal hm
  obtain ⟨elements, hok, h1, h2⟩ := mapM_parseElement hlib info.classpath info.checksums h.length hall
  rw [parseClassPath, if_pos rfl, hsplit, hok, ← h1, ← h2]
  rfl

/-! ### Lists of shared libraries -/

/-- Two shared libraries are side by side somewhere in the tree. -/
def HasSiblings (info : ClassLoaderInfo) : Prop :=
  ¬Everywhere (fun n => (n.sharedLibraries ++ n.sharedLibrariesAfter).length ≤ 1) info

/-- In a list of shared libraries, a library that is followed by another one or has libraries side by side in its
    own tree has libraries only at the end of its chain. -/
def ListSplittable (ls : List ClassLoaderInfo) : Prop :=
  ∀ before l rest, ls = before ++ l :: rest → rest ≠ [] ∨ HasSiblings l → LibrariesLast l

/-- All lists of shared libraries can be told apart by the parser. -/
def Splittable (info : ClassLoaderInfo) : Prop :=
  Everywhere (fun n => ListSplittable (n.sharedLibraries ++ n.sharedLibrariesAfter)) info

theorem listSplittable_nil : ListSplittable [] := by
  intro before l rest h
  simp at h

theorem listSplittable_cons {l : ClassLoaderInfo} {rest : List ClassLoaderInfo} : ListSplittable (l :: rest) ↔
    (rest ≠ [] ∨ HasSiblings l → LibrariesLast l) ∧ ListSplittable rest := by
  constructor
  · intro h
    refine ⟨h [] l rest rfl, fun before l' rest' heq => h (l :: before) l' rest' ?_⟩
    rw [heq]
    rfl
  · rintro ⟨h, hrest⟩ before l' rest' heq
    rcases before with _ | ⟨x, before⟩
    · obtain ⟨rfl, rfl⟩ := cons.inj heq
      exact h
    · exact hrest before l' rest' (cons.inj heq).2

theorem loaderText_append (info : ClassLoaderInfo) : loaderText info =
    encodeClassPath info.type info.classpath info.checksums ++
      librariesText info.sharedLibraries info.sharedLibrariesAfter := by
  cases info
  rfl

theorem entries_map (libraries after : List ClassLoaderInfo) :
    (entries libraries after).map (·.2) = libraries ++ after ∧
    ((entries libraries after).filter fun e => !e.1).map (·.2) = libraries ∧
    ((entries libraries after).filter fun e => e.1).map (·.2) = after := by
  simp [entries, filter_map, Function.comp_def]

theorem separator_not_mem_joinEntries : ∀ {es : List (Bool × ClassLoaderInfo)},
    '#' ∉ joinEntries es ↔ es.length ≤ 1 ∧ ∀ e ∈ es, '#' ∉ encodeContextInternal e.2
  | [] => by simp [joinEntries]
  | [e] => by cases h : e.1 <;> simp [joinEntries, encodeEntry, h]
  | e :: e' :: es => by
    rw [joinEntries_cons_cons]
    simp

/-- The separator of shared libraries is written between them only. -/
theorem separator_mem_encode_iff (h : Everywhere PlainLoader info) :
    '#' ∈ encodeContextInternal info ↔ HasSiblings info := by
  rw [HasSiblings, ← not_iff_not, not_not]
  induction info using ClassLoaderInfo.loader_induction with
  | h info hlibs hparent =>
    obtain ⟨hplain, hl, ha, hp⟩ := everywhere_iff.mp h
    have hpath : '#' ∉ encodeClassPath info.type info.classpath info.checksums :=
      not_mem_encodeClassPath hplain.locations (by decide)
    have hlist : '#' ∉ librariesText info.sharedLibraries info.sharedLibrariesAfter ↔
        (info.sharedLibraries ++ info.sharedLibrariesAfter).length ≤ 1 ∧
          ∀ l ∈ info.sharedLibraries ++ info.sharedLibrariesAfter, '#' ∉ encodeContextInternal l := by
      rw [← (entries_map info.sharedLibraries info.sharedLibrariesAfter).1, length_map, forall_mem_map,
        ← separator_not_mem_joinEntries, librariesText]
      split_ifs with hnil
      · simp [hnil, joinEntries]
      · simp
    have hrest : '#' ∉ encodeParent info.parent ↔ ∀ q, info.parent = some q → '#' ∉ encodeContextInternal q := by
      cases info.parent <;> simp [encodeParent, kClassLoaderSeparator]
    have hlib : ∀ l ∈ info.sharedLibraries ++ info.sharedLibrariesAfter, _ := fun l hm =>
      hlibs l hm ((mem_append.mp hm).elim (hl l) (ha l))
    rw [everywhere_iff, encode_eq, loaderText_append, mem_append, mem_append, not_or, not_or, and_iff_right hpath,
      hlist, hrest, forall₂_congr hlib, forall₂_congr fun q hq => hparent q hq (hp q hq), forall_mem_append]
    simp only [and_assoc]

theorem encode_head (info : ClassLoaderInfo) : ∃ c t, encodeContextInternal info = c :: t ∧ c ∉ ['~', ';', '#'] := by
  obtain ⟨type, classpath, checksums, libraries, after, parent⟩ := info
  rw [encode_eq, loaderText, encodeClassPath_eq]
  cases type
  · exact ⟨'P', _, rfl, by decide⟩
  · exact ⟨'D', _, rfl, by decide⟩
  · exact ⟨'I', _, rfl, by decide⟩

/-- The mark of a library to load after is read where its entry starts. -/
theorem charAt_entry (pre tail : Str) (entry : Bool × ClassLoaderInfo) :
    (charAt (pre ++ (encodeEntry entry ++ tail)) pre.length = kClassLoaderSharedLibraryAfterSeparator) ↔
      entry.1 = true := by
  obtain ⟨after, info⟩ := entry
  cases after
  · obtain ⟨c, t, heq, hc⟩ := encode_head info
    rw [encodeEntry, heq]
    simp only [Bool.false_eq_true, if_false, nil_append, cons_append]
    rw [charAt_append rfl, kClassLoaderSharedLibraryAfterSeparator]
    refine ⟨fun h => absurd ?_ hc, False.elim⟩
    rw [h]
    decide
  · rw [encodeEntry]
    simp only [if_true, cons_append, nil_append]
    rw [charAt_append rfl]
    exact iff_of_true rfl trivial

def afterMark (after : Bool) : Str := if after then ['~'] else []

theorem encodeEntry_eq (entry : Bool × ClassLoaderInfo) :
    encodeEntry entry = afterMark entry.1 ++ encodeContextInternal entry.2 := rfl

theorem not_mem_afterMark {c : Char} (h : c ≠ '~') (after : Bool) : c ∉ afterMark after := by
  cases after <;> simp [afterMark, h]

section Next

variable {spec : Str} {cursor separator opening closing : Nat} {after : Bool}

section

variable (hmark : charAt spec cursor = kClassLoaderSharedLibraryAfterSeparator ↔ after = true)
include hmark

theorem start_eq :
    (if charAt spec cursor = kClassLoaderSharedLibraryAfterSeparator then cursor + 1 else cursor) =
      cursor + (afterMark after).length ∧
    decide (charAt spec cursor = kClassLoaderSharedLibraryAfterSeparator) = after := by
  cases after <;> simp [hmark, afterMark]

theorem nextSharedLibrary_single
    (hsep : findFirstOf spec '#' cursor = none) : nextSharedLibrary spec cursor =
      .ok (substr spec (cursor + (afterMark after).length) (spec.length - (cursor + (afterMark after).length)), after,
        spec.length) := by
  obtain ⟨hstart, hafter⟩ := start_eq hmark
  simp only [nextSharedLibrary, hstart, hafter, kClassLoaderSharedLibrarySeparator, hsep]

theorem nextSharedLibrary_flat
    (hsep : findFirstOf spec '#' cursor = some separator)
    (hopen : ∀ opening, findFirstOf spec '\x7b' cursor = some opening → opening > separator) :
    nextSharedLibrary spec cursor =
      .ok (substr spec (cursor + (afterMark after).length) (separator - (cursor + (afterMark after).length)), after,
        separator + 1) := by
  obtain ⟨hstart, hafter⟩ := start_eq hmark
  simp only [nextSharedLibrary, hstart, hafter, kClassLoaderSharedLibrarySeparator, hsep,
    kClassLoaderSharedLibraryOpeningMark]
  rcases ho : findFirstOf spec '\x7b' cursor with _ | opening
  · rfl
  · simp only [if_pos (hopen opening ho)]

theorem nextSharedLibrary_nested
    (hsep : findFirstOf spec '#' cursor = some separator) (hopen : findFirstOf spec '\x7b' cursor = some opening)
    (hle : opening ≤ separator) (hclose : findMatchingSharedLibraryCloseMarker spec opening = .ok (some closing)) :
    nextSharedLibrary spec cursor =
      .ok (substr spec (cursor + (afterMark after).length) (closing + 1 - (cursor + (afterMark after).length)), after,
        if closing + 1 ≠ spec.length ∧ charAt spec (closing + 1) = '#' then closing + 1 + 1 else closing + 1) := by
  obtain ⟨hstart, hafter⟩ := start_eq hmark
  simp only [nextSharedLibrary, hstart, hafter, kClassLoaderSharedLibrarySeparator, hsep,
    kClassLoaderSharedLibraryOpeningMark, hopen, if_neg (Nat.not_lt.mpr hle), hclose, bind, Except.bind]
  rfl

end

end Next

theorem findFirstOf_entry {tail : Str} {c : Char} (hc : c ∉ encodeEntry entry) :
    findFirstOf (pre ++ (encodeEntry entry ++ tail)) c pre.length =
      (tail.findIdx? (· == c)).map (· + (pre ++ encodeEntry entry).length) := by
  rw [findFirstOf_append rfl, findIdx_append hc, Option.map_map, length_append]
  congr 1
  funext n
  simp only [Function.comp_apply]
  omega

theorem substr_entry (pre tail : Str) (entry : Bool × ClassLoaderInfo) {stop : Nat}
    (hstop : stop = (pre ++ encodeEntry entry).length) :
    substr (pre ++ (encodeEntry entry ++ tail)) (pre.length + (afterMark entry.1).length)
      (stop - (pre.length + (afterMark entry.1).length)) = encodeContextInternal entry.2 := by
  have htext : pre ++ (encodeEntry entry ++ tail) =
      pre ++ afterMark entry.1 ++ encodeContextInternal entry.2 ++ tail := by
    rw [encodeEntry_eq]
    simp
  rw [htext]
  refine substr_append (by simp) ?_
  rw [hstop, encodeEntry_eq, length_append, length_append]
  omega

/-- The parser ends a library at the closing mark of the first list of libraries in its chain. -/
theorem nextSharedLibrary_closing {spec d tail : Str} (hspec : spec = pre ++ (encodeEntry entry ++ tail))
    (eq : encodeContextInternal entry.2 = a ++ '\x7b' :: b ++ '\x7d' :: d) (free : BraceFree a) (noSeparator : '#' ∉ a)
    (balanced : Balanced b) (hlen : spec.length < 2 ^ 32) (hsep : '#' ∈ encodeEntry entry ++ tail) {stop : Nat}
    (hstop : stop = pre.length + (afterMark entry.1).length + (a ++ '\x7b' :: b ++ ['\x7d']).length) :
    nextSharedLibrary spec pre.length = .ok (a ++ '\x7b' :: b ++ ['\x7d'], entry.1,
      if stop ≠ spec.length ∧ charAt spec stop = '#' then stop + 1 else stop) := by
  have hmark : charAt spec pre.length = _ ↔ _ := hspec ▸ charAt_entry pre tail entry
  have htext : encodeEntry entry ++ tail =
      (afterMark entry.1 ++ a) ++ '\x7b' :: (b ++ '\x7d' :: (d ++ tail)) := by
    rw [encodeEntry_eq, eq]
    simp
  rw [htext] at hspec hsep
  have hfront : ∀ {c : Char}, c ≠ '~' → c ∉ a → c ∉ afterMark entry.1 ++ a := by
    intro c hne hc hm
    rw [mem_append] at hm
    exact hm.elim (not_mem_afterMark hne _) hc
  have hopen : findFirstOf spec '\x7b' pre.length = some (pre ++ afterMark entry.1 ++ a).length := by
    rw [hspec, findFirstOf_append rfl, findIdx_append_cons (hfront (by decide) free.1)]
    simp only [Option.map_some, length_append]
    congr 1
    omega
  obtain ⟨k, hk⟩ : ∃ k, findFirstOf spec '#' pre.length = some ((pre ++ afterMark entry.1 ++ a).length + k) := by
    rw [hspec, findFirstOf_append rfl, findIdx_append (hfront (by decide) noSeparator)]
    rcases hidx : ('\x7b' :: (b ++ '\x7d' :: (d ++ tail))).findIdx? (· == '#') with _ | k
    · rw [findIdx?_eq_none_iff] at hidx
      rcases mem_append.mp hsep with hm | hm
      · exact absurd hm (hfront (by decide) noSeparator)
      · exact nomatch hidx _ hm
    · refine ⟨k, ?_⟩
      simp only [Option.map_some, length_append]
      congr 1
      omega
  have hclose := findMatching_eq hlen (a := pre ++ afterMark entry.1 ++ a) (b := d ++ tail) balanced
    (by simp [hspec]) rfl
  have hstop' : (pre ++ afterMark entry.1 ++ a).length + b.length + 1 + 1 = stop := by
    rw [hstop]
    simp only [length_append, length_cons, length_nil]
    omega
  rw [nextSharedLibrary_nested hmark hk hopen (Nat.le_add_right _ _) hclose, hstop']
  congr 2
  have : spec = pre ++ afterMark entry.1 ++ (a ++ '\x7b' :: b ++ ['\x7d']) ++ (d ++ tail) := by simp [hspec]
  rw [this]
  exact substr_append (by simp) (by omega)

/-- A library is read back, unless its chain goes on behind its first list of libraries and the parser has to look
    for its end. -/
theorem nextSharedLibrary_entry {tail : Str} (hplain : Everywhere PlainLoader entry.2)
    (htail : tail = [] ∨ ∃ t, tail = '#' :: t) (hlen : (pre ++ (encodeEntry entry ++ tail)).length < 2 ^ 32)
    (hlast : tail ≠ [] ∨ '#' ∈ encodeContextInternal entry.2 → LibrariesLast entry.2) :
    nextSharedLibrary (pre ++ (encodeEntry entry ++ tail)) pre.length =
      .ok (encodeContextInternal entry.2, entry.1, (pre ++ encodeEntry entry ++ tail.take 1).length) := by
  have hmark := charAt_entry pre tail entry
  have hmem : ∀ {c : Char}, c ≠ '~' → c ∉ encodeContextInternal entry.2 → c ∉ encodeEntry entry := by
    intro c hne hc hm
    rw [encodeEntry_eq, mem_append] at hm
    exact hm.elim (not_mem_afterMark hne _) hc
  by_cases hsome : '#' ∈ encodeEntry entry ++ tail
  · -- The parser has to look for the end of the library.
    have hhash : tail ≠ [] ∨ '#' ∈ encodeContextInternal entry.2 := by
      rcases htail with rfl | ⟨t, rfl⟩
      · refine .inr ?_
        by_contra hno
        rw [append_nil] at hsome
        exact hmem (by decide) hno hsome
      · exact .inl (cons_ne_nil _ _)
    cases chainText entry.2 hplain with
    | inner _ _ _ _ _ _ _ librariesLast => exact absurd (hlast hhash) librariesLast
    | plain noList noSeparator _ =>
      obtain ⟨t, rfl⟩ := htail.resolve_left (hhash.resolve_right noSeparator)
      have hsep : findFirstOf (pre ++ (encodeEntry entry ++ '#' :: t)) '#' pre.length =
          some (pre ++ encodeEntry entry).length := by
        rw [findFirstOf_entry (hmem (by decide) noSeparator)]
        simp [findIdx?_cons]
      have hopen : ∀ opening, findFirstOf (pre ++ (encodeEntry entry ++ '#' :: t)) '\x7b' pre.length = some opening →
          opening > (pre ++ encodeEntry entry).length := by
        intro opening ho
        rw [findFirstOf_entry (hmem (by decide) noList)] at ho
        obtain ⟨o, hidx, rfl⟩ := Option.map_eq_some_iff.mp ho
        have := pos_of_findIdx (by decide) hidx
        omega
      rw [nextSharedLibrary_flat hmark hsep hopen, substr_entry _ _ _ rfl]
      simp [Nat.add_assoc]
    | last a b eq free noSeparator balanced _ =>
      have hpos : (pre ++ encodeEntry entry).length =
          pre.length + (afterMark entry.1).length + (a ++ '\x7b' :: b ++ ['\x7d']).length := by
        rw [encodeEntry_eq, eq]
        simp only [length_append]
        omega
      rw [nextSharedLibrary_closing (d := []) rfl eq free noSeparator balanced hlen hsome hpos, eq]
      congr 3
      rcases htail with rfl | ⟨t, rfl⟩
      · rw [if_neg (by simp), take_nil, append_nil]
      have hat : charAt (pre ++ (encodeEntry entry ++ '#' :: t)) (pre ++ encodeEntry entry).length = '#' := by
        rw [← append_assoc]
        exact charAt_append rfl
      rw [if_pos ⟨by simp, hat⟩]
      simp [Nat.add_assoc]
  · -- The last library of the list, without a separator inside.
    obtain rfl : tail = [] := by
      rcases htail with rfl | ⟨t, rfl⟩
      · rfl
      · simp at hsome
    rw [append_nil] at hsome
    have hsep : findFirstOf (pre ++ (encodeEntry entry ++ [])) '#' pre.length = none := findFirstOf_entry hsome
    rw [nextSharedLibrary_single hmark hsep, substr_entry _ _ _ (by simp)]
    simp

theorem substr_cons (pre t : Str) (c : Char) {n : Nat} (hn : 0 < n) :
    ∃ t', substr (pre ++ c :: t) pre.length n = c :: t' := by
  obtain ⟨n, rfl⟩ := Nat.exists_eq_succ_of_ne_zero (Nat.pos_iff_ne_zero.mp hn)
  exact ⟨t.take n, by rw [substr, drop_left, take_succ_cons]⟩

/-- Where a semicolon starts a library, cutting it off fails or the library starts with the semicolon. -/
theorem nextSharedLibrary_semicolon {t : Str} (hlen : (pre ++ ';' :: t).length < 2 ^ 32) :
    (∃ e, nextSharedLibrary (pre ++ ';' :: t) pre.length = .error e) ∨
      ∃ t' after cursor, nextSharedLibrary (pre ++ ';' :: t) pre.length = .ok (';' :: t', after, cursor) := by
  have hmark : charAt (pre ++ ';' :: t) pre.length = kClassLoaderSharedLibraryAfterSeparator ↔ false = true := by
    rw [charAt_append rfl]
    exact iff_of_false (by decide) (by decide)
  have hback : ∀ {c : Char} {n : Nat}, c ≠ ';' → findFirstOf (pre ++ ';' :: t) c pre.length = some n →
      pre.length < n := by
    intro c n hc h
    rw [findFirstOf_append rfl] at h
    obtain ⟨k, hk, rfl⟩ := Option.map_eq_some_iff.mp h
    have := pos_of_findIdx hc.symm hk
    omega
  rcases hsep : findFirstOf (pre ++ ';' :: t) '#' pre.length with _ | separator
  · obtain ⟨t', ht'⟩ := substr_cons pre t ';' (n := (pre ++ ';' :: t).length - pre.length) (by simp)
    refine .inr ⟨t', false, (pre ++ ';' :: t).length, ?_⟩
    rw [nextSharedLibrary_single hmark hsep, afterMark]
    simpa using ht'
  have hlt := hback (by decide) hsep
  by_cases hflat : ∀ opening, findFirstOf (pre ++ ';' :: t) '\x7b' pre.length = some opening → opening > separator
  · obtain ⟨t', ht'⟩ := substr_cons pre t ';' (n := separator - pre.length) (by omega)
    refine .inr ⟨t', false, separator + 1, ?_⟩
    rw [nextSharedLibrary_flat hmark hsep hflat, afterMark]
    simpa using ht'
  push Not at hflat
  obtain ⟨opening, hopen, hle⟩ := hflat
  have hlt' := hback (by decide) hopen
  have hin := findFirstOf_lt hopen
  have hclose : findMatchingSharedLibraryCloseMarker (pre ++ ';' :: t) opening =
      .ok ((closeAt 1 ((pre ++ ';' :: t).drop (opening + 1))).map (· + (opening + 1))) := by
    rw [findMatchingSharedLibraryCloseMarker, Nat.mod_eq_of_lt (by omega),
      closeMarkerLoop_eq hlen _ 1 _ Nat.one_pos hin (by omega)]
  rcases hc : closeAt 1 ((pre ++ ';' :: t).drop (opening + 1)) with _ | n <;> rw [hc] at hclose
  · refine .inl ⟨.invalid, ?_⟩
    simp only [nextSharedLibrary, kClassLoaderSharedLibrarySeparator, hsep, kClassLoaderSharedLibraryOpeningMark,
      hopen, if_neg (Nat.not_lt.mpr hle), hclose, bind, Except.bind, Option.map_none]
  · obtain ⟨t', ht'⟩ := substr_cons pre t ';' (n := n + (opening + 1) + 1 - pre.length) (by omega)
    have hnext := nextSharedLibrary_nested hmark hsep hopen hle hclose
    rw [afterMark, if_neg Bool.false_ne_true, length_nil, Nat.add_zero, ht'] at hnext
    exact .inr ⟨t', false, _, hnext⟩

theorem parseSharedLibraries_semicolon {parse : Str → Except Failure ClassLoaderInfo}
    (hsemi : ∀ t, ∃ e, parse (';' :: t) = .error e) {t : Str} (hlen : (pre ++ ';' :: t).length < 2 ^ 32) (fuel : Nat) :
    ∃ e, parseSharedLibraries parse (pre ++ ';' :: t) fuel pre.length = .error e := by
  have hne : pre.length ≠ (pre ++ ';' :: t).length := by simp
  rcases fuel with _ | fuel
  · exact ⟨.diverged, by rw [parseSharedLibraries, if_neg hne]⟩
  rw [parseSharedLibraries, if_neg hne]
  rcases nextSharedLibrary_semicolon hlen with ⟨e, hnext⟩ | ⟨t', after, cursor, hnext⟩
  · exact ⟨e, by rw [hnext]; rfl⟩
  obtain ⟨e, he⟩ := hsemi t'
  refine ⟨e, ?_⟩
  rw [hnext]
  simp only [bind, Except.bind, he]

/-- The shared libraries of a loader are read back if and only if they are splittable. -/
theorem parseSharedLibraries_entries {parse : Str → Except Failure ClassLoaderInfo}
    (hsemi : ∀ t, ∃ e, parse (';' :: t) = .error e) : ∀ (es : List (Bool × ClassLoaderInfo)) (pre : Str) (fuel : Nat),
    (pre ++ joinEntries es).length < 2 ^ 32 → (joinEntries es).length ≤ fuel →
    (∀ e ∈ es, Everywhere PlainLoader e.2) →
    (∀ e ∈ es, Yields (parse (encodeContextInternal e.2)) e.2 (Splittable e.2)) →
    Yields (parseSharedLibraries parse (pre ++ joinEntries es) fuel pre.length)
      ((es.filter fun e => !e.1).map (·.2), (es.filter fun e => e.1).map (·.2))
      (ListSplittable (es.map (·.2)) ∧ ∀ e ∈ es, Splittable e.2) := by
  intro es
  induction es with
  | nil =>
    intro pre fuel _ _ _ _
    refine ⟨fun _ => ?_, fun hbad => absurd ⟨listSplittable_nil, fun e he => nomatch he⟩ hbad⟩
    rw [joinEntries, append_nil]
    cases fuel <;> rw [parseSharedLibraries, if_pos rfl] <;> rfl
  | cons entry es ih =>
    intro pre fuel hlen hfuel hplain hparse
    have hplain' := hplain entry mem_cons_self
    obtain ⟨tail, htext, htail, hrest⟩ : ∃ tail, joinEntries (entry :: es) = encodeEntry entry ++ tail ∧
        (tail = [] ∨ ∃ t, tail = '#' :: t) ∧ tail = tail.take 1 ++ joinEntries es ∧
          (tail ≠ [] ↔ es.map (·.2) ≠ []) := by
      rcases es with _ | ⟨e', es⟩
      · exact ⟨[], rfl, .inl rfl, rfl, by simp⟩
      · exact ⟨'#' :: joinEntries (e' :: es), joinEntries_cons_cons _ _ _, .inr ⟨_, rfl⟩, rfl, by simp⟩
    obtain ⟨hcut, hne⟩ := hrest
    rw [htext] at hlen hfuel ⊢
    rw [map_cons, listSplittable_cons, forall_mem_cons, ← hne, ← separator_mem_encode_iff hplain']
    have hentry : encodeEntry entry ≠ [] := by simp [encodeEntry, encode_ne_nil]
    have hpos : pre.length ≠ (pre ++ (encodeEntry entry ++ tail)).length := by simp [hentry]
    obtain ⟨fuel, rfl⟩ : ∃ f, fuel = f + 1 := by
      refine Nat.exists_eq_succ_of_ne_zero ?_
      have := length_pos_iff.mpr hentry
      rw [length_append] at hfuel
      omega
    rw [parseSharedLibraries, if_neg hpos]
    by_cases hlast : tail ≠ [] ∨ '#' ∈ encodeContextInternal entry.2 → LibrariesLast entry.2
    · have hspec : pre ++ (encodeEntry entry ++ tail) = pre ++ encodeEntry entry ++ tail.take 1 ++ joinEntries es := by
        conv_lhs => rw [hcut]
        simp
      refine .after (nextSharedLibrary_entry hplain' htail hlen hlast) ?_
      rw [hspec] at hlen ⊢
      have hr := ih (pre ++ encodeEntry entry ++ tail.take 1) fuel hlen (by
        have h1 := length_pos_iff.mpr hentry
        have h2 := congrArg length hcut
        rw [length_append] at hfuel h2
        omega) (fun e he => hplain e (mem_cons_of_mem _ he)) fun e he => hparse e (mem_cons_of_mem _ he)
      refine ((hparse entry mem_cons_self).bind fun _ => hr.then_ok ?_).congr ?_
      · cases h : entry.1 <;> simp [h] <;> rfl
      · rw [and_iff_right hlast, and_left_comm]
    · -- The parser stops at the closing mark of an inner list, and the next text is no library.
      refine Yields.of_error (fun hbad => hlast hbad.1.1) ?_
      rw [Classical.not_imp] at hlast
      cases chainText entry.2 hplain' with
      | plain _ _ librariesLast | last _ _ _ _ _ _ librariesLast => exact absurd librariesLast hlast.2
      | inner a b d eq free noSeparator balanced _ =>
        have hsome : '#' ∈ encodeEntry entry ++ tail := by
          rcases hlast.1 with hnil | hhash
          · obtain ⟨t, rfl⟩ := htail.resolve_left hnil
            simp
          · exact mem_append_left _ (mem_append_right _ hhash)
        have hspec : pre ++ (encodeEntry entry ++ tail) =
            pre ++ afterMark entry.1 ++ (a ++ '\x7b' :: b ++ ['\x7d']) ++ ';' :: (d ++ tail) := by
          rw [encodeEntry_eq, eq]
          simp
        have hat : charAt (pre ++ (encodeEntry entry ++ tail))
            (pre ++ afterMark entry.1 ++ (a ++ '\x7b' :: b ++ ['\x7d'])).length = ';' := by
          rw [hspec]
          exact charAt_append rfl
        have hstop : (pre ++ afterMark entry.1 ++ (a ++ '\x7b' :: b ++ ['\x7d'])).length =
            pre.length + (afterMark entry.1).length + (a ++ '\x7b' :: b ++ ['\x7d']).length := by
          simp only [length_append]
        rw [nextSharedLibrary_closing rfl eq free noSeparator balanced hlen hsome hstop,
          if_neg fun h => absurd (hat.symm.trans h.2) (by decide)]
        simp only [bind, Except.bind]
        rcases parse (a ++ '\x7b' :: b ++ ['\x7d']) with e | library
        · exact ⟨e, rfl⟩
        · rw [hspec] at hlen ⊢
          obtain ⟨e, he⟩ := parseSharedLibraries_semicolon hsemi hlen fuel
          exact ⟨e, by dsimp only; rw [he]⟩

/-! ### A class loader -/

theorem extractClassLoaderType_name (type : ClassLoaderType) (s : Str) :
    extractClassLoaderType (getClassLoaderTypeName type ++ s) = some type := by
  cases type <;> rfl

theorem loaderText_eq (info : ClassLoaderInfo) : loaderText info = getClassLoaderTypeName info.type ++
    '[' :: (classpathText info.type info.classpath info.checksums ++ ']' ::
      librariesText info.sharedLibraries info.sharedLibrariesAfter) := by
  rw [loaderText_append, encodeClassPath_eq]
  simp

/-- The class path is cut out of the text of a plain loader. -/
theorem classpathOf_text (h : PlainLoader info) :
    classpathOf (loaderText info) (getClassLoaderTypeName info.type).length =
      classpathText info.type info.classpath info.checksums := by
  have hname : ']' ∉ getClassLoaderTypeName info.type := by cases info.type <;> decide
  have htext : ']' ∉ classpathText info.type info.classpath info.checksums :=
    fun hm => classpathText_marks h.locations hm (by decide)
  have hfront : ']' ∉ getClassLoaderTypeName info.type ++
      '[' :: classpathText info.type info.classpath info.checksums := by
    simp [hname, htext]
  have hclose : findFirstOf (loaderText info) kClassLoaderClosingMark 0 = some (getClassLoaderTypeName info.type ++
      '[' :: classpathText info.type info.classpath info.checksums).length := by
    rw [findFirstOf_zero, kClassLoaderClosingMark, loaderText_eq, ← cons_append, ← append_assoc,
      findIdx_append_cons hfront]
  rw [classpathOf, hclose, loaderText_eq]
  dsimp only
  rw [append_cons, ← append_assoc]
  exact substr_append (by simp) (by simp)

theorem encode_last (info : ClassLoaderInfo) : ∃ t c, encodeContextInternal info = t ++ [c] ∧ c ≠ '\x7b' := by
  induction info using ClassLoaderInfo.tree_induction with
  | h type classpath checksums libraries after parent _ _ hparent =>
    rw [encode_eq, loaderText, ClassLoaderInfo.parent]
    rcases parent with _ | q
    · rw [encodeParent, append_nil, librariesText]
      split_ifs
      · rw [encodeClassPath_eq, append_nil]
        exact ⟨_, ']', rfl, by decide⟩
      · rw [← append_assoc]
        exact ⟨_, '\x7d', rfl, by decide⟩
    · obtain ⟨t, c, ht, hc⟩ := hparent q rfl
      rw [encodeParent, ht, ← cons_append, ← append_assoc]
      exact ⟨_, c, rfl, hc⟩

theorem joinEntries_last : ∀ {es : List (Bool × ClassLoaderInfo)}, es ≠ [] →
    ∃ t c, joinEntries es = t ++ [c] ∧ c ≠ '\x7b'
  | [], h => absurd rfl h
  | [e], _ => by
    obtain ⟨t, c, ht, hc⟩ := encode_last e.2
    refine ⟨afterMark e.1 ++ t, c, ?_, hc⟩
    rw [joinEntries, encodeEntry_eq, ht]
    simp
  | e :: e' :: es, _ => by
    obtain ⟨t, c, ht, hc⟩ := joinEntries_last (cons_ne_nil e' es)
    refine ⟨encodeEntry e ++ '#' :: t, c, ?_, hc⟩
    rw [joinEntries_cons_cons, ht]
    simp

theorem charAt_last (t : Str) (c : Char) : charAt (t ++ [c]) ((t ++ [c]).length - 1) = c :=
  charAt_append (by simp)

theorem list_marks {path t text : Str} {c : Char} (hpath : '\x7b' ∉ path)
    (htext : text = path ++ '\x7b' :: (t ++ [c]) ++ ['\x7d']) :
    charAt text (text.length - 1) = '\x7d' ∧ charAt text (text.length - 2) = c ∧
      findFirstOf text '\x7b' 0 = some path.length ∧
      substr text (path.length + 1) (text.length - path.length - 2) = t ++ [c] := by
  subst htext
  refine ⟨charAt_last _ _, ?_, ?_, ?_⟩
  · rw [show path ++ '\x7b' :: (t ++ [c]) ++ ['\x7d'] = (path ++ '\x7b' :: t) ++ c :: ['\x7d'] by simp]
    exact charAt_append (by simp; omega)
  · rw [findFirstOf_zero, append_assoc, cons_append, findIdx_append_cons hpath]
  · rw [append_cons _ '\x7b']
    exact substr_append (by simp) (by simp)

/-- The text of a loader is read back when the texts of its libraries are. -/
theorem parseClassLoaderSpec_text (hlib : lib.ReadsDecimal) {parse : Str → Except Failure ClassLoaderInfo}
    (hsemi : ∀ t, ∃ e, parse (';' :: t) = .error e) (h : Everywhere PlainLoader info)
    (hlen : info.sharedLibraries ++ info.sharedLibrariesAfter ≠ [] → (loaderText info).length < 2 ^ 32)
    (hparse : ∀ l ∈ info.sharedLibraries ++ info.sharedLibrariesAfter,
      Yields (parse (encodeContextInternal l)) l (Splittable l)) :
    Yields (parseClassLoaderSpec lib parse true (loaderText info)) (info.withParent none)
      (ListSplittable (info.sharedLibraries ++ info.sharedLibrariesAfter) ∧
        ∀ l ∈ info.sharedLibraries ++ info.sharedLibrariesAfter, Splittable l) := by
  obtain ⟨hplain, hl, ha, -⟩ := everywhere_iff.mp h
  have htype : extractClassLoaderType (loaderText info) = some info.type := by
    rw [loaderText_eq]
    exact extractClassLoaderType_name _ _
  have hopen : charAt (loaderText info) (getClassLoaderTypeName info.type).length = kClassLoaderOpeningMark := by
    rw [loaderText_eq]
    exact charAt_append rfl
  have hpath := parseClassPath_text hlib hplain
  obtain ⟨hmap, hlibs, hafter⟩ := entries_map info.sharedLibraries info.sharedLibrariesAfter
  have hparent : info.withParent none = .mk info.type info.classpath info.checksums info.sharedLibraries
      info.sharedLibrariesAfter none := by
    cases info
    rfl
  rw [parseClassLoaderSpec, htype]
  simp only [Bool.not_true, Bool.false_eq_true, and_false, if_false, hopen, ne_eq, not_true_eq_false,
    classpathOf_text hplain, hpath, bind, Except.bind]
  by_cases hnone : entries info.sharedLibraries info.sharedLibrariesAfter = []
  · have hlast : charAt (loaderText info) ((loaderText info).length - 1) = kClassLoaderClosingMark := by
      rw [loaderText_append, librariesText, if_pos hnone, append_nil, encodeClassPath_eq]
      exact charAt_last _ _
    rw [hnone] at hmap hlibs hafter
    rw [hlast, ← hmap, hparent, ← hlibs, ← hafter]
    refine ⟨fun _ => ?_, fun hbad => absurd ⟨listSplittable_nil, forall_mem_nil _⟩ hbad⟩
    rw [if_neg fun h => h.1 rfl, if_neg fun h => absurd h.1 (by decide)]
    rfl
  · replace hlen := hlen fun hnil => hnone (by simpa [entries] using hnil)
    obtain ⟨t, c, ht, hc⟩ := joinEntries_last hnone
    have htext : loaderText info =
        encodeClassPath info.type info.classpath info.checksums ++ '\x7b' :: (t ++ [c]) ++ ['\x7d'] := by
      rw [loaderText_append, librariesText, if_neg hnone, ht]
      simp
    obtain ⟨hlast, hbefore, hstart, hsub⟩ := list_marks (not_mem_encodeClassPath hplain.locations (by decide)) htext
    rw [← ht] at htext hsub
    have hlibraries := parseSharedLibraries_entries hsemi _ [] _ (by
        rw [htext] at hlen
        simp only [length_append, length_cons] at hlen
        rw [nil_append]
        omega) le_rfl
      (fun e he => (mem_entries he).elim (fun h => hl _ h.2) fun h => ha _ h.2)
      (fun e he => hparse _ (hmap ▸ mem_map_of_mem he))
    rw [hmap, hlibs, hafter, nil_append, length_nil] at hlibraries
    have hall : (∀ e ∈ entries info.sharedLibraries info.sharedLibrariesAfter, Splittable e.2) ↔
        ∀ l ∈ info.sharedLibraries ++ info.sharedLibrariesAfter, Splittable l := by
      rw [← hmap, forall_mem_map]
    rw [hall] at hlibraries
    rw [hlast, hbefore, if_neg fun h => h.2 rfl, if_pos ⟨rfl, hc⟩, kClassLoaderSharedLibraryOpeningMark, hstart]
    dsimp only
    rw [hsub]
    exact hlibraries.then_ok (by rw [hparent]; rfl)

/-! ### Trees -/

/-- No class loader of the tree has shared libraries, so that the parser looks for no closing mark. -/
def NoLibraries (info : ClassLoaderInfo) : Prop :=
  Everywhere (fun n => n.sharedLibraries ++ n.sharedLibrariesAfter = []) info

theorem length_encode_le_join : ∀ {es : List (Bool × ClassLoaderInfo)} {e : Bool × ClassLoaderInfo}, e ∈ es →
    (encodeContextInternal e.2).length ≤ (joinEntries es).length
  | [e'], e, h => by
    obtain rfl := mem_singleton.mp h
    simp [joinEntries, encodeEntry]
  | e' :: e'' :: es, e, h => by
    rw [joinEntries_cons_cons, length_append, length_cons]
    rcases mem_cons.mp h with rfl | h
    · rw [encodeEntry_eq, length_append]
      omega
    · have := length_encode_le_join h
      omega

theorem length_encode_library {l : ClassLoaderInfo} (h : l ∈ info.sharedLibraries ++ info.sharedLibrariesAfter) :
    (encodeContextInternal l).length < (loaderText info).length := by
  have hmem : ∃ e ∈ entries info.sharedLibraries info.sharedLibrariesAfter, e.2 = l := by
    rw [← (entries_map info.sharedLibraries info.sharedLibrariesAfter).1] at h
    simpa using h
  obtain ⟨e, he, rfl⟩ := hmem
  have hle := length_encode_le_join he
  rw [loaderText_append, librariesText, if_neg (ne_nil_of_mem he), length_append, length_append, length_cons]
  omega

theorem parseInternal_semicolon (lib : Library) (fuel : Nat) (t : Str) :
    ∃ e, parseInternal lib true fuel (';' :: t) = .error e := by
  rcases fuel with _ | fuel
  · exact ⟨.diverged, rfl⟩
  refine ⟨.invalid, ?_⟩
  have hnext : nextClassLoader (';' :: t) = .ok ([], t) :=
    nextClassLoader_separator (a := []) (fun h => nomatch h) (fun h => nomatch h) t
  rw [parseInternal, length_cons, parseChain, hnext]
  rfl

theorem parseInternal_of_chain {f : Nat}
    (h : Yields (parseChain (parseClassLoaderSpec lib (parseInternal lib true f) true)
      (encodeContextInternal info).length (encodeContextInternal info)) (some info) (Splittable info)) :
    Yields (parseInternal lib true (f + 1) (encodeContextInternal info)) info (Splittable info) := by
  obtain ⟨c, t, heq, -⟩ := encode_head info
  rw [heq] at h ⊢
  exact h.then_ok rfl

theorem parseChain_nil (parse : Str → Except Failure ClassLoaderInfo) (n : Nat) : parseChain parse n [] = .ok none := by
  cases n <;> rfl

/-- A chain of class loaders is read back if and only if it is splittable. -/
theorem parseChain_encode (hlib : lib.ReadsDecimal) (info : ClassLoaderInfo) : ∀ f n : Nat,
    (encodeContextInternal info).length ≤ f + 1 → (encodeContextInternal info).length ≤ n →
    NoLibraries info ∨ (encodeContextInternal info).length < 2 ^ 32 → Everywhere PlainLoader info →
    Yields (parseChain (parseClassLoaderSpec lib (parseInternal lib true f) true) n (encodeContextInternal info))
      (some info) (Splittable info) := by
  induction info using ClassLoaderInfo.loader_induction with
  | h info hlibs hparent =>
    intro f n hf hn hlen hplain
    obtain ⟨-, hl, ha, hp⟩ := everywhere_iff.mp hplain
    have htext := encode_eq info
    have hlen' : (encodeContextInternal info).length =
        (loaderText info).length + (encodeParent info.parent).length := by
      rw [htext, length_append]
    have hne : encodeContextInternal info ≠ [] := encode_ne_nil info
    have hshort : info.sharedLibraries ++ info.sharedLibrariesAfter ≠ [] →
        (encodeContextInternal info).length < 2 ^ 32 :=
      fun hsome => hlen.resolve_left fun hnone => hsome (hnone info (.root info))
    have hrest : ∀ q, info.parent = some q → NoLibraries q ∨ (encodeContextInternal info).length < 2 ^ 32 := fun q hq =>
      hlen.imp_left fun hnone => (everywhere_iff.mp hnone).2.2.2 q hq
    -- The libraries are parsed by a recursive call with one fuel less.
    have hloader := parseClassLoaderSpec_text hlib (parseInternal_semicolon lib f) hplain
      (fun hsome => by have := hshort hsome; omega) fun l hmem => by
        have hlong := hshort (ne_nil_of_mem hmem)
        have hinside := length_encode_library hmem
        have hpos := length_pos_iff.mpr (encode_ne_nil l)
        obtain ⟨f, rfl⟩ : ∃ g, f = g + 1 := Nat.exists_eq_succ_of_ne_zero (by omega)
        exact parseInternal_of_chain (hlibs l hmem f _ (by omega) le_rfl (.inr (by omega))
          ((mem_append.mp hmem).elim (hl l) (ha l)))
    have hsplit : Splittable info ↔ (ListSplittable (info.sharedLibraries ++ info.sharedLibrariesAfter) ∧
        ∀ l ∈ info.sharedLibraries ++ info.sharedLibrariesAfter, Splittable l) ∧
        ∀ q, info.parent = some q → Splittable q := by
      rw [Splittable, everywhere_iff, forall_mem_append]
      simp only [Splittable, and_assoc]
    obtain ⟨c, t, heq, -⟩ := encode_head info
    have hnext := nextClassLoader_encode info hplain hshort
    rw [heq] at hn hnext hrest ⊢
    obtain ⟨n, rfl⟩ : ∃ m, n = m + 1 := Nat.exists_eq_succ_of_ne_zero (by
      rw [length_cons] at hn
      omega)
    refine (Yields.after hnext (hloader.bind fun _ => ?_)).congr hsplit.symm
    have hself : (info.withParent none).withParent info.parent = info := by
      cases info
      rfl
    rcases hq : info.parent with _ | q
    · rw [hq] at hself
      refine .after (parseChain_nil _ _) (.of_ok (fun q hq => nomatch hq) ?_)
      rw [hself]
      rfl
    rw [hq] at hself hlen'
    have hlenq : (encodeParent (some q)).length = (encodeContextInternal q).length + 1 := rfl
    have hpos : 0 < (loaderText info).length := by
      rw [loaderText_append, length_append]
      have := length_pos_iff.mpr (encodeClassPath_ne_nil info.type info.classpath info.checksums)
      omega
    rw [heq] at hf hlen'
    refine ((hparent q hq f n (by omega) (by omega) ((hrest q hq).imp_right fun h => by omega) (hp q hq)).then_ok
      ?_).congr (by simp)
    rw [hself]
    rfl

theorem parse_encode (hlib : lib.ReadsDecimal) (hplain : Everywhere PlainLoader info)
    (hlen : NoLibraries info ∨ (encodeContextInternal info).length < 2 ^ 32) :
    Yields (parse lib (encodeContextInternal info) true) info (Splittable info) := by
  have hne := encode_ne_nil info
  obtain ⟨f, hf⟩ := Nat.exists_eq_succ_of_ne_zero (length_pos_iff.mpr hne).ne'
  rw [parse, if_neg hne, hf]
  exact parseInternal_of_chain (parseChain_encode hlib info f _ hf.le le_rfl hlen hplain)

end Art.ClassLoaderContext
