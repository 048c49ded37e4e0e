import Art.Theorems.ClassLoaderMatch
import Mathlib.Data.List.TakeWhile

/-! The strings that class loader trees are encoded as: which marks they contain, where a list of shared
    libraries ends, and how the parser cuts a chain of class loaders. -/

namespace Art.ClassLoaderContext
open List Function

variable {a b s : Str} {c : Char} {k pos : Nat} {info : ClassLoaderInfo}

/-! ### Searching -/

theorem findIdx_of_not_mem (h : c ∉ s) : s.findIdx? (· == c) = none := by
  rw [findIdx?_eq_none_iff]
  intro x hx
  rw [beq_eq_false_iff_ne]
  rintro rfl
  exact h hx

theorem findIdx_append (h : c ∉ a) : (a ++ b).findIdx? (· == c) = (b.findIdx? (· == c)).map (· + a.length) := by
  rw [findIdx?_append, findIdx_of_not_mem h, Option.none_or]

theorem findIdx_append_cons (h : c ∉ a) : (a ++ c :: b).findIdx? (· == c) = some a.length := by
  rw [findIdx_append h]
  simp [findIdx?_cons]

theorem pos_of_findIdx {x : Char} (hx : x ≠ c) (h : (x :: s).findIdx? (· == c) = some k) : 0 < k := by
  rcases k with _ | k
  · simp [findIdx?_cons, hx] at h
  · exact Nat.succ_pos k

theorem map_add_map (o : Option Nat) (m n : Nat) : (o.map (· + m)).map (· + n) = o.map (· + (m + n)) := by
  cases o <;> simp [Nat.add_assoc]

theorem findFirstOf_append (h : pos = a.length) :
    findFirstOf (a ++ s) c pos = (s.findIdx? (· == c)).map (· + a.length) := by
  rw [findFirstOf, h, drop_left]

theorem findFirstOf_lt {n : Nat} (h : findFirstOf s c pos = some n) : n < s.length := by
  obtain ⟨k, hk, rfl⟩ := Option.map_eq_some_iff.mp h
  obtain ⟨hlt, -⟩ := findIdx?_eq_some_iff_getElem.mp hk
  rw [length_drop] at hlt
  omega

/-! ### Closing marks -/

/-- Where the list that is open `k` times ends, character by character. -/
@[grind =] def closeAt : Nat → Str → Option Nat
  | _, [] => none
  | k, c :: s =>
    if c = '\x7d' then (if k - 1 = 0 then some 0 else (closeAt (k - 1) s).map (· + 1))
    else if c = '\x7b' then (closeAt (k + 1) s).map (· + 1)
    else (closeAt k s).map (· + 1)

/-- A string without marks of shared libraries. -/
def BraceFree (s : Str) : Prop := '\x7b' ∉ s ∧ '\x7d' ∉ s

/-- Every list that is opened in the string is closed in it. -/
def Balanced (s : Str) : Prop := ∀ k b, 0 < k → closeAt k (s ++ b) = (closeAt k b).map (· + s.length)

theorem BraceFree.balanced (h : BraceFree s) : Balanced s := by
  intro k b hk
  induction s with
  | nil => simp
  | cons c s ih =>
    have hc : c ≠ '\x7d' := fun he => h.2 (he ▸ mem_cons_self)
    have hc' : c ≠ '\x7b' := fun he => h.1 (he ▸ mem_cons_self)
    rw [cons_append, closeAt, if_neg hc, if_neg hc',
      ih ⟨fun hm => h.1 (mem_cons_of_mem _ hm), fun hm => h.2 (mem_cons_of_mem _ hm)⟩, Option.map_map]
    rfl

theorem Balanced.append (ha : Balanced a) (hb : Balanced b) : Balanced (a ++ b) := by
  intro k r hk
  rw [append_assoc, ha k _ hk, hb k _ hk, map_add_map, length_append, Nat.add_comm]

theorem balanced_nil : Balanced [] := fun k b _ => by simp

theorem closeAt_one (h : Balanced s) (b : Str) : closeAt 1 (s ++ '\x7d' :: b) = some s.length := by
  rw [h 1 _ Nat.one_pos, closeAt]
  simp

theorem Balanced.braces (h : Balanced s) : Balanced ('\x7b' :: s ++ ['\x7d']) := by
  intro k b hk
  have hne : k + 1 - 1 ≠ 0 := by omega
  have hdiff : ('\x7b' : Char) ≠ '\x7d' := by decide
  rw [append_assoc, cons_append, closeAt, if_neg hdiff, if_pos rfl, h (k + 1) _ (Nat.succ_pos k),
    singleton_append, closeAt, if_pos rfl, if_neg hne, Nat.add_sub_cancel, map_add_map, map_add_map]
  simp [Nat.add_comm]

theorem closeAt_none (h : '\x7d' ∉ s) : closeAt k s = none := by
  induction s generalizing k with
  | nil => rfl
  | cons c s ih =>
    have hc : c ≠ '\x7d' := fun he => h (he ▸ mem_cons_self)
    have hs : '\x7d' ∉ s := fun hm => h (mem_cons_of_mem _ hm)
    rw [closeAt, if_neg hc]
    split_ifs <;> rw [ih hs] <;> rfl

/-- `FindMatchingSharedLibraryCloseMarker` finds the closing mark in strings that its index can address. -/
theorem closeMarkerLoop_eq {spec : Str} (hlen : spec.length < 2 ^ 32) : ∀ (fuel k i : Nat), 0 < k → i ≤ spec.length →
    spec.length - i < fuel → closeMarkerLoop spec fuel k i = .ok ((closeAt k (spec.drop i)).map (· + i)) := by
  intro fuel
  induction fuel with
  | zero => intro k i _ _ hfuel; omega
  | succ fuel ih =>
    intro k i hk hi hfuel
    have hrest : ∀ {x y : Str} {c : Char}, spec.drop i = x ++ c :: y →
        spec.drop (x.length + i + 1) = y ∧ x.length + i + 1 ≤ spec.length := by
      intro x y c h
      have hl := congrArg length h
      rw [length_drop, length_append, length_cons] at hl
      refine ⟨?_, by omega⟩
      rw [show x.length + i + 1 = i + (x.length + 1) by omega, ← drop_drop, h, append_cons, drop_left' (by simp)]
    rw [closeMarkerLoop]
    simp only [findFirstOf, kClassLoaderSharedLibraryClosingMark, kClassLoaderSharedLibraryOpeningMark]
    by_cases hclose : '\x7d' ∈ spec.drop i
    · obtain ⟨x, y, hxy, hx⟩ := eq_append_cons_of_mem hclose
      obtain ⟨hdrop, hle⟩ := hrest hxy
      have hcloseIdx : (spec.drop i).findIdx? (· == '\x7d') = some x.length := hxy ▸ findIdx_append_cons hx
      rw [hcloseIdx]
      by_cases hopen : '\x7b' ∈ x
      · -- A list is opened first.
        obtain ⟨x1, x2, hx12, hx1⟩ := eq_append_cons_of_mem hopen
        have hxy' : spec.drop i = x1 ++ '\x7b' :: (x2 ++ '\x7d' :: y) := by
          rw [hxy, hx12, append_assoc, cons_append]
        obtain ⟨hdrop', hle'⟩ := hrest hxy'
        have hlt : x1.length < x.length := by
          rw [hx12, length_append, length_cons]
          omega
        have hopenIdx : (spec.drop i).findIdx? (· == '\x7b') = some x1.length := hxy' ▸ findIdx_append_cons hx1
        have hfree : BraceFree x1 := ⟨hx1, fun hm => hx (hx12 ▸ mem_append_left _ hm)⟩
        have hdiff : ('\x7b' : Char) ≠ '\x7d' := by decide
        rw [hopenIdx]
        simp only [Option.map_some]
        rw [if_neg (by omega), Nat.mod_eq_of_lt (by omega), ih (k + 1) _ (by omega) hle' (by omega), hdrop',
          hxy', hfree.balanced k _ hk, closeAt, if_neg hdiff, if_pos rfl, map_add_map, map_add_map]
        congr 2
        funext n
        omega
      · -- A list is closed first.
        have hfree : BraceFree x := ⟨hopen, hx⟩
        have hstep : closeAt k (spec.drop i) = if k - 1 = 0 then some x.length else
            (closeAt (k - 1) y).map (· + (x.length + 1)) := by
          rw [hxy, hfree.balanced k _ hk, closeAt, if_pos rfl]
          split_ifs
          · simp
          · rw [map_add_map, Nat.add_comm]
        have hloop : (if k - 1 = 0 then .ok (some (x.length + i)) else
            closeMarkerLoop spec fuel (k - 1) ((x.length + i + 1) % 2 ^ 32)) =
            Except.ok ((closeAt k (spec.drop i)).map (· + i)) := by
          rw [hstep]
          split_ifs with hk0
          · rfl
          rw [Nat.mod_eq_of_lt (by omega), ih (k - 1) _ (by omega) hle (by omega), hdrop, map_add_map]
          congr 2
          funext n
          omega
        have hlater : ∀ o, (spec.drop i).findIdx? (· == '\x7b') = some o → x.length < o := by
          intro o ho
          rw [hxy, findIdx_append hopen] at ho
          obtain ⟨o', ho', rfl⟩ := Option.map_eq_some_iff.mp ho
          have := pos_of_findIdx (by decide) ho'
          omega
        rcases ho : (spec.drop i).findIdx? (· == '\x7b') with _ | o
        · exact hloop
        · simp only [Option.map_some]
          rw [if_pos (by have := hlater o ho; omega)]
          exact hloop
    · rw [findIdx_of_not_mem hclose, closeAt_none hclose]
      rfl

theorem findMatching_eq {spec : Str} (hlen : spec.length < 2 ^ 32) {a s b : Str} (hs : Balanced s)
    (hspec : spec = a ++ '\x7b' :: s ++ '\x7d' :: b) {opening : Nat} (ho : opening = a.length) :
    findMatchingSharedLibraryCloseMarker spec opening = .ok (some (a.length + s.length + 1)) := by
  have hl : spec.length = a.length + (s.length + (b.length + 1) + 1) := by
    rw [hspec, append_assoc, length_append, length_append, length_cons, length_cons]
    omega
  have hdrop : spec.drop (opening + 1) = s ++ '\x7d' :: b := by
    rw [hspec, ho, append_assoc, cons_append, append_cons, drop_left' (by simp)]
  rw [findMatchingSharedLibraryCloseMarker, Nat.mod_eq_of_lt (by omega),
    closeMarkerLoop_eq hlen _ 1 _ Nat.one_pos (by omega) (by omega), hdrop, closeAt_one hs, ho]
  simp only [Option.map_some]
  congr 2
  omega

/-! ### Encodings -/

/-- A location that can be told apart from the marks around it. -/
def PlainLocation (location : Str) : Prop :=
  location ≠ [] ∧ ∀ c ∈ location, c ∉ ['[', ']', '\x7b', '\x7d', '#', '~', ';', ':', '*']

/-- What is needed of a class loader to read its class path back. -/
structure PlainLoader (info : ClassLoaderInfo) : Prop where
  length : info.checksums.length = info.classpath.length
  locations : ∀ location ∈ info.classpath, PlainLocation location
  nonNull : ∀ location ∈ info.classpath, '\x00' ∉ location
  inMemory : info.type = .inMemoryDexClassLoader →
    ∀ location ∈ info.classpath, location = kInMemoryDexClassLoaderDexLocationMagic

theorem mem_intercalate {x : Char} : ∀ {ls : List Str}, c ∈ [x].intercalate ls → c = x ∨ ∃ l ∈ ls, c ∈ l
  | [], h => nomatch h
  | [l], h => .inr ⟨l, mem_cons_self, by simpa [intercalate] using h⟩
  | l :: l' :: ls, h => by
    rw [intercalate_cons_cons, append_assoc, mem_append, singleton_append, mem_cons] at h
    rcases h with h | rfl | h
    · exact .inr ⟨l, mem_cons_self, h⟩
    · exact .inl rfl
    · rcases mem_intercalate h with h | ⟨l'', hl, hc⟩
      · exact .inl h
      · exact .inr ⟨l'', mem_cons_of_mem _ hl, hc⟩

theorem isDigit_of_mem_decimal {n : Nat} (h : c ∈ decimal n) : c.isDigit = true :=
  Nat.isDigit_of_mem_toDigits (b := 10) (n := n) (by decide) (by decide) h

variable {type : ClassLoaderType}

theorem mem_encodeElement {location : Str} {checksum : UInt32} (h : c ∈ encodeElement type location checksum) :
    c ∈ kInMemoryDexClassLoaderDexLocationMagic ∨ c ∈ cStr location ∨ c = '*' ∨ c.isDigit = true := by
  rw [encodeElement, mem_append, mem_cons] at h
  rcases h with h | h | h
  · split_ifs at h
    · exact .inl h
    · exact .inr (.inl h)
  · exact .inr (.inr (.inl h))
  · exact .inr (.inr (.inr (isDigit_of_mem_decimal h)))

variable {checksums : List UInt32} {locations : List Str}

theorem mem_zipWith_encodeElement {l : Str} (h : l ∈ zipWith (encodeElement type) locations checksums) :
    ∃ location ∈ locations, ∃ checksum, l = encodeElement type location checksum := by
  rw [← map_uncurry_zip_eq_zipWith, mem_map] at h
  obtain ⟨⟨location, checksum⟩, hmem, rfl⟩ := h
  exact ⟨location, (of_mem_zip hmem).1, checksum, rfl⟩

def classpathText (type : ClassLoaderType) (locations : List Str) (checksums : List UInt32) : Str :=
  [':'].intercalate (zipWith (encodeElement type) locations checksums)

theorem encodeClassPath_eq (type : ClassLoaderType) (locations : List Str) (checksums : List UInt32) :
    encodeClassPath type locations checksums =
      getClassLoaderTypeName type ++ '[' :: classpathText type locations checksums ++ [']'] := rfl

theorem mem_cStr (h : c ∈ cStr s) : c ∈ s ∧ c ≠ '\x00' := by
  refine ⟨(takeWhile_sublist _).subset h, fun he => ?_⟩
  have := mem_takeWhile_imp h
  rw [he] at this
  cases this

variable (h : ∀ location ∈ locations, PlainLocation location)

include h

/-- No mark of the format is in the text of a class path. -/
theorem classpathText_marks (hc : c ∈ classpathText type locations checksums) :
    c ∉ ['[', ']', '\x7b', '\x7d', '#', '~', ';'] := by
  have hdigit : c.isDigit = true → c ∉ ['[', ']', '\x7b', '\x7d', '#', '~', ';'] := by
    intro hd hm
    simp only [mem_cons, not_mem_nil, or_false] at hm
    rcases hm with rfl | rfl | rfl | rfl | rfl | rfl | rfl <;> cases hd
  rcases mem_intercalate hc with rfl | ⟨l, hl, hcl⟩
  · decide
  obtain ⟨location, hloc, checksum, rfl⟩ := mem_zipWith_encodeElement hl
  rcases mem_encodeElement hcl with hm | hm | rfl | hd
  · have hmagic : ∀ c ∈ kInMemoryDexClassLoaderDexLocationMagic, c ∉ ['[', ']', '\x7b', '\x7d', '#', '~', ';'] := by
      simp [kInMemoryDexClassLoaderDexLocationMagic]
    exact hmagic c hm
  · have := (h location hloc).2 c (mem_cStr hm).1
    simp only [mem_cons, not_mem_nil, or_false, not_or] at this ⊢
    tauto
  · decide
  · exact hdigit hd

theorem encodeClassPath_marks (hc : c ∈ encodeClassPath type locations checksums) :
    c ∉ ['\x7b', '\x7d', '#', '~', ';'] := by
  rw [encodeClassPath_eq, append_assoc, mem_append, cons_append, mem_cons, mem_append, mem_singleton] at hc
  rcases hc with hc | rfl | hc | rfl
  · have hname : ∀ c ∈ getClassLoaderTypeName type, c ∉ ['\x7b', '\x7d', '#', '~', ';'] := by
      cases type <;> simp [getClassLoaderTypeName]
    exact hname c hc
  · decide
  · have := classpathText_marks h hc
    tauto
  · decide

omit h

/-- A shared library in a list, marked if it is loaded after the dex path. -/
def encodeEntry (entry : Bool × ClassLoaderInfo) : Str :=
  (if entry.1 then ['~'] else []) ++ encodeContextInternal entry.2

/-- The shared libraries of a loader in the order of their encoding. -/
def entries (libraries after : List ClassLoaderInfo) : List (Bool × ClassLoaderInfo) :=
  libraries.map (false, ·) ++ after.map (true, ·)

def joinEntries : List (Bool × ClassLoaderInfo) → Str
  | [] => []
  | entry :: rest => encodeEntry entry ++ rest.flatMap fun e => '#' :: encodeEntry e

theorem joinEntries_cons_cons (e e' : Bool × ClassLoaderInfo) (rest : List (Bool × ClassLoaderInfo)) :
    joinEntries (e :: e' :: rest) = encodeEntry e ++ '#' :: joinEntries (e' :: rest) := by
  simp [joinEntries]

theorem encodeSharedLibraries_false : ∀ libraries : List ClassLoaderInfo,
    encodeSharedLibraries false libraries = (libraries.map (false, ·)).flatMap fun e => '#' :: encodeEntry e
  | [] => by simp [encodeSharedLibraries]
  | l :: ls => by
    simp [encodeSharedLibraries, encodeSharedLibraries_false ls, encodeEntry, kClassLoaderSharedLibrarySeparator]

theorem encodeSharedLibrariesAfter_false : ∀ after : List ClassLoaderInfo,
    encodeSharedLibrariesAfter false after = (after.map (true, ·)).flatMap fun e => '#' :: encodeEntry e
  | [] => by simp [encodeSharedLibrariesAfter]
  | l :: ls => by
    simp [encodeSharedLibrariesAfter, encodeSharedLibrariesAfter_false ls, encodeEntry,
      kClassLoaderSharedLibrarySeparator, kClassLoaderSharedLibraryAfterSeparator]

theorem encode_entries (libraries after : List ClassLoaderInfo) :
    encodeSharedLibraries true libraries ++ encodeSharedLibrariesAfter libraries.isEmpty after =
      joinEntries (entries libraries after) := by
  rcases libraries with _ | ⟨l, ls⟩
  · rcases after with _ | ⟨l, ls⟩
    · simp [encodeSharedLibraries, encodeSharedLibrariesAfter, entries, joinEntries]
    · simp [encodeSharedLibraries, encodeSharedLibrariesAfter, encodeSharedLibrariesAfter_false, entries, joinEntries,
        encodeEntry, kClassLoaderSharedLibraryAfterSeparator]
  · simp [encodeSharedLibraries, encodeSharedLibraries_false, encodeSharedLibrariesAfter_false, entries, joinEntries,
      encodeEntry]

def librariesText (libraries after : List ClassLoaderInfo) : Str :=
  if entries libraries after = [] then [] else '\x7b' :: joinEntries (entries libraries after) ++ ['\x7d']

def loaderText : ClassLoaderInfo → Str
  | .mk type classpath checksums libraries after _ =>
    encodeClassPath type classpath checksums ++ librariesText libraries after

theorem encode_eq (info : ClassLoaderInfo) :
    encodeContextInternal info = loaderText info ++ encodeParent info.parent := by
  obtain ⟨type, classpath, checksums, libraries, after, parent⟩ := info
  have hempty : (libraries.isEmpty && after.isEmpty) = true ↔ entries libraries after = [] := by
    simp [entries]
  rw [encodeContextInternal, loaderText, librariesText]
  by_cases h : entries libraries after = []
  · rw [if_pos h, if_pos (hempty.mpr h)]
    rfl
  · rw [if_neg h, if_neg fun he => h (hempty.mp he), append_assoc _ _ [_], ← encode_entries]
    simp [kClassLoaderSharedLibraryOpeningMark, kClassLoaderSharedLibraryClosingMark, ClassLoaderInfo.parent]

theorem encodeClassPath_ne_nil (type : ClassLoaderType) (locations : List Str) (checksums : List UInt32) :
    encodeClassPath type locations checksums ≠ [] := by
  rw [encodeClassPath_eq]
  simp

theorem encode_ne_nil (info : ClassLoaderInfo) : encodeContextInternal info ≠ [] := by
  rw [encode_eq]
  obtain ⟨type, classpath, checksums, libraries, after, parent⟩ := info
  rw [loaderText]
  simp [encodeClassPath_ne_nil]

/-! ### Nesting -/

include h

theorem not_mem_encodeClassPath (hc : c ∈ ['\x7b', '\x7d', '#', '~', ';']) :
    c ∉ encodeClassPath type locations checksums := fun hm => encodeClassPath_marks h hm hc

theorem braceFree_encodeClassPath : BraceFree (encodeClassPath type locations checksums) :=
  ⟨not_mem_encodeClassPath h (by decide), not_mem_encodeClassPath h (by decide)⟩

omit h

/-- Joined library texts are balanced when each is. -/
theorem balanced_joinEntries {es : List (Bool × ClassLoaderInfo)}
    (h : ∀ e ∈ es, Balanced (encodeContextInternal e.2)) : Balanced (joinEntries es) := by
  have hentry : ∀ e ∈ es, Balanced (encodeEntry e) := by
    intro e he
    refine Balanced.append (BraceFree.balanced ?_) (h e he)
    cases e.1 <;> exact ⟨by decide, by decide⟩
  have htail : ∀ rest : List (Bool × ClassLoaderInfo), (∀ e ∈ rest, Balanced (encodeEntry e)) →
      Balanced (rest.flatMap fun e => '#' :: encodeEntry e) := by
    intro rest hrest
    induction rest with
    | nil => exact balanced_nil
    | cons e rest ih =>
      have hmark : Balanced ['#'] := BraceFree.balanced ⟨by decide, by decide⟩
      rw [flatMap_cons]
      exact (hmark.append (hrest e mem_cons_self)).append (ih fun e' he => hrest e' (mem_cons_of_mem _ he))
  rcases es with _ | ⟨e, rest⟩
  · exact balanced_nil
  · exact (hentry e mem_cons_self).append (htail rest fun e' he => hentry e' (mem_cons_of_mem _ he))

theorem mem_entries {libraries after : List ClassLoaderInfo} {e : Bool × ClassLoaderInfo}
    (h : e ∈ entries libraries after) : (e.1 = false ∧ e.2 ∈ libraries) ∨ (e.1 = true ∧ e.2 ∈ after) := by
  rw [entries, mem_append, mem_map, mem_map] at h
  rcases h with ⟨l, hl, rfl⟩ | ⟨l, hl, rfl⟩
  · exact .inl ⟨rfl, hl⟩
  · exact .inr ⟨rfl, hl⟩

/-- The encoding of plain loaders is balanced. -/
theorem balanced_encode (info : ClassLoaderInfo) (h : Everywhere PlainLoader info) :
    Balanced (encodeContextInternal info) := by
  induction info using ClassLoaderInfo.tree_induction with
  | h type classpath checksums libraries after parent hlibs hafter hparent =>
    obtain ⟨hplain, hl, ha, hp⟩ := everywhere_iff.mp h
    rw [encode_eq, loaderText]
    refine Balanced.append (Balanced.append (braceFree_encodeClassPath hplain.locations).balanced ?_) ?_
    · rw [librariesText]
      split_ifs
      · exact balanced_nil
      refine (balanced_joinEntries fun e he => ?_).braces
      rcases mem_entries he with ⟨-, hm⟩ | ⟨-, hm⟩
      · exact hlibs _ hm (hl _ hm)
      · exact hafter _ hm (ha _ hm)
    · rcases parent with _ | q
      · exact balanced_nil
      · have hmark : Balanced [';'] := BraceFree.balanced ⟨by decide, by decide⟩
        exact hmark.append (hparent q rfl (hp q rfl))

theorem balanced_libraries {classpath : List Str}
    {libraries after : List ClassLoaderInfo} {parent : Option ClassLoaderInfo}
    (h : Everywhere PlainLoader (.mk type classpath checksums libraries after parent)) :
    Balanced (joinEntries (entries libraries after)) := by
  obtain ⟨-, hl, ha, -⟩ := everywhere_iff.mp h
  refine balanced_joinEntries fun e he => ?_
  rcases mem_entries he with ⟨-, hm⟩ | ⟨-, hm⟩
  · exact balanced_encode _ (hl _ hm)
  · exact balanced_encode _ (ha _ hm)

/-- In the chain of a class loader, only the last one has shared libraries. -/
def LibrariesLast : ClassLoaderInfo → Prop
  | .mk _ _ _ _ _ none => True
  | .mk _ _ _ libraries after (some parent) => libraries = [] ∧ after = [] ∧ LibrariesLast parent

/-- A chain without shared libraries, or the first list of shared libraries of a chain with what follows. -/
inductive ChainText (info : ClassLoaderInfo) : Prop
  | plain (noList : '\x7b' ∉ encodeContextInternal info) (noSeparator : '#' ∉ encodeContextInternal info)
      (librariesLast : LibrariesLast info)
  | last (a b : Str) (eq : encodeContextInternal info = a ++ '\x7b' :: b ++ ['\x7d']) (free : BraceFree a)
      (noSeparator : '#' ∉ a) (balanced : Balanced b) (librariesLast : LibrariesLast info)
  | inner (a b d : Str) (eq : encodeContextInternal info = a ++ '\x7b' :: b ++ '\x7d' :: ';' :: d) (free : BraceFree a)
      (noSeparator : '#' ∉ a) (balanced : Balanced b) (librariesLast : ¬LibrariesLast info)

/-- The encoding of plain loaders is a chain of loader texts. -/
theorem chainText (info : ClassLoaderInfo) (h : Everywhere PlainLoader info) : ChainText info := by
  induction info using ClassLoaderInfo.tree_induction with
  | h type classpath checksums libraries after parent _ _ hparent =>
    obtain ⟨hplain, -, -, hp⟩ := everywhere_iff.mp h
    have hfree : BraceFree (encodeClassPath type classpath checksums) := braceFree_encodeClassPath hplain.locations
    have hhash : '#' ∉ encodeClassPath type classpath checksums := not_mem_encodeClassPath hplain.locations (by decide)
    have hbal := balanced_libraries h
    have heq := encode_eq (.mk type classpath checksums libraries after parent)
    rw [loaderText, librariesText] at heq
    generalize encodeClassPath type classpath checksums = path at hfree hhash heq
    by_cases hnone : entries libraries after = []
    · -- The first loader has no libraries: the list, if any, is one of its parents.
      rw [if_pos hnone, append_nil] at heq
      obtain ⟨rfl, rfl⟩ : libraries = [] ∧ after = [] := by simpa [entries] using hnone
      rcases parent with _ | q
      · rw [ClassLoaderInfo.parent, encodeParent, append_nil] at heq
        exact .plain (heq ▸ hfree.1) (heq ▸ hhash) (by simp [LibrariesLast])
      rw [ClassLoaderInfo.parent, encodeParent, kClassLoaderSeparator] at heq
      have hlast : LibrariesLast (.mk type classpath checksums [] [] (some q)) ↔ LibrariesLast q := by
        simp [LibrariesLast]
      have hcons : ∀ {x : Char} {r : Str}, x ∉ path → x ≠ ';' → x ∉ r → x ∉ path ++ ';' :: r := by
        intro x r h1 h2 h3 hm
        rw [mem_append, mem_cons] at hm
        tauto
      cases hparent q rfl (hp q rfl) with
      | plain noList noSeparator librariesLast =>
        exact .plain (heq ▸ hcons hfree.1 (by decide) noList) (heq ▸ hcons hhash (by decide) noSeparator)
          (hlast.mpr librariesLast)
      | last a b eq free noSeparator balanced librariesLast =>
        refine .last (path ++ ';' :: a) b ?_
          ⟨hcons hfree.1 (by decide) free.1, hcons hfree.2 (by decide) free.2⟩
          (hcons hhash (by decide) noSeparator) balanced (hlast.mpr librariesLast)
        rw [heq, eq]
        simp
      | inner a b d eq free noSeparator balanced librariesLast =>
        refine .inner (path ++ ';' :: a) b d ?_
          ⟨hcons hfree.1 (by decide) free.1, hcons hfree.2 (by decide) free.2⟩
          (hcons hhash (by decide) noSeparator) balanced fun hq => librariesLast (hlast.mp hq)
        rw [heq, eq]
        simp
    · rw [if_neg hnone] at heq
      rcases parent with _ | q
      · refine .last _ _ ?_ hfree hhash hbal (by simp [LibrariesLast])
        rw [heq, ClassLoaderInfo.parent, encodeParent]
        simp
      refine .inner _ _ (encodeContextInternal q) ?_ hfree hhash hbal fun hq => hnone ?_
      · rw [heq, ClassLoaderInfo.parent, encodeParent, kClassLoaderSeparator]
        simp
      · rw [LibrariesLast] at hq
        simp [entries, hq.1, hq.2.1]

/-! ### Cutting a chain -/

theorem charAt_append (h : pos = a.length) : charAt (a ++ c :: b) pos = c := by
  simp [charAt, getD, h]

theorem substr_append {d : Str} {len : Nat} (h : pos = a.length) (h' : len = b.length) :
    substr (a ++ b ++ d) pos len = b := by
  rw [substr, h, append_assoc, drop_left, h', take_left]

/-- What remains of a chain behind its first class loader. -/
def remainingText : Option ClassLoaderInfo → Str
  | none => []
  | some parent => encodeContextInternal parent

theorem findFirstOf_zero (s : Str) (c : Char) : findFirstOf s c 0 = s.findIdx? (· == c) := by
  simp [findFirstOf]

theorem nextClassLoader_plain (h : ';' ∉ a) : nextClassLoader a = .ok (a, []) := by
  rw [nextClassLoader, findFirstOf_zero, kClassLoaderSeparator, findIdx_of_not_mem h]

/-- Without libraries, a loader ends at the separator. -/
theorem nextClassLoader_separator (h : ';' ∉ a) (h' : '\x7b' ∉ a) (b : Str) :
    nextClassLoader (a ++ ';' :: b) = .ok (a, b) := by
  have hsep : findFirstOf (a ++ ';' :: b) kClassLoaderSeparator 0 = some a.length := by
    rw [findFirstOf_zero, kClassLoaderSeparator, findIdx_append_cons h]
  have hcut : substr (a ++ ';' :: b) 0 a.length = a ∧ (a ++ ';' :: b).drop (a.length + 1) = b := by
    refine ⟨by simp [substr], ?_⟩
    rw [append_cons, drop_left' (by simp)]
  rw [nextClassLoader, hsep]
  rcases ho : findFirstOf (a ++ ';' :: b) kClassLoaderSharedLibraryOpeningMark 0 with _ | opening
  · simp only [hcut.1, hcut.2]
  have hlt : opening > a.length := by
    rw [findFirstOf_zero, kClassLoaderSharedLibraryOpeningMark, findIdx_append h'] at ho
    obtain ⟨o, hidx, rfl⟩ := Option.map_eq_some_iff.mp ho
    have := pos_of_findIdx (by decide) hidx
    omega
  simp only [if_pos hlt, hcut.1, hcut.2]

/-- With libraries, a loader ends at the mark that closes their list. -/
theorem nextClassLoader_list (h : ';' ∉ a) (h' : '\x7b' ∉ a) (hs : Balanced s)
    (hb : b = [] ∨ ∃ d, d ≠ [] ∧ b = ';' :: d)
    (hlen : (a ++ '\x7b' :: s ++ '\x7d' :: b).length < 2 ^ 32) :
    nextClassLoader (a ++ '\x7b' :: s ++ '\x7d' :: b) = .ok (a ++ '\x7b' :: s ++ ['\x7d'], b.drop 1) := by
  have hopen : findFirstOf (a ++ '\x7b' :: s ++ '\x7d' :: b) kClassLoaderSharedLibraryOpeningMark 0 =
      some a.length := by
    rw [findFirstOf_zero, kClassLoaderSharedLibraryOpeningMark, append_assoc, cons_append, findIdx_append_cons h']
  have hmatch := findMatching_eq hlen hs rfl rfl
  have hl : (a ++ '\x7b' :: s ++ '\x7d' :: b).length = a.length + s.length + b.length + 2 := by
    simp only [length_append, length_cons]
    omega
  have hcut : substr (a ++ '\x7b' :: s ++ '\x7d' :: b) 0 (a.length + s.length + 1 + 1) =
      a ++ '\x7b' :: s ++ ['\x7d'] := by
    rw [append_cons]
    exact substr_append (a := []) rfl (by simp [Nat.add_assoc])
  rw [nextClassLoader, hopen]
  rcases hsep : findFirstOf (a ++ '\x7b' :: s ++ '\x7d' :: b) kClassLoaderSeparator 0 with _ | separator
  · rcases hb with rfl | ⟨d, -, rfl⟩
    · rfl
    · rw [findFirstOf_zero, kClassLoaderSeparator, findIdx?_eq_none_iff] at hsep
      have := hsep ';' (by simp)
      cases this
  have hge : ¬a.length > separator := by
    rw [findFirstOf_zero, kClassLoaderSeparator, append_assoc, findIdx_append h] at hsep
    obtain ⟨o, -, rfl⟩ := Option.map_eq_some_iff.mp hsep
    omega
  simp only [if_neg hge, hmatch, bind, Except.bind]
  rcases hb with rfl | ⟨d, hd, rfl⟩
  · rw [if_pos (by simp only [hl, length_nil]), hcut]
    rfl
  have hdl : 0 < d.length := length_pos_iff.mpr hd
  have hat : charAt (a ++ '\x7b' :: s ++ '\x7d' :: ';' :: d) (a.length + s.length + 1 + 1) = ';' := by
    rw [append_cons]
    exact charAt_append (by simp [Nat.add_assoc])
  rw [if_neg (by rw [hl, length_cons]; omega), if_neg, hcut]
  · rw [append_cons _ '\x7d' (';' :: d), append_cons _ ';' d, drop_left' (by simp [Nat.add_assoc])]
    rfl
  · rw [hat, hl, length_cons]
    simp only [kClassLoaderSeparator, ne_eq, not_true_eq_false, or_false]
    omega

/-- The first loader of an encoding is cut off from its parents. -/
theorem nextClassLoader_encode (info : ClassLoaderInfo) (h : Everywhere PlainLoader info)
    (hlen : info.sharedLibraries ++ info.sharedLibrariesAfter ≠ [] → (encodeContextInternal info).length < 2 ^ 32) :
    nextClassLoader (encodeContextInternal info) = .ok (loaderText info, remainingText info.parent) := by
  have heq := encode_eq info
  obtain ⟨type, classpath, checksums, libraries, after, parent⟩ := info
  obtain ⟨hplain, -⟩ := everywhere_iff.mp h
  have hsep : ';' ∉ encodeClassPath type classpath checksums := not_mem_encodeClassPath hplain.locations (by decide)
  have hopen : '\x7b' ∉ encodeClassPath type classpath checksums := not_mem_encodeClassPath hplain.locations (by decide)
  rw [heq] at hlen ⊢
  rw [loaderText, librariesText, ClassLoaderInfo.parent] at hlen ⊢
  split_ifs at hlen ⊢ with hnone
  · clear hlen
    rcases parent with _ | q
    · rw [encodeParent, append_nil, append_nil]
      exact nextClassLoader_plain hsep
    · rw [append_nil]
      exact nextClassLoader_separator hsep hopen _
  replace hlen := hlen fun hnil => hnone (by simpa [entries, ClassLoaderInfo.sharedLibraries,
    ClassLoaderInfo.sharedLibrariesAfter] using hnil)
  have hbal := balanced_libraries h
  have htext : ∀ p l r : Str, p ++ ('\x7b' :: l ++ ['\x7d']) ++ r = p ++ '\x7b' :: l ++ '\x7d' :: r := by simp
  rw [htext] at hlen ⊢
  rw [← append_assoc, nextClassLoader_list hsep hopen hbal ?_ hlen]
  · rcases parent with _ | q <;> rfl
  · rcases parent with _ | q
    · exact .inl rfl
    · exact .inr ⟨_, encode_ne_nil q, rfl⟩

end Art.ClassLoaderContext
