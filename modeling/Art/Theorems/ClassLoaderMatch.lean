import Art.Lib.Except
import Art.Runtime.ClassLoaderContext
import Mathlib.Data.List.Forall2

/-! What a successful comparison of a class loader context with a spec means. The comparison follows the
    shared libraries and the parents, but not the shared libraries that are loaded after the dex path. -/

namespace Art.ClassLoaderContext
open List

variable {lib : Library} {info expected : ClassLoaderInfo} {p : ClassLoaderInfo → Prop}

/-! ### Trees -/

/-- The class loaders of a tree. -/
inductive Within : ClassLoaderInfo → ClassLoaderInfo → Prop
  | root (info : ClassLoaderInfo) : Within info info
  | library {n l info : ClassLoaderInfo} (mem : l ∈ info.sharedLibraries) (within : Within n l) : Within n info
  | after {n l info : ClassLoaderInfo} (mem : l ∈ info.sharedLibrariesAfter) (within : Within n l) : Within n info
  | parent {n q info : ClassLoaderInfo} (eq : info.parent = some q) (within : Within n q) : Within n info

def Everywhere (p : ClassLoaderInfo → Prop) (info : ClassLoaderInfo) : Prop := ∀ n, Within n info → p n

theorem everywhere_iff : Everywhere p info ↔ p info ∧ (∀ l ∈ info.sharedLibraries, Everywhere p l) ∧
    (∀ l ∈ info.sharedLibrariesAfter, Everywhere p l) ∧ ∀ q, info.parent = some q → Everywhere p q := by
  constructor
  · intro h
    exact ⟨h _ (.root _), fun l hl n hn => h n (.library hl hn), fun l hl n hn => h n (.after hl hn),
      fun q hq n hn => h n (.parent hq hn)⟩
  · rintro ⟨h, hlib, hafter, hparent⟩ n hn
    cases hn with
    | root => exact h
    | library mem within => exact hlib _ mem n within
    | after mem within => exact hafter _ mem n within
    | parent eq within => exact hparent _ eq n within

theorem ClassLoaderInfo.tree_induction {motive : ClassLoaderInfo → Prop}
    (h : ∀ type classpath checksums libraries after parent, (∀ l ∈ libraries, motive l) →
      (∀ l ∈ after, motive l) → (∀ q, parent = some q → motive q) →
      motive (.mk type classpath checksums libraries after parent)) (info : ClassLoaderInfo) : motive info :=
  @ClassLoaderInfo.rec motive (fun ls => ∀ l ∈ ls, motive l) (fun o => ∀ q, o = some q → motive q) h
    (fun _ hl => nomatch hl)
    (fun _ _ hl hls l hmem => by
      rcases mem_cons.mp hmem with rfl | hmem
      · exact hl
      · exact hls l hmem)
    (fun _ hq => nomatch hq) (fun _ hq _ heq => Option.some.inj heq ▸ hq) info

theorem ClassLoaderInfo.loader_induction {motive : ClassLoaderInfo → Prop}
    (h : ∀ info, (∀ l ∈ info.sharedLibraries ++ info.sharedLibrariesAfter, motive l) →
      (∀ q, info.parent = some q → motive q) → motive info) (info : ClassLoaderInfo) : motive info :=
  info.tree_induction fun _ _ _ _ _ _ hlibs hafter hparent =>
    h _ (fun l hl => (mem_append.mp hl).elim (hlibs l) (hafter l)) hparent

/-- Every class path element has its checksum, as after the dex files have been opened. -/
def Opened (info : ClassLoaderInfo) : Prop := Everywhere (fun n => n.checksums.length = n.classpath.length) info

mutual

/-- Two trees agree node by node: types, class path elements, checksums, both kinds of shared libraries
    in order, and parents. -/
def SameTree (lib : Library) : ClassLoaderInfo → ClassLoaderInfo → Prop
  | .mk type classpath checksums libraries after parent, expected =>
    type = expected.type ∧
    List.Forall₂ (fun actual name => areDexNameMatching lib actual name = true) classpath expected.classpath ∧
    checksums = expected.checksums ∧
    SameTrees lib libraries expected.sharedLibraries ∧
    SameTrees lib after expected.sharedLibrariesAfter ∧
    SameParent lib parent expected.parent

def SameTrees (lib : Library) : List ClassLoaderInfo → List ClassLoaderInfo → Prop
  | [], [] => True
  | info :: infos, expected :: expecteds => SameTree lib info expected ∧ SameTrees lib infos expecteds
  | _, _ => False

def SameParent (lib : Library) : Option ClassLoaderInfo → Option ClassLoaderInfo → Prop
  | none, none => True
  | some parent, some expected => SameTree lib parent expected
  | _, _ => False

end

mutual

/-- Nodes that correspond over shared libraries and parents have the same shared libraries after the dex path. -/
def AfterAgree (lib : Library) : ClassLoaderInfo → ClassLoaderInfo → Prop
  | .mk _ _ _ libraries after parent, expected =>
    SameTrees lib after expected.sharedLibrariesAfter ∧
    AfterAgrees lib libraries expected.sharedLibraries ∧
    AfterAgreeParent lib parent expected.parent

def AfterAgrees (lib : Library) : List ClassLoaderInfo → List ClassLoaderInfo → Prop
  | info :: infos, expected :: expecteds => AfterAgree lib info expected ∧ AfterAgrees lib infos expecteds
  | _, _ => True

def AfterAgreeParent (lib : Library) : Option ClassLoaderInfo → Option ClassLoaderInfo → Prop
  | some parent, some expected => AfterAgree lib parent expected
  | _, _ => True

end

/-! ### The comparison -/

/-- Class paths match when their types and checksums are equal and their names match. -/
theorem classpathMatch_iff (lib : Library) (hopen : info.checksums.length = info.classpath.length)
    (hexpected : expected.checksums.length = expected.classpath.length) :
    classpathMatch lib info expected true = true ↔ info.type = expected.type ∧
      List.Forall₂ (fun actual name => areDexNameMatching lib actual name = true) info.classpath expected.classpath ∧
      info.checksums = expected.checksums := by
  simp only [classpathMatch, Bool.not_true, Bool.false_or, Bool.and_eq_true, beq_iff_eq, all_eq_true,
    mem_range, forall₂_iff_get, and_assoc]
  refine and_congr_right fun _ => ?_
  constructor
  · rintro ⟨hlen, hall⟩
    refine ⟨hlen, fun k h1 h2 => ?_, ?_⟩
    · simpa [h1, h2] using (hall k h1).1
    · refine ext_getElem (by omega) fun k h1 h2 => ?_
      simpa [h1, h2] using (hall k (by omega)).2
  · rintro ⟨hlen, hnames, hsums⟩
    refine ⟨hlen, fun k hk => ⟨?_, by rw [hsums]⟩⟩
    have := hnames k hk (hlen ▸ hk)
    simpa [hk, hlen ▸ hk] using this

mutual

theorem infoMatch_iff_sameTree (lib : Library) : ∀ info expected, Opened info → Opened expected →
    (classLoaderInfoMatch lib true info expected = true ∧ AfterAgree lib info expected ↔ SameTree lib info expected)
  | .mk type classpath checksums libraries after parent, expected, hopen, hexpected => by
    obtain ⟨hlen, hlibs, -, hparent⟩ := everywhere_iff.mp hopen
    obtain ⟨hlen', hlibs', -, hparent'⟩ := everywhere_iff.mp hexpected
    have h1 := librariesMatch_iff lib libraries expected.sharedLibraries hlibs hlibs'
    have h2 := parentMatch_iff lib parent expected.parent hparent hparent'
    have h0 := classpathMatch_iff lib hlen hlen'
    simp only [classLoaderInfoMatch, AfterAgree, SameTree, Bool.and_eq_true, ← h1, ← h2, h0,
      ClassLoaderInfo.type, ClassLoaderInfo.classpath, ClassLoaderInfo.checksums]
    tauto

theorem librariesMatch_iff (lib : Library) : ∀ infos expecteds, (∀ l ∈ infos, Opened l) → (∀ l ∈ expecteds, Opened l) →
    (librariesMatch lib true infos expecteds = true ∧ AfterAgrees lib infos expecteds ↔ SameTrees lib infos expecteds)
  | [], [], _, _ => by simp [librariesMatch, AfterAgrees, SameTrees]
  | [], _ :: _, _, _ => by simp [librariesMatch, SameTrees]
  | _ :: _, [], _, _ => by simp [librariesMatch, SameTrees]
  | info :: infos, expected :: expecteds, hopen, hexpected => by
    have h1 := infoMatch_iff_sameTree lib info expected (hopen _ mem_cons_self) (hexpected _ mem_cons_self)
    have h2 := librariesMatch_iff lib infos expecteds (fun l hl => hopen l (mem_cons_of_mem _ hl))
      (fun l hl => hexpected l (mem_cons_of_mem _ hl))
    simp only [librariesMatch, AfterAgrees, SameTrees, Bool.and_eq_true, ← h1, ← h2]
    tauto

theorem parentMatch_iff (lib : Library) : ∀ parent expected, (∀ q, parent = some q → Opened q) →
    (∀ q, expected = some q → Opened q) →
    (parentMatch lib true parent expected = true ∧ AfterAgreeParent lib parent expected ↔
      SameParent lib parent expected)
  | none, none, _, _ => by simp [parentMatch, AfterAgreeParent, SameParent]
  | none, some _, _, _ => by simp [parentMatch, SameParent]
  | some _, none, _, _ => by simp [parentMatch, SameParent]
  | some parent, some expected, hopen, hexpected => by
    have h := infoMatch_iff_sameTree lib parent expected (hopen _ rfl) (hexpected _ rfl)
    simpa only [parentMatch, AfterAgreeParent, SameParent] using h

end

/-! ### Parsed trees -/

theorem substr_subset (s : Str) (pos len : Nat) : substr s pos len ⊆ s :=
  fun _ h => mem_of_mem_drop (mem_of_mem_take h)

/-- The text of a library is cut out of the spec. -/
theorem nextSharedLibrary_subset {spec : Str} {cursor : Nat} {result : Str × Bool × Nat}
    (h : nextSharedLibrary spec cursor = .ok result) : result.1 ⊆ spec := by
  unfold nextSharedLibrary at h
  dsimp only at h
  generalize (if charAt spec cursor = kClassLoaderSharedLibraryAfterSeparator then cursor + 1 else cursor) = start at h
  split at h
  · cases h
    exact substr_subset _ _ _
  · cases h
    exact substr_subset _ _ _
  · split_ifs at h
    · cases h
      exact substr_subset _ _ _
    · obtain ⟨closing, -, h⟩ := Lib.bind_eq_ok.mp h
      split at h
      · cases h
      · cases h
        exact substr_subset _ _ _

/-- The texts of a loader and of its parents are cut out of the spec. -/
theorem nextClassLoader_subset {remaining : Str} {result : Str × Str} (h : nextClassLoader remaining = .ok result) :
    result.1 ⊆ remaining ∧ result.2 ⊆ remaining := by
  have hsub : ∀ n m, substr remaining 0 n ⊆ remaining ∧ remaining.drop m ⊆ remaining :=
    fun n m => ⟨substr_subset _ _ _, fun _ h => mem_of_mem_drop h⟩
  unfold nextClassLoader at h
  split at h
  · cases h
    exact ⟨fun _ h => h, fun _ h => nomatch h⟩
  · cases h
    exact hsub _ _
  · split_ifs at h
    · cases h
      exact hsub _ _
    · obtain ⟨closing, -, h⟩ := Lib.bind_eq_ok.mp h
      split at h
      · cases h
      split_ifs at h
      · cases h
        exact ⟨substr_subset _ _ _, fun _ h => nomatch h⟩
      · cases h
        exact hsub _ _

/-- A property that every class loader parsed from a part of a spec has. -/
structure FromSpec (lib : Library) (p : Str → ClassLoaderInfo → Prop) : Prop where
  mono : ∀ {s s' : Str} {n : ClassLoaderInfo}, s ⊆ s' → p s n → p s' n
  empty : p [] (.mk .pathClassLoader [] [] [] [] none)
  loader : ∀ {spec : Str} {type : ClassLoaderType} {k : Nat} {paths : List Str × List UInt32}
    (libraries after : List ClassLoaderInfo) (parent : Option ClassLoaderInfo),
    parseClassPath lib type true (classpathOf spec k) = .ok paths →
    p spec (.mk type paths.1 paths.2 libraries after parent)

namespace FromSpec

variable {p : Str → ClassLoaderInfo → Prop} {spec : Str}

theorem everywhere_mono (hp : FromSpec lib p) {s s' : Str} (hs : s ⊆ s') (h : Everywhere (p s) info) :
    Everywhere (p s') info := fun n hn => hp.mono hs (h n hn)

/-- What holds of a spec's loaders holds of its shared libraries. -/
theorem parseSharedLibraries (hp : FromSpec lib p) {parse : Str → Except Failure ClassLoaderInfo}
    (hparse : ∀ s info, parse s = .ok info → Everywhere (p s) info) : ∀ (fuel cursor : Nat)
    (result : List ClassLoaderInfo × List ClassLoaderInfo),
    ClassLoaderContext.parseSharedLibraries parse spec fuel cursor = .ok result →
    (∀ l ∈ result.1, Everywhere (p spec) l) ∧ ∀ l ∈ result.2, Everywhere (p spec) l := by
  intro fuel
  induction fuel with
  | zero =>
    intro cursor result h
    rw [ClassLoaderContext.parseSharedLibraries] at h
    split_ifs at h
    cases h
    simp
  | succ fuel ih =>
    intro cursor result h
    rw [ClassLoaderContext.parseSharedLibraries] at h
    split_ifs at h
    · cases h
      simp
    obtain ⟨⟨librarySpec, isAfter, cursor'⟩, hnext, h⟩ := Lib.bind_eq_ok.mp h
    obtain ⟨library, hlib, h⟩ := Lib.bind_eq_ok.mp h
    obtain ⟨rest, hrest, h⟩ := Lib.bind_eq_ok.mp h
    have hl := hp.everywhere_mono (nextSharedLibrary_subset hnext) (hparse _ _ hlib)
    have hr := ih _ _ hrest
    rw [Lib.return_eq_ok] at h
    subst h
    cases isAfter
    · simpa [hl] using hr
    · simpa [hl] using hr

/-- What holds of a spec's loaders holds of the loader with its libraries and parents. -/
theorem parseClassLoaderSpec (hp : FromSpec lib p) {parse : Str → Except Failure ClassLoaderInfo}
    (hparse : ∀ s info, parse s = .ok info → Everywhere (p s) info)
    (h : ClassLoaderContext.parseClassLoaderSpec lib parse true spec = .ok info) {s : Str} (hs : spec ⊆ s)
    {parent : Option ClassLoaderInfo} (hparent : ∀ q, parent = some q → Everywhere (p s) q) :
    Everywhere (p s) (info.withParent parent) := by
  unfold ClassLoaderContext.parseClassLoaderSpec at h
  split at h
  · cases h
  split_ifs at h
  · obtain ⟨⟨classpath, checksums⟩, hpaths, h⟩ := Lib.bind_eq_ok.mp h
    dsimp only at h
    split at h
    · cases h
    obtain ⟨libraries, hlibs, h⟩ := Lib.bind_eq_ok.mp h
    obtain ⟨h1, h2⟩ := hp.parseSharedLibraries hparse _ _ _ hlibs
    rw [Lib.return_eq_ok] at h
    subst h
    have hsub : ∀ pos len, substr spec pos len ⊆ s := fun pos len => List.Subset.trans (substr_subset spec pos len) hs
    exact everywhere_iff.mpr ⟨hp.mono hs (hp.loader _ _ _ hpaths), fun l hl => hp.everywhere_mono (hsub _ _) (h1 l hl),
      fun l hl => hp.everywhere_mono (hsub _ _) (h2 l hl), hparent⟩
  · obtain ⟨paths, hpaths, h⟩ := Lib.bind_eq_ok.mp h
    rw [Lib.return_eq_ok] at h
    subst h
    exact everywhere_iff.mpr ⟨hp.mono hs (hp.loader _ _ _ hpaths), fun _ hl => (nomatch hl), fun _ hl => (nomatch hl),
      hparent⟩

/-- What holds of a spec's loaders holds along the chain of parents. -/
theorem parseChain (hp : FromSpec lib p) {parse : Str → Except Failure ClassLoaderInfo}
    (hparse : ∀ s info, parse s = .ok info → Everywhere (p s) info) : ∀ (fuel : Nat) (s : Str)
    (result : Option ClassLoaderInfo),
    ClassLoaderContext.parseChain (ClassLoaderContext.parseClassLoaderSpec lib parse true) fuel s = .ok result →
    ∀ q, result = some q → Everywhere (p s) q
  | 0, [], _, h, _, hq => by
    cases h
    cases hq
  | _ + 1, [], _, h, _, hq => by
    cases h
    cases hq
  | 0, _ :: _, _, h, _, _ => nomatch h
  | fuel + 1, c :: s, result, h, q, hq => by
    rw [ClassLoaderContext.parseChain] at h
    obtain ⟨⟨spec, remaining⟩, hnext, h⟩ := Lib.bind_eq_ok.mp h
    obtain ⟨info, hinfo, h⟩ := Lib.bind_eq_ok.mp h
    obtain ⟨parent, hparent, h⟩ := Lib.bind_eq_ok.mp h
    rw [Lib.return_eq_ok] at h
    subst h
    cases hq
    obtain ⟨hspec, hremaining⟩ := nextClassLoader_subset hnext
    exact hp.parseClassLoaderSpec hparse hinfo hspec fun q hq =>
      hp.everywhere_mono hremaining (hp.parseChain hparse fuel remaining parent hparent q hq)

theorem parseInternal (hp : FromSpec lib p) : ∀ (fuel : Nat) (s : Str) (info : ClassLoaderInfo),
    ClassLoaderContext.parseInternal lib true fuel s = .ok info → Everywhere (p s) info
  | 0, [], _, h => nomatch h
  | _ + 1, [], _, h => nomatch h
  | 0, _ :: _, _, h => nomatch h
  | fuel + 1, c :: s, info, h => by
    rw [ClassLoaderContext.parseInternal] at h
    obtain ⟨result, hchain, h⟩ := Lib.bind_eq_ok.mp h
    rcases result with _ | root
    · cases h
    · rw [Lib.return_eq_ok] at h
      subst h
      exact hp.parseChain (hp.parseInternal fuel) _ _ _ hchain _ rfl

/-- All class loaders of a parsed tree have the property. -/
theorem parse (hp : FromSpec lib p) (h : ClassLoaderContext.parse lib spec true = .ok info) :
    Everywhere (p spec) info := by
  unfold ClassLoaderContext.parse at h
  split_ifs at h with hempty
  · cases h
    rw [hempty]
    exact everywhere_iff.mpr ⟨hp.empty, fun _ hl => (nomatch hl), fun _ hl => (nomatch hl), fun _ hq => (nomatch hq)⟩
  · exact hp.parseInternal _ _ _ h

end FromSpec

theorem parse_opened {spec : Str} (h : parse lib spec true = .ok info) : Opened info := by
  have hp : FromSpec lib fun _ n => n.checksums.length = n.classpath.length := by
    refine ⟨fun _ h => h, rfl, fun libraries after parent h => ?_⟩
    rw [parseClassPath, if_pos rfl, Lib.bind_eq_ok] at h
    obtain ⟨elements, -, h⟩ := h
    rw [Lib.return_eq_ok] at h
    subst h
    simp [ClassLoaderInfo.checksums, ClassLoaderInfo.classpath]
  exact hp.parse h

/-- A context that matches a spec is the tree parsed from it if and only if the shared libraries after the dex
    path agree: the comparison checks everything else. -/
theorem verifies_sameTree_iff (lib : Library) (info : ClassLoaderInfo) (hopen : Opened info) (spec : Str)
    (h : verifyClassLoaderContextMatch lib info spec true true = .ok .verifies) :
    ∃ expected, parse lib spec true = .ok expected ∧
      (SameTree lib info expected ↔ AfterAgree lib info expected) := by
  unfold verifyClassLoaderContextMatch at h
  split at h
  · cases h
  · cases h
  · next expected hparse =>
    have hmatch : classLoaderInfoMatch lib true info expected = true := by
      by_contra hne
      rw [if_neg hne] at h
      cases h
    refine ⟨expected, hparse, ?_⟩
    rw [← infoMatch_iff_sameTree lib info expected hopen (parse_opened hparse), hmatch, eq_self, true_and]

/-- Decimal numbers, and paths without symbolic links. -/
def plainLibrary : Library where
  parseUint s := if s.all Char.isDigit then some (UInt32.ofNat (Nat.ofDigitChars 10 s 0)) else none
  realpath := some

/-- `PCL[/a*1]` -/
def singleLoader : ClassLoaderInfo := .mk .pathClassLoader [['/', 'a']] [1] [] [] none

theorem singleLoader_opened : Opened singleLoader :=
  everywhere_iff.mpr ⟨rfl, fun _ hl => (nomatch hl), fun _ hl => (nomatch hl), fun _ hq => (nomatch hq)⟩

theorem verifies_sameTree_iff_single :
    ∃ expected, parse plainLibrary ['P', 'C', 'L', '[', 'a', '*', '1', ']'] true = .ok expected ∧
    (SameTree plainLibrary singleLoader expected ↔ AfterAgree plainLibrary singleLoader expected) :=
  verifies_sameTree_iff plainLibrary singleLoader singleLoader_opened _ (by decide)

/-- `PCL[/a*1]` matches `PCL[a*1]{~PCL[b*2]}`, which has one more class loader. -/
theorem extra_library_after_verifies :
    verifyClassLoaderContextMatch plainLibrary singleLoader
      (['P', 'C', 'L', '[', 'a', '*', '1', ']', '\x7b', '~', 'P', 'C', 'L', '[', 'b', '*', '2', ']', '\x7d'])
      true true = .ok .verifies ∧
    ∃ expected, parse plainLibrary
      (['P', 'C', 'L', '[', 'a', '*', '1', ']', '\x7b', '~', 'P', 'C', 'L', '[', 'b', '*', '2', ']', '\x7d']) true =
      .ok expected ∧ ¬SameTree plainLibrary singleLoader expected := by
  refine ⟨by decide, .mk .pathClassLoader [['a']] [1] [] [.mk .pathClassLoader [['b']] [2] [] [] none] none, rfl, ?_⟩
  simp [singleLoader, SameTree, SameTrees, ClassLoaderInfo.sharedLibrariesAfter]

end Art.ClassLoaderContext
