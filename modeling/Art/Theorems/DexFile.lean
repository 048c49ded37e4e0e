import Art.Lib.Except
import Art.Libdexfile.CodeItem
import Art.Libdexfile.InterChecks
import Art.Theorems.UtfOrder
import Mathlib.Tactic.SplitIfs

/-! Lookups in a verified dex file. Every id section has a key in a linear order by which the verifier finds its items
    ascending and the search of the section compares; what a lookup returns is then the entry with the key
    looked for. -/

namespace Art.Dex
open List

open Lib

/-! ### What the verifier has checked -/

theorem ensure_ok {passed : Bool} {reason : String} (h : ensure passed reason = .ok ()) : passed = true := by
  unfold ensure at h
  split at h
  · assumption
  · cases h

def memberKey (classIdx nameIdx thirdIdx : Nat) : ℕ ×ₗ ℕ ×ₗ ℕ := toLex (classIdx, toLex (nameIdx, thirdIdx))

theorem memberKey_eq_iff {a b c a' b' c' : Nat} : memberKey a b c = memberKey a' b' c' ↔ a = a' ∧ b = b' ∧ c = c' := by
  unfold memberKey
  simp only [EmbeddingLike.apply_eq_iff_eq, Prod.mk.injEq]

theorem lt_of_checkMemberOrder {a b c a' b' c' : Nat} {reason : String}
    (h : DexFile.checkMemberOrder (a, b, c) (a', b', c') reason = .ok ()) : memberKey a b c < memberKey a' b' c' := by
  simp only [DexFile.checkMemberOrder] at h
  simp only [memberKey, Prod.Lex.toLex_lt_toLex]
  split_ifs at h with h₁ h₂ h₃ h₄
  · exact .inr ⟨h₂, .inr ⟨h₄, by simpa using ensure_ok h⟩⟩
  · exact .inr ⟨h₂, .inl (by omega)⟩
  · exact .inl (by omega)

theorem lt_of_checkParameterOrder (prev curr : List Nat) (h : DexFile.checkParameterOrder prev curr = .ok ()) :
    prev < curr := by
  fun_induction DexFile.checkParameterOrder prev curr with
  | case1 prevIdx prev currIdx curr hlt => exact cons_lt_cons_iff.mpr (.inl hlt)
  | case2 => cases h
  | case3 prevIdx prev currIdx curr hlt hgt ih => exact cons_lt_cons_iff.mpr (.inr ⟨by omega, ih h⟩)
  | case4 prev curr hnot =>
    cases curr with
    | nil => exact absurd (ensure_ok h) (by simp)
    | cons currIdx curr =>
      cases prev with
      | nil => exact nil_lt_cons _ _
      | cons prevIdx prev => exact absurd rfl (hnot prevIdx prev currIdx curr rfl)

namespace DexFile

variable {dex : DexFile} {names : Names}

theorem checkInterSectionIterate_ok {check : Option Nat → Nat → Checked} {count : Nat}
    (h : checkInterSectionIterate check count = .ok ()) (i : Nat) (hi : i + 1 < count) :
    check (some i) (i + 1) = .ok () := by
  fun_induction checkInterSectionIterate check count with
  | case1 | case2 => omega
  | case3 n ih =>
    obtain ⟨_, hsection, hlast⟩ := bind_eq_ok.mp h
    rcases Nat.lt_or_ge (i + 1) (n + 1) with hlt | hge
    · exact ih hsection hlt
    · rwa [show i = n by omega]

def protoKey (dex : DexFile) (proto : ProtoId) : ℕ ×ₗ List ℕ := toLex (proto.returnTypeIdx, dex.parameters proto)

theorem lt_of_checkProtoOrder {prev item : ProtoId} (h : dex.checkProtoOrder prev item = .ok ()) :
    dex.protoKey prev < dex.protoKey item := by
  unfold checkProtoOrder at h
  simp only [protoKey, Prod.Lex.toLex_lt_toLex]
  split_ifs at h with h₁ h₂
  · exact .inr ⟨h₂, lt_of_checkParameterOrder _ _ h⟩
  · exact .inl (by omega)

/-- The items of every section ascend by their keys. -/
structure Ordered (dex : DexFile) : Prop where
  strings : ∀ i, i + 1 < dex.numStringIds → stringKey (dex.getStringData i) < stringKey (dex.getStringData (i + 1))
  types : ∀ i, i + 1 < dex.numTypeIds → (dex.getTypeId i).descriptorIdx < (dex.getTypeId (i + 1)).descriptorIdx
  protos : ∀ i, i + 1 < dex.numProtoIds → dex.protoKey (dex.getProtoId i) < dex.protoKey (dex.getProtoId (i + 1))
  fields : ∀ i, i + 1 < dex.numFieldIds →
    memberKey (dex.getFieldId i).classIdx (dex.getFieldId i).nameIdx (dex.getFieldId i).typeIdx <
      memberKey (dex.getFieldId (i + 1)).classIdx (dex.getFieldId (i + 1)).nameIdx (dex.getFieldId (i + 1)).typeIdx
  methods : ∀ i, i + 1 < dex.numMethodIds →
    memberKey (dex.getMethodId i).classIdx (dex.getMethodId i).nameIdx (dex.getMethodId i).protoIdx <
      memberKey (dex.getMethodId (i + 1)).classIdx (dex.getMethodId (i + 1)).nameIdx (dex.getMethodId (i + 1)).protoIdx

/-- The sections that pass the verifier's checks are ordered. -/
theorem ordered_of_checked (h : dex.checkInterIdSections names = .ok ()) : dex.Ordered := by
  obtain ⟨_, hstrings, h⟩ := bind_eq_ok.mp h
  obtain ⟨_, htypes, h⟩ := bind_eq_ok.mp h
  obtain ⟨_, hprotos, h⟩ := bind_eq_ok.mp h
  obtain ⟨_, hfields, hmethods⟩ := bind_eq_ok.mp h
  refine ⟨fun i hi => ?_, fun i hi => ?_, fun i hi => ?_, fun i hi => ?_, fun i hi => ?_⟩
  · have hitem := ensure_ok (checkInterSectionIterate_ok hstrings i hi)
    exact (compare_compares _ _).neg.mp (of_decide_eq_true hitem)
  · obtain ⟨_, -, hitem⟩ := bind_eq_ok.mp (checkInterSectionIterate_ok htypes i hi)
    exact of_decide_eq_true (ensure_ok hitem)
  · obtain ⟨_, -, hitem⟩ := bind_eq_ok.mp (checkInterSectionIterate_ok hprotos i hi)
    obtain ⟨_, -, hitem⟩ := bind_eq_ok.mp hitem
    obtain ⟨_, -, hitem⟩ := bind_eq_ok.mp hitem
    obtain ⟨_, -, hitem⟩ := bind_eq_ok.mp hitem
    exact lt_of_checkProtoOrder hitem
  · obtain ⟨_, -, hitem⟩ := bind_eq_ok.mp (checkInterSectionIterate_ok hfields i hi)
    obtain ⟨_, -, hitem⟩ := bind_eq_ok.mp hitem
    obtain ⟨_, -, hitem⟩ := bind_eq_ok.mp hitem
    exact lt_of_checkMemberOrder hitem
  · obtain ⟨_, -, hitem⟩ := bind_eq_ok.mp (checkInterSectionIterate_ok hmethods i hi)
    obtain ⟨_, -, hitem⟩ := bind_eq_ok.mp hitem
    obtain ⟨_, -, hitem⟩ := bind_eq_ok.mp hitem
    exact lt_of_checkMemberOrder hitem

/-! ### Lookups -/

theorem compareIdx_compares (x y : Nat) : Compares (compareIdx x y) x y := by
  rcases Nat.lt_trichotomy x y with hlt | rfl | hgt
  · rw [compareIdx, if_neg (by omega), if_pos hlt]
    exact compares_of_lt hlt (by decide)
  · rw [compareIdx, if_neg (by omega), if_neg (by omega)]
    exact compares_refl x
  · rw [compareIdx, if_pos hgt]
    exact compares_of_gt hgt (by decide)

theorem compareIdx3_compares (a b c a' b' c' : Nat) :
    Compares (compareIdx3 (a, b, c) (a', b', c')) (memberKey a b c) (memberKey a' b' c') := by
  have h := (compareIdx_compares a a').toLex ((compareIdx_compares b b').toLex (compareIdx_compares c c'))
  unfold compareIdx3 memberKey
  simpa only [ite_not] using h

theorem compareParameters_compares (signature types : List Nat) :
    Compares (compareParameters signature types) signature types := by
  induction signature generalizing types with
  | nil =>
    cases types with
    | nil => exact compares_refl _
    | cons y types => exact compares_of_lt (nil_lt_cons _ _) (by decide : (-1 : Int) < 0)
  | cons x signature ih =>
    cases types with
    | nil => exact compares_of_gt (nil_lt_cons _ _) (by decide : (0 : Int) < 1)
    | cons y types => exact (compares_sub x y).cons (ih types)

/-- A lookup that ends with the only one of `count` entries that is `wanted`, or with none if there is no such entry. -/
def Exact (lookup : Option (Option Nat)) (count : Nat) (wanted : Nat → Prop) : Prop :=
  ∃ r, lookup = some r ∧ ∀ i, r = some i ↔ i < count ∧ wanted i

theorem Exact.congr {lookup : Option (Option Nat)} {count : Nat} {wanted wanted' : Nat → Prop}
    (h : Exact lookup count wanted) (hiff : ∀ i < count, wanted i ↔ wanted' i) : Exact lookup count wanted' := by
  obtain ⟨r, hr, hexact⟩ := h
  exact ⟨r, hr, fun i => (hexact i).trans (and_congr_right (hiff i))⟩

theorem search_exact {κ : Type} [LinearOrder κ] {count : Nat} {compare : Nat → Int} {key : Nat → κ} {x : κ}
    (hcount : count ≤ 2 ^ 30) (hstep : ∀ i, i + 1 < count → key i < key (i + 1))
    (hcompare : ∀ i < count, Compares (compare i) x (key i)) : Exact (search count compare) count (key · = x) :=
  searchInclusive_key hcount hstep hcompare

section Lookups

variable (ord : dex.Ordered)
include ord

theorem findStringId_exact (string : CString) :
    Exact (dex.findStringId string) dex.numStringIds fun i => contents (dex.getStringData i) = contents string :=
  Exact.congr (search_exact dex.numStringIds_le ord.strings fun _ _ => compare_compares _ _)
    fun _ _ => stringKey_eq_iff

theorem findTypeIdByString_exact (stringIdx : Nat) :
    Exact (dex.findTypeIdByString stringIdx) dex.numTypeIds fun i => (dex.getTypeId i).descriptorIdx = stringIdx := by
  have hle := dex.numTypeIds_le
  unfold kDexNoIndex16 at hle
  refine search_exact (by omega) ord.types fun i hi => ?_
  rw [Nat.mod_eq_of_lt (by omega)]
  exact compareIdx_compares _ _

theorem findTypeId_exact (string : CString) :
    Exact (dex.findTypeId string) dex.numTypeIds fun i => contents (dex.stringByTypeIdx i) = contents string := by
  have hle := dex.numTypeIds_le
  unfold kDexNoIndex16 at hle
  have hkeys : ∀ i, i + 1 < dex.numTypeIds →
      stringKey (dex.stringByTypeIdx i) < stringKey (dex.stringByTypeIdx (i + 1)) :=
    fun i hi => ascending_of_step ord.strings _ _ (ord.types i hi) (dex.descriptorIdx_lt (i + 1) hi)
  refine Exact.congr (search_exact (by omega) hkeys fun i hi => ?_) fun _ _ => stringKey_eq_iff
  rw [Nat.mod_eq_of_lt (by omega)]
  exact compare_compares _ _

theorem findProtoId_exact (returnTypeIdx : Nat) (signatureTypeIdxs : List Nat) :
    Exact (dex.findProtoId returnTypeIdx signatureTypeIdxs) dex.numProtoIds fun i =>
      (dex.getProtoId i).returnTypeIdx = returnTypeIdx ∧ dex.parameters (dex.getProtoId i) = signatureTypeIdxs := by
  have hle := dex.numProtoIds_le
  unfold kDexNoIndex16 at hle
  refine Exact.congr (search_exact (x := toLex (returnTypeIdx, signatureTypeIdxs)) (by omega) ord.protos
    fun i hi => ?_) fun i _ => ?_
  · rw [Nat.mod_eq_of_lt (by omega)]
    exact (compares_sub _ _).toLex (compareParameters_compares _ _)
  · unfold protoKey
    rw [EmbeddingLike.apply_eq_iff_eq, Prod.mk.injEq]

theorem findFieldId_exact (classIdx nameIdx typeIdx : Nat) :
    Exact (dex.findFieldId classIdx nameIdx typeIdx) dex.numFieldIds fun i =>
      dex.getFieldId i = ⟨classIdx, typeIdx, nameIdx⟩ := by
  refine Exact.congr (search_exact (x := memberKey classIdx nameIdx typeIdx) dex.numFieldIds_le ord.fields
    fun i _ => compareIdx3_compares _ _ _ _ _ _) fun i _ => ?_
  rw [memberKey_eq_iff, FieldId.ext_iff]
  tauto

theorem findMethodIdByIndex_exact (classIdx nameIdx protoIdx : Nat) :
    Exact (dex.findMethodIdByIndex classIdx nameIdx protoIdx) dex.numMethodIds fun i =>
      dex.getMethodId i = ⟨classIdx, protoIdx, nameIdx⟩ := by
  refine Exact.congr (search_exact (x := memberKey classIdx nameIdx protoIdx) dex.numMethodIds_le ord.methods
    fun i _ => compareIdx3_compares _ _ _ _ _ _) fun i _ => ?_
  rw [memberKey_eq_iff, MethodId.ext_iff]
  tauto

end Lookups

end DexFile

/-! ### UTF-16 -/

/-- No four-byte form: every value is one code unit. -/
def SingleUnits (s : CString) : Prop := ∀ v ∈ contents s, v < 2 ^ 16

theorem contents_of_singleUnits {s : CString} (h : SingleUnits s) :
    contents s = codeUnits (convertModifiedUtf8ToUtf16 s) := by
  rw [convertModifiedUtf8ToUtf16_eq, codeUnits, map_flatMap]
  unfold SingleUnits at h
  generalize contents s = values at h ⊢
  induction values with
  | nil => rfl
  | cons v rest ih =>
    rw [forall_mem_cons] at h
    rw [flatMap_cons, writeUnit_single h.1, map_singleton, UInt16.toNat_ofNat_of_lt' h.1, singleton_append, ← ih h.2]

/-- A code unit pair has two encodings; strings without the one of four bytes have the same contents if and only if
    they have the same code units. -/
theorem contents_eq_iff_utf16 {s t : CString} (hs : SingleUnits s) (ht : SingleUnits t) :
    contents s = contents t ↔ convertModifiedUtf8ToUtf16 s = convertModifiedUtf8ToUtf16 t := by
  rw [contents_of_singleUnits hs, contents_of_singleUnits ht]
  exact codeUnits_injective.eq_iff

/-! ### Try items -/

def TryItem.stop (item : TryItem) : Nat := item.startAddr + item.insnCount

def TryItem.Covers (item : TryItem) (address : Nat) : Prop := item.startAddr ≤ address ∧ address < item.stop

instance (item : TryItem) (address : Nat) : Decidable (item.Covers address) := inferInstanceAs (Decidable (_ ∧ _))

/-- The first `n` items begin at `last` or later, end within `limit` and do not overlap. -/
structure TriesOrdered (items : Nat → TryItem) (n last limit : Nat) : Prop where
  start : ∀ i < n, last ≤ (items i).startAddr
  stop : ∀ i < n, (items i).stop ≤ limit
  apart : ∀ i j, i < j → j < n → (items i).stop ≤ (items j).startAddr

theorem TriesOrdered.cons {items : Nat → TryItem} {n last limit : Nat} (hstart : last ≤ (items 0).startAddr)
    (hstop : (items 0).stop ≤ limit) (h : TriesOrdered (fun i => items (i + 1)) n (items 0).stop limit) :
    TriesOrdered items (n + 1) last limit := by
  have hle : (items 0).startAddr ≤ (items 0).stop := Nat.le_add_right _ _
  refine ⟨fun i hi => ?_, fun i hi => ?_, fun i j hij hj => ?_⟩
  · cases i with
    | zero => exact hstart
    | succ i => exact hstart.trans (hle.trans (h.start i (by omega)))
  · cases i with
    | zero => exact hstop
    | succ i => exact h.stop i (by omega)
  · obtain ⟨j, rfl⟩ := Nat.exists_eq_succ_of_ne_zero (show j ≠ 0 by omega)
    cases i with
    | zero => exact h.start j (by omega)
    | succ i => exact h.apart i j (by omega) (by omega)

/-- The search finds the try block that covers the address, if there is one. -/
theorem findTryItem_exact {items : Nat → TryItem} {n last limit : Nat} (hlimit : limit < 2 ^ 32) (hn : n ≤ 2 ^ 31)
    (h : TriesOrdered items n last limit) (address : Nat) :
    ∃ r, findTryItem items n address = some r ∧ (∀ i : Nat, r = i ↔ i < n ∧ (items i).Covers address) ∧
      (r = -1 ↔ ∀ i < n, ¬ (items i).Covers address) := by
  obtain ⟨compare, hcompare⟩ : ∃ compare : Nat → Int, compare = fun mid =>
      if address < (items mid).startAddr then -1
      else if address ≥ ((items mid).startAddr + (items mid).insnCount) % 2 ^ 32 then 1 else 0 := ⟨_, rfl⟩
  have heval : ∀ i < n, compare i =
      if address < (items i).startAddr then -1 else if address ≥ (items i).stop then 1 else 0 := by
    intro i hi
    have := h.stop i hi
    rw [hcompare]
    dsimp only
    unfold TryItem.stop at this
    rw [Nat.mod_eq_of_lt (show (items i).startAddr + (items i).insnCount < 2 ^ 32 by omega)]
    rfl
  have hzero : ∀ i < n, compare i = 0 ↔ (items i).Covers address := by
    intro i hi
    rw [heval i hi, TryItem.Covers]
    split_ifs <;> simp <;> omega
  have hdesc : Descending compare n := by
    intro i j hij hj hle
    have := h.apart i j hij hj
    have : (items i).startAddr ≤ (items i).stop := Nat.le_add_right _ _
    rw [heval j hj] at hle
    rw [heval i (hij.trans hj)]
    split_ifs at hle ⊢ <;> omega
  obtain ⟨r, hr, hfound⟩ := searchHalfOpen_spec hdesc hn (n + 1) 0 n (Nat.le_refl n) (by omega) (by omega) (by omega)
  have hcover : ∀ i, r = some i ↔ i < n ∧ (items i).Covers address := fun i =>
    (hfound i).trans (and_congr_right (hzero i))
  rw [hcompare] at hr
  unfold findTryItem
  rw [hr]
  cases r with
  | none =>
    refine ⟨-1, rfl, fun i => ?_, iff_of_true rfl fun i hi hc => ?_⟩
    · rw [← hcover i]
      exact iff_of_false (by omega) nofun
    · exact nomatch (hcover i).mpr ⟨hi, hc⟩
  | some m =>
    have hm := (hcover m).mp rfl
    refine ⟨m, rfl, fun i => ?_, iff_of_false (by omega) fun hnone => hnone m hm.1 hm.2⟩
    rw [← hcover i, Option.some.injEq, Int.natCast_inj]

end Art.Dex

namespace Art.DexFileVerifier

open Lib Lib.Scan Dex

variable {c : Container}

theorem uint16At_lt (p : Nat) : uint16At c p < 2 ^ 16 := by
  have h0 := (c.memory p).toNat_lt
  have h1 := (c.memory (p + 1)).toNat_lt
  unfold uint16At
  omega

variable {s t : ScanState}

/-- Try items that pass the check are ordered and do not overlap. -/
theorem tryItems_of_check {code : CodeItem} {handlerOffsets : List Nat} (hsize : code.insnsSizeInCodeUnits < 2 ^ 31)
    (n ptr last : Nat) (h : checkTryItems c code handlerOffsets n ptr last s = (.done (), t)) :
    TriesOrdered (fun i => tryItemAt c (ptr + 8 * i)) n last code.insnsSizeInCodeUnits := by
  induction n generalizing ptr last s with
  | zero => exact ⟨by omega, by omega, by omega⟩
  | succ n ih =>
    obtain ⟨item, u, hread, hrest⟩ := bind_eq_done.mp h
    obtain rfl : tryItemAt c ptr = item := by simpa [readValue] using congrArg Prod.fst hread
    have hcount : (tryItemAt c ptr).insnCount < 2 ^ 16 := uint16At_lt (ptr + 4)
    dsimp only at hrest
    split_ifs at hrest with h₁ h₂ h₃ h₄
    · cases hrest
    · cases hrest
    · cases hrest
    · rw [Nat.mod_eq_of_lt (by omega)] at h₄ hrest
      refine TriesOrdered.cons (Nat.not_lt.mp h₁) (Nat.not_lt.mp h₄) ?_
      change TriesOrdered _ n ((tryItemAt c ptr).startAddr + (tryItemAt c ptr).insnCount) _
      simpa only [Nat.mul_add, Nat.mul_one, Nat.add_assoc, Nat.add_comm, Nat.add_left_comm] using ih _ _ hrest
    · cases hrest

theorem le_of_checkListSize {start count elemSize : Nat} {label : String}
    (h : require (checkListSize c start count elemSize label) s = (.done (), t)) :
    count ≤ (c.size - start) / elemSize := by
  obtain ⟨ok, u, hcheck, hok⟩ := bind_eq_done.mp h
  unfold checkListSize at hcheck
  split_ifs at hcheck with h₁ h₂
  · obtain ⟨_, _, -, hret⟩ := bind_eq_done.mp hcheck
    cases hret
    cases hok
  · obtain ⟨_, _, -, hret⟩ := bind_eq_done.mp hcheck
    cases hret
    cases hok
  · exact Nat.not_lt.mp h₂

theorem tryItems_of_checkTries {code : CodeItem} (hsize : code.insnsSizeInCodeUnits < 2 ^ 31)
    (h : checkTries c code s = (.done (), t)) :
    TriesOrdered (fun i => tryItemAt c (code.tryItems + 8 * i)) code.triesSize 0 code.insnsSizeInCodeUnits := by
  obtain ⟨_, _, -, h⟩ := bind_eq_done.mp h
  obtain ⟨_, _, -, h⟩ := bind_eq_done.mp h
  obtain ⟨_, _, -, h⟩ := bind_eq_done.mp h
  obtain ⟨_, _, -, h⟩ := bind_eq_done.mp h
  split_ifs at h
  · cases h
  · obtain ⟨_, _, -, h⟩ := bind_eq_done.mp h
    exact tryItems_of_check hsize _ _ _ h

/-- The try items of a code item that passes the check are ordered. -/
theorem tryItems_of_checkIntraCodeItem (hsize : c.size < 2 ^ 32) (h : checkIntraCodeItem c s = (.done (), t)) :
    TriesOrdered (fun i => tryItemAt c ((codeItemAt c s.ptr).tryItems + 8 * i)) (codeItemAt c s.ptr).triesSize 0
      (codeItemAt c s.ptr).insnsSizeInCodeUnits ∧ (codeItemAt c s.ptr).insnsSizeInCodeUnits < 2 ^ 31 := by
  obtain ⟨_, u, hptr, h⟩ := bind_eq_done.mp h
  cases hptr
  obtain ⟨_, u, -, h⟩ := bind_eq_done.mp h
  obtain ⟨code, v, hread, h⟩ := bind_eq_done.mp h
  obtain rfl : codeItemAt c s.ptr = code := by simpa [readValue] using congrArg Prod.fst hread
  split at h
  · cases h
  split at h
  · cases h
  obtain ⟨_, _, hlist, h⟩ := bind_eq_done.mp h
  have hinsns : (codeItemAt c s.ptr).insnsSizeInCodeUnits < 2 ^ 31 := by
    have := le_of_checkListSize hlist
    omega
  refine ⟨?_, hinsns⟩
  split at h
  next htries =>
    exact ⟨by omega, by omega, by omega⟩
  next => exact tryItems_of_checkTries hinsns h

end Art.DexFileVerifier

namespace Art.Dex

open Lib Lib.Scan DexFileVerifier

/-- Every lookup is exact. Strings are looked for by the values that they decode to, and where neither they nor the
    string looked for have a four-byte form, by their code units. -/
structure IdLookupsExact (dex : DexFile) : Prop where
  findStringId : ∀ string, DexFile.Exact (dex.findStringId string) dex.numStringIds fun i =>
    contents (dex.getStringData i) = contents string
  findStringIdUtf16 : ∀ string, SingleUnits string → (∀ i < dex.numStringIds, SingleUnits (dex.getStringData i)) →
    DexFile.Exact (dex.findStringId string) dex.numStringIds fun i =>
      convertModifiedUtf8ToUtf16 (dex.getStringData i) = convertModifiedUtf8ToUtf16 string
  findTypeId : ∀ string, DexFile.Exact (dex.findTypeId string) dex.numTypeIds fun i =>
    contents (dex.stringByTypeIdx i) = contents string
  findTypeIdUtf16 : ∀ string, SingleUnits string → (∀ i < dex.numTypeIds, SingleUnits (dex.stringByTypeIdx i)) →
    DexFile.Exact (dex.findTypeId string) dex.numTypeIds fun i =>
      convertModifiedUtf8ToUtf16 (dex.stringByTypeIdx i) = convertModifiedUtf8ToUtf16 string
  findTypeIdByString : ∀ stringIdx, DexFile.Exact (dex.findTypeIdByString stringIdx) dex.numTypeIds fun i =>
    (dex.getTypeId i).descriptorIdx = stringIdx
  findProtoId : ∀ returnTypeIdx signatureTypeIdxs,
    DexFile.Exact (dex.findProtoId returnTypeIdx signatureTypeIdxs) dex.numProtoIds fun i =>
      (dex.getProtoId i).returnTypeIdx = returnTypeIdx ∧ dex.parameters (dex.getProtoId i) = signatureTypeIdxs
  findFieldId : ∀ classIdx nameIdx typeIdx,
    DexFile.Exact (dex.findFieldId classIdx nameIdx typeIdx) dex.numFieldIds fun i =>
      dex.getFieldId i = ⟨classIdx, typeIdx, nameIdx⟩
  findMethodIdByIndex : ∀ classIdx nameIdx protoIdx,
    DexFile.Exact (dex.findMethodIdByIndex classIdx nameIdx protoIdx) dex.numMethodIds fun i =>
      dex.getMethodId i = ⟨classIdx, protoIdx, nameIdx⟩

/-- In a dex file whose id sections are accepted, the lookups end with the only entry that has the contents looked for;
    in code that is accepted, an address is in the try item found, or in none. -/
theorem lookups_exact (dex : DexFile) (names : Names) (hids : dex.checkInterIdSections names = .ok ()) (c : Container)
    (hsize : c.size < 2 ^ 32) :
    IdLookupsExact dex ∧ ∀ s t, checkIntraCodeItem c s = (.done (), t) → ∀ address,
      let code := codeItemAt c s.ptr
      let items := fun i => tryItemAt c (code.tryItems + 8 * i)
      ∃ r, findTryItem items code.triesSize address = some r ∧
        (∀ i : Nat, r = i ↔ i < code.triesSize ∧ (items i).Covers address) ∧
        (r = -1 ↔ ∀ i < code.triesSize, ¬ (items i).Covers address) := by
  have ord := DexFile.ordered_of_checked hids
  refine ⟨⟨DexFile.findStringId_exact ord, fun string hstring hall => ?_, DexFile.findTypeId_exact ord,
    fun string hstring hall => ?_, DexFile.findTypeIdByString_exact ord, DexFile.findProtoId_exact ord,
    DexFile.findFieldId_exact ord, DexFile.findMethodIdByIndex_exact ord⟩, ?_⟩
  · exact (DexFile.findStringId_exact ord string).congr fun i hi => contents_eq_iff_utf16 (hall i hi) hstring
  · exact (DexFile.findTypeId_exact ord string).congr fun i hi => contents_eq_iff_utf16 (hall i hi) hstring
  intro s t hcode address
  obtain ⟨htries, hlimit⟩ := tryItems_of_checkIntraCodeItem hsize hcode
  have hn : (codeItemAt c s.ptr).triesSize < 2 ^ 16 := uint16At_lt (s.ptr + 6)
  exact findTryItem_exact (by omega) (by omega) htries address

/-- A class `La;` with a field `f` of its own type and methods `f()V` and `f(La;)V`. -/
def exampleDex : DexFile where
  numStringIds := 4
  getStringData := fun i => ["La;", "V", "VL", "f"].map (fun s => s.toList.map ch) |>.getD i []
  numTypeIds := 2
  getTypeId := fun i => ⟨i⟩
  numProtoIds := 2
  getProtoId := fun i => if i = 0 then ⟨1, 1, 0, 0⟩ else ⟨2, 1, 0, 8⟩
  numFieldIds := 1
  getFieldId := fun _ => ⟨0, 0, 3⟩
  numMethodIds := 2
  getMethodId := fun i => ⟨0, i, 3⟩
  typeListAt := fun offset => if offset = 8 then some [0] else none
  descriptorIdx_lt := by decide
  numStringIds_le := by decide
  numTypeIds_le := by decide
  numProtoIds_le := by decide
  numFieldIds_le := by decide
  numMethodIds_le := by decide

def anyNames : Names := ⟨fun _ => true, fun _ => true⟩

/-- Two code units, the first of them in a try item with a handler for everything. -/
def exampleCode : Container where
  memory := fun p =>
    [0, 0, 0, 0, 0, 0, 1, 0, 0, 0, 0, 0, 2, 0, 0, 0, 0, 0, 0, 0, 0, 0, 0, 0, 1, 0, 1, 0, 1, 0, 0].getD p 0
  size := 31
  dataEnd := 31
  dataEnd_le := by decide
  stringIdsSize := 4
  typeIdsSize := 2
  protoIdsSize := 2
  fieldIdsSize := 1
  methodIdsSize := 2
  numMethodHandles := 0
  dexVersion := 39

theorem lookups_exact_example : exampleDex.checkInterIdSections anyNames = .ok () ∧ IdLookupsExact exampleDex ∧
    exampleDex.findProtoId 1 [0] = some (some 1) ∧
    (checkIntraCodeItem exampleCode ⟨0, [], ""⟩).1 = .done () ∧
    ∃ r, findTryItem (fun i => tryItemAt exampleCode (20 + 8 * i)) 1 0 = some r ∧ r = 0 := by
  have hids : exampleDex.checkInterIdSections anyNames = .ok () := by decide
  have hcode : (checkIntraCodeItem exampleCode ⟨0, [], ""⟩).1 = .done () := by decide
  obtain ⟨hlookups, htries⟩ := lookups_exact exampleDex anyNames hids exampleCode (by decide)
  obtain ⟨r, hr, hcover, -⟩ := htries ⟨0, [], ""⟩ _ (Prod.ext hcode rfl) 0
  obtain ⟨proto, hproto, hexact⟩ := hlookups.findProtoId 1 [0]
  rw [(hexact 1).mpr (by decide)] at hproto
  exact ⟨hids, hlookups, hproto, hcode, r, hr, (hcover 0).mpr (by decide)⟩

end Art.Dex
