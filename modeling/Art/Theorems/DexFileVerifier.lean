import Art.Libdexfile.DexFileVerifier
import Mathlib.Tactic.SplitIfs

/-! # Dex verification: what is read

Every check of an item that is not a string reads only bytes before the end of the file, from any cursor that the
checks can leave, also one that a skipped value has moved beyond the end. A string is different: the start of each
character is checked, its continuation bytes and the terminator are not. -/

namespace Art.DexFileVerifier

open Lib Lib.Scan
open Triple (getPtr_bind readAt_bind of_imp repeatTimes)

/-- Skipping a value moves the cursor by at most eight bytes beyond the end. -/
abbrev Reads (c : Container) {α : Type} (P : Nat → Prop) (m : Scan α) (Q : α → Nat → Prop) : Prop :=
  Triple c.size 8 P m Q

/-- The cursor stays at or behind `lo`. -/
abbrev Keeps (c : Container) (lo : Nat) {α : Type} (m : Scan α) : Prop := Reads c (lo ≤ ·) m fun _ => (lo ≤ ·)

variable {c : Container} {P : Nat → Prop} {lo : Nat}

/-! ### Checks of ranges and indexes -/

theorem checkListSize_reads {start count elemSize : Nat} (helem : 0 < elemSize) (label : String) :
    Reads c P (checkListSize c start count elemSize label)
      fun ok p => (ok = true → start + count * elemSize ≤ c.size) ∧ P p := by
  refine Triple.ite (fun _ => ?_) fun hstart => Triple.ite (fun _ => ?_) fun hcount => ?_
  · exact (Triple.setFailureReason _).bind fun _ => Triple.pure fun p hp => ⟨fun h => absurd h (by decide), hp⟩
  · exact (Triple.setFailureReason _).bind fun _ => Triple.pure fun p hp => ⟨fun h => absurd h (by decide), hp⟩
  · refine Triple.pure fun p hp => ⟨fun _ => ?_, hp⟩
    have : count * elemSize ≤ c.size - start := (Nat.le_div_iff_mul_le helem).mp (Nat.not_lt.mp hcount)
    omega

theorem checkIndex_reads (field : UInt32) (limit : Nat) (label : String) :
    Reads c P (checkIndex field limit label) fun _ => P := by
  refine Triple.ite (fun _ => ?_) fun _ => ?_
  · exact (Triple.setFailureReason _).bind fun _ => Triple.pure fun _ hp => hp
  · exact Triple.pure fun _ hp => hp

theorem requireListSize_reads {start count elemSize : Nat} (helem : 0 < elemSize) (label : String) :
    Reads c P (require (checkListSize c start count elemSize label))
      fun _ p => start + count * elemSize ≤ c.size ∧ P p :=
  (Triple.require (checkListSize_reads helem label)).conseq (fun _ hp => hp) fun _ _ h => ⟨h.1 rfl, h.2⟩

theorem requireIndex_reads (field : UInt32) (limit : Nat) (label : String) :
    Reads c P (require (checkIndex field limit label)) fun _ => P :=
  Triple.require (checkIndex_reads field limit label)

theorem nextByte_reads {Q : UInt8 → Nat → Prop} (h : ∀ p, P p → p < c.size ∧ Q (c.memory p) (p + 1)) :
    Reads c P (nextByte c) Q := by
  refine getPtr_bind fun p hp => ?_
  obtain ⟨hlt, hq⟩ := h p hp
  refine readAt_bind hlt ?_
  exact (Triple.setPtr (by omega) hq).bind fun _ => Triple.pure fun _ hq => hq

/-! ### LEB128 -/

/-- The number at `p` ends at `q`, and its bytes are before `fileEnd`. -/
def LebEnds (c : Container) (fileEnd : Nat) : Nat → Nat → Nat → Prop
  | 0, p, q => p < fileEnd ∧ q = p + 1
  | more + 1, p, q => p < fileEnd ∧ if c.memory p > 0x7f then LebEnds c fileEnd more (p + 1) q else q = p + 1

theorem LebEnds.lt {fileEnd more p q : Nat} (h : LebEnds c fileEnd more p q) : p < q ∧ q ≤ fileEnd := by
  induction more generalizing p with
  | zero =>
    obtain ⟨hlt, rfl⟩ := h
    omega
  | succ more ih =>
    obtain ⟨hlt, h⟩ := h
    split at h
    · have := ih h
      omega
    · omega

/-- The checked decoding reads inside the file, and tells where the number ends. -/
theorem decodeLeb128_checked {fileEnd : Nat} (hend : fileEnd ≤ c.size) (more : Nat) (result : UInt32) (p : Nat) :
    Reads c P (decodeLeb128 c (· < fileEnd) more result p)
      fun r q => (∀ x, r = some x → LebEnds c fileEnd more p x.2) ∧ P q := by
  induction more generalizing result p with
  | zero =>
    refine Triple.ite (fun hrange => ?_) fun _ => Triple.pure fun q hq => ⟨nofun, hq⟩
    have hlt : p < fileEnd := of_decide_eq_true hrange
    refine readAt_bind (by omega) (Triple.pure fun q hq => ⟨fun x hx => ?_, hq⟩)
    obtain rfl := Option.some.inj hx
    exact ⟨hlt, rfl⟩
  | succ more ih =>
    refine Triple.ite (fun hrange => ?_) fun _ => Triple.pure fun q hq => ⟨nofun, hq⟩
    have hlt : p < fileEnd := of_decide_eq_true hrange
    refine readAt_bind (by omega) (Triple.ite (fun hmore => ?_) fun hmore => ?_)
    · refine (ih _ (p + 1)).conseq (fun _ hp => hp) fun r q h => ⟨fun x hx => ⟨hlt, ?_⟩, h.2⟩
      rw [if_pos hmore]
      exact h.1 x hx
    · refine Triple.pure fun q hq => ⟨fun x hx => ⟨hlt, ?_⟩, hq⟩
      obtain rfl := Option.some.inj hx
      rw [if_neg hmore]

/-- The unchecked decoding reads inside the file when the number ends there. -/
theorem decodeLeb128_unchecked {fileEnd : Nat} (hend : fileEnd ≤ c.size) {more p q : Nat} (result : UInt32)
    (h : LebEnds c fileEnd more p q) :
    Reads c P (decodeLeb128 c (fun _ => true) more result p) fun r x => (∃ v, r = some (v, q)) ∧ P x := by
  induction more generalizing result p with
  | zero =>
    obtain ⟨hlt, rfl⟩ := h
    exact Triple.ite (fun _ => readAt_bind (by omega) (Triple.pure fun x hx => ⟨⟨_, rfl⟩, hx⟩)) fun h => absurd rfl h
  | succ more ih =>
    obtain ⟨hlt, h⟩ := h
    refine Triple.ite (fun _ => ?_) fun h => absurd rfl h
    refine readAt_bind (by omega) (Triple.ite (fun hmore => ?_) fun hmore => ?_)
    · rw [if_pos hmore] at h
      exact ih _ h
    · rw [if_neg hmore] at h
      subst h
      exact Triple.pure fun x hx => ⟨⟨_, rfl⟩, hx⟩

theorem decodeChecked_bind {α : Type} {p : Nat} (hp : lo ≤ p) {value : UInt32 → Nat → α} {reason : String} :
    Reads c P (do
      match ← decodeUnsignedLeb128Checked c c.size p with
      | some (v, q) => do
        setPtr q
        return value v q
      | none => error reason) fun _ q => lo < q ∧ q ≤ c.size := by
  refine (decodeLeb128_checked (Nat.le_refl _) 4 0 p).bind fun r => of_imp fun hr => ?_
  cases r with
  | none => exact Triple.error _
  | some x =>
    have := (hr x rfl).lt
    refine (Triple.setPtr (by omega) ?_).bind fun _ => Triple.pure fun _ hq => hq
    omega

theorem decodeUnsignedCheckedFrom_reads :
    Reads c (lo ≤ ·) (decodeUnsignedCheckedFrom c) fun _ q => lo < q ∧ q ≤ c.size :=
  getPtr_bind fun _ hp => decodeChecked_bind hp

theorem decodeSignedCheckedFrom_reads : Reads c (lo ≤ ·) (decodeSignedCheckedFrom c) fun _ q => lo < q ∧ q ≤ c.size :=
  getPtr_bind fun _ hp => decodeChecked_bind hp

/-! ### Lists and padding -/

variable {p : Nat}

theorem readUInt32_reads (hp : p + 4 ≤ c.size) : Reads c P (readUInt32 c p) fun _ => P := by
  refine readAt_bind (by omega) ?_
  refine readAt_bind (by omega) ?_
  refine readAt_bind (by omega) ?_
  exact readAt_bind (by omega) (Triple.pure fun _ hp => hp)

theorem checkList_reads {elementSize : Nat} (helem : 0 < elementSize) (label : String) (ptr : Nat) :
    Reads c P (checkList c elementSize label ptr) fun q p => q ≤ c.size ∧ P p := by
  refine (requireListSize_reads (by decide) label).bind fun _ => of_imp fun hfour => ?_
  refine (readUInt32_reads (by omega)).bind fun count => ?_
  refine Triple.ite (fun _ => ?_) fun hzero => ?_
  · refine (requireListSize_reads helem label).bind fun _ => ?_
    exact Triple.pure fun p hp => hp
  · refine Triple.pure fun p hp => ⟨?_, hp⟩
    have hcount : count.toNat = 0 := Nat.le_zero.mp (Nat.not_lt.mp hzero)
    rw [hcount]
    omega

theorem checkZeros_reads (n : Nat) : Reads c (· + n ≤ c.size) (checkZeros c n) fun _ q => q ≤ c.size := by
  induction n with
  | zero => exact Triple.pure fun _ hp => hp
  | succ n ih =>
    refine getPtr_bind fun p hp => ?_
    refine readAt_bind (by omega) (Triple.ite (fun _ => Triple.error _) fun _ => ?_)
    exact (Triple.setPtr (by omega) (by omega)).bind fun _ => ih

theorem checkPadding_reads (alignedOffset : Nat) :
    Reads c (fun _ => True) (checkPadding c alignedOffset) fun _ _ => True := by
  refine getPtr_bind fun offset _ => Triple.ite (fun hlt => ?_) fun _ => Triple.pure fun _ _ => trivial
  refine (requireListSize_reads (by decide) _).bind fun _ => of_imp fun hsize => ?_
  refine Triple.ite (fun _ => Triple.setPtr (by omega) trivial) fun _ => ?_
  exact (checkZeros_reads _).conseq (fun p hp => by omega) fun _ _ _ => trivial

/-! ### Encoded values -/

theorem readBytes_reads (n i : Nat) (result : UInt32) :
    Reads c (fun p => lo ≤ p ∧ p + n ≤ c.size) (readBytes c n i result) fun _ q => lo ≤ q ∧ q ≤ c.size := by
  induction n generalizing i result with
  | zero => exact Triple.pure fun _ hp => hp
  | succ n ih =>
    refine (nextByte_reads fun p hp => ?_).bind fun byte => ih (i + 1) _
    omega

theorem readUnsignedLittleEndian_reads (size : Nat) : Keeps c lo (readUnsignedLittleEndian c size) := by
  refine getPtr_bind fun p hp => ?_
  refine (checkListSize_reads (by decide) _).bind fun ok => of_imp fun hok => ?_
  refine Triple.ite (fun hyes => ?_) fun _ => Triple.pure fun q hq => hq ▸ hp
  have := hok hyes
  exact (readBytes_reads size 0 0).conseq (fun q hq => by omega) fun _ q hq => hq.1

theorem checkEncodedIndex_reads (valueArg limit : Nat) (kind label : String) :
    Keeps c lo (checkEncodedIndex c valueArg limit kind label) := by
  refine Triple.ite (fun _ => Triple.error _) fun _ => ?_
  exact (readUnsignedLittleEndian_reads _).bind fun idx => requireIndex_reads idx limit label

/-- The cursor moves by at most eight bytes, also beyond the end of the file. -/
theorem skipEncoded_reads {valueArg : Nat} (harg : valueArg ≤ 7) (maxArg : Nat) (kind : String) :
    Reads c (fun p => lo ≤ p ∧ p ≤ c.size) (skipEncoded valueArg maxArg kind) fun _ => (lo ≤ ·) := by
  refine Triple.ite (fun _ => Triple.error _) fun _ => ?_
  refine getPtr_bind fun p hp => Triple.setPtr ?_ ?_ <;> omega

theorem checkArg_reads {valueArg maxArg : Nat} {reason : String} {next : Scan Unit} {Q : Unit → Nat → Prop}
    (h : Reads c P next Q) : Reads c P (checkArg valueArg maxArg reason next) Q :=
  Triple.ite (fun _ => Triple.error _) fun _ => h

variable {checkValue : Scan Unit}

theorem checkArrayOf_reads (h : Keeps c (lo + 1) checkValue) : Keeps c lo (checkArrayOf c checkValue) := by
  refine decodeUnsignedCheckedFrom_reads.bind fun size => ?_
  exact (repeatTimes h.mapFailure size.toNat).conseq (fun q hq => hq.1) fun _ q hq => by omega

theorem checkElementsOf_reads (h : Keeps c lo checkValue) (n : Nat) (lastIdx : Option UInt32) :
    Keeps c lo (checkElementsOf c checkValue n lastIdx) := by
  induction n generalizing lastIdx with
  | zero => exact Triple.pure fun _ hp => hp
  | succ n ih =>
    refine decodeUnsignedCheckedFrom_reads.bind fun idx => ?_
    refine (requireIndex_reads idx _ _).bind fun _ => Triple.ite (fun _ => Triple.error _) fun _ => ?_
    exact (h.conseq (fun q hq => by omega) fun _ _ hq => hq).bind fun _ => ih (some idx)

theorem checkAnnotationOf_reads (h : Keeps c (lo + 1) checkValue) : Keeps c lo (checkAnnotationOf c checkValue) := by
  refine decodeUnsignedCheckedFrom_reads.bind fun annoIdx => ?_
  refine (requireIndex_reads annoIdx _ _).bind fun _ => ?_
  refine (decodeUnsignedCheckedFrom_reads.conseq (fun q hq => hq.1) fun _ _ hq => hq).bind fun size => ?_
  exact (checkElementsOf_reads h size.toNat none).conseq (fun q hq => by omega) fun _ q hq => by omega

theorem valueArg_le (headerByte : UInt8) : (headerByte >>> 5).toNat ≤ 7 := by
  have h : (headerByte >>> 5).toNat = headerByte.toNat >>> 5 := by simp
  have := headerByte.toNat_lt
  rw [h, Nat.shiftRight_eq_div_pow]
  omega

/-- The check of an encoded value reads inside the file, at every depth. -/
theorem checkEncodedValueWithin_reads (depth : Nat) (lo : Nat) (hpos : 0 < depth) (hlo : c.size < depth + lo) :
    Keeps c lo (checkEncodedValueWithin c depth) := by
  induction depth generalizing lo with
  | zero => exact absurd hpos (Nat.lt_irrefl 0)
  | succ depth ih =>
    refine getPtr_bind fun p hp => ?_
    refine (requireListSize_reads (by decide) _).bind fun _ => of_imp fun hsize => ?_
    have hheader : Reads c (· = p) (nextByte c) fun _ q => lo ≤ q ∧ q ≤ c.size := nextByte_reads fun q hq => by omega
    refine hheader.bind fun headerByte => ?_
    have harg := valueArg_le headerByte
    -- the values inside start beyond the header, which is before the end of the file
    have hvalue := ih (lo + 1) (by omega) (by omega)
    have hpre : ∀ q, lo ≤ q ∧ q ≤ c.size → lo ≤ q := fun q hq => hq.1
    dsimp only
    split
    all_goals first
      | exact skipEncoded_reads harg _ _
      | exact checkArg_reads ((checkArrayOf_reads hvalue).conseq hpre fun _ _ hq => hq)
      | exact checkArg_reads ((checkAnnotationOf_reads hvalue).conseq hpre fun _ _ hq => hq)
      | exact (checkEncodedIndex_reads _ _ _ _).conseq hpre fun _ _ hq => hq
      | exact checkArg_reads (Triple.pure hpre)
      | exact Triple.error _

theorem checkEncodedValue_reads : Keeps c lo (checkEncodedValue c) :=
  checkEncodedValueWithin_reads _ lo (by omega) (by omega)

theorem checkEncodedArray_reads : Keeps c lo (checkEncodedArray c) :=
  checkArrayOf_reads checkEncodedValue_reads

theorem checkEncodedAnnotation_reads : Keeps c lo ( checkEncodedAnnotation c) :=
  checkAnnotationOf_reads checkEncodedValue_reads

/-! ### Debug info -/

theorem checkIndexPlusOne_reads (limit : Nat) (label : String) : Keeps c lo (checkIndexPlusOne c limit label) := by
  have hpost : ∀ q, lo < q ∧ q ≤ c.size → lo ≤ q := fun q hq => by omega
  refine decodeUnsignedCheckedFrom_reads.bind fun idx => Triple.ite (fun _ => ?_) fun _ => Triple.pure hpost
  exact (requireIndex_reads _ _ _).conseq hpost fun _ _ hq => hq

theorem checkRegister_reads : Keeps c lo (checkRegister c) := by
  refine decodeUnsignedCheckedFrom_reads.bind fun regNum => Triple.ite (fun _ => Triple.error _) fun _ => ?_
  exact Triple.pure fun q hq => by omega

theorem checkDebugOpcode_reads (opcode : UInt8) : Keeps c lo (checkDebugOpcode c opcode) := by
  have hindex : ∀ limit label, Keeps c lo (checkIndexPlusOne c limit label) := checkIndexPlusOne_reads
  unfold checkDebugOpcode
  split
  · exact decodeUnsignedCheckedFrom_reads.bind fun _ => Triple.pure fun q hq => by omega
  · exact decodeSignedCheckedFrom_reads.bind fun _ => Triple.pure fun q hq => by omega
  · exact checkRegister_reads.bind fun _ => (hindex _ _).bind fun _ => hindex _ _
  · exact checkRegister_reads.bind fun _ => (hindex _ _).bind fun _ => (hindex _ _).bind fun _ => hindex _ _
  · exact checkRegister_reads
  · exact checkRegister_reads
  · exact hindex _ _
  · exact Triple.pure fun _ hp => hp

theorem checkDebugOpcodes_reads (n lo : Nat) (hpos : 0 < n) (hlo : c.size < n + lo) :
    Reads c (lo ≤ ·) (checkDebugOpcodes c n) fun _ _ => True := by
  induction n generalizing lo with
  | zero => exact absurd hpos (Nat.lt_irrefl 0)
  | succ n ih =>
    refine getPtr_bind fun p hp => Triple.ite (fun _ => Triple.fail) fun hend => ?_
    have hbyte : Reads c (· = p) (nextByte c) fun _ q => lo + 1 ≤ q := nextByte_reads fun q hq => by omega
    refine hbyte.bind fun opcode => Triple.ite (fun _ => Triple.pure fun _ _ => trivial) fun _ => ?_
    exact (checkDebugOpcode_reads opcode).bind fun _ => ih (lo + 1) (by omega) (by omega)

theorem checkIntraDebugInfoItem_reads : Reads c (fun _ => True) (checkIntraDebugInfoItem c) fun _ _ => True := by
  have hstart : Reads c (fun _ => True) (decodeUnsignedCheckedFrom c) fun _ q => 0 ≤ q :=
    decodeUnsignedCheckedFrom_reads.conseq (fun q _ => Nat.zero_le q) fun _ q _ => Nat.zero_le q
  refine hstart.bind fun _ => ?_
  refine (decodeUnsignedCheckedFrom_reads.conseq (fun _ hp => hp) fun _ q _ => Nat.zero_le q).bind fun size => ?_
  refine Triple.ite (fun _ => Triple.error _) fun _ => ?_
  refine (repeatTimes (checkIndexPlusOne_reads _ _) size.toNat).bind fun _ => ?_
  exact checkDebugOpcodes_reads _ 0 (by omega) (by omega)

/-! ### Class data -/

theorem decodeFrom_reads (reason : String) (ptr : Nat) :
    Reads c P (decodeFrom c reason ptr) fun r q => LebEnds c c.dataEnd 4 ptr r.2 ∧ P q := by
  refine (decodeLeb128_checked c.dataEnd_le 4 0 ptr).bind fun r => of_imp fun hr => ?_
  cases r with
  | none => exact Triple.error _
  | some x => exact Triple.pure fun q hq => ⟨hr x rfl, hq⟩

theorem checkOrder_reads (typeDescr : String) (currIndex prevIndex : UInt32) :
    Reads c P (require (checkOrder typeDescr currIndex prevIndex)) fun _ => P := by
  refine Triple.require (Q := fun _ => P) (Triple.ite (fun _ => ?_) fun _ => Triple.pure fun _ hp => hp)
  exact (Triple.setFailureReason _).bind fun _ => Triple.pure fun _ hp => hp

theorem checkFieldsFrom_reads (isStatic : Bool) (n : Nat) (prevIndex : UInt32) {ptr : Nat} (hptr : ptr ≤ c.size) :
    Reads c P (checkFieldsFrom c isStatic n prevIndex ptr) fun q p => q ≤ c.size ∧ P p := by
  induction n generalizing prevIndex ptr with
  | zero => exact Triple.pure fun _ hp => ⟨hptr, hp⟩
  | succ n ih =>
    refine (decodeFrom_reads _ ptr).bind fun diff => of_imp fun _ => ?_
    refine (decodeFrom_reads _ diff.2).bind fun flags => of_imp fun hflags => ?_
    have hle : flags.2 ≤ c.size := Nat.le_trans hflags.lt.2 c.dataEnd_le
    refine (requireIndex_reads _ _ _).bind fun _ => (checkOrder_reads _ _ _).bind fun _ => ?_
    exact Triple.ite (fun _ => Triple.error _) fun _ => ih _ hle

theorem checkIntraClassDataItemFields_reads (isStatic : Bool) (count : Nat) :
    Reads c (· ≤ c.size) (checkIntraClassDataItemFields c isStatic count) fun _ => (· ≤ c.size) := by
  refine getPtr_bind fun ptr hptr => ?_
  refine (checkFieldsFrom_reads isStatic count 0 hptr).bind fun q => of_imp fun hq => ?_
  exact Triple.setPtr (by omega) hq

def MethodEnds (c : Container) (p q : Nat) : Prop :=
  ∃ p₁ p₂, LebEnds c c.dataEnd 4 p p₁ ∧ LebEnds c c.dataEnd 4 p₁ p₂ ∧ LebEnds c c.dataEnd 4 p₂ q

/-- Methods one after the other that have been checked. -/
def MethodsEnd (c : Container) : Nat → Nat → Prop
  | 0, _ => True
  | n + 1, p => ∃ q, MethodEnds c p q ∧ MethodsEnd c n q

theorem decodeAgain_reads {p q : Nat} (h : LebEnds c c.dataEnd 4 p q) :
    Reads c P (decodeAgain c p) fun r x => r.2 = q ∧ P x := by
  refine (decodeLeb128_unchecked c.dataEnd_le 0 h).bind fun r => of_imp fun hr => ?_
  obtain ⟨v, rfl⟩ := hr
  exact Triple.pure fun x hx => ⟨rfl, hx⟩

theorem Method.read_reads {m : Method} {q : Nat} (h : MethodEnds c m.ptrPos q) :
    Reads c P (m.read c) fun m' x => m'.ptrPos = q ∧ P x := by
  obtain ⟨p₁, p₂, h₀, h₁, h₂⟩ := h
  refine (decodeAgain_reads h₀).bind fun ⟨diff, ptr⟩ => of_imp ?_
  rintro rfl
  refine (decodeAgain_reads h₁).bind fun ⟨_, ptr⟩ => of_imp ?_
  rintro rfl
  refine (decodeAgain_reads h₂).bind fun ⟨_, ptr⟩ => of_imp ?_
  rintro rfl
  exact Triple.pure fun x hx => ⟨rfl, hx⟩

/-- One of the remaining direct methods has been read, and the others follow. -/
def Behind (c : Container) (direct : Nat × Method) : Prop :=
  ∀ n, direct.1 = n + 1 → MethodsEnd c n direct.2.ptrPos

theorem Method.readFirst_reads {m : Method} {count : Nat} (h : MethodsEnd c count m.ptrPos) :
    Reads c P (m.readFirst c count) fun m' x => Behind c (count, m') ∧ P x := by
  cases count with
  | zero => exact Triple.pure fun x hx => ⟨nofun, hx⟩
  | succ n =>
    obtain ⟨q, hq, hrest⟩ := h
    refine (Method.read_reads hq).conseq (fun _ hx => hx) fun m' x hm => ⟨?_, hm.2⟩
    rintro j hj
    obtain rfl : n = j := Nat.succ.inj hj
    rwa [hm.1]

theorem keepUp_reads (currIndex : UInt32) (remaining : Nat) (direct : Method) (h : Behind c (remaining, direct)) :
    Reads c P (keepUp c currIndex remaining direct) fun d x => Behind c d ∧ P x := by
  induction remaining generalizing direct with
  | zero => exact Triple.pure fun x hx => ⟨h, hx⟩
  | succ n ih =>
    refine Triple.ite (fun _ => Triple.pure fun x hx => ⟨h, hx⟩) fun _ => ?_
    refine Triple.ite (fun _ => Triple.error _) fun _ => ?_
    refine Triple.ite (fun _ => Triple.pure fun x hx => ⟨nofun, hx⟩) fun hn => ?_
    obtain ⟨k, rfl⟩ := Nat.exists_eq_succ_of_ne_zero hn
    obtain ⟨q, hq, hrest⟩ := h _ rfl
    refine (Method.read_reads hq).bind fun m => of_imp fun hm => ih m ?_
    rintro j hj
    obtain rfl : k = j := Nat.succ.inj hj
    rwa [hm]

theorem checkMethodsFrom_reads (typeDescr : String) (n : Nat) (direct : Nat × Method) (prevIndex : UInt32) {ptr : Nat}
    (hptr : ptr ≤ c.size) (hdirect : Behind c direct) :
    Reads c P (checkMethodsFrom c typeDescr n direct prevIndex ptr)
      fun q p => MethodsEnd c n ptr ∧ q ≤ c.size ∧ P p := by
  induction n generalizing direct prevIndex ptr with
  | zero => exact Triple.pure fun _ hp => ⟨trivial, hptr, hp⟩
  | succ n ih =>
    obtain ⟨remaining, m⟩ := direct
    refine (decodeFrom_reads _ ptr).bind fun ⟨diff, ptr₁⟩ => of_imp fun h₁ => ?_
    refine (decodeFrom_reads _ ptr₁).bind fun ⟨_, ptr₂⟩ => of_imp fun h₂ => ?_
    refine (decodeFrom_reads _ ptr₂).bind fun ⟨_, ptr₃⟩ => of_imp fun h₃ => ?_
    have hle : ptr₃ ≤ c.size := Nat.le_trans h₃.lt.2 c.dataEnd_le
    refine (requireIndex_reads _ _ _).bind fun _ => (checkOrder_reads _ _ _).bind fun _ => ?_
    refine (keepUp_reads _ remaining m hdirect).bind fun d => of_imp fun hd => ?_
    refine (ih d _ hle hd).conseq (fun _ hp => hp) fun q p hq => ⟨⟨ptr₃, ⟨ptr₁, ptr₂, h₁, h₂, h₃⟩, hq.1⟩, hq.2⟩

/-- The methods of a list follow the cursor, and the direct methods may be read again. -/
theorem checkIntraClassDataItemMethods_reads (typeDescr : String) (numMethods : Nat) (directMethods : Method)
    (numDirectMethods : Nat) (hdirect : MethodsEnd c numDirectMethods directMethods.ptrPos)
    (hp : p ≤ c.size) :
    Reads c (· = p) (checkIntraClassDataItemMethods c typeDescr numMethods directMethods numDirectMethods)
      fun _ q => MethodsEnd c numMethods p ∧ q ≤ c.size := by
  refine getPtr_bind fun ptr hptr => ?_
  obtain rfl : p = ptr := hptr.symm
  refine (Method.readFirst_reads hdirect).bind fun direct => of_imp fun hdirect => ?_
  refine (checkMethodsFrom_reads typeDescr numMethods _ 0 hp hdirect).bind fun q => of_imp fun hmethods => ?_
  refine of_imp fun hq => Triple.setPtr (by omega) ⟨hmethods, hq⟩

theorem checkIntraClassDataItem_reads : Reads c (fun _ => True) (checkIntraClassDataItem c) fun _ _ => True := by
  refine getPtr_bind fun ptr _ => ?_
  refine (decodeFrom_reads _ ptr).bind fun ⟨staticFieldsSize, ptr₁⟩ => of_imp fun _ => ?_
  refine (decodeFrom_reads _ ptr₁).bind fun ⟨instanceFieldsSize, ptr₂⟩ => of_imp fun _ => ?_
  refine (decodeFrom_reads _ ptr₂).bind fun ⟨directMethodsSize, ptr₃⟩ => of_imp fun _ => ?_
  refine (decodeFrom_reads _ ptr₃).bind fun ⟨virtualMethodsSize, ptr₄⟩ => of_imp fun h₄ => ?_
  have hle : ptr₄ ≤ c.size := Nat.le_trans h₄.lt.2 c.dataEnd_le
  refine (Triple.setPtr (Q := (· ≤ c.size)) (by omega) hle).bind fun _ => ?_
  refine (checkIntraClassDataItemFields_reads true _).bind fun _ => ?_
  refine (checkIntraClassDataItemFields_reads false _).bind fun _ => ?_
  refine getPtr_bind fun directMethodsPtr hdirect => ?_
  refine (checkIntraClassDataItemMethods_reads _ _ _ 0 trivial hdirect).bind fun _ => of_imp fun hmethods => ?_
  refine Triple.of_forall fun p hp => ?_
  exact (checkIntraClassDataItemMethods_reads _ _ _ _ hmethods hp).conseq (fun _ hq => hq) fun _ _ _ => trivial

/-! ### Strings -/

/-- A lead byte of a character of two or three bytes. -/
def IsLead2 (byte : UInt8) : Prop := byte >>> 4 = 0xc ∨ byte >>> 4 = 0xd
def IsLead3 (byte : UInt8) : Prop := byte >>> 4 = 0xe

def IsContinuation (byte : UInt8) : Prop := byte &&& 0xc0 = 0x80

def value2 (byte byte2 : UInt8) : UInt16 := (byte.toUInt16 &&& 0x1f) <<< 6 ||| (byte2.toUInt16 &&& 0x3f)

def value3 (byte byte2 byte3 : UInt8) : UInt16 :=
  (byte.toUInt16 &&& 0x0f) <<< 12 ||| (byte2.toUInt16 &&& 0x3f) <<< 6 ||| (byte3.toUInt16 &&& 0x3f)

/-- A character of modified UTF-8 from `p` to `q`, within the file. -/
inductive Character (c : Container) (p : Nat) : Nat → Prop
  | one (hp : p + 1 ≤ c.size) (hne : c.memory p ≠ 0) (hbyte : c.memory p >>> 4 < 0x8) : Character c p (p + 1)
  | two (hp : p + 2 ≤ c.size) (hbyte : IsLead2 (c.memory p)) (hbyte2 : IsContinuation (c.memory (p + 1)))
      (hvalue : ¬ (value2 (c.memory p) (c.memory (p + 1)) ≠ 0 ∧ value2 (c.memory p) (c.memory (p + 1)) < 0x80)) :
      Character c p (p + 2)
  | three (hp : p + 3 ≤ c.size) (hbyte : IsLead3 (c.memory p)) (hbyte2 : IsContinuation (c.memory (p + 1)))
      (hbyte3 : IsContinuation (c.memory (p + 2)))
      (hvalue : ¬ value3 (c.memory p) (c.memory (p + 1)) (c.memory (p + 2)) < 0x800) : Character c p (p + 3)

/-- The file ends within a character at `p`. -/
inductive Truncated (c : Container) (p : Nat) : Prop
  | afterLead (hp : p + 1 = c.size) (hbyte : IsLead2 (c.memory p) ∨ IsLead3 (c.memory p)) : Truncated c p
  | afterContinuation (hp : p + 2 = c.size) (hbyte : IsLead3 (c.memory p))
      (hbyte2 : IsContinuation (c.memory (p + 1))) : Truncated c p

/-- From `p` to `q` there are `n` well-formed characters. -/
inductive Characters (c : Container) : Nat → Nat → Nat → Prop
  | nil (p : Nat) : Characters c 0 p p
  | cons {n p q r : Nat} (hfirst : Character c p q) (hrest : Characters c n q r) : Characters c (n + 1) p r

/-- The file ends within a string of `n` characters at `p`: before its terminator, or within one of its characters. -/
def CutOff (c : Container) (n p : Nat) : Prop :=
  Characters c n p c.size ∨ ∃ k < n, ∃ q, Characters c k p q ∧ Truncated c q

theorem Character.lt {p q : Nat} (h : Character c p q) : p < q ∧ q ≤ c.size := by
  cases h <;> omega

theorem Truncated.lt (h : Truncated c p) : p < c.size := by
  cases h <;> omega

variable {byte : UInt8}

theorem not_lead2_of_lead3 (h : IsLead3 byte) : ¬ IsLead2 byte := by
  unfold IsLead2 IsLead3 at *
  rw [h]
  decide

theorem not_lead_of_lt (h : byte >>> 4 < 0x8) : ¬ IsLead2 byte ∧ ¬ IsLead3 byte := by
  constructor
  · rintro (h' | h') <;> rw [h'] at h <;> exact absurd h (by decide)
  · intro h'
    rw [h'] at h
    exact absurd h (by decide)

/-- A character ends at one place. -/
theorem Character.unique {p q r : Nat} (h : Character c p q) (h' : Character c p r) : q = r := by
  cases h with
  | one _ _ hbyte =>
    obtain ⟨h2, h3⟩ := not_lead_of_lt hbyte
    cases h' with
    | one => rfl
    | two _ h => exact absurd h h2
    | three _ h => exact absurd h h3
  | two _ hbyte =>
    cases h' with
    | one _ _ h => exact absurd hbyte (not_lead_of_lt h).1
    | two => rfl
    | three _ h => exact absurd hbyte (not_lead2_of_lead3 h)
  | three _ hbyte =>
    cases h' with
    | one _ _ h => exact absurd hbyte (not_lead_of_lt h).2
    | two _ h => exact absurd h (not_lead2_of_lead3 hbyte)
    | three => rfl

theorem Character.not_truncated {p q : Nat} (h : Character c p q) : ¬ Truncated c p := by
  intro ht
  cases h with
  | one _ _ hbyte =>
    obtain ⟨h2, h3⟩ := not_lead_of_lt hbyte
    cases ht with
    | afterLead _ h => exact h.elim h2 h3
    | afterContinuation _ h => exact h3 h
  | two hp hbyte =>
    cases ht with
    | afterLead => omega
    | afterContinuation _ h => exact not_lead2_of_lead3 h hbyte
  | three hp =>
    cases ht <;> omega

theorem cutOff_succ {n p : Nat} : CutOff c (n + 1) p ↔ Truncated c p ∨ ∃ q, Character c p q ∧ CutOff c n q := by
  constructor
  · rintro (h | ⟨k, hk, q, h, ht⟩)
    · cases h with
      | cons hfirst hrest => exact Or.inr ⟨_, hfirst, Or.inl hrest⟩
    · cases h with
      | nil => exact Or.inl ht
      | cons hfirst hrest => exact Or.inr ⟨_, hfirst, Or.inr ⟨_, by omega, _, hrest, ht⟩⟩
  · rintro (ht | ⟨q, hfirst, h | ⟨k, hk, r, h, ht⟩⟩)
    · exact Or.inr ⟨0, by omega, p, .nil p, ht⟩
    · exact Or.inl (.cons hfirst h)
    · exact Or.inr ⟨k + 1, by omega, r, .cons hfirst h, ht⟩

theorem cutOff_zero : CutOff c 0 p ↔ p = c.size := by
  constructor
  · rintro (h | ⟨k, hk, _⟩)
    · cases h
      rfl
    · omega
  · rintro rfl
    exact Or.inl (.nil _)

def afterByte (s : ScanState) : ScanState := { s with ptr := s.ptr + 1, reads := s.ptr :: s.reads }

theorem nextByte_run (s : ScanState) : nextByte c s = (.done (c.memory s.ptr), afterByte s) := rfl

variable {s : ScanState}

theorem within_afterByte (hs : Within c.size 8 s) (hp : s.ptr < c.size) : Within c.size 8 (afterByte s) := by
  refine ⟨fun p hp' => ?_, Nat.le_trans hp (Nat.le_add_right _ _)⟩
  rcases List.mem_cons.mp hp' with rfl | hp'
  · exact hp
  · exact hs.reads p hp'

/-- A continuation byte is read and goes to the rest of the check, or the check fails behind it. -/
theorem nextContinuation_bind (f : UInt8 → Scan Unit) (s : ScanState) :
    (IsContinuation (c.memory s.ptr) ∧ (nextContinuation c >>= f) s = f (c.memory s.ptr) (afterByte s)) ∨
      (¬ IsContinuation (c.memory s.ptr) ∧
        ∃ reason, (nextContinuation c >>= f) s = (.failed, { afterByte s with failureReason := reason })) := by
  unfold nextContinuation
  by_cases h : c.memory s.ptr &&& 0xc0 = 0x80
  · refine .inl ⟨h, bind_of_done ?_⟩
    rw [bind_of_done (nextByte_run s), if_neg (not_not_intro h)]
    rfl
  · refine .inr ⟨h, "Illegal continuation byte in string data", bind_of_failed ?_⟩
    rw [bind_of_done (nextByte_run s), if_pos h]
    rfl

theorem grows_nextByte : Grows (nextByte c) :=
  grows_getPtr.bind fun _ => (grows_readAt _ _).bind fun _ => (grows_setPtr _).bind fun _ => grows_pure _

theorem grows_nextContinuation : Grows (nextContinuation c) :=
  grows_nextByte.bind fun _ => (grows_error _).ite (grows_pure _)

theorem grows_checkCharacter (byte : UInt8) : Grows (checkCharacter c byte) := by
  refine ((grows_error _).ite (grows_pure _)).ite ((grows_pure _).ite (Grows.ite ?_ (Grows.ite ?_ (grows_error _))))
  · exact grows_nextContinuation.bind fun _ => (grows_error _).ite (grows_pure _)
  · exact grows_nextContinuation.bind fun _ => grows_nextContinuation.bind fun _ => (grows_error _).ite (grows_pure _)

theorem grows_checkCharacters (n : Nat) : Grows (checkCharacters c n) := by
  induction n with
  | zero => exact grows_pure _
  | succ n ih =>
    exact grows_getPtr.bind fun _ => (grows_error _).ite
      (grows_nextByte.bind fun byte => (grows_checkCharacter byte).bind fun _ => ih)

/-! The branches of the check of a character. -/

theorem checkCharacter_one (hne : byte ≠ 0) (h : byte >>> 4 < 0x8) : checkCharacter c byte = Pure.pure () := by
  unfold checkCharacter
  split_ifs <;> rfl

theorem checkCharacter_two (h : IsLead2 byte) : checkCharacter c byte = do
    let byte2 ← nextContinuation c
    if value2 byte byte2 ≠ 0 ∧ value2 byte byte2 < 0x80 then error "Illegal representation for value in string data"
    else return () := by
  have hzero : byte >>> 4 ≠ 0 := by rcases h with h | h <;> rw [h] <;> decide
  have hlt : ¬ byte >>> 4 < 0x8 := by rcases h with h | h <;> rw [h] <;> decide
  have h : byte >>> 4 = 0xc ∨ byte >>> 4 = 0xd := h
  unfold checkCharacter
  rw [if_neg hzero, if_neg hlt, if_pos h]
  rfl

theorem checkCharacter_three (h : IsLead3 byte) : checkCharacter c byte = do
    let byte2 ← nextContinuation c
    let byte3 ← nextContinuation c
    if value3 byte byte2 byte3 < 0x800 then error "Illegal representation for value in string data"
    else return () := by
  have h2 : ¬ (byte >>> 4 = 0xc ∨ byte >>> 4 = 0xd) := not_lead2_of_lead3 h
  have h : byte >>> 4 = 0xe := h
  have hzero : byte >>> 4 ≠ 0 := by rw [h]; decide
  have hlt : ¬ byte >>> 4 < 0x8 := by rw [h]; decide
  unfold checkCharacter
  rw [if_neg hzero, if_neg hlt, if_neg h2, if_pos h]
  rfl

theorem checkCharacter_none (hone : ¬ (byte ≠ 0 ∧ byte >>> 4 < 0x8)) (htwo : ¬ IsLead2 byte)
    (hthree : ¬ IsLead3 byte) : ∃ reason, checkCharacter c byte = error reason := by
  have htwo : ¬ (byte >>> 4 = 0xc ∨ byte >>> 4 = 0xd) := htwo
  have hthree : ¬ byte >>> 4 = 0xe := hthree
  unfold checkCharacter
  split_ifs with h0 hbyte h8
  · exact ⟨_, rfl⟩
  · exact absurd ⟨hbyte, by rw [h0]; decide⟩ hone
  · refine absurd ⟨fun h => h0 ?_, h8⟩ hone
    rw [h]
    rfl
  · exact ⟨_, rfl⟩

theorem mem_reads_nextContinuation {f : UInt8 → Scan Unit} (hf : ∀ b, Grows (f b)) (s : ScanState) :
    s.ptr ∈ ((nextContinuation c >>= f) s).2.reads := by
  rcases nextContinuation_bind f s with ⟨-, hrun⟩ | ⟨-, reason, hrun⟩ <;> rw [hrun]
  · exact hf _ _ _ List.mem_cons_self
  · exact List.mem_cons_self

/-- What the check of a character does after its first byte: it reads beyond the file where the character is cut off,
    and otherwise it moves to the end of the character, or there is none and it fails. -/
def CharacterChecked (c : Container) (p : Nat) (check : Scan Unit) (s : ScanState) : Prop :=
  (Truncated c p ∧ c.size ∈ (check s).2.reads) ∨
  (∃ q t, Character c p q ∧ check s = (.done (), t) ∧ t.ptr = q ∧ Within c.size 8 t) ∨
  (¬ Truncated c p ∧ (∀ q, ¬ Character c p q) ∧ ∃ t, check s = (.failed, t) ∧ Within c.size 8 t)

section Cases

variable {s : ScanState} {p : Nat} (hs : Within c.size 8 s) (hptr : s.ptr = p + 1) (hp : p < c.size)
include hs hptr hp

/-- The check of a character of two bytes. -/
theorem checkCharacter_cases_two (h : IsLead2 (c.memory p)) :
    CharacterChecked c p (checkCharacter c (c.memory p)) s := by
  rw [checkCharacter_two h, CharacterChecked]
  by_cases hend : p + 1 = c.size
  · refine Or.inl ⟨.afterLead hend (Or.inl h), ?_⟩
    rw [← hend, ← hptr]
    exact mem_reads_nextContinuation (fun _ => (grows_error _).ite (grows_pure _)) s
  refine Or.inr ?_
  have hs' := within_afterByte hs (by omega)
  have hnot3 : ¬ IsLead3 (c.memory p) := fun h' => not_lead2_of_lead3 h' h
  have htrunc : ¬ Truncated c p := by
    rintro (⟨h, _⟩ | ⟨_, h, _⟩)
    · exact hend h
    · exact hnot3 h
  have honly : ∀ q, Character c p q → IsContinuation (c.memory (p + 1)) ∧
      ¬ (value2 (c.memory p) (c.memory (p + 1)) ≠ 0 ∧ value2 (c.memory p) (c.memory (p + 1)) < 0x80) := by
    rintro q (⟨_, _, hlt⟩ | ⟨_, _, hcont, hvalue⟩ | ⟨_, h', _⟩)
    · exact absurd h (not_lead_of_lt hlt).1
    · exact ⟨hcont, hvalue⟩
    · exact absurd h' hnot3
  rcases nextContinuation_bind _ s with ⟨hcont, hrun⟩ | ⟨hcont, reason, hrun⟩ <;> rw [hrun] <;> rw [hptr] at hcont
  · rw [hptr]
    by_cases hvalue : value2 (c.memory p) (c.memory (p + 1)) ≠ 0 ∧ value2 (c.memory p) (c.memory (p + 1)) < 0x80
    · rw [if_pos hvalue]
      exact Or.inr ⟨htrunc, fun q hq => (honly q hq).2 hvalue, _, rfl, hs'.reads, hs'.cursor⟩
    · rw [if_neg hvalue]
      exact Or.inl ⟨p + 2, _, .two (by omega) h hcont hvalue, rfl, by rw [afterByte, hptr], hs'⟩
  · exact Or.inr ⟨htrunc, fun q hq => hcont (honly q hq).1, _, rfl, hs'.reads, hs'.cursor⟩

/-- The check of a character of three bytes. -/
theorem checkCharacter_cases_three (h : IsLead3 (c.memory p)) :
    CharacterChecked c p (checkCharacter c (c.memory p)) s := by
  rw [checkCharacter_three h, CharacterChecked]
  by_cases hend : p + 1 = c.size
  · refine Or.inl ⟨.afterLead hend (Or.inr h), ?_⟩
    rw [← hend, ← hptr]
    exact mem_reads_nextContinuation
      (fun _ => grows_nextContinuation.bind fun _ => (grows_error _).ite (grows_pure _)) s
  have hs' := within_afterByte hs (by omega)
  have hptr' : (afterByte s).ptr = p + 2 := by rw [afterByte, hptr]
  have honly : ∀ q, Character c p q → IsContinuation (c.memory (p + 1)) ∧ IsContinuation (c.memory (p + 2)) ∧
      ¬ value3 (c.memory p) (c.memory (p + 1)) (c.memory (p + 2)) < 0x800 := by
    rintro q (⟨_, _, hlt⟩ | ⟨_, h', _⟩ | ⟨_, _, hcont, hcont', hvalue⟩)
    · exact absurd h (not_lead_of_lt hlt).2
    · exact absurd h' (not_lead2_of_lead3 h)
    · exact ⟨hcont, hcont', hvalue⟩
  rcases nextContinuation_bind _ s with ⟨hcont, hrun⟩ | ⟨hcont, reason, hrun⟩ <;> rw [hrun] <;> rw [hptr] at hcont
  · rw [hptr]
    by_cases hend' : p + 2 = c.size
    · refine Or.inl ⟨.afterContinuation hend' h hcont, ?_⟩
      rw [← hend', ← hptr']
      exact mem_reads_nextContinuation (fun _ => (grows_error _).ite (grows_pure _)) _
    refine Or.inr ?_
    have hs'' := within_afterByte hs' (by omega)
    have htrunc : ¬ Truncated c p := by
      rintro (⟨h, _⟩ | ⟨h, _⟩)
      · exact hend h
      · exact hend' h
    rcases nextContinuation_bind _ (afterByte s) with ⟨hcont', hrun⟩ | ⟨hcont', reason, hrun⟩ <;> rw [hrun] <;>
      rw [hptr'] at hcont'
    · rw [hptr']
      by_cases hvalue : value3 (c.memory p) (c.memory (p + 1)) (c.memory (p + 2)) < 0x800
      · rw [if_pos hvalue]
        exact Or.inr ⟨htrunc, fun q hq => (honly q hq).2.2 hvalue, _, rfl, hs''.reads, hs''.cursor⟩
      · rw [if_neg hvalue]
        refine Or.inl ⟨p + 3, _, .three (by omega) h hcont hcont' hvalue, rfl, ?_, hs''⟩
        rw [afterByte, hptr']
    · exact Or.inr ⟨htrunc, fun q hq => hcont' (honly q hq).2.1, _, rfl, hs''.reads, hs''.cursor⟩
  · refine Or.inr (Or.inr ⟨?_, fun q hq => hcont (honly q hq).1, _, rfl, hs'.reads, hs'.cursor⟩)
    rintro (⟨h, _⟩ | ⟨_, _, h⟩)
    · exact hend h
    · exact hcont h

end Cases

/-- The check of any character. -/
theorem checkCharacter_cases (hs : Within c.size 8 s) (hptr : s.ptr = p + 1) (hp : p < c.size) :
    CharacterChecked c p (checkCharacter c (c.memory p)) s := by
  by_cases htwo : IsLead2 (c.memory p)
  · exact checkCharacter_cases_two hs hptr hp htwo
  by_cases hthree : IsLead3 (c.memory p)
  · exact checkCharacter_cases_three hs hptr hp hthree
  refine Or.inr ?_
  by_cases hone : c.memory p ≠ 0 ∧ c.memory p >>> 4 < 0x8
  · exact Or.inl ⟨p + 1, s, .one hp hone.1 hone.2, by rw [checkCharacter_one hone.1 hone.2]; rfl, hptr, hs⟩
  obtain ⟨reason, hrun⟩ := checkCharacter_none (c := c) hone htwo hthree
  refine Or.inr ⟨?_, ?_, { s with failureReason := reason }, by rw [hrun]; rfl, hs.reads, hs.cursor⟩
  · rintro (⟨_, h⟩ | ⟨_, h, _⟩)
    · exact h.elim htwo hthree
    · exact hthree h
  · rintro q (⟨_, hne, hlt⟩ | ⟨_, h, _⟩ | ⟨_, h, _⟩)
    · exact hone ⟨hne, hlt⟩
    · exact htwo h
    · exact hthree h

def checkStringFrom (c : Container) (n : Nat) : Scan Unit := do
  checkCharacters c n
  let byte ← nextByte c
  if byte ≠ 0 then error "String longer than indicated size" else return ()

theorem grows_checkStringFrom (n : Nat) : Grows (checkStringFrom c n) :=
  (grows_checkCharacters n).bind fun _ => grows_nextByte.bind fun _ => (grows_error _).ite (grows_pure _)

theorem checkStringFrom_succ {n : Nat} (hlt : s.ptr < c.size) :
    checkStringFrom c (n + 1) s =
      (checkCharacter c (c.memory s.ptr) >>= fun _ => checkStringFrom c n) (afterByte s) := by
  have hfirst : checkCharacters c (n + 1) s =
      (checkCharacter c (c.memory s.ptr) >>= fun _ => checkCharacters c n) (afterByte s) := by
    change (if s.ptr ≥ c.size then _ else _ : Scan Unit) s = _
    rw [if_neg (Nat.not_le.mpr hlt), bind_of_done (nextByte_run s)]
  have hassoc := bind_assoc (checkCharacter c (c.memory s.ptr)) (fun _ => checkCharacters c n) fun _ => do
    let byte ← nextByte c
    if byte ≠ 0 then error "String longer than indicated size" else return ()
  change Scan.bind (checkCharacters c (n + 1)) _ s = _
  rw [Scan.bind, hfirst]
  exact congrFun hassoc (afterByte s)

/-- A string is read within the file exactly if it is not cut off. -/
theorem checkStringFrom_within (n : Nat) (hs : Within c.size 8 s) (hp : s.ptr ≤ c.size) :
    Within c.size 8 (checkStringFrom c n s).2 ↔ ¬ CutOff c n s.ptr := by
  induction n generalizing s with
  | zero =>
    -- only the terminator is left, and it is read without a check
    have hrun : (checkStringFrom c 0 s).2.reads = (afterByte s).reads ∧
        (checkStringFrom c 0 s).2.ptr = (afterByte s).ptr := by
      unfold checkStringFrom
      rw [bind_of_done (show checkCharacters c 0 s = (.done (), s) from rfl), bind_of_done (nextByte_run s)]
      split_ifs <;> exact ⟨rfl, rfl⟩
    rw [cutOff_zero]
    constructor
    · intro h heq
      have := h.reads s.ptr (hrun.1 ▸ List.mem_cons_self)
      omega
    · intro hne
      have := within_afterByte hs (by omega)
      exact ⟨hrun.1 ▸ this.reads, hrun.2 ▸ this.cursor⟩
  | succ n ih =>
    rcases Nat.lt_or_ge s.ptr c.size with hlt | hge
    · have hs' := within_afterByte hs hlt
      rw [checkStringFrom_succ hlt, cutOff_succ]
      rcases checkCharacter_cases hs' rfl hlt with ⟨ht, hread⟩ | ⟨q, t, hchar, hrun, hq, ht⟩ | ⟨hnt, hnone, t, hrun, ht⟩
      · refine iff_of_false (fun h => ?_) (not_not_intro (Or.inl ht))
        exact absurd (h.reads _ (mem_reads_bind hread fun _ => grows_checkStringFrom n)) (Nat.lt_irrefl _)
      · rw [bind_of_done hrun, ih ht (hq ▸ hchar.lt.2), hq]
        constructor
        · rintro h (ht' | ⟨r, hr, hcut⟩)
          · exact hchar.not_truncated ht'
          · exact h (hchar.unique hr ▸ hcut)
        · exact fun h hcut => h (Or.inr ⟨q, hchar, hcut⟩)
      · rw [bind_of_failed hrun]
        refine iff_of_true ht ?_
        rintro (ht' | ⟨r, hr, _⟩)
        · exact hnt ht'
        · exact hnone r hr
    · -- the check before a character finds the end of the file
      have hrun : checkStringFrom c (n + 1) s =
          (.failed, { s with failureReason := "String data would go beyond end-of-file" }) := by
        refine bind_of_failed ?_
        change (if s.ptr ≥ c.size then _ else _ : Scan Unit) s = _
        rw [if_pos hge]
        rfl
      rw [hrun, cutOff_succ]
      refine iff_of_true ⟨hs.reads, hs.cursor⟩ ?_
      rintro (ht | ⟨r, hr, _⟩)
      · have := ht.lt
        omega
      · have := hr.lt
        omega

/-- The string at the cursor is cut off by the end of the file. -/
def StringCutOff (c : Container) (s : ScanState) : Prop :=
  ∃ size t, decodeUnsignedCheckedFrom c s = (.done size, t) ∧ CutOff c size.toNat t.ptr

/-- The check of a string reads beyond the file just when the string is cut off. -/
theorem checkIntraStringDataItem_within (hs : Within c.size 8 s) :
    Within c.size 8 (checkIntraStringDataItem c s).2 ↔ ¬ StringCutOff c s := by
  have hdecode : Reads c (0 ≤ ·) (decodeUnsignedCheckedFrom c) fun _ q => 0 < q ∧ q ≤ c.size :=
    decodeUnsignedCheckedFrom_reads
  obtain ⟨hwithin, hstuck, hdone⟩ := hdecode s hs (Nat.zero_le _)
  have heq : checkIntraStringDataItem c s =
      (decodeUnsignedCheckedFrom c >>= fun size => checkStringFrom c size.toNat) s := rfl
  rw [heq]
  unfold StringCutOff
  rcases hrun : decodeUnsignedCheckedFrom c s with ⟨size | _ | _, t⟩ <;> rw [hrun] at hwithin hstuck hdone
  · rw [bind_of_done hrun, checkStringFrom_within _ hwithin (hdone size rfl).2, not_iff_not]
    constructor
    · exact fun h => ⟨size, t, rfl, h⟩
    · rintro ⟨_, _, h, hcut⟩
      cases h
      exact hcut
  · rw [bind_of_failed hrun]
    refine iff_of_true hwithin ?_
    rintro ⟨_, _, h, _⟩
    cases h
  · exact absurd rfl hstuck

/-! ### All checks -/

/-- The checks of items that are not strings. -/
inductive Check
  | debugInfoItem
  | encodedValue
  | encodedArray
  | encodedAnnotation
  | classDataItem
  | padding (alignedOffset : Nat)
  | list (elementSize : Nat) (label : String)
  deriving DecidableEq, Repr

/-- A check at the cursor; `CheckList` moves it to the end of the list. -/
def Check.run (c : Container) : Check → Scan Unit
  | debugInfoItem => checkIntraDebugInfoItem c
  | encodedValue => checkEncodedValue c
  | encodedArray => checkEncodedArray c
  | encodedAnnotation => checkEncodedAnnotation c
  | classDataItem => checkIntraClassDataItem c
  | padding alignedOffset => checkPadding c alignedOffset
  | list elementSize label => do
    let p ← getPtr
    let q ← checkList c (elementSize + 1) label p
    setPtr q

theorem Check.run_reads (check : Check) : Reads c (fun _ => True) (check.run c) fun _ _ => True := by
  have hzero : ∀ p, True → 0 ≤ p := fun p _ => Nat.zero_le p
  cases check with
  | debugInfoItem => exact checkIntraDebugInfoItem_reads
  | encodedValue => exact checkEncodedValue_reads.conseq hzero fun _ _ _ => trivial
  | encodedArray => exact checkEncodedArray_reads.conseq hzero fun _ _ _ => trivial
  | encodedAnnotation => exact checkEncodedAnnotation_reads.conseq hzero fun _ _ _ => trivial
  | classDataItem => exact checkIntraClassDataItem_reads
  | padding alignedOffset => exact checkPadding_reads alignedOffset
  | list elementSize label =>
    refine getPtr_bind fun p _ => ?_
    refine (checkList_reads (Nat.succ_pos _) label p).bind fun q => of_imp fun hq => ?_
    exact Triple.setPtr (by omega) trivial

/-- From any cursor that the checks can leave, every check of an item that is not a string reads only bytes before the
    end of the file and leaves such a cursor again, and what a check of a range accepts is within the file. For the
    check of a string the same holds exactly if the string is not cut off by the end of the file. -/
theorem checks_read_within (c : Container) (s : ScanState) (hs : Within c.size 8 s) :
    (∀ check : Check, Within c.size 8 (check.run c s).2 ∧ (check.run c s).1 ≠ .stuck) ∧
    (∀ start count elemSize label t, 0 < elemSize → checkListSize c start count elemSize label s = (.done true, t) →
      start + count * elemSize ≤ c.size) ∧
    (Within c.size 8 (checkIntraStringDataItem c s).2 ↔ ¬ StringCutOff c s) := by
  refine ⟨fun check => ?_, fun start count elemSize label t helem h => ?_, checkIntraStringDataItem_within hs⟩
  · obtain ⟨hwithin, hstuck, _⟩ := check.run_reads s hs trivial
    exact ⟨hwithin, hstuck⟩
  · obtain ⟨_, _, hdone⟩ := checkListSize_reads (P := fun _ => True) helem label s hs trivial
    exact (hdone true (by rw [h])).1 rfl

/-- A container that holds nothing but these bytes, with zeros behind it. -/
def containerOf (bytes : List UInt8) : Container where
  memory p := bytes.getD p 0
  size := bytes.length
  dataEnd := bytes.length
  dataEnd_le := Nat.le_refl _
  stringIdsSize := 0
  typeIdsSize := 0
  protoIdsSize := 0
  fieldIdsSize := 0
  methodIdsSize := 0
  numMethodHandles := 0
  dexVersion := 39

theorem checks_read_within_array : (checkEncodedArray (containerOf [2, 0x1e]) ⟨0, [], ""⟩).2.reads = [1, 0] ∧
    ∀ p ∈ ((Check.encodedArray).run (containerOf [2, 0x1e]) ⟨0, [], ""⟩).2.reads, p < 2 :=
  ⟨by decide, ((checks_read_within (containerOf [2, 0x1e]) ⟨0, [], ""⟩ ⟨nofun, by decide⟩).1 .encodedArray).1.reads⟩

/-- A file that ends after the first byte of a character: the second byte is read beyond its end. -/
theorem string_reads_beyond :
    (checkIntraStringDataItem (containerOf [1, 0xc2]) ⟨0, [], ""⟩).2.reads = [2, 1, 0] ∧
      (containerOf [1, 0xc2]).size = 2 := by
  decide

end Art.DexFileVerifier
