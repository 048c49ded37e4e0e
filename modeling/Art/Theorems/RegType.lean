import Art.Runtime.RegType
import Art.Theorems.Class
import Art.Lib.Loop
import Mathlib.Data.Prod.Lex

/-! The merge of register types. What a merge absorbs is a relation with one constructor for every kind of type,
    and what a merge is for follows from it: a check that accepts the merge accepts what went into it, merging
    again changes nothing, and a register changes finitely often. -/

namespace Art.Verifier

namespace RegType

variable {κ : Type} {classes : ClassTable κ}

/-- The class of a reference is a reference type. -/
def WF (a : RegType κ) : Prop := ∀ klass, a.getClass? = some klass → klass.isPrimitive = false

/-- The values that an imprecise constant of this value stands for. -/
def Covers (w v : Int) : Prop :=
  (0 ≤ v ∧ v ≤ w) ∨ w = 2 ^ 31 - 1 ∨ (w < 0 ∧ v < 0 ∧ w ≤ v) ∨
    (0 ≤ v ∧ ((w = -2 ^ 7 ∧ v < 2 ^ 7) ∨ (w = -2 ^ 15 ∧ v < 2 ^ 15)))

variable {a b m : RegType κ} {klass klass' : Class κ} {v w : BitVec 32} {p : Bool}

/-! ### Kinds of types -/

/-- The merge of two constants is an imprecise constant that covers both. -/
theorem mergeConstants_cases (p₁ : Bool) (v₁ : BitVec 32) (p₂ : Bool) (v₂ : BitVec 32) :
    ∃ w, (mergeConstants p₁ v₁ p₂ v₂ : RegType κ) = const false w ∧ Covers w.toInt v₁.toInt ∧
    Covers w.toInt v₂.toInt := by
  have hbyte : (BitVec.ofInt 32 (-2 ^ 7)).toInt = -2 ^ 7 := by decide
  have hshort : (BitVec.ofInt 32 (-2 ^ 15)).toInt = -2 ^ 15 := by decide
  have hint : (BitVec.ofInt 32 (2 ^ 31 - 1)).toInt = 2 ^ 31 - 1 := by decide
  have hw : ∀ (p : Bool) (w : BitVec 32), (if !p then const p w else const false w : RegType κ) = const false w := by
    intro p w
    cases p <;> rfl
  rw [mergeConstants]
  simp only [hw, isConstantByte, isConstantShort, isConstantIn, Bool.and_eq_true, decide_eq_true_eq, Covers]
  split_ifs with hnonneg h1 hneg h2 hb1 hb2 hs2 hs1 hs2
  · exact ⟨v₁, rfl, by omega, by omega⟩
  · exact ⟨v₂, rfl, by omega, by omega⟩
  · exact ⟨v₁, rfl, by omega, by omega⟩
  · exact ⟨v₂, rfl, by omega, by omega⟩
  · exact ⟨_, rfl, by omega, by omega⟩
  · exact ⟨_, rfl, by omega, by omega⟩
  · exact ⟨_, rfl, .inr (.inl hint), .inr (.inl hint)⟩
  · exact ⟨_, rfl, by omega, by omega⟩
  · exact ⟨_, rfl, .inr (.inl hint), .inr (.inl hint)⟩
  · exact ⟨_, rfl, .inr (.inl hint), .inr (.inl hint)⟩

theorem isFloatTypes_cases (h : a.isFloatTypes = true) : a = float ∨ ∃ p v, a = const p v := by
  cases a with
  | float => exact .inl rfl
  | const p v => exact .inr ⟨p, v, rfl⟩
  | _ => cases h

theorem isLongTypes_cases (h : a.isLongTypes = true) : a = longLo ∨ ∃ p v, a = constLo p v := by
  cases a with
  | longLo => exact .inl rfl
  | constLo p v => exact .inr ⟨p, v, rfl⟩
  | _ => cases h

theorem isLongHighTypes_cases (h : a.isLongHighTypes = true) : a = longHi ∨ ∃ p v, a = constHi p v := by
  cases a with
  | longHi => exact .inl rfl
  | constHi p v => exact .inr ⟨p, v, rfl⟩
  | _ => cases h

theorem isDoubleTypes_cases (h : a.isDoubleTypes = true) : a = doubleLo ∨ ∃ p v, a = constLo p v := by
  cases a with
  | doubleLo => exact .inl rfl
  | constLo p v => exact .inr ⟨p, v, rfl⟩
  | _ => cases h

theorem isDoubleHighTypes_cases (h : a.isDoubleHighTypes = true) : a = doubleHi ∨ ∃ p v, a = constHi p v := by
  cases a with
  | doubleHi => exact .inl rfl
  | constHi p v => exact .inr ⟨p, v, rfl⟩
  | _ => cases h

theorem isReferenceTypes_cases (h : a.isReferenceTypes = true) (hu : a.isUninitializedTypes = false) :
    a.isZeroOrNull = true ∨ ∃ klass, a = reference klass ∨ a = preciseReference klass := by
  cases a with
  | reference klass => exact .inr ⟨klass, .inl rfl⟩
  | preciseReference klass => exact .inr ⟨klass, .inr rfl⟩
  | uninitializedReference | uninitializedThisReference => cases hu
  | _ => exact .inl (by simpa [isReferenceTypes, isZeroOrNull, isNonZeroReferenceTypes, getClass?] using h)

theorem isZeroOrNull_iff : a.isZeroOrNull = true ↔ a = const true 0 ∨ a = null := by
  cases a with
  | const p v => cases p <;> simp [isZeroOrNull, isZero, isNull]
  | _ => simp [isZeroOrNull, isZero, isNull]

theorem isZero_iff : a.isZero = true ↔ a = const true 0 := by
  cases a with
  | const p v => cases p <;> simp [isZero]
  | _ => simp [isZero]

theorem isZeroOrNull_of_constant (h : a.isReferenceTypes = true) (hc : a.isConstantTypes = true) :
    a.isZeroOrNull = true := by
  cases a with
  | const p v => simpa [isReferenceTypes, isZeroOrNull, isNonZeroReferenceTypes, getClass?] using h
  | constLo | constHi => cases h
  | null => rfl
  | _ => cases hc

theorem reference_fields (h : a = reference klass ∨ a = preciseReference klass) :
    a.getClass? = some klass ∧ a.isZeroOrNull = false ∧ a.isReferenceTypes = true ∧ a.isUninitializedTypes = false := by
  rcases h with rfl | rfl
  · exact ⟨rfl, rfl, rfl, rfl⟩
  · exact ⟨rfl, rfl, rfl, rfl⟩

theorem eq_reference (h : a = reference klass ∨ a = preciseReference klass)
    (hp : (!a.isPreciseReference) = true) : a = reference klass := by
  rcases h with rfl | rfl
  · rfl
  · cases hp

theorem isConstantIn_of_covers {p q : Bool} {lower upper : Int} (h : Covers w.toInt v.toInt)
    (hrange : lower ≤ 0 ∧ (-2 ^ 7 < lower ∨ (lower ≤ -2 ^ 7 ∧ 2 ^ 7 - 1 ≤ upper)) ∧
      (-2 ^ 15 < lower ∨ (lower ≤ -2 ^ 15 ∧ 2 ^ 15 - 1 ≤ upper)) ∧ upper < 2 ^ 31 - 1 ∧ -1 ≤ upper)
    (hm : (const q w : RegType κ).isConstantIn lower upper = true) :
    (const p v : RegType κ).isConstantIn lower upper = true := by
  simp only [isConstantIn, Bool.and_eq_true, decide_eq_true_eq, Covers] at *
  omega

theorem isByteTypes_of_boolean (h : a.isBooleanTypes = true) : a.isByteTypes = true := by
  cases a with
  | boolean => rfl
  | const p v =>
    simp only [isBooleanTypes, isByteTypes, isConstantBoolean, isConstantByte, isConstantIn, isBoolean, isByte,
      Bool.false_or, Bool.or_false, Bool.and_eq_true, decide_eq_true_eq] at *
    omega
  | _ => cases h

theorem isShortTypes_of_byte (h : a.isByteTypes = true) : a.isShortTypes = true := by
  cases a with
  | boolean | byte => rfl
  | const p v =>
    simp only [isShortTypes, isByteTypes, isConstantShort, isConstantByte, isConstantIn, isBoolean, isByte, isShort,
      Bool.false_or, Bool.or_false, Bool.and_eq_true, decide_eq_true_eq] at *
    omega
  | _ => cases h

theorem isCharTypes_of_boolean (h : a.isBooleanTypes = true) : a.isCharTypes = true := by
  rw [isCharTypes, h, Bool.or_true, Bool.true_or]

theorem isIntegralTypes_of_short (h : a.isShortTypes = true) : a.isIntegralTypes = true := by
  cases a with
  | boolean | byte | short | const => rfl
  | _ => cases h

theorem isIntegralTypes_of_char (h : a.isCharTypes = true) : a.isIntegralTypes = true := by
  cases a with
  | boolean | char | const => rfl
  | _ => cases h

/-- An imprecise constant absorbs a constant that it covers. -/
theorem mergeConstants_of_covers (h : Covers w.toInt v.toInt) :
    (mergeConstants false w p v : RegType κ) = const false w := by
  have hconst : ∀ {n : Int}, w.toInt = n → (const false (BitVec.ofInt 32 n) : RegType κ) = const false w := by
    rintro n rfl
    rw [BitVec.ofInt_toInt]
  have hle := BitVec.two_mul_toInt_lt (x := v)
  rw [Covers] at h
  rw [mergeConstants]
  simp only [Bool.not_false, if_true, isConstantByte, isConstantShort, isConstantIn, Bool.and_eq_true,
    decide_eq_true_eq]
  split_ifs with hnonneg h1 hp hneg h2 hp hb1 hb2 hs2 hs1 hs2
  · rfl
  · exact absurd h1 (by omega)
  · exact absurd h1 (by omega)
  · rfl
  · exact absurd h2 (by omega)
  · exact absurd h2 (by omega)
  all_goals exact hconst (by omega)

theorem ne_or_precise {c : Bool → BitVec 32 → RegType κ} (hne : c false w ≠ c p v) : w ≠ v ∨ p = true := by
  cases p with
  | true => exact .inr rfl
  | false => exact .inl fun heq => hne (congrArg (c false) heq)

variable [DecidableEq κ]

/-- `m` is a type that merging with `a` does not change. -/
inductive Absorbs (classes : ClassTable κ) : RegType κ → RegType κ → Prop
  | refl (a : RegType κ) : Absorbs classes a a
  | undefined (a : RegType κ) : Absorbs classes undefined a
  | conflict {a : RegType κ} (h : a ≠ .undefined) : Absorbs classes conflict a
  | boolean {a : RegType κ} (h : a.isBooleanTypes = true) : Absorbs classes boolean a
  | byte {a : RegType κ} (h : a.isByteTypes = true) : Absorbs classes byte a
  | short {a : RegType κ} (h : a.isShortTypes = true) : Absorbs classes short a
  | char {a : RegType κ} (h : a.isCharTypes = true) : Absorbs classes char a
  | integer {a : RegType κ} (h : a.isIntegralTypes = true) : Absorbs classes integer a
  | float (p : Bool) (v : BitVec 32) : Absorbs classes float (const p v)
  | longLo (p : Bool) (v : BitVec 32) : Absorbs classes longLo (constLo p v)
  | longHi (p : Bool) (v : BitVec 32) : Absorbs classes longHi (constHi p v)
  | doubleLo (p : Bool) (v : BitVec 32) : Absorbs classes doubleLo (constLo p v)
  | doubleHi (p : Bool) (v : BitVec 32) : Absorbs classes doubleHi (constHi p v)
  | const {p : Bool} {v w : BitVec 32} (h : Covers w.toInt v.toInt) : Absorbs classes (const false w) (const p v)
  | constLo {p : Bool} {v w : BitVec 32} (h : v ||| w = w) : Absorbs classes (constLo false w) (constLo p v)
  | constHi {p : Bool} {v w : BitVec 32} (h : v ||| w = w) : Absorbs classes (constHi false w) (constHi p v)
  | null : Absorbs classes null (const true 0)
  | zeroOrNull {a : RegType κ} {klass : Class κ} (hk : klass.isPrimitive = false) (h : a.isZeroOrNull = true) :
      Absorbs classes (reference klass) a
  | preciseZeroOrNull {a : RegType κ} {klass : Class κ} (hk : klass.isPrimitive = false) (h : a.isZeroOrNull = true) :
      Absorbs classes (preciseReference klass) a
  | reference {klass klass' : Class κ} (h : Class.Le classes klass klass') :
      Absorbs classes (reference klass') (reference klass)
  | preciseReference {klass klass' : Class κ} (h : Class.Le classes klass klass') :
      Absorbs classes (reference klass') (preciseReference klass)

/-! ### A merge absorbs its operands -/

theorem mergeIntegral_absorbs (ha : a.isIntegralTypes = true) (hb : b.isIntegralTypes = true) :
    Absorbs classes (mergeIntegral a b) a ∧ Absorbs classes (mergeIntegral a b) b := by
  rw [mergeIntegral]
  simp only [Bool.and_eq_true]
  split_ifs with h1 h2 h3 h4
  · exact ⟨.boolean h1.1, .boolean h1.2⟩
  · exact ⟨.byte h2.1, .byte h2.2⟩
  · exact ⟨.short h3.1, .short h3.2⟩
  · exact ⟨.char h4.1, .char h4.2⟩
  · exact ⟨.integer ha, .integer hb⟩

theorem selectNonConstant_absorbs {t : RegType κ} {c : Bool → BitVec 32 → RegType κ} (ht : t.isConstantTypes = false)
    (hc : ∀ p v, (c p v).isConstantTypes = true) (habs : ∀ p v, Absorbs classes t (c p v))
    (ha : a = t ∨ ∃ p v, a = c p v) (hb : b = t ∨ ∃ p v, b = c p v)
    (hnot : ∀ p v p' v', a = c p v → b = c p' v' → False) :
    Absorbs classes (selectNonConstant a b) a ∧ Absorbs classes (selectNonConstant a b) b := by
  rw [selectNonConstant]
  rcases ha with rfl | ⟨p, v, rfl⟩
  · rw [ht, if_neg Bool.false_ne_true]
    rcases hb with rfl | ⟨p, v, rfl⟩
    · exact ⟨.refl _, .refl _⟩
    · exact ⟨.refl _, habs p v⟩
  · rw [hc, if_pos rfl]
    rcases hb with rfl | ⟨p', v', rfl⟩
    · exact ⟨habs p v, .refl _⟩
    · exact (hnot p v p' v' rfl rfl).elim

theorem absorbs_reference (h : a = reference klass ∨ a = preciseReference klass)
    (hle : Class.Le classes klass klass') : Absorbs classes (reference klass') a := by
  rcases h with rfl | rfl
  · exact .reference hle
  · exact .preciseReference hle

theorem absorbs_of_zeroOrNull (hz : a.isZeroOrNull = true) (hb : b.isReferenceTypes = true)
    (hu : b.isUninitializedTypes = false) (hnot : b.isZero = false) (hwb : b.WF) : Absorbs classes b a := by
  rcases isReferenceTypes_cases hb hu with hzb | ⟨klass, rfl | rfl⟩
  · rcases isZeroOrNull_iff.mp hzb with rfl | rfl
    · cases hnot
    · rcases isZeroOrNull_iff.mp hz with rfl | rfl
      · exact .null
      · exact .refl _
  · exact .zeroOrNull (hwb klass rfl) hz
  · exact .preciseZeroOrNull (hwb klass rfl) hz

/-- The merge of two reference types absorbs both. -/
theorem mergeReferences_absorbs (ha : a.isReferenceTypes = true) (hb : b.isReferenceTypes = true)
    (hwa : a.WF) (hwb : b.WF) (hne : a ≠ b) :
    Absorbs classes (mergeReferences classes a b) a ∧ Absorbs classes (mergeReferences classes a b) b := by
  rw [mergeReferences]
  by_cases hu : (a.isUninitializedTypes || b.isUninitializedTypes) = true
  · rw [if_pos hu]
    refine ⟨.conflict ?_, .conflict ?_⟩
    · rintro rfl
      cases ha
    · rintro rfl
      cases hb
  rw [if_neg hu]
  simp only [Bool.or_eq_true, not_or, Bool.not_eq_true] at hu
  by_cases hz : (a.isZeroOrNull || b.isZeroOrNull) = true
  · rw [if_pos hz, selectNonConstant2]
    split_ifs with hconst hzero
    · -- The two are `null` and zero: they would be equal otherwise.
      obtain rfl := isZero_iff.mp hzero
      exact ⟨.refl a, absorbs_of_zeroOrNull rfl ha hu.1 (Bool.eq_false_iff.mpr fun h => hne (isZero_iff.mp h)) hwa⟩
    · exact ⟨absorbs_of_zeroOrNull (isZeroOrNull_of_constant ha hconst) hb hu.2 (by simpa using hzero) hwb, .refl b⟩
    · have hnot : ¬a.isZeroOrNull = true := fun h => by
        rcases isZeroOrNull_iff.mp h with rfl | rfl
        · exact hconst rfl
        · exact hconst rfl
      have hzero : a.isZero = false := by
        rw [isZeroOrNull, Bool.or_eq_true, not_or, Bool.not_eq_true] at hnot
        exact hnot.1
      rw [Bool.or_eq_true] at hz
      exact ⟨.refl a, absorbs_of_zeroOrNull (hz.resolve_left hnot) ha hu.1 hzero hwa⟩
  · rw [if_neg hz]
    simp only [Bool.or_eq_true, not_or, Bool.not_eq_true] at hz
    obtain ⟨klass, hklass⟩ := (isReferenceTypes_cases ha hu.1).resolve_left (by simp [hz.1])
    obtain ⟨klass', hklass'⟩ := (isReferenceTypes_cases hb hu.2).resolve_left (by simp [hz.2])
    have hget := (reference_fields hklass).1
    have hget' := (reference_fields hklass').1
    have hprim := hwa klass hget
    have hprim' := hwb klass' hget'
    obtain ⟨hle, hle'⟩ := Class.le_classJoin classes hprim hprim'
    rw [hget, hget']
    dsimp only
    split_ifs with hobj h1 h2
    · exact ⟨absorbs_reference hklass (Class.le_object.mpr hprim),
        absorbs_reference hklass' (Class.le_object.mpr hprim')⟩
    · obtain rfl := eq_reference hklass h1.2
      exact ⟨.refl _, absorbs_reference hklass' (h1.1 ▸ hle')⟩
    · obtain rfl := eq_reference hklass' h2.2
      exact ⟨absorbs_reference hklass (h2.1 ▸ hle), .refl _⟩
    · exact ⟨absorbs_reference hklass hle, absorbs_reference hklass' hle'⟩

/-- An imprecise constant that stands for values of both signs is merged with a smaller one, and the merge stands for
    negative values only. -/
def LosesNonNegative (a b : RegType κ) : Prop :=
  ∃ p v w, a = const false v ∧ b = const p w ∧ w.toInt < v.toInt ∧
    (v.toInt = -2 ^ 15 ∨ (v.toInt = -2 ^ 7 ∧ w.toInt ≠ -2 ^ 15))

variable (classes) in
/-- The merge absorbs both types. -/
theorem safeMerge_absorbs (hwa : a.WF) (hwb : b.WF) :
    Absorbs classes (safeMerge classes a b) a ∧ Absorbs classes (safeMerge classes a b) b := by
  rw [safeMerge]
  by_cases hne : a = b
  · subst hne
    rw [if_pos rfl]
    exact ⟨.refl a, .refl a⟩
  rw [if_neg hne]
  unfold merge
  split
  · exact ⟨.undefined _, .undefined _⟩
  · exact ⟨.undefined _, .undefined _⟩
  · next h => exact ⟨.conflict (fun h => nomatch h), .conflict fun heq => h heq⟩
  · next h _ => exact ⟨.conflict fun heq => h heq, .conflict (fun h => nomatch h)⟩
  · next p₁ v₁ p₂ v₂ =>
    obtain ⟨w, hw, h₁, h₂⟩ := mergeConstants_cases (κ := κ) p₁ v₁ p₂ v₂
    rw [hw]
    exact ⟨.const h₁, .const h₂⟩
  · next p₁ v₁ p₂ v₂ =>
    exact ⟨.constLo (by rw [← BitVec.or_assoc, BitVec.or_self]),
      .constLo (by rw [BitVec.or_comm v₁, ← BitVec.or_assoc, BitVec.or_self])⟩
  · next p₁ v₁ p₂ v₂ =>
    exact ⟨.constHi (by rw [← BitVec.or_assoc, BitVec.or_self]),
      .constHi (by rw [BitVec.or_comm v₁, ← BitVec.or_assoc, BitVec.or_self])⟩
  · next ha _ hb _ hconst hlo hhi =>
    simp only [Bool.or_eq_true, Bool.and_eq_true]
    split_ifs with hint hsame href
    · exact mergeIntegral_absorbs hint.1 hint.2
    · rcases hsame with (((hf | hl) | hlh) | hd) | hdh
      · exact selectNonConstant_absorbs rfl (fun _ _ => rfl) .float (isFloatTypes_cases hf.1)
          (isFloatTypes_cases hf.2) hconst
      · exact selectNonConstant_absorbs rfl (fun _ _ => rfl) .longLo (isLongTypes_cases hl.1)
          (isLongTypes_cases hl.2) hlo
      · exact selectNonConstant_absorbs rfl (fun _ _ => rfl) .longHi (isLongHighTypes_cases hlh.1)
          (isLongHighTypes_cases hlh.2) hhi
      · exact selectNonConstant_absorbs rfl (fun _ _ => rfl) .doubleLo (isDoubleTypes_cases hd.1)
          (isDoubleTypes_cases hd.2) hlo
      · exact selectNonConstant_absorbs rfl (fun _ _ => rfl) .doubleHi (isDoubleHighTypes_cases hdh.1)
          (isDoubleHighTypes_cases hdh.2) hhi
    · exact mergeReferences_absorbs href.1 href.2 hwa hwb hne
    · exact ⟨.conflict ha, .conflict hb⟩

/-! ### Checks -/

/-- The types of parameters, return values and fields. A type of two registers is checked by its low half. -/
def isCheckType : RegType κ → Bool
  | boolean | byte | short | char | integer | float | longLo | doubleLo | reference _ | preciseReference _ => true
  | _ => false

namespace Absorbs

section

variable (h : Absorbs classes m a)
include h

theorem isBooleanTypes (hm : m.isBooleanTypes = true) : a.isBooleanTypes = true := by
  cases h with
  | refl => exact hm
  | boolean h => exact h
  | const h =>
    simp only [RegType.isBooleanTypes, isBoolean, Bool.false_or] at hm ⊢
    exact isConstantIn_of_covers h (by decide) hm
  | _ => cases hm

theorem isByteTypes (hm : m.isByteTypes = true) : a.isByteTypes = true := by
  cases h with
  | refl => exact hm
  | boolean h => exact isByteTypes_of_boolean h
  | byte h => exact h
  | const h =>
    simp only [RegType.isByteTypes, isBoolean, isByte, Bool.or_false] at hm ⊢
    exact isConstantIn_of_covers h (by decide) hm
  | _ => cases hm

theorem isShortTypes (hm : m.isShortTypes = true) : a.isShortTypes = true := by
  cases h with
  | refl => exact hm
  | boolean h => exact isShortTypes_of_byte (isByteTypes_of_boolean h)
  | byte h => exact isShortTypes_of_byte h
  | short h => exact h
  | const h =>
    simp only [RegType.isShortTypes, isBoolean, isByte, isShort, Bool.false_or] at hm ⊢
    exact isConstantIn_of_covers h (by decide) hm
  | _ => cases hm

theorem isCharTypes (hm : m.isCharTypes = true) : a.isCharTypes = true := by
  cases h with
  | refl => exact hm
  | boolean h => exact isCharTypes_of_boolean h
  | char h => exact h
  | const h =>
    simp only [RegType.isCharTypes, RegType.isBooleanTypes, isBoolean, isChar, Bool.false_or, Bool.or_eq_true] at hm ⊢
    rcases hm with hm | hm
    · exact .inl (isConstantIn_of_covers h (by decide) hm)
    · exact .inr (isConstantIn_of_covers h (by decide) hm)
  | _ => cases hm

theorem isIntegralTypes (hm : m.isIntegralTypes = true) : a.isIntegralTypes = true := by
  cases h with
  | refl => exact hm
  | boolean h => exact isIntegralTypes_of_char (isCharTypes_of_boolean h)
  | byte h => exact isIntegralTypes_of_short (isShortTypes_of_byte h)
  | short h => exact isIntegralTypes_of_short h
  | char h => exact isIntegralTypes_of_char h
  | integer h => exact h
  | const h => rfl
  | _ => cases hm

theorem isFloatTypes (hm : m.isFloatTypes = true) : a.isFloatTypes = true := by
  cases h with
  | refl => exact hm
  | float | const => rfl
  | _ => cases hm

theorem isLongTypes (hm : m.isLongTypes = true) : a.isLongTypes = true := by
  cases h with
  | refl => exact hm
  | longLo | constLo => rfl
  | _ => cases hm

theorem isDoubleTypes (hm : m.isDoubleTypes = true) : a.isDoubleTypes = true := by
  cases h with
  | refl => exact hm
  | doubleLo | constLo => rfl
  | _ => cases hm

end

end Absorbs

/-- An array with components that are references. -/
def IsObjectArray : Class κ → Prop
  | .array componentType => componentType.isPrimitive = false
  | _ => False

variable {c : RegType κ} {strict : Bool}

/-- When a class type is assignable to a reference type. -/
theorem referenceAssignableFrom_iff (hc : c.isUninitializedTypes = false)
    (ha : a = reference klass ∨ a = preciseReference klass) :
    referenceAssignableFrom classes c a strict = true ↔
      if c.isJavaLangObject classes = true ∨
          (strict = false ∧ c.getClass?.any (Class.isInterface classes) = true) then True
      else if c.isJavaLangObjectArray classes = true then IsObjectArray klass
      else ∃ lhs, c.getClass? = some lhs ∧ Class.Le classes klass lhs := by
  obtain ⟨hget, hzero, href, hinit⟩ := reference_fields ha
  rw [referenceAssignableFrom, hzero, href, hinit, hc, hget, isObjectArrayTypes, hget]
  by_cases hobj : c.isJavaLangObject classes = true
  · simp [hobj]
  by_cases hint : (!strict && Option.any (Class.isInterface classes) c.getClass?) = true
  · have hint' := hint
    rw [Bool.and_eq_true, Bool.not_eq_true'] at hint'
    simp [hobj, hint'.1, hint'.2]
  have hint' := hint
  rw [Bool.and_eq_true, Bool.not_eq_true'] at hint'
  rw [if_neg hobj, if_neg hint, if_neg (not_or.mpr ⟨hobj, hint'⟩)]
  by_cases harr : c.isJavaLangObjectArray classes = true
  · rw [if_pos harr, if_pos harr]
    cases klass <;> simp [IsObjectArray]
  · rw [if_neg harr, if_neg harr]
    rcases c.getClass? with _ | lhs <;> simp

theorem referenceAssignableFrom_mono (hc : c.isUninitializedTypes = false) (hle : Class.Le classes klass klass')
    (ha : a = reference klass ∨ a = preciseReference klass)
    (h : referenceAssignableFrom classes c (reference klass') strict = true) :
    referenceAssignableFrom classes c a strict = true := by
  rw [referenceAssignableFrom_iff hc (.inl rfl)] at h
  rw [referenceAssignableFrom_iff hc ha]
  split_ifs at h ⊢ with hany harr
  · -- The components of a subtype of an array of references are references.
    cases klass' with
    | array d =>
      obtain ⟨e, rfl, he⟩ := Class.le_array.mp hle
      exact he.isPrimitive.trans h
    | _ => cases h
  · obtain ⟨lhs, hlhs, hle'⟩ := h
    exact ⟨lhs, hlhs, hle.trans hle'⟩

theorem referenceAssignableFrom_self :
    referenceAssignableFrom classes (reference klass) (reference klass) strict = true := by
  rw [referenceAssignableFrom_iff rfl (.inl rfl)]
  split_ifs with hany harr
  · cases klass with
    | array d =>
      obtain rfl := Class.isObjectClass_iff.mp harr
      rfl
    | _ => cases harr
  · exact ⟨klass, rfl, Class.Le.refl klass⟩

/-- A check for a set of types, which contains `a` if it contains `m`. -/
theorem isAssignableFrom_of_types {types : RegType κ → Bool} (hself : types c = true)
    (hc : ∀ x, c ≠ x → assignableFrom classes c x false = some (types x)) (h : types m = true → types a = true)
    (hm : isAssignableFrom classes c m = some true) : isAssignableFrom classes c a = some true := by
  have hiff : ∀ x, isAssignableFrom classes c x = some true ↔ types x = true := by
    intro x
    by_cases heq : c = x
    · subst heq
      simp [isAssignableFrom, assignableFrom, hself]
    · rw [isAssignableFrom, hc x heq, Option.some.injEq]
  exact (hiff a).mpr (h ((hiff m).mp hm))

theorem isAssignableFrom_reference (hc : ∃ klass, c = reference klass ∨ c = preciseReference klass)
    (x : RegType κ) :
    isAssignableFrom classes c x = some true ↔ c = x ∨ referenceAssignableFrom classes c x false = true := by
  obtain ⟨klass, rfl | rfl⟩ := hc
  all_goals
    rw [isAssignableFrom, assignableFrom]
    split_ifs with heq
    · simp [heq]
    · simp [heq]

/-- What may be used as a reference type after a merge may be so before. -/
theorem Absorbs.isAssignableFrom_reference
    (hc : ∃ klass, c = .reference klass ∨ c = .preciseReference klass) (h : Absorbs classes m a)
    (hm : isAssignableFrom classes c m = some true) : isAssignableFrom classes c a = some true := by
  rw [RegType.isAssignableFrom_reference hc] at hm ⊢
  have hinit : c.isUninitializedTypes = false := by obtain ⟨_, rfl | rfl⟩ := hc <;> rfl
  have hzero : ∀ {x}, x.isZeroOrNull = true → referenceAssignableFrom classes c x false = true := fun hx => by
    rw [referenceAssignableFrom, if_pos hx]
  have hself : ∀ {klass}, c = .reference klass ∨ referenceAssignableFrom classes c (.reference klass) false = true →
      referenceAssignableFrom classes c (.reference klass) false = true := by
    rintro klass (rfl | h)
    · exact referenceAssignableFrom_self
    · exact h
  cases h with
  | refl => exact hm
  | null => exact .inr (hzero rfl)
  | zeroOrNull _ h | preciseZeroOrNull _ h => exact .inr (hzero h)
  | reference h => exact .inr (referenceAssignableFrom_mono hinit h (.inl rfl) (hself hm))
  | preciseReference h => exact .inr (referenceAssignableFrom_mono hinit h (.inr rfl) (hself hm))
  | _ =>
    obtain ⟨klass, rfl | rfl⟩ := hc
    all_goals rcases hm with hm | hm <;> cases hm

theorem Absorbs.isAssignableFrom (hc : c.isCheckType = true) (h : Absorbs classes m a)
    (hm : isAssignableFrom classes c m = some true) : isAssignableFrom classes c a = some true := by
  cases c with
  | boolean => exact isAssignableFrom_of_types rfl (fun _ hx => if_neg hx) h.isBooleanTypes hm
  | byte => exact isAssignableFrom_of_types rfl (fun _ hx => if_neg hx) h.isByteTypes hm
  | short => exact isAssignableFrom_of_types rfl (fun _ hx => if_neg hx) h.isShortTypes hm
  | char => exact isAssignableFrom_of_types rfl (fun _ hx => if_neg hx) h.isCharTypes hm
  | integer => exact isAssignableFrom_of_types rfl (fun _ hx => if_neg hx) h.isIntegralTypes hm
  | float => exact isAssignableFrom_of_types rfl (fun _ hx => if_neg hx) h.isFloatTypes hm
  | longLo => exact isAssignableFrom_of_types rfl (fun _ hx => if_neg hx) h.isLongTypes hm
  | doubleLo => exact isAssignableFrom_of_types rfl (fun _ hx => if_neg hx) h.isDoubleTypes hm
  | reference klass => exact h.isAssignableFrom_reference ⟨klass, .inl rfl⟩ hm
  | preciseReference klass => exact h.isAssignableFrom_reference ⟨klass, .inr rfl⟩ hm
  | _ => cases hc

/-! ### Merging again -/

theorem merge_integral (hm : m.isConstant = false) (hmi : m.isIntegralTypes = true) (ha : a.isIntegralTypes = true) :
    merge classes m a = mergeIntegral m a := by
  cases m with
  | const => cases hm
  | boolean | byte | short | char | integer =>
    cases a with
    | boolean | byte | short | char | integer | const => rfl
    | _ => cases ha
  | _ => cases hmi

/-- A reference type absorbs the types of its subclasses. -/
theorem merge_reference (ha : a = reference klass ∨ a = preciseReference klass)
    (hle : Class.Le classes klass klass') : merge classes (reference klass') a = reference klass' := by
  obtain ⟨hget, hzero, -, hinit⟩ := reference_fields ha
  have hmerge : merge classes (reference klass') a = mergeReferences classes (reference klass') a := by
    rcases ha with rfl | rfl <;> rfl
  have hobj : a.isJavaLangObject classes = true → klass = .named classes.object := by
    rcases ha with rfl | rfl
    · exact Class.isObjectClass_iff.mp
    · exact fun h => nomatch h
  rw [hmerge, mergeReferences, hzero, hinit, hget]
  simp only [isUninitializedTypes, isZeroOrNull, isZero, isNull, getClass?, isPreciseReference, Bool.or_false,
    Bool.false_eq_true, if_false, Bool.or_eq_true, Bool.not_false, and_true, Class.classJoin_of_ge hle, if_true]
  split_ifs with hany
  · rcases hany with hm | ha
    · rw [Class.isObjectClass_iff.mp hm]
    · -- Nothing but `Object` is above `Object`.
      rw [hobj ha] at hle
      have hprim : klass'.isPrimitive = false := hle.isPrimitive.symm
      rw [hle.antisymm (Class.le_object.mpr hprim)]
  · rfl

/-- Merging what is absorbed changes nothing. -/
theorem Absorbs.safeMerge (h : Absorbs classes m a) : safeMerge classes m a = m := by
  rw [RegType.safeMerge]
  split_ifs with heq
  · rfl
  cases h with
  | refl => exact absurd rfl heq
  | undefined | float | longLo | longHi | doubleLo | doubleHi | null => rfl
  | conflict h =>
    cases a with
    | undefined => exact absurd rfl h
    | _ => rfl
  | boolean h =>
    rw [merge_integral rfl rfl (isIntegralTypes_of_char (isCharTypes_of_boolean h)), mergeIntegral, h]
    rfl
  | byte h =>
    rw [merge_integral rfl rfl (isIntegralTypes_of_short (isShortTypes_of_byte h)), mergeIntegral, h]
    rfl
  | short h =>
    rw [merge_integral rfl rfl (isIntegralTypes_of_short h), mergeIntegral, h]
    rfl
  | char h =>
    rw [merge_integral rfl rfl (isIntegralTypes_of_char h), mergeIntegral, h]
    rfl
  | integer h =>
    rw [merge_integral rfl rfl h]
    rfl
  | const h => exact mergeConstants_of_covers h
  | @constLo p v w h =>
    show RegType.constLo false (w ||| v) = _
    rw [BitVec.or_comm, h]
  | @constHi p v w h =>
    show RegType.constHi false (w ||| v) = _
    rw [BitVec.or_comm, h]
  | zeroOrNull _ h | preciseZeroOrNull _ h =>
    rcases isZeroOrNull_iff.mp h with rfl | rfl
    · rfl
    · rfl
  | reference h => exact merge_reference (.inl rfl) h
  | preciseReference h => exact merge_reference (.inr rfl) h

theorem safeMerge_eq_left_iff (ha : a.WF) (hb : b.WF) : safeMerge classes a b = a ↔ Absorbs classes a b := by
  refine ⟨fun h => ?_, Absorbs.safeMerge⟩
  have habs := (safeMerge_absorbs classes ha hb).2
  rwa [h] at habs

/-! ### What was absorbed before a merge -/

theorem Absorbs.eq_const (h : Absorbs classes (.const p w) a) : ∃ q v, a = .const q v := by
  cases h with
  | refl => exact ⟨p, w, rfl⟩
  | @const q v => exact ⟨q, v, rfl⟩

theorem Absorbs.eq_undefined (h : Absorbs classes m .undefined) : m = .undefined := by
  cases h with
  | refl | undefined => rfl
  | conflict h => exact absurd rfl h
  | boolean h | byte h | short h | char h | integer h | zeroOrNull _ h | preciseZeroOrNull _ h => cases h

theorem Absorbs.isZeroOrNull (h : Absorbs classes m a) (hm : m.isZeroOrNull = true) : a.isZeroOrNull = true := by
  rcases isZeroOrNull_iff.mp hm with rfl | rfl
  · cases h
    rfl
  · cases h <;> rfl

/-- What a reference type absorbs, the reference type of a superclass absorbs. -/
theorem Absorbs.reference_of_le (hm : m = .reference klass ∨ m = .preciseReference klass)
    (hle : Class.Le classes klass klass') (h : Absorbs classes m a) : Absorbs classes (.reference klass') a := by
  rcases hm with rfl | rfl
  · cases h with
    | refl => exact .reference hle
    | zeroOrNull hk hz => exact .zeroOrNull (hle.isPrimitive.symm.trans hk) hz
    | reference hle' => exact .reference (hle'.trans hle)
    | preciseReference hle' => exact .preciseReference (hle'.trans hle)
  · cases h with
    | refl => exact .preciseReference hle
    | preciseZeroOrNull hk hz => exact .zeroOrNull (hle.isPrimitive.symm.trans hk) hz

/-- Absorbing goes in steps, if it does for constants. -/
theorem Absorbs.trans {t : RegType κ} (hconst : ∀ v w u, m = .const false w → a = .const false v →
      Covers v.toInt u → Covers w.toInt u) (h : Absorbs classes m a) (h' : Absorbs classes a t) :
    Absorbs classes m t := by
  cases h with
  | refl => exact h'
  | undefined => exact .undefined t
  | conflict h =>
    refine .conflict ?_
    rintro rfl
    exact h h'.eq_undefined
  | boolean h => exact .boolean (h'.isBooleanTypes h)
  | byte h => exact .byte (h'.isByteTypes h)
  | short h => exact .short (h'.isShortTypes h)
  | char h => exact .char (h'.isCharTypes h)
  | integer h => exact .integer (h'.isIntegralTypes h)
  | float =>
    obtain ⟨q, u, rfl⟩ := h'.eq_const
    exact .float q u
  | longLo => cases h' <;> exact .longLo _ _
  | longHi => cases h' <;> exact .longHi _ _
  | doubleLo => cases h' <;> exact .doubleLo _ _
  | doubleHi => cases h' <;> exact .doubleHi _ _
  | const h =>
    cases h' with
    | refl => exact .const h
    | const h' => exact .const (hconst _ _ _ rfl rfl h')
  | @constLo p v w h =>
    cases h' with
    | refl => exact .constLo h
    | constLo h' => exact .constLo (by rw [← h, ← BitVec.or_assoc, h'])
  | @constHi p v w h =>
    cases h' with
    | refl => exact .constHi h
    | constHi h' => exact .constHi (by rw [← h, ← BitVec.or_assoc, h'])
  | null =>
    cases h'
    exact .null
  | zeroOrNull hk hz => exact .zeroOrNull hk (h'.isZeroOrNull hz)
  | preciseZeroOrNull hk hz => exact .preciseZeroOrNull hk (h'.isZeroOrNull hz)
  | reference hle => exact h'.reference_of_le (.inl rfl) hle
  | preciseReference hle => exact h'.reference_of_le (.inr rfl) hle

omit [DecidableEq κ] in
theorem mergeConstants_covers {x : BitVec 32} (hnot : ¬LosesNonNegative (const false v : RegType κ) (const p x))
    (hw : (mergeConstants false v p x : RegType κ) = const false w) {u : Int} (hu : Covers v.toInt u) :
    Covers w.toInt u := by
  have hbyte : (BitVec.ofInt 32 (-2 ^ 7)).toInt = -2 ^ 7 := by decide
  have hshort : (BitVec.ofInt 32 (-2 ^ 15)).toInt = -2 ^ 15 := by decide
  have hint : (BitVec.ofInt 32 (2 ^ 31 - 1)).toInt = 2 ^ 31 - 1 := by decide
  have hle := BitVec.two_mul_toInt_lt (x := x)
  replace hnot : x.toInt < v.toInt → v.toInt ≠ -2 ^ 15 ∧ (v.toInt = -2 ^ 7 → x.toInt = -2 ^ 15) := fun hlt =>
    ⟨fun h => hnot ⟨p, v, x, rfl, rfl, hlt, .inl h⟩,
      fun h => not_not.mp fun hx => hnot ⟨p, v, x, rfl, rfl, hlt, .inr ⟨h, hx⟩⟩⟩
  rw [mergeConstants] at hw
  rw [Covers] at hu ⊢
  simp only [isConstantByte, isConstantShort, isConstantIn, Bool.and_eq_true, decide_eq_true_eq] at hw
  split_ifs at hw <;> cases hw <;> omega

variable (classes) in
/-- A merge absorbs what its left operand had absorbed, unless it loses the values that are not negative. -/
theorem safeMerge_absorbs_iff (ha : a.WF) (hb : b.WF) :
    (∀ t, t.WF → Absorbs classes a t → Absorbs classes (safeMerge classes a b) t) ↔ ¬LosesNonNegative a b := by
  constructor
  · rintro hkeep ⟨p, v, w, rfl, rfl, hlt, hv⟩
    have hneg : v.toInt < 0 := by omega
    have hmerge : safeMerge classes (const false v) (const p w) = const false w := by
      have hne : const false v ≠ (const p w : RegType κ) := fun h => by
        cases h
        exact lt_irrefl _ hlt
      have hw : (if !p then const p w else const false w : RegType κ) = const false w := by cases p <;> rfl
      rw [safeMerge, if_neg hne, merge, mergeConstants, if_neg (by omega), if_pos ⟨hneg, by omega⟩,
        if_neg (by omega), hw]
    have hzero : (0 : BitVec 32).toInt = 0 := by decide
    have habs := hkeep (const true 0) (fun _ h => nomatch h) (.const (by rw [Covers, hzero]; omega))
    rw [hmerge] at habs
    cases habs with
    | const h =>
      rw [Covers, hzero] at h
      omega
  · intro hnot t ht habs
    obtain ⟨hleft, hright⟩ := safeMerge_absorbs classes ha hb
    refine hleft.trans (fun v w u hm hav hu => ?_) habs
    subst hav
    rw [hm] at hright
    obtain ⟨q, x, rfl⟩ := hright.eq_const
    rw [safeMerge] at hm
    split_ifs at hm with heq
    · cases hm
      exact hu
    · exact mergeConstants_covers hnot hm hu

/-! ### Chains of merges -/

theorem Absorbs.wf (h : Absorbs classes m a) (ha : a.WF) : m.WF := by
  cases h with
  | refl => exact ha
  | zeroOrNull hk | preciseZeroOrNull hk =>
    rintro _ ⟨⟩
    exact hk
  | reference h | preciseReference h =>
    rintro _ ⟨⟩
    exact h.isPrimitive.symm.trans (ha _ rfl)
  | _ => exact fun _ h => nomatch h

/-- The kinds of types, from the last to the first that a register can have. -/
def phase : RegType κ → Nat
  | undefined => 0
  | conflict => 1
  | null => 3
  | const _ _ | constLo _ _ | constHi _ _ => 4
  | _ => 2

/-- The place of a constant: a small positive value before the negative ones before the large positive ones. -/
def constantLevel (precise : Bool) (v : Int) : Nat :=
  2 * (if v < 0 then (v + 2 ^ 31).toNat + 2 ^ 31 else if v < 2 ^ 15 then 2 ^ 32 + (2 ^ 15 - v).toNat
    else (2 ^ 31 - v).toNat) + precise.toNat

def level (classes : ClassTable κ) : RegType κ → Nat
  | const precise value => constantLevel precise value.toInt
  | constLo precise value | constHi precise value => 2 * (2 ^ 32 - value.toNat) + precise.toNat
  | boolean => 3
  | byte => 2
  | short | char => 1
  | reference klass => 2 * Class.height classes klass
  | preciseReference klass => 2 * Class.height classes klass + 1
  | _ => 0

def rank (classes : ClassTable κ) (a : RegType κ) : ℕ ×ₗ ℕ := toLex (phase a, level classes a)

theorem rank_lt_of_phase (h : phase m < phase a) : rank classes m < rank classes a :=
  Prod.Lex.toLex_lt_toLex.mpr (.inl h)

theorem rank_lt_of_level (h : phase m = phase a) (hl : level classes m < level classes a) :
    rank classes m < rank classes a :=
  Prod.Lex.toLex_lt_toLex.mpr (.inr ⟨h, hl⟩)

theorem constantLevel_lt (h : Covers w.toInt v.toInt) (hne : w ≠ v ∨ p = true) :
    constantLevel false w.toInt < constantLevel p v.toInt := by
  have hlt := BitVec.two_mul_toInt_lt (x := v)
  have hle := BitVec.le_two_mul_toInt (x := v)
  have hle' := BitVec.le_two_mul_toInt (x := w)
  have hne' : w.toInt ≠ v.toInt ∨ p.toNat = 1 := by
    rcases hne with hne | rfl
    · exact .inl fun heq => hne (BitVec.eq_of_toInt_eq heq)
    · exact .inr rfl
  rw [Covers] at h
  rw [constantLevel, constantLevel, Bool.toNat_false]
  split_ifs <;> omega

theorem halfLevel_lt (h : v ||| w = w) (hne : w ≠ v ∨ p = true) :
    2 * (2 ^ 32 - w.toNat) + false.toNat < 2 * (2 ^ 32 - v.toNat) + p.toNat := by
  have hlt := w.isLt
  have hle : v.toNat ≤ w.toNat := by
    rw [← h, BitVec.toNat_or]
    exact Nat.left_le_or
  have hne' : w.toNat ≠ v.toNat ∨ p.toNat = 1 := by
    rcases hne with hne | rfl
    · exact .inl fun heq => hne (BitVec.eq_of_toNat_eq heq)
    · exact .inr rfl
  rw [Bool.toNat_false]
  omega

/-- A type that absorbs another has a smaller rank, so merging ends. -/
theorem Absorbs.rank_lt (h : Absorbs classes m a) (hne : m ≠ a) : rank classes m < rank classes a := by
  have hconst : ∀ {t : RegType κ} {p v}, phase t = 2 → rank classes t < rank classes (.const p v) := fun ht =>
    rank_lt_of_phase (ht ▸ (by decide : 2 < 4))
  cases h with
  | refl => exact absurd rfl hne
  | undefined =>
    refine rank_lt_of_phase (show 0 < _ from ?_)
    cases a with
    | undefined => exact absurd rfl hne
    | _ => exact Nat.succ_pos _
  | conflict h =>
    refine rank_lt_of_phase (show 1 < _ from ?_)
    cases a with
    | undefined => exact absurd rfl h
    | conflict => exact absurd rfl hne
    | _ => exact Nat.succ_lt_succ (Nat.succ_pos _)
  | boolean h =>
    cases a with
    | boolean => exact absurd rfl hne
    | const => exact hconst rfl
    | _ => cases h
  | byte h =>
    cases a with
    | byte => exact absurd rfl hne
    | boolean => exact rank_lt_of_level rfl (show 2 < 3 by decide)
    | const => exact hconst rfl
    | _ => cases h
  | short h =>
    cases a with
    | short => exact absurd rfl hne
    | boolean => exact rank_lt_of_level rfl (show 1 < 3 by decide)
    | byte => exact rank_lt_of_level rfl (show 1 < 2 by decide)
    | const => exact hconst rfl
    | _ => cases h
  | char h =>
    cases a with
    | char => exact absurd rfl hne
    | boolean => exact rank_lt_of_level rfl (show 1 < 3 by decide)
    | const => exact hconst rfl
    | _ => cases h
  | integer h =>
    cases a with
    | integer => exact absurd rfl hne
    | boolean => exact rank_lt_of_level rfl (show 0 < 3 by decide)
    | byte => exact rank_lt_of_level rfl (show 0 < 2 by decide)
    | short | char => exact rank_lt_of_level rfl (show 0 < 1 by decide)
    | const => exact hconst rfl
    | _ => cases h
  | float => exact hconst rfl
  | longLo | longHi | doubleLo | doubleHi => exact rank_lt_of_phase (show 2 < 4 by decide)
  | const h => exact rank_lt_of_level rfl (constantLevel_lt h (ne_or_precise hne))
  | constLo h | constHi h => exact rank_lt_of_level rfl (halfLevel_lt h (ne_or_precise hne))
  | null => exact rank_lt_of_phase (show 3 < 4 by decide)
  | zeroOrNull _ h | preciseZeroOrNull _ h =>
    rcases isZeroOrNull_iff.mp h with rfl | rfl
    · exact hconst rfl
    · exact rank_lt_of_phase (show 2 < 3 by decide)
  | @reference klass klass' h =>
    have hlt := h.height_lt fun heq => hne (congrArg RegType.reference heq.symm)
    exact rank_lt_of_level rfl (show 2 * _ < 2 * _ by omega)
  | @preciseReference klass klass' h =>
    by_cases heq : klass = klass'
    · subst heq
      exact rank_lt_of_level rfl (Nat.lt_succ_self _)
    · have hlt := h.height_lt heq
      exact rank_lt_of_level rfl (show 2 * _ < 2 * _ + 1 by omega)

def mergeChain (classes : ClassTable κ) (register : RegType κ) (types : Nat → RegType κ) : Nat → RegType κ
  | 0 => register
  | n + 1 => safeMerge classes (mergeChain classes register types n) (types n)

variable (classes) in
theorem mergeChain_wf {register : RegType κ} {types : Nat → RegType κ} (hr : register.WF) (ht : ∀ n, (types n).WF)
    (n : Nat) : (mergeChain classes register types n).WF := by
  induction n with
  | zero => exact hr
  | succ n ih => exact (safeMerge_absorbs classes ih (ht n)).1.wf ih

theorem mergeChain_stops {register : RegType κ} {types : Nat → RegType κ} (hr : register.WF) (ht : ∀ n, (types n).WF) :
    ∃ n, ∀ k, n ≤ k → mergeChain classes register types k = mergeChain classes register types n := by
  refine Lib.eventually_const_of_rank (rank classes) fun n => ?_
  have habs := (safeMerge_absorbs classes (mergeChain_wf classes hr ht n) (ht n)).1
  by_cases heq : mergeChain classes register types (n + 1) = mergeChain classes register types n
  · exact .inl heq
  · exact .inr (habs.rank_lt heq)

/-- Checks that accept a merge accept both operands, merging an operand again changes nothing, a register changes
    finitely often, and the join of two classes is a common supertype, below every other one that is neither an
    interface nor an array of interfaces. -/
theorem merge_sound (classes : ClassTable κ) :
    (∀ a b : RegType κ, a.WF → b.WF →
      (∀ c : RegType κ, c.isCheckType = true → isAssignableFrom classes c (safeMerge classes a b) = some true →
        isAssignableFrom classes c a = some true ∧ isAssignableFrom classes c b = some true) ∧
      safeMerge classes (safeMerge classes a b) a = safeMerge classes a b ∧
      safeMerge classes (safeMerge classes a b) b = safeMerge classes a b) ∧
    (∀ (register : RegType κ) (types : Nat → RegType κ), register.WF → (∀ n, (types n).WF) →
      ∃ n, ∀ k, n ≤ k → mergeChain classes register types k = mergeChain classes register types n) ∧
    ∀ s t : Class κ, s.isPrimitive = false → t.isPrimitive = false →
      Class.Le classes s (Class.classJoin classes s t) ∧ Class.Le classes t (Class.classJoin classes s t) ∧
      ∀ u, Class.Le classes s u → Class.Le classes t u → Class.isInterface classes u.elementType = false →
        Class.Le classes (Class.classJoin classes s t) u := by
  refine ⟨fun a b ha hb => ?_, fun register types hr ht => mergeChain_stops hr ht, fun s t hs ht => ?_⟩
  · obtain ⟨habs, habs'⟩ := safeMerge_absorbs classes ha hb
    exact ⟨fun c hc hm => ⟨habs.isAssignableFrom hc hm, habs'.isAssignableFrom hc hm⟩, habs.safeMerge, habs'.safeMerge⟩
  · obtain ⟨hle, hle'⟩ := Class.le_classJoin classes hs ht
    exact ⟨hle, hle', fun u hu hu' hi => Class.classJoin_le hu hu' (hu.isPrimitive.symm.trans hs) hi⟩

/-- `Object`, an interface, and two classes that implement it. -/
def sampleClasses : ClassTable (Fin 4) where
  object := 0
  superClass k := if k = 0 then none else some 0
  isInterface k := k == 1
  ifTable k := if k = 2 ∨ k = 3 then [1] else []
  arrayIfTable := []
  rank k := if k = 0 then 0 else 1
  rank_superClass := by decide
  superClass_eq_none := by decide
  superClass_isInterface := by decide
  superClass_interface := by decide
  ifTable_object := rfl
  ifTable_isInterface := by decide
  ifTable_superClass := by decide
  ifTable_trans := by decide
  not_mem_ifTable_self := by decide
  arrayIfTable_isInterface := by decide
  arrayIfTable_trans := by decide

/-- References to the two classes merge to a reference to `Object`. -/
theorem merge_sound_sample :
    safeMerge sampleClasses (reference (.named 2)) (reference (.named 3)) = reference (.named 0) ∧
      safeMerge sampleClasses (reference (.named 0)) (reference (.named 3)) = reference (.named 0) ∧
      Class.Le sampleClasses (.named 2) (.named 0) := by
  have hmerge : safeMerge sampleClasses (reference (.named 2)) (reference (.named 3)) = reference (.named 0) := by
    decide
  obtain ⟨hab, -, hjoin⟩ := merge_sound sampleClasses
  have hwf : ∀ k : Fin 4, (reference (.named k) : RegType (Fin 4)).WF := by
    rintro k _ ⟨⟩
    rfl
  obtain ⟨-, -, hagain⟩ := hab (reference (.named 2)) (reference (.named 3)) (hwf 2) (hwf 3)
  rw [hmerge] at hagain
  exact ⟨hmerge, hagain, (hjoin (.named 2) (.named 3) rfl rfl).1⟩

/-- Neither class is an interface, and both implement one that the join does not. -/
theorem classJoin_not_least :
    Class.isInterface sampleClasses (.named 2) = false ∧ Class.isInterface sampleClasses (.named 3) = false ∧
      Class.Le sampleClasses (.named 2) (.named 1) ∧ Class.Le sampleClasses (.named 3) (.named 1) ∧
      ¬Class.Le sampleClasses (Class.classJoin sampleClasses (.named 2) (.named 3)) (.named 1) := by
  decide

end RegType

end Art.Verifier
