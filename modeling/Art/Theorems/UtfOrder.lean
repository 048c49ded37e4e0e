import Art.Theorems.Utf
import Mathlib.Tactic.Tauto

/-! The comparisons of modified UTF-8 and the order of UTF-16 code units. A surrogate pair travels as one unit and a
    lone surrogate as another, so a lead with its trail meets the same lead without one. -/

namespace Art.Dex
open List

open Lib

/-! ### The keys of encoded strings -/

/-- The code units as numbers. -/
abbrev codeUnits (u : List UInt16) : List ℕ := u.map UInt16.toNat

abbrev encodedKey (u : List UInt16) : List (ℕ ×ₗ ℕ) := stringKey (encode u)

theorem encodedKey_nil : encodedKey [] = [] := by
  rw [encodedKey, encode_nil, stringKey, contents, map_nil]

theorem encodedKey_single {ch : UInt16} {rest : List UInt16} (h : (isLead ch && hasTrail rest) = false) :
    encodedKey (ch :: rest) = toLex (ch.toNat, 0) :: encodedKey rest := by
  obtain ⟨hlead, htrail⟩ := single_chars ch.toNat_lt
  rw [encodedKey, encode_single h, stringKey, (encodeSingle_encodes ch).contents, map_cons, unitKey, hlead, htrail]
  rfl

theorem encodedKey_pair {lead trail : UInt16} {rest : List UInt16} (hlead : isLead lead = true)
    (htrail : isTrail trail = true) :
    encodedKey (lead :: trail :: rest) = toLex (lead.toNat, trail.toNat) :: encodedKey rest := by
  obtain ⟨hfirst, hsecond⟩ := pair_chars lead.toNat_lt trail.toNat
  rw [encodedKey, encode_pair hlead htrail, stringKey, (pair_encodes hlead htrail).contents, map_cons, unitKey,
    hfirst, hsecond]
  rfl

theorem convertModifiedUtf8ToUtf16_eq (s : CString) :
    convertModifiedUtf8ToUtf16 s = (contents s).flatMap writeUnit := by
  fun_induction contents s with
  | case1 => rw [convertModifiedUtf8ToUtf16]; rfl
  | case2 rest => rw [convertModifiedUtf8ToUtf16, if_pos rfl]; rfl
  | case3 one rest h ih => rw [convertModifiedUtf8ToUtf16, if_neg h, ih, flatMap_cons]

theorem contents_encode_injective (use4ByteSequence : Bool) :
    Function.Injective fun u => contents (encodeAs use4ByteSequence u) := by
  intro u v h
  replace h := congrArg (List.flatMap writeUnit) h
  rwa [← convertModifiedUtf8ToUtf16_eq, ← convertModifiedUtf8ToUtf16_eq, convertModifiedUtf8ToUtf16_encode,
    convertModifiedUtf8ToUtf16_encode] at h

theorem encodedKey_injective : Function.Injective encodedKey := fun _ _ h =>
  contents_encode_injective true (stringKey_eq_iff.mp h)

theorem codeUnits_injective : Function.Injective codeUnits :=
  map_injective_iff.mpr fun _ _ h => UInt16.toNat_inj.mp h

/-! ### Where the orders differ -/

/-- `u` starts with a surrogate pair and `v` with its lead and a code unit above the surrogates. -/
def HeadClash (u v : List UInt16) : Prop :=
  ∃ lead trail above r s, isLead lead = true ∧ isTrail trail = true ∧ 0xe000 ≤ above.toNat ∧ u = lead :: trail :: r ∧
    v = lead :: above :: s

/-- The strings first differ after a lead, where one has its trail and the other a code unit above the surrogates. -/
def Clash (u v : List UInt16) : Prop :=
  ∃ p u' v', u = p ++ u' ∧ v = p ++ v' ∧ (HeadClash u' v' ∨ HeadClash v' u')

theorem clash_nil_left (v : List UInt16) : ¬Clash [] v := by
  rintro ⟨p, u', v', hu, -, hclash⟩
  obtain ⟨rfl, rfl⟩ := append_eq_nil_iff.mp hu.symm
  rcases hclash with ⟨lead, trail, above, r, s, -, -, -, h, -⟩ | ⟨lead, trail, above, r, s, -, -, -, -, h⟩ <;> cases h

theorem clash_comm {u v : List UInt16} : Clash u v ↔ Clash v u := by
  constructor <;> rintro ⟨p, u', v', hu, hv, hclash⟩ <;> exact ⟨p, v', u', hv, hu, hclash.symm⟩

theorem clash_cons {a b : UInt16} {u v : List UInt16} :
    Clash (a :: u) (b :: v) ↔ (a = b ∧ Clash u v) ∨ HeadClash (a :: u) (b :: v) ∨ HeadClash (b :: v) (a :: u) := by
  constructor
  · rintro ⟨p, u', v', hu, hv, hclash⟩
    cases p with
    | nil =>
      rw [nil_append] at hu hv
      exact .inr (hu ▸ hv ▸ hclash)
    | cons c p =>
      obtain ⟨rfl, rfl⟩ := cons.inj hu
      obtain ⟨rfl, rfl⟩ := cons.inj hv
      exact .inl ⟨rfl, p, u', v', rfl, rfl, hclash⟩
  · rintro (⟨rfl, p, u', v', rfl, rfl, hclash⟩ | hclash)
    · exact ⟨a :: p, u', v', rfl, rfl, hclash⟩
    · exact ⟨[], _, _, rfl, rfl, hclash⟩

section agree

variable {a b lead trail lead' trail' : UInt16} {u v : List UInt16}

theorem HeadClash.pair (h : HeadClash (a :: u) v) : (isLead a && hasTrail u) = true := by
  obtain ⟨lead, trail, above, r, s, hlead, htrail, -, heq, -⟩ := h
  obtain ⟨rfl, rfl⟩ := cons.inj heq
  rw [hlead, Bool.true_and]
  exact htrail

theorem HeadClash.not_pair (h : HeadClash u (b :: v)) : (isLead b && hasTrail v) = false := by
  obtain ⟨lead, trail, above, r, s, hlead, htrail, habove, -, heq⟩ := h
  obtain ⟨rfl, rfl⟩ := cons.inj heq
  have hnot : isTrail above = false := Bool.eq_false_iff.mpr fun h => by
    have hlt := (isTrail_iff.mp h).2
    omega
  rw [hlead, Bool.true_and]
  exact hnot

theorem clash_cons_of_same (h : (isLead a && hasTrail u) = (isLead b && hasTrail v)) :
    Clash (a :: u) (b :: v) ↔ a = b ∧ Clash u v := by
  rw [clash_cons, or_iff_left]
  rintro (hclash | hclash)
  · exact absurd (hclash.pair.symm.trans (h.trans hclash.not_pair)) (by decide)
  · exact absurd (hclash.not_pair.symm.trans (h.trans hclash.pair)) (by decide)

theorem clash_pair (hlead : isLead lead = true) (htrail : isTrail trail = true) (hlead' : isLead lead' = true)
    (htrail' : isTrail trail' = true) :
    Clash (lead :: trail :: u) (lead' :: trail' :: v) ↔ lead = lead' ∧ trail = trail' ∧ Clash u v := by
  have hnot : ∀ {t : UInt16}, isTrail t = true → isLead t = false := fun ht => Bool.eq_false_iff.mpr fun hl => by
    have hge := (isTrail_iff.mp ht).1
    have hlt := (isLead_iff.mp hl).2
    omega
  rw [clash_cons_of_same (by rw [hlead, hlead', hasTrail, hasTrail]; simp [htrail, htrail']),
    clash_cons_of_same (by rw [hnot htrail, hnot htrail', Bool.false_and, Bool.false_and])]

/-- Where a pair stands against a unit outside of a pair, when the orders clash. -/
theorem clash_pair_single (hlead : isLead lead = true) (htrail : isTrail trail = true)
    (hb : (isLead b && hasTrail v) = false) :
    Clash (lead :: trail :: u) (b :: v) ↔ lead = b ∧ ∃ above s, v = above :: s ∧ 0xe000 ≤ above.toNat := by
  constructor
  · intro hclash
    rcases clash_cons.mp hclash with ⟨rfl, hrest⟩ | hclash | hclash
    · -- what follows the lead differs at once, and neither side is a lead
      rw [hlead, Bool.true_and] at hb
      cases v with
      | nil => exact absurd (clash_comm.mp hrest) (clash_nil_left _)
      | cons c s =>
        have hc : isTrail c = false := hb
        have hge := (isTrail_iff.mp htrail).1
        rcases clash_cons.mp hrest with ⟨rfl, -⟩ | hclash | hclash
        · exact absurd (htrail.symm.trans hc) (by decide)
        · have hlt := (isLead_iff.mp (Bool.and_eq_true _ _ ▸ hclash.pair).1).2
          omega
        · obtain ⟨_, _, _, _, _, hl, _, _, _, heq⟩ := hclash
          obtain ⟨rfl, -⟩ := cons.inj heq
          have hlt := (isLead_iff.mp hl).2
          omega
    · obtain ⟨_, _, above, _, s, _, _, habove, hu, hv⟩ := hclash
      obtain ⟨rfl, -⟩ := cons.inj hu
      obtain ⟨rfl, rfl⟩ := cons.inj hv
      exact ⟨rfl, above, s, rfl, habove⟩
    · exact absurd (hclash.pair.symm.trans hb) (by decide)
  · rintro ⟨rfl, above, s, rfl, habove⟩
    exact clash_cons.mpr (.inr (.inl ⟨lead, trail, above, u, s, hlead, htrail, habove, rfl, rfl⟩))

/-- A pair against a code unit that is not in a pair: the order of the keys is that of the leads, or the pair is
    above. -/
theorem agree_pair_single (hlead : isLead lead = true) (htrail : isTrail trail = true)
    (hb : (isLead b && hasTrail v) = false) :
    ((encodedKey (b :: v) < encodedKey (lead :: trail :: u) ↔ codeUnits (b :: v) < codeUnits (lead :: trail :: u)) ↔
      ¬Clash (lead :: trail :: u) (b :: v)) ∧
    ((encodedKey (lead :: trail :: u) < encodedKey (b :: v) ↔ codeUnits (lead :: trail :: u) < codeUnits (b :: v)) ↔
      ¬Clash (lead :: trail :: u) (b :: v)) := by
  obtain ⟨ht, ht'⟩ := isTrail_iff.mp htrail
  rw [encodedKey_single hb, encodedKey_pair hlead htrail, clash_pair_single hlead htrail hb]
  simp only [codeUnits, map_cons, cons_lt_cons_iff, Prod.Lex.toLex_lt_toLex, toLex_inj, Prod.mk.injEq]
  by_cases heq : lead = b
  · subst heq
    rw [hlead, Bool.true_and] at hb
    cases v with
    | nil => simp; omega
    | cons c s =>
      have hc : isTrail c = false := hb
      have hrange : c.toNat < 0xdc00 ∨ 0xe000 ≤ c.toNat := by
        by_contra hnot
        exact absurd ((isTrail_iff.mpr (by omega)).symm.trans hc) (by decide)
      have hpos : 0 < trail.toNat := by omega
      have hne : c.toNat ≠ trail.toNat := by omega
      have habove : c.toNat < 0xe000 ↔ c.toNat < trail.toNat := by omega
      have hbelow : c.toNat < trail.toNat ↔ ¬trail.toNat < c.toNat := by omega
      simp [cons_lt_cons_iff, hpos, hpos.ne', hne, hne.symm, habove, hbelow]
  · have hne : lead.toNat ≠ b.toNat := fun h => heq (UInt16.toNat_inj.mp h)
    simp [heq, hne, hne.symm]

/-- The orders agree unless the strings clash. -/
theorem agree_iff (u v : List UInt16) : (encodedKey v < encodedKey u ↔ codeUnits v < codeUnits u) ↔ ¬Clash u v := by
  induction u using utf16_induction generalizing v with
  | nil =>
    rw [encodedKey_nil]
    exact iff_of_true (by simp [codeUnits]) (clash_nil_left v)
  | pair lead trail rest hlead htrail ih =>
    induction v using utf16_induction with
    | nil =>
      rw [encodedKey_nil, encodedKey_pair hlead htrail, clash_comm]
      exact iff_of_true (by simp [codeUnits]) (clash_nil_left _)
    | pair lead' trail' rest' hlead' htrail' _ =>
      rw [encodedKey_pair hlead htrail, encodedKey_pair hlead' htrail', clash_pair hlead htrail hlead' htrail']
      simp only [codeUnits, map_cons, cons_lt_cons_iff, Prod.Lex.toLex_lt_toLex, toLex_inj, Prod.mk.injEq,
        ← UInt16.toNat_inj]
      have hrest := ih rest'
      by_cases hl : lead'.toNat = lead.toNat
      · by_cases ht : trail'.toNat = trail.toNat
        · simpa [hl, ht] using hrest
        · simp [hl, ht, Ne.symm ht]
      · simp [hl, Ne.symm hl]
    | single ch rest' h _ => exact (agree_pair_single hlead htrail h).1
  | single ch rest h ih =>
    induction v using utf16_induction with
    | nil =>
      rw [encodedKey_nil, encodedKey_single h, clash_comm]
      exact iff_of_true (by simp [codeUnits]) (clash_nil_left _)
    | pair lead' trail' rest' hlead' htrail' _ =>
      rw [clash_comm]
      exact (agree_pair_single hlead' htrail' h).2
    | single ch' rest' h' _ =>
      rw [encodedKey_single h, encodedKey_single h', clash_cons_of_same (h.trans h'.symm)]
      simp only [codeUnits, map_cons, cons_lt_cons_iff, Prod.Lex.toLex_lt_toLex, toLex_inj, Prod.mk.injEq,
        ← UInt16.toNat_inj]
      have hrest := ih rest'
      by_cases hc : ch'.toNat = ch.toNat
      · simpa [hc] using hrest
      · simp [hc, Ne.symm hc]

end agree

/-! ### Against UTF-16 -/

/-- Comparing two units first, then the rest. -/
theorem compares_chars {lhs rhs : UInt16} {rest : Int} {us vs : List ℕ} (h : Compares rest us vs) :
    Compares (compareChars lhs rhs rest) (lhs.toNat :: us) (rhs.toNat :: vs) := by
  unfold compareChars
  by_cases heq : lhs = rhs
  · subst heq
    simpa using Compares.cons (compares_refl lhs.toNat) h
  have hne : lhs.toNat ≠ rhs.toNat := fun h => heq (UInt16.toNat_inj.mp h)
  rw [if_pos heq]
  split
  · next hgt =>
    have hlt : rhs.toNat < lhs.toNat := UInt16.lt_iff_toNat_lt.mp hgt
    exact compares_of_gt (cons_lt_cons_iff.mpr (.inl hlt)) (by decide)
  next hgt =>
  have hlt : lhs.toNat < rhs.toNat := by
    have hnot : ¬rhs.toNat < lhs.toNat := fun h => hgt (UInt16.lt_iff_toNat_lt.mpr h)
    omega
  exact compares_of_lt (cons_lt_cons_iff.mpr (.inl hlt)) (by decide)

theorem writeUnit_ne_nil (v : Nat) : writeUnit v ≠ [] := by
  unfold writeUnit
  dsimp only
  split <;> exact cons_ne_nil _ _

/-- The comparison with UTF-16 compares code units. -/
theorem compareModifiedUtf8ToUtf16_compares (utf8 : CString) (utf16 : List UInt16) :
    Compares (compareModifiedUtf8ToUtf16AsCodePointValues utf8 utf16) (codeUnits (convertModifiedUtf8ToUtf16 utf8))
      (codeUnits utf16) := by
  induction hn : utf16.length using Nat.strong_induction_on generalizing utf8 utf16 with
  | h n ih =>
    subst hn
    rw [compareModifiedUtf8ToUtf16AsCodePointValues.eq_def]
    by_cases hzero : utf8.headD 0 = 0
    · rw [convertModifiedUtf8ToUtf16_eq, contents_of_zero hzero]
      cases utf16 with
      | nil =>
        simp only [if_pos hzero]
        exact compares_refl _
      | cons rhs utf16 =>
        simp only [if_pos hzero]
        exact compares_of_lt (nil_lt_cons _ _) (by decide)
    · rw [convertModifiedUtf8ToUtf16_eq, contents_of_ne_zero hzero, flatMap_cons, ← convertModifiedUtf8ToUtf16_eq]
      generalize hunit : getUtf16FromUtf8 (utf8.headD 0) utf8.tail = unit
      have hcases := getUtf16FromUtf8_unit (utf8.headD 0) utf8.tail
      rw [hunit] at hcases
      cases utf16 with
      | nil =>
        obtain ⟨lhs, more, heq⟩ := exists_cons_of_ne_nil (writeUnit_ne_nil unit.1)
        simp only [if_neg hzero, heq]
        exact compares_of_gt (nil_lt_cons _ _) (by decide)
      | cons rhs utf16 =>
        simp only [if_neg hzero]
        rcases hcases with ⟨-, hlt⟩ | ⟨-, leading, trailing, hlead, hpos, htrail, heq⟩
        · obtain ⟨hfirst, hsecond⟩ := single_chars hlt
          rw [writeUnit_single hlt, hfirst, hsecond, if_neg (fun h : UInt16.ofNat 0 ≠ 0 => h rfl)]
          exact compares_chars (ih utf16.length (Nat.lt_succ_self _) unit.2 utf16 rfl)
        obtain ⟨hfirst, hsecond⟩ := pair_chars hlead trailing
        have hne : UInt16.ofNat trailing ≠ 0 := fun h => by
          have hnat := toNat_ofNat16 htrail
          rw [h] at hnat
          exact hpos.ne hnat
        rw [heq, writeUnit_pair hlead hpos, hfirst, hsecond, if_pos hne]
        cases utf16 with
        | nil => exact compares_chars (compares_of_gt (nil_lt_cons _ _) Int.one_pos)
        | cons rhs2 utf16 =>
          exact compares_chars (compares_chars (ih utf16.length (by simp only [length_cons]; omega) unit.2 utf16 rfl))

/-! ### Encoded strings -/

theorem Compares.congr_iff {κ μ : Type} [LinearOrder κ] [LinearOrder μ] {c : Int} {x y : κ} {x' y' : μ}
    (h : Compares c x y) (heq : x = y ↔ x' = y') : Compares c x' y' ↔ (y < x ↔ y' < x') := by
  constructor
  · intro h'
    rw [← h.pos, ← h'.pos]
  · intro hlt
    exact ⟨h.zero.trans heq, h.pos.trans hlt⟩

/-- Two encoded strings compare as their code units exactly if they do not clash; an encoded string and code units
    always do, and the result is zero only for equal strings. -/
theorem compare_encoded_iff (u v : List UInt16) :
    (Compares (compareModifiedUtf8ToModifiedUtf8AsUtf16CodePointValues (modifiedUtf8 u) (modifiedUtf8 v)) (codeUnits u)
          (codeUnits v) ∧
        Compares (compareModifiedUtf8ToUtf16AsCodePointValues (modifiedUtf8 u) v) (codeUnits u) (codeUnits v) ↔
      ¬Clash u v) ∧
    (compareModifiedUtf8ToModifiedUtf8AsUtf16CodePointValues (modifiedUtf8 u) (modifiedUtf8 v) = 0 ↔ u = v) ∧
    Compares (compareModifiedUtf8ToUtf16AsCodePointValues (modifiedUtf8 u) v) (codeUnits u) (codeUnits v) := by
  have hcompare := compare_compares (encode u) (encode v)
  have hutf16 := compareModifiedUtf8ToUtf16_compares (encode u) v
  rw [convertModifiedUtf8ToUtf16_encode] at hutf16
  rw [modifiedUtf8_eq, modifiedUtf8_eq]
  refine ⟨?_, hcompare.zero.trans encodedKey_injective.eq_iff, hutf16⟩
  rw [and_iff_left hutf16, ← agree_iff u v]
  exact Compares.congr_iff hcompare (encodedKey_injective.eq_iff.trans codeUnits_injective.eq_iff.symm)

/-- U+10000 as a surrogate pair, and its lead before U+E000. -/
theorem compare_encoded_clash :
    compareModifiedUtf8ToModifiedUtf8AsUtf16CodePointValues
        (modifiedUtf8 [0xd800, 0xdc00]) (modifiedUtf8 [0xd800, 0xe000]) > 0 ∧
      codeUnits [0xd800, 0xdc00] < codeUnits [0xd800, 0xe000] := by decide

end Art.Dex
