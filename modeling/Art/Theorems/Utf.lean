import Art.Lib.BinarySearch
import Art.Libdexfile.Utf
import Mathlib.Data.List.TakeWhile

/-! Modified UTF-8: what is encoded is decoded again, by every one of the walkers, and how the comparisons relate to the
    order of the code units. -/

namespace Art.Dex
open List

open Lib
open UInt8 (ofNat)

/-! ### The order of decoded strings -/

/-- What a string says: its code units up to the terminator, a surrogate pair of four bytes as one. -/
def contents : CString → List Nat
  | [] => []
  | one :: rest => if one = 0 then [] else (getUtf16FromUtf8 one rest).1 :: contents (getUtf16FromUtf8 one rest).2
termination_by string => string.length
decreasing_by
  have := getUtf16FromUtf8_length one rest
  simp only [length_cons]
  omega

/-- The order of code units, by the leading halves first. -/
def unitKey (unit : Nat) : ℕ ×ₗ ℕ := toLex (getLeadingUtf16Char unit, getTrailingUtf16Char unit)

def stringKey (string : CString) : List (ℕ ×ₗ ℕ) := (contents string).map unitKey

theorem unitKey_injective : Function.Injective unitKey := by
  intro a b h
  have h : (a % 2 ^ 16, a / 2 ^ 16) = (b % 2 ^ 16, b / 2 ^ 16) := toLex.injective h
  rw [Prod.mk.injEq] at h
  omega

theorem stringKey_eq_iff {s t : CString} : stringKey s = stringKey t ↔ contents s = contents t :=
  (map_injective_iff.mpr unitKey_injective).eq_iff

theorem contents_of_zero {s : CString} (h : s.headD 0 = 0) : contents s = [] := by
  cases s with
  | nil => rw [contents]
  | cons one rest => exact (contents.eq_2 one rest).trans (if_pos h)

theorem contents_of_ne_zero {s : CString} (h : s.headD 0 ≠ 0) :
    contents s = (getUtf16FromUtf8 (s.headD 0) s.tail).1 :: contents (getUtf16FromUtf8 (s.headD 0) s.tail).2 := by
  cases s with
  | nil => exact absurd rfl h
  | cons one rest => exact (contents.eq_2 one rest).trans (if_neg h)

theorem compares_unit (c1 c2 : Nat) :
    Compares (if (getLeadingUtf16Char c1 : Int) - getLeadingUtf16Char c2 = 0
      then (getTrailingUtf16Char c1 : Int) - getTrailingUtf16Char c2
      else (getLeadingUtf16Char c1 : Int) - getLeadingUtf16Char c2) (unitKey c1) (unitKey c2) :=
  (compares_sub _ _).toLex (compares_sub _ _)

/-- The comparison of two strings compares their keys. -/
theorem compareFrom_compares (fuel : Nat) (s t : CString) (hfuel : s.length < fuel) :
    Compares (compareFrom fuel s t) (stringKey s) (stringKey t) := by
  induction fuel generalizing s t with
  | zero => omega
  | succ fuel ih =>
    unfold compareFrom
    unfold stringKey at ih ⊢
    by_cases hs : s.headD 0 = 0
    · rw [contents_of_zero hs]
      by_cases ht : t.headD 0 = 0
      · rw [contents_of_zero ht]
        simpa only [hs, ht, if_true] using compares_refl _
      · rw [contents_of_ne_zero ht]
        simpa only [hs, ht, if_true, if_false] using compares_of_lt (nil_lt_cons _ _) (by decide)
    by_cases ht : t.headD 0 = 0
    · rw [contents_of_zero ht, contents_of_ne_zero hs]
      simpa only [hs, ht, if_true, if_false] using compares_of_gt (nil_lt_cons _ _) (by decide)
    rw [contents_of_ne_zero hs, contents_of_ne_zero ht, map_cons, map_cons]
    have hlength : (getUtf16FromUtf8 (s.headD 0) s.tail).2.length < fuel := by
      have := getUtf16FromUtf8_length (s.headD 0) s.tail
      cases s with
      | nil => exact absurd rfl hs
      | cons one rest =>
        simp only [length_cons, tail_cons] at hfuel this ⊢
        omega
    have hcons := (compares_unit (getUtf16FromUtf8 (s.headD 0) s.tail).1
      (getUtf16FromUtf8 (t.headD 0) t.tail).1).cons (ih _ (getUtf16FromUtf8 (t.headD 0) t.tail).2 hlength)
    simp only [hs, ht, if_false]
    convert hcons using 1
    simp only [(compares_unit _ _).zero, unitKey_injective.eq_iff, ite_not]

theorem compare_compares (s t : CString) :
    Compares (compareModifiedUtf8ToModifiedUtf8AsUtf16CodePointValues s t) (stringKey s) (stringKey t) :=
  compareFrom_compares _ s t (Nat.lt_succ_self _)

/-! ### Bytes of one unit -/

theorem leadByte_two : ∀ x < 32, ofNat (x ||| 0xc0) &&& 0x80 ≠ 0 ∧ ofNat (x ||| 0xc0) &&& 0x20 = 0 ∧
    (ofNat (x ||| 0xc0) &&& 0x1f).toNat = x := by decide

theorem leadByte_three : ∀ x < 16, ofNat (x ||| 0xe0) &&& 0x80 ≠ 0 ∧ ofNat (x ||| 0xe0) &&& 0x20 ≠ 0 ∧
    ofNat (x ||| 0xe0) &&& 0x10 = 0 ∧ (ofNat (x ||| 0xe0) &&& 0x0f).toNat = x := by decide

theorem leadByte_four : ∀ x < 8, ofNat (x ||| 0xf0) &&& 0x80 ≠ 0 ∧ ofNat (x ||| 0xf0) &&& 0x20 ≠ 0 ∧
    ofNat (x ||| 0xf0) &&& 0x10 ≠ 0 ∧ (ofNat (x ||| 0xf0) &&& 0x0f).toNat = x := by decide

theorem nextByte : ∀ x < 64, ofNat (x ||| 0x80) ≠ 0 ∧ (ofNat (x ||| 0x80) &&& 0x3f).toNat = x := by decide

theorem and_low (x : Nat) : x &&& 0x3f = x % 64 := Nat.and_two_pow_sub_one_eq_mod x 6

theorem low_lt (x : Nat) : x &&& 0x3f < 64 := (and_low x).trans_lt (Nat.mod_lt _ (by decide))

theorem or_low {y : Nat} (h : y < 64) (x : Nat) : x <<< 6 ||| y = x * 64 + y := by
  rw [← Nat.shiftLeft_add_eq_or_of_lt (show y < 2 ^ 6 from h), Nat.shiftLeft_eq]

/-- Six bits more below what stands further left. -/
theorem or_shift {y : Nat} (h : y < 64) (x n : Nat) : x <<< (n + 6) ||| y <<< n = (x * 64 + y) <<< n := by
  rw [Nat.add_comm, Nat.shiftLeft_add, ← Nat.shiftLeft_or_distrib, or_low h]

/-! ### The decoders on any bytes -/

/-- The first byte of a surrogate pair. -/
def IsFour (one : UInt8) : Prop := one &&& 0x80 ≠ 0 ∧ one &&& 0x20 ≠ 0 ∧ one &&& 0x10 ≠ 0

instance (one : UInt8) : Decidable (IsFour one) := inferInstanceAs (Decidable (_ ∧ _))

theorem toNat_ofNat16 {x : Nat} (h : x < 2 ^ 16) : (UInt16.ofNat x).toNat = x := by
  rw [UInt16.toNat_ofNat', Nat.mod_eq_of_lt h]

theorem and_toNat_lt (b : UInt8) {mask : UInt8} {n : Nat} (h : mask.toNat < n) : (b &&& mask).toNat < n := by
  rw [UInt8.toNat_and]
  exact Nat.lt_of_le_of_lt Nat.and_le_right h

/-- A unit is one code unit, or a pair with a trailing one that is not zero. -/
theorem getUtf16FromUtf8_unit (one : UInt8) (rest : CString) :
    (¬IsFour one ∧ (getUtf16FromUtf8 one rest).1 < 2 ^ 16) ∨
      (IsFour one ∧ ∃ leading trailing, leading < 2 ^ 16 ∧ 0 < trailing ∧ trailing < 2 ^ 16 ∧
        (getUtf16FromUtf8 one rest).1 = leading + trailing * 2 ^ 16) := by
  have h1f : (one &&& 0x1f).toNat < 32 := and_toNat_lt one (by decide)
  have h0f : (one &&& 0x0f).toNat < 16 := and_toNat_lt one (by decide)
  have h3f : ∀ b : UInt8, (b &&& 0x3f).toNat < 64 := fun b => and_toNat_lt b (by decide)
  unfold getUtf16FromUtf8 IsFour
  by_cases h80 : one &&& 0x80 = 0
  · rw [if_pos h80]
    have hlt := one.toNat_lt
    exact .inl ⟨fun h => h.1 h80, by omega⟩
  by_cases h20 : one &&& 0x20 = 0
  · have htwo := h3f (rest.headD 0)
    rw [if_neg h80, if_pos h20, or_low htwo]
    exact .inl ⟨fun h => h.2.1 h20, by dsimp only; omega⟩
  by_cases h10 : one &&& 0x10 = 0
  · have htwo := h3f (rest.headD 0)
    have hthree := h3f (rest.tail.headD 0)
    simp only [if_neg h80, if_neg h20, if_pos h10]
    rw [or_shift htwo _ 6, or_low hthree]
    exact .inl ⟨fun h => h.2.2 h10, by omega⟩
  · simp only [if_neg h80, if_neg h20, if_neg h10]
    generalize (one &&& 0x0f).toNat <<< 18 ||| (rest.headD 0 &&& 0x3f).toNat <<< 12 |||
      (rest.tail.headD 0 &&& 0x3f).toNat <<< 6 ||| (rest.tail.tail.headD 0 &&& 0x3f).toNat = codePoint
    refine .inr ⟨⟨h80, h20, h10⟩, (codePoint >>> 10 + 0xd7c0) % 2 ^ 16, (codePoint % 2 ^ 10 + 0xdc00) % 2 ^ 16,
      Nat.mod_lt _ (by decide), by omega, Nat.mod_lt _ (by decide), ?_⟩
    rw [Nat.or_comm, ← Nat.shiftLeft_add_eq_or_of_lt (Nat.mod_lt _ (by decide)), Nat.shiftLeft_eq, Nat.add_comm]

theorem single_chars {v : Nat} (h : v < 2 ^ 16) : getLeadingUtf16Char v = v ∧ getTrailingUtf16Char v = 0 :=
  ⟨Nat.mod_eq_of_lt h, Nat.div_eq_of_lt h⟩

theorem pair_chars {leading : Nat} (hlead : leading < 2 ^ 16) (trailing : Nat) :
    getLeadingUtf16Char (leading + trailing * 2 ^ 16) = leading ∧
      getTrailingUtf16Char (leading + trailing * 2 ^ 16) = trailing := by
  unfold getLeadingUtf16Char getTrailingUtf16Char
  omega

theorem writeUnit_single {v : Nat} (h : v < 2 ^ 16) : writeUnit v = [UInt16.ofNat v] := by
  simp [writeUnit, single_chars h]

theorem writeUnit_pair {leading trailing : Nat} (hlead : leading < 2 ^ 16) (hpos : 0 < trailing) :
    writeUnit (leading + trailing * 2 ^ 16) = [UInt16.ofNat leading, UInt16.ofNat trailing] := by
  simp only [writeUnit, pair_chars hlead]
  rw [if_pos (by omega)]

/-- The count is the length of the conversion. -/
theorem countModifiedUtf8Chars_eq (utf8 : List UInt8) : countModifiedUtf8Chars utf8 = (convertBytes utf8).length := by
  fun_induction convertBytes utf8 with
  | case1 => rw [countModifiedUtf8Chars]; rfl
  | case2 one rest ih =>
    have hnext : countModifiedUtf8Chars (one :: rest) =
        countModifiedUtf8Chars (getUtf16FromUtf8 one rest).2 + if IsFour one then 2 else 1 := by
      rw [countModifiedUtf8Chars, getUtf16FromUtf8]
      unfold IsFour
      simp only [← drop_one, drop_drop]
      by_cases h80 : one &&& 0x80 = 0
      · simp [h80]
      by_cases h20 : one &&& 0x20 = 0
      · simp [h80, h20]
      by_cases h10 : one &&& 0x10 = 0
      · simp [h80, h20, h10]
      · simp [h80, h20, h10]
    rw [hnext, ih, length_append, Nat.add_comm]
    congr 1
    rcases getUtf16FromUtf8_unit one rest with ⟨hnot, hlt⟩ | ⟨hfour, leading, trailing, hlead, hpos, -, heq⟩
    · rw [writeUnit_single hlt, if_neg hnot]
      rfl
    · rw [heq, writeUnit_pair hlead hpos, if_pos hfour]
      rfl

theorem hashFromModifiedUtf8_cons (hash : UInt32) (one : UInt8) (rest : CString) (n : Nat) :
    hashFromModifiedUtf8 hash (one :: rest) ((writeUnit (getUtf16FromUtf8 one rest).1).length + n) =
      hashFromModifiedUtf8 ((writeUnit (getUtf16FromUtf8 one rest).1).foldl
        (fun hash ch => updateUtf16Hash hash ch.toNat) hash) (getUtf16FromUtf8 one rest).2 n := by
  rcases getUtf16FromUtf8_unit one rest with ⟨hnot, hlt⟩ | ⟨hfour, leading, trailing, hlead, hpos, htrail, heq⟩
  · obtain ⟨hfirst, hsecond⟩ := single_chars hlt
    rw [writeUnit_single hlt, length_singleton, Nat.add_comm]
    cases n <;> simp [hashFromModifiedUtf8, hfirst, hsecond, toNat_ofNat16 hlt]
  obtain ⟨hfirst, hsecond⟩ := pair_chars hlead trailing
  have hne : trailing ≠ 0 := by omega
  have hwrite := writeUnit_pair hlead hpos
  rw [← heq] at hfirst hsecond hwrite
  rw [hwrite, length_cons, length_singleton, Nat.add_comm]
  simp [hashFromModifiedUtf8, hfirst, hsecond, hne, toNat_ofNat16 hlead, toNat_ofNat16 htrail]

theorem hashFromModifiedUtf8_eq (utf8 : List UInt8) (hash : UInt32) :
    hashFromModifiedUtf8 hash utf8 (convertBytes utf8).length =
      (convertBytes utf8).foldl (fun hash ch => updateUtf16Hash hash ch.toNat) hash := by
  fun_induction convertBytes utf8 generalizing hash with
  | case1 => rfl
  | case2 one rest ih => rw [length_append, hashFromModifiedUtf8_cons, ih, foldl_append]

/-! ### The encoder -/

section encode

variable {ch lead trail : UInt16} {rest : List UInt16}

/-- The code units of a string in order, a lead with its trail at once. -/
theorem utf16_induction {P : List UInt16 → Prop} (nil : P [])
    (pair : ∀ lead trail rest, isLead lead = true → isTrail trail = true → P rest → P (lead :: trail :: rest))
    (single : ∀ ch rest, (isLead ch && hasTrail rest) = false → P rest → P (ch :: rest)) (u : List UInt16) : P u := by
  induction hn : u.length using Nat.strong_induction_on generalizing u with
  | h n ih =>
    subst hn
    cases u with
    | nil => exact nil
    | cons ch rest =>
      cases hpair : isLead ch && hasTrail rest with
      | false => exact single ch rest hpair (ih _ (Nat.lt_succ_self _) rest rfl)
      | true =>
        rw [Bool.and_eq_true] at hpair
        cases rest with
        | nil => exact absurd hpair.2 (by decide)
        | cons trail rest =>
          have hlt : rest.length < (ch :: trail :: rest).length := by
            simp only [length_cons]
            omega
          exact pair ch trail rest hpair.1 hpair.2 (ih _ hlt rest rfl)

theorem and_high {x : Nat} (h : x < 2 ^ 16) : x &&& 0xfc00 = x / 1024 * 1024 := by
  have hhigh : (x &&& 0xfc00) / 1024 = x / 1024 := by
    have hshift : (x &&& 0xfc00) >>> 10 = x >>> 10 &&& 0x3f := Nat.shiftRight_and_distrib ..
    rw [Nat.shiftRight_eq_div_pow, Nat.shiftRight_eq_div_pow, and_low] at hshift
    omega
  have hlow : (x &&& 0xfc00) % 1024 = 0 := by
    have hmod : (x &&& 0xfc00) % 2 ^ 10 = x % 2 ^ 10 &&& 0xfc00 % 2 ^ 10 := Nat.and_mod_two_pow
    simpa using hmod
  omega

theorem and_fc00_eq_iff (ch : UInt16) (n : Nat) (hn : n < 64) :
    ch &&& 0xfc00 = UInt16.ofNat (n * 1024) ↔ n * 1024 ≤ ch.toNat ∧ ch.toNat < n * 1024 + 1024 := by
  have hand : (ch &&& 0xfc00).toNat = ch.toNat / 1024 * 1024 := by
    rw [UInt16.toNat_and]
    exact and_high ch.toNat_lt
  rw [← UInt16.toNat_inj, hand, toNat_ofNat16 (by omega)]
  omega

theorem isLead_iff : isLead ch = true ↔ 0xd800 ≤ ch.toNat ∧ ch.toNat < 0xdc00 :=
  decide_eq_true_iff.trans (and_fc00_eq_iff ch 54 (by decide))

theorem isTrail_iff : isTrail ch = true ↔ 0xdc00 ≤ ch.toNat ∧ ch.toNat < 0xe000 :=
  decide_eq_true_iff.trans (and_fc00_eq_iff ch 55 (by decide))

/-- The bytes of a code unit that is not in a pair. -/
def encodeSingle (ch : UInt16) : List UInt8 :=
  if ch < 0x80 ∧ ch ≠ 0 then [ch.toUInt8] else if ch < 0x800 then twoBytes ch.toNat else threeBytes ch.toNat

/-- Modified UTF-8, with surrogate pairs in four bytes, or in twice three as dex files have them. -/
abbrev encodeAs (use4ByteSequence : Bool) (u : List UInt16) : List UInt8 :=
  convertUtf16ToUtf8 false use4ByteSequence false u

/-- The bytes that are written if the code units are not all ASCII. -/
abbrev encode (u : List UInt16) : List UInt8 := encodeAs true u

theorem encodeAs_single (use4ByteSequence : Bool) (h : (use4ByteSequence && isLead ch && hasTrail rest) = false) :
    encodeAs use4ByteSequence (ch :: rest) = encodeSingle ch ++ encodeAs use4ByteSequence rest := by
  have hunit : convertUnit false use4ByteSequence false ch rest = (encodeSingle ch, false) := by
    unfold convertUnit encodeSingle
    simp only [Bool.false_eq_true, false_or, if_false, h]
    split
    · rfl
    split <;> rfl
  rw [encodeAs, convertUtf16ToUtf8, convertFrom, hunit]
  rfl

theorem encode_single (h : (isLead ch && hasTrail rest) = false) :
    encode (ch :: rest) = encodeSingle ch ++ encode rest :=
  encodeAs_single true h

theorem encode_pair (hlead : isLead lead = true) (htrail : isTrail trail = true) :
    encode (lead :: trail :: rest) = fourBytes (getSupplementary lead trail) ++ encode rest := by
  have hge : 0xd800 ≤ lead.toNat := (isLead_iff.mp hlead).1
  have h80 : ¬(lead < 0x80 ∧ (false = true ∨ lead ≠ 0)) := fun h => by
    have hlt : lead.toNat < 0x80 := UInt16.lt_iff_toNat_lt.mp h.1
    omega
  have h800 : ¬lead < 0x800 := fun h => by
    have hlt : lead.toNat < 0x800 := UInt16.lt_iff_toNat_lt.mp h
    omega
  have hunit : convertUnit false true false lead (trail :: rest) = (fourBytes (getSupplementary lead trail), true) := by
    unfold convertUnit
    rw [if_neg h80, if_neg h800]
    simp [hlead, hasTrail, htrail]
  rw [encode, encodeAs, convertUtf16ToUtf8, convertFrom, hunit]
  rfl

/-- The bytes have no zero and are read as the unit `v`. -/
structure Encodes (bytes : List UInt8) (v : Nat) : Prop where
  ne_zero : 0 ∉ bytes
  decode : ∃ one more, bytes = one :: more ∧ ∀ rest, getUtf16FromUtf8 one (more ++ rest) = (v, rest)

theorem twoBytes_encodes {x : Nat} (h : x < 0x800) : Encodes (twoBytes x) x := by
  obtain ⟨h80, h20, hone⟩ := leadByte_two (x >>> 6) (by rw [Nat.shiftRight_eq_div_pow]; omega)
  obtain ⟨hnext, htwo⟩ := nextByte _ (low_lt x)
  refine ⟨fun hmem => ?_, _, _, rfl, fun rest => ?_⟩
  · simp only [twoBytes, mem_cons, not_mem_nil, or_false] at hmem
    rcases hmem with hzero | hzero
    · exact h80 (by rw [← hzero]; rfl)
    · exact hnext hzero.symm
  · unfold getUtf16FromUtf8
    rw [if_neg h80, if_pos h20, cons_append, nil_append, headD_cons, tail_cons, hone, htwo, or_low (low_lt x), and_low,
      Nat.shiftRight_eq_div_pow]
    refine Prod.ext ?_ rfl
    omega

theorem threeBytes_encodes {x : Nat} (h : x < 0x10000) : Encodes (threeBytes x) x := by
  obtain ⟨h80, h20, h10, hone⟩ := leadByte_three (x >>> 12) (by rw [Nat.shiftRight_eq_div_pow]; omega)
  refine ⟨fun hmem => ?_, _, _, rfl, fun rest => ?_⟩
  · simp only [threeBytes, mem_cons, not_mem_nil, or_false] at hmem
    rcases hmem with hzero | hzero | hzero
    · exact h80 (by rw [← hzero]; rfl)
    all_goals exact (nextByte _ (low_lt _)).1 hzero.symm
  · unfold getUtf16FromUtf8
    simp only [if_neg h80, if_neg h20, if_pos h10, cons_append, headD_cons, tail_cons, hone, (nextByte _ (low_lt _)).2]
    rw [or_shift (low_lt _) _ 6, or_low (low_lt _), and_low, and_low, Nat.shiftRight_eq_div_pow,
      Nat.shiftRight_eq_div_pow]
    refine Prod.ext ?_ rfl
    omega

/-- Four bytes encode a pair of surrogates. -/
theorem fourBytes_encodes {x : Nat} (hge : 0x10000 ≤ x) (h : x < 0x110000) :
    Encodes (fourBytes x) (x / 2 ^ 10 + 0xd7c0 + (x % 2 ^ 10 + 0xdc00) * 2 ^ 16) := by
  obtain ⟨h80, h20, h10, hone⟩ := leadByte_four (x >>> 18) (by rw [Nat.shiftRight_eq_div_pow]; omega)
  refine ⟨fun hmem => ?_, _, _, rfl, fun rest => ?_⟩
  · simp only [fourBytes, mem_cons, not_mem_nil, or_false] at hmem
    rcases hmem with hzero | hzero | hzero | hzero
    · exact h80 (by rw [← hzero]; rfl)
    all_goals exact (nextByte _ (low_lt _)).1 hzero.symm
  · unfold getUtf16FromUtf8
    simp only [if_neg h80, if_neg h20, if_neg h10, cons_append, headD_cons, tail_cons, hone, (nextByte _ (low_lt _)).2]
    rw [or_shift (low_lt _) _ 12, or_shift (low_lt _) _ 6, or_low (low_lt _)]
    have hpoint : ((x >>> 18 * 64 + (x >>> 12 &&& 0x3f)) * 64 + (x >>> 6 &&& 0x3f)) * 64 + (x &&& 0x3f) = x := by
      rw [and_low, and_low, and_low, Nat.shiftRight_eq_div_pow, Nat.shiftRight_eq_div_pow, Nat.shiftRight_eq_div_pow]
      omega
    rw [hpoint, Nat.shiftRight_eq_div_pow, Nat.mod_eq_of_lt (by omega), Nat.mod_eq_of_lt (by omega), Nat.or_comm,
      ← Nat.shiftLeft_add_eq_or_of_lt (show x / 2 ^ 10 + 0xd7c0 < 2 ^ 16 by omega), Nat.shiftLeft_eq, Nat.add_comm]
    rfl

theorem toUInt8_eq (ch : UInt16) : ch.toUInt8 = ofNat ch.toNat := rfl

theorem encodeSingle_encodes (ch : UInt16) : Encodes (encodeSingle ch) ch.toNat := by
  unfold encodeSingle
  split
  · next h =>
    have hlt : ch.toNat < 0x80 := UInt16.lt_iff_toNat_lt.mp h.1
    have hne : ch.toNat ≠ 0 := fun hzero => h.2 (UInt16.toNat_inj.mp hzero)
    refine ⟨fun hmem => ?_, _, _, rfl, fun rest => ?_⟩
    · rw [mem_singleton, toUInt8_eq, ← UInt8.toNat_inj, UInt8.toNat_ofNat', Nat.mod_eq_of_lt (by omega)] at hmem
      exact hne hmem.symm
    · have hbits : ∀ x < 0x80, ofNat x &&& 0x80 = 0 ∧ (ofNat x).toNat = x := by decide
      rw [toUInt8_eq, nil_append, getUtf16FromUtf8, if_pos (hbits _ hlt).1, (hbits _ hlt).2]
  split
  · next h => exact twoBytes_encodes (UInt16.lt_iff_toNat_lt.mp h)
  · exact threeBytes_encodes ch.toNat_lt

theorem pair_encodes (hlead : isLead lead = true) (htrail : isTrail trail = true) :
    Encodes (fourBytes (getSupplementary lead trail)) (lead.toNat + trail.toNat * 2 ^ 16) := by
  obtain ⟨hl, hl'⟩ := isLead_iff.mp hlead
  obtain ⟨ht, ht'⟩ := isTrail_iff.mp htrail
  have hpoint : getSupplementary lead trail = (lead.toNat - 0xd800) * 1024 + (trail.toNat - 0xdc00) + 0x10000 := by
    unfold getSupplementary
    omega
  have hencodes := fourBytes_encodes (x := getSupplementary lead trail) (by omega) (by omega)
  have hunit : getSupplementary lead trail / 2 ^ 10 + 0xd7c0 +
    (getSupplementary lead trail % 2 ^ 10 + 0xdc00) * 2 ^ 16 =
      lead.toNat + trail.toNat * 2 ^ 16 := by omega
  rwa [hunit] at hencodes

end encode

/-! ### The round trip -/

section roundTrip

variable {bytes : List UInt8} {v : Nat}

theorem Encodes.convertBytes (h : Encodes bytes v) (rest : List UInt8) :
    convertBytes (bytes ++ rest) = writeUnit v ++ Dex.convertBytes rest := by
  obtain ⟨one, more, rfl, hdecode⟩ := h.decode
  rw [cons_append, Dex.convertBytes, hdecode]

theorem Encodes.convertModifiedUtf8ToUtf16 (h : Encodes bytes v) (rest : List UInt8) :
    convertModifiedUtf8ToUtf16 (bytes ++ rest) = writeUnit v ++ Dex.convertModifiedUtf8ToUtf16 rest := by
  obtain ⟨one, more, rfl, hdecode⟩ := h.decode
  have hne : one ≠ 0 := fun hzero => h.ne_zero (hzero ▸ mem_cons_self)
  rw [cons_append, Dex.convertModifiedUtf8ToUtf16, if_neg hne, hdecode]

theorem Encodes.contents (h : Encodes bytes v) (rest : List UInt8) :
    contents (bytes ++ rest) = v :: Dex.contents rest := by
  obtain ⟨one, more, rfl, hdecode⟩ := h.decode
  have hne : one ≠ 0 := fun hzero => h.ne_zero (hzero ▸ mem_cons_self)
  rw [cons_append, Dex.contents, if_neg hne, hdecode]

theorem encode_nil : encode [] = [] := rfl

theorem writeUnit_toNat (ch : UInt16) : writeUnit ch.toNat = [ch] := by
  rw [writeUnit_single ch.toNat_lt, UInt16.ofNat_toNat]

theorem writeUnit_surrogates {lead trail : UInt16} (htrail : isTrail trail = true) :
    writeUnit (lead.toNat + trail.toNat * 2 ^ 16) = [lead, trail] := by
  have hge := (isTrail_iff.mp htrail).1
  rw [writeUnit_pair lead.toNat_lt (by omega), UInt16.ofNat_toNat, UInt16.ofNat_toNat]

/-- Induction over an encoding, one sequence at a time. -/
theorem encode_induction {P : List UInt16 → List UInt8 → Prop} (nil : P [] [])
    (unit : ∀ {bytes v u rest}, Encodes bytes v → P u rest → P (writeUnit v ++ u) (bytes ++ rest))
    (use4ByteSequence : Bool) (u : List UInt16) : P u (encodeAs use4ByteSequence u) := by
  have hsingle : ∀ ch rest, (use4ByteSequence && isLead ch && hasTrail rest) = false →
      P rest (encodeAs use4ByteSequence rest) → P (ch :: rest) (encodeAs use4ByteSequence (ch :: rest)) := by
    intro ch rest h ih
    have hunit := unit (encodeSingle_encodes ch) ih
    rwa [writeUnit_toNat, ← encodeAs_single use4ByteSequence h] at hunit
  cases use4ByteSequence with
  | false =>
    induction u with
    | nil => exact nil
    | cons ch rest ih => exact hsingle ch rest rfl ih
  | true =>
    induction u using utf16_induction with
    | nil => exact nil
    | pair lead trail rest hlead htrail ih =>
      have hunit := unit (pair_encodes hlead htrail) ih
      rwa [writeUnit_surrogates htrail, ← encode_pair hlead htrail] at hunit
    | single ch rest h ih => exact hsingle ch rest h ih

theorem encode_ne_zero {use4ByteSequence : Bool} (u : List UInt16) : 0 ∉ encodeAs use4ByteSequence u := by
  refine encode_induction (P := fun _ bytes => 0 ∉ bytes) not_mem_nil (fun h ih => ?_) _ u
  rw [mem_append, not_or]
  exact ⟨h.ne_zero, ih⟩

theorem convertBytes_encode (u : List UInt16) : convertBytes (encode u) = u := by
  refine encode_induction (P := fun u bytes => convertBytes bytes = u) ?_ (fun h ih => ?_) true u
  · rw [Dex.convertBytes]
  · rw [h.convertBytes, ih]

theorem convertModifiedUtf8ToUtf16_encode {use4ByteSequence : Bool} (u : List UInt16) :
    convertModifiedUtf8ToUtf16 (encodeAs use4ByteSequence u) = u := by
  refine encode_induction (P := fun u bytes => convertModifiedUtf8ToUtf16 bytes = u) ?_ (fun h ih => ?_) _ u
  · rw [Dex.convertModifiedUtf8ToUtf16]
  · rw [h.convertModifiedUtf8ToUtf16, ih]

/-- An encoding is at least as long, and as long only when all is ASCII. -/
theorem length_le_encode (u : List UInt16) :
    u.length ≤ (encode u).length ∧
      (u.length = (encode u).length → u.map UInt16.toUInt8 = encode u ∧ (encode u).map UInt8.toUInt16 = u) := by
  induction u using utf16_induction with
  | nil => exact ⟨Nat.le_refl _, fun _ => ⟨rfl, rfl⟩⟩
  | pair lead trail rest hlead htrail ih =>
    have hfour : (fourBytes (getSupplementary lead trail)).length = 4 := rfl
    rw [encode_pair hlead htrail, length_append, hfour]
    simp only [length_cons]
    exact ⟨by omega, fun h => by omega⟩
  | single ch rest h ih =>
    rw [encode_single h, length_append, length_cons]
    unfold encodeSingle
    split
    · next hone =>
      have hlt : ch.toNat < 0x80 := UInt16.lt_iff_toNat_lt.mp hone.1
      have hch : ch.toUInt8.toUInt16 = ch := by
        refine UInt16.toNat_inj.mp ?_
        rw [UInt8.toNat_toUInt16, UInt16.toNat_toUInt8]
        omega
      refine ⟨by rw [length_singleton]; omega, fun hlength => ?_⟩
      obtain ⟨hbytes, hchars⟩ := ih.2 (by rw [length_singleton] at hlength; omega)
      rw [map_cons, hbytes, map_append, hchars, map_singleton, hch]
      exact ⟨rfl, rfl⟩
    · have hlong : 2 ≤ (if ch < 0x800 then twoBytes ch.toNat else threeBytes ch.toNat).length := by
        split
        · exact Nat.le_refl 2
        · exact Nat.le_succ 2
      exact ⟨by omega, fun hlength => by omega⟩

/-- A string written out with the counted number of bytes, as the callers do it. -/
def modifiedUtf8 (u : List UInt16) : List UInt8 := convertUtf16ToModifiedUtf8 (countModifiedUtf8BytesInUtf16 u) u

theorem modifiedUtf8_eq (u : List UInt16) : modifiedUtf8 u = encode u := by
  unfold modifiedUtf8 convertUtf16ToModifiedUtf8
  split
  · next heq => exact ((length_le_encode u).2 heq.symm).1
  · rfl

theorem strlen_encode (u : List UInt16) : (encode u).take (strlen (encode u)) = encode u := by
  have hall : (encode u).takeWhile (· ≠ 0) = encode u :=
    takeWhile_eq_self_iff.mpr fun b hb => decide_eq_true fun hzero => encode_ne_zero u (hzero ▸ hb)
  rw [strlen, hall, take_length]

/-- The bytes written for a string: no terminator inside, the counted number, and every walker gets the string back. -/
theorem convertUtf16ToModifiedUtf8_roundTrip (u : List UInt16) :
    0 ∉ modifiedUtf8 u ∧ (modifiedUtf8 u).length = countModifiedUtf8BytesInUtf16 u ∧
      countModifiedUtf8Chars (modifiedUtf8 u) = u.length ∧ countModifiedUtf8CharsOfString (modifiedUtf8 u) = u.length ∧
      convertModifiedUtf8ToUtf16 (modifiedUtf8 u) = u ∧
      convertModifiedUtf8ToUtf16OfLength u.length (modifiedUtf8 u) = u ∧
      computeUtf16HashFromModifiedUtf8 (modifiedUtf8 u) u.length = computeUtf16Hash u := by
  have hcount : countModifiedUtf8Chars (encode u) = u.length := by
    rw [countModifiedUtf8Chars_eq, convertBytes_encode]
  rw [modifiedUtf8_eq]
  refine ⟨encode_ne_zero u, rfl, hcount, ?_, convertModifiedUtf8ToUtf16_encode u, ?_, ?_⟩
  · rw [countModifiedUtf8CharsOfString, strlen_encode, hcount]
  · unfold convertModifiedUtf8ToUtf16OfLength
    split
    · next heq => exact ((length_le_encode u).2 heq).2
    · exact convertBytes_encode u
  · have hhash := hashFromModifiedUtf8_eq (encode u) 0
    rw [convertBytes_encode] at hhash
    rw [computeUtf16HashFromModifiedUtf8, computeUtf16Hash, hhash]

end roundTrip

end Art.Dex
