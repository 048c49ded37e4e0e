import Mathlib.Tactic

/-! # Bit strings

`libartbase/base/bit_string.h`: up to three characters of 12, 4 and 11 bits in one word, the first one in
the least significant bits. -/

namespace Art.BitString

def kBitSizeAtPosition : List Nat := [12, 4, 11]

def kCapacity : Nat := kBitSizeAtPosition.length

/-- The bits of a character; 0 beyond the capacity (`MaybeGetBitLengthAtPosition`). -/
def bitSize (idx : Nat) : Nat := kBitSizeAtPosition.getD idx 0

def getBitLengthTotalAtPosition (position : Nat) : Nat := (kBitSizeAtPosition.take position).sum

/-- The bit fields of `base/bit_utils.h`. -/
def bitFieldExtract (value lsb width : Nat) : Nat := value / 2 ^ lsb % 2 ^ width
def bitFieldClear (value lsb width : Nat) : Nat := value - bitFieldExtract value lsb width * 2 ^ lsb
def bitFieldInsert (value data lsb width : Nat) : Nat := bitFieldClear value lsb width + data * 2 ^ lsb

def getAt (s idx : Nat) : Nat := bitFieldExtract s (getBitLengthTotalAtPosition idx) (bitSize idx)

def setAt (s idx bitchar : Nat) : Nat := bitFieldInsert s bitchar (getBitLengthTotalAtPosition idx) (bitSize idx)

def maximumValue (idx : Nat) : Nat := 2 ^ bitSize idx - 1

def lengthFrom (s : Nat) : Nat → Nat
  | 0 => 0
  | i + 1 => if getAt s i ≠ 0 then i + 1 else lengthFrom s i

def length (s : Nat) : Nat := lengthFrom s kCapacity

def truncate (s e : Nat) : Nat :=
  if e < kCapacity then
    let lsb := getBitLengthTotalAtPosition e
    bitFieldClear s lsb (getBitLengthTotalAtPosition kCapacity - lsb)
  else s

/-! ### Characters -/

/-- The words that hold only the characters. -/
def Fits (s : Nat) : Prop := s < 2 ^ getBitLengthTotalAtPosition kCapacity

section

variable {s i j v e : Nat}

theorem fits_iff : Fits s ↔ s < 134217728 := Iff.rfl

section

attribute [local simp] getAt setAt truncate maximumValue bitFieldInsert bitFieldClear bitFieldExtract
  getBitLengthTotalAtPosition bitSize kBitSizeAtPosition kCapacity

theorem getAt_0 (s : Nat) : getAt s 0 = s % 4096 := by simp
theorem getAt_1 (s : Nat) : getAt s 1 = s / 4096 % 16 := by simp
theorem getAt_2 (s : Nat) : getAt s 2 = s / 65536 % 2048 := by simp

theorem setAt_0 (s v : Nat) : setAt s 0 v = s - s % 4096 + v := by simp
theorem setAt_1 (s v : Nat) : setAt s 1 v = s - s / 4096 % 16 * 4096 + v * 4096 := by simp
theorem setAt_2 (s v : Nat) : setAt s 2 v = s - s / 65536 % 2048 * 65536 + v * 65536 := by simp

theorem truncate_0 (s : Nat) : truncate s 0 = s - s % 134217728 := by simp
theorem truncate_1 (s : Nat) : truncate s 1 = s - s / 4096 % 32768 * 4096 := by simp
theorem truncate_2 (s : Nat) : truncate s 2 = s - s / 65536 % 2048 * 65536 := by simp

theorem maximumValue_0 : maximumValue 0 = 4095 := by simp
theorem maximumValue_1 : maximumValue 1 = 15 := by simp
theorem maximumValue_2 : maximumValue 2 = 2047 := by simp

end

theorem getAt_of_le (s : Nat) (h : kCapacity ≤ i) : getAt s i = 0 := by
  have : bitSize i = 0 := by rw [bitSize, List.getD_eq_getElem?_getD, List.getElem?_eq_none h, Option.getD_none]
  rw [getAt, bitFieldExtract, this, pow_zero, Nat.mod_one]

theorem lt_kCapacity_of_getAt_ne (h : getAt s i ≠ 0) : i < kCapacity :=
  Nat.lt_of_not_le fun hle => h (getAt_of_le s hle)

@[simp] theorem getAt_zero_left (i : Nat) : getAt 0 i = 0 := by
  simp only [getAt, bitFieldExtract, Nat.zero_div, Nat.zero_mod]

theorem getAt_le (s i : Nat) : getAt s i ≤ maximumValue i := by
  rw [getAt, bitFieldExtract, maximumValue]
  exact Nat.le_sub_one_of_lt (Nat.mod_lt _ (Nat.two_pow_pos _))

theorem setAt_fits (hs : Fits s) (hi : i < kCapacity) (hv : v ≤ maximumValue i) : Fits (setAt s i v) := by
  replace hi : i < 3 := hi
  rw [fits_iff] at *
  interval_cases i <;> simp only [maximumValue_0, maximumValue_1, maximumValue_2] at hv <;>
    simp only [setAt_0, setAt_1, setAt_2] <;> omega

theorem getAt_setAt_self (s : Nat) (hi : i < kCapacity) (hv : v ≤ maximumValue i) : getAt (setAt s i v) i = v := by
  replace hi : i < 3 := hi
  interval_cases i <;> simp only [maximumValue_0, maximumValue_1, maximumValue_2] at hv <;>
    simp only [setAt_0, setAt_1, setAt_2, getAt_0, getAt_1, getAt_2] <;> omega

theorem getAt_setAt_ne (hs : Fits s) (hi : i < kCapacity) (hv : v ≤ maximumValue i) (hij : j ≠ i) :
    getAt (setAt s i v) j = getAt s j := by
  replace hi : i < 3 := hi
  rcases Nat.lt_or_ge j 3 with hj | hj
  · rw [fits_iff] at hs
    interval_cases i <;> simp only [maximumValue_0, maximumValue_1, maximumValue_2] at hv <;>
      interval_cases j <;> first
        | exact absurd rfl hij
        | simp only [setAt_0, setAt_1, setAt_2, getAt_0, getAt_1, getAt_2]; omega
  · rw [getAt_of_le _ hj, getAt_of_le _ hj]

theorem truncate_fits (hs : Fits s) (e : Nat) : Fits (truncate s e) := by
  unfold truncate
  split
  · exact lt_of_le_of_lt (Nat.sub_le ..) hs
  · exact hs

theorem getAt_truncate (hs : Fits s) (e i : Nat) : getAt (truncate s e) i = if i < e then getAt s i else 0 := by
  rcases Nat.lt_or_ge i 3 with hi | hi
  · rcases Nat.lt_or_ge e 3 with he | he
    · rw [fits_iff] at hs
      interval_cases e <;> interval_cases i <;>
        simp only [truncate_0, truncate_1, truncate_2, getAt_0, getAt_1, getAt_2, Nat.reduceLT, reduceIte] <;> omega
    · have hcap : ¬e < kCapacity := Nat.not_lt.mpr he
      rw [truncate, if_neg hcap, if_pos (lt_of_lt_of_le hi he)]
  · rw [getAt_of_le _ hi, getAt_of_le _ hi, ite_self]

/-- Equal under the mask of the first `e` characters means equal in these characters. -/
theorem mask_eq_iff {x y : Nat} (hx : Fits x) (hy : Fits y) (he : e ≤ kCapacity) (hye : ∀ i, e ≤ i → getAt y i = 0) :
    x &&& (2 ^ getBitLengthTotalAtPosition e - 1) = y ↔ ∀ i < e, getAt x i = getAt y i := by
  rw [Nat.and_two_pow_sub_one_eq_mod]
  have h0 := hye 0
  have h1 := hye 1
  have h2 := hye 2
  replace he : e ≤ 3 := he
  have hmod : x % 2 ^ getBitLengthTotalAtPosition e = y ↔
      (0 < e → getAt x 0 = getAt y 0) ∧ (1 < e → getAt x 1 = getAt y 1) ∧ (2 < e → getAt x 2 = getAt y 2) := by
    rw [fits_iff] at hx hy
    rw [getAt_0] at h0
    rw [getAt_1] at h1
    rw [getAt_2] at h2
    rw [getAt_0, getAt_0, getAt_1, getAt_1, getAt_2, getAt_2]
    interval_cases e
    · change x % 1 = y ↔ _
      omega
    · change x % 4096 = y ↔ _
      omega
    · change x % 65536 = y ↔ _
      omega
    · change x % 134217728 = y ↔ _
      omega
  rw [hmod]
  constructor
  · rintro ⟨g0, g1, g2⟩ i hi
    obtain rfl | rfl | rfl : i = 0 ∨ i = 1 ∨ i = 2 := by omega
    · exact g0 hi
    · exact g1 hi
    · exact g2 hi
  · exact fun h => ⟨h 0, h 1, h 2⟩

theorem eq_zero_iff (hs : Fits s) : s = 0 ↔ ∀ i, getAt s i = 0 := by
  constructor
  · rintro rfl i
    exact getAt_zero_left i
  · intro h
    have h0 := h 0
    have h1 := h 1
    have h2 := h 2
    rw [getAt_0] at h0
    rw [getAt_1] at h1
    rw [getAt_2] at h2
    rw [fits_iff] at hs
    omega

end

theorem lengthFrom_le (s : Nat) : ∀ n, lengthFrom s n ≤ n
  | 0 => le_rfl
  | n + 1 => by
    unfold lengthFrom
    split
    · exact le_rfl
    · exact (lengthFrom_le s n).trans n.le_succ

theorem lengthFrom_eq {s e n : Nat} (hen : e ≤ n) (hs : ∀ i, e ≤ i → getAt s i = 0) :
    lengthFrom s n = lengthFrom s e := by
  induction n, hen using Nat.le_induction with
  | base => rfl
  | succ n hen ih => rw [lengthFrom, if_neg (not_not.mpr (hs n hen)), ih]

/-- A truncated string has the full length when its last character is set. -/
theorem length_truncate_eq_iff {s e : Nat} (hs : Fits s) (he : e ≤ kCapacity) :
    length (truncate s e) = e ↔ ∀ i, i + 1 = e → getAt s i ≠ 0 := by
  have hzero : ∀ i, e ≤ i → getAt (truncate s e) i = 0 := fun i hi => by
    rw [getAt_truncate hs, if_neg (Nat.not_lt.mpr hi)]
  rw [length, lengthFrom_eq he hzero]
  cases e with
  | zero => exact iff_of_true rfl fun i hi => by cases hi
  | succ e =>
    have hlast : getAt (truncate s (e + 1)) e = getAt s e := by
      rw [getAt_truncate hs, if_pos e.lt_succ_self]
    rw [lengthFrom, hlast]
    constructor
    · intro h i hi hi0
      obtain rfl : i = e := by omega
      rw [if_neg (not_not.mpr hi0)] at h
      have := lengthFrom_le (truncate s (i + 1)) i
      omega
    · intro h
      rw [if_pos (h e rfl)]

end Art.BitString
