import Art.Lib.Int32
import Mathlib.Data.List.Lex
import Mathlib.Data.Prod.Lex

/-! Binary searches by a three-way comparison of what is searched with the element at an index: with an inclusive
    window of signed 32-bit bounds, and with a half-open window of unsigned ones. A search that runs out of fuel has no
    result; where the comparisons descend through zero, it has one, the index of the zero if there is any. The search
    for the end of the elements with a property finds the first one without it. -/

namespace Art.Lib
open List

/-- `while (hi >= lo)` with `mid = (hi + lo) / 2`. -/
def searchInclusive (compare : Nat → Int) : Nat → Int → Int → Option (Option Nat)
  | 0, _, _ => none
  | fuel + 1, lo, hi =>
    if hi ≥ lo then
      let mid := (wrap 31 (hi + lo)).tdiv 2
      let result := compare mid.toNat
      if result > 0 then searchInclusive compare fuel (mid + 1) hi
      else if result < 0 then searchInclusive compare fuel lo (mid - 1)
      else some (some mid.toNat)
    else some none

/-- `while (min < max)` with `mid = (min + max) / 2`. -/
def searchHalfOpen (compare : Nat → Int) : Nat → Nat → Nat → Option (Option Nat)
  | 0, _, _ => none
  | fuel + 1, min, max =>
    if min < max then
      let mid := (min + max) % 2 ^ 32 / 2
      let result := compare mid
      if result < 0 then searchHalfOpen compare fuel min mid
      else if result > 0 then searchHalfOpen compare fuel (mid + 1) max
      else some (some mid)
    else some none

/-- The comparisons with the first `n` elements are positive, then zero at most once, then negative. -/
def Descending (compare : Nat → Int) (n : Nat) : Prop := ∀ i j, i < j → j < n → 0 ≤ compare j → 0 < compare i

/-- The element that compares equal, if there is one. -/
def IsFound (compare : Nat → Int) (n : Nat) (r : Option Nat) : Prop := ∀ i, r = some i ↔ i < n ∧ compare i = 0

/-- A number with the sign of `x - y`. -/
structure Compares {κ : Type} [LinearOrder κ] (result : Int) (x y : κ) : Prop where
  zero : result = 0 ↔ x = y
  pos : 0 < result ↔ y < x

section Keys

variable {κ μ : Type} [LinearOrder κ] [LinearOrder μ]

variable {x y : κ}

theorem Compares.neg {result : Int} (h : Compares result x y) : result < 0 ↔ x < y := by
  rw [← not_iff_not, not_lt, not_lt, le_iff_lt_or_eq, le_iff_lt_or_eq, h.pos, eq_comm, h.zero, eq_comm]

theorem compares_refl (x : κ) : Compares 0 x x := ⟨by simp, by simp⟩

theorem compares_of_lt {result : Int} (hlt : x < y) (h : result < 0) : Compares result x y :=
  ⟨iff_of_false h.ne hlt.ne, iff_of_false h.not_gt hlt.not_gt⟩

theorem compares_of_gt {result : Int} (hlt : y < x) (h : 0 < result) : Compares result x y :=
  ⟨iff_of_false h.ne' hlt.ne', iff_of_true h hlt⟩

theorem compares_sub (x y : Nat) : Compares ((x : Int) - y) x y := ⟨by omega, by omega⟩

theorem Compares.toLex {a b : Int} {x₁ y₁ : κ} {x₂ y₂ : μ} (ha : Compares a x₁ y₁) (hb : Compares b x₂ y₂) :
    Compares (if a = 0 then b else a) (toLex (x₁, x₂)) (toLex (y₁, y₂)) := by
  by_cases h : a = 0
  · obtain rfl := ha.zero.mp h
    rw [if_pos h]
    exact ⟨by simp [hb.zero], by simp [Prod.Lex.toLex_lt_toLex, hb.pos]⟩
  · rw [if_neg h]
    have hne : x₁ ≠ y₁ := fun hx => h (ha.zero.mpr hx)
    exact ⟨by simp [h, hne], by simp [Prod.Lex.toLex_lt_toLex, ha.pos, hne.symm]⟩

theorem Compares.cons {a b : Int} {xs ys : List κ} (ha : Compares a x y) (hb : Compares b xs ys) :
    Compares (if a = 0 then b else a) (x :: xs) (y :: ys) := by
  by_cases h : a = 0
  · obtain rfl := ha.zero.mp h
    rw [if_pos h]
    exact ⟨by simp [hb.zero], by simp [hb.pos]⟩
  · rw [if_neg h]
    have hne : x ≠ y := fun hx => h (ha.zero.mpr hx)
    exact ⟨by simp [h, hne], by simp [cons_lt_cons_iff, ha.pos, hne.symm]⟩

theorem ascending_of_step {key : Nat → κ} {n : Nat} (hstep : ∀ i, i + 1 < n → key i < key (i + 1)) (i j : Nat)
    (hij : i < j) (hj : j < n) : key i < key j := by
  induction j with
  | zero => omega
  | succ j ih =>
    rcases Nat.lt_succ_iff_lt_or_eq.mp hij with hlt | rfl
    · exact (ih hlt (by omega)).trans (hstep j hj)
    · exact hstep i hj

end Keys

section

variable {compare : Nat → Int} {n : Nat}

theorem descending_of_key {κ : Type} [LinearOrder κ] {key : Nat → κ} {x : κ}
    (hkey : ∀ i j, i < j → j < n → key i < key j) (hcompare : ∀ i < n, Compares (compare i) x (key i)) :
    Descending compare n := by
  intro i j hij hj hle
  have hjx : key j ≤ x := not_lt.mp fun hlt => hle.not_gt ((hcompare j hj).neg.mpr hlt)
  exact (hcompare i (hij.trans hj)).pos.mpr ((hkey i j hij hj).trans_le hjx)

theorem isFound_some (hdesc : Descending compare n) {m : Nat} (hm : m < n) (hzero : compare m = 0) :
    IsFound compare n (some m) := by
  intro i
  rw [Option.some.injEq]
  constructor
  · rintro rfl
    exact ⟨hm, hzero⟩
  · rintro ⟨hi, h⟩
    rcases Nat.lt_trichotomy m i with hlt | heq | hlt
    · have := hdesc m i hlt hi h.ge
      omega
    · exact heq
    · have := hdesc i m hlt hm hzero.ge
      omega

theorem isFound_none (h : ∀ i < n, compare i ≠ 0) : IsFound compare n none := by
  intro i
  constructor
  · intro hi
    cases hi
  · rintro ⟨hi, hzero⟩
    exact absurd hzero (h i hi)

/-- The middle of a window within the array: the sum of the bounds does not overflow. -/
theorem mid_eq {lo hi : Int} (hn : n ≤ 2 ^ 30) (hlo : 0 ≤ lo) (hle : lo ≤ hi) (hhi : hi < n) :
    (wrap 31 (hi + lo)).tdiv 2 = (hi + lo) / 2 := by
  have hsigned : Signed 31 (hi + lo) := by
    unfold Signed minInt maxInt
    omega
  rw [wrap_of_signed hsigned]
  exact Int.tdiv_eq_ediv_of_nonneg (by omega)

/-- The window shrinks to one that still holds the zero, if there is one. -/
theorem searchInclusive_spec (hdesc : Descending compare n) (hn : n ≤ 2 ^ 30) (fuel : Nat) (lo hi : Int)
    (hlo : 0 ≤ lo) (hhi : hi < n) (hfuel : (hi - lo + 1).toNat < fuel)
    (hleft : ∀ i : Nat, (i : Int) < lo → 0 < compare i) (hright : ∀ i : Nat, hi < i → i < n → compare i < 0) :
    ∃ r, searchInclusive compare fuel lo hi = some r ∧ IsFound compare n r := by
  induction fuel generalizing lo hi with
  | zero => omega
  | succ fuel ih =>
    unfold searchInclusive
    by_cases hle : hi ≥ lo
    · rw [if_pos hle]
      dsimp only
      rw [mid_eq hn hlo hle hhi]
      obtain ⟨m, hm⟩ : ∃ m : Nat, (hi + lo) / 2 = m := ⟨((hi + lo) / 2).toNat, by omega⟩
      rw [hm, Int.toNat_natCast]
      have hmn : m < n := by omega
      by_cases hpos : compare m > 0
      · rw [if_pos hpos]
        refine ih _ _ (by omega) hhi (by omega) ?_ hright
        intro i hi'
        rcases Nat.lt_or_ge i m with hlt | hge
        · exact hdesc i m hlt hmn hpos.le
        · rwa [show i = m by omega]
      rw [if_neg hpos]
      by_cases hneg : compare m < 0
      · rw [if_pos hneg]
        refine ih _ _ hlo (by omega) (by omega) hleft ?_
        intro i hi' hin
        rcases Nat.lt_or_ge m i with hlt | hge
        · exact Int.not_le.mp fun h => hpos (hdesc m i hlt hin h)
        · rwa [show i = m by omega]
      · rw [if_neg hneg]
        exact ⟨some m, rfl, isFound_some hdesc hmn (by omega)⟩
    · rw [if_neg hle]
      refine ⟨none, rfl, isFound_none fun i hi' hzero => ?_⟩
      rcases Int.lt_or_le (i : Int) lo with hlt | hge
      · have := hleft i hlt
        omega
      · have := hright i (by omega) hi'
        omega

theorem searchInclusive_key {κ : Type} [LinearOrder κ] {key : Nat → κ} {x : κ} (hn : n ≤ 2 ^ 30)
    (hstep : ∀ i, i + 1 < n → key i < key (i + 1)) (hcompare : ∀ i < n, Compares (compare i) x (key i)) :
    ∃ r, searchInclusive compare (n + 1) 0 (n - 1) = some r ∧ ∀ i, r = some i ↔ i < n ∧ key i = x := by
  have hdesc := descending_of_key (ascending_of_step hstep) hcompare
  obtain ⟨r, hr, hfound⟩ := searchInclusive_spec hdesc hn (n + 1) 0 (n - 1) (Int.le_refl 0) (by omega) (by omega)
    (by omega) (by omega)
  refine ⟨r, hr, fun i => (hfound i).trans (and_congr_right fun hi => ?_)⟩
  rw [(hcompare i hi).zero, eq_comm]

/-- The search from `min` to `max` is right when the target cannot be outside of them. -/
theorem searchHalfOpen_spec (hdesc : Descending compare n) (hn : n ≤ 2 ^ 31) (fuel min max : Nat) (hmax : max ≤ n)
    (hfuel : max - min < fuel) (hleft : ∀ i < min, 0 < compare i) (hright : ∀ i, max ≤ i → i < n → compare i < 0) :
    ∃ r, searchHalfOpen compare fuel min max = some r ∧ IsFound compare n r := by
  induction fuel generalizing min max with
  | zero => omega
  | succ fuel ih =>
    unfold searchHalfOpen
    by_cases hlt : min < max
    · rw [if_pos hlt]
      rw [Nat.mod_eq_of_lt (show min + max < 2 ^ 32 by omega)]
      obtain ⟨m, hm⟩ : ∃ m : Nat, (min + max) / 2 = m := ⟨_, rfl⟩
      rw [hm]
      have hmn : m < n := by omega
      by_cases hneg : compare m < 0
      · rw [if_pos hneg]
        refine ih _ _ (by omega) (by omega) hleft ?_
        intro i hi hin
        rcases Nat.lt_or_ge m i with hlt | hge
        · exact Int.not_le.mp fun h => (hdesc m i hlt hin h).not_gt hneg
        · rwa [show i = m by omega]
      rw [if_neg hneg]
      by_cases hpos : compare m > 0
      · rw [if_pos hpos]
        refine ih _ _ hmax (by omega) ?_ hright
        intro i hi
        rcases Nat.lt_or_ge i m with hlt | hge
        · exact hdesc i m hlt hmn hpos.le
        · rwa [show i = m by omega]
      · rw [if_neg hpos]
        exact ⟨some m, rfl, isFound_some hdesc hmn (by omega)⟩
    · rw [if_neg hlt]
      refine ⟨none, rfl, isFound_none fun i hi hzero => ?_⟩
      rcases Nat.lt_or_ge i min with hlt | hge
      · have := hleft i hlt
        omega
      · have := hright i (by omega) hi
        omega

end

section Partition

variable {α : Type} (pred : α → Bool)

/-- The loop of `std::partition_point` over `len` elements from `first` on. -/
def partitionFrom (l : List α) (first len : Nat) : Nat :=
  if len = 0 then first
  else if l[first + len / 2]?.any pred then partitionFrom l (first + len / 2 + 1) (len - (len / 2 + 1))
  else partitionFrom l first (len / 2)
termination_by len

def partitionPoint (l : List α) : Nat := partitionFrom pred l 0 l.length

variable {pred} {l : List α}

/-- The partition point is `k` when the predicate holds before `k` and not from `k` on. -/
theorem partitionFrom_eq {k first len : Nat} (hle : first ≤ k) (hlen : first + len ≤ l.length) (hk : k ≤ first + len)
    (htrue : ∀ i < k, l[i]?.any pred = true) (hfalse : ∀ i, k ≤ i → l[i]?.any pred = false) :
    partitionFrom pred l first len = k := by
  fun_induction partitionFrom pred l first len with
  | case1 => omega
  | case2 first len hne hpred ih =>
    have hlt : first + len / 2 < k := by
      by_contra hge
      rw [hfalse _ (by omega)] at hpred
      exact Bool.false_ne_true hpred
    exact ih (by omega) (by omega) (by omega)
  | case3 first len hne hpred ih =>
    have hge : k ≤ first + len / 2 := by
      by_contra hlt
      exact hpred (htrue _ (by omega))
    exact ih hle (by omega) hge

/-- In a list that begins with its elements with the property. -/
theorem getElem?_partitionPoint (h : l.Pairwise fun a b => pred b = true → pred a = true) :
    l[partitionPoint pred l]? = l.find? (!pred ·) := by
  obtain ⟨k, hk⟩ : ∃ k, k = l.findIdx (!pred ·) := ⟨_, rfl⟩
  have hkl : k ≤ l.length := hk ▸ findIdx_le_length
  have htrue : ∀ i < k, l[i]?.any pred = true := by
    intro i hi
    have hnot := not_of_lt_findIdx (hk ▸ hi)
    rw [getElem?_eq_getElem (by omega)]
    simpa using hnot
  have hfalse : ∀ i, k ≤ i → l[i]?.any pred = false := by
    intro i hi
    by_contra hpred
    have hil : i < l.length := by
      by_contra hge
      rw [getElem?_eq_none (by omega)] at hpred
      exact hpred rfl
    have hkl : k < l.length := by omega
    have hkfalse : pred l[k] = false := by
      have := @findIdx_getElem _ (!pred ·) l (hk ▸ hkl)
      simpa [← hk] using this
    rw [getElem?_eq_getElem hil] at hpred
    have hpred : pred l[i] = true := by simpa using hpred
    obtain rfl | hlt := Nat.eq_or_lt_of_le hi
    · exact Bool.false_ne_true (hkfalse.symm.trans hpred)
    · exact Bool.false_ne_true (hkfalse.symm.trans (pairwise_iff_getElem.mp h k i hkl hil hlt hpred))
  have hpoint : partitionPoint pred l = k := partitionFrom_eq (Nat.zero_le k) (by omega) (by omega) htrue hfalse
  rw [hpoint, hk]
  exact (find?_eq_getElem?_findIdx ..).symm

end Partition

end Art.Lib
