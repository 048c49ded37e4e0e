import Art.Theorems.BoundsCheck

/-! # The algebra of value ranges

`ValueRange::Add` gives up when its lower bound underflows or its upper bound overflows, and does not ask
for the other two: a lower bound that overflows becomes `ValueBound::Max()`, an upper bound that underflows
`ValueBound::Min()`. Everything else keeps the values of a range. -/

namespace Art.Bce
open Lib

variable {ρ : Nat → Int} {b : ValueBound} {R : ValueRange} {v c : Int}

namespace ValueBound

/-- The constant is an `int32_t`, and so is the value of the instruction, which is no negative number when
    it is the length of an array. -/
structure Valid (ρ : Nat → Int) (b : ValueBound) : Prop where
  constant : Int32 b.constant
  instruction : ∀ i, b.instruction = some i → Int32 (i.eval ρ)
  length : ∀ i, b.instruction = some i → b.isRelatedToArrayLength = true → 0 ≤ i.eval ρ

/-- `b + c` cannot exceed `INT_MAX`, as far as `ValueBound::Add` can tell. -/
def FitsAbove (b : ValueBound) (c : Int) : Prop :=
  c ≤ 0 ∨ b.constant + c ≤ int32Max ∧
    (b.isConstant = true ∨ b.isRelatedToArrayLength = true ∧ b.constant + c ≤ 0)

/-- `b + c` cannot fall below `INT_MIN`, as far as `ValueBound::Add` can tell. -/
def FitsBelow (b : ValueBound) (c : Int) : Prop :=
  0 ≤ c ∨ int32Min ≤ b.constant + c ∧ (b.isConstant = true ∨ b.isRelatedToArrayLength = true)

theorem add_of_fits (ha : b.FitsAbove c) (hb : b.FitsBelow c) :
    (b.add c).overflow = false ∧ (b.add c).underflow = false ∧ (b.add c).bound.eval ρ = b.eval ρ + c := by
  have hmake : (make b.instruction (b.constant + c)).eval ρ = b.eval ρ + c := by
    obtain ⟨_ | i, k⟩ := b
    · simp
    · rw [eval_make_some, eval, add_assoc]
  unfold add
  rcases lt_trichotomy c 0 with hc | rfl | hc
  · obtain ⟨hmin, hform⟩ := hb.resolve_left (by omega)
    rw [if_neg hc.ne, if_neg (by omega), if_neg (by omega), if_pos (by simpa using hform)]
    exact ⟨rfl, rfl, hmake⟩
  · simp
  · obtain ⟨hmax, hform⟩ := ha.resolve_left (by omega)
    rw [if_neg hc.ne', if_pos hc, if_neg (by omega), if_pos (by simpa using hform)]
    exact ⟨rfl, rfl, hmake⟩

theorem add_of_not_fitsAbove (h : ¬b.FitsAbove c) : b.add c = ⟨max, true, false⟩ := by
  simp only [FitsAbove, not_or, not_and, not_le] at h
  obtain ⟨hc, h⟩ := h
  unfold add
  rw [if_neg hc.ne', if_pos hc]
  split_ifs with hmax hform
  · rfl
  · rw [Bool.or_eq_true, Bool.and_eq_true, decide_eq_true_eq] at hform
    have := h (by omega)
    rcases hform with hform | ⟨hrel, hle⟩
    · exact absurd hform this.1
    · exact absurd hle (by simpa using this.2 hrel)
  · rfl

theorem add_of_not_fitsBelow (h : ¬b.FitsBelow c) : b.add c = ⟨min, false, true⟩ := by
  simp only [FitsBelow, not_or, not_and, not_le] at h
  obtain ⟨hc, h⟩ := h
  unfold add
  rw [if_neg hc.ne, if_neg (by omega)]
  split_ifs with hmin hform
  · rfl
  · have := h (by omega)
    simp_all
  · rfl

theorem Valid.min_le (h : b.Valid ρ) (hb : b.FitsBelow c) (hc : c < 0) : int32Min ≤ b.eval ρ + c := by
  obtain ⟨hmin, hform⟩ := hb.resolve_left (by omega)
  rcases hform with hconst | hrel
  · rwa [eval_of_isConstant hconst]
  obtain ⟨_ | i, k⟩ := b
  · cases hrel
  · have := h.length i rfl hrel
    simp only [eval] at hmin ⊢
    omega

theorem Valid.le_max (h : b.Valid ρ) (ha : b.FitsAbove c) (hc : 0 < c) : b.eval ρ + c ≤ int32Max := by
  obtain ⟨hmax, hform⟩ := ha.resolve_left (by omega)
  rcases hform with hconst | ⟨hrel, hle⟩
  · rwa [eval_of_isConstant hconst]
  obtain ⟨_ | i, k⟩ := b
  · cases hrel
  · have : i.eval ρ ≤ int32Max := (h.instruction i rfl).2
    simp only [eval] at hle ⊢
    omega

end ValueBound

namespace ValueRange

theorem add_eq_some {R' : ValueRange} (h : R.add c = some R') :
    R.lower.FitsBelow c ∧ R.upper.FitsAbove c ∧ R'.lower = (R.lower.add c).bound ∧
      R'.upper = (R.upper.add c).bound := by
  unfold add at h
  simp only at h
  split_ifs at h with hu ho
  cases h
  refine ⟨?_, ?_, rfl, rfl⟩
  · by_contra hb
    exact hu (by rw [ValueBound.add_of_not_fitsBelow hb])
  · by_contra ha
    exact ho (by rw [ValueBound.add_of_not_fitsAbove ha])

/-- Adding a constant: a range that comes out is right for `v` unless the lower bound overflowed or the
    upper one underflowed. -/
theorem add_contains_iff {R' : ValueRange} (hl : R.lower.Valid ρ) (hu : R.upper.Valid ρ) (hv : Int32 v)
    (hR : R.Contains ρ v) (h : R.add c = some R') :
    R'.Contains ρ (wrap 31 (v + c)) ↔
      (R.lower.FitsAbove c ∨ v + c = int32Max) ∧ (R.upper.FitsBelow c ∨ v + c = int32Min) := by
  obtain ⟨hbelow, habove, hlower, hupper⟩ := add_eq_some h
  obtain ⟨hlo, hhi⟩ := hR
  -- Neither end of the range wraps, so neither does the value between them.
  have h32 : Int32 (v + c) := by
    obtain ⟨hv0, hv1⟩ := hv
    refine ⟨?_, ?_⟩
    · rcases lt_or_ge c 0 with hc | hc
      · exact (hl.min_le hbelow hc).trans (by omega)
      · omega
    · rcases lt_or_ge 0 c with hc | hc
      · exact le_trans (by omega) (hu.le_max habove hc)
      · omega
  rw [wrap_of_signed h32, Contains, hlower, hupper]
  refine and_congr ?_ ?_
  · by_cases hfits : R.lower.FitsAbove c
    · rw [(ValueBound.add_of_fits hfits hbelow).2.2]
      exact iff_of_true (by omega) (.inl hfits)
    · rw [ValueBound.add_of_not_fitsAbove hfits, ValueBound.max, ValueBound.make_none, ValueBound.eval_none]
      exact ⟨fun h => .inr (le_antisymm h32.2 h), fun h => (h.resolve_left hfits).ge⟩
  · by_cases hfits : R.upper.FitsBelow c
    · rw [(ValueBound.add_of_fits habove hfits).2.2]
      exact iff_of_true (by omega) (.inl hfits)
    · rw [ValueBound.add_of_not_fitsBelow hfits, ValueBound.min, ValueBound.make_none, ValueBound.eval_none]
      exact ⟨fun h => .inr (le_antisymm h h32.1), fun h => (h.resolve_left hfits).le⟩

theorem narrow_contains {R₂ : ValueRange} (hR : R.Contains ρ v) (h : R₂.Contains ρ v) : (R.narrow R₂).Contains ρ v := by
  unfold narrow
  split_ifs
  · exact hR
  · refine ⟨ValueBound.narrowLowerBound_le_iff.mpr ?_, ValueBound.le_narrowUpperBound_iff.mpr ?_⟩
    · simp [hR.1, h.1]
    · simp [hR.2, h.2]

theorem contains_of_fitsIn {R₂ : ValueRange} (hR : R.Contains ρ v) (h : R.fitsIn R₂ = true) : R₂.Contains ρ v := by
  unfold fitsIn at h
  split_ifs at h
  rw [Bool.and_eq_true] at h
  exact ⟨(ValueBound.le_of_greaterThanOrEqualTo h.1).trans hR.1, hR.2.trans (ValueBound.le_of_lessThanOrEqualTo h.2)⟩

end ValueRange

/-! ### Monotonic ranges -/

namespace MonotonicValueRange

variable {m : MonotonicValueRange}

/-- `Narrow` finds that the sequence is stopped by `range` before it overflows. -/
def Stops (m : MonotonicValueRange) (range : ValueRange) : Prop :=
  if m.increment > 0 then
    (m.bound.narrowLowerBound range.lower).isConstant ∧ (m.bound.narrowLowerBound range.lower).constant ≠ int32Min ∧
      m.lastNumInSequence (maxPossibleValue range.upper) ≤ int32Max - m.increment
  else
    ((m.bound.narrowUpperBound range.upper).isConstant ∧ (m.bound.narrowUpperBound range.upper).constant ≠ int32Max ∨
      (m.bound.narrowUpperBound range.upper).isRelatedToArrayLength) ∧
    range.lower.isConstant ∧ range.lower.constant ≥ int32Min - m.increment

/-- The value has not passed the end that its sequence started from, where `Narrow` keeps this end. -/
def Respects (ρ : Nat → Int) (m : MonotonicValueRange) (range : ValueRange) (v : Int) : Prop :=
  if m.increment > 0 then
    ValueBound.equal m.bound.instruction range.lower.instruction ∨ m.bound.isConstant → m.bound.eval ρ ≤ v
  else ValueBound.equal m.bound.instruction range.upper.instruction ∨ m.bound.isRelatedToArrayLength →
    v ≤ m.bound.eval ρ

theorem narrow_of_stops (h : m.Stops R) : m.narrow R =
    if m.increment > 0 then ⟨m.bound.narrowLowerBound R.lower, R.upper, false⟩
    else ⟨R.lower, m.bound.narrowUpperBound R.upper, false⟩ := by
  unfold Stops at h
  unfold narrow
  dsimp only
  split_ifs at h ⊢ <;> first | rfl | tauto

theorem narrow_of_not_stops (h : ¬m.Stops R) : m.narrow R = ⟨.min, .max, true⟩ := by
  unfold Stops at h
  unfold narrow
  dsimp only
  split_ifs at h ⊢ <;> first | rfl | tauto

/-- Where the lower end of `R` is constant or below `v`, and its upper end above. -/
theorem narrow_contains_iff (hv : Int32 v) (hlower : R.lower.isConstant = true ∨ R.lower.eval ρ ≤ v)
    (hupper : v ≤ R.upper.eval ρ) :
    (m.narrow R).Contains ρ v ↔ (m.Stops R → R.lower.eval ρ ≤ v ∧ m.Respects ρ R v) := by
  by_cases hstops : m.Stops R
  · rw [narrow_of_stops hstops, Respects]
    simp only [hstops, forall_const]
    split_ifs with hinc
    · rw [ValueRange.Contains, and_iff_left hupper, ValueBound.narrowLowerBound_le_iff]
      split_ifs with heq hconst
      · simp [heq, and_comm]
      · -- two constants could be compared
        have hne : ¬R.lower.isConstant = true := fun h => heq <| by
          rw [Option.isNone_iff_eq_none.mp hconst, ValueBound.equal_none]
          exact h
        simp [hconst, hlower.resolve_left hne]
      · simp [heq, hconst]
    · rw [ValueRange.Contains, ValueBound.le_narrowUpperBound_iff]
      refine and_congr_right fun _ => ?_
      split_ifs with heq hrelated
      · simp [heq, hupper]
      · simp [hrelated]
      · simp [heq, hrelated, hupper]
  · rw [narrow_of_not_stops hstops]
    exact iff_of_true hv fun h => absurd h hstops

end MonotonicValueRange

namespace ValueRange

/-- The operations on ranges keep the values of a range: `FitsIn` always, `Narrow` of a plain range always and of a
    monotonic one as long as the value respects the start of the sequence, `Add` exactly when neither the lower bound
    leaves the `int32_t` values upwards nor the upper one downwards. -/
theorem operations_contain_iff (hl : R.lower.Valid ρ) (hu : R.upper.Valid ρ) (hv : Int32 v) (hR : R.Contains ρ v) :
    (∀ c R', Int32 c → R.add c = some R' →
      (R'.Contains ρ (wrap 31 (v + c)) ↔
        (R.lower.FitsAbove c ∨ v + c = int32Max) ∧ (R.upper.FitsBelow c ∨ v + c = int32Min))) ∧
    (∀ R₂ : ValueRange, R₂.Contains ρ v → (R.monotonic = false → (R.narrow R₂).Contains ρ v) ∧
      (R.monotonic = true → ∀ m : MonotonicValueRange,
        ((m.narrow R₂).Contains ρ v ↔ (m.Stops R₂ → m.Respects ρ R₂ v)))) ∧
    (∀ R₂ : ValueRange, R.fitsIn R₂ = true → R₂.Contains ρ v) := by
  refine ⟨fun _ _ _ h => add_contains_iff hl hu hv hR h, fun R₂ h => ⟨fun _ => narrow_contains hR h, fun _ m => ?_⟩,
    fun _ h => contains_of_fitsIn hR h⟩
  rw [MonotonicValueRange.narrow_contains_iff hv (.inr h.1) h.2, and_iff_right h.1]

/-- The value 4 of the indexes from 0 to `array.length - 1`, moved down by one, for an array of length 5. -/
theorem operations_contain_iff_decrement :
    (ValueRange.mk ⟨none, -1⟩ ⟨some (.arrayLength 1 (.value 0)), -2⟩ false).Contains (fun _ => 5)
    (wrap 31 (4 + -1)) := by
  have hl : ValueBound.Valid (fun _ => 5) ⟨none, 0⟩ := ⟨by decide, nofun, nofun⟩
  have hu : ValueBound.Valid (fun _ => 5) ⟨some (.arrayLength 1 (.value 0)), -1⟩ :=
    ⟨by decide, fun i hi => Option.some.inj hi ▸ by decide, fun i hi _ => Option.some.inj hi ▸ by decide⟩
  have h := operations_contain_iff (R := ⟨⟨none, 0⟩, _, false⟩) (v := 4) hl hu (by decide) (by decide)
  exact (h.1 (-1) _ (by decide) (by decide)).mpr ⟨.inl (.inl (by decide)), .inl (.inr ⟨by decide, .inr rfl⟩)⟩

/-- The lower bound `array.length` plus one may overflow as far as `Add` can tell, so that the range
    `[array.length, 10]` becomes `[INT_MAX, 11]`, which has lost the 6 for an array of length 5. -/
theorem add_loses_successor :
    (ValueRange.mk ⟨some (.arrayLength 1 (.value 0)), 0⟩ ⟨none, 10⟩ false).Contains (fun _ => 5) 5 ∧
      (ValueRange.mk ⟨some (.arrayLength 1 (.value 0)), 0⟩ ⟨none, 10⟩ false).add 1 =
        some ⟨⟨none, int32Max⟩, ⟨none, 11⟩, false⟩ ∧
      ¬(ValueRange.mk ⟨none, int32Max⟩ ⟨none, 11⟩ false).Contains (fun _ => 5) (wrap 31 (5 + 1)) := by
  decide

end ValueRange

end Art.Bce
