import Art.Runtime.SubtypeCheck

/-! # Bit strings agree with the class hierarchy

The invariants of `SubtypeCheckInfo` along every sequence of calls, and from them the subtype check. -/

namespace Art.SubtypeCheck
open BitString Relation Function

/-! ### States and children of one class -/

namespace SubtypeCheckInfo

variable {i : SubtypeCheckInfo}

theorem getState_eq_uninitialized_iff : i.getState = .uninitialized ↔ i.bits = ⟨0, false⟩ := by
  obtain ⟨depth, bitstring, overflow⟩ := i
  unfold getState
  split_ifs with h1 h2 h3 <;> simp_all

theorem getState_eq_overflowed_iff : i.getState = .overflowed ↔ i.bits.overflow = true := by
  unfold getState
  split_ifs with h1 h2 h3 <;> simp_all

variable (hs : Fits i.bits.bitstring)

include hs

theorem length_getPathToRoot_iff : length i.getPathToRoot = i.depth ↔
      i.depth ≤ kCapacity ∧ ∀ j, j + 1 = i.depth → getAt i.bits.bitstring j ≠ 0 := by
  unfold getPathToRoot getSafeDepth
  rcases Nat.lt_or_ge kCapacity i.depth with hlt | hle
  · rw [Nat.min_eq_right hlt.le]
    have hlen : length (truncate i.bits.bitstring kCapacity) ≤ kCapacity := lengthFrom_le _ _
    exact iff_of_false (by omega) fun h => by omega
  · rw [Nat.min_eq_left hle, length_truncate_eq_iff hs hle]
    exact ⟨fun h => ⟨hle, h⟩, fun h => h.2⟩

theorem getState_eq_assigned_iff :
    i.getState = .assigned ↔ i.bits.overflow = false ∧ i.bits.bitstring ≠ 0 ∧ i.depth ≤ kCapacity ∧
      ∀ j, j + 1 = i.depth → getAt i.bits.bitstring j ≠ 0 := by
  rw [← length_getPathToRoot_iff hs]
  unfold getState
  split_ifs with h1 h2 h3 <;> simp_all

theorem getAt_getPathToRoot (j : Nat) :
    getAt i.getPathToRoot j = if j < i.depth then getAt i.bits.bitstring j else 0 := by
  rw [getPathToRoot, getAt_truncate hs, getSafeDepth]
  rcases Nat.lt_or_ge j kCapacity with hj | hj
  · simp only [Nat.lt_min, hj, and_true]
  · rw [getAt_of_le _ hj, ite_self, ite_self]

omit hs

theorem one_le_maximumValue {j : Nat} (hj : j < kCapacity) : 1 ≤ maximumValue j := by
  replace hj : j < 3 := hj
  interval_cases j <;> decide

/-- A child before it is assigned: the path of its parent, a zero for itself, and `Next` at one. -/
def initialChild (i : SubtypeCheckInfo) : SubtypeCheckInfo :=
  overwriteNextValueFromParent i (maybeInitNext { i with depth := i.depth + 1 }) 0

include hs

/-- `Next` gets its first value, and the rest of the bits stay. -/
theorem maybeInitNext_spec : i.maybeInitNext.depth = i.depth ∧ i.maybeInitNext.bits.overflow = i.bits.overflow ∧
      Fits i.maybeInitNext.bits.bitstring ∧
      (∀ j ≠ i.depth, getAt i.maybeInitNext.bits.bitstring j = getAt i.bits.bitstring j) ∧
      (i.depth < kCapacity → getAt i.maybeInitNext.bits.bitstring i.depth = 1) := by
  by_cases hd : i.depth < kCapacity
  · have h0 : Fits (setAt i.bits.bitstring i.depth 0) := setAt_fits hs hd (Nat.zero_le _)
    have h1 := one_le_maximumValue hd
    simp only [maybeInitNext, hasNext, hd, decide_true, if_true, setNext, setChar, getNext,
      getAt_setAt_self _ hd (Nat.zero_le _), Nat.zero_add, true_and]
    refine ⟨setAt_fits h0 hd h1, fun j hj => ?_, fun _ => getAt_setAt_self _ hd h1⟩
    rw [getAt_setAt_ne h0 hd h1 hj, getAt_setAt_ne hs hd (Nat.zero_le _) hj]
  · simp [maybeInitNext, hasNext, hd, hs]

/-- A child starts with the path of its parent and no character of its own. -/
theorem initialChild_spec : i.initialChild.depth = i.depth + 1 ∧ i.initialChild.bits.overflow = i.bits.overflow ∧
      Fits i.initialChild.bits.bitstring ∧
      (∀ j < i.depth, getAt i.initialChild.bits.bitstring j = getAt i.bits.bitstring j) ∧
      getAt i.initialChild.bits.bitstring i.depth = 0 ∧
      (i.depth + 1 < kCapacity → getAt i.initialChild.bits.bitstring (i.depth + 1) = 1) := by
  obtain ⟨hdepth, hover, hfits, hother, hnext⟩ := @maybeInitNext_spec { i with depth := i.depth + 1 } hs
  unfold initialChild overwriteNextValueFromParent
  by_cases hd : i.depth < kCapacity
  · simp only [hasNext, hd, decide_true, if_true, setChar]
    refine ⟨hdepth, hover, setAt_fits hfits hd (Nat.zero_le _), fun j hj => ?_,
      getAt_setAt_self _ hd (Nat.zero_le _), fun hd' => ?_⟩
    · rw [getAt_setAt_ne hfits hd (Nat.zero_le _) (by omega)]
      exact hother j (by simp only; omega)
    · rw [getAt_setAt_ne hfits hd (Nat.zero_le _) (by omega)]
      exact hnext hd'
  · simp only [hasNext, hd, decide_false, Bool.false_eq_true, if_false]
    exact ⟨hdepth, hover, hfits, fun j hj => hother j (by simp only; omega), getAt_of_le _ (by omega),
      fun h => by omega⟩

omit hs

/-- The children that get a character of their own. -/
def Assigns (i : SubtypeCheckInfo) : Prop :=
  i.depth < kCapacity ∧ i.bits.overflow = false ∧ i.getNext ≠ maximumValue i.depth

theorem createChild_assigns (h : i.Assigns) :
    i.createChild true = (i.initialChild.setChar i.depth i.getNext, i.setNext (i.getNext + 1)) := by
  obtain ⟨hd, ho, hn⟩ := h
  simp [createChild, hasNext, hd, ho, hn, initialChild, overwriteNextValueFromParent]

theorem createChild_of_not_assigns {assign : Bool} (h : ¬(assign = true ∧ i.Assigns)) :
    i.createChild assign = (if assign then i.initialChild.markOverflowed else i.initialChild, i) := by
  cases assign with
  | false => simp [createChild, initialChild]
  | true =>
    simp only [Assigns, true_and, not_and, not_not] at h
    simp only [createChild, initialChild, if_true]
    split_ifs with h1 h2
    · simp only [hasNext, Bool.and_eq_true, decide_eq_true_eq, Bool.not_eq_true'] at h1
      exact absurd (h h1.1 h1.2) h2
    · rfl
    · rfl

end SubtypeCheckInfo

/-! ### The invariant -/

section

variable {C : Type} {T : ClassTree C} {st : Store C}

/-- The invariant of all classes. The last path character of a class is the one at the depth of its parent,
    in the same bits as the parent's `Next`. -/
structure Consistent (T : ClassTree C) (st : Store C) : Prop where
  fits : ∀ c, Fits (st c).bitstring
  root : ∀ c, T.parent c = none → (st c).overflow = false
  next : ∀ c, getState T st c = .assigned → T.depth c < kCapacity → 1 ≤ getAt (st c).bitstring (T.depth c)
  parent : ∀ c p, T.parent c = some p → getState T st c ≠ .uninitialized →
    getState T st p = .assigned ∨ getState T st p = .overflowed
  overflow : ∀ c p, T.parent c = some p → getState T st c ≠ .uninitialized →
    (st p).overflow = true → (st c).overflow = true
  path : ∀ c p, T.parent c = some p → getState T st c ≠ .uninitialized →
    ∀ i < T.depth p, getAt (st c).bitstring i = getAt (st p).bitstring i
  last : ∀ c p, T.parent c = some p → (st c).overflow = true → getAt (st c).bitstring (T.depth p) = 0
  below : ∀ c p, T.parent c = some p → getState T st c = .assigned →
    getAt (st c).bitstring (T.depth p) < getAt (st p).bitstring (T.depth p)
  siblings : ∀ c c' p, T.parent c = some p → T.parent c' = some p → getState T st c = .assigned →
    getState T st c' = .assigned →
    getAt (st c).bitstring (T.depth p) = getAt (st c').bitstring (T.depth p) → c = c'

/-- At first no class has bits. -/
theorem Consistent.empty : Consistent T (Store.empty : Store C) := by
  have hstate : ∀ c, getState T (Store.empty : Store C) c = .uninitialized := fun c =>
    SubtypeCheckInfo.getState_eq_uninitialized_iff.mpr rfl
  have hna : ∀ c, getState T (Store.empty : Store C) c ≠ .assigned := fun c h => by
    rw [hstate c] at h
    cases h
  exact {
    fits := fun c => Nat.two_pow_pos _
    root := fun c _ => rfl
    next := fun c h => absurd h (hna c)
    parent := fun c p _ h => absurd (hstate c) h
    overflow := fun c p _ h => absurd (hstate c) h
    path := fun c p _ h => absurd (hstate c) h
    last := fun c p _ h => by cases h
    below := fun c p _ h => absurd h (hna c)
    siblings := fun c c' p _ _ h => absurd h (hna c) }

theorem ClassTree.ne_of_parent (T : ClassTree C) {c p : C} (h : T.parent c = some p) : c ≠ p := by
  rintro rfl
  have := T.depth_child _ _ h
  omega

theorem assigned_ne_uninitialized {c : C} (h : getState T st c = .assigned) : getState T st c ≠ .uninitialized := by
  rw [h]
  exact State.noConfusion

theorem assigned_of_not_overflow {p : C}
    (hp : getState T st p = .assigned ∨ getState T st p = .overflowed) (ho : (st p).overflow = false) :
    getState T st p = .assigned :=
  hp.resolve_right fun h => by
    have : (st p).overflow = true := SubtypeCheckInfo.getState_eq_overflowed_iff.mp h
    rw [ho] at this
    cases this

/-- What a class and its parent may be changed to. -/
structure ChildUpdate (T : ClassTree C) (st : Store C) (klass p : C) (child parent : SubtypeCheckBits) : Prop where
  fits : Fits child.bitstring
  parentFits : Fits parent.bitstring
  parentState : SubtypeCheckInfo.getState ⟨T.depth p, parent⟩ = getState T st p
  parentOverflow : parent.overflow = (st p).overflow
  parentPath : ∀ j ≠ T.depth p, getAt parent.bitstring j = getAt (st p).bitstring j
  parentNext : getAt (st p).bitstring (T.depth p) ≤ getAt parent.bitstring (T.depth p)
  path : ∀ j < T.depth p, getAt child.bitstring j = getAt (st p).bitstring j
  overflow : (st p).overflow = true → child.overflow = true
  last : child.overflow = true → getAt child.bitstring (T.depth p) = 0
  assigned : SubtypeCheckInfo.getState ⟨T.depth klass, child⟩ = .assigned →
    (T.depth klass < kCapacity → 1 ≤ getAt child.bitstring (T.depth klass)) ∧
    getAt child.bitstring (T.depth p) = getAt (st p).bitstring (T.depth p) ∧
    getAt (st p).bitstring (T.depth p) < getAt parent.bitstring (T.depth p)

theorem getState_setNext {i : SubtypeCheckInfo} {v : Nat} (hs : Fits i.bits.bitstring) (hd : i.depth < kCapacity)
    (hv : v ≤ maximumValue i.depth) (hv0 : v ≠ 0) (hstate : i.getState = .assigned) :
    (i.setNext v).getState = .assigned := by
  obtain ⟨ho, -, hcap, hpath⟩ := (SubtypeCheckInfo.getState_eq_assigned_iff hs).mp hstate
  have hfits : Fits (i.setNext v).bits.bitstring := setAt_fits hs hd hv
  refine (SubtypeCheckInfo.getState_eq_assigned_iff hfits).mpr ⟨ho, fun h0 => hv0 ?_, hcap, fun j hj => ?_⟩
  · have := (eq_zero_iff hfits).mp h0 i.depth
    rwa [SubtypeCheckInfo.setNext, SubtypeCheckInfo.setChar, getAt_setAt_self _ hd hv] at this
  · replace hj : j + 1 = i.depth := hj
    rw [SubtypeCheckInfo.setNext, SubtypeCheckInfo.setChar, getAt_setAt_ne hs hd hv (by omega)]
    exact hpath j hj

variable {klass p : C}

section

variable (h : Consistent T st) (hp : T.parent klass = some p)
  (hpstate : getState T st p = .assigned ∨ getState T st p = .overflowed)
include h hp hpstate

/-- The bits of a new child, and those of its parent after it. -/
theorem Consistent.createChild (assign : Bool) : ∃ child parent,
    (getSubtypeCheckInfo T st p).createChild assign = (child, parent) ∧
    ChildUpdate T st klass p child.bits parent.bits ∧
    ∃ state, SubtypeCheckInfo.getState ⟨T.depth klass, child.bits⟩ = state ∧ state ≠ .uninitialized ∧
      (assign = true → state = .assigned ∨ state = .overflowed) := by
  have hs : Fits (getSubtypeCheckInfo T st p).bits.bitstring := h.fits p
  have hdepth := T.depth_child klass p hp
  obtain ⟨-, hover, hfits, hpath, hlast, hnext⟩ := SubtypeCheckInfo.initialChild_spec hs
  by_cases ha : assign = true ∧ (getSubtypeCheckInfo T st p).Assigns
  · obtain ⟨rfl, ha⟩ := ha
    have heq := SubtypeCheckInfo.createChild_assigns ha
    obtain ⟨hd, ho, hmax⟩ := ha
    have hstate := assigned_of_not_overflow hpstate ho
    have hle : (getSubtypeCheckInfo T st p).getNext ≤ maximumValue (T.depth p) := getAt_le _ _
    have hle' : (getSubtypeCheckInfo T st p).getNext + 1 ≤ maximumValue (T.depth p) := Nat.lt_of_le_of_ne hle hmax
    have hself : getAt (setAt (st p).bitstring (T.depth p) ((getSubtypeCheckInfo T st p).getNext + 1)) (T.depth p) =
        (getSubtypeCheckInfo T st p).getNext + 1 := getAt_setAt_self _ hd hle'
    have hchar := getAt_setAt_self (getSubtypeCheckInfo T st p).initialChild.bits.bitstring hd hle
    have hone : (getSubtypeCheckInfo T st p).getNext ≠ 0 := Nat.one_le_iff_ne_zero.mp (h.next p hstate hd)
    have hfits' := setAt_fits hfits hd hle
    refine ⟨_, _, heq, ?_, .assigned, ?_, State.noConfusion, fun _ => .inl rfl⟩
    · exact {
        fits := hfits'
        parentFits := setAt_fits hs hd hle'
        parentState := (getState_setNext hs hd hle' (Nat.succ_ne_zero _) hstate).trans hstate.symm
        parentOverflow := rfl
        parentPath := fun j hj => getAt_setAt_ne hs hd hle' hj
        parentNext := hself.symm ▸ Nat.le_succ _
        path := fun j hj => (getAt_setAt_ne hfits hd hle hj.ne).trans (hpath j hj)
        overflow := fun h' => hover.trans h'
        last := fun h' => by
          have : (st p).overflow = true := hover.symm.trans h'
          rw [show (st p).overflow = false from ho] at this
          cases this
        assigned := fun _ => ⟨fun hd' => by
            rw [hdepth] at hd' ⊢
            exact (hnext hd').ge.trans_eq (getAt_setAt_ne hfits hd hle (Nat.succ_ne_self _)).symm,
          hchar, hself.symm ▸ Nat.lt_succ_self _⟩ }
    · refine (SubtypeCheckInfo.getState_eq_assigned_iff hfits').mpr ⟨hover.trans ho, fun h0 => hone ?_, ?_, ?_⟩
      · exact hchar.symm.trans ((eq_zero_iff hfits').mp h0 (T.depth p))
      · exact hdepth.trans_le hd
      · intro j hj
        obtain rfl : j = T.depth p := Nat.succ.inj (hj.trans hdepth)
        exact fun h0 => hone (hchar.symm.trans h0)
  · have heq := SubtypeCheckInfo.createChild_of_not_assigns ha
    -- The child differs from the initial one at most in its overflow bit.
    have hbits : ∀ overflow : Bool, ((st p).overflow = true → overflow = true) →
        ChildUpdate T st klass p ⟨(getSubtypeCheckInfo T st p).initialChild.bits.bitstring, overflow⟩ (st p) :=
      fun overflow hoverflow => {
        fits := hfits
        parentFits := hs
        parentState := rfl
        parentOverflow := rfl
        parentPath := fun _ _ => rfl
        parentNext := le_rfl
        path := hpath
        overflow := hoverflow
        last := fun _ => hlast
        assigned := fun hstate => by
          obtain ⟨-, -, -, hne⟩ :=
            (SubtypeCheckInfo.getState_eq_assigned_iff (i := ⟨T.depth klass, ⟨_, overflow⟩⟩) hfits).mp hstate
          exact absurd hlast (hne (T.depth p) hdepth.symm) }
    cases assign with
    | true =>
      exact ⟨_, _, heq, hbits true fun _ => rfl, .overflowed, SubtypeCheckInfo.getState_eq_overflowed_iff.mpr rfl,
        State.noConfusion, fun _ => .inr rfl⟩
    | false =>
      refine ⟨_, _, heq, hbits _ fun h' => hover.trans h', _, rfl, fun hzero => ?_, fun h => by cases h⟩
      have hbits := SubtypeCheckInfo.getState_eq_uninitialized_iff.mp hzero
      replace hbits : (getSubtypeCheckInfo T st p).initialChild.bits = ⟨0, false⟩ := hbits
      rw [hbits] at hover hpath hnext
      have hstate := assigned_of_not_overflow hpstate hover.symm
      obtain ⟨-, -, hcap, hchars⟩ := (SubtypeCheckInfo.getState_eq_assigned_iff hs).mp hstate
      replace hcap : T.depth p ≤ 3 := hcap
      -- Either the child has a `Next`, or its parent has a path.
      rcases Nat.lt_or_ge (T.depth p + 1) kCapacity with hd | hd
      · exact absurd (hnext hd) (by simp)
      replace hd : 3 ≤ T.depth p + 1 := hd
      refine hchars (T.depth p - 1) ?_ ?_
      · change T.depth p - 1 + 1 = T.depth p
        omega
      · rw [← hpath (T.depth p - 1) (by change T.depth p - 1 < T.depth p; omega)]
        exact getAt_zero_left _

end

/-! ### The hierarchy -/

def ClassTree.Super (T : ClassTree C) (c p : C) : Prop := T.parent c = some p

variable (h : Consistent T st)

include h in
theorem Consistent.ancestor {c a : C} (hca : TransGen T.Super c a) (hc : getState T st c ≠ .uninitialized) :
    getState T st a = .assigned ∨ getState T st a = .overflowed := by
  induction hca with
  | single hp => exact h.parent _ _ hp hc
  | tail _ hp ih =>
    refine h.parent _ _ hp ?_
    rcases ih with ih | ih <;> rw [ih] <;> exact State.noConfusion

theorem ClassTree.depth_le_of_reaches {s t : C} (hst : ReflTransGen T.Super s t) : T.depth t ≤ T.depth s := by
  induction hst with
  | refl => exact le_rfl
  | tail _ hp ih => exact ((Nat.le_succ _).trans_eq (T.depth_child _ _ hp).symm).trans ih

theorem ClassTree.induction (T : ClassTree C) {P : C → Prop} (root : ∀ c, T.parent c = none → P c)
    (child : ∀ c p, T.parent c = some p → P p → P c) (c : C) : P c := by
  induction hn : T.depth c generalizing c with
  | zero => exact root c (Option.eq_none_iff_forall_ne_some.mpr fun p hp => by simp [T.depth_child c p hp] at hn)
  | succ n ih =>
    cases hp : T.parent c with
    | none => exact root c hp
    | some p => exact child c p hp (ih p (Nat.succ.inj ((T.depth_child c p hp).symm.trans hn)))

theorem ClassTree.exists_root (T : ClassTree C) (c : C) : ∃ r, T.parent r = none ∧ ReflTransGen T.Super c r := by
  induction c using T.induction with
  | root c hp => exact ⟨c, hp, .refl⟩
  | child c p hp ih =>
    obtain ⟨r, hr, hpr⟩ := ih
    exact ⟨r, hr, .head hp hpr⟩

include h

theorem Consistent.path_of_reaches {s t : C} (hst : ReflTransGen T.Super s t) (hs : getState T st s ≠ .uninitialized) :
    ∀ i < T.depth t, getAt (st s).bitstring i = getAt (st t).bitstring i := by
  induction hst using ReflTransGen.head_induction_on with
  | refl => exact fun _ _ => rfl
  | @head c p hp hpt ih =>
    intro i hi
    have hplive : getState T st p ≠ .uninitialized := by
      rcases h.parent c p hp hs with h' | h' <;> rw [h'] <;> exact State.noConfusion
    exact (h.path c p hp hs i (hi.trans_le (ClassTree.depth_le_of_reaches hpt))).trans (ih hplive i hi)

theorem Consistent.assigned_of_last_ne {c p : C} (hp : T.parent c = some p)
    (hlast : getAt (st c).bitstring (T.depth p) ≠ 0) : getState T st c = .assigned := by
  have hdepth := T.depth_child c p hp
  refine (SubtypeCheckInfo.getState_eq_assigned_iff (h.fits c)).mpr ⟨?_, fun hzero => hlast ?_, ?_, fun j hj => ?_⟩
  · exact Bool.eq_false_iff.mpr fun ho => hlast (h.last c p hp ho)
  · exact (eq_zero_iff (h.fits c)).mp hzero _
  · exact hdepth.trans_le (lt_kCapacity_of_getAt_ne hlast)
  · obtain rfl : j = T.depth p := Nat.succ.inj (hj.trans hdepth)
    exact hlast

/-- A class whose bits extend the path of another is its subclass. -/
theorem Consistent.reaches_of_path (s t : C) (ht : getState T st t = .assigned) (hs : getState T st s ≠ .uninitialized)
    (hpath : ∀ i < T.depth t, (if i < T.depth s then getAt (st s).bitstring i else 0) = getAt (st t).bitstring i) :
    ReflTransGen T.Super s t := by
  induction t using T.induction with
  | root t hp =>
    obtain ⟨r, hr, hsr⟩ := T.exists_root s
    rwa [T.root_unique t r hp hr]
  | child t p hp ih =>
    have hdepth := T.depth_child t p hp
    have htlive := assigned_ne_uninitialized ht
    obtain ⟨ho, -, -, hchars⟩ := (SubtypeCheckInfo.getState_eq_assigned_iff (h.fits t)).mp ht
    have hpassigned : getState T st p = .assigned :=
      assigned_of_not_overflow (h.parent t p hp htlive)
        (Bool.eq_false_iff.mpr fun hpo => Bool.false_ne_true (ho.symm.trans (h.overflow t p hp htlive hpo)))
    have hsp : ReflTransGen T.Super s p := by
      refine ih hpassigned fun i hi => ?_
      rw [hpath i (by omega), h.path t p hp htlive i hi]
    have hlast : getAt (st t).bitstring (T.depth p) ≠ 0 := hchars _ hdepth.symm
    have hs_last := hpath (T.depth p) (by omega)
    rcases ReflTransGen.cases_tail hsp with rfl | ⟨c, hsc, hcp⟩
    · rw [if_neg (lt_irrefl _)] at hs_last
      exact absurd hs_last.symm hlast
    -- The child of p on the way from s has the last character of t.
    have hdc := T.depth_child c p hcp
    have hle := ClassTree.depth_le_of_reaches hsc
    rw [if_pos (by omega), h.path_of_reaches hsc hs _ (by omega)] at hs_last
    have hc := h.assigned_of_last_ne hcp (hs_last ▸ hlast)
    exact h.siblings c t p hcp hp hc ht hs_last ▸ hsc

theorem Consistent.getAt_getPathToRoot (c : C) (i : Nat) :
    getAt (getSubtypeCheckInfo T st c).getPathToRoot i = if i < T.depth c then getAt (st c).bitstring i else 0 :=
  SubtypeCheckInfo.getAt_getPathToRoot (h.fits c) i

/-- Against an assigned class, the check is right about subclasses. -/
theorem Consistent.isSubtypeOf_eq_subtypeOf_iff {s t : C} (ht : getState T st t = .assigned)
    (hs : getState T st s ≠ .uninitialized) : isSubtypeOf T st s t = .subtypeOf ↔ ReflTransGen T.Super s t := by
  have hcap : T.depth t ≤ kCapacity := ((SubtypeCheckInfo.getState_eq_assigned_iff (h.fits t)).mp ht).2.2.1
  have hmask : (getSubtypeCheckInfo T st s).getPathToRoot &&& (getSubtypeCheckInfo T st t).getEncodedPathToRootMask =
      (getSubtypeCheckInfo T st t).getPathToRoot ↔
      ∀ i < T.depth t, (if i < T.depth s then getAt (st s).bitstring i else 0) = getAt (st t).bitstring i := by
    have := mask_eq_iff (truncate_fits (h.fits s) (getSubtypeCheckInfo T st s).getSafeDepth)
      (truncate_fits (h.fits t) (getSubtypeCheckInfo T st t).getSafeDepth) hcap
      fun i hi => (h.getAt_getPathToRoot t i).trans (if_neg hi.not_gt)
    rw [SubtypeCheckInfo.getEncodedPathToRootMask, SubtypeCheckInfo.getSafeDepth]
    change _ &&& (2 ^ getBitLengthTotalAtPosition (min (T.depth t) kCapacity) - 1) = _ ↔ _
    rw [Nat.min_eq_left hcap]
    refine this.trans (forall₂_congr fun i hi => ?_)
    change getAt (getSubtypeCheckInfo T st s).getPathToRoot i = getAt (getSubtypeCheckInfo T st t).getPathToRoot i ↔ _
    rw [h.getAt_getPathToRoot s, h.getAt_getPathToRoot t, if_pos hi]
  have hknown : ¬((getSubtypeCheckInfo T st t).getState ≠ .assigned ∨
      (getSubtypeCheckInfo T st s).getState = .uninitialized) := fun h' => h'.elim (fun h' => h' ht) hs
  rw [isSubtypeOf, SubtypeCheckInfo.isSubtypeOf, if_neg hknown]
  have hite : ∀ P [Decidable P], (if P then Result.subtypeOf else .notSubtypeOf) = .subtypeOf ↔ P := fun P _ => by simp
  rw [hite, hmask]
  refine ⟨h.reaches_of_path s t ht hs, fun hst i hi => ?_⟩
  rw [if_pos (hi.trans_le (ClassTree.depth_le_of_reaches hst))]
  exact h.path_of_reaches hst hs i hi

omit h

theorem isSubtypeOf_eq_unknown_iff {s t : C} : isSubtypeOf T st s t = .unknownSubtypeOf ↔
    getState T st t ≠ .assigned ∨ getState T st s = .uninitialized := by
  rw [isSubtypeOf, SubtypeCheckInfo.isSubtypeOf, getState, getState]
  split_ifs <;> simp_all

include h in
theorem Consistent.last_lt_next {c p : C} (hp : T.parent c = some p) (hc : getState T st c = .assigned) :
    getAt (getSubtypeCheckInfo T st c).getPathToRoot (T.depth p) < (getSubtypeCheckInfo T st p).getNext := by
  rw [h.getAt_getPathToRoot c, if_pos ((Nat.lt_succ_self _).trans_eq (T.depth_child c p hp).symm)]
  exact h.below c p hp hc

/-! ### One call -/

/-- The arrows of the state diagram. -/
inductive State.Arrow : State → State → Prop
  | init : Arrow .uninitialized .initialized
  | assign : Arrow .initialized .assigned
  | overflow : Arrow .initialized .overflowed

abbrev State.Moves : State → State → Prop := ReflTransGen State.Arrow

theorem State.initialized_moves {s : State} (h : s = .assigned ∨ s = .overflowed) : State.Moves .initialized s := by
  rcases h with rfl | rfl
  · exact .single .assign
  · exact .single .overflow

theorem State.uninitialized_moves (s : State) : State.Moves .uninitialized s := by
  cases s
  case uninitialized => exact .refl
  case initialized => exact .single .init
  all_goals exact .head .init (State.initialized_moves (by simp))

/-- What a call does to the states of the classes. -/
structure CallSpec (T : ClassTree C) (st st' : Store C) (klass : C) (assign : Bool) : Prop where
  consistent : Consistent T st'
  moves : ∀ c, State.Moves (getState T st c) (getState T st' c)
  live : getState T st' klass ≠ .uninitialized
  assigned : assign = true → getState T st' klass = .assigned ∨ getState T st' klass = .overflowed

theorem CallSpec.trans {st' st'' : Store C} {assign assign' : Bool} (h : CallSpec T st st' p assign')
    (h' : CallSpec T st' st'' klass assign) : CallSpec T st st'' klass assign :=
  ⟨h'.consistent, fun c => (h.moves c).trans (h'.moves c), h'.live, h'.assigned⟩

variable [DecidableEq C]

/-- A class that keeps its state and its characters, but for a larger `Next`. -/
structure Keeps (T : ClassTree C) (st st' : Store C) (c : C) : Prop where
  state : getState T st' c = getState T st c
  overflow : (st' c).overflow = (st c).overflow
  fits : Fits (st' c).bitstring
  path : ∀ j ≠ T.depth c, getAt (st' c).bitstring j = getAt (st c).bitstring j
  next : getAt (st c).bitstring (T.depth c) ≤ getAt (st' c).bitstring (T.depth c)

theorem ChildUpdate.keeps {klass p c : C} {child parent : SubtypeCheckBits} (hu : ChildUpdate T st klass p child parent)
    (h : Consistent T st) (hc : c ≠ klass) :
    Keeps T st (update (update st klass child) p parent) c := by
  by_cases hcp : c = p
  · subst hcp
    refine ⟨?_, ?_, ?_, ?_, ?_⟩ <;> simp only [getState, getSubtypeCheckInfo, update_self]
    exacts [hu.parentState, hu.parentOverflow, hu.parentFits, hu.parentPath, hu.parentNext]
  · refine ⟨?_, ?_, ?_, ?_, ?_⟩ <;> simp only [getState, getSubtypeCheckInfo, update_of_ne hcp, update_of_ne hc]
    exacts [h.fits c, fun _ _ => trivial, le_rfl]

include h

/-- Changing a class that has no live children, and the `Next` of its parent, keeps the invariant. -/
theorem Consistent.of_keeps {st' : Store C} (hkeeps : ∀ c, c ≠ klass → Keeps T st st' c)
    (hklass : getState T st klass = .uninitialized ∨ getState T st klass = .initialized)
    (hfits : Fits (st' klass).bitstring) (hroot : T.parent klass = none → (st' klass).overflow = false)
    (hnext : getState T st' klass = .assigned → T.depth klass < kCapacity →
      1 ≤ getAt (st' klass).bitstring (T.depth klass))
    (hparent : ∀ p, T.parent klass = some p → (getState T st p = .assigned ∨ getState T st p = .overflowed) ∧
      ChildUpdate T st klass p (st' klass) (st' p)) : Consistent T st' := by
  have hdead : ∀ c q, T.parent c = some q → getState T st' c ≠ .uninitialized → c ≠ klass → q ≠ klass := by
    rintro c q hq hlive hc rfl
    rw [(hkeeps c hc).state] at hlive
    rcases h.parent c q hq hlive with hqs | hqs <;> rcases hklass with h' | h' <;> rw [hqs] at h' <;> cases h'
  have hkeepsParent : ∀ {q}, T.parent klass = some q → Keeps T st st' q := fun hq => hkeeps _ (T.ne_of_parent hq).symm
  refine ⟨fun c => ?_, fun c hc => ?_, fun c hc hd => ?_, fun c q hq hc => ?_, fun c q hq hc => ?_,
    fun c q hq hc i hi => ?_, fun c q hq hc => ?_, fun c q hq hc => ?_, fun c c' q hq hq' hc hc' heq => ?_⟩
  · by_cases hck : c = klass
    · exact hck ▸ hfits
    · exact (hkeeps c hck).fits
  · obtain rfl | hck := eq_or_ne c klass
    · exact hroot hc
    · rw [(hkeeps c hck).overflow]
      exact h.root c hc
  · obtain rfl | hck := eq_or_ne c klass
    · exact hnext hc hd
    · exact (h.next c ((hkeeps c hck).state ▸ hc) hd).trans (hkeeps c hck).next
  · obtain rfl | hck := eq_or_ne c klass
    · rw [(hkeepsParent hq).state]
      exact (hparent q hq).1
    · rw [(hkeeps q (hdead c q hq hc hck)).state]
      exact h.parent c q hq ((hkeeps c hck).state ▸ hc)
  · obtain rfl | hck := eq_or_ne c klass
    · rw [(hkeepsParent hq).overflow]
      exact (hparent q hq).2.overflow
    · rw [(hkeeps q (hdead c q hq hc hck)).overflow, (hkeeps c hck).overflow]
      exact h.overflow c q hq ((hkeeps c hck).state ▸ hc)
  · obtain rfl | hck := eq_or_ne c klass
    · rw [(hkeepsParent hq).path i hi.ne]
      exact (hparent q hq).2.path i hi
    · have hdc := T.depth_child c q hq
      rw [(hkeeps c hck).path i (by omega), (hkeeps q (hdead c q hq hc hck)).path i hi.ne]
      exact h.path c q hq ((hkeeps c hck).state ▸ hc) i hi
  · obtain rfl | hck := eq_or_ne c klass
    · exact (hparent q hq).2.last hc
    · have hdc := T.depth_child c q hq
      rw [(hkeeps c hck).path _ (by omega)]
      exact h.last c q hq ((hkeeps c hck).overflow ▸ hc)
  · obtain rfl | hck := eq_or_ne c klass
    · obtain ⟨-, heq, hlt⟩ := (hparent q hq).2.assigned hc
      rw [heq]
      exact hlt
    · have hdc := T.depth_child c q hq
      rw [(hkeeps c hck).path _ (by omega)]
      exact (h.below c q hq ((hkeeps c hck).state ▸ hc)).trans_le
        (hkeeps q (hdead c q hq (assigned_ne_uninitialized hc) hck)).next
  · -- A new character is the old `Next` of the parent, which is above those of its siblings.
    have hnew : ∀ c, T.parent c = some q → getState T st' c = .assigned → c ≠ klass → T.parent klass = some q →
        getState T st' klass = .assigned → getAt (st' c).bitstring (T.depth q) ≠ getAt (st' klass).bitstring
          (T.depth q) := by
      intro c hq hc hck hp hka
      have hdc := T.depth_child c q hq
      have hlt := h.below c q hq ((hkeeps c hck).state ▸ hc)
      rw [(hkeeps c hck).path _ (by omega), ((hparent q hp).2.assigned hka).2.1]
      exact hlt.ne
    by_cases hck : c = klass
    · by_cases hck' : c' = klass
      · rw [hck, hck']
      · subst hck
        exact absurd heq.symm (hnew c' hq' hc' hck' hq hc)
    · by_cases hck' : c' = klass
      · subst hck'
        exact absurd heq (hnew c hq hc hck hq' hc')
      · have hdc := T.depth_child c q hq
        have hdc' := T.depth_child c' q hq'
        rw [(hkeeps c hck).path _ (by omega), (hkeeps c' hck').path _ (by omega)] at heq
        exact h.siblings c c' q hq hq' ((hkeeps c hck).state ▸ hc) ((hkeeps c' hck').state ▸ hc') heq

/-- Storing the bits of a child and its parent keeps the bits consistent. -/
theorem Consistent.update (hp : T.parent klass = some p)
    (hpstate : getState T st p = .assigned ∨ getState T st p = .overflowed)
    (hklass : getState T st klass = .uninitialized ∨ getState T st klass = .initialized)
    {child parent : SubtypeCheckBits} (hu : ChildUpdate T st klass p child parent) :
    Consistent T (update (update st klass child) p parent) := by
  have hk : Function.update (Function.update st klass child) p parent klass = child := by
    rw [update_of_ne (T.ne_of_parent hp), update_self]
  refine h.of_keeps (fun c hc => hu.keeps h hc) hklass (hk.symm ▸ hu.fits) (fun hroot => ?_) (fun hc => ?_)
    fun q hq => ?_
  · rw [hp] at hroot
    cases hroot
  · rw [getState, getSubtypeCheckInfo, hk] at hc
    rw [hk]
    exact (hu.assigned hc).1
  · obtain rfl := Option.some.inj (hq.symm.trans hp)
    rw [hk, update_self]
    exact ⟨hpstate, hu⟩

/-- The call on a class with an assigned parent. -/
theorem Consistent.initializeOrAssignChild_spec (hp : T.parent klass = some p)
    (hpstate : getState T st p = .assigned ∨ getState T st p = .overflowed) (assign : Bool) :
    CallSpec T st (initializeOrAssignChild T st klass p assign) klass assign := by
  by_cases hwork : getState T st klass = .uninitialized ∨ (getState T st klass = .initialized ∧ assign = true)
  · obtain ⟨child, parent, hc, hu, state, hstate, hlive, hassigned⟩ := h.createChild hp hpstate assign
    have heq : initializeOrAssignChild T st klass p assign =
        Function.update (Function.update st klass child.bits) p parent.bits := by
      simp only [initializeOrAssignChild, hc]
      exact if_pos hwork
    have hkeeps := fun c hc => hu.keeps h (c := c) hc
    have hklass : getState T (Function.update (Function.update st klass child.bits) p parent.bits) klass = state := by
      rw [getState, getSubtypeCheckInfo, update_of_ne (T.ne_of_parent hp), update_self, hstate]
    rw [← hklass] at hlive hassigned
    rw [heq]
    refine ⟨h.update hp hpstate (hwork.imp_right And.left) hu, fun c => ?_, hlive, hassigned⟩
    by_cases hc : c = klass
    · subst hc
      rcases hwork with hwork | ⟨hwork, ha⟩
      · rw [hwork]
        exact State.uninitialized_moves _
      · rw [hwork]
        exact State.initialized_moves (hassigned ha)
    · rw [(hkeeps c hc).state]
  · have heq : initializeOrAssignChild T st klass p assign = st := if_neg hwork
    rw [heq]
    rw [not_or, not_and] at hwork
    refine ⟨h, fun c => .refl, hwork.1, fun ha => ?_⟩
    cases hstate : getState T st klass
    case uninitialized => exact absurd hstate hwork.1
    case initialized => exact absurd ha (hwork.2 hstate)
    case assigned => exact .inl rfl
    case overflowed => exact .inr rfl

omit h

theorem createRoot_bits : SubtypeCheckInfo.createRoot.bits = ⟨1, false⟩ := by decide

include h

/-- The call on the root. -/
theorem Consistent.initializeRoot_spec {klass : C} (hroot : T.parent klass = none) (assign : Bool) :
    CallSpec T st (initializeRoot T st klass) klass assign := by
  have hdepth := T.depth_root klass hroot
  by_cases hwork : getState T st klass = .uninitialized
  · have heq : initializeRoot T st klass = Function.update st klass ⟨1, false⟩ := by
      rw [← createRoot_bits]
      exact if_neg (not_not.mpr hwork)
    rw [heq]
    have hk : Function.update st klass ⟨1, false⟩ klass = ⟨1, false⟩ := Function.update_self ..
    have hother : ∀ c, c ≠ klass → Function.update st klass ⟨1, false⟩ c = st c :=
      fun c hc => Function.update_of_ne hc ..
    generalize Function.update st klass ⟨1, false⟩ = st' at *
    have hassigned : getState T st' klass = .assigned := by
      rw [getState, getSubtypeCheckInfo, hk, hdepth]
      decide
    have hstate : ∀ c, c ≠ klass → getState T st' c = getState T st c := fun c hc => by
      rw [getState, getSubtypeCheckInfo, hother c hc]
      rfl
    have hconsistent : Consistent T st' := by
      refine h.of_keeps (fun c hc => ?_) (.inl hwork) ?_ (fun _ => by rw [hk]) (fun _ _ => ?_) fun p hp => ?_
      · refine ⟨hstate c hc, ?_, ?_, fun _ _ => ?_, ?_⟩ <;> rw [hother c hc]
        exact h.fits c
      · rw [hk]
        exact fits_iff.mpr (by decide)
      · rw [hk, hdepth]
        decide
      · rw [hroot] at hp
        cases hp
    refine ⟨hconsistent, fun c => ?_, assigned_ne_uninitialized hassigned, fun _ => .inl hassigned⟩
    by_cases hc : c = klass
    · rw [hc, hwork]
      exact State.uninitialized_moves _
    · rw [hstate c hc]
  · have heq : initializeRoot T st klass = st := if_pos hwork
    rw [heq]
    refine ⟨h, fun c => .refl, hwork, fun _ => .inl ?_⟩
    have hover := h.root klass hroot
    refine (SubtypeCheckInfo.getState_eq_assigned_iff (h.fits klass)).mpr
      ⟨hover, fun hzero => hwork ?_, hdepth.trans_le (Nat.zero_le _), fun j hj => ?_⟩
    · exact SubtypeCheckInfo.getState_eq_uninitialized_iff.mpr (congrArg₂ SubtypeCheckBits.mk hzero hover)
    · exact absurd (hj.trans hdepth) (Nat.succ_ne_zero j)

/-- The call on any class, which assigns its superclasses first. -/
theorem Consistent.initializeOrAssignAt_spec (klass : C) (assign : Bool) :
    CallSpec T st (initializeOrAssignAt T st (T.depth klass) klass assign) klass assign := by
  induction klass using T.induction generalizing assign with
  | root klass hp =>
    rw [initializeOrAssignAt.eq_def]
    simp only [hp]
    exact h.initializeRoot_spec hp assign
  | child klass p hp ih =>
    rw [T.depth_child klass p hp, initializeOrAssignAt.eq_def]
    simp only [hp]
    exact (ih true).trans ((ih true).consistent.initializeOrAssignChild_spec hp ((ih true).assigned rfl) assign)

theorem Consistent.call (c : Call C) :
    Consistent T (call T st c) ∧ ∀ k, State.Moves (getState T st k) (getState T (SubtypeCheck.call T st c) k) := by
  cases c with
  | ensureInitialized klass =>
    have := h.initializeOrAssignAt_spec klass false
    exact ⟨this.consistent, this.moves⟩
  | ensureAssigned klass =>
    have := h.initializeOrAssignAt_spec klass true
    exact ⟨this.consistent, this.moves⟩

omit h

theorem run_concat (calls : List (Call C)) (c : Call C) : run T (calls ++ [c]) = call T (run T calls) c :=
  List.foldl_append

theorem run_consistent (calls : List (Call C)) : Consistent T (run T calls) := by
  induction calls using List.reverseRecOn with
  | nil => exact .empty
  | append_singleton calls c ih =>
    rw [run_concat]
    exact (ih.call c).1

/-- After every sequence of calls the documented invariants hold, and the check agrees with the hierarchy. -/
theorem run_isSubtypeOf (T : ClassTree C) (calls : List (Call C)) :
    (∀ c klass, State.Moves (getState T (run T calls) klass) (getState T (run T (calls ++ [c])) klass)) ∧
    (∀ c a, TransGen T.Super c a → getState T (run T calls) c ≠ .uninitialized →
      getState T (run T calls) a = .assigned ∨ getState T (run T calls) a = .overflowed) ∧
    (∀ c p, T.Super c p → getState T (run T calls) p = .assigned → getState T (run T calls) c = .assigned →
      getAt (getSubtypeCheckInfo T (run T calls) c).getPathToRoot (T.depth p) <
        (getSubtypeCheckInfo T (run T calls) p).getNext) ∧
    ∀ s t,
      (getState T (run T calls) t = .assigned ∧ getState T (run T calls) s ≠ .uninitialized →
        isSubtypeOf T (run T calls) s t ≠ .unknownSubtypeOf ∧
        (isSubtypeOf T (run T calls) s t = .subtypeOf ↔ s = t ∨ TransGen T.Super s t)) ∧
      (¬(getState T (run T calls) t = .assigned ∧ getState T (run T calls) s ≠ .uninitialized) →
        isSubtypeOf T (run T calls) s t = .unknownSubtypeOf) := by
  have h : Consistent T (run T calls) := run_consistent calls
  refine ⟨fun c klass => ?_, fun c a => h.ancestor, fun c p hp _ => h.last_lt_next hp,
    fun s t => ⟨fun ⟨ht, hs⟩ => ⟨fun hu => ?_, ?_⟩, fun hn => ?_⟩⟩
  · rw [run_concat]
    exact (h.call c).2 klass
  · exact (isSubtypeOf_eq_unknown_iff.mp hu).elim (fun h' => h' ht) hs
  · rw [h.isSubtypeOf_eq_subtypeOf_iff ht hs, reflTransGen_iff_eq_or_transGen, eq_comm]
  · rw [isSubtypeOf_eq_unknown_iff, ← not_not (a := getState T _ s = .uninitialized), ← not_and_or]
    exact hn

/-- A root with two children. -/
def fork : ClassTree (Fin 3) where
  parent c := if c.val = 0 then none else some ⟨0, Nat.succ_pos 2⟩
  depth c := if c.val = 0 then 0 else 1
  depth_root := by decide
  depth_child := by decide
  root_unique := by decide

theorem run_isSubtypeOf_fork :
    (getState fork (run fork [.ensureInitialized 2, .ensureAssigned 1]) 1 = .assigned ∧
      getState fork (run fork [.ensureInitialized 2, .ensureAssigned 1]) 2 ≠ .uninitialized) ∧
    isSubtypeOf fork (run fork [.ensureInitialized 2, .ensureAssigned 1]) 2 1 ≠ .unknownSubtypeOf ∧
    (isSubtypeOf fork (run fork [.ensureInitialized 2, .ensureAssigned 1]) 2 1 = .subtypeOf ↔
      (2 : Fin 3) = 1 ∨ TransGen fork.Super 2 1) :=
  have h : getState fork (run fork [.ensureInitialized 2, .ensureAssigned 1]) 1 = .assigned ∧
      getState fork (run fork [.ensureInitialized 2, .ensureAssigned 1]) 2 ≠ .uninitialized := by decide
  ⟨h, ((run_isSubtypeOf fork [.ensureInitialized 2, .ensureAssigned 1]).2.2.2 2 1).1 h⟩

theorem run_moves (calls later : List (Call C)) (k : C) :
    State.Moves (getState T (run T calls) k) (getState T (run T (calls ++ later)) k) := by
  induction later using List.reverseRecOn with
  | nil => rw [List.append_nil]
  | append_singleton later c ih =>
    rw [← List.append_assoc, run_concat]
    exact ih.trans (((run_consistent _).call c).2 k)

/-- No later call changes an answer that the check has given. -/
theorem isSubtypeOf_stays (T : ClassTree C) (calls later : List (Call C)) (s t : C)
    (h : isSubtypeOf T (run T calls) s t ≠ .unknownSubtypeOf) :
    isSubtypeOf T (run T (calls ++ later)) s t = isSubtypeOf T (run T calls) s t := by
  obtain ⟨ht, hs⟩ := not_or.mp (isSubtypeOf_eq_unknown_iff.not.mp h)
  have hmt := run_moves (T := T) calls later t
  have hms := run_moves (T := T) calls later s
  rw [not_not.mp ht] at hmt
  -- `Assigned` is a last state, and no arrow leads back to `Uninitialized`.
  have ht' : getState T (run T (calls ++ later)) t = .assigned :=
    (reflTransGen_iff_eq fun _ harrow => by cases harrow).mp hmt
  have hs' : getState T (run T (calls ++ later)) s ≠ .uninitialized := fun hu => by
    rw [hu] at hms
    rcases hms.cases_tail with heq | ⟨_, -, harrow⟩
    · exact hs heq.symm
    · cases harrow
  have hknown := isSubtypeOf_eq_unknown_iff.not.mpr (not_or.mpr ⟨not_not.mpr ht', hs'⟩)
  have hiff := ((run_consistent _).isSubtypeOf_eq_subtypeOf_iff ht' hs').trans
    ((run_consistent _).isSubtypeOf_eq_subtypeOf_iff (not_not.mp ht) hs).symm
  generalize isSubtypeOf T (run T calls) s t = old, isSubtypeOf T (run T (calls ++ later)) s t = new at h hknown hiff ⊢
  cases old <;> cases new <;> simp_all

theorem isSubtypeOf_stays_fork : isSubtypeOf fork (run fork ([.ensureAssigned 1] ++ [.ensureInitialized 2])) 1 0 =
    .subtypeOf :=
  (isSubtypeOf_stays fork [.ensureAssigned 1] _ 1 0 (by decide)).trans (by decide)

end

end Art.SubtypeCheck
