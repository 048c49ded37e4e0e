import Art.Runtime.Class
import Mathlib.Data.Finset.Card
import Mathlib.Logic.Relation

/-! Assignability is an order on classes, and the join of the verifier is a common supertype: the least one
    apart from interfaces and arrays of interfaces. -/

namespace Art.Verifier
open List

open Relation (ReflTransGen)

namespace Class

variable {κ : Type} {classes : ClassTable κ} {a b c p s t u : Class κ} {k : κ}

/-! ### Superclasses -/

variable (h : getSuperClass classes c = some p)

include h in
theorem rank_getSuperClass : rank classes p < rank classes c := by
  cases c with
  | primitive => cases h
  | named k =>
    obtain ⟨q, hq, rfl⟩ := Option.map_eq_some_iff.mp h
    exact classes.rank_superClass hq
  | array c =>
    cases h
    exact Nat.lt_succ_self _

theorem isObjectClass_iff : isObjectClass classes c = true ↔ c = named classes.object := by
  cases c with
  | primitive => simp [isObjectClass, isPrimitive]
  | named k => simp [isObjectClass, isPrimitive, getSuperClass, classes.superClass_eq_none]
  | array c => simp [isObjectClass, isPrimitive, getSuperClass]

theorem getSuperClass_eq_none (hp : c.isPrimitive = false) :
    getSuperClass classes c = none ↔ c = named classes.object := by
  rw [← isObjectClass_iff, isObjectClass, hp, Bool.not_false, Bool.true_and, Option.isNone_iff_eq_none]

theorem getSuperClass_interface (h : isInterface classes c = true) :
    getSuperClass classes c = some (named classes.object) := by
  cases c with
  | named k => rw [getSuperClass, classes.superClass_interface h, Option.map_some]
  | primitive | array => cases h

theorem object_not_interface : isInterface classes (named classes.object) = false := by
  rw [← Bool.not_eq_true]
  intro h
  have hnone : getSuperClass classes (named classes.object) = none := (getSuperClass_eq_none rfl).mpr rfl
  rw [getSuperClass_interface h] at hnone
  cases hnone

include h in
theorem getSuperClass_named : (∃ k, p = named k) ∧ isInterface classes p = false := by
  cases c with
  | primitive => cases h
  | named k =>
    obtain ⟨q, hq, rfl⟩ := Option.map_eq_some_iff.mp h
    exact ⟨⟨q, rfl⟩, classes.superClass_isInterface hq⟩
  | array c =>
    cases h
    exact ⟨⟨_, rfl⟩, object_not_interface⟩

abbrev Super (classes : ClassTable κ) (c p : Class κ) : Prop := getSuperClass classes c = some p

abbrev SuperStar (classes : ClassTable κ) : Class κ → Class κ → Prop := ReflTransGen (Super classes)

theorem superStar_named (h : SuperStar classes c p) (hne : c ≠ p) :
    (∃ k, p = named k) ∧ isInterface classes p = false := by
  rcases ReflTransGen.cases_tail h with rfl | ⟨q, -, hq⟩
  · exact absurd rfl hne
  · exact getSuperClass_named hq

theorem not_superStar (hp : ∀ k, p ≠ named k) (hne : p ≠ c) : ¬SuperStar classes c p := fun h => by
  obtain ⟨⟨k, hk⟩, -⟩ := superStar_named h hne.symm
  exact hp k hk

theorem superStar_of_object (h : SuperStar classes (named classes.object) p) : p = named classes.object := by
  rcases ReflTransGen.cases_head h with rfl | ⟨q, hq, -⟩
  · rfl
  · rw [Super, (getSuperClass_eq_none rfl).mpr rfl] at hq
    cases hq

theorem not_superStar_array {k : κ} (hobj : k ≠ classes.object) : ¬SuperStar classes (array c) (named k) := by
  intro h
  rcases ReflTransGen.cases_head h with heq | ⟨q, hq, hrest⟩
  · cases heq
  · cases hq
    cases superStar_of_object hrest
    exact hobj rfl

/-- The depth does not depend on the fuel, once there is enough. -/
theorem depthLoop_eq {fuel fuel' : Nat} (h : rank classes c ≤ fuel) (h' : rank classes c ≤ fuel') :
    depthLoop classes fuel c = depthLoop classes fuel' c := by
  induction fuel generalizing c fuel' with
  | zero =>
    cases fuel' with
    | zero => rfl
    | succ fuel' =>
      rcases hp : getSuperClass classes c with _ | p
      · simp only [depthLoop, hp]
      · exact absurd (rank_getSuperClass hp) (by omega)
  | succ fuel ih =>
    rcases hp : getSuperClass classes c with _ | p
    · cases fuel' <;> simp only [depthLoop, hp]
    have hlt := rank_getSuperClass hp
    cases fuel' with
    | zero => omega
    | succ fuel' =>
      simp only [depthLoop, hp]
      rw [ih (by omega) (show rank classes p ≤ fuel' by omega)]

include h in
theorem depth_getSuperClass : depth classes c = depth classes p + 1 := by
  have hlt := rank_getSuperClass h
  rw [depth, depth, depthLoop_eq (Nat.le_refl _) (Nat.le_succ (rank classes c)), depthLoop, h]
  dsimp only
  rw [depthLoop_eq (by omega) (Nat.le_refl _)]

theorem depth_of_none (h : getSuperClass classes c = none) : depth classes c = 0 := by
  rw [depth, depthLoop_eq (Nat.le_refl _) (Nat.le_succ (rank classes c)), depthLoop, h]

theorem depth_object : depth classes (named classes.object) = 0 := depth_of_none ((getSuperClass_eq_none rfl).mpr rfl)

theorem depth_superStar (h : SuperStar classes c p) : c = p ∨ depth classes p < depth classes c := by
  induction h with
  | refl => exact .inl rfl
  | tail _ hstep ih =>
    have hd := depth_getSuperClass hstep
    rcases ih with rfl | ih
    · exact .inr (by omega)
    · exact .inr (by omega)

theorem getIfTable_trans (h : b ∈ getIfTable classes a) (h' : c ∈ getIfTable classes b) : c ∈ getIfTable classes a := by
  cases a with
  | primitive => cases h
  | named k =>
    obtain ⟨i, hi, rfl⟩ := mem_map.mp h
    obtain ⟨j, hj, rfl⟩ := mem_map.mp h'
    exact mem_map_of_mem (classes.ifTable_trans hi hj)
  | array _ =>
    obtain ⟨i, hi, rfl⟩ := mem_map.mp h
    obtain ⟨j, hj, rfl⟩ := mem_map.mp h'
    exact mem_map_of_mem (classes.arrayIfTable_trans hi hj)

/-- A class has the interfaces of its superclasses. -/
theorem getIfTable_superStar (h : SuperStar classes a b) : ∀ i ∈ getIfTable classes b, i ∈ getIfTable classes a := by
  induction h with
  | refl => exact fun _ hi => hi
  | @tail q r _ hstep ih =>
    intro i hi
    refine ih i ?_
    cases q with
    | primitive => cases hstep
    | named k =>
      obtain ⟨l, hl, rfl⟩ := Option.map_eq_some_iff.mp hstep
      obtain ⟨j, hj, rfl⟩ := mem_map.mp hi
      exact mem_map_of_mem (classes.ifTable_superClass hl hj)
    | array d =>
      cases hstep
      rw [getIfTable, classes.ifTable_object] at hi
      cases hi

theorem depth_pos (h : k ≠ classes.object) : 0 < depth classes (named k) := by
  rcases hp : getSuperClass classes (named k) with _ | p
  · rw [getSuperClass_eq_none rfl] at hp
    cases hp
    exact absurd rfl h
  · rw [depth_getSuperClass hp]
    exact Nat.succ_pos _

theorem exists_superClass {n : Nat} (hd : depth classes c = n + 1) :
    ∃ p, getSuperClass classes c = some p ∧ p.isPrimitive = false ∧ depth classes p = n := by
  rcases hc : getSuperClass classes c with _ | p
  · rw [depth_of_none hc] at hd
    cases hd
  · have hup := depth_getSuperClass hc
    obtain ⟨⟨k, rfl⟩, -⟩ := getSuperClass_named hc
    exact ⟨_, rfl, rfl, by omega⟩

theorem eq_object_of_depth (hp : c.isPrimitive = false) (hd : depth classes c = 0) : c = named classes.object := by
  rcases hc : getSuperClass classes c with _ | p
  · exact (getSuperClass_eq_none hp).mp hc
  · rw [depth_getSuperClass hc] at hd
    cases hd

theorem superStar_head (h : SuperStar classes c u) (hne : c ≠ u) (hp : getSuperClass classes c = some p) :
    SuperStar classes p u := by
  rcases ReflTransGen.cases_head h with rfl | ⟨q, hq, hrest⟩
  · exact absurd rfl hne
  · rw [Super, hp] at hq
    cases hq
    exact hrest

/-- Going up reaches the ancestor of the wanted depth, below every ancestor that is not deeper. -/
theorem goUp_spec {n m : Nat} (hp : c.isPrimitive = false) (hd : depth classes c = m + n) :
    SuperStar classes c (goUp classes n c) ∧ (goUp classes n c).isPrimitive = false ∧
      depth classes (goUp classes n c) = m ∧
      ∀ u, SuperStar classes c u → depth classes u ≤ m → SuperStar classes (goUp classes n c) u := by
  induction n generalizing c with
  | zero => exact ⟨.refl, hp, hd, fun u hu _ => hu⟩
  | succ n ih =>
    obtain ⟨p, hc, hprim, hdepth⟩ := exists_superClass hd
    obtain ⟨hstar, hprim', hdepth', hleast⟩ := ih hprim hdepth
    rw [goUp, hc, Option.getD_some]
    refine ⟨.head hc hstar, hprim', hdepth', fun u hu hle => hleast u (superStar_head hu ?_ hc) hle⟩
    rintro rfl
    omega

variable [DecidableEq κ]

theorem isSubClassLoop_iff {fuel : Nat} (h : rank classes c < fuel) :
    isSubClassLoop classes p fuel c = true ↔ SuperStar classes c p := by
  induction fuel generalizing c with
  | zero => omega
  | succ fuel ih =>
    rw [isSubClassLoop, SuperStar, ReflTransGen.cases_head_iff]
    split_ifs with heq
    · exact ⟨fun _ => .inl heq, fun _ => rfl⟩
    rcases hp : getSuperClass classes c with _ | q
    · simp [Super, heq, hp]
    · have hlt := rank_getSuperClass hp
      simp [Super, heq, hp, ih (show rank classes q < fuel by omega)]

theorem isSubClass_iff : isSubClass classes c p = true ↔ SuperStar classes c p :=
  isSubClassLoop_iff (Nat.lt_succ_self _)

/-! ### Assignability -/

/-- `a` is a subtype of `b`. -/
abbrev Le (classes : ClassTable κ) (a b : Class κ) : Prop := isAssignableFrom classes b a = true

theorem Le.refl (a : Class κ) : Le classes a a := by
  unfold Le isAssignableFrom
  exact if_pos rfl

theorem le_object : Le classes a (named classes.object) ↔ a.isPrimitive = false := by
  unfold Le isAssignableFrom
  rw [if_pos (isObjectClass_iff.mpr rfl)]
  split_ifs with heq
  · subst heq
    simp [isPrimitive]
  · simp

theorem le_interface (hk : classes.isInterface k = true) :
    Le classes a (named k) ↔ a = named k ∨ named k ∈ getIfTable classes a := by
  have hobj : ¬isObjectClass classes (named k) = true := by
    rw [isObjectClass_iff]
    intro heq
    cases heq
    have hnot : isInterface classes (named classes.object) = false := object_not_interface
    rw [isInterface, hk] at hnot
    cases hnot
  have hint : isInterface classes (named k) = true := hk
  unfold Le isAssignableFrom
  rw [if_neg hobj, if_pos hint]
  split_ifs with heq
  · exact ⟨fun _ => .inl heq.symm, fun _ => rfl⟩
  · simp [implements, Ne.symm heq]

/-- Below a class other than `Object` are its subclasses, and no interface. -/
theorem le_class (hk : classes.isInterface k = false) (hobj : k ≠ classes.object) :
    Le classes a (named k) ↔ isInterface classes a = false ∧ SuperStar classes a (named k) := by
  have hobj' : ¬isObjectClass classes (named k) = true := by
    rw [isObjectClass_iff]
    intro heq
    cases heq
    exact hobj rfl
  have hint : ¬isInterface classes (named k) = true := Bool.not_eq_true _ ▸ hk
  unfold Le isAssignableFrom
  rw [if_neg hobj', if_neg hint]
  split_ifs with heq
  · subst heq
    exact ⟨fun _ => ⟨hk, .refl⟩, fun _ => rfl⟩
  cases a with
  | primitive => simp [isInterface, isSubClass_iff]
  | named l => simp [isSubClass_iff]
  | array c =>
    have hne : (getSuperClass classes (array c) == some (named k)) = false := by
      simpa [getSuperClass] using fun h => hobj h.symm
    simp only [hne, Bool.false_eq_true, false_iff]
    exact fun h => not_superStar_array hobj h.2

theorem le_array {d : Class κ} : Le classes a (array d) ↔ ∃ e, a = array e ∧ Le classes e d := by
  have hobj : ¬isObjectClass classes (array d) = true := by
    rw [isObjectClass_iff]
    exact fun h => nomatch h
  have hint : ¬isInterface classes (array d) = true := Bool.false_ne_true
  rw [Le, isAssignableFrom.eq_def, if_neg hobj, if_neg hint]
  split_ifs with heq
  · subst heq
    exact ⟨fun _ => ⟨d, rfl, Le.refl d⟩, fun _ => rfl⟩
  cases a with
  | primitive q | named l => simp [isSubClass_iff, not_superStar nofun heq]
  | array e => simp

theorem le_primitive {q : Primitive} : Le classes a (primitive q) ↔ a = primitive q := by
  have hobj : ¬isObjectClass classes (primitive q : Class κ) = true := Bool.false_ne_true
  have hint : ¬isInterface classes (primitive q : Class κ) = true := Bool.false_ne_true
  unfold Le isAssignableFrom
  rw [if_neg hobj, if_neg hint]
  split_ifs with heq
  · exact ⟨fun _ => heq.symm, fun _ => rfl⟩
  cases a with
  | primitive r => simpa [isSubClass_iff, not_superStar nofun heq] using fun h => heq (congrArg primitive h.symm)
  | named l => simp [isSubClass_iff, not_superStar nofun heq]
  | array e => simp [getSuperClass]

/-- What a supertype can be, with what makes it one. -/
theorem Le.cases (h : Le classes a b) :
    (a.isPrimitive = false ∧ b = named classes.object) ∨
    (∃ k, b = named k ∧ classes.isInterface k = true ∧ (a = named k ∨ named k ∈ getIfTable classes a)) ∨
    (∃ k, b = named k ∧ classes.isInterface k = false ∧ k ≠ classes.object ∧ isInterface classes a = false ∧
      SuperStar classes a (named k)) ∨
    (∃ d e, b = array d ∧ a = array e ∧ Le classes e d) ∨ ∃ q, b = primitive q ∧ a = primitive q := by
  cases b with
  | primitive q => exact .inr (.inr (.inr (.inr ⟨q, rfl, le_primitive.mp h⟩)))
  | array d =>
    obtain ⟨e, rfl, he⟩ := le_array.mp h
    exact .inr (.inr (.inr (.inl ⟨d, e, rfl, rfl, he⟩)))
  | named k =>
    by_cases hobj : k = classes.object
    · subst hobj
      exact .inl ⟨le_object.mp h, rfl⟩
    cases hk : classes.isInterface k with
    | true => exact .inr (.inl ⟨k, rfl, hk, (le_interface hk).mp h⟩)
    | false =>
      obtain ⟨hint, hstar⟩ := (le_class hk hobj).mp h
      exact .inr (.inr (.inl ⟨k, rfl, hk, hobj, hint, hstar⟩))

theorem Le.getIfTable (h : Le classes a b) : ∀ i ∈ getIfTable classes b, i ∈ getIfTable classes a := by
  rcases h.cases with ⟨-, rfl⟩ | ⟨k, rfl, -, rfl | hk⟩ | ⟨k, rfl, -, -, -, hstar⟩ | ⟨d, e, rfl, rfl, -⟩ | ⟨q, rfl, rfl⟩
  · intro i hi
    rw [Class.getIfTable, classes.ifTable_object] at hi
    cases hi
  · exact fun _ hi => hi
  · exact fun _ hi => getIfTable_trans hk hi
  · exact getIfTable_superStar hstar
  · exact fun _ hi => hi
  · exact fun _ hi => hi

/-- Only primitive types compare with primitive types. -/
theorem Le.isPrimitive (h : Le classes a b) : a.isPrimitive = b.isPrimitive := by
  rcases h.cases with ⟨ha, rfl⟩ | ⟨k, rfl, -, rfl | hk⟩ | ⟨k, rfl, -, -, -, hstar⟩ | ⟨d, e, rfl, rfl, -⟩ | ⟨q, rfl, rfl⟩
  · exact ha
  · rfl
  · cases a with
    | primitive => cases hk
    | named | array => rfl
  · cases a with
    | primitive =>
      rcases ReflTransGen.cases_head hstar with heq | ⟨_, hstep, -⟩
      · cases heq
      · cases hstep
    | named => rfl
    | array => rfl
  · rfl
  · rfl

/-- Assignability is transitive. -/
theorem Le.trans (h : Le classes a b) (h' : Le classes b c) : Le classes a c := by
  induction c generalizing a b with
  | primitive q =>
    obtain rfl := le_primitive.mp h'
    exact h
  | array d ih =>
    obtain ⟨e, rfl, he⟩ := le_array.mp h'
    obtain ⟨f, rfl, hf⟩ := le_array.mp h
    exact le_array.mpr ⟨f, rfl, ih hf he⟩
  | named k =>
    by_cases hobj : k = classes.object
    · subst hobj
      rw [le_object] at h' ⊢
      rw [h.isPrimitive, h']
    cases hk : classes.isInterface k with
    | true =>
      rw [le_interface hk] at h' ⊢
      rcases h' with rfl | hmem
      · exact (le_interface hk).mp h
      · exact .inr (h.getIfTable _ hmem)
    | false =>
      obtain ⟨hb, hstar⟩ := (le_class hk hobj).mp h'
      -- The class in the middle is neither an interface nor `Object`.
      rcases h.cases with ⟨-, rfl⟩ | ⟨l, rfl, hl, -⟩ | ⟨l, rfl, hl, -, ha, hstar'⟩ | ⟨d, e, rfl, rfl, -⟩ | ⟨q, rfl, rfl⟩
      · cases superStar_of_object hstar
        exact absurd rfl hobj
      · rw [isInterface, hl] at hb
        cases hb
      · exact (le_class hk hobj).mpr ⟨ha, hstar'.trans hstar⟩
      · exact absurd hstar (not_superStar_array hobj)
      · exact h'

/-- How far up a type is; every proper supertype is lower by this measure. -/
def height (classes : ClassTable κ) : Class κ → Nat
  | primitive _ => 0
  | named k => depth classes (named k) + (classes.ifTable k).toFinset.card
  | array c => height classes c + classes.arrayIfTable.toFinset.card + 2

theorem height_object : height classes (named classes.object) = 0 := by
  rw [height, depth_object, classes.ifTable_object]
  rfl

theorem height_interface (h : classes.isInterface k = true) :
    height classes (named k) = 1 + (classes.ifTable k).toFinset.card := by
  have hd := depth_getSuperClass (getSuperClass_interface (c := named k) h)
  rw [height, hd, depth_object]

theorem card_ifTable_lt {l : List κ} (hk : k ∈ l) (htrans : ∀ j ∈ classes.ifTable k, j ∈ l) :
    (classes.ifTable k).toFinset.card < l.toFinset.card := by
  refine Finset.card_lt_card ⟨fun j hj => ?_, fun hsub => ?_⟩
  · exact mem_toFinset.mpr (htrans j (mem_toFinset.mp hj))
  · exact classes.not_mem_ifTable_self k (mem_toFinset.mp (hsub (mem_toFinset.mpr hk)))

/-- A proper supertype is lower, so assignability is well founded. -/
theorem Le.height_lt (h : Le classes a b) (hne : a ≠ b) : height classes b < height classes a := by
  induction a generalizing b with
  | primitive q =>
    have hp := h.isPrimitive
    cases b with
    | primitive r => exact absurd (le_primitive.mp h) hne
    | named | array => cases hp
  | named l =>
    rcases h.cases with ⟨-, rfl⟩ | ⟨k, rfl, hk, heq | hmem⟩ | ⟨k, rfl, -, -, -, hstar⟩ | ⟨d, e, -, heq, -⟩ | ⟨q, -, heq⟩
    · have hl : l ≠ classes.object := fun heq => hne (congrArg named heq)
      have := depth_pos hl
      rw [height_object, height]
      omega
    · exact absurd heq hne
    · obtain ⟨j, hj, heq⟩ := mem_map.mp hmem
      cases heq
      have hl : l ≠ classes.object := by
        rintro rfl
        rw [classes.ifTable_object] at hj
        cases hj
      have hd := depth_pos hl
      have hcard := card_ifTable_lt hj fun i hi => classes.ifTable_trans hj hi
      rw [height_interface hk, height]
      omega
    · have hd := (depth_superStar hstar).resolve_left hne
      have hcard : (classes.ifTable k).toFinset.card ≤ (classes.ifTable l).toFinset.card := by
        refine Finset.card_le_card fun i hi => ?_
        have hmem := getIfTable_superStar hstar (named i) (mem_map_of_mem (mem_toFinset.mp hi))
        obtain ⟨j, hj, heq⟩ := mem_map.mp hmem
        cases heq
        exact mem_toFinset.mpr hj
      rw [height, height]
      omega
    · cases heq
    · cases heq
  | array c ih =>
    rcases h.cases with ⟨-, rfl⟩ | ⟨k, rfl, hk, heq | hmem⟩ | ⟨k, rfl, -, hobj, -, hstar⟩ | ⟨d, e, rfl, heq, hle⟩ |
      ⟨q, -, heq⟩
    · rw [height_object, height]
      omega
    · cases heq
    · obtain ⟨j, hj, heq⟩ := mem_map.mp hmem
      cases heq
      have hcard := card_ifTable_lt hj fun i hi => classes.arrayIfTable_trans hj hi
      rw [height_interface hk, height]
      omega
    · exact absurd hstar (not_superStar_array hobj)
    · cases heq
      have := ih hle fun heq => hne (congrArg array heq)
      rw [height, height]
      omega
    · cases heq

theorem Le.antisymm (h : Le classes a b) (h' : Le classes b a) : a = b := by
  by_contra hne
  exact lt_asymm (h.height_lt hne) (h'.height_lt (Ne.symm hne))

/-! ### The join -/

variable (hs : s.isPrimitive = false)

include hs in
/-- From two classes of one depth, the loop reaches their nearest common superclass. -/
theorem commonParent_spec {n : Nat} (ht : t.isPrimitive = false) (hsd : depth classes s = n)
    (htd : depth classes t = n) :
    SuperStar classes s (commonParent classes n s t) ∧ SuperStar classes t (commonParent classes n s t) ∧
      ∀ u, SuperStar classes s u → SuperStar classes t u → SuperStar classes (commonParent classes n s t) u := by
  induction n generalizing s t with
  | zero =>
    obtain rfl := eq_object_of_depth hs hsd
    obtain rfl := eq_object_of_depth ht htd
    exact ⟨.refl, .refl, fun u hu _ => hu⟩
  | succ n ih =>
    rw [commonParent]
    split_ifs with heq
    · subst heq
      exact ⟨.refl, .refl, fun u hu _ => hu⟩
    obtain ⟨p, hp, hpp, hpd⟩ := exists_superClass hsd
    obtain ⟨q, hq, hqp, hqd⟩ := exists_superClass htd
    obtain ⟨hps, hqs, hleast⟩ := ih hpp hqp hpd hqd
    rw [hp, hq, Option.getD_some, Option.getD_some]
    refine ⟨.head hp hps, .head hq hqs, fun u hu hu' => ?_⟩
    -- Neither of two different classes of one depth is above the other.
    have hsu : s ≠ u := by
      rintro rfl
      rcases depth_superStar hu' with rfl | hlt
      · exact heq rfl
      · omega
    have htu : t ≠ u := by
      rintro rfl
      rcases depth_superStar hu with rfl | hlt
      · exact heq rfl
      · omega
    exact hleast u (superStar_head hu hsu hp) (superStar_head hu' htu hq)

variable (classes) in
include hs in
/-- Going up to one depth first, the nearest common superclass of any two classes. -/
theorem commonParent_goUp_spec (ht : t.isPrimitive = false) :
    let up := commonParent classes (min (depth classes s) (depth classes t))
      (goUp classes (depth classes s - depth classes t) s) (goUp classes (depth classes t - depth classes s) t)
    SuperStar classes s up ∧ SuperStar classes t up ∧
      ∀ u, SuperStar classes s u → SuperStar classes t u → SuperStar classes up u := by
  intro up
  have hsd : depth classes s = min (depth classes s) (depth classes t) + (depth classes s - depth classes t) := by omega
  have htd : depth classes t = min (depth classes s) (depth classes t) + (depth classes t - depth classes s) := by omega
  obtain ⟨hs1, hs2, hs3, hs4⟩ := goUp_spec hs hsd
  obtain ⟨ht1, ht2, ht3, ht4⟩ := goUp_spec ht htd
  obtain ⟨h1, h2, h3⟩ := commonParent_spec hs2 ht2 hs3 ht3
  refine ⟨hs1.trans h1, ht1.trans h2, fun u hu hu' => ?_⟩
  have hdu : depth classes u ≤ min (depth classes s) (depth classes t) := by
    have hle : ∀ {c}, SuperStar classes c u → depth classes u ≤ depth classes c := fun h => by
      rcases depth_superStar h with rfl | hlt
      · exact Nat.le_refl _
      · exact hlt.le
    exact le_min (hle hu) (hle hu')
  exact h3 u (hs4 u hu hdu) (ht4 u hu' hdu)

theorem le_of_superStar (hp : s.isPrimitive = false) (hi : isInterface classes s = false) (h : SuperStar classes s u) :
    Le classes s u := by
  by_cases heq : s = u
  · subst heq
    exact Le.refl s
  obtain ⟨⟨k, rfl⟩, hk⟩ := superStar_named h heq
  by_cases hobj : k = classes.object
  · subst hobj
    exact le_object.mpr hp
  · exact (le_class hk hobj).mpr ⟨hi, h⟩

/-- The join with an interface is `Object` or an interface of both. -/
theorem interfaceClassJoin_cases (h : isInterface classes s = true ∨ isInterface classes t = true) :
    interfaceClassJoin classes s t = named classes.object ∨
      isInterface classes (interfaceClassJoin classes s t) = true ∧
        interfaceClassJoin classes s t ∈ getIfTable classes s ++ [s] ∧
        interfaceClassJoin classes s t ∈ getIfTable classes t ++ [t] := by
  rw [interfaceClassJoin]
  split
  · next i hi =>
    have hmem := mem_of_find?_eq_some hi
    have hcontains := find?_some hi
    simp only [contains_iff_mem, mem_filter, mem_reverse] at hmem hcontains
    exact .inr ⟨hmem.2, hmem.1, hcontains.1⟩
  · left
    split_ifs with hs
    · rw [getSuperClass_interface hs, Option.getD_some]
    · rw [getSuperClass_interface (h.resolve_left hs), Option.getD_some]

theorem le_of_mem_getIfTable (hi : isInterface classes u = true) (h : u ∈ getIfTable classes s ++ [s]) :
    Le classes s u := by
  cases u with
  | primitive | array => cases hi
  | named k =>
    rcases mem_append.mp h with hmem | hself
    · exact (le_interface hi).mpr (.inr hmem)
    · rw [mem_singleton.mp hself]
      exact Le.refl s

/-- The branches of the join for types of which neither is assignable to the other. -/
theorem classJoin_of_not_le (hst : ¬Le classes t s) (hts : ¬Le classes s t) (hs : s.isPrimitive = false)
    (ht : t.isPrimitive = false) :
    (∃ c d, s = array c ∧ t = array d ∧ (c.isPrimitive = true ∨ d.isPrimitive = true) ∧
      classJoin classes s t = named classes.object) ∨
    (∃ c d, s = array c ∧ t = array d ∧ c.isPrimitive = false ∧ d.isPrimitive = false ∧
      classJoin classes s t = array (classJoin classes c d)) ∨
    ((∀ c d, ¬(s = array c ∧ t = array d)) ∧ (isInterface classes s = true ∨ isInterface classes t = true) ∧
      classJoin classes s t = interfaceClassJoin classes s t) ∨
    ((∀ c d, ¬(s = array c ∧ t = array d)) ∧ isInterface classes s = false ∧ isInterface classes t = false ∧
      SuperStar classes s (classJoin classes s t) ∧ SuperStar classes t (classJoin classes s t) ∧
      ∀ u, SuperStar classes s u → SuperStar classes t u → SuperStar classes (classJoin classes s t) u) := by
  have hne : s ≠ t := fun heq => hst (heq ▸ Le.refl s)
  have hparent := commonParent_goUp_spec classes hs ht
  rw [classJoin.eq_def, if_neg hne, if_neg hst, if_neg hts]
  split
  · next c d =>
    split_ifs with hprim
    · exact .inl ⟨c, d, rfl, rfl, by simpa using hprim, rfl⟩
    · simp only [Bool.or_eq_true, not_or, Bool.not_eq_true] at hprim
      exact .inr (.inl ⟨c, d, rfl, rfl, hprim.1, hprim.2, rfl⟩)
  · next hnot =>
    have hnot' : ∀ c d, ¬(s = array c ∧ t = array d) := fun c d h => hnot c d h.1 h.2
    split_ifs with hint
    · exact .inr (.inr (.inl ⟨hnot', by simpa using hint, rfl⟩))
    · simp only [Bool.or_eq_true, not_or, Bool.not_eq_true] at hint
      exact .inr (.inr (.inr ⟨hnot', hint.1, hint.2, hparent⟩))

theorem classJoin_of_le (h : Le classes s t) : classJoin classes s t = t := by
  rw [classJoin.eq_def]
  split_ifs with heq hts
  · exact heq
  · exact Le.antisymm h hts
  · rfl

theorem classJoin_of_ge (h : Le classes t s) : classJoin classes s t = s := by
  rw [classJoin.eq_def]
  split_ifs with heq
  · rfl
  · rfl

include hs in
/-- The join is above both, when it is for their component types. -/
theorem le_classJoin_step (ht : t.isPrimitive = false)
    (ih : ∀ c d, s = array c → c.isPrimitive = false → d.isPrimitive = false →
      Le classes c (classJoin classes c d) ∧ Le classes d (classJoin classes c d)) :
    Le classes s (classJoin classes s t) ∧ Le classes t (classJoin classes s t) := by
  by_cases hst : Le classes t s
  · rw [classJoin_of_ge hst]
    exact ⟨Le.refl s, hst⟩
  by_cases hts : Le classes s t
  · rw [classJoin_of_le hts]
    exact ⟨hts, Le.refl t⟩
  rcases classJoin_of_not_le hst hts hs ht with
    ⟨c, d, rfl, rfl, -, hjoin⟩ | ⟨c, d, rfl, rfl, hc, hd, hjoin⟩ | ⟨-, hint, hjoin⟩ | ⟨-, hsi, hti, hsu, htu, -⟩
  · rw [hjoin]
    exact ⟨le_object.mpr rfl, le_object.mpr rfl⟩
  · rw [hjoin]
    obtain ⟨hle, hle'⟩ := ih c d rfl hc hd
    exact ⟨le_array.mpr ⟨c, rfl, hle⟩, le_array.mpr ⟨d, rfl, hle'⟩⟩
  · rw [hjoin]
    rcases interfaceClassJoin_cases hint with hobj | ⟨hi, hmem, hmem'⟩
    · rw [hobj]
      exact ⟨le_object.mpr hs, le_object.mpr ht⟩
    · exact ⟨le_of_mem_getIfTable hi hmem, le_of_mem_getIfTable hi hmem'⟩
  · exact ⟨le_of_superStar hs hsi hsu, le_of_superStar ht hti htu⟩

variable (classes) in
include hs in
theorem le_classJoin (ht : t.isPrimitive = false) :
    Le classes s (classJoin classes s t) ∧ Le classes t (classJoin classes s t) := by
  induction s generalizing t with
  | primitive => cases hs
  | named k => exact le_classJoin_step hs ht fun c d heq => nomatch heq
  | array c ih =>
    refine le_classJoin_step hs ht fun c' d heq hc hd => ?_
    cases heq
    exact ih hc hd

def elementType : Class κ → Class κ
  | array c => elementType c
  | c => c

/-- Apart from interfaces and arrays of them, the join is below every common supertype. -/
theorem classJoin_le (hs : Le classes s u) (ht : Le classes t u) (hp : u.isPrimitive = false)
    (hu : isInterface classes (elementType u) = false) : Le classes (classJoin classes s t) u := by
  induction u generalizing s t with
  | primitive => cases hp
  | named k =>
    have hsp := hs.isPrimitive
    have htp := ht.isPrimitive
    by_cases hobj : k = classes.object
    · subst hobj
      have hle := (le_classJoin classes hsp htp).1
      rw [le_object, ← hle.isPrimitive, hsp]
      rfl
    obtain ⟨hsi, hsu⟩ := (le_class hu hobj).mp hs
    obtain ⟨hti, htu⟩ := (le_class hu hobj).mp ht
    by_cases hst : Le classes t s
    · rwa [classJoin_of_ge hst]
    by_cases hts : Le classes s t
    · rwa [classJoin_of_le hts]
    rcases classJoin_of_not_le hst hts hsp htp with
      ⟨c, d, rfl, -⟩ | ⟨c, d, rfl, -⟩ | ⟨-, hint, -⟩ | ⟨-, -, -, hup, -, hleast⟩
    · exact absurd hsu (not_superStar_array hobj)
    · exact absurd hsu (not_superStar_array hobj)
    · rw [hsi, hti] at hint
      simp at hint
    · have hjp := (le_classJoin classes hsp htp).1.isPrimitive
      refine le_of_superStar (hjp.symm.trans hsp) ?_ (hleast _ hsu htu)
      by_cases heq : s = classJoin classes s t
      · rw [← heq, hsi]
      · exact (superStar_named hup heq).2
  | array e ih =>
    obtain ⟨c, rfl, hc⟩ := le_array.mp hs
    obtain ⟨d, rfl, hd⟩ := le_array.mp ht
    by_cases hst : Le classes (array d) (array c)
    · rwa [classJoin_of_ge hst]
    by_cases hts : Le classes (array c) (array d)
    · rwa [classJoin_of_le hts]
    have hprim := hc.isPrimitive.trans hd.isPrimitive.symm
    rcases classJoin_of_not_le hst hts rfl rfl with
      ⟨c', d', heq, heq', hp', -⟩ | ⟨c', d', heq, heq', hc', hd', hjoin⟩ | ⟨hnot, -⟩ | ⟨hnot, -⟩
    · -- Two arrays of primitives below one array are the same.
      cases heq
      cases heq'
      have hcp : c.isPrimitive = true := hp'.elim id hprim.trans
      cases e with
      | primitive q =>
        rw [le_primitive.mp hc, le_primitive.mp hd] at hst
        exact absurd (Le.refl _) hst
      | named | array => exact nomatch hcp.symm.trans hc.isPrimitive
    · cases heq
      cases heq'
      rw [hjoin]
      exact le_array.mpr ⟨_, rfl, ih hc hd (hc.isPrimitive.symm.trans hc') hu⟩
    · exact absurd ⟨rfl, rfl⟩ (hnot c d)
    · exact absurd ⟨rfl, rfl⟩ (hnot c d)

/-- Assignability is a partial order on the classes of every class table. -/
theorem isAssignableFrom_isPartialOrder (classes : ClassTable κ) :
    IsPartialOrder (Class κ) fun a b => isAssignableFrom classes b a = true where
  refl := Le.refl
  trans _ _ _ := Le.trans
  antisymm _ _ := Le.antisymm

end Class

end Art.Verifier
