import Mathlib.Data.Option.Basic

/-! Resolved classes (`mirror/class-inl.h`): assignability, and the join of the verifier
    (`ClassJoin` of `verifier/reg_type.cc`). A class is known by its name and its class loader, an array class
    by its component type. -/

namespace Art.Verifier

/-- The primitive types. -/
inductive Primitive
  | boolean | byte | char | short | int | long | float | double | void
  deriving DecidableEq, Repr

/-- A class: primitive, named or of arrays. -/
inductive Class (κ : Type)
  | primitive (type : Primitive)
  /-- A class or an interface. -/
  | named (name : κ)
  | array (componentType : Class κ)
  deriving DecidableEq, Repr

/-- Linked classes. The interface table of a class lists the interfaces it implements itself or inherits, with
    all their superinterfaces. -/
structure ClassTable (κ : Type) where
  /-- `java.lang.Object` -/
  object : κ
  superClass : κ → Option κ
  isInterface : κ → Bool
  ifTable : κ → List κ
  /-- The interface table of all arrays. -/
  arrayIfTable : List κ
  /-- There is no cycle of superclasses. -/
  rank : κ → Nat
  rank_superClass : ∀ {k p}, superClass k = some p → rank p < rank k
  superClass_eq_none : ∀ {k}, superClass k = none ↔ k = object
  superClass_isInterface : ∀ {k p}, superClass k = some p → isInterface p = false
  superClass_interface : ∀ {k}, isInterface k = true → superClass k = some object
  ifTable_object : ifTable object = []
  ifTable_isInterface : ∀ {k i}, i ∈ ifTable k → isInterface i = true
  ifTable_superClass : ∀ {k p i}, superClass k = some p → i ∈ ifTable p → i ∈ ifTable k
  ifTable_trans : ∀ {k i j}, i ∈ ifTable k → j ∈ ifTable i → j ∈ ifTable k
  not_mem_ifTable_self : ∀ k, k ∉ ifTable k
  arrayIfTable_isInterface : ∀ {i}, i ∈ arrayIfTable → isInterface i = true
  arrayIfTable_trans : ∀ {i j}, i ∈ arrayIfTable → j ∈ ifTable i → j ∈ arrayIfTable

namespace Class

variable {κ : Type}

def isPrimitive : Class κ → Bool
  | primitive _ => true
  | _ => false

variable (classes : ClassTable κ)

def getSuperClass : Class κ → Option (Class κ)
  | primitive _ => none
  | named k => (classes.superClass k).map named
  | array _ => some (named classes.object)

def isObjectClass (c : Class κ) : Bool := !c.isPrimitive && (getSuperClass classes c).isNone

def isInterface : Class κ → Bool
  | named k => classes.isInterface k
  | _ => false

def getIfTable : Class κ → List (Class κ)
  | primitive _ => []
  | named k => (classes.ifTable k).map named
  | array _ => classes.arrayIfTable.map named

/-- Enough for loops over the superclasses. -/
def rank : Class κ → Nat
  | primitive _ => 0
  | named k => classes.rank k
  | array _ => classes.rank classes.object + 1

@[grind =] def depthLoop : Nat → Class κ → Nat
  | 0, _ => 0
  | fuel + 1, c =>
    match getSuperClass classes c with
    | none => 0
    | some p => depthLoop fuel p + 1

def depth (c : Class κ) : Nat := depthLoop classes (rank classes c) c

variable [DecidableEq κ]

def implements (c klass : Class κ) : Bool := (getIfTable classes c).contains klass

@[grind =] def isSubClassLoop (klass : Class κ) : Nat → Class κ → Bool
  | 0, _ => false
  | fuel + 1, current =>
    if current = klass then true
    else
      match getSuperClass classes current with
      | none => false
      | some p => isSubClassLoop klass fuel p

def isSubClass (c klass : Class κ) : Bool := isSubClassLoop classes klass (rank classes c + 1) c

/-- `IsAssignableFrom`, with the array cases of `IsAssignableFromArray`. -/
@[grind =] def isAssignableFrom (c src : Class κ) : Bool :=
  if c = src then true
  else if isObjectClass classes c then !src.isPrimitive
  else if isInterface classes c then implements classes src c
  else
    match c, src with
    | array componentType, array srcComponentType => isAssignableFrom componentType srcComponentType
    | _, array _ => getSuperClass classes src == some c
    | _, _ => !isInterface classes src && isSubClass classes src c

def goUp : Nat → Class κ → Class κ
  | 0, c => c
  | n + 1, c => goUp n ((getSuperClass classes c).getD c)

/-- The loop up to the common parent of two classes of the same depth. -/
def commonParent : Nat → Class κ → Class κ → Class κ
  | 0, s, _ => s
  | fuel + 1, s, t =>
    if s = t then s else commonParent fuel ((getSuperClass classes s).getD s) ((getSuperClass classes t).getD t)

/-- `InterfaceClassJoin`: the first common interface from the end of the interface tables, each with the
    class itself behind it. -/
def interfaceClassJoin (s t : Class κ) : Class κ :=
  let candidates (c : Class κ) := (getIfTable classes c ++ [c]).reverse.filter (isInterface classes)
  match (candidates s).find? fun i => (candidates t).contains i with
  | some i => i
  | none => (if isInterface classes s then getSuperClass classes s else getSuperClass classes t).getD s

/-- `ClassJoin`, where the class of an array can always be found. -/
def classJoin (s t : Class κ) : Class κ :=
  if s = t then s
  else if isAssignableFrom classes s t then s
  else if isAssignableFrom classes t s then t
  else
    match s, t with
    | array sComponentType, array tComponentType =>
      -- `ArrayClassJoin`
      if sComponentType.isPrimitive || tComponentType.isPrimitive then (getSuperClass classes s).getD s
      else array (classJoin sComponentType tComponentType)
    | _, _ =>
      if isInterface classes s || isInterface classes t then interfaceClassJoin classes s t
      else
        let sDepth := depth classes s
        let tDepth := depth classes t
        commonParent classes (min sDepth tDepth) (goUp classes (sDepth - tDepth) s) (goUp classes (tDepth - sDepth) t)

end Class

end Art.Verifier
