import Mathlib.Data.List.Basic

/-! # The intern table

The strong and weak tables of `runtime/intern_table.cc`. A table is a vector of hash sets of strings;
strings are found by their contents, new ones go to the last set, and removal looks at the sets from the
first one on. Hash codes only speed up the lookups and are left out. -/

namespace Art.Interns

/-- A `mirror::String`: the object and its UTF-16 contents. -/
structure Str where
  id : Nat
  contents : List Nat
  deriving DecidableEq

def Str.equals (a b : Str) : Bool := a.contents == b.contents

/-- `tables_`, which is never empty, with its last set apart. -/
structure Table where
  frozen : List (List Str)
  active : List Str

namespace Table

def tables (t : Table) : List (List Str) := t.frozen ++ [t.active]

def strings (t : Table) : List Str := t.tables.flatten

def insert (t : Table) (s : Str) : Table := { t with active := s :: t.active }

/-- Remove from the first of the sets that has an equal string. -/
def removeFirst : List (List Str) → Str → Option (List (List Str))
  | [], _ => none
  | set :: rest, s =>
    if set.any s.equals then some (set.eraseP s.equals :: rest) else (removeFirst rest s).map (set :: ·)

/-- `Remove`; removing a string that is not interned is fatal. -/
def remove (t : Table) (s : Str) : Option Table :=
  match removeFirst t.frozen s with
  | some frozen => some { t with frozen }
  | none => if t.active.any s.equals then some { t with active := t.active.eraseP s.equals } else none

end Table

/-- The strong and the weak interns. -/
structure InternTable where
  strong : Table
  weak : Table

/-- A change of the tables that a transaction can undo. -/
inductive Action
  | insertStrong (s : Str)
  | insertWeak (s : Str)
  | removeWeak (s : Str)

namespace InternTable

def insertStrong (t : InternTable) (s : Str) : InternTable := { t with strong := t.strong.insert s }

def insertWeak (t : InternTable) (s : Str) : InternTable := { t with weak := t.weak.insert s }

def removeStrong (t : InternTable) (s : Str) : Option InternTable :=
  (t.strong.remove s).map fun strong => { t with strong }

def removeWeak (t : InternTable) (s : Str) : Option InternTable :=
  (t.weak.remove s).map fun weak => { t with weak }

def apply (t : InternTable) : Action → Option InternTable
  | .insertStrong s => some (t.insertStrong s)
  | .insertWeak s => some (t.insertWeak s)
  | .removeWeak s => t.removeWeak s

end InternTable

/-! ### Interning by several threads -/

namespace Table

/-- Both `Find`s compare the contents, here past the frozen tables that have been searched. -/
def findContents (t : Table) (contents : List Nat) (numSearchedFrozenTables : Nat) : Option Str :=
  (t.tables.drop numSearchedFrozenTables).reverse.findSome? (·.find? fun s => s.contents == contents)

def addNewTable (t : Table) : Table := ⟨t.tables, []⟩

/-- Insert before the last table, since new interns go to the back. -/
def addInternStrings (t : Table) (internStrings : List Str) : Table :=
  { t with frozen := t.frozen ++ [internStrings] }

def sweepWeaks (t : Table) (isMarked : Str → Option Str) : Table :=
  ⟨t.frozen.map (·.filterMap isMarked), t.active.filterMap isMarked⟩

end Table

/-- The end of `Insert`, for a string without a match in the strong table. -/
def InternTable.insertMissing (t : InternTable) (s : Str) (isStrong : Bool) : Option (InternTable × Str) :=
  match t.weak.findContents s.contents 0 with
  | some weak => if isStrong then (t.removeWeak weak).map fun t => (t.insertStrong weak, weak) else some (t, weak)
  | none => some (if isStrong then t.insertStrong s else t.insertWeak s, s)

/-- A call of `Insert` that waits for the lock. -/
structure Request where
  contents : List Nat
  isStrong : Bool
  numSearchedStrongFrozenTables : Nat
  deriving DecidableEq

/-- The table with the requests of the threads. -/
structure Interning where
  table : InternTable
  requests : List Request

/-- What a thread does while it holds `intern_table_lock_`. -/
inductive Op
  /-- The lookup of `InternStrong(utf16_length, utf8_data)`. -/
  | lookup (contents : List Nat)
  /-- A turn of the loop in `Insert`; `accessible` says that weak roots may be read. -/
  | insert (request : Request) (s : Str) (accessible : Bool)
  | addNewTable
  /-- The visitor says which strings stay. -/
  | addTableFromMemory (set : List Str) (visitor : Str → Bool)
  | sweepWeaks (isMarked : Str → Option Str)

namespace Interning

/-- The table at the start has one set for strong and one for weak interns. -/
def start : Interning := ⟨⟨⟨[], []⟩, ⟨[], []⟩⟩, []⟩

/-- Wait with the frozen strong tables of now as those that have been searched. -/
def await (st : Interning) (contents : List Nat) (isStrong : Bool) : Interning :=
  { st with requests := ⟨contents, isStrong, st.table.strong.frozen.length⟩ :: st.requests }

/-- The state afterwards and the interned string that is returned; nothing after a fatal error. -/
def step (st : Interning) : Op → Option (Interning × Option Str)
  | .lookup contents =>
    match st.table.strong.findContents contents 0 with
    | some s => some (st, some s)
    | none => some (st.await contents true, none)
  | .insert request s accessible =>
    match st.table.strong.findContents s.contents request.numSearchedStrongFrozenTables with
    | some strong => some (st, some strong)
    | none =>
      if accessible then
        (st.table.insertMissing s request.isStrong).map fun result => ({ st with table := result.1 }, some result.2)
      else some (st.await s.contents request.isStrong, none)
  | .addNewTable => some ({ st with table := ⟨st.table.strong.addNewTable, st.table.weak.addNewTable⟩ }, none)
  | .addTableFromMemory set visitor =>
    let set := set.filter visitor
    if set.isEmpty then some (st, none)
    else some ({ st with table := { st.table with strong := st.table.strong.addInternStrings set } }, none)
  | .sweepWeaks isMarked =>
    some ({ st with table := { st.table with weak := st.table.weak.sweepWeaks isMarked } }, none)

end Interning

end Art.Interns
