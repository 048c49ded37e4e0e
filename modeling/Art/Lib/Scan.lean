import Mathlib.Logic.Basic

/-! Scanning a memory of bytes with a cursor. A scan keeps a log of the offsets that it reads, moves its cursor as it
    likes, and ends with a value, with a failure, or without either where its fuel is used up. `Scan.Triple` is a rule
    of pre- and postconditions for the cursor: where it holds, all reads are below a limit and the cursor stays within
    a slack beyond it. -/

namespace Art.Lib

/-- The end of a scan: a result, a reported failure, or no step left. -/
inductive ScanResult (α : Type)
  | done (a : α)
  | failed
  | stuck
  deriving DecidableEq, Repr

/-- The pointer of a scan, the addresses it read and the failure it reported. -/
structure ScanState where
  ptr : Nat
  reads : List Nat
  failureReason : String
  deriving DecidableEq, Repr

def Scan (α : Type) : Type := ScanState → ScanResult α × ScanState

namespace Scan

variable {α β : Type}

def pure (a : α) : Scan α := fun s => (.done a, s)

def bind (m : Scan α) (f : α → Scan β) : Scan β := fun s =>
  match m s with
  | (.done a, t) => f a t
  | (.failed, t) => (.failed, t)
  | (.stuck, t) => (.stuck, t)

instance : Monad Scan where
  pure := Scan.pure
  bind := Scan.bind

def fail : Scan α := fun s => (.failed, s)

def stuck : Scan α := fun s => (.stuck, s)

def setFailureReason (reason : String) : Scan Unit := fun s => (.done (), { s with failureReason := reason })

def error (reason : String) : Scan α := fun s => (.failed, { s with failureReason := reason })

def mapFailure (f : String → String) (m : Scan α) : Scan α := fun s =>
  match m s with
  | (.failed, t) => (.failed, { t with failureReason := f t.failureReason })
  | (r, t) => (r, t)

def getPtr : Scan Nat := fun s => (.done s.ptr, s)

def setPtr (p : Nat) : Scan Unit := fun s => (.done (), { s with ptr := p })

def readAt (memory : Nat → UInt8) (p : Nat) : Scan UInt8 := fun s =>
  (.done (memory p), { s with reads := p :: s.reads })

def require (test : Scan Bool) : Scan Unit := do
  if ← test then return () else fail

def repeatTimes (m : Scan Unit) : Nat → Scan Unit
  | 0 => return ()
  | n + 1 => do
    m
    repeatTimes m n

/-! ### Runs -/

section Runs

variable {m : Scan α} {f : α → Scan β} {s t : ScanState} {a : α}

theorem bind_of_done (h : m s = (.done a, t)) : (m >>= f) s = f a t := by
  change Scan.bind m f s = f a t
  rw [Scan.bind, h]

theorem bind_of_failed (h : m s = (.failed, t)) : (m >>= f) s = (.failed, t) := by
  change Scan.bind m f s = (.failed, t)
  rw [Scan.bind, h]

theorem bind_eq_done {b : β} : (m >>= f) s = (.done b, t) ↔ ∃ a u, m s = (.done a, u) ∧ f a u = (.done b, t) := by
  constructor
  · intro h
    change Scan.bind m f s = (.done b, t) at h
    unfold Scan.bind at h
    rcases hms : m s with ⟨a | _ | _, u⟩ <;> rw [hms] at h
    · exact ⟨a, u, rfl, h⟩
    · cases h
    · cases h
  · rintro ⟨a, u, hm, hf⟩
    rwa [bind_of_done hm]

theorem bind_assoc {γ : Type} (m : Scan α) (f : α → Scan β) (g : β → Scan γ) :
    (m >>= f) >>= g = m >>= fun a => f a >>= g := by
  funext s
  change Scan.bind (Scan.bind m f) g s = Scan.bind m (fun a => Scan.bind (f a) g) s
  simp only [Scan.bind]
  rcases m s with ⟨_ | _ | _, t⟩ <;> rfl

/-- A scan does not forget what has been read. -/
def Grows (m : Scan α) : Prop := ∀ s, ∀ p ∈ s.reads, p ∈ (m s).2.reads

theorem mem_reads_bind {p : Nat} (hp : p ∈ (m s).2.reads) (hf : ∀ a, Grows (f a)) : p ∈ ((m >>= f) s).2.reads := by
  change p ∈ (Scan.bind m f s).2.reads
  unfold Scan.bind
  rcases hms : m s with ⟨_ | _ | _, t⟩ <;> rw [hms] at hp
  · exact hf _ t p hp
  · exact hp
  · exact hp

theorem Grows.bind (hm : Grows m) (hf : ∀ a, Grows (f a)) : Grows (m >>= f) :=
  fun s p hp => mem_reads_bind (hm s p hp) hf

theorem Grows.ite {c : Prop} [Decidable c] {m' : Scan α} (hm : Grows m) (hm' : Grows m') :
    Grows (if c then m else m') := by
  split
  · exact hm
  · exact hm'

theorem grows_pure (a : α) : Grows (Pure.pure a : Scan α) := fun _ _ hp => hp

theorem grows_error (reason : String) : Grows (error reason : Scan α) := fun _ _ hp => hp

theorem grows_getPtr : Grows getPtr := fun _ _ hp => hp

theorem grows_setPtr (p : Nat) : Grows (setPtr p) := fun _ _ hp => hp

theorem grows_readAt (memory : Nat → UInt8) (p : Nat) : Grows (readAt memory p) :=
  fun _ _ hp => List.mem_cons_of_mem _ hp

end Runs

/-! ### Pre- and postconditions -/

/-- All reads are below the limit, and the cursor is not far beyond it. -/
structure Within (limit slack : Nat) (s : ScanState) : Prop where
  reads : ∀ p ∈ s.reads, p < limit
  cursor : s.ptr ≤ limit + slack

/-- From a cursor with `P`, the scan stays within the limit, is not stuck, and ends with a value and a cursor for which
    `Q` holds, or fails. -/
def Triple (limit slack : Nat) (P : Nat → Prop) (m : Scan α) (Q : α → Nat → Prop) : Prop :=
  ∀ s, Within limit slack s → P s.ptr →
    Within limit slack (m s).2 ∧ (m s).1 ≠ .stuck ∧ ∀ a, (m s).1 = .done a → Q a (m s).2.ptr

namespace Triple

variable {limit slack : Nat} {P P' : Nat → Prop} {Q : α → Nat → Prop} {R : β → Nat → Prop} {m : Scan α}

theorem pure {a : α} (h : ∀ p, P p → Q a p) : Triple limit slack P (Pure.pure a : Scan α) Q := by
  intro s hs hp
  refine ⟨hs, nofun, fun b hb => ?_⟩
  obtain rfl : a = b := ScanResult.done.inj hb
  exact h _ hp

theorem bind {f : α → Scan β} (hm : Triple limit slack P m Q) (hf : ∀ a, Triple limit slack (Q a) (f a) R) :
    Triple limit slack P (m >>= f) R := by
  intro s hs hp
  obtain ⟨hwithin, hstuck, hdone⟩ := hm s hs hp
  have heq : (m >>= f) s = Scan.bind m f s := rfl
  rw [heq, Scan.bind]
  rcases hms : m s with ⟨_ | _ | _, t⟩
  · rw [hms] at hwithin hdone
    exact hf _ t hwithin (hdone _ rfl)
  · rw [hms] at hwithin
    exact ⟨hwithin, nofun, nofun⟩
  · rw [hms] at hstuck
    exact absurd rfl hstuck

theorem conseq (hm : Triple limit slack P m Q) (hpre : ∀ p, P' p → P p) {Q' : α → Nat → Prop}
    (hpost : ∀ a p, Q a p → Q' a p) : Triple limit slack P' m Q' := by
  intro s hs hp
  obtain ⟨hwithin, hstuck, hdone⟩ := hm s hs (hpre _ hp)
  exact ⟨hwithin, hstuck, fun a ha => hpost a _ (hdone a ha)⟩

theorem of_imp {h : Prop} (hm : h → Triple limit slack P m Q) : Triple limit slack (fun p => h ∧ P p) m Q :=
  fun s hs hp => hm hp.1 s hs hp.2

theorem of_forall (hm : ∀ p, P p → Triple limit slack (· = p) m Q) : Triple limit slack P m Q :=
  fun s hs hp => hm _ hp s hs rfl

theorem fail : Triple limit slack P (Scan.fail : Scan α) Q := by
  intro s hs _
  exact ⟨hs, nofun, nofun⟩

theorem error (reason : String) : Triple limit slack P (Scan.error reason : Scan α) Q := by
  intro s hs _
  exact ⟨⟨hs.reads, hs.cursor⟩, nofun, nofun⟩

theorem setFailureReason (reason : String) : Triple limit slack P (Scan.setFailureReason reason) fun _ => P := by
  intro s hs hp
  exact ⟨⟨hs.reads, hs.cursor⟩, nofun, fun _ _ => hp⟩

theorem mapFailure {f : String → String} (hm : Triple limit slack P m Q) :
    Triple limit slack P (Scan.mapFailure f m) Q := by
  intro s hs hp
  obtain ⟨hwithin, hstuck, hdone⟩ := hm s hs hp
  unfold Scan.mapFailure
  rcases hms : m s with ⟨_ | _ | _, t⟩ <;> rw [hms] at hwithin hstuck hdone
  · exact ⟨hwithin, hstuck, hdone⟩
  · exact ⟨⟨hwithin.reads, hwithin.cursor⟩, nofun, nofun⟩
  · exact absurd rfl hstuck

theorem getPtr_bind {f : Nat → Scan β} (h : ∀ p, P p → Triple limit slack (· = p) (f p) R) :
    Triple limit slack P (Scan.getPtr >>= f) R :=
  fun s hs hp => h s.ptr hp s hs rfl

theorem setPtr {p : Nat} {Q : Nat → Prop} (hp : p ≤ limit + slack) (hq : Q p) :
    Triple limit slack P (Scan.setPtr p) fun _ => Q := by
  intro s hs _
  exact ⟨⟨hs.reads, hp⟩, nofun, fun _ _ => hq⟩

theorem readAt_bind {memory : Nat → UInt8} {p : Nat} {f : UInt8 → Scan β} (hp : p < limit)
    (h : Triple limit slack P (f (memory p)) R) : Triple limit slack P (Scan.readAt memory p >>= f) R := by
  intro s hs hP
  refine h { s with reads := p :: s.reads } ⟨?_, hs.cursor⟩ hP
  intro q hq
  rcases List.mem_cons.mp hq with rfl | hq
  · exact hp
  · exact hs.reads q hq

theorem require {test : Scan Bool} {Q : Bool → Nat → Prop} (ht : Triple limit slack P test Q) :
    Triple limit slack P (Scan.require test) fun _ => Q true := by
  refine ht.bind fun b => ?_
  cases b
  · exact fail
  · exact pure fun _ hp => hp

theorem repeatTimes {m : Scan Unit} (hm : Triple limit slack P m fun _ => P) (n : Nat) :
    Triple limit slack P (Scan.repeatTimes m n) fun _ => P := by
  induction n with
  | zero => exact pure fun _ hp => hp
  | succ n ih => exact hm.bind fun _ => ih

theorem ite {c : Prop} [Decidable c] {m' : Scan α} (hm : c → Triple limit slack P m Q)
    (hm' : ¬ c → Triple limit slack P m' Q) : Triple limit slack P (if c then m else m') Q := by
  split
  next h => exact hm h
  next h => exact hm' h

end Triple

end Scan

end Art.Lib
