import Mathlib.Data.List.Basic

/-! Computations that may fail: what it means that a sequence of them returns, and when it does. -/

namespace Art.Lib

variable {ε α β : Type}

theorem bind_eq_ok {x : Except ε α} {f : α → Except ε β} {b : β} : x >>= f = .ok b ↔ ∃ a, x = .ok a ∧ f a = .ok b := by
  cases x with
  | error e => exact ⟨fun h => (nomatch h), fun ⟨_, h, _⟩ => (nomatch h)⟩
  | ok a => exact ⟨fun h => ⟨a, rfl, h⟩, fun ⟨_, h, h'⟩ => Except.ok.inj h ▸ h'⟩

theorem ok_bind (a : α) (f : α → Except ε β) : (Except.ok a >>= f) = f a := rfl

theorem return_eq_ok {a b : α} : (return a : Except ε α) = .ok b ↔ a = b :=
  ⟨fun h => Except.ok.inj h, fun h => congrArg _ h⟩

/-- What a computation returns, if it returns, has the property. -/
def Ensures (x : Except ε α) (P : α → Prop) : Prop := ∀ a, x = .ok a → P a

namespace Ensures

variable {x : Except ε α} {f : α → Except ε β} {a : α} {P : α → Prop} {Q : β → Prop}

theorem of_error (e : ε) : Ensures (.error e) P := by
  rintro _ ⟨⟩

theorem of_ok (h : P a) : Ensures (.ok a : Except ε α) P := by
  rintro _ ⟨⟩
  exact h

theorem bind (h : Ensures x P) (h' : ∀ a, P a → Ensures (f a) Q) : Ensures (x >>= f) Q := by
  intro b hb
  obtain ⟨a, hx, hf⟩ := bind_eq_ok.mp hb
  exact h' a (h a hx) b hf

theorem mono {Q : α → Prop} (h : Ensures x P) (himp : ∀ a, P a → Q a) : Ensures x Q :=
  fun a ha => himp a (h a ha)

theorem trivial (x : Except ε α) : Ensures x fun _ => True := fun _ _ => True.intro

end Ensures

/-- A computation returns `v` if `good` holds, and fails otherwise. -/
def Yields (x : Except ε α) (v : α) (good : Prop) : Prop := (good → x = .ok v) ∧ (¬good → ∃ e, x = .error e)

namespace Yields

variable {x : Except ε α} {f : α → Except ε β} {v : α} {w : β} {good good' : Prop}

theorem of_error (hbad : ¬good) (h : ∃ e, x = .error e) : Yields x v good := ⟨fun hg => absurd hg hbad, fun _ => h⟩

theorem of_ok (hgood : good) (h : x = .ok v) : Yields x v good := ⟨fun _ => h, fun hbad => absurd hgood hbad⟩

theorem bind (h : Yields x v good) (h' : good → Yields (f v) w good') : Yields (x >>= f) w (good ∧ good') := by
  by_cases hg : good
  · rw [h.1 hg]
    exact ⟨fun h'' => (h' hg).1 h''.2, fun hbad => (h' hg).2 fun hg' => hbad ⟨hg, hg'⟩⟩
  · obtain ⟨e, rfl⟩ := h.2 hg
    exact of_error (fun h'' => hg h''.1) ⟨e, rfl⟩

theorem after (h : x = .ok v) (h' : Yields (f v) w good) : Yields (x >>= f) w good := by
  rw [h]
  exact h'

theorem then_ok (h : Yields x v good) (h' : f v = .ok w) : Yields (x >>= f) w good := by
  refine ⟨fun hg => ?_, fun hbad => ?_⟩
  · rw [h.1 hg]
    exact h'
  · obtain ⟨e, rfl⟩ := h.2 hbad
    exact ⟨e, rfl⟩

theorem congr (h : Yields x v good) (hiff : good ↔ good') : Yields x v good' :=
  ⟨fun hg => h.1 (hiff.mpr hg), fun hbad => h.2 fun hg => hbad (hiff.mp hg)⟩

end Yields

end Art.Lib
