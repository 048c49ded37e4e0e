import Art.Runtime.InternTable
import Mathlib.Data.List.Nodup
import Mathlib.Data.List.Perm.Basic

/-! # Changes to the intern table and their inverses

As long as a table holds one string per contents, inserting and removing act on the table as a set of
strings, wherever the strings sit in the vector of hash sets. -/

namespace Art.Interns
open List

theorem Str.equals_self (s : Str) : s.equals s = true := beq_self_eq_true s.contents

namespace Table

variable {t t' : Table} {s : Str}

/-- No two strings of the table have the same contents. -/
def Canonical (t : Table) : Prop := (t.strings.map Str.contents).Nodup

/-- No string of the table has the contents of `s`. -/
def Lacks (t : Table) (s : Str) : Prop := s.contents ∉ t.strings.map Str.contents

theorem strings_eq (t : Table) : t.strings = t.frozen.flatten ++ t.active := by
  simp [strings, tables]

theorem strings_insert (t : Table) (s : Str) : (t.insert s).strings ~ s :: t.strings := by
  rw [strings_eq, strings_eq]
  exact perm_middle

theorem removeFirst_eq_none {sets : List (List Str)} (h : removeFirst sets s = none) :
    ∀ x ∈ sets.flatten, ¬s.equals x = true := by
  induction sets with
  | nil => simp
  | cons set rest ih =>
    unfold removeFirst at h
    split at h
    · cases h
    rename_i hany
    intro x hx
    rcases mem_append.mp (flatten_cons ▸ hx) with hx | hx
    · exact fun heq => hany (any_eq_true.mpr ⟨x, hx, heq⟩)
    · exact ih (by simpa using h) x hx

/-- Removing from the first set that has an equal string erases the first equal string. -/
theorem removeFirst_eq_some {sets sets' : List (List Str)} (h : removeFirst sets s = some sets') :
    (∃ x ∈ sets.flatten, s.equals x = true) ∧ sets'.flatten = sets.flatten.eraseP s.equals := by
  induction sets generalizing sets' with
  | nil => cases h
  | cons set rest ih =>
    unfold removeFirst at h
    rw [flatten_cons]
    split at h
    · rename_i hany
      obtain ⟨x, hx, heq⟩ := any_eq_true.mp hany
      cases h
      exact ⟨⟨x, mem_append_left _ hx, heq⟩, by rw [flatten_cons, eraseP_append_left heq _ hx]⟩
    · rename_i hany
      obtain ⟨rest', hrest, rfl⟩ := Option.map_eq_some_iff.mp h
      obtain ⟨⟨x, hx, heq⟩, hflatten⟩ := ih hrest
      refine ⟨⟨x, mem_append_right _ hx, heq⟩, ?_⟩
      rw [flatten_cons, hflatten, eraseP_append_right]
      exact fun y hy hy' => hany (any_eq_true.mpr ⟨y, hy, hy'⟩)

theorem strings_remove (h : t.remove s = some t') : t'.strings = t.strings.eraseP s.equals := by
  unfold remove at h
  rw [strings_eq, strings_eq]
  split at h
  · rename_i frozen hfrozen
    obtain ⟨⟨x, hx, heq⟩, hflatten⟩ := removeFirst_eq_some hfrozen
    cases h
    rw [eraseP_append_left heq _ hx, ← hflatten]
  · rename_i hnone
    split at h
    · cases h
      rw [eraseP_append_right _ (removeFirst_eq_none hnone)]
    · cases h

theorem remove_isSome (h : s ∈ t.strings) : (t.remove s).isSome := by
  unfold remove
  split
  · rfl
  rename_i hnone
  rw [strings_eq, mem_append] at h
  rcases h with h | h
  · exact absurd s.equals_self (removeFirst_eq_none hnone s h)
  · rw [if_pos (any_eq_true.mpr ⟨s, h, s.equals_self⟩)]
    rfl

theorem eraseP_equals {strings : List Str} (hc : (strings.map Str.contents).Nodup) (hs : s ∈ strings) :
    strings.eraseP s.equals = strings.erase s := by
  induction strings with
  | nil => cases hs
  | cons x rest ih =>
    rw [map_cons, nodup_cons] at hc
    by_cases hx : x = s
    · subst hx
      rw [eraseP_cons_of_pos x.equals_self, erase_cons_head]
    have hs' : s ∈ rest := (mem_cons.mp hs).resolve_left fun h => hx h.symm
    have hne : ¬s.equals x = true := by
      intro heq
      have heq : s.contents = x.contents := by simpa [Str.equals] using heq
      exact hc.1 (heq ▸ mem_map_of_mem hs')
    rw [eraseP_cons_of_neg hne, erase_cons_tail (by simpa using hx), ih hc.2 hs']

theorem remove_perm (hc : t.Canonical) (hs : s ∈ t.strings) :
    ∃ t', t.remove s = some t' ∧ t.strings ~ s :: t'.strings := by
  obtain ⟨t', ht'⟩ := Option.isSome_iff_exists.mp (remove_isSome hs)
  refine ⟨t', ht', ?_⟩
  rw [strings_remove ht', eraseP_equals hc hs]
  exact perm_cons_erase hs

theorem Canonical.perm (hc : t.Canonical) (h : t'.strings ~ t.strings) : t'.Canonical :=
  (h.map Str.contents).nodup_iff.mpr hc

theorem Canonical.insert (hc : t.Canonical) (hs : t.Lacks s) : (t.insert s).Canonical := by
  refine ((t.strings_insert s).map Str.contents).nodup_iff.mpr ?_
  rw [map_cons, nodup_cons]
  exact ⟨hs, hc⟩

theorem Canonical.remove (hc : t.Canonical) (h : t.strings ~ s :: t'.strings) : t'.Canonical := by
  have := (h.map Str.contents).nodup_iff.mp hc
  rw [map_cons, nodup_cons] at this
  exact this.2

end Table

namespace InternTable

variable {t t₁ t₂ : InternTable} {a : Action}

def Canonical (t : InternTable) : Prop := t.strong.Canonical ∧ t.weak.Canonical

/-- The same strong and the same weak strings. -/
def Same (t t' : InternTable) : Prop := t.strong.strings ~ t'.strong.strings ∧ t.weak.strings ~ t'.weak.strings

/-- What the callers of the recorded changes have checked: inserted contents are new to the table, and
    removed strings are in it. -/
def Admits (t : InternTable) : Action → Prop
  | .insertStrong s => t.strong.Lacks s
  | .insertWeak s => t.weak.Lacks s
  | .removeWeak s => s ∈ t.weak.strings

theorem Same.refl (t : InternTable) : t.Same t := ⟨.refl _, .refl _⟩

theorem Canonical.same (h : t.Canonical) (hs : t₁.Same t) : t₁.Canonical := ⟨h.1.perm hs.1, h.2.perm hs.2⟩

theorem apply_canonical (h : t.Canonical) (ha : t.Admits a) : ∃ t₁, t.apply a = some t₁ ∧ t₁.Canonical := by
  obtain ⟨hstrong, hweak⟩ := h
  cases a with
  | insertStrong s => exact ⟨_, rfl, hstrong.insert ha, hweak⟩
  | insertWeak s => exact ⟨_, rfl, hstrong, hweak.insert ha⟩
  | removeWeak s =>
    obtain ⟨weak, hremove, hperm⟩ := Table.remove_perm hweak ha
    exact ⟨{ t with weak }, by simp [apply, removeWeak, hremove], hstrong, hweak.remove hperm⟩

/-- Every change is admitted by the table it is made to. -/
def AdmitsAll (t : InternTable) : List Action → Prop
  | [] => True
  | a :: as => t.Admits a ∧ ∀ t₁, t.apply a = some t₁ → t₁.AdmitsAll as

end InternTable

end Art.Interns
