import Mathlib.Data.List.AList
import Mathlib.Tactic.SplitIfs

/-! First-write-wins undo logs over places that belong to owners: the log keeps one entry per place,
    made from what the place held before its first write, and undoing writes every entry back. -/

namespace Art.Lib
open List

abbrev UndoLog (α β γ : Type) := AList fun _ : α => AList fun _ : β => γ

namespace UndoLog

variable {α β γ : Type} [DecidableEq α] [DecidableEq β]

def find (log : UndoLog α β γ) (a : α) (b : β) : Option γ := (log.lookup a).bind (AList.lookup b)

def logValue (log : UndoLog α β γ) (a : α) (b : β) (entry : γ) : UndoLog α β γ :=
  let entries := (log.lookup a).getD ∅
  log.insert a (if (entries.lookup b).isSome then entries else entries.insert b entry)

def undo {σ : Type} (write : α → β → γ → σ → σ) (log : UndoLog α β γ) (s : σ) : σ :=
  log.foldl (fun s a entries => entries.foldl (fun s b entry => write a b entry s) s) s

theorem find_logValue_self (log : UndoLog α β γ) (a : α) (b : β) (entry : γ) :
    find (logValue log a b entry) a b = some ((find log a b).getD entry) := by
  simp only [find, logValue, AList.lookup_insert, Option.bind_some]
  rcases log.lookup a with _ | entries
  · simp only [Option.getD_none, AList.lookup_empty, Option.isSome_none, Bool.false_eq_true, if_false,
      AList.lookup_insert, Option.bind_none]
  · rcases h : entries.lookup b with _ | old <;> simp [h]

theorem find_logValue_ne (log : UndoLog α β γ) {a a' : α} {b b' : β} (entry : γ) (h : (a', b') ≠ (a, b)) :
    find (logValue log a b entry) a' b' = find log a' b' := by
  by_cases ha : a' = a
  · subst ha
    have hb : b' ≠ b := fun hb => h (by rw [hb])
    simp only [find, logValue, AList.lookup_insert, Option.bind_some]
    rcases log.lookup a' with _ | entries
    · simp only [Option.getD_none, AList.lookup_empty, Option.isSome_none, Bool.false_eq_true, if_false,
        AList.lookup_insert_ne hb, Option.bind_none]
    · by_cases hsome : (entries.lookup b).isSome = true
      · simp [hsome]
      · simp [hsome, AList.lookup_insert_ne hb]
  · simp only [find, logValue, AList.lookup_insert_ne ha]

/-! ### Undoing -/

section Undo

variable {V : α × β → Type} {write : α → β → γ → (∀ k, V k) → ∀ k, V k} {put : ∀ k, γ → V k → V k}

/-- `write` changes one place, to `put` of the entry and what the place held. -/
structure WritesOnly (write : α → β → γ → (∀ k, V k) → ∀ k, V k) (put : ∀ k, γ → V k → V k) : Prop where
  self : ∀ a b entry s, write a b entry s (a, b) = put (a, b) entry (s (a, b))
  other : ∀ a b entry s k, k ≠ (a, b) → write a b entry s k = s k

omit [DecidableEq α] [DecidableEq β] in
theorem foldl_write_other (hw : WritesOnly write put) {a : α} {k : α × β} (entries : List (Sigma fun _ : β => γ))
    (hk : ∀ e ∈ entries, k ≠ (a, e.1)) (s : ∀ k, V k) :
    entries.foldl (fun s e => write a e.1 e.2 s) s k = s k := by
  induction entries generalizing s with
  | nil => rfl
  | cons e rest ih =>
    rw [foldl_cons, ih fun e' he' => hk e' (mem_cons_of_mem _ he'), hw.other a e.1 e.2 s k (hk e mem_cons_self)]

omit [DecidableEq α] in
/-- Writing back the entries of one object gives each slot its entry. -/
theorem foldl_write_self (hw : WritesOnly write put) (a : α) (b : β) (entries : List (Sigma fun _ : β => γ))
    (hnodup : entries.NodupKeys) (s : ∀ k, V k) :
    entries.foldl (fun s e => write a e.1 e.2 s) s (a, b) =
      (entries.dlookup b).elim (s (a, b)) fun entry => put (a, b) entry (s (a, b)) := by
  induction entries generalizing s with
  | nil => rfl
  | cons e rest ih =>
    obtain ⟨b', entry⟩ := e
    obtain ⟨hnotin, hrest⟩ := nodupKeys_cons.mp hnodup
    rw [foldl_cons]
    by_cases hb : b = b'
    · subst hb
      rw [dlookup_cons_eq]
      refine (foldl_write_other hw rest (fun e he heq => ?_) _).trans (hw.self a b entry s)
      cases heq
      exact hnotin (mem_keys.mpr ⟨e.2, he⟩)
    · rw [dlookup_cons_ne rest ⟨b', entry⟩ hb, ih hrest,
        hw.other a b' entry s (a, b) fun heq => hb (congrArg Prod.snd heq)]

/-- Undoing a log gives each slot of the state the entry logged for it, if there is one. -/
theorem undo_apply (hw : WritesOnly write put) (log : UndoLog α β γ) (s : ∀ k, V k) (a : α) (b : β) :
    undo write log s (a, b) = (find log a b).elim (s (a, b)) fun entry => put (a, b) entry (s (a, b)) := by
  obtain ⟨owners, hnodup⟩ := log
  simp only [undo, find, AList.foldl, AList.lookup]
  induction owners generalizing s with
  | nil => rfl
  | cons o rest ih =>
    obtain ⟨a', entries, hentries⟩ := o
    obtain ⟨hnotin, hrest⟩ := nodupKeys_cons.mp hnodup
    rw [foldl_cons]
    by_cases ha : a = a'
    · subst ha
      have hother : ∀ s' : ∀ k, V k, rest.foldl (fun s (o : Sigma fun _ : α => AList fun _ : β => γ) =>
          o.2.entries.foldl (fun s e => write o.1 e.1 e.2 s) s) s' (a, b) = s' (a, b) := by
        intro s'
        have hnone : rest.dlookup a = none := dlookup_eq_none.mpr hnotin
        rw [ih _ hrest, hnone]
        rfl
      rw [hother, dlookup_cons_eq]
      exact foldl_write_self hw a b entries hentries s
    · rw [ih _ hrest, dlookup_cons_ne rest ⟨a', _⟩ ha,
        foldl_write_other hw entries (fun e _ heq => ha (congrArg Prod.fst heq)) s]

end Undo

/-! ### Runs of writes -/

section FirstWrites

variable {V : α × β → Type} {Logs : ∀ k, V k → γ → Prop} {orig cur : ∀ k, V k} {log : UndoLog α β γ}

/-- The entries of the logged places log their original contents, and the other places are as they were. -/
def FirstWrites (Logs : ∀ k, V k → γ → Prop) (orig cur : ∀ k, V k) (log : UndoLog α β γ) : Prop :=
  ∀ a b, (find log a b).elim (cur (a, b) = orig (a, b)) (Logs (a, b) (orig (a, b)))

theorem FirstWrites.init (Logs : ∀ k, V k → γ → Prop) (orig : ∀ k, V k) : FirstWrites Logs orig orig ∅ :=
  fun _ _ => rfl

/-- A place is logged with `claimed`, which is what the log then gives back unless the place is in it already. -/
theorem FirstWrites.claim (h : FirstWrites Logs orig cur log) {a : α} {b : β} {entry : γ} (claimed v : V (a, b))
    (hentry : Logs (a, b) claimed entry) :
    FirstWrites Logs (if (find log a b).isSome then orig else Function.update orig (a, b) claimed)
      (Function.update cur (a, b) v) (logValue log a b entry) := by
  intro a' b'
  by_cases hk : (a', b') = (a, b)
  · obtain ⟨rfl, rfl⟩ := Prod.mk.inj hk
    have hab := h a' b'
    rw [find_logValue_self]
    rcases hfind : find log a' b' with _ | old
    · simpa using hentry
    · rw [hfind] at hab
      exact hab
  · have hab := h a' b'
    rw [find_logValue_ne log _ hk, Function.update_of_ne hk]
    split
    · exact hab
    · rwa [Function.update_of_ne hk]

theorem FirstWrites.write (h : FirstWrites Logs orig cur log) {a : α} {b : β} {entry : γ} (v : V (a, b))
    (hentry : Logs (a, b) (cur (a, b)) entry) :
    FirstWrites Logs orig (Function.update cur (a, b) v) (logValue log a b entry) := by
  have hlog := h.claim (cur (a, b)) v hentry
  have hab := h a b
  rcases hfind : find log a b with _ | old
  · rw [hfind] at hab hlog
    rwa [show cur (a, b) = orig (a, b) from hab, Function.update_eq_self, ite_self] at hlog
  · rwa [hfind] at hlog

end FirstWrites

end UndoLog

end Art.Lib
