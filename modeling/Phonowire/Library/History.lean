import Mathlib.Tactic

/-!
# Logs and what each entry says about its past

A log grows at its end. `Each` says of every entry what it owes to the entries
before it, and `tally` counts the entries that stand in a given relation to
their past. Both are read off one entry at a time.
-/

namespace History

variable {α : Type*} {log : List α} {e f : α}

/-- Every entry of the log stands in the relation `P` to the entries before it. -/
def Each (P : List α → α → Prop) (log : List α) : Prop :=
  ∀ past e later, log = past ++ e :: later → P past e

theorem each_nil (P : List α → α → Prop) : Each P [] := by
  intro past e later h
  simp at h

theorem Each.append_left {P : List α → α → Prop} {rest : List α} (h : Each P (log ++ rest)) :
    Each P log := by
  intro past x later hlog
  refine h past x (later ++ rest) ?_
  rw [hlog, List.append_assoc, List.cons_append]

theorem each_snoc {P : List α → α → Prop} : Each P (log ++ [e]) ↔ Each P log ∧ P log e := by
  constructor
  · intro h
    exact ⟨h.append_left, h log e [] rfl⟩
  · rintro ⟨h, he⟩ past x later hlog
    rcases List.eq_nil_or_concat later with rfl | ⟨rest, y, rfl⟩
    · obtain ⟨rfl, hx⟩ := List.append_inj' hlog rfl
      cases hx
      exact he
    · rw [List.concat_eq_append, ← List.cons_append, ← List.append_assoc] at hlog
      exact h past x rest (List.append_inj' hlog rfl).1

theorem each_pair {P : List α → α → Prop} :
    Each P (log ++ [e, f]) ↔ Each P log ∧ P log e ∧ P (log ++ [e]) f := by
  rw [List.append_cons, each_snoc, each_snoc, and_assoc]

def tallyFrom (p : List α → α → Bool) : List α → List α → ℕ
  | _, [] => 0
  | past, e :: rest => (if p past e then 1 else 0) + tallyFrom p (past ++ [e]) rest

/-- Entries of the log for which `p` holds of their past. -/
def tally (p : List α → α → Bool) (log : List α) : ℕ := tallyFrom p [] log

@[simp] theorem tally_nil (p : List α → α → Bool) : tally p [] = 0 := rfl

theorem tallyFrom_snoc (p : List α → α → Bool) (past : List α) :
    tallyFrom p past (log ++ [e]) =
      tallyFrom p past log + if p (past ++ log) e then 1 else 0 := by
  induction log generalizing past with
  | nil => simp [tallyFrom]
  | cons x rest ih =>
      rw [List.cons_append, tallyFrom, tallyFrom, ih, List.append_assoc, List.singleton_append,
        Nat.add_assoc]

theorem tally_snoc (p : List α → α → Bool) :
    tally p (log ++ [e]) = tally p log + if p log e then 1 else 0 :=
  tallyFrom_snoc p []

theorem tally_pair (p : List α → α → Bool) :
    tally p (log ++ [e, f]) =
      tally p log + (if p log e then 1 else 0) + if p (log ++ [e]) f then 1 else 0 := by
  rw [List.append_cons, tally_snoc, tally_snoc]

end History
