import Mathlib.Tactic

/-!
# First come, first served

Parties enter a line, are served only while they are first, and may leave from
any place. A log of such events determines who waits, in which order. In an
orderly log nobody is served ahead of a party that entered earlier and has not
left.
-/

namespace Turns

/-- A party enters the line, is served, or leaves. -/
inductive Event (α : Type*) where
  | enter (a : α)
  | serve (a : α)
  | leave (a : α)
  deriving DecidableEq

variable {α : Type*} [DecidableEq α]

def Event.apply (line : List α) : Event α → List α
  | .enter a => line ++ [a]
  | .serve _ => line
  | .leave a => line.erase a

/-- Who waits after these events, first to last. -/
def line (log : List (Event α)) : List α := log.foldl Event.apply []

/-- A party enters once until it leaves, and only the first is served. -/
def Event.Allowed (line : List α) : Event α → Prop
  | .enter a => a ∉ line
  | .serve a => line.head? = some a
  | .leave a => a ∈ line

inductive Orderly : List (Event α) → Prop
  | nil : Orderly []
  | snoc {log : List (Event α)} {e : Event α} (h : Orderly log) (he : e.Allowed (line log)) :
      Orderly (log ++ [e])

variable {a b : α} {log before after : List (Event α)} {e : Event α}

@[simp] theorem line_nil : line ([] : List (Event α)) = [] := rfl

@[simp] theorem line_snoc : line (log ++ [e]) = e.apply (line log) := by
  simp [line]

theorem Orderly.of_append (h : Orderly (before ++ after)) : Orderly before := by
  induction after using List.reverseRecOn with
  | nil => simpa using h
  | append_singleton after e ih =>
      rw [← List.append_assoc] at h
      generalize hlog : before ++ after ++ [e] = log at h
      cases h with
      | nil => simp at hlog
      | snoc h he =>
          obtain ⟨heq, _⟩ := List.append_inj' hlog rfl
          exact ih (heq ▸ h)

/-- Each event of an orderly log was allowed when it happened. -/
theorem Orderly.allowed (h : Orderly (before ++ e :: after)) : e.Allowed (line before) := by
  have hall : Orderly (before ++ [e] ++ after) := by simpa using h
  have hsnoc := hall.of_append
  generalize hlog : before ++ [e] = log at hsnoc
  cases hsnoc with
  | nil => simp at hlog
  | snoc _ he =>
      obtain ⟨rfl, heq⟩ := List.append_inj' hlog rfl
      cases heq
      exact he

theorem Orderly.nodup (h : Orderly log) : (line log).Nodup := by
  induction h with
  | nil => exact List.nodup_nil
  | @snoc log e h he ih =>
      rw [line_snoc]
      cases e with
      | enter a => exact List.nodup_append_comm.mp (List.nodup_cons.mpr ⟨he, ih⟩)
      | serve a => exact ih
      | leave a => exact ih.erase a

/-- A party that does not leave stays in the line. -/
theorem mem_line_append (h : a ∈ line before) (hleave : .leave a ∉ after) :
    a ∈ line (before ++ after) := by
  induction after using List.reverseRecOn with
  | nil => simpa using h
  | append_singleton after e ih =>
      rw [List.mem_append, not_or] at hleave
      have hmem := ih hleave.1
      rw [← List.append_assoc, line_snoc]
      cases e with
      | enter c => exact List.mem_append_left _ hmem
      | serve c => exact hmem
      | leave c =>
          have hne : a ≠ c := by
            rintro rfl
            simp at hleave
          exact (List.mem_erase_of_ne hne).mpr hmem

/-- `a` stands in front of `b`. -/
def Ahead (a b : α) (line : List α) : Prop := ∃ front back, line = front ++ b :: back ∧ a ∈ front

theorem ahead_append (h : Ahead a b (Turns.line before))
    (ha : .leave a ∉ after) (hb : .leave b ∉ after) : Ahead a b (Turns.line (before ++ after)) := by
  induction after using List.reverseRecOn with
  | nil => simpa using h
  | append_singleton after e ih =>
      rw [List.mem_append, not_or] at ha hb
      obtain ⟨front, back, hline, hmem⟩ := ih ha.1 hb.1
      rw [← List.append_assoc, line_snoc, hline]
      cases e with
      | enter c => exact ⟨front, back ++ [c], by simp [Event.apply], hmem⟩
      | serve c => exact ⟨front, back, rfl, hmem⟩
      | leave c =>
          have hac : a ≠ c := by
            rintro rfl
            simp at ha
          have hbc : b ≠ c := by
            rintro rfl
            simp at hb
          by_cases hc : c ∈ front
          · refine ⟨front.erase c, back, ?_, (List.mem_erase_of_ne hac).mpr hmem⟩
            exact List.erase_append_left _ hc
          · refine ⟨front, back.erase c, ?_, hmem⟩
            rw [Event.apply, List.erase_append_right _ hc,
              List.erase_cons_tail (by simpa using hbc)]

/-- Nobody is served ahead of a party that entered earlier and has not left. -/
theorem Orderly.no_bypass {between rest : List (Event α)}
    (h : Orderly (before ++ .enter a :: between ++ .enter b :: rest ++ .serve b :: after))
    (hab : a ≠ b) (hb : .leave b ∉ rest) : .leave a ∈ between ++ rest := by
  by_contra hleave
  rw [List.mem_append, not_or] at hleave
  have hserved := h.allowed
  have hnodup := h.of_append.nodup
  have hentered : a ∈ line (before ++ .enter a :: between) := by
    have hmem : a ∈ line (before ++ [.enter a]) := by simp [Event.apply]
    simpa using mem_line_append hmem hleave.1
  have hahead : Ahead a b (line (before ++ .enter a :: between ++ [.enter b])) :=
    ⟨_, [], line_snoc, hentered⟩
  obtain ⟨front, back, hline, hmem⟩ := ahead_append hahead hleave.2 hb
  have hline' : line (before ++ .enter a :: between ++ .enter b :: rest) =
      front ++ b :: back := by simpa using hline
  rw [hline'] at hserved hnodup
  cases front with
  | nil => cases hmem
  | cons x front =>
      have hx : x = b := by simpa [Event.Allowed] using hserved
      subst hx
      simp at hnodup

/-- Between two entries of one party it has left. -/
theorem Orderly.leaves_between {between : List (Event α)}
    (h : Orderly (before ++ .enter a :: between ++ .enter a :: after)) :
    .leave a ∈ between := by
  by_contra hleave
  have hentered : a ∈ line (before ++ .enter a :: between) := by
    have hmem : a ∈ line (before ++ [.enter a]) := by simp [Event.apply]
    simpa using mem_line_append hmem hleave
  exact h.allowed hentered

end Turns
