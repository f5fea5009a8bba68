import Mathlib.Tactic

/-!
# Partial step functions and their runs

A step function says what an action does to a state, with `none` for an action
that is not enabled. The run rules reduce a statement about every reachable
state to the initial state and one step.
-/

namespace Machine

variable {σ α : Type*} {step : σ → α → Option σ}

/-- The state after a finite sequence of actions, if each of them is enabled. -/
def run (step : σ → α → Option σ) : σ → List α → Option σ
  | s, [] => some s
  | s, a :: actions => (step s a).bind fun t ↦ run step t actions

@[simp] theorem run_nil (s : σ) : run step s [] = some s := rfl

theorem run_cons {s u : σ} {a : α} {actions : List α} :
    run step s (a :: actions) = some u ↔
      ∃ t, step s a = some t ∧ run step t actions = some u :=
  Option.bind_eq_some_iff

theorem run_append (s : σ) (xs ys : List α) :
    run step s (xs ++ ys) = (run step s xs).bind fun t ↦ run step t ys := by
  induction xs generalizing s with
  | nil => rfl
  | cons a xs ih =>
      calc run step s (a :: xs ++ ys)
          = (step s a).bind fun t ↦ run step t (xs ++ ys) := rfl
        _ = (step s a).bind fun t ↦ (run step t xs).bind fun u ↦ run step u ys := by
              simp only [ih]
        _ = (run step s (a :: xs)).bind fun t ↦ run step t ys := (Option.bind_assoc _ _ _).symm

def Reachable (step : σ → α → Option σ) (s t : σ) : Prop :=
  ∃ actions, run step s actions = some t

theorem Reachable.refl (s : σ) : Reachable step s s := ⟨[], rfl⟩

theorem Reachable.tail {s t u : σ} {a : α} (h : Reachable step s t)
    (hstep : step t a = some u) : Reachable step s u := by
  obtain ⟨actions, hrun⟩ := h
  refine ⟨actions ++ [a], ?_⟩
  rw [run_append, hrun, Option.bind_some]
  exact run_cons.mpr ⟨u, hstep, rfl⟩

theorem Reachable.trans {s t u : σ} (hfirst : Reachable step s t) (hrest : Reachable step t u) :
    Reachable step s u := by
  obtain ⟨xs, hxs⟩ := hfirst
  obtain ⟨ys, hys⟩ := hrest
  refine ⟨xs ++ ys, ?_⟩
  rw [run_append, hxs, Option.bind_some, hys]

/-- A property of the first state that every enabled action keeps holds in
every reachable state. -/
theorem Reachable.invariant {s t : σ} {I : σ → Prop} (h : Reachable step s t) (hs : I s)
    (hstep : ∀ u a v, I u → step u a = some v → I v) : I t := by
  obtain ⟨actions, hrun⟩ := h
  induction actions generalizing s with
  | nil =>
      cases hrun
      exact hs
  | cons a actions ih =>
      obtain ⟨v, hv, hrest⟩ := run_cons.mp hrun
      exact ih (hstep s a v hs hv) hrest

/-- The final state of an evaluated run and what was checked of it. -/
theorem exists_of_run (step : σ → α → Option σ) (s : σ) (actions : List α) (P : σ → Prop)
    [DecidablePred P] (h : (run step s actions).any (fun t ↦ decide (P t)) = true) :
    ∃ t, run step s actions = some t ∧ P t := by
  rw [Option.any_eq_true] at h
  obtain ⟨t, ht, hP⟩ := h
  exact ⟨t, ht, of_decide_eq_true hP⟩

/-- Induction on a run from its end: what the last action adds. -/
theorem run_snoc {s u : σ} {a : α} {actions : List α} :
    run step s (actions ++ [a]) = some u ↔
      ∃ t, run step s actions = some t ∧ step t a = some u := by
  simp [run_append, run_cons, Option.bind_eq_some_iff]

/-- One action of the machine at `i` among several. -/
def within (step : σ → α → Option σ) (machines : List σ) (i : ℕ) (a : α) : Option (List σ) :=
  machines[i]?.bind fun s ↦ (step s a).map (machines.set i ·)

theorem within_eq_some_iff {machines after : List σ} {i : ℕ} {a : α} :
    within step machines i a = some after ↔
      ∃ s t, machines[i]? = some s ∧ step s a = some t ∧ after = machines.set i t := by
  simp only [within, Option.bind_eq_some_iff, Option.map_eq_some_iff]
  constructor
  · rintro ⟨s, hs, t, ht, rfl⟩
    exact ⟨s, t, hs, ht, rfl⟩
  · rintro ⟨s, t, hs, ht, rfl⟩
    exact ⟨s, hs, t, ht, rfl⟩

/-- What the actions of a run emit, in their order. -/
def trace {β : Type*} (step : σ → α → Option σ) (emit : σ → α → List β) : σ → List α → List β
  | _, [] => []
  | s, a :: actions => emit s a ++ (step s a).elim [] fun t ↦ trace step emit t actions

/-- A property of a state and of what was emitted on the way to it. -/
theorem run_trace_invariant {β : Type*} {emit : σ → α → List β} {s t : σ} {actions : List α}
    {I : σ → List β → Prop} (hrun : run step s actions = some t) (hs : I s [])
    (hstep : ∀ u out a v, I u out → step u a = some v → I v (out ++ emit u a)) :
    I t (trace step emit s actions) := by
  have hgeneral : ∀ {s : σ} {out : List β}, run step s actions = some t → I s out →
      I t (out ++ trace step emit s actions) := by
    clear hrun hs
    induction actions with
    | nil =>
        intro s out hrun hs
        cases hrun
        rw [trace, List.append_nil]
        exact hs
    | cons a actions ih =>
        intro s out hrun hs
        obtain ⟨u, hu, hrest⟩ := run_cons.mp hrun
        have hrec := ih hrest (hstep s out a u hs hu)
        rw [trace, hu, Option.elim_some, ← List.append_assoc]
        exact hrec
  exact hgeneral hrun hs

/-- A measure that pays for every action that satisfies `p` bounds their number. -/
theorem run_measure {p : α → Bool} {I : σ → Prop} {m : σ → ℕ} {s t : σ} {actions : List α}
    (hrun : run step s actions = some t) (hs : I s)
    (hstep : ∀ u a v, I u → step u a = some v →
      I v ∧ (if p a then 1 else 0) + m v ≤ m u) :
    I t ∧ actions.countP p + m t ≤ m s := by
  induction actions generalizing s with
  | nil =>
      cases hrun
      exact ⟨hs, by simp⟩
  | cons a actions ih =>
      obtain ⟨u, hu, hrest⟩ := run_cons.mp hrun
      obtain ⟨hinv, hle⟩ := hstep s a u hs hu
      obtain ⟨ht, hcount⟩ := ih hrest hinv
      refine ⟨ht, ?_⟩
      rw [List.countP_cons]
      omega

/-- The step function restricted to the states that satisfy `P`. -/
def guarded (P : σ → Prop) [DecidablePred P] (step : σ → α → Option σ) (s : σ) (a : α) :
    Option σ :=
  if P s then step s a else none

theorem guarded_eq_some_iff {P : σ → Prop} [DecidablePred P] {s t : σ} {a : α} :
    guarded P step s a = some t ↔ P s ∧ step s a = some t := by
  simp [guarded]

theorem trace_guarded {β : Type*} {emit : σ → α → List β} {P : σ → Prop} [DecidablePred P]
    {s t : σ} {actions : List α} (hrun : run (guarded P step) s actions = some t) :
    trace (guarded P step) emit s actions = trace step emit s actions := by
  induction actions generalizing s with
  | nil => rfl
  | cons a actions ih =>
      obtain ⟨u, hu, hrest⟩ := run_cons.mp hrun
      rw [trace, trace, hu, (guarded_eq_some_iff.mp hu).2, Option.elim_some, Option.elim_some,
        ih hrest]

theorem run_of_guarded {P : σ → Prop} [DecidablePred P] {s t : σ} {actions : List α}
    (hrun : run (guarded P step) s actions = some t) : run step s actions = some t := by
  induction actions generalizing s with
  | nil => exact hrun
  | cons a actions ih =>
      obtain ⟨u, hu, hrest⟩ := run_cons.mp hrun
      exact run_cons.mpr ⟨u, (guarded_eq_some_iff.mp hu).2, ih hrest⟩

end Machine
