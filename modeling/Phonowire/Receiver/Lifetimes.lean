import Phonowire.Receiver.Coherence

/-!
# Admission, answers and retirement

The operations that change which tasks are live or where they are suspended: an
operation that answers drops its request and the task goes on; a destroyed task
drops its request after the scheduler has already forgotten its token.
-/

namespace Phonowire.Receiver

namespace Board

/-! ## The drop of a request -/

/-- What the drop of a request leaves, if there is one: its position is gone,
and if it was the first its successor is woken. -/
structure Released (r : Ready) (token : Token) (request : Option Resource) (r' : Ready) :
    Prop where
  consistent : r'.Consistent
  capacity : r'.capacity = r.capacity
  waiters : ∀ k, (r'.waiters k).tokens =
    if request = some k then (r.waiters k).tokens.erase token else (r.waiters k).tokens
  states : ∀ u : Token, r'.states[u]? =
    if request.bind (r.successor token) = some u then r.states[u]?.map TaskState.woken
    else r.states[u]?

section Drops

variable {b : Board} {token : Token} {entry : Entry}

/-- The event of the drop, if the request was registered. -/
def droppedEvents (token : Token) (entry : Entry) : List RequestEvent :=
  (entry.request.map (RequestEvent.dropped token)).toList

theorem dropRequest_spec (token : Token) (entry : Entry) (h : b.ready.Consistent) :
    ∃ r', b.dropRequest token entry =
        some { b with ready := r', log := b.log ++ droppedEvents token entry } ∧
      Released b.ready token entry.request r' := by
  unfold dropRequest droppedEvents
  cases hrequest : entry.request with
  | none => exact ⟨b.ready, by simp, h, rfl, by simp, by simp⟩
  | some k =>
      obtain ⟨r', hfinish, hconsistent, hwoke⟩ := h.finishRequest_spec token k
      refine ⟨r', by simp [hfinish], hconsistent, ?_, ?_, ?_⟩
      · rw [hwoke.capacity, Ready.capacity_setWaiters]
      · intro j
        rw [hwoke.waiters, Ready.waiters_setWaiters]
        by_cases hj : j = k
        · subst hj
          simp
        · rw [if_neg hj, if_neg (by simpa using fun heq ↦ hj heq.symm)]
      · intro u
        rw [hwoke.states, Ready.states_setWaiters]
        rfl

theorem successor_ne (r : Ready) (token : Token) (k : Resource) :
    r.successor token k ≠ some token := by
  unfold Ready.successor
  split_ifs with hhead
  · intro hsucc
    have hmem := List.mem_of_head? hsucc
    rw [(r.waiters k).nodup.mem_erase_iff] at hmem
    exact hmem.1 rfl
  · nofun

theorem Released.states_self {r r' : Ready} {request : Option Resource}
    (h : Released r token request r') : r'.states[token]? = r.states[token]? := by
  rw [h.states, if_neg]
  cases request with
  | none => nofun
  | some k => exact successor_ne r token k

theorem Released.aside {r r' : Ready} {request : Option Resource}
    (h : Released r token request r') : Aside r r' token := by
  intro u _
  rw [h.states]
  split_ifs
  · exact Or.inr rfl
  · exact Or.inl rfl

/-- The board behind an operation that answered. -/
def advanced (b : Board) (token : Token) (entry : Entry) (connection : Connection)
    (ready : Ready) : Board :=
  { b with
    ready := ready
    live := b.live.insert token { entry with connection, registered := false }
    phase := .behind token connection.task.await
    log := b.log ++ droppedEvents token entry }

theorem Coherent.advance_spec {e : Entry} {event : Event} {connection : Connection}
    (h : b.Coherent) (hphase : b.phase.token = some token)
    (hlive : b.live[token]? = some entry) (hsame : SameTask entry e)
    (hstep : e.connection.step b.settings.capacity.val event = some connection) :
    ∃ r', b.advance token e event = some (b.advanced token e connection r') ∧
      Released b.ready token e.request r' ∧ (b.advanced token e connection r').Coherent := by
  obtain ⟨r', hdrop, hreleased⟩ := dropRequest_spec token e h.consistent
  refine ⟨r', by simp [advance, hstep, hdrop, advanced], hreleased, ?_⟩
  have htoken : (b.advanced token e connection r').phase.token = some token :=
    Phase.token_behind token _
  refine h.turned (Or.inr hphase) (by simp [hlive]) ?_
    (e := { e with connection, registered := false })
  constructor
  case settings => rfl
  case live => exact Std.TreeMap.getElem?_insert_ite _ _ _
  case departed => rfl
  case consistent => exact hreleased.consistent
  case capacity => exact hreleased.capacity
  case aside => exact hreleased.aside
  case exists_state =>
    have hstate := h.live token
    rw [hlive] at hstate
    dsimp only [advanced]
    rw [hreleased.states_self]
    simpa using hstate
  case requests =>
    intro k u
    have hmem := h.mem_requests hlive k
    rw [← hsame.request_eq] at hmem
    dsimp only [advanced]
    rw [hreleased.waiters]
    by_cases hu : token = u
    · subst hu
      rw [if_pos rfl]
      split_ifs with hk
      · rw [(b.ready.waiters k).nodup.mem_erase_iff]
        simp [Entry.request]
      · rw [hmem]
        exact iff_of_false hk (by simp [Entry.request])
    · have hu' : u ≠ token := fun heq ↦ hu heq.symm
      rw [if_neg hu]
      split_ifs
      · rw [(b.ready.waiters k).nodup.mem_erase_iff]
        simp [hu']
      · rfl
  case waiting =>
    intro reason hwaiting
    dsimp only [advanced] at hwaiting
    rw [hreleased.states_self] at hwaiting
    rcases h.turn token hphase with hs | hs <;> rw [hs] at hwaiting <;> cases hwaiting
  case running => exact fun _ ↦ htoken
  case phase => exact Or.inr htoken
  case turn =>
    intro _
    dsimp only [advanced]
    rw [hreleased.states_self]
    exact h.turn token hphase
  case first =>
    intro k hk
    dsimp only [advanced, Phase.behind] at hk
    cases hat : connection.task.await <;> simp [hat] at hk
  case holds =>
    refine ⟨?_, (by rintro bytes after ⟨⟩), ?_, ?_⟩
    · simp [advanced, Phase.behind_eq_ended_iff, Entry.await]
    · have hruns := (h.holds token entry hlive).runs
      rw [← hsame.connection] at hruns
      exact hruns.step hstep
    · intro hattempt
      dsimp only [advanced, Phase.behind] at hattempt
      cases hat : connection.task.await <;> simp [hat] at hattempt

end Drops

/-! ## Admission, turns and retirement -/

section Lifetimes

variable {b : Board} {token : Token} {entry : Entry}

/-- The next runnable token, if there is one, starts its turn. -/
theorem Coherent.take_spec (h : b.Coherent) (hphase : b.phase = .idle) :
    (b.ready.queue.tokens = [] ∧ b.take = some b) ∨
      ∃ token entry r', b.ready.queue.tokens.head? = some token ∧
        b.live[token]? = some entry ∧
        b.take = some { b with
          ready := r'
          live := b.live.insert token
            { entry with remaining := b.settings.limits.turnSteps.val }
          phase := .polling token } ∧
        (∀ k, r'.waiters k = b.ready.waiters k) ∧
        (∀ u : Token, r'.states[u]? = if token = u then some .running else b.ready.states[u]?) ∧
        Coherent { b with
          ready := r'
          live := b.live.insert token
            { entry with remaining := b.settings.limits.turnSteps.val }
          phase := .polling token } := by
  rcases h.consistent.take_spec with
    ⟨hempty, htake⟩ | ⟨token, r', hhead, htake, hconsistent, hcapacity, hwaiters, hstates⟩
  · exact Or.inl ⟨hempty, by simp [take, htake]⟩
  · right
    have hrunnable := (h.consistent.queue token).mp (List.mem_of_head? hhead)
    obtain ⟨entry, hlive⟩ := Option.isSome_iff_exists.mp (h.live_iff.mp hrunnable.live)
    refine ⟨token, entry, r', hhead, hlive, by simp [take, htake, hlive], hwaiters, hstates, ?_⟩
    have hidle : b.phase.token = none ∨ b.phase.token = some token := Or.inl (by rw [hphase]; rfl)
    refine h.turned hidle (by simp [hlive]) ?_
      (e := { entry with remaining := b.settings.limits.turnSteps.val })
    constructor
    case settings => rfl
    case live => exact Std.TreeMap.getElem?_insert_ite _ _ _
    case departed => rfl
    case consistent => exact hconsistent
    case capacity => exact hcapacity
    case aside =>
      intro u hu
      left
      rw [hstates, if_neg hu]
    case exists_state => simp [hstates]
    case requests =>
      intro k u
      dsimp only
      rw [hwaiters]
      split_ifs with hu
      · rw [← hu, h.mem_requests hlive]
        rfl
      · rfl
    case waiting =>
      intro reason hwaiting
      simp [hstates] at hwaiting
    case running => exact fun _ ↦ rfl
    case phase => exact Or.inr rfl
    case turn => exact fun _ ↦ Or.inl (by simp [hstates])
    case first => simp
    case holds =>
      refine (h.holds token entry hlive).same ⟨rfl, rfl⟩ rfl ?_ nofun
      rw [hphase]
      simp

/-- A fresh token below the bound is admitted. -/
theorem Coherent.insert_spec (h : b.Coherent) (peer : SocketAddr)
    (hfresh : b.live[token]? = none) (hdeparted : b.departed[token]? = none)
    (hroom : b.live.size < b.settings.limits.maxConnections.val) :
    ∃ r', b.insert token peer = some { b with
        ready := r'
        live := b.live.insert token ⟨b.admitted token peer, 0, false⟩ } ∧
      (∀ k, r'.waiters k = b.ready.waiters k) ∧
      (∀ u : Token, r'.states[u]? = if token = u then some .queued else b.ready.states[u]?) ∧
      Coherent { b with
        ready := r'
        live := b.live.insert token ⟨b.admitted token peer, 0, false⟩ } := by
  have hstate : b.ready.states[token]? = none := by
    have hlive := h.live token
    cases hs : b.ready.states[token]? with
    | none => rfl
    | some s => simp [hs, hfresh] at hlive
  obtain ⟨r', hinsert, hconsistent, hcapacity, hwaiters, hstates⟩ :=
    h.consistent.insert_spec hstate (by rw [h.size_eq, h.capacity]; exact hroom)
  refine ⟨r', by simp [Board.insert, hinsert, hfresh], hwaiters, hstates, ?_⟩
  have hat := Std.TreeMap.getElem?_insert_ite b.live token ⟨b.admitted token peer, 0, false⟩
  have hidle : b.phase.token ≠ some token := by
    intro htoken
    rcases h.turn token htoken with hs | hs <;> rw [hs] at hstate <;> cases hstate
  constructor
  case consistent => exact hconsistent
  case capacity => exact hcapacity.trans h.capacity
  case live =>
    intro u
    dsimp only
    rw [hstates, hat]
    split_ifs
    · rfl
    · exact h.live u
  case requests =>
    intro k u
    dsimp only
    rw [hwaiters, hat, h.requests]
    split_ifs with hu
    · rw [← hu, hfresh]
      simp [Entry.request]
    · rfl
  case waiting =>
    intro u reason hwaiting
    dsimp only at hwaiting ⊢
    rw [hstates] at hwaiting
    rw [hat]
    split_ifs at hwaiting ⊢
    · cases hwaiting
    · exact h.waiting u reason hwaiting
  case running =>
    intro u hrunning
    dsimp only at hrunning
    rw [hstates] at hrunning
    split_ifs at hrunning
    · cases hrunning
    · exact h.running u hrunning
  case turn =>
    intro u hu
    dsimp only
    rw [hstates]
    split_ifs with htoken
    · rw [← htoken] at hu
      exact absurd hu hidle
    · exact h.turn u hu
  case first =>
    intro u k hk
    dsimp only
    rw [hwaiters]
    exact h.first u k hk
  case holds =>
    intro u e he
    dsimp only at he
    rw [hat] at he
    split_ifs at he with hu
    · cases he
      subst hu
      refine ⟨?_, (by rintro bytes after ⟨⟩), ⟨peer, Machine.Reachable.refl _⟩, ?_⟩
      refine iff_of_false ?_ ?_
      · rintro ⟨failure, hfailure⟩
        cases hfailure
      · exact fun hended ↦ hidle (congrArg Phase.token hended)
      · intro hattempt
        exact absurd (congrArg Phase.token hattempt) hidle
    · exact ⟨(h.holds u e he).returned, (h.holds u e he).fits, (h.holds u e he).runs,
        (h.holds u e he).counted⟩
  case departed => exact h.departed
  case disjoint =>
    intro u hu
    dsimp only at hu ⊢
    rw [hat]
    split_ifs with htoken
    · rw [← htoken, hdeparted] at hu
      cases hu
    · exact h.disjoint u hu

/-- The request of a task whose token is gone finds nothing to remove. -/
theorem Retired.released {r r₁ r₂ : Ready} {request : Option Resource}
    (h : r.Retired token r₁) (hreleased : Released r₁ token request r₂) : r.Retired token r₂ := by
  have hgone (k : Resource) : token ∉ (r₁.waiters k).tokens := by
    rw [h.waiters, (r.waiters k).nodup.mem_erase_iff]
    exact fun hmem ↦ hmem.1 rfl
  refine ⟨hreleased.consistent, hreleased.capacity.trans h.capacity, ?_, ?_⟩
  · intro k
    rw [hreleased.waiters]
    split_ifs
    · rw [List.erase_of_not_mem (hgone k), h.waiters]
    · exact h.waiters k
  · intro u
    rw [hreleased.states, if_neg, h.states]
    cases request with
    | none => nofun
    | some k =>
        have hnone : r₁.successor token k = none :=
          if_neg fun hhead ↦ hgone k (List.mem_of_head? hhead)
        rw [Option.bind_some, hnone]
        nofun

/-- The board behind a retirement. -/
def without (b : Board) (token : Token) (entry : Entry) (ready : Ready) : Board :=
  { b with
    ready := ready
    live := b.live.erase token
    phase := if b.phase = .ended token then .idle else b.phase
    departed := b.departed.insert token entry.connection
    log := b.log ++ droppedEvents token entry }

theorem Phase.token_of_betweenPolls {p : Phase} (h : p.betweenPolls = true) {u : Token}
    (htoken : p.token = some u) : p = .ended u := by
  cases p with
  | ended other =>
      cases htoken
      rfl
  | idle => cases htoken
  | _ => cases h

/-- Outside polls a live task can be destroyed at any suspension point. -/
theorem Coherent.retire_spec (h : b.Coherent) (hphase : b.phase.betweenPolls = true)
    (hlive : b.live[token]? = some entry) :
    ∃ r', b.retire token entry = some (b.without token entry r') ∧
      b.ready.Retired token r' ∧ (b.without token entry r').Coherent := by
  obtain ⟨r₁, hretire, hretired⟩ := h.consistent.retire_spec token
  obtain ⟨r', hdrop, hreleased⟩ := dropRequest_spec token entry hretired.consistent
    (b := { b with ready := r₁, live := b.live.erase token })
  have hr' := Retired.released hretired hreleased
  refine ⟨r', by simp [retire, hretire, hdrop, without], hr', ?_⟩
  have hat := Std.TreeMap.getElem?_erase_ite b.live token
  have hstate {u : Token} (hu : token ≠ u) : r'.states[u]? = b.ready.states[u]? ∨
      r'.states[u]? = b.ready.states[u]?.map TaskState.woken := by
    rw [hr'.states, if_neg hu]
    split_ifs
    · exact Or.inr rfl
    · exact Or.inl rfl
  have hgone {u : Token} {s : TaskState} (hs : r'.states[u]? = some s) : token ≠ u := by
    rintro rfl
    rw [hr'.states, if_pos rfl] at hs
    cases hs
  have hended {u : Token} (hu : token ≠ u) :
      (b.without token entry r').phase = .ended u ↔ b.phase = .ended u := by
    dsimp only [without]
    split_ifs with hphase
    · rw [hphase]
      simpa using hu
    · rfl
  constructor
  case consistent => exact hr'.consistent
  case capacity => exact hr'.capacity.trans h.capacity
  case live =>
    intro u
    dsimp only [without]
    rw [hat]
    by_cases hu : token = u
    · rw [hr'.states, if_pos hu, if_pos hu]
      rfl
    · rw [if_neg hu, ← h.live]
      rcases hstate hu with heq | heq <;> simp [heq]
  case requests =>
    intro k u
    dsimp only [without]
    rw [hr'.waiters, (b.ready.waiters k).nodup.mem_erase_iff, h.requests, hat]
    by_cases hu : token = u
    · subst hu
      simp
    · have hu' : u ≠ token := fun heq ↦ hu heq.symm
      simp [hu, hu']
  case waiting =>
    intro u reason hwaiting
    have hu := hgone hwaiting
    dsimp only [without]
    rw [hat, if_neg hu]
    rcases hstate hu with heq | heq
    · exact h.waiting u reason (heq.symm.trans hwaiting)
    · dsimp only [without] at hwaiting
      rw [heq, Option.map_eq_some_iff] at hwaiting
      obtain ⟨s, _, hs⟩ := hwaiting
      exact absurd hs (woken_ne_waiting s reason)
  case running =>
    intro u hrunning
    have hu := hgone hrunning
    rcases hstate hu with heq | heq
    · have htoken := h.running u (heq.symm.trans hrunning)
      have hphase' := (hended hu).mpr (Phase.token_of_betweenPolls hphase htoken)
      rw [hphase']
      rfl
    · dsimp only [without] at hrunning
      rw [heq, Option.map_eq_some_iff] at hrunning
      obtain ⟨s, _, hs⟩ := hrunning
      exact absurd hs (woken_ne_running s)
  case turn =>
    intro u hu
    dsimp only [without] at hu
    split_ifs at hu with hphase'
    · cases hu
    · have hphase'' := Phase.token_of_betweenPolls hphase hu
      have htoken : token ≠ u := by
        rintro rfl
        exact hphase' hphase''
      dsimp only [without]
      rcases hstate htoken with heq | heq
      · rw [heq]
        exact h.turn u hu
      · rcases h.turn u hu with hs | hs <;> rw [heq, hs] <;> exact Or.inr rfl
  case first =>
    intro u k hk
    dsimp only [without] at hk
    split_ifs at hk
    · simp at hk
    · rcases hk with hk | hk <;> rw [hk] at hphase <;> cases hphase
  case holds =>
    intro u e he
    dsimp only [without] at he
    rw [hat] at he
    split_ifs at he with hu
    refine ⟨(h.holds u e he).returned.trans (hended hu).symm, (h.holds u e he).fits,
      (h.holds u e he).runs, ?_⟩
    intro hattempt
    dsimp only [without] at hattempt
    split_ifs at hattempt
    rw [hattempt] at hphase
    cases hphase
  case departed =>
    intro u c hc
    dsimp only [without] at hc
    rw [Std.TreeMap.getElem?_insert_ite] at hc
    split_ifs at hc with hu
    · cases hc
      subst hu
      exact (h.holds token entry hlive).runs
    · exact h.departed u c hc
  case disjoint =>
    intro u hu
    dsimp only [without] at hu ⊢
    rw [hat]
    split_ifs with htoken
    · rfl
    · rw [Std.TreeMap.getElem?_insert_ite, if_neg htoken] at hu
      exact h.disjoint u hu

end Lifetimes

end Board

end Phonowire.Receiver
