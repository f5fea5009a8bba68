import Phonowire.Library.Machine
import Phonowire.Receiver.Engine
import Phonowire.Receiver.Moves

/-!
# Scheduler and tasks agree

The scheduler knows tokens and the tasks know their suspension points. A
coherent board ties the two: the live tokens are the live tasks, the request
orders hold exactly the registered requests, a waiting token waits for what its
task awaits, and only the polled task is running. Every operation of the worker
keeps a board coherent and none of its assertions fails there; this module has
those that leave a task at its suspension point.
-/

namespace Phonowire.Receiver

open AudioSocket

/-- What a parked task waits for. -/
def Entry.waitsFor (e : Entry) : Option WaitReason :=
  if e.await = .read then some .kernel else e.request.map Resource.reason

namespace Await

def Returned (a : Await) : Prop := ∃ failure, a = .returned failure

theorem Returned.wants_eq {a : Await} (h : a.Returned) : a.wants = none := by
  obtain ⟨failure, rfl⟩ := h
  rfl

end Await

theorem Phase.token_behind (token : Token) (a : Await) :
    (Phase.behind token a).token = some token := by
  cases a <;> rfl

theorem Phase.behind_eq_ended_iff {token other : Token} {a : Await} :
    Phase.behind token a = .ended other ↔ a.Returned ∧ token = other := by
  cases a <;> simp [Phase.behind, Await.Returned]

namespace Board

/-- A history of the connection under `token` that the code can produce. -/
def Runs (settings : Settings) (token : Token) (c : Connection) : Prop :=
  ∃ peer, Machine.Reachable (Connection.step settings.capacity.val)
    (.new ⟨settings.instanceId, token⟩ peer settings.limits.payload settings.profile) c

theorem Runs.step {settings : Settings} {token : Token} {c d : Connection} {e : Event}
    (h : Runs settings token c) (hstep : c.step settings.capacity.val e = some d) :
    Runs settings token d := by
  obtain ⟨peer, hreachable⟩ := h
  exact ⟨peer, hreachable.tail hstep⟩

theorem Runs.placed {settings : Settings} {token : Token} {c : Connection}
    (h : Runs settings token c) : c.task.Placed := by
  obtain ⟨peer, hreachable⟩ := h
  exact (Connection.reachable_induction (I := fun _ ↦ True) hreachable trivial
    fun _ _ _ _ _ _ _ _ ↦ trivial).1

/-- What holds of one live entry, given the phase. -/
structure Holds (b : Board) (token : Token) (e : Entry) : Prop where
  returned : e.await.Returned ↔ b.phase = .ended token
  fits : ∀ bytes after, e.registered = true → e.await = .copy bytes after →
    bytes.length ≤ b.settings.capacity.val
  runs : Runs b.settings token e.connection
  counted : b.phase = .attempting token .queue → e.connection.task.nextCount ≠ none

structure Coherent (b : Board) : Prop where
  consistent : b.ready.Consistent
  capacity : b.ready.capacity = b.settings.limits.maxConnections.val
  live : ∀ token : Token, b.ready.states[token]?.isSome = b.live[token]?.isSome
  requests : ∀ (k : Resource) (token : Token),
    token ∈ (b.ready.waiters k).tokens ↔ b.live[token]?.bind Entry.request = some k
  waiting : ∀ (token : Token) reason, b.ready.states[token]? = some (.waiting reason) →
    b.live[token]?.bind Entry.waitsFor = some reason
  running : ∀ token : Token, b.ready.states[token]? = some .running → b.phase.token = some token
  turn : ∀ token : Token, b.phase.token = some token →
    b.ready.states[token]? = some .running ∨ b.ready.states[token]? = some .notified
  first : ∀ token k, b.phase = .attempting token k ∨ b.phase = .full token k →
    (b.ready.waiters k).tokens.head? = some token
  holds : ∀ (token : Token) e, b.live[token]? = some e → b.Holds token e
  departed : ∀ (token : Token) c, b.departed[token]? = some c → Runs b.settings token c
  disjoint : ∀ token : Token, b.departed[token]?.isSome = true → b.live[token]? = none

theorem coherent_new (settings : Settings) : (new settings).Coherent where
  consistent := Ready.consistent_new _
  capacity := rfl
  live := by simp [new, Ready.new]
  requests := by
    intro k token
    cases k <;> simp [new, Ready.new, Ready.waiters]
  waiting := by simp [new, Ready.new]
  running := by simp [new, Ready.new]
  turn := nofun
  first := by simp [new]
  holds := by simp [new]
  departed := by simp [new]
  disjoint := by simp [new]

section Changes

variable {b : Board} {token : Token} {entry : Entry}

theorem Coherent.live_iff (h : b.Coherent) : b.ready.Live token ↔ b.live[token]?.isSome = true := by
  unfold Ready.Live
  rw [h.live]

theorem Coherent.size_eq (h : b.Coherent) : b.ready.states.size = b.live.size :=
  Std.TreeMap.size_congr h.live

/-- What a step may do to a token of another task: nothing, or a wake. -/
def Aside (r r' : Ready) (token : Token) : Prop :=
  ∀ u, token ≠ u → r'.states[u]? = r.states[u]? ∨
    r'.states[u]? = r.states[u]?.map TaskState.woken

theorem woken_ne_running (s : TaskState) : s.woken ≠ .running := by
  cases s <;> simp [TaskState.woken, TaskState.wake]

theorem woken_ne_waiting (s : TaskState) (reason : WaitReason) : s.woken ≠ .waiting reason := by
  cases s <;> simp [TaskState.woken, TaskState.wake]

/-- A step of the task under `token` that changes its entry, its scheduler state
and its requests, and may wake others. -/
structure Turned (b : Board) (token : Token) (e : Entry) (b' : Board) : Prop where
  settings : b'.settings = b.settings
  live : ∀ u : Token, b'.live[u]? = if token = u then some e else b.live[u]?
  departed : b'.departed = b.departed
  consistent : b'.ready.Consistent
  capacity : b'.ready.capacity = b.ready.capacity
  aside : Aside b.ready b'.ready token
  exists_state : b'.ready.states[token]?.isSome = true
  requests : ∀ k u, u ∈ (b'.ready.waiters k).tokens ↔
    if token = u then e.request = some k else u ∈ (b.ready.waiters k).tokens
  waiting : ∀ reason, b'.ready.states[token]? = some (.waiting reason) →
    e.waitsFor = some reason
  running : b'.ready.states[token]? = some .running → b'.phase.token = some token
  phase : b'.phase.token = none ∨ b'.phase.token = some token
  turn : b'.phase.token = some token →
    b'.ready.states[token]? = some .running ∨ b'.ready.states[token]? = some .notified
  first : ∀ k, b'.phase = .attempting token k ∨ b'.phase = .full token k →
    (b'.ready.waiters k).tokens.head? = some token
  holds : b'.Holds token e

theorem Phase.token_eq_of_ended {p : Phase} (h : p = .ended token) : p.token = some token := by
  rw [h]
  rfl

theorem Coherent.turned {e : Entry} {b' : Board} (h : b.Coherent)
    (hphase : b.phase.token = none ∨ b.phase.token = some token)
    (hlive : b.live[token]?.isSome = true) (ht : b.Turned token e b') : b'.Coherent := by
  have hother {u : Token} (hu : token ≠ u) : b.phase.token ≠ some u := by
    rcases hphase with hnone | hsome
    · rw [hnone]
      nofun
    · rw [hsome]
      exact fun heq ↦ hu (Option.some.inj heq)
  have hother' {u : Token} (hu : token ≠ u) : b'.phase.token ≠ some u := by
    rcases ht.phase with hnone | hsome
    · rw [hnone]
      nofun
    · rw [hsome]
      exact fun heq ↦ hu (Option.some.inj heq)
  have hat := ht.live
  constructor
  case consistent => exact ht.consistent
  case capacity => rw [ht.capacity, h.capacity, ht.settings]
  case live =>
    intro u
    rw [hat]
    by_cases hu : token = u
    · subst hu
      simp [ht.exists_state]
    · rw [if_neg hu, ← h.live]
      rcases ht.aside u hu with heq | heq <;> simp [heq]
  case requests =>
    intro k u
    rw [ht.requests, hat]
    by_cases hu : token = u
    · simp [hu]
    · rw [if_neg hu, if_neg hu, h.requests]
  case waiting =>
    intro u reason hwaiting
    rw [hat]
    by_cases hu : token = u
    · subst hu
      simpa using ht.waiting reason hwaiting
    · rw [if_neg hu]
      rcases ht.aside u hu with heq | heq
      · exact h.waiting u reason (heq.symm.trans hwaiting)
      · rw [heq, Option.map_eq_some_iff] at hwaiting
        obtain ⟨s, _, hs⟩ := hwaiting
        exact absurd hs (woken_ne_waiting s reason)
  case running =>
    intro u hrunning
    by_cases hu : token = u
    · subst hu
      exact ht.running hrunning
    · rcases ht.aside u hu with heq | heq
      · exact absurd (h.running u (heq.symm.trans hrunning)) (hother hu)
      · rw [heq, Option.map_eq_some_iff] at hrunning
        obtain ⟨s, _, hs⟩ := hrunning
        exact absurd hs (woken_ne_running s)
  case turn =>
    intro u hu
    by_cases htoken : token = u
    · subst htoken
      exact ht.turn hu
    · exact absurd hu (hother' htoken)
  case first =>
    intro u k hk
    have htoken : b'.phase.token = some u := by rcases hk with hk | hk <;> rw [hk] <;> rfl
    by_cases hu : token = u
    · subst hu
      exact ht.first k hk
    · exact absurd htoken (hother' hu)
  case holds =>
    intro u e' he'
    rw [hat] at he'
    by_cases hu : token = u
    · subst hu
      rw [if_pos rfl, Option.some.injEq] at he'
      subst he'
      exact ht.holds
    · rw [if_neg hu] at he'
      have hu' := h.holds u e' he'
      refine ⟨?_, ?_, ?_, ?_⟩
      · rw [hu'.returned]
        constructor
        · intro hended
          exact absurd (Phase.token_eq_of_ended hended) (hother hu)
        · intro hended
          exact absurd (Phase.token_eq_of_ended hended) (hother' hu)
      · rw [ht.settings]
        exact hu'.fits
      · rw [ht.settings]
        exact hu'.runs
      · intro hattempt
        refine absurd ?_ (hother' hu)
        rw [hattempt]
        rfl
  case departed =>
    intro u c hc
    rw [ht.departed] at hc
    rw [ht.settings]
    exact h.departed u c hc
  case disjoint =>
    intro u hu
    rw [ht.departed] at hu
    have hnone := h.disjoint u hu
    rw [hat, hnone]
    split_ifs with htoken
    · subst htoken
      rw [hnone] at hlive
      cases hlive
    · rfl

/-- A wake leaves the board coherent. -/
theorem Coherent.woke {head : Option Token} {r' : Ready} (h : b.Coherent)
    (hwoke : Ready.Woke head b.ready r') : Coherent { b with ready := r' } := by
  have hstate (u : Token) : r'.states[u]? = b.ready.states[u]? ∨
      r'.states[u]? = b.ready.states[u]?.map TaskState.woken := by
    rw [hwoke.states]
    split_ifs
    · exact Or.inr rfl
    · exact Or.inl rfl
  constructor
  case consistent => exact hwoke.consistent h.consistent
  case capacity => exact hwoke.capacity.trans h.capacity
  case live =>
    intro u
    dsimp only
    rw [← h.live]
    rcases hstate u with heq | heq <;> simp [heq]
  case requests =>
    intro k u
    dsimp only
    rw [hwoke.waiters]
    exact h.requests k u
  case waiting =>
    intro u reason hwaiting
    rcases hstate u with heq | heq
    · exact h.waiting u reason (heq.symm.trans hwaiting)
    · dsimp only at hwaiting
      rw [heq, Option.map_eq_some_iff] at hwaiting
      obtain ⟨s, _, hs⟩ := hwaiting
      exact absurd hs (woken_ne_waiting s reason)
  case running =>
    intro u hrunning
    rcases hstate u with heq | heq
    · exact h.running u (heq.symm.trans hrunning)
    · dsimp only at hrunning
      rw [heq, Option.map_eq_some_iff] at hrunning
      obtain ⟨s, _, hs⟩ := hrunning
      exact absurd hs (woken_ne_running s)
  case turn =>
    intro u hu
    dsimp only
    rcases hstate u with heq | heq
    · rw [heq]
      exact h.turn u hu
    · rcases h.turn u hu with hs | hs <;> rw [heq, hs] <;> exact Or.inr rfl
  case first =>
    intro u k hk
    dsimp only
    rw [hwoke.waiters]
    exact h.first u k hk
  case holds =>
    intro u e he
    exact ⟨(h.holds u e he).returned, (h.holds u e he).fits, (h.holds u e he).runs,
      (h.holds u e he).counted⟩
  case departed => exact h.departed
  case disjoint => exact h.disjoint

end Changes

/-! ## The poll of a task -/

section Polls

variable {b : Board} {token : Token} {entry : Entry}

theorem Coherent.entry_of_turn (h : b.Coherent) (hphase : b.phase.token = some token) :
    ∃ e, b.live[token]? = some e := by
  rw [← Option.isSome_iff_exists, ← h.live]
  rcases h.turn token hphase with hs | hs <;> simp [hs]

/-- The steps that keep the task at its suspension point. -/
structure SameTask (e e' : Entry) : Prop where
  connection : e'.connection = e.connection
  registered : e'.registered = e.registered

theorem SameTask.request_eq {e e' : Entry} (h : SameTask e e') : e'.request = e.request := by
  simp [Entry.request, Entry.await, h.connection, h.registered]

theorem SameTask.await_eq {e e' : Entry} (h : SameTask e e') : e'.await = e.await := by
  simp [Entry.await, h.connection]

/-- A task that goes on waiting where it is, behind a change of the phase. -/
theorem Holds.same {e e' : Entry} {b' : Board} (h : b.Holds token e) (hsame : SameTask e e')
    (hsettings : b'.settings = b.settings)
    (hphase : b'.phase = .ended token ↔ b.phase = .ended token)
    (hattempt : b'.phase ≠ .attempting token .queue) : b'.Holds token e' := by
  refine ⟨?_, ?_, ?_, fun h ↦ absurd h hattempt⟩
  · rw [hsame.await_eq, hphase]
    exact h.returned
  · rw [hsame.await_eq, hsame.registered, hsettings]
    exact h.fits
  · rw [hsame.connection, hsettings]
    exact h.runs

theorem Coherent.mem_requests (h : b.Coherent) (hlive : b.live[token]? = some entry)
    (k : Resource) : token ∈ (b.ready.waiters k).tokens ↔ entry.request = some k := by
  rw [h.requests, hlive]
  rfl

theorem lookup_same (hlive : b.live[token]? = some entry) (u : Token) :
    b.live[u]? = if token = u then some entry else b.live[u]? := by
  split_ifs with hu
  · rw [← hu, hlive]
  · rfl

/-- The end of a poll with a later turn queued, after the entry became `e'`. -/
theorem Coherent.yield_spec {e' : Entry} (h : b.Coherent) (hphase : b.phase = .polling token)
    (hlive : b.live[token]? = some entry) (hsame : SameTask entry e')
    {m : Std.TreeMap Token Entry}
    (hm : ∀ u : Token, m[u]? = if token = u then some e' else b.live[u]?) :
    ∃ r', Board.yield { b with live := m } token =
        some { b with ready := r', live := m, phase := .idle } ∧
      Ready.Woke (some token) b.ready r' ∧
      Coherent { b with ready := r', live := m, phase := .idle } := by
  obtain ⟨r', inserted, henqueue, hwoke⟩ := h.consistent.toSound.enqueue_woke token
  have htoken : b.phase.token = some token := by rw [hphase]; rfl
  have hrunnable := hwoke.runnable (h.live_iff.mpr (by simp [hlive]))
  refine ⟨r', by simp [Board.yield, henqueue], hwoke,
    h.turned (Or.inr htoken) (by simp [hlive]) ?_ (e := e')⟩
  constructor
  case settings => rfl
  case live => exact hm
  case departed => rfl
  case consistent => exact hwoke.consistent h.consistent
  case capacity => exact hwoke.capacity
  case aside =>
    intro u hu
    left
    rw [hwoke.states, if_neg (by simpa using hu)]
  case exists_state => exact hrunnable.live
  case requests =>
    intro k u
    dsimp only
    rw [hwoke.waiters]
    split_ifs with hu
    · rw [← hu, h.mem_requests hlive, hsame.request_eq]
    · rfl
  case waiting =>
    intro reason hwaiting
    rcases hrunnable with hs | hs <;> rw [hs] at hwaiting <;> cases hwaiting
  case running =>
    intro hrunning
    rcases hrunnable with hs | hs <;> rw [hs] at hrunning <;> cases hrunning
  case phase => exact Or.inl rfl
  case turn => nofun
  case first => simp
  case holds =>
    refine (h.holds token entry hlive).same hsame rfl ?_ nofun
    rw [hphase]
    simp

/-- The end of a poll with a wait, after the entry became `e'`. -/
theorem Coherent.park_spec {e' : Entry} {reason : WaitReason} (h : b.Coherent)
    (hphase : b.phase.token = some token) (hended : b.phase ≠ .ended token)
    (hlive : b.live[token]? = some entry) (hsame : SameTask entry e')
    (hreason : e'.waitsFor = some reason)
    {m : Std.TreeMap Token Entry}
    (hm : ∀ u : Token, m[u]? = if token = u then some e' else b.live[u]?) :
    ∃ r' s, b.ready.states[token]? = some s ∧ (s = .running ∨ s = .notified) ∧
      Board.park { b with live := m } token reason =
        some { b with ready := r', live := m, phase := .idle } ∧
      r'.Consistent ∧ r'.capacity = b.ready.capacity ∧
      (∀ k, (r'.waiters k).tokens = (b.ready.waiters k).tokens) ∧
      (∀ u : Token, r'.states[u]? =
        if token = u then some (Ready.parked reason s) else b.ready.states[u]?) ∧
      Coherent { b with ready := r', live := m, phase := .idle } := by
  obtain ⟨s, hs, hturn⟩ : ∃ s, b.ready.states[token]? = some s ∧ (s = .running ∨ s = .notified) := by
    rcases h.turn token hphase with hs | hs
    · exact ⟨_, hs, Or.inl rfl⟩
    · exact ⟨_, hs, Or.inr rfl⟩
  obtain ⟨r', hpark, hconsistent, hcapacity, hwaiters, hstates⟩ :=
    h.consistent.park_spec hs reason
  have htokens (k : Resource) : (r'.waiters k).tokens = (b.ready.waiters k).tokens := by
    rw [hwaiters]
    split_ifs with hk
    · have hmem : token ∈ (b.ready.waiters k).tokens := by
        rw [h.mem_requests hlive, ← hsame.request_eq]
        rw [Entry.waitsFor] at hreason
        split_ifs at hreason with hread
        · rw [← hk] at hreason
          cases k <;> cases hreason
        · obtain ⟨j, hj, hjk⟩ := Option.map_eq_some_iff.mp hreason
          rw [hj, ← hk] at *
          cases j <;> cases k <;> first | rfl | cases hjk
      rw [Fifo.tokens_pushBack, if_pos hmem]
    · rfl
  refine ⟨r', s, hs, hturn, by simp [Board.park, hpark], hconsistent, hcapacity, htokens, hstates,
    h.turned (Or.inr hphase) (by simp [hlive]) ?_ (e := e')⟩
  have hnotRunning : Ready.parked reason s ≠ .running := by
    cases s <;> simp [Ready.parked]
  constructor
  case settings => rfl
  case live => exact hm
  case departed => rfl
  case consistent => exact hconsistent
  case capacity => exact hcapacity
  case aside =>
    intro u hu
    left
    rw [hstates, if_neg hu]
  case exists_state => simp [hstates]
  case requests =>
    intro k u
    dsimp only
    rw [htokens]
    split_ifs with hu
    · rw [← hu, h.mem_requests hlive, hsame.request_eq]
    · rfl
  case waiting =>
    intro other hwaiting
    dsimp only at hwaiting
    rw [hstates, if_pos rfl, Option.some.injEq] at hwaiting
    rw [hreason]
    rcases hturn with rfl | rfl
    · cases hwaiting
      rfl
    · cases hwaiting
  case running =>
    intro hrunning
    dsimp only at hrunning
    rw [hstates, if_pos rfl, Option.some.injEq] at hrunning
    exact absurd hrunning hnotRunning
  case phase => exact Or.inl rfl
  case turn => rintro ⟨⟩
  case first => simp
  case holds =>
    refine (h.holds token entry hlive).same hsame rfl ?_ (by rintro ⟨⟩)
    simp [hended]

/-- The board behind `request_turn`, which changes only the last position. -/
def registered (b : Board) (token : Token) (entry : Entry) (k : Resource) (phase : Phase) :
    Board :=
  { b with
    ready := b.ready.setWaiters ((b.ready.waiters k).pushBack token) k
    live := b.live.insert token { entry with registered := true }
    log := if entry.registered then b.log else b.log ++ [.registered token k]
    phase := phase }

theorem request_of_registered {entry : Entry} {k : Resource} (hwants : entry.await.wants = some k) :
    Entry.request { entry with registered := true } = some k := hwants

theorem Coherent.registered {e : Entry} {k : Resource} {phase : Phase} (h : b.Coherent)
    (hphase : b.phase = .polling token) (hlive : b.live[token]? = some entry)
    (hsame : SameTask entry e) (hwants : e.await.wants = some k)
    (hfits : ∀ bytes after, e.await = .copy bytes after →
      bytes.length ≤ b.settings.capacity.val)
    (hcount : k = .queue → e.connection.task.nextCount ≠ none)
    (hnext : phase = .polling token ∨ phase = .attempting token k ∧
      ((b.ready.waiters k).pushBack token).tokens.head? = some token) :
    (b.registered token e k phase).Coherent := by
  have htoken : b.phase.token = some token := by rw [hphase]; rfl
  have htoken' : phase.token = some token := by
    rcases hnext with rfl | ⟨rfl, _⟩ <;> rfl
  have hended : phase ≠ .ended token := by
    rcases hnext with rfl | ⟨rfl, _⟩ <;> nofun
  have hlive' : b.ready.Live token := h.live_iff.mpr (by simp [hlive])
  have hready := (h.consistent.requestTurn_spec hlive' k).2
  have hrequest : e.request = none ∨ e.request = some k := by
    unfold Entry.request
    split_ifs
    · exact Or.inr hwants
    · exact Or.inl rfl
  refine h.turned (Or.inr htoken) (by simp [hlive]) ?_ (e := { e with registered := true })
  constructor
  case settings => rfl
  case live => exact Std.TreeMap.getElem?_insert_ite _ _ _
  case departed => rfl
  case consistent => exact hready
  case capacity => exact Ready.capacity_setWaiters _ _ _
  case aside =>
    intro u hu
    left
    simp [Board.registered]
  case exists_state =>
    have hstate := h.live token
    rw [hlive] at hstate
    simpa [Board.registered] using hstate
  case requests =>
    intro j u
    rw [request_of_registered hwants]
    simp only [Board.registered, Ready.waiters_setWaiters]
    by_cases hj : j = k
    · subst hj
      by_cases hu : token = u
      · simp [hu]
      · have hu' : u ≠ token := fun heq ↦ hu heq.symm
        simp [hu, hu']
    · rw [if_neg hj]
      split_ifs with hu
      · rw [← hu, h.mem_requests hlive, ← hsame.request_eq]
        rcases hrequest with hnone | hsome
        · rw [hnone]
          simpa using fun hk ↦ hj hk.symm
        · rw [hsome]
      · rfl
  case waiting =>
    intro reason hwaiting
    simp only [Board.registered, Ready.states_setWaiters] at hwaiting
    rcases h.turn token htoken with hs | hs <;> rw [hs] at hwaiting <;> cases hwaiting
  case running => exact fun _ ↦ htoken'
  case phase => exact Or.inr htoken'
  case turn =>
    intro _
    simpa [Board.registered] using h.turn token htoken
  case first =>
    intro j hj
    have hphase' : (b.registered token e k phase).phase = phase := rfl
    rcases hnext with rfl | ⟨rfl, hhead⟩
    · rw [hphase'] at hj
      simp at hj
    · rw [hphase'] at hj
      obtain rfl : k = j := by simpa using hj
      simpa only [Board.registered, Ready.waiters_setWaiters, if_pos] using hhead
  case holds =>
    have hentry := h.holds token entry hlive
    refine ⟨?_, fun bytes after _ hat ↦ hfits bytes after hat, ?_, ?_⟩
    · have hreturned : ¬ e.await.Returned := by
        rw [hsame.await_eq, hentry.returned, hphase]
        nofun
      exact iff_of_false hreturned hended
    · have hruns := hentry.runs
      rw [← hsame.connection] at hruns
      exact hruns
    · intro hattempt
      have hattempt' : phase = .attempting token .queue := hattempt
      rcases hnext with rfl | ⟨rfl, _⟩
      · cases hattempt'
      · cases hattempt'
        exact hcount rfl

/-- A request registers; if it is first it goes on to its attempt, else its task
parks. -/
theorem Coherent.request_spec {e : Entry} {k : Resource} (h : b.Coherent)
    (hphase : b.phase = .polling token) (hlive : b.live[token]? = some entry)
    (hsame : SameTask entry e) (hwants : e.await.wants = some k)
    (hfits : ∀ bytes after, e.await = .copy bytes after →
      bytes.length ≤ b.settings.capacity.val)
    (hcount : k = .queue → e.connection.task.nextCount ≠ none) :
    (((b.ready.waiters k).pushBack token).tokens.head? = some token ∧
        b.request token e k = some (b.registered token e k (.attempting token k)) ∧
        (b.registered token e k (.attempting token k)).Coherent) ∨
      (((b.ready.waiters k).pushBack token).tokens.head? ≠ some token ∧
        ∃ r', b.request token e k =
            some { b.registered token e k .idle with ready := r' } ∧
          r'.Consistent ∧
          (∀ j, (r'.waiters j).tokens =
            ((b.registered token e k .idle).ready.waiters j).tokens) ∧
          (∀ u : Token, token ≠ u → r'.states[u]? = b.ready.states[u]?) ∧
          Coherent { b.registered token e k .idle with ready := r' }) := by
  have hlive' : b.ready.Live token := h.live_iff.mpr (by simp [hlive])
  obtain ⟨hturn, hconsistent⟩ := h.consistent.requestTurn_spec hlive' k
  by_cases hhead : ((b.ready.waiters k).pushBack token).tokens.head? = some token
  · refine Or.inl ⟨hhead, ?_, ?_⟩
    · simp [Board.request, hturn, hhead, Board.registered]
    · exact h.registered hphase hlive hsame hwants hfits hcount (Or.inr ⟨rfl, hhead⟩)
  · refine Or.inr ⟨hhead, ?_⟩
    have hmiddle : (b.registered token e k (.polling token)).Coherent :=
      h.registered hphase hlive hsame hwants hfits hcount (Or.inl rfl)
    have hat : (b.registered token e k (.polling token)).live[token]? =
        some { e with registered := true } := by simp [Board.registered]
    have hreason : Entry.waitsFor { e with registered := true } = some k.reason := by
      unfold Entry.waitsFor
      rw [request_of_registered hwants, if_neg]
      · rfl
      · intro hread
        have hawait : e.await = .read := hread
        rw [hawait] at hwants
        cases hwants
    obtain ⟨r', s, hs, hs', hpark, hr', hcapacity, htokens, hstates, hcoherent⟩ :=
      hmiddle.park_spec (m := (b.registered token e k (.polling token)).live) rfl nofun hat
        ⟨rfl, rfl⟩ hreason (Board.lookup_same hat)
    refine ⟨r', ?_, hr', htokens, ?_, hcoherent⟩
    · have hpark' : Board.park { b with
          ready := b.ready.setWaiters ((b.ready.waiters k).pushBack token) k
          live := b.live.insert token { e with registered := true }
          log := if e.registered then b.log else b.log ++ [.registered token k] } token k.reason =
            some { b.registered token e k .idle with ready := r' } := by
        have hsame' : { b with
            ready := b.ready.setWaiters ((b.ready.waiters k).pushBack token) k
            live := b.live.insert token { e with registered := true }
            log := if e.registered then b.log else b.log ++ [.registered token k] } =
              b.registered token e k (.polling token) := by
          simp [Board.registered, ← hphase]
        rw [hsame']
        exact hpark
      simp [Board.request, hturn, hhead, hpark']
    · intro u hu
      rw [hstates, if_neg hu]
      exact congrArg (·[u]?) (Ready.states_setWaiters _ _ _)

theorem Coherent.with_log (h : b.Coherent) (log : List RequestEvent) :
    Coherent { b with log } where
  consistent := h.consistent
  capacity := h.capacity
  live := h.live
  requests := h.requests
  waiting := h.waiting
  running := h.running
  turn := h.turn
  first := h.first
  holds u e he := ⟨(h.holds u e he).returned, (h.holds u e he).fits, (h.holds u e he).runs,
    (h.holds u e he).counted⟩
  departed := h.departed
  disjoint := h.disjoint

end Polls

end Board

end Phonowire.Receiver
