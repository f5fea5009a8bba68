import Phonowire.Receiver.Order

/-!
# Task readiness of one worker

A live token is running, queued for a later turn, or waiting for a named reason;
a wake during its own turn leaves it running with a later turn already queued.
Requests for a queue slot or for bytes wait in two orders of their own, whose
first token alone is resumed. Every assertion of the source is the outcome
`none`, and a consistent state has none of them.
-/

namespace Phonowire.Receiver

inductive WaitReason where
  | kernel
  | queue
  | bytes
  deriving DecidableEq, Repr

/-- What a task can request: a slot of the handoff channel, or bytes of the
budget. -/
inductive Resource where
  | queue
  | bytes
  deriving DecidableEq, Repr

def Resource.reason : Resource → WaitReason
  | .queue => .queue
  | .bytes => .bytes

/-- The `State` of a live token. -/
inductive TaskState where
  | running
  | notified
  | queued
  | waiting (reason : WaitReason)
  deriving DecidableEq, Repr

/-- The state after a wake that queues a turn. A turn already queued is not
queued again. -/
def TaskState.wake : TaskState → Option TaskState
  | .queued => none
  | .notified => none
  | .running => some .notified
  | .waiting _ => some .queued

/-- The state a wake leaves. -/
def TaskState.woken (s : TaskState) : TaskState := s.wake.getD s

structure Ready where
  states : Std.TreeMap Token TaskState
  queue : Fifo
  queueWaiters : Fifo
  byteWaiters : Fifo
  capacity : ℕ

namespace Ready

def new (capacity : ℕ) : Ready := ⟨∅, .empty, .empty, .empty, capacity⟩

def enqueue (r : Ready) (token : Token) : Option (Ready × Bool) :=
  match r.states[token]?.bind TaskState.wake with
  | none => some (r, false)
  | some next =>
      if r.queue.len < r.capacity then
        some ({ r with
          states := r.states.insert token next
          queue := r.queue.pushBack token }, true)
      else none

def requests (r : Ready) : WaitReason → Option Fifo
  | .queue => some r.queueWaiters
  | .bytes => some r.byteWaiters
  | .kernel => none

def setRequests (r : Ready) (requests : Fifo) : WaitReason → Ready
  | .queue => { r with queueWaiters := requests }
  | .bytes => { r with byteWaiters := requests }
  | .kernel => r

def resumeHead (r : Ready) (reason : WaitReason) : Option (Ready × Bool) := do
  let requests ← r.requests reason
  match requests.first with
  | none => some (r, false)
  | some token => r.enqueue token

def removeRequest (r : Ready) (token : Token) (reason : WaitReason) : Option (Ready × Bool) := do
  let requests ← r.requests reason
  let r := r.setRequests (requests.remove token) reason
  if requests.first = some token then r.resumeHead reason else some (r, false)

/-! ## The operations of the scheduler -/

def insert (r : Ready) (token : Token) : Option Ready :=
  if r.states.size < r.capacity ∧ r.states[token]? = none then
    some { r with
      states := r.states.insert token .queued
      queue := r.queue.pushBack token }
  else none

def take (r : Ready) : Option (Ready × Option Token) :=
  match r.queue.popFront with
  | (_, none) => some (r, none)
  | (queue, some token) =>
      match r.states[token]? with
      | some _ => some ({ r with states := r.states.insert token .running, queue }, some token)
      | none => none

def hasReady (r : Ready) : Bool := r.queue.first.isSome

def ioReady (r : Ready) (token : Token) : Option Ready :=
  if r.states[token]? = some (.waiting .kernel) then (r.enqueue token).map Prod.fst else some r

def park (r : Ready) (token : Token) (reason : WaitReason) : Option Ready := do
  let state ← r.states[token]?
  let r :=
    if state = .notified then { r with states := r.states.insert token .queued }
    else { r with
      states := r.states.insert token (.waiting reason)
      queue := r.queue.remove token }
  if reason = .kernel then some r
  else do
    let requests ← r.requests reason
    some (r.setRequests (requests.pushBack token) reason)

/-- The position of a request, with whether it is the first. -/
def requestTurn (r : Ready) (token : Token) (reason : WaitReason) : Option (Ready × Bool) :=
  if r.states[token]?.isSome then do
    let requests ← r.requests reason
    let requests := requests.pushBack token
    some (r.setRequests requests reason, requests.first = some token)
  else none

def finishRequest (r : Ready) (token : Token) (reason : WaitReason) : Option Ready :=
  (r.removeRequest token reason).map Prod.fst

def verifyPending (r : Ready) (token : Token) : Option Unit :=
  if r.states[token]? = some .running then none else some ()

def retire (r : Ready) (token : Token) : Option Ready := do
  let r := { r with
    states := r.states.erase token
    queue := r.queue.remove token }
  let (r, _) ← r.removeRequest token .queue
  let (r, _) ← r.removeRequest token .bytes
  some r

/-! ## The two requests -/

def waiters (r : Ready) : Resource → Fifo
  | .queue => r.queueWaiters
  | .bytes => r.byteWaiters

def setWaiters (r : Ready) (f : Fifo) : Resource → Ready
  | .queue => { r with queueWaiters := f }
  | .bytes => { r with byteWaiters := f }

section Waiters

variable (r : Ready) (f : Fifo) (k : Resource)

@[simp] theorem requests_reason : r.requests k.reason = some (r.waiters k) := by
  cases k <;> rfl

@[simp] theorem setRequests_reason : r.setRequests f k.reason = r.setWaiters f k := by
  cases k <;> rfl

theorem waiters_setWaiters (j : Resource) :
    (r.setWaiters f k).waiters j = if j = k then f else r.waiters j := by
  cases j <;> cases k <;> rfl

@[simp] theorem states_setWaiters : (r.setWaiters f k).states = r.states := by
  cases k <;> rfl

@[simp] theorem queue_setWaiters : (r.setWaiters f k).queue = r.queue := by
  cases k <;> rfl

@[simp] theorem capacity_setWaiters : (r.setWaiters f k).capacity = r.capacity := by
  cases k <;> rfl

end Waiters

/-! ## Consistent states -/

def Runnable (r : Ready) (token : Token) : Prop :=
  r.states[token]? = some .queued ∨ r.states[token]? = some .notified

def Live (r : Ready) (token : Token) : Prop := r.states[token]?.isSome = true

/-- The runnable queue holds exactly the tokens with a turn to come, and no
more tokens are live than the capacity. -/
structure Sound (r : Ready) : Prop where
  queue : ∀ token, token ∈ r.queue.tokens ↔ r.Runnable token
  size : r.states.size ≤ r.capacity

/-- A sound state in which every request is of a live token. -/
structure Consistent (r : Ready) : Prop extends r.Sound where
  waiters : ∀ k, ∀ token ∈ (r.waiters k).tokens, r.Live token

theorem Runnable.live {r : Ready} {token : Token} (h : r.Runnable token) : r.Live token := by
  rcases h with h | h <;> simp [Live, h]

theorem consistent_new (capacity : ℕ) : (new capacity).Consistent := by
  refine ⟨⟨?_, by simp [new]⟩, ?_⟩
  · intro token
    simp [new, Runnable]
  · intro k token htoken
    cases k <;> simp [new, waiters] at htoken

/-! ## Wakes -/

/-- `r'` is `r` after a wake of `head`, if there is one. -/
structure Woke (head : Option Token) (r r' : Ready) : Prop where
  sound : r'.Sound
  capacity : r'.capacity = r.capacity
  waiters : ∀ k, r'.waiters k = r.waiters k
  states : ∀ u, r'.states[u]? =
    if head = some u then r.states[u]?.map TaskState.woken else r.states[u]?

section Wakes

variable {r r' : Ready} {token : Token} {head : Option Token}

theorem Sound.woke_none (h : r.Sound) : Woke none r r :=
  ⟨h, rfl, fun _ ↦ rfl, fun _ ↦ rfl⟩

theorem woken_of_wake_none {s : TaskState} (h : s.wake = none) : s.woken = s := by
  simp [TaskState.woken, h]

theorem woken_runnable (s : TaskState) : s.woken = .queued ∨ s.woken = .notified := by
  cases s <;> simp [TaskState.woken, TaskState.wake]

/-- The runnable queue has room for a live token outside it. -/
theorem Sound.queue_len_lt (h : r.Sound) {s next : TaskState}
    (hstate : r.states[token]? = some s) (hwake : s.wake = some next) :
    r.queue.len < r.capacity := by
  have hnot : token ∉ r.queue.tokens := by
    rw [h.queue]
    rintro (hq | hn)
    · rw [hstate] at hq
      cases hq
      cases hwake
    · rw [hstate] at hn
      cases hn
      cases hwake
  have hsubset : token :: r.queue.tokens ⊆ r.states.keys := by
    intro u hu
    rw [Std.TreeMap.mem_keys, ← Std.TreeMap.isSome_getElem?_iff_mem]
    rcases List.mem_cons.mp hu with rfl | hmem
    · simp [hstate]
    · exact ((h.queue u).mp hmem).live
  have hnodup : (token :: r.queue.tokens).Nodup := List.nodup_cons.mpr ⟨hnot, r.queue.nodup⟩
  have hle := (List.subperm_of_subset hnodup hsubset).length_le
  rw [Std.TreeMap.length_keys, List.length_cons] at hle
  rw [Fifo.len_eq]
  exact hle.trans h.size

theorem Sound.enqueue_woke (h : r.Sound) (token : Token) :
    ∃ r' inserted, r.enqueue token = some (r', inserted) ∧ Woke (some token) r r' := by
  cases hstate : r.states[token]? with
  | none =>
      refine ⟨r, false, by simp [enqueue, hstate], h, rfl, fun _ ↦ rfl, ?_⟩
      intro u
      split_ifs with hu
      · cases hu
        simp [hstate]
      · rfl
  | some s =>
      cases hwake : s.wake with
      | none =>
          refine ⟨r, false, by simp [enqueue, hstate, hwake], h, rfl, fun _ ↦ rfl, ?_⟩
          intro u
          split_ifs with hu
          · cases hu
            simp [hstate, woken_of_wake_none hwake]
          · rfl
      | some next =>
          have hlen := h.queue_len_lt hstate hwake
          have hnext : s.woken = next := by simp [TaskState.woken, hwake]
          have hstates (u : Token) : (r.states.insert token next)[u]? =
              if (some token) = some u then r.states[u]?.map TaskState.woken
              else r.states[u]? := by
            by_cases hu : token = u
            · subst hu
              simp [hstate, hnext]
            · rw [if_neg (by simpa using hu), Std.TreeMap.getElem?_insert_of_ne hu]
          refine ⟨{ r with states := r.states.insert token next, queue := r.queue.pushBack token },
            true, by simp [enqueue, hstate, hwake, hlen], ⟨?_, ?_⟩, rfl, fun k ↦ by cases k <;> rfl,
            hstates⟩
          · intro u
            rw [Fifo.mem_pushBack, h.queue]
            unfold Runnable
            dsimp only
            rw [hstates]
            by_cases hu : token = u
            · subst hu
              have hrun := woken_runnable s
              simp [hstate, hrun]
            · have hu' : u ≠ token := fun heq ↦ hu heq.symm
              simp [hu, hu']
          · have hsize := Std.TreeMap.total_insert (f := fun _ _ ↦ 1) hstate next
            rw [Std.TreeMap.total_one, Std.TreeMap.total_one] at hsize
            have hle := h.size
            dsimp only
            omega

theorem Woke.live_iff (h : Woke head r r') (u : Token) : r'.Live u ↔ r.Live u := by
  unfold Live
  rw [h.states]
  split_ifs <;> simp

theorem Woke.consistent (h : Woke head r r') (hr : r.Consistent) : r'.Consistent where
  toSound := h.sound
  waiters k u hu := by
    rw [h.waiters] at hu
    exact (h.live_iff u).mpr (hr.waiters k u hu)

/-- A live token that is woken has a turn to come. -/
theorem Woke.runnable (h : Woke (some token) r r') (hlive : r.Live token) :
    r'.Runnable token := by
  obtain ⟨s, hs⟩ := Option.isSome_iff_exists.mp hlive
  have hstate := h.states token
  rw [if_pos rfl, hs, Option.map_some] at hstate
  rcases woken_runnable s with hq | hn
  · exact Or.inl (hstate.trans (congrArg some hq))
  · exact Or.inr (hstate.trans (congrArg some hn))

theorem Sound.resumeHead_woke (h : r.Sound) (k : Resource) :
    ∃ r' inserted, r.resumeHead k.reason = some (r', inserted) ∧
      Woke (r.waiters k).tokens.head? r r' := by
  unfold resumeHead
  simp only [requests_reason, Option.bind_eq_bind, Option.bind_some, Fifo.first_eq]
  cases (r.waiters k).tokens.head? with
  | none => exact ⟨r, false, rfl, h.woke_none⟩
  | some token => exact h.enqueue_woke token

/-- Whom the removal of a request wakes: the new first, if the first left. -/
def successor (r : Ready) (token : Token) (k : Resource) : Option Token :=
  if (r.waiters k).tokens.head? = some token then ((r.waiters k).tokens.erase token).head?
  else none

theorem Sound.setWaiters (h : r.Sound) (f : Fifo) (k : Resource) : (r.setWaiters f k).Sound := by
  cases k <;> exact ⟨h.queue, h.size⟩

theorem Sound.removeRequest_woke (h : r.Sound) (token : Token) (k : Resource) :
    ∃ r' inserted, r.removeRequest token k.reason = some (r', inserted) ∧
      Woke (r.successor token k) (r.setWaiters ((r.waiters k).remove token) k) r' := by
  have hset := h.setWaiters ((r.waiters k).remove token) k
  unfold removeRequest successor
  simp only [requests_reason, setRequests_reason, Option.bind_eq_bind, Option.bind_some,
    Fifo.first_eq]
  split_ifs with hhead
  · have hresume := hset.resumeHead_woke k
    rwa [waiters_setWaiters, if_pos rfl, Fifo.tokens_remove] at hresume
  · exact ⟨_, false, rfl, hset.woke_none⟩

end Wakes

/-! ## What each operation does -/

section Operations

variable {r : Ready} {token : Token}

theorem Consistent.insert_spec (h : r.Consistent) (hfresh : r.states[token]? = none)
    (hroom : r.states.size < r.capacity) :
    ∃ r', r.insert token = some r' ∧ r'.Consistent ∧ r'.capacity = r.capacity ∧
      (∀ k, r'.waiters k = r.waiters k) ∧
      ∀ u, r'.states[u]? = if token = u then some .queued else r.states[u]? := by
  refine ⟨{ r with states := r.states.insert token .queued, queue := r.queue.pushBack token },
    by simp [insert, hfresh, hroom], ⟨⟨?_, ?_⟩, ?_⟩, rfl, fun k ↦ by cases k <;> rfl,
    Std.TreeMap.getElem?_insert_ite _ _ _⟩
  · intro u
    rw [Fifo.mem_pushBack, h.queue]
    unfold Runnable
    dsimp only
    rw [Std.TreeMap.getElem?_insert_ite]
    by_cases hu : token = u
    · subst hu
      simp
    · have hu' : u ≠ token := fun heq ↦ hu heq.symm
      simp [hu, hu']
  · have hsize := Std.TreeMap.total_insert_of_none (f := fun _ _ ↦ 1) hfresh TaskState.queued
    rw [Std.TreeMap.total_one, Std.TreeMap.total_one] at hsize
    dsimp only
    omega
  · intro k u hu
    have hlive := h.waiters k u (by cases k <;> exact hu)
    unfold Live at hlive ⊢
    dsimp only
    rw [Std.TreeMap.getElem?_insert_ite]
    split_ifs
    · rfl
    · exact hlive

/-- `take` pops the first runnable token, if there is one. -/
theorem Consistent.take_spec (h : r.Consistent) :
    (r.queue.tokens = [] ∧ r.take = some (r, none)) ∨
      ∃ token r', r.queue.tokens.head? = some token ∧ r.take = some (r', some token) ∧
        r'.Consistent ∧ r'.capacity = r.capacity ∧ (∀ k, r'.waiters k = r.waiters k) ∧
        ∀ u, r'.states[u]? = if token = u then some .running else r.states[u]? := by
  cases hhead : r.queue.tokens.head? with
  | none =>
      left
      refine ⟨List.head?_eq_none_iff.mp hhead, ?_⟩
      simp [take, Fifo.popFront, Fifo.first_eq, hhead]
  | some token =>
      right
      have hmem : token ∈ r.queue.tokens := List.mem_of_head? hhead
      have hrun := (h.queue token).mp hmem
      obtain ⟨s, hs⟩ := Option.isSome_iff_exists.mp hrun.live
      refine ⟨token, { r with
          states := r.states.insert token .running
          queue := r.queue.remove token }, rfl, ?_, ⟨⟨?_, ?_⟩, ?_⟩, rfl, fun k ↦ by cases k <;> rfl,
        Std.TreeMap.getElem?_insert_ite _ _ _⟩
      · simp [take, Fifo.popFront, Fifo.first_eq, hhead, hs]
      · intro u
        rw [Fifo.mem_remove, h.queue]
        unfold Runnable
        dsimp only
        rw [Std.TreeMap.getElem?_insert_ite]
        by_cases hu : token = u
        · subst hu
          simp
        · have hu' : u ≠ token := fun heq ↦ hu heq.symm
          simp [hu, hu']
      · have hsize := Std.TreeMap.total_insert (f := fun _ _ ↦ 1) hs TaskState.running
        rw [Std.TreeMap.total_one, Std.TreeMap.total_one] at hsize
        have hle := h.size
        dsimp only
        omega
      · intro k u hu
        have hlive := h.waiters k u (by cases k <;> exact hu)
        unfold Live at hlive ⊢
        dsimp only
        rw [Std.TreeMap.getElem?_insert_ite]
        split_ifs
        · rfl
        · exact hlive

/-- The state in which a token parks: a wake during its turn stays a turn to
come. -/
def parked (reason : WaitReason) : TaskState → TaskState
  | .notified => .queued
  | _ => .waiting reason

theorem Consistent.park_spec (h : r.Consistent) {s : TaskState}
    (hstate : r.states[token]? = some s) (reason : WaitReason) :
    ∃ r', r.park token reason = some r' ∧ r'.Consistent ∧ r'.capacity = r.capacity ∧
      (∀ k, r'.waiters k =
        if k.reason = reason then (r.waiters k).pushBack token else r.waiters k) ∧
      ∀ u, r'.states[u]? = if token = u then some (parked reason s) else r.states[u]? := by
  have hbase : ∃ base : Ready, (if s = .notified then
        { r with states := r.states.insert token .queued }
      else { r with
        states := r.states.insert token (.waiting reason)
        queue := r.queue.remove token }) = base ∧
      base.Consistent ∧ base.capacity = r.capacity ∧ (∀ k, base.waiters k = r.waiters k) ∧
      ∀ u, base.states[u]? = if token = u then some (parked reason s) else r.states[u]? := by
    have hlive (state : TaskState) : ∀ k, ∀ u ∈ (r.waiters k).tokens,
        (r.states.insert token state)[u]?.isSome = true := by
      intro k u hu
      rw [Std.TreeMap.getElem?_insert_ite]
      split_ifs
      · rfl
      · exact h.waiters k u hu
    have hsize (state : TaskState) : (r.states.insert token state).size ≤ r.capacity := by
      have hsize := Std.TreeMap.total_insert (f := fun _ _ ↦ 1) hstate state
      rw [Std.TreeMap.total_one, Std.TreeMap.total_one] at hsize
      have hle := h.size
      omega
    by_cases hn : s = .notified
    · subst hn
      refine ⟨_, if_pos rfl, ⟨⟨?_, hsize _⟩, fun k u hu ↦ hlive _ k u (by cases k <;> exact hu)⟩,
        rfl, fun k ↦ by cases k <;> rfl, Std.TreeMap.getElem?_insert_ite _ _ _⟩
      intro u
      unfold Runnable
      dsimp only
      rw [h.queue, Std.TreeMap.getElem?_insert_ite]
      by_cases hu : token = u
      · subst hu
        simp [Runnable, hstate]
      · simp [hu, Runnable]
    · have hparked : parked reason s = .waiting reason := by
        cases s <;> simp_all [parked]
      rw [hparked]
      refine ⟨_, if_neg hn, ⟨⟨?_, hsize _⟩, fun k u hu ↦ hlive _ k u (by cases k <;> exact hu)⟩,
        rfl, fun k ↦ by cases k <;> rfl, Std.TreeMap.getElem?_insert_ite _ _ _⟩
      intro u
      rw [Fifo.mem_remove, h.queue]
      unfold Runnable
      dsimp only
      rw [Std.TreeMap.getElem?_insert_ite]
      by_cases hu : token = u
      · subst hu
        simp
      · have hu' : u ≠ token := fun heq ↦ hu heq.symm
        simp [hu, hu']
  obtain ⟨base, heq, hconsistent, hcapacity, hwaiters, hstates⟩ := hbase
  unfold park
  simp only [hstate, Option.bind_eq_bind, Option.bind_some, heq]
  by_cases hkernel : reason = .kernel
  · subst hkernel
    refine ⟨base, if_pos rfl, hconsistent, hcapacity, ?_, hstates⟩
    intro k
    rw [hwaiters, if_neg (by cases k <;> decide)]
  · obtain ⟨k, rfl⟩ : ∃ k : Resource, reason = k.reason := by
      cases reason with
      | kernel => exact absurd rfl hkernel
      | queue => exact ⟨.queue, rfl⟩
      | bytes => exact ⟨.bytes, rfl⟩
    rw [if_neg hkernel]
    refine ⟨base.setWaiters ((base.waiters k).pushBack token) k, by simp, ?_, by simp [hcapacity],
      ?_, by simpa using hstates⟩
    · refine ⟨hconsistent.toSound.setWaiters _ _, ?_⟩
      intro j u hu
      rw [waiters_setWaiters] at hu
      unfold Live
      rw [states_setWaiters]
      by_cases hj : j = k
      · rw [if_pos hj, Fifo.mem_pushBack] at hu
        rcases hu with hmem | rfl
        · exact hconsistent.waiters k u hmem
        · rw [hstates, if_pos rfl]
          rfl
      · rw [if_neg hj] at hu
        exact hconsistent.waiters j u hu
    · intro j
      rw [waiters_setWaiters, hwaiters, hwaiters]
      cases j <;> cases k <;> rfl

theorem Consistent.setWaiters (h : r.Consistent) {f : Fifo} (k : Resource)
    (hf : ∀ u ∈ f.tokens, r.Live u) : (r.setWaiters f k).Consistent := by
  refine ⟨h.toSound.setWaiters f k, ?_⟩
  intro j u hu
  rw [waiters_setWaiters] at hu
  unfold Live
  rw [states_setWaiters]
  split_ifs at hu
  · exact hf u hu
  · exact h.waiters j u hu

/-- A request takes the last position unless it has one already. -/
theorem Consistent.requestTurn_spec (h : r.Consistent) (hlive : r.Live token) (k : Resource) :
    r.requestTurn token k.reason =
        some (r.setWaiters ((r.waiters k).pushBack token) k,
          decide (((r.waiters k).pushBack token).tokens.head? = some token)) ∧
      (r.setWaiters ((r.waiters k).pushBack token) k).Consistent := by
  have hsome : r.states[token]?.isSome = true := hlive
  refine ⟨by simp [requestTurn, hsome, Fifo.first_eq], h.setWaiters k ?_⟩
  intro u hu
  rcases (Fifo.mem_pushBack _ _).mp hu with hmem | rfl
  · exact h.waiters k u hmem
  · exact hlive

theorem Consistent.removed (h : r.Consistent) (token : Token) (k : Resource) :
    (r.setWaiters ((r.waiters k).remove token) k).Consistent :=
  h.setWaiters k fun u hu ↦ h.waiters k u ((Fifo.mem_remove _ _).mp hu).1

/-- A finished request leaves its position, and if it was the first the next
one is woken. -/
theorem Consistent.finishRequest_spec (h : r.Consistent) (token : Token) (k : Resource) :
    ∃ r', r.finishRequest token k.reason = some r' ∧ r'.Consistent ∧
      Woke (r.successor token k) (r.setWaiters ((r.waiters k).remove token) k) r' := by
  obtain ⟨r', inserted, hremove, hwoke⟩ := h.toSound.removeRequest_woke token k
  exact ⟨r', by simp [finishRequest, hremove], hwoke.consistent (h.removed token k), hwoke⟩

theorem Consistent.resumeCredit_spec (h : r.Consistent) (k : Resource) :
    ∃ r' inserted, r.resumeHead k.reason = some (r', inserted) ∧ r'.Consistent ∧
      Woke (r.waiters k).tokens.head? r r' := by
  obtain ⟨r', inserted, hresume, hwoke⟩ := h.toSound.resumeHead_woke k
  exact ⟨r', inserted, hresume, hwoke.consistent h, hwoke⟩

theorem Consistent.ioReady_spec (h : r.Consistent) (token : Token) :
    ∃ r', r.ioReady token = some r' ∧ r'.Consistent ∧
      Woke (if r.states[token]? = some (.waiting .kernel) then some token else none) r r' := by
  unfold ioReady
  split_ifs with hkernel
  · obtain ⟨r', inserted, henqueue, hwoke⟩ := h.toSound.enqueue_woke token
    exact ⟨r', by simp [henqueue], hwoke.consistent h, hwoke⟩
  · exact ⟨r, rfl, h, h.toSound.woke_none⟩

/-- What retirement leaves: the token is gone from the states and from every
order, each order keeps the positions of the others, and where the token was
first its successor is woken. -/
structure Retired (r : Ready) (token : Token) (r' : Ready) : Prop where
  consistent : r'.Consistent
  capacity : r'.capacity = r.capacity
  waiters : ∀ k, (r'.waiters k).tokens = (r.waiters k).tokens.erase token
  states : ∀ u, r'.states[u]? = if token = u then none
    else if r.successor token .queue = some u ∨ r.successor token .bytes = some u then
      r.states[u]?.map TaskState.woken
    else r.states[u]?

theorem woken_woken (s : TaskState) : s.woken.woken = s.woken := by
  cases s <;> rfl

theorem Consistent.retire_spec (h : r.Consistent) (token : Token) :
    ∃ r', r.retire token = some r' ∧ r.Retired token r' := by
  have herase := Std.TreeMap.getElem?_erase_ite r.states token
  have hbase : Sound { r with
      states := r.states.erase token
      queue := r.queue.remove token } := by
    constructor
    · intro u
      rw [Fifo.mem_remove, h.queue]
      unfold Runnable
      dsimp only
      rw [herase]
      by_cases hu : token = u
      · subst hu
        simp
      · have hu' : u ≠ token := fun heq ↦ hu heq.symm
        simp [hu, hu']
    · exact Std.TreeMap.size_erase_le.trans h.size
  obtain ⟨r₁, b₁, hqueue, hwoke₁⟩ := hbase.removeRequest_woke token .queue
  obtain ⟨r₂, b₂, hbytes, hwoke₂⟩ := hwoke₁.sound.removeRequest_woke token .bytes
  have hsucc : r₁.successor token .bytes = r.successor token .bytes := by
    unfold successor
    rw [hwoke₁.waiters]
    rfl
  rw [hsucc] at hwoke₂
  have hstates (u : Token) : r₂.states[u]? = if token = u then none
      else if r.successor token .queue = some u ∨ r.successor token .bytes = some u then
        r.states[u]?.map TaskState.woken
      else r.states[u]? := by
    have h₁ := hwoke₁.states u
    have h₂ := hwoke₂.states u
    rw [states_setWaiters] at h₁ h₂
    have hq : successor { r with
        states := r.states.erase token
        queue := r.queue.remove token } token .queue = r.successor token .queue := rfl
    rw [hq] at h₁
    rw [h₂, h₁]
    dsimp only
    rw [herase]
    by_cases hu : token = u
    · simp [hu]
    · by_cases hq : r.successor token .queue = some u <;>
        by_cases hb : r.successor token .bytes = some u <;>
        simp [hu, hq, hb, Function.comp_def, woken_woken]
  have hwaiters (k : Resource) : (r₂.waiters k).tokens = (r.waiters k).tokens.erase token := by
    rw [hwoke₂.waiters, waiters_setWaiters]
    cases k with
    | queue =>
        rw [if_neg (by decide), hwoke₁.waiters, waiters_setWaiters, if_pos rfl]
        rfl
    | bytes =>
        rw [if_pos rfl, hwoke₁.waiters, waiters_setWaiters, if_neg (by decide)]
        rfl
  refine ⟨r₂, ?_, ⟨⟨hwoke₂.sound, ?_⟩, ?_, hwaiters, hstates⟩⟩
  · have hqueue' : removeRequest { r with
        states := r.states.erase token
        queue := r.queue.remove token } token .queue = some (r₁, b₁) := hqueue
    have hbytes' : r₁.removeRequest token .bytes = some (r₂, b₂) := hbytes
    simp [retire, hqueue', hbytes']
  · intro k u hu
    rw [hwaiters, (r.waiters k).nodup.mem_erase_iff] at hu
    have hlive := h.waiters k u hu.2
    unfold Live at hlive ⊢
    rw [hstates, if_neg (fun heq ↦ hu.1 heq.symm)]
    split_ifs
    · simpa using hlive
    · exact hlive
  · rw [hwoke₂.capacity, capacity_setWaiters, hwoke₁.capacity, capacity_setWaiters]

end Operations

end Ready

end Phonowire.Receiver
