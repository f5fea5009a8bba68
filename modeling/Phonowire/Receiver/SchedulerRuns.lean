import Phonowire.Library.Machine
import Phonowire.Receiver.Scheduler

/-!
# Scheduler state over all runs

The callers of the scheduler promise little: a token enters fresh and below the
capacity, it parks and requests only while it is live, and a resource request
names a resource. Over every sequence of calls within that promise the state
stays consistent and no assertion of the scheduler fails.
-/

namespace Phonowire.Receiver

inductive SchedulerCall where
  | insert (token : Token)
  | take
  | ioReady (token : Token)
  | park (token : Token) (reason : WaitReason)
  | wake (token : Token)
  | resumeCredit (reason : WaitReason)
  | requestTurn (token : Token) (reason : WaitReason)
  | finishRequest (token : Token) (reason : WaitReason)
  | retire (token : Token)
  deriving DecidableEq, Repr

namespace Ready

/-- One call; `none` is a failed assertion. -/
def call (r : Ready) : SchedulerCall → Option Ready
  | .insert token => r.insert token
  | .take => r.take.map Prod.fst
  | .ioReady token => r.ioReady token
  | .park token reason => r.park token reason
  | .wake token => (r.enqueue token).map Prod.fst
  | .resumeCredit reason => (r.resumeHead reason).map Prod.fst
  | .requestTurn token reason => (r.requestTurn token reason).map Prod.fst
  | .finishRequest token reason => r.finishRequest token reason
  | .retire token => r.retire token

/-- What the callers promise. -/
def Admits (r : Ready) : SchedulerCall → Prop
  | .insert token => r.states[token]? = none ∧ r.states.size < r.capacity
  | .park token _ => r.Live token
  | .requestTurn token reason => r.Live token ∧ reason ≠ .kernel
  | .resumeCredit reason => reason ≠ .kernel
  | .finishRequest _ reason => reason ≠ .kernel
  | _ => True

instance (r : Ready) : DecidablePred r.Admits := fun c ↦ by
  cases c <;> unfold Admits <;> unfold Live <;> infer_instance

/-- An admitted call. -/
def admittedCall (r : Ready) (c : SchedulerCall) : Option Ready :=
  if r.Admits c then r.call c else none

theorem admittedCall_eq_some_iff {r r' : Ready} {c : SchedulerCall} :
    r.admittedCall c = some r' ↔ r.Admits c ∧ r.call c = some r' := by
  simp [admittedCall]

theorem exists_resource {reason : WaitReason} (h : reason ≠ .kernel) :
    ∃ k : Resource, reason = k.reason := by
  cases reason with
  | kernel => exact absurd rfl h
  | queue => exact ⟨.queue, rfl⟩
  | bytes => exact ⟨.bytes, rfl⟩

/-- The state of `u` after a call other than a turn, a park, a retirement or an
admission of `u` itself: a call can only wake it. -/
def Spared (r : Ready) (u : Token) : SchedulerCall → Prop
  | .take => r.queue.tokens.head? ≠ some u
  | .park token _ => token ≠ u
  | .retire token => token ≠ u
  | .insert token => token ≠ u
  | _ => True

instance (r : Ready) (u : Token) : DecidablePred (r.Spared u) := fun c ↦ by
  cases c <;> unfold Spared <;> infer_instance

variable {r : Ready}

/-- An admitted call on a consistent state fails no assertion, keeps the state
consistent, and at most wakes each token it is not about. -/
theorem Consistent.call_spec (h : r.Consistent) {c : SchedulerCall} (hc : r.Admits c) :
    ∃ r', r.call c = some r' ∧ r'.Consistent ∧ r'.capacity = r.capacity ∧
      ∀ u, r.Spared u c → r'.states[u]? = r.states[u]? ∨
        r'.states[u]? = r.states[u]?.map TaskState.woken := by
  have hwoke {head : Option Token} {r₀ r' : Ready} (hw : Woke head r₀ r')
      (hstates : r₀.states = r.states) (u : Token) : r'.states[u]? = r.states[u]? ∨
        r'.states[u]? = r.states[u]?.map TaskState.woken := by
    rw [hw.states, hstates]
    split_ifs
    · exact Or.inr rfl
    · exact Or.inl rfl
  cases c with
  | insert token =>
      obtain ⟨r', hr', hconsistent, hcap, _, hstates⟩ := h.insert_spec hc.1 hc.2
      exact ⟨r', hr', hconsistent, hcap, fun u hu ↦ Or.inl (by rw [hstates, if_neg hu])⟩
  | take =>
      rcases h.take_spec with ⟨_, htake⟩ | ⟨token, r', hhead, htake, hconsistent, hcap, _, hstates⟩
      · exact ⟨r, by simp [call, htake], h, rfl, fun u _ ↦ Or.inl rfl⟩
      · refine ⟨r', by simp [call, htake], hconsistent, hcap, fun u hu ↦ Or.inl ?_⟩
        rw [hstates, if_neg]
        rintro rfl
        exact hu hhead
  | ioReady token =>
      obtain ⟨r', hr', hconsistent, hw⟩ := h.ioReady_spec token
      exact ⟨r', hr', hconsistent, hw.capacity, fun u _ ↦ hwoke hw rfl u⟩
  | park token reason =>
      obtain ⟨s, hs⟩ := Option.isSome_iff_exists.mp hc
      obtain ⟨r', hr', hconsistent, hcap, _, hstates⟩ := h.park_spec hs reason
      exact ⟨r', hr', hconsistent, hcap, fun u hu ↦ Or.inl (by rw [hstates, if_neg hu])⟩
  | wake token =>
      obtain ⟨r', inserted, hr', hw⟩ := h.toSound.enqueue_woke token
      exact ⟨r', by simp [call, hr'], hw.consistent h, hw.capacity, fun u _ ↦ hwoke hw rfl u⟩
  | resumeCredit reason =>
      obtain ⟨k, rfl⟩ := exists_resource hc
      obtain ⟨r', inserted, hr', hconsistent, hw⟩ := h.resumeCredit_spec k
      exact ⟨r', by simp [call, hr'], hconsistent, hw.capacity, fun u _ ↦ hwoke hw rfl u⟩
  | requestTurn token reason =>
      obtain ⟨k, rfl⟩ := exists_resource hc.2
      obtain ⟨hr', hconsistent⟩ := h.requestTurn_spec hc.1 k
      exact ⟨_, by simp [call, hr'], hconsistent, by simp, fun u _ ↦ Or.inl (by simp)⟩
  | finishRequest token reason =>
      obtain ⟨k, rfl⟩ := exists_resource hc
      obtain ⟨r', hr', hconsistent, hw⟩ := h.finishRequest_spec token k
      exact ⟨r', hr', hconsistent, by rw [hw.capacity, capacity_setWaiters],
        fun u _ ↦ hwoke hw (by simp) u⟩
  | retire token =>
      obtain ⟨r', hr', hretired⟩ := h.retire_spec token
      refine ⟨r', hr', hretired.consistent, hretired.capacity, ?_⟩
      intro u hu
      rw [hretired.states, if_neg hu]
      split_ifs
      · exact Or.inr rfl
      · exact Or.inl rfl

/-- A token woken during its turn keeps its later turn through every call that
is not that turn, a park or the retirement. -/
theorem Consistent.notified_of_spared (h : r.Consistent) {c : SchedulerCall} {r' : Ready}
    {u : Token} (hc : r.Admits c) (hu : r.Spared u c) (hcall : r.call c = some r')
    (hstate : r.states[u]? = some .notified) : r'.states[u]? = some .notified := by
  obtain ⟨r₁, hr₁, _, _, hspared⟩ := h.call_spec hc
  obtain rfl : r₁ = r' := Option.some.inj (hr₁.symm.trans hcall)
  rcases hspared u hu with heq | heq
  · exact heq.trans hstate
  · rw [heq, hstate]
    rfl

/-- The scheduler calls that spare `u`. -/
def sparingCall (u : Token) (r : Ready) (c : SchedulerCall) : Option Ready :=
  if r.Spared u c then r.admittedCall c else none

/-- What holds in every state of every run. -/
structure Regular (r : Ready) (capacity : ℕ) : Prop where
  queue : ∀ token, token ∈ r.queue.tokens ↔ r.Runnable token
  once : ∀ token, r.Runnable token → r.queue.tokens.count token = 1
  live : (∀ token ∈ r.queue.tokens, r.Live token) ∧
    ∀ k, ∀ token ∈ (r.waiters k).tokens, r.Live token
  bounded : r.queue.len ≤ capacity ∧ r.states.size ≤ capacity
  safe : ∀ c, r.Admits c → ∃ r', r.call c = some r'
  wakeLive : ∀ token, r.Live token →
    ∃ r', r.call (.wake token) = some r' ∧ r'.Runnable token ∧
      r'.queue.tokens.count token = 1
  wakeRetired : ∀ token, ¬ r.Live token → r.call (.wake token) = some r
  wakeRunning : ∀ token, r.states[token]? = some .running →
    ∀ woken, r.call (.wake token) = some woken →
    ∀ later, Machine.Reachable (sparingCall token) woken later → later.Runnable token ∧
      ∀ reason parked, later.call (.park token reason) = some parked → parked.Runnable token
  ioReady : ∀ (token : Token) (r' : Ready), r.call (.ioReady token) = some r' →
    (r.states[token]? ≠ some (.waiting .kernel) → r' = r) ∧
      ∀ u : Token, r'.states[u]? ≠ r.states[u]? → r.states[u]? = some (.waiting .kernel)

theorem Consistent.once (h : r.Consistent) {token : Token} (hrun : r.Runnable token) :
    r.queue.tokens.count token = 1 :=
  List.count_eq_one_of_mem r.queue.nodup ((h.queue token).mpr hrun)

theorem Consistent.queue_len_le (h : r.Consistent) : r.queue.len ≤ r.states.size := by
  have hsubset : r.queue.tokens ⊆ r.states.keys := by
    intro u hu
    rw [Std.TreeMap.mem_keys, ← Std.TreeMap.isSome_getElem?_iff_mem]
    exact ((h.queue u).mp hu).live
  have hle := (List.subperm_of_subset r.queue.nodup hsubset).length_le
  rw [Std.TreeMap.length_keys] at hle
  rw [Fifo.len_eq]
  exact hle

theorem Consistent.wakeRunning (h : r.Consistent) {token : Token} {woken later : Ready}
    (hrunning : r.states[token]? = some .running) (hwake : r.call (.wake token) = some woken)
    (hlater : Machine.Reachable (sparingCall token) woken later) :
    later.Consistent ∧ later.states[token]? = some .notified := by
  obtain ⟨r₁, inserted, henqueue, hw⟩ := h.toSound.enqueue_woke token
  obtain rfl : r₁ = woken := by
    simpa [call, henqueue] using hwake
  have hnotified : r₁.states[token]? = some .notified := by
    rw [hw.states, if_pos rfl, hrunning]
    rfl
  refine hlater.invariant (I := fun r ↦ r.Consistent ∧ r.states[token]? = some .notified)
    ⟨hw.consistent h, hnotified⟩ ?_
  rintro u c v ⟨hu, hstate⟩ hstep
  unfold sparingCall at hstep
  split_ifs at hstep with hspared
  obtain ⟨hadmits, hcall⟩ := admittedCall_eq_some_iff.mp hstep
  obtain ⟨v', hv', hconsistent, _⟩ := hu.call_spec hadmits
  obtain rfl : v' = v := Option.some.inj (hv'.symm.trans hcall)
  exact ⟨hconsistent, hu.notified_of_spared hadmits hspared hcall hstate⟩

theorem Consistent.regular (h : r.Consistent) : r.Regular r.capacity where
  queue := h.queue
  once _ hrun := h.once hrun
  live := ⟨fun token htoken ↦ ((h.queue token).mp htoken).live, h.waiters⟩
  bounded := ⟨h.queue_len_le.trans h.size, h.size⟩
  safe c hc := by
    obtain ⟨r', hr', _⟩ := h.call_spec hc
    exact ⟨r', hr'⟩
  wakeLive token hlive := by
    obtain ⟨r', inserted, henqueue, hw⟩ := h.toSound.enqueue_woke token
    have hrun := hw.runnable hlive
    exact ⟨r', by simp [call, henqueue], hrun, (hw.consistent h).once hrun⟩
  wakeRetired token hdead := by
    have hnone : r.states[token]? = none := by simpa [Live] using hdead
    simp [call, enqueue, hnone]
  wakeRunning token hrunning woken hwake later hlater := by
    obtain ⟨hconsistent, hstate⟩ := h.wakeRunning hrunning hwake hlater
    refine ⟨Or.inr hstate, ?_⟩
    intro reason parked hpark
    obtain ⟨r', hr', _, _, _, hstates⟩ := hconsistent.park_spec hstate reason
    obtain rfl : r' = parked := Option.some.inj (hr'.symm.trans hpark)
    left
    rw [hstates, if_pos rfl]
    rfl
  ioReady token r' hcall := by
    obtain ⟨r₁, hr₁, _, hw⟩ := h.ioReady_spec token
    obtain rfl : r₁ = r' := Option.some.inj (hr₁.symm.trans hcall)
    constructor
    · intro hne
      simpa [call, Ready.ioReady, hne, eq_comm] using hcall
    · intro u hu
      rw [hw.states] at hu
      by_cases hkernel : r.states[token]? = some (.waiting .kernel)
      · rw [if_pos hkernel] at hu
        split_ifs at hu with hhead
        · cases hhead
          exact hkernel
        · exact absurd rfl hu
      · rw [if_neg hkernel] at hu
        exact absurd rfl hu

/-- Scheduler state is consistent over all runs: every state that admitted
calls reach from an empty scheduler is regular, so that the assertions of the
scheduler and of its orders never fail. -/
theorem runs_regular (capacity : ℕ) {r : Ready}
    (h : Machine.Reachable admittedCall (new capacity) r) : r.Regular capacity := by
  have hinv := h.invariant (I := fun r ↦ r.Consistent ∧ r.capacity = capacity)
    ⟨consistent_new capacity, rfl⟩ ?_
  · obtain ⟨hconsistent, hcapacity⟩ := hinv
    rw [← hcapacity]
    exact hconsistent.regular
  · rintro u c v ⟨hu, hcapacity⟩ hstep
    obtain ⟨hadmits, hcall⟩ := admittedCall_eq_some_iff.mp hstep
    obtain ⟨v', hv', hconsistent, hsame, _⟩ := hu.call_spec hadmits
    obtain rfl : v' = v := Option.some.inj (hv'.symm.trans hcall)
    exact ⟨hconsistent, hsame.trans hcapacity⟩

theorem runs_regular_two_tokens :
    ∃ r, Machine.run admittedCall (new 2)
        [.insert 2, .insert 3, .take, .requestTurn 2 .bytes, .wake 2, .park 2 .bytes, .take,
          .requestTurn 3 .bytes, .park 3 .bytes, .retire 2, .wake 2] = some r ∧
      r.states.toList = [(3, .queued)] ∧ r.Regular 2 := by
  have hrun : (Machine.run admittedCall (new 2)
      [.insert 2, .insert 3, .take, .requestTurn 2 .bytes, .wake 2, .park 2 .bytes, .take,
        .requestTurn 3 .bytes, .park 3 .bytes, .retire 2, .wake 2]).map (·.states.toList) =
      some [(3, .queued)] := by
    decide +kernel
  obtain ⟨r, hr, hstates⟩ := Option.map_eq_some_iff.mp hrun
  exact ⟨r, hr, hstates, runs_regular 2 ⟨_, hr⟩⟩

end Ready

end Phonowire.Receiver
