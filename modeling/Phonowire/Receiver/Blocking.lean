import Phonowire.Receiver.Course

/-!
# The worker blocks only when nothing can be granted

When the worker is about to block with no runnable task and no signal due, the
first request of each order is one that its resource cannot serve. Tasks that
wait for bytes own none, so with the channel drained and nothing retained
outside, no task is left waiting for a resource.
-/

namespace Phonowire.Receiver

namespace Board

variable {b : Board} {token : Token} {k : Resource}

/-- A task that waits for a resource stands in its order. -/
theorem Coherent.mem_of_waiting (h : b.Coherent)
    (hwaiting : b.ready.states[token]? = some (.waiting k.reason)) :
    token ∈ (b.ready.waiters k).tokens := by
  have hreason := h.waiting token k.reason hwaiting
  rw [Option.bind_eq_some_iff] at hreason
  obtain ⟨entry, hlive, hwaits⟩ := hreason
  rw [h.mem_requests hlive]
  unfold Entry.waitsFor at hwaits
  split_ifs at hwaits
  · cases k <;> cases hwaits
  · rw [Option.map_eq_some_iff] at hwaits
    obtain ⟨j, hrequest, hj⟩ := hwaits
    cases j <;> cases k <;> first | exact hrequest | cases hj

/-- No token stands in both orders. -/
theorem Coherent.order_unique {j : Resource} (h : b.Coherent)
    (hj : token ∈ (b.ready.waiters j).tokens) (hk : token ∈ (b.ready.waiters k).tokens) :
    j = k := by
  rw [h.requests] at hj hk
  exact Option.some.inj (hj.symm.trans hk)

/-- A task that requests bytes owns none. -/
theorem Coherent.charge_of_bytes {entry : Entry} (h : b.Coherent)
    (hlive : b.live[token]? = some entry)
    (hmem : token ∈ (b.ready.waiters .bytes).tokens) : entry.await.charge = 0 := by
  rw [h.mem_requests hlive] at hmem
  have hwants := (Engine.request_eq_some hmem).2
  unfold Await.wants at hwants
  unfold Await.charge
  split at hwants <;> simp_all

/-- Between polls and with no runnable task, every live task waits. -/
theorem Coherent.waiting_of_live (h : b.Coherent) (hphase : b.phase = .idle)
    (hempty : b.ready.queue.tokens = []) (hlive : b.live[token]?.isSome = true) :
    ∃ reason, b.ready.states[token]? = some (.waiting reason) := by
  rw [← h.live, Option.isSome_iff_exists] at hlive
  obtain ⟨state, hstate⟩ := hlive
  have hnot : ¬ b.ready.Runnable token := by
    rw [← h.consistent.queue, hempty]
    nofun
  cases state with
  | running =>
      have hturn := h.running token hstate
      rw [hphase] at hturn
      cases hturn
  | notified => exact absurd (Or.inr hstate) hnot
  | queued => exact absurd (Or.inl hstate) hnot
  | waiting reason => exact ⟨reason, hstate⟩

end Board

namespace Engine

variable {s : Engine} {token : Token} {k : Resource}

/-- No signal for `k` is raised or about to be. -/
def Quiet (s : Engine) (signal : Signal) : Prop :=
  s.signals.raised signal = false ∧ s.signals.pending signal = 0

theorem Quiet.not_due {signal : Signal} (h : s.Quiet signal) : ¬ s.signals.Due signal := by
  unfold Quiet Signals.Due at *
  simp [h.1, h.2]

/-- Between polls, without a runnable task and without a signal, the first
request for `k` cannot be granted. -/
theorem Sound.blocked_of_quiet (h : s.Sound) (hphase : s.board.phase = .idle)
    (hempty : s.board.ready.queue.tokens = []) (hquiet : s.Quiet k.signal)
    (hopen : k = .queue → s.channel.connected = true)
    (hhead : (s.board.ready.waiters k).tokens.head? = some token) :
    ∃ e, s.board.live[token]? = some e ∧ s.Blocked k e := by
  cases h.credited.first k token hhead with
  | runnable hrunnable =>
      rw [← h.coherent.consistent.queue, hempty] at hrunnable
      cases hrunnable
  | polled hpolled => rcases hpolled with hpolled | hpolled <;> rw [hphase] at hpolled <;> cases hpolled
  | due hdue => exact absurd hdue hquiet.not_due
  | blocked e hlive hblocked => exact ⟨e, hlive, hblocked⟩
  | closed hk hclosed =>
      rw [hopen hk] at hclosed
      cases hclosed

theorem Sound.connected_of_quiet (h : s.Sound) (hquiet : s.Quiet .disconnected) :
    s.channel.connected = true := by
  cases hconnected : s.channel.connected with
  | true => rfl
  | false => exact absurd (h.handed.closed hconnected).2 hquiet.not_due

/-- With an empty channel and nobody waiting for it, no live task owns bytes
between polls without a runnable task. -/
theorem Sound.held_eq_zero (h : s.Sound) (hphase : s.board.phase = .idle)
    (hempty : s.board.ready.queue.tokens = [])
    (hqueue : (s.board.ready.waiters .queue).tokens = []) : s.board.held = 0 := by
  refine Std.TreeMap.total_eq_zero ?_
  intro token e hlive
  obtain ⟨reason, hwaiting⟩ :=
    h.coherent.waiting_of_live hphase hempty (by simp [hlive] : s.board.live[token]?.isSome = true)
  have hwaits := h.coherent.waiting token reason hwaiting
  rw [hlive, Option.bind_some] at hwaits
  by_cases hsend : ∃ record after, e.await = .send record after
  · obtain ⟨record, after, hat⟩ := hsend
    have hrequest : e.request = some .queue := by
      have hwants : e.await.wants = some .queue := by rw [hat]; rfl
      unfold Entry.waitsFor at hwaits
      rw [if_neg (by simp [hat])] at hwaits
      unfold Entry.request at hwaits ⊢
      split_ifs at hwaits ⊢ with hregistered
      · exact hwants
      · cases hwaits
    rw [← h.coherent.mem_requests hlive, hqueue] at hrequest
    cases hrequest
  · unfold Await.charge
    split
    · next record after hat => exact absurd ⟨record, after, hat⟩ hsend
    · rfl

/-- No task waits for a resource when nothing holds it. -/
theorem Sound.no_waiter (h : s.Sound) (hphase : s.board.phase = .idle)
    (hempty : s.board.ready.queue.tokens = []) (hqueue : s.Quiet .queue) (hbytes : s.Quiet .bytes)
    (hconnected : s.channel.connected = true) (hdrained : s.channel.buffer = [])
    (hreturned : s.outside.sum = 0) (k : Resource) : (s.board.ready.waiters k).tokens = [] := by
  have hslots : (s.board.ready.waiters .queue).tokens = [] := by
    by_contra hne
    obtain ⟨token, hhead⟩ := Option.isSome_iff_exists.mp (List.isSome_head?.mpr hne)
    obtain ⟨e, _, _, hfull⟩ := Sound.blocked_of_quiet (k := .queue) h hphase hempty hqueue (fun _ ↦ hconnected) hhead
    have hpositive := s.channel.slots.pos
    rw [Channel.Full, hdrained, List.length_nil] at hfull
    omega
  cases k with
  | queue => exact hslots
  | bytes =>
      by_contra hne
      obtain ⟨token, hhead⟩ := Option.isSome_iff_exists.mp (List.isSome_head?.mpr hne)
      obtain ⟨e, hlive, bytes, after, hat, hlt⟩ :=
        Sound.blocked_of_quiet (k := .bytes) h hphase hempty hbytes nofun hhead
      have hrequest := (h.coherent.mem_requests hlive .bytes).mp (List.mem_of_head? hhead)
      have hfits := (h.coherent.holds token e hlive).fits bytes after
        (request_eq_some hrequest).1 hat
      have hused : s.used = 0 := by
        rw [h.exact.used, h.held_eq_zero hphase hempty hslots, hreturned, Channel.charged, hdrained]
        rfl
      unfold capacity at hlt
      omega

end Engine

namespace World

variable {w : World}

/-- The worker is about to block: no task is runnable, the flags that it would
notice are clear, and no thread is about to raise one. -/
structure Blocks (w : World) : Prop where
  place : w.pc = .block
  runnable : w.engine.board.ready.queue.tokens = []
  queue : w.engine.Quiet .queue
  bytes : w.engine.Quiet .bytes
  stop : w.engine.signals.raised .stop = false
  disconnected : w.engine.Quiet .disconnected

/-- No credit is lost: in front of a blocking poll the first byte request is
larger than what is free, a queue request means a full channel, and whoever
waits for a resource stands in its order. So capacity that the first request
could use always leaves its task runnable or a signal due. -/
theorem no_credit_lost (settings : Settings) (outside : List ℕ)
    (hfits : outside.sum ≤ settings.capacity.val) (w : World)
    (hreachable : Machine.Reachable World.step (new settings outside) w) :
    (w.Blocks →
      (∀ token, (w.engine.board.ready.waiters .bytes).tokens.head? = some token →
        ∃ entry bytes after, w.engine.board.live[token]? = some entry ∧
          entry.await = .copy bytes after ∧
          w.engine.capacity - w.engine.used < bytes.length) ∧
      ((w.engine.board.ready.waiters .queue).tokens ≠ [] → w.engine.channel.Full)) ∧
    (∀ (token : Token) (k : Resource),
      w.engine.board.ready.states[token]? = some (.waiting k.reason) →
      token ∈ (w.engine.board.ready.waiters k).tokens) ∧
    (∀ (token : Token) k entry, (w.engine.board.ready.waiters k).tokens.head? = some token →
      w.engine.board.live[token]? = some entry → w.engine.board.phase = .idle →
      ¬ w.engine.Blocked k entry → w.engine.board.ready.Runnable token ∨
        w.engine.signals.Due k.signal ∨ w.engine.signals.Due .disconnected) := by
  have hsteady := steady_of_reachable hfits hreachable
  have hsound := hsteady.sound
  refine ⟨?_, fun token k ↦ hsound.coherent.mem_of_waiting, ?_⟩
  · intro hblocks
    have hphase : w.engine.board.phase = .idle := by
      have hplace := hsteady.place
      rw [hblocks.place] at hplace
      exact hplace
    have hconnected := hsound.connected_of_quiet hblocks.disconnected
    refine ⟨?_, ?_⟩
    · intro token hhead
      obtain ⟨entry, hlive, bytes, after, hat, hlt⟩ := Engine.Sound.blocked_of_quiet (k := .bytes)
        hsound hphase hblocks.runnable hblocks.bytes nofun hhead
      exact ⟨entry, bytes, after, hlive, hat, hlt⟩
    · intro hne
      obtain ⟨token, hhead⟩ := Option.isSome_iff_exists.mp (List.isSome_head?.mpr hne)
      obtain ⟨_, _, _, hfull⟩ := Engine.Sound.blocked_of_quiet (k := .queue) hsound hphase
        hblocks.runnable hblocks.queue (fun _ ↦ hconnected) hhead
      exact hfull
  · intro token k entry hhead hlive hphase hfree
    cases hsound.credited.first k token hhead with
    | runnable hrunnable => exact Or.inl hrunnable
    | polled hpolled =>
        rcases hpolled with hpolled | hpolled <;> rw [hphase] at hpolled <;> cases hpolled
    | due hdue => exact Or.inr (Or.inl hdue)
    | blocked e he hblocked =>
        rw [hlive, Option.some.injEq] at he
        exact absurd (he ▸ hblocked) hfree
    | closed hk hclosed => exact Or.inr (Or.inr (hsound.handed.closed hclosed).2)

theorem no_credit_lost_full_queue :
    ∃ w, Machine.run World.step (new oneSlot []) (Step.admission ++ Step.works 27 .hangup) =
        some w ∧ w.Blocks ∧ (w.engine.board.ready.waiters .queue).tokens = [2] ∧
      w.engine.channel.Full := by
  obtain ⟨w, hw, hpc, hrunnable, hqueue, hslots, hbytes, hstop, hdisconnected⟩ :=
    Machine.exists_of_run World.step (new oneSlot []) (Step.admission ++ Step.works 27 .hangup)
      (fun w ↦ w.pc = .block ∧ w.engine.board.ready.queue.tokens = [] ∧
        (w.engine.board.ready.waiters .queue).tokens = [2] ∧
        (w.engine.signals.raised .queue = false ∧ w.engine.signals.pending .queue = 0) ∧
        (w.engine.signals.raised .bytes = false ∧ w.engine.signals.pending .bytes = 0) ∧
        w.engine.signals.raised .stop = false ∧
        w.engine.signals.raised .disconnected = false ∧
          w.engine.signals.pending .disconnected = 0) (by decide +kernel)
  have hblocks : w.Blocks := ⟨hpc, hrunnable, hslots, hbytes, hstop, hdisconnected⟩
  have hlost := no_credit_lost oneSlot [] (by decide) w ⟨_, hw⟩
  exact ⟨w, hw, hblocks, hqueue, (hlost.1 hblocks).2 (by simp [hqueue])⟩

/-- The receiver cannot deadlock on its own resources: at a blocking poll with a
connected consumer, an empty channel and no owned bytes outside, nobody waits
for a resource. A task that waits for bytes owns none, and no task waits in one
order while it is registered in the other. -/
theorem no_resource_deadlock (settings : Settings) (outside : List ℕ)
    (hfits : outside.sum ≤ settings.capacity.val) (w : World)
    (hreachable : Machine.Reachable World.step (new settings outside) w) :
    (w.pc = .block → w.engine.board.ready.queue.tokens = [] →
      w.engine.Quiet .queue → w.engine.Quiet .bytes →
      w.engine.channel.connected = true → w.engine.channel.buffer = [] →
      w.engine.outside.sum = 0 →
      ∀ (token : Token) (k : Resource),
        w.engine.board.ready.states[token]? ≠ some (.waiting k.reason)) ∧
    (∀ (token : Token) entry, w.engine.board.live[token]? = some entry →
      w.engine.board.ready.states[token]? = some (.waiting .bytes) → entry.await.charge = 0) ∧
    (∀ (token : Token) (k j : Resource), w.engine.board.ready.states[token]? = some (.waiting k.reason) →
      token ∈ (w.engine.board.ready.waiters j).tokens → j = k) := by
  have hsteady := steady_of_reachable hfits hreachable
  have hsound := hsteady.sound
  refine ⟨?_, ?_, ?_⟩
  · intro hpc hempty hqueue hbytes hconnected hdrained hreturned token k hwaiting
    have hphase : w.engine.board.phase = .idle := by
      have hplace := hsteady.place
      rw [hpc] at hplace
      exact hplace
    have hmem := hsound.coherent.mem_of_waiting hwaiting
    rw [hsound.no_waiter hphase hempty hqueue hbytes hconnected hdrained hreturned k] at hmem
    cases hmem
  · intro token entry hlive hwaiting
    exact hsound.coherent.charge_of_bytes hlive
      (Board.Coherent.mem_of_waiting (k := .bytes) hsound.coherent hwaiting)
  · intro token k j hwaiting hj
    exact hsound.coherent.order_unique hj (hsound.coherent.mem_of_waiting hwaiting)

theorem no_resource_deadlock_idle_call :
    ∃ w, Machine.run World.step (new oneSlot [])
        (Step.admission ++ Step.works 25 .quiet ++ Step.taken ++ Step.works 13 .quiet) = some w ∧
      w.engine.board.ready.states.toList = [(2, .waiting .kernel)] ∧
      ∀ (token : Token) (k : Resource),
        w.engine.board.ready.states[token]? ≠ some (.waiting k.reason) := by
  obtain ⟨w, hw, hpc, hrunnable, hstates, hqueue, hbytes, hconnected, hbuffer, houtside⟩ :=
    Machine.exists_of_run World.step (new oneSlot [])
      (Step.admission ++ Step.works 25 .quiet ++ Step.taken ++ Step.works 13 .quiet)
      (fun w ↦ w.pc = .block ∧ w.engine.board.ready.queue.tokens = [] ∧
        w.engine.board.ready.states.toList = [(2, .waiting .kernel)] ∧
        (w.engine.signals.raised .queue = false ∧ w.engine.signals.pending .queue = 0) ∧
        (w.engine.signals.raised .bytes = false ∧ w.engine.signals.pending .bytes = 0) ∧
        w.engine.channel.connected = true ∧ w.engine.channel.buffer = [] ∧
        w.engine.outside.sum = 0) (by decide +kernel)
  have hfree := no_resource_deadlock oneSlot [] (by decide) w ⟨_, hw⟩
  exact ⟨w, hw, hstates, hfree.1 hpc hrunnable hqueue hbytes hconnected hbuffer houtside⟩

end World

end Phonowire.Receiver
