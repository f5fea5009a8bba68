import Phonowire.Receiver.AcceptLoop

/-!
# The pace of the accept loop

Under a clock that never goes back no call falls into a pause, whatever the
listener announces, and a stop that the worker can see ends all attempts. With
the account of the log this is the whole behaviour of the accept loop.
-/

namespace Phonowire.Receiver

open History

/-! ## The clock -/

/-- A call and its attempts keep their distance to every pause before them. -/
def Paced (past : List AcceptEvent) (event : AcceptEvent) : Prop :=
  ∀ now, (event = .opened now ∨ ∃ result, event = .attempted now result) →
    ∀ pausedAt, .closed (some pausedAt) ∈ past → pausedAt.nanos + stopRecheck ≤ now.nanos

theorem paced_other {past : List AcceptEvent} {event : AcceptEvent}
    (hopened : ∀ now, event ≠ .opened now)
    (hattempted : ∀ now result, event ≠ .attempted now result) : Paced past event := by
  rintro now (heq | ⟨result, heq⟩)
  · exact absurd heq (hopened now)
  · exact absurd heq (hattempted now result)

structure Timed (a : Accepting) (clock : ℕ) (log : List AcceptEvent) : Prop where
  paced : Each Paced log
  expired : ∀ pausedAt, .closed (some pausedAt) ∈ log →
    (∃ now, a.acceptPausedAt = some now ∧ pausedAt.nanos ≤ now.nanos) ∨
      pausedAt.nanos + stopRecheck ≤ clock

section Clock

variable {quota left clock clock' : ℕ} {progressed : Bool} {a a' : Accepting} {pc' : Pc}
  {now pausedAt : Instant} {log events : List AcceptEvent} {w w' : World}

theorem Timed.later (h : Timed a clock log) (hclock : clock ≤ clock') : Timed a clock' log := by
  refine ⟨h.paced, ?_⟩
  intro pausedAt hpaused
  rcases h.expired pausedAt hpaused with hpresent | hpast
  · exact Or.inl hpresent
  · exact Or.inr (hpast.trans hclock)

theorem Attempt.closes (h : Attempt a now left progressed events a' pc')
    (hunpaused : a.acceptPausedAt = none) (hclosed : .closed (some pausedAt) ∈ events) :
    a'.acceptPausedAt = some pausedAt := by
  cases h <;> simp_all

theorem Attempt.paced (h : Attempt a now left progressed events a' pc') (hlog : Each Paced log)
    (hover : ∀ pausedAt, .closed (some pausedAt) ∈ log →
      pausedAt.nanos + stopRecheck ≤ now.nanos) : Each Paced (log ++ events) := by
  have hattempt (result : AcceptResult) : Paced log (.attempted now result) := by
    rintro now' (heq | ⟨result', heq⟩) pausedAt hclosed
    · cases heq
    · cases heq
      exact hover pausedAt hclosed
  cases h with
  | spent => exact each_snoc.mpr ⟨hlog, paced_other nofun nofun⟩
  | backoff => exact each_snoc.mpr ⟨hlog, paced_other nofun nofun⟩
  | stopped => exact each_snoc.mpr ⟨hlog, paced_other nofun nofun⟩
  | refused peer => exact each_snoc.mpr ⟨hlog, hattempt _⟩
  | admitted peer => exact each_snoc.mpr ⟨hlog, hattempt _⟩
  | retried hclass => exact each_snoc.mpr ⟨hlog, hattempt _⟩
  | quotaFailed failure => exact each_snoc.mpr ⟨hlog, paced_other nofun nofun⟩
  | drained hclass => exact each_pair.mpr ⟨hlog, hattempt _, paced_other nofun nofun⟩
  | paused hclass => exact each_pair.mpr ⟨hlog, hattempt _, paced_other nofun nofun⟩
  | fatal hclass => exact each_pair.mpr ⟨hlog, hattempt _, paced_other nofun nofun⟩
  | attemptFailed failure hresult => exact each_pair.mpr ⟨hlog, hattempt _, paced_other nofun nofun⟩

theorem Timed.attempt (h : Timed a clock log) (hclock : clock ≤ now.nanos)
    (hunpaused : a.acceptPausedAt = none)
    (hattempt : Attempt a now left progressed events a' pc') :
    Timed a' now.nanos (log ++ events) := by
  have hover : ∀ pausedAt, .closed (some pausedAt) ∈ log →
      pausedAt.nanos + stopRecheck ≤ now.nanos := by
    intro pausedAt hclosed
    rcases h.expired pausedAt hclosed with ⟨t, ht, _⟩ | hpast
    · rw [hunpaused] at ht
      cases ht
    · exact hpast.trans hclock
  refine ⟨hattempt.paced h.paced hover, ?_⟩
  intro pausedAt hclosed
  rcases List.mem_append.mp hclosed with hlog | hevents
  · exact Or.inr (hover pausedAt hlog)
  · exact Or.inl ⟨pausedAt, hattempt.closes hunpaused hevents, le_rfl⟩

/-- A call that opens has waited for the end of the pause. -/
theorem Timed.opened (h : Timed w.accepting clock log) (hclock : clock ≤ now.nanos)
    (hdelay : w.acceptDelay now = 0) :
    Timed { w.accepting with acceptPausedAt := none } now.nanos (log ++ [.opened now]) := by
  have hover : ∀ pausedAt, .closed (some pausedAt) ∈ log →
      pausedAt.nanos + stopRecheck ≤ now.nanos := by
    intro pausedAt hclosed
    rcases h.expired pausedAt hclosed with ⟨t, ht, hle⟩ | hpast
    · have hpaused : w.acceptPausedAt = some t := ht
      simp only [World.acceptDelay, hpaused] at hdelay
      have hpos : 0 < stopRecheck := by decide
      omega
    · exact hpast.trans hclock
  refine ⟨each_snoc.mpr ⟨h.paced, ?_⟩, ?_⟩
  · rintro now' (heq | ⟨result, heq⟩) pausedAt hclosed
    · cases heq
      exact hover pausedAt hclosed
    · cases heq
  · intro pausedAt hclosed
    rw [List.mem_append, List.mem_singleton] at hclosed
    exact Or.inr (hover pausedAt (hclosed.resolve_right nofun))

theorem Timed.step {s : World.Step} (h : Timed w.accepting clock log) (hclock : clock ≤ clock')
    (htracked : Tracked quota w.accepting w.pc log)
    (hnow : ∀ input, s = .work input → clock' = input.now.nanos) (hstep : w.AcceptStep s w') :
    Timed w'.accepting clock' (log ++ w.accepts s) := by
  cases hstep with
  | elsewhere hlog helsewhere =>
      rw [hlog, List.append_nil, helsewhere.accepting]
      exact h.later hclock
  | apart hlog haccepting hpc =>
      rw [hlog, List.append_nil, haccepting]
      exact h.later hclock
  | started hpc hlog haccepting houtside hrunning =>
      rw [hlog, List.append_nil, haccepting]
      exact ⟨h.paced, (h.later hclock).expired⟩
  | heard hlog haccepting houtside hrunning =>
      rw [hlog, haccepting]
      refine ⟨each_snoc.mpr ⟨h.paced, paced_other nofun nofun⟩, ?_⟩
      intro pausedAt hclosed
      rw [List.mem_append, List.mem_singleton] at hclosed
      exact (h.later hclock).expired pausedAt (hclosed.resolve_right nofun)
  | @opened input ha hready hdelay hlog haccepting hpc =>
      rw [hlog, haccepting, hnow input ha]
      exact h.opened (hnow input ha ▸ hclock) hdelay
  | @inside input left progressed ha hpc hattempt =>
      have hunpaused := (htracked.inside left progressed hpc).unpaused
      rw [hnow input ha]
      exact h.attempt (hnow input ha ▸ hclock) hunpaused hattempt

end Clock

/-! ## A stop stays visible -/

namespace Engine

variable {s s' : Engine} {signal : Signal} {token : Token}

/-- The flags that nobody takes back. -/
def Lasting (signal : Signal) : Prop := signal = .stop ∨ signal = .disconnected

theorem raised_set (other : Signal) (h : s.signals.raised signal = true) :
    (s.signals.set other).raised signal = true := by
  unfold Signals.set
  dsimp only
  rw [Function.update_apply]
  split_ifs
  · rfl
  · exact h

theorem raised_clear {other : Signal} (hne : signal ≠ other)
    (h : s.signals.raised signal = true) : (s.signals.clear other).raised signal = true := by
  unfold Signals.clear
  dsimp only
  rw [Function.update_of_ne hne]
  exact h

theorem raised_released (bytes : ℕ) (h : s.signals.raised signal = true) :
    (s.released bytes).signals.raised signal = true := by
  unfold released
  dsimp only
  split_ifs
  · exact raised_set _ h
  · exact h

theorem raised_onBoard {board : Option Board} (h : s.signals.raised signal = true)
    (hstep : s.onBoard board = some s') : s'.signals.raised signal = true := by
  simp only [onBoard, Option.map_eq_some_iff] at hstep
  obtain ⟨b, _, rfl⟩ := hstep
  exact h

theorem Polled.raised (hpolled : s.Polled token s') (h : s.signals.raised signal = true) :
    s'.signals.raised signal = true := by
  cases hpolled with
  | refused => exact raised_released _ h
  | exhausted => exact raised_released _ h
  | _ => exact h

theorem Lasting.ne_credit (hlasting : Lasting signal) (k : Resource) : signal ≠ k.signal := by
  rcases hlasting with rfl | rfl <;> cases k <;> nofun

theorem Lasting.ne_control (hlasting : Lasting signal) : signal ≠ .control := by
  rcases hlasting with rfl | rfl <;> nofun

theorem raised_step {a : Action} (hlasting : Lasting signal) (hsound : s.Sound)
    (h : s.signals.raised signal = true) (hstep : s.step a = some s') :
    s'.signals.raised signal = true := by
  cases a with
  | insert token peer =>
      simp only [step] at hstep
      split_ifs at hstep
      exact raised_onBoard h hstep
  | take =>
      simp only [step] at hstep
      split_ifs at hstep
      exact raised_onBoard h hstep
  | poll input =>
      cases hphase : s.board.phase with
      | polling token =>
          obtain ⟨t, ht, hpolled, _⟩ := poll_spec input hsound.coherent hsound.exact hphase
          cases hstep.symm.trans ht
          exact hpolled.raised h
      | _ => simp [step, poll, hphase] at hstep
  | attempt now =>
      cases hphase : s.board.phase with
      | attempting token k =>
          obtain ⟨t, ht, hpolled, _⟩ := attempt_spec now hsound.coherent hsound.exact hphase
          cases hstep.symm.trans ht
          exact hpolled.raised h
      | _ => simp [step, attempt, hphase] at hstep
  | parkFull =>
      cases hphase : s.board.phase with
      | full token k =>
          obtain ⟨t, ht, hpolled, _⟩ := parkFull_spec hsound.coherent hphase
          cases hstep.symm.trans ht
          exact hpolled.raised h
      | _ => simp [step, parkFull, hphase] at hstep
  | retire token =>
      simp only [step] at hstep
      split_ifs at hstep with hphase
      cases hlive : s.board.live[token]? with
      | none => simp [retire, hlive] at hstep
      | some entry =>
          obtain ⟨ready, hretire, _⟩ := retire_spec hsound.coherent hsound.exact hphase hlive
          cases hstep.symm.trans hretire
          exact raised_released _ h
  | takeCredit k =>
      simp only [step, takeCredit] at hstep
      split_ifs at hstep
      · exact raised_onBoard (s := { s with signals := s.signals.clear k.signal })
          (raised_clear (hlasting.ne_credit k) h) hstep
      · cases hstep
        exact h
  | ioReady token => exact raised_onBoard h hstep
  | subscribe subscribed =>
      simp only [step] at hstep
      split_ifs at hstep
      cases hstep
      exact h
  | takeControl =>
      cases hstep
      exact raised_clear hlasting.ne_control h
  | takeFailure =>
      cases hstep
      exact h
  | wake token => exact raised_onBoard h hstep
  | receive =>
      simp only [step, receive] at hstep
      split at hstep <;> cases hstep
      exact h
  | discard index =>
      simp only [step, discard, Option.bind_eq_bind, Option.bind_eq_some_iff,
        Option.some.injEq] at hstep
      obtain ⟨bytes, _, ⟨budget, notify⟩, _, rfl⟩ := hstep
      dsimp only
      split_ifs
      · exact h
      · exact h
  | copyOutside bytes =>
      simp only [step, copyOutside] at hstep
      split at hstep <;> cases hstep
      · exact h
      · exact h
  | disconnect =>
      simp only [step, disconnect] at hstep
      split_ifs at hstep
      cases hstep
      exact h
  | owe =>
      cases hstep
      exact h
  | publish other =>
      simp only [step, Option.map_eq_some_iff] at hstep
      obtain ⟨signals, hpublish, rfl⟩ := hstep
      unfold Signals.publish at hpublish
      split_ifs at hpublish
      cases hpublish
      exact raised_set (s := { s with signals := { s.signals with
        pending := Function.update s.signals.pending other (s.signals.pending other - 1) } })
        other h
  | stop =>
      cases hstep
      exact raised_set _ h
  | wakeFailed error =>
      cases hstep
      exact h

end Engine

namespace World

variable {w w' : World}

/-- A stop, or a disconnection with which no check races, that the worker sees
in the steps `actions`. -/
def Visible (w : World) (actions : List Step) : Prop :=
  w.engine.signals.raised .stop = true ∨
    w.engine.signals.raised .disconnected = true ∧
      ∀ input, .work input ∈ actions → input.raced = false

theorem Visible.isSome {actions : List Step} {input : Input} (h : w.Visible actions)
    (hmem : .work input ∈ actions) : (w.stopCause input.raced).isSome = true := by
  unfold stopCause
  rcases h with hstop | ⟨hdisconnected, hraced⟩
  · rw [hstop]
    split_ifs with hdisconnected hnot
    · rfl
    · rfl
    · exact absurd rfl hnot
  · rw [hdisconnected, hraced input hmem]
    rfl

theorem Visible.later {a : Step} {actions : List Step} (h : w.Visible (a :: actions))
    (hsteady : w.Steady) (hstep : w.step a = some w') : w'.Visible actions := by
  have hraised {signal : Signal} (hlasting : Engine.Lasting signal)
      (h : w.engine.signals.raised signal = true) : w'.engine.signals.raised signal = true := by
    rcases engine_of_step hsteady hstep with heq | ⟨action, haction⟩
    · rw [heq]
      exact h
    · exact Engine.raised_step hlasting hsteady.sound h haction
  rcases h with hstop | ⟨hdisconnected, hraced⟩
  · exact Or.inl (hraised (Or.inl rfl) hstop)
  · exact Or.inr ⟨hraised (Or.inr rfl) hdisconnected,
      fun input hinput ↦ hraced input (List.mem_cons_of_mem a hinput)⟩

theorem not_mem_closing (now : Instant) (result : AcceptResult) :
    .attempted now result ∉ w.closing := by
  unfold closing
  split <;> simp

theorem Visible.not_mem {a : Step} {actions : List Step} (h : w.Visible (a :: actions))
    (now : Instant) (result : AcceptResult) : .attempted now result ∉ w.accepts a := by
  cases a with
  | work input =>
      have hsome := h.isSome List.mem_cons_self
      unfold accepts
      dsimp only
      split
      · split_ifs <;> simp
      · split_ifs <;> simp
      · next left progressed hpc =>
          have hnone : w.attempting input left = [] := by
            cases left with
            | zero => rfl
            | succ left => exact if_pos hsome
          rw [hnone]
          exact not_mem_closing now result
      · simp
  | close id => simp [accepts]
  | outside o => simp [accepts]

end World

/-! ## Whole runs -/

/-- A receiver and the last clock reading of its worker. -/
structure Clocked where
  world : World
  clock : ℕ

namespace Clocked

/-- The worker never reads an earlier time than before. -/
def step (c : Clocked) : World.Step → Option Clocked
  | .work input =>
      if c.clock ≤ input.now.nanos then
        (c.world.step (.work input)).map fun world ↦ ⟨world, input.now.nanos⟩
      else none
  | a => (c.world.step a).map fun world ↦ ⟨world, c.clock⟩

def accepts (c : Clocked) (a : World.Step) : List AcceptEvent := c.world.accepts a

/-- The accept log of a run. -/
def acceptLog (c : Clocked) (actions : List World.Step) : List AcceptEvent :=
  Machine.trace step accepts c actions

variable {c c' : Clocked} {a : World.Step}

theorem step_spec (h : c.step a = some c') :
    c.world.step a = some c'.world ∧ c.clock ≤ c'.clock ∧
      ∀ input, a = .work input → c'.clock = input.now.nanos := by
  cases a with
  | work input =>
      simp only [step] at h
      split_ifs at h with hclock
      rw [Option.map_eq_some_iff] at h
      obtain ⟨world, hworld, rfl⟩ := h
      refine ⟨hworld, hclock, ?_⟩
      intro input' heq
      cases heq
      rfl
  | close id =>
      simp only [step, Option.map_eq_some_iff] at h
      obtain ⟨world, hworld, rfl⟩ := h
      exact ⟨hworld, le_rfl, fun input heq ↦ by cases heq⟩
  | outside o =>
      simp only [step, Option.map_eq_some_iff] at h
      obtain ⟨world, hworld, rfl⟩ := h
      exact ⟨hworld, le_rfl, fun input heq ↦ by cases heq⟩

structure Invariant (settings : Settings) (c : Clocked) (log : List AcceptEvent) : Prop where
  steady : c.world.Steady
  same : c.world.engine.board.settings = settings
  tracked : Tracked (min settings.limits.turnSteps.val eventBatch) c.world.accepting c.world.pc log
  timed : Timed c.world.accepting c.clock log

theorem Invariant.step {settings : Settings} {log : List AcceptEvent}
    (h : Invariant settings c log) (hstep : c.step a = some c') :
    Invariant settings c' (log ++ c.accepts a) := by
  obtain ⟨hworld, hclock, hnow⟩ := step_spec hstep
  have haccept := World.acceptStep_of_step h.steady hworld
  have hquota : c.world.quota = min settings.limits.turnSteps.val eventBatch := by
    unfold World.quota World.limits
    rw [h.same]
  exact ⟨h.steady.step hworld,
    (World.move_of_step h.steady hworld).settings_eq.trans h.same,
    h.tracked.step hquota haccept, h.timed.step hclock h.tracked hnow haccept⟩

theorem invariant_of_run {settings : Settings} {outside : List ℕ} {start : ℕ}
    {actions : List World.Step} (hfits : outside.sum ≤ settings.capacity.val)
    (hrun : Machine.run step ⟨World.new settings outside, start⟩ actions = some c) :
    Invariant settings c (acceptLog ⟨World.new settings outside, start⟩ actions) := by
  refine Machine.run_trace_invariant hrun ?_ ?_
  · refine ⟨World.steady_new settings hfits, rfl, tracked_new settings outside, each_nil _, ?_⟩
    nofun
  · exact fun c log a c' h hstep ↦ h.step hstep

/-- No attempt is made once a stop is visible. -/
theorem not_mem_acceptLog {actions : List World.Step} (h : c.world.Visible actions)
    (hsteady : c.world.Steady) (hrun : Machine.run step c actions = some c') (now : Instant)
    (result : AcceptResult) : .attempted now result ∉ acceptLog c actions := by
  induction actions generalizing c with
  | nil => simp [acceptLog, Machine.trace]
  | cons a actions ih =>
      obtain ⟨d, hd, hrest⟩ := Machine.run_cons.mp hrun
      have hworld := (step_spec hd).1
      have hlater := ih (h.later hsteady hworld) (hsteady.step hworld) hrest
      unfold acceptLog at hlater ⊢
      rw [Machine.trace, hd, Option.elim_some, List.mem_append]
      rintro (hnow | hrest)
      · exact h.not_mem now result hnow
      · exact hlater hrest

/-- The accept loop is bounded, paced and forgets no backlog, along every run
under a clock that never goes back. A call makes at most its quota of attempts;
neither a call nor an attempt falls into a pause; a call leaves a pause exactly
if its last attempt met resource pressure or its whole quota was retryable, and
no other pause exists; a visible stop ends the attempts; the listener counts as
drained only if the last attempt said so and no event came since; no more
connections are live than allowed; and unless a call failed by itself the
counters are the numbers of attempts and calls of their kind. -/
theorem accept_loop_paced (settings : Settings) (outside : List ℕ)
    (hfits : outside.sum ≤ settings.capacity.val) (start : ℕ) (actions : List World.Step)
    (c : Clocked) (log : List AcceptEvent)
    (hlog : log = acceptLog ⟨World.new settings outside, start⟩ actions)
    (hrun : Machine.run step ⟨World.new settings outside, start⟩ actions = some c) :
    Each (Bounded (min settings.limits.turnSteps.val 128)) log ∧
    Each Paced log ∧
    Each (PauseExact (min settings.limits.turnSteps.val 128)) log ∧
    (∀ now, c.world.acceptPausedAt = some now →
      (log.filter AcceptEvent.onPause).getLast? = some (.closed (some now))) ∧
    (∀ later c', Machine.run step c later = some c' → c.world.Visible later →
      ∀ now result, .attempted now result ∉ acceptLog c later) ∧
    (c.world.listenerReady = false → ∃ now e,
      (log.filter AcceptEvent.onReadiness).getLast? = some (.attempted now (.error e)) ∧
        classifyAccept e = .drained) ∧
    c.world.engine.board.live.size ≤ settings.limits.maxConnections.val ∧
    (Each Fatal log →
      Tallied (min settings.limits.turnSteps.val 128) c.world.accepting log) := by
  have h := invariant_of_run hfits hrun
  rw [← hlog] at h
  refine ⟨h.tracked.bounded, h.timed.paced, h.tracked.exact, h.tracked.paused, ?_,
    h.tracked.drained, ?_, h.tracked.counted⟩
  · intro later c' hlater hvisible
    exact not_mem_acceptLog hvisible h.steady hlater
  · have hcoherent := h.steady.sound.coherent
    have hsize := hcoherent.consistent.size
    rw [hcoherent.size_eq, hcoherent.capacity, h.same] at hsize
    exact hsize

end Clocked

/-- An attempt that meets a retryable error. -/
def Input.interrupted (nanoseconds : ℕ) : Input :=
  { Input.quiet with
    poll := { Input.quiet.poll with now := ⟨0, nanoseconds⟩ }
    accepted := .error ⟨.interrupted, some 4, ""⟩ }

namespace Clocked

/-- A storm of errors fills one quota, and the listener announces more. -/
def storm : List World.Step :=
  World.Step.works 22 (.interrupted 5) ++
    World.Step.works 1 { Input.interrupted 6 with polled := .ok [listenerToken] } ++
    World.Step.works 14 (.interrupted 100_000_004)

theorem accept_loop_paced_storm :
    ∃ c, Machine.run step ⟨World.new oneSlot [], 0⟩ storm = some c ∧
      c.world.listenerReady = true ∧ c.world.acceptPausedAt = some ⟨0, 5⟩ ∧
      (acceptLog ⟨World.new oneSlot [], 0⟩ storm).countP (AcceptEvent.erred .retry) = 8 ∧
      Each (Bounded 8) (acceptLog ⟨World.new oneSlot [], 0⟩ storm) ∧
      Each Paced (acceptLog ⟨World.new oneSlot [], 0⟩ storm) := by
  obtain ⟨c, hc, hready, hpaused⟩ :=
    Machine.exists_of_run step ⟨World.new oneSlot [], 0⟩ storm
      (fun c ↦ c.world.listenerReady = true ∧ c.world.acceptPausedAt = some ⟨0, 5⟩)
      (by decide +kernel)
  have hloop := accept_loop_paced oneSlot [] (by decide) 0 storm c _ rfl hc
  exact ⟨c, hc, hready, hpaused, by decide +kernel, hloop.1, hloop.2.1⟩

end Clocked

end Phonowire.Receiver
