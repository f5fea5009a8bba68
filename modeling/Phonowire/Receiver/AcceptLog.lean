import Phonowire.Receiver.PollTurn

/-!
# What the accept loop does

The log of a run lists what `accept_ready` did: each call that went on to
attempt, each attempt with its result, and each end of a call with the pause
that it leaves. `Attempt` says what one step inside a call can do, and every
other step of the receiver leaves the accept loop alone.
-/

namespace Phonowire.Receiver

/-- What `accept_ready` reads and counts. -/
structure Accepting where
  listenerReady : Bool
  acceptPausedAt : Option Instant
  accepted : ℕ
  refused : ℕ
  transientAcceptErrors : ℕ
  resourcePauseEntries : ℕ
  retryQuotaBackoffs : ℕ

abbrev AcceptResult := Except IoError SocketAddr

inductive AcceptEvent where
  | listener
  | opened (now : Instant)
  | attempted (now : Instant) (result : AcceptResult)
  | closed (pausedAt : Option Instant)
  | failed (failure : ReceiverFailure)
  deriving DecidableEq

def Pc.isAccepting : Pc → Bool
  | .accepting _ _ => true
  | _ => false

def Pc.isSetup : Pc → Bool
  | .setup => true
  | _ => false

namespace World

def accepting (w : World) : Accepting where
  listenerReady := w.listenerReady
  acceptPausedAt := w.acceptPausedAt
  accepted := w.summary.accepted
  refused := w.summary.refused
  transientAcceptErrors := w.summary.transientAcceptErrors
  resourcePauseEntries := w.summary.resourcePauseEntries
  retryQuotaBackoffs := w.summary.retryQuotaBackoffs

/-- Attempts of one call at most. -/
def quota (w : World) : ℕ := min w.limits.turnSteps.val eventBatch

/-- The attempt that a step inside a call makes. -/
def attempting (w : World) (input : Input) : ℕ → List AcceptEvent
  | 0 => []
  | _ + 1 =>
      if (w.stopCause input.raced).isSome then [] else [.attempted input.now input.accepted]

/-- Whether a step inside a call ended it. -/
def closing (w : World) : List AcceptEvent :=
  match w.pc with
  | .accepting _ _ => []
  | .driven (.error failure) => [.failed failure]
  | _ => [.closed w.acceptPausedAt]

def accepts (w : World) : Step → List AcceptEvent
  | .work input =>
      match w.pc with
      | .events (token :: _) => if token = listenerToken then [.listener] else []
      | .accept => if (w.startAccept input.now).pc.isAccepting then [.opened input.now] else []
      | .accepting left progressed =>
          w.attempting input left ++ (w.stepAccepting input left progressed).closing
      | _ => []
  | _ => []

/-- The accept log of a run. -/
def acceptLog (w : World) (actions : List Step) : List AcceptEvent :=
  Machine.trace World.step accepts w actions

end World

/-! ## One step inside a call -/

/-- What a step inside a call can do, with `left` attempts to go. -/
inductive Attempt (a : Accepting) (now : Instant) :
    ℕ → Bool → List AcceptEvent → Accepting → Pc → Prop
  | spent : Attempt a now 0 true [.closed a.acceptPausedAt] a .block
  | backoff :
      Attempt a now 0 false [.closed (some now)]
        { a with
          retryQuotaBackoffs := a.retryQuotaBackoffs + 1
          acceptPausedAt := some now } .block
  | stopped {left : ℕ} {progressed : Bool} :
      Attempt a now (left + 1) progressed [.closed a.acceptPausedAt] a .block
  | refused {left : ℕ} {progressed : Bool} (peer : SocketAddr) :
      Attempt a now (left + 1) progressed [.attempted now (.ok peer)]
        { a with refused := a.refused + 1 } (.accepting left true)
  | admitted {left : ℕ} {progressed : Bool} (peer : SocketAddr) :
      Attempt a now (left + 1) progressed [.attempted now (.ok peer)]
        { a with accepted := a.accepted + 1 } (.accepting left true)
  | drained {left : ℕ} {progressed : Bool} {error : IoError}
      (hclass : classifyAccept error = .drained) :
      Attempt a now (left + 1) progressed
        [.attempted now (.error error), .closed a.acceptPausedAt]
        { a with listenerReady := false } .block
  | retried {left : ℕ} {progressed : Bool} {error : IoError}
      (hclass : classifyAccept error = .retry) :
      Attempt a now (left + 1) progressed [.attempted now (.error error)]
        { a with transientAcceptErrors := a.transientAcceptErrors + 1 }
        (.accepting left progressed)
  | paused {left : ℕ} {progressed : Bool} {error : IoError}
      (hclass : classifyAccept error = .pause) :
      Attempt a now (left + 1) progressed
        [.attempted now (.error error), .closed (some now)]
        { a with
          resourcePauseEntries := a.resourcePauseEntries + 1
          acceptPausedAt := some now } .block
  | fatal {left : ℕ} {progressed : Bool} {error : IoError}
      (hclass : classifyAccept error = .fatal) :
      Attempt a now (left + 1) progressed
        [.attempted now (.error error), .failed (.io error)] a (.driven (.error (.io error)))
  | quotaFailed {progressed : Bool} (failure : ReceiverFailure) :
      Attempt a now 0 progressed [.failed failure] a (.driven (.error failure))
  | attemptFailed {left : ℕ} {progressed : Bool} {result : AcceptResult}
      (failure : ReceiverFailure)
      (hresult : ∀ error, result = .error error → classifyAccept error ≠ .fatal) :
      Attempt a now (left + 1) progressed [.attempted now result, .failed failure] a
        (.driven (.error failure))

namespace World

variable {w w' : World} {left : ℕ} {progressed : Bool}

theorem count_cases {value : ℕ} {update : RunSummary → ℕ → RunSummary} {next : World → World}
    (P : World → Prop) (hfail : P (w.fail .counterExhausted))
    (hnext : P (next { w with summary := update w.summary (value + 1) })) :
    P (w.count value update next) := by
  unfold count
  cases hcount : checkedAdd value 1 with
  | none => exact hfail
  | some next =>
      obtain ⟨_, rfl⟩ := checkedAdd_eq_some_iff.mp hcount
      exact hnext

/-- The account of a step inside a call that leads to `w'`. -/
def Attempted (w : World) (now : Instant) (left : ℕ) (progressed : Bool)
    (attempt : List AcceptEvent) (w' : World) : Prop :=
  Attempt w.accepting now left progressed (attempt ++ w'.closing) w'.accepting w'.pc

theorem attempted_onAccepted {peer : SocketAddr} (input : Input) (h : w.Steady)
    (hpc : w.pc = .accepting (left + 1) progressed) :
    w.Attempted input.now (left + 1) progressed [.attempted input.now (.ok peer)]
      (w.onAccepted input left peer) := by
  have hok : ∀ error, (Except.ok peer : AcceptResult) = .error error →
      classifyAccept error ≠ .fatal := nofun
  unfold onAccepted
  split_ifs with hfull
  · exact count_cases _ (.attemptFailed _ hok) (.refused peer)
  · unfold admitPeer
    dsimp only
    cases hnext : checkedAdd w.next 1 with
    | none => exact .attemptFailed _ hok
    | some next =>
        obtain ⟨_, rfl⟩ := checkedAdd_eq_some_iff.mp hnext
        cases input.registered with
        | error error => exact .attemptFailed _ hok
        | ok _ =>
            obtain ⟨ready, _, _, htask⟩ := admitTask_eq h hpc (h.room hfull)
            change w.Attempted input.now (left + 1) progressed _
              (admitTask { w with next := w.next + 1 } w.next peer (.accepting left true))
            rw [htask]
            exact count_cases _ (.attemptFailed _ hok) (.admitted peer)

theorem attempted_onAcceptError {error : IoError} (input : Input) :
    w.Attempted input.now (left + 1) progressed [.attempted input.now (.error error)]
      (w.onAcceptError input left progressed error) := by
  have hnot {c : AcceptFailure} (hclass : classifyAccept error = c) (hc : c ≠ .fatal) :
      ∀ e, (Except.error error : AcceptResult) = .error e → classifyAccept e ≠ .fatal := by
    intro e he
    cases he
    exact hclass ▸ hc
  unfold onAcceptError
  cases hclass : classifyAccept error with
  | drained => exact .drained hclass
  | retry => exact count_cases _ (.attemptFailed _ (hnot hclass nofun)) (.retried hclass)
  | pause => exact count_cases _ (.attemptFailed _ (hnot hclass nofun)) (.paused hclass)
  | fatal => exact .fatal hclass

theorem attempted_stepAccepting (input : Input) (h : w.Steady)
    (hpc : w.pc = .accepting left progressed) :
    w.Attempted input.now left progressed (w.attempting input left)
      (w.stepAccepting input left progressed) := by
  unfold stepAccepting
  cases left with
  | zero =>
      cases progressed with
      | true => exact .spent
      | false =>
          dsimp only
          rw [if_neg Bool.false_ne_true]
          refine count_cases (w.Attempted input.now 0 false []) ?_ ?_
          · exact Attempt.quotaFailed _
          · exact Attempt.backoff
  | succ left =>
      unfold attempting
      dsimp only
      split_ifs with hstop
      · exact .stopped
      · cases input.accepted with
        | ok peer => exact attempted_onAccepted input h hpc
        | error error => exact attempted_onAcceptError input

/-! ## Steps outside a call -/

/-- Summaries that agree in what the accept loop counts. -/
structure SameAccepts (s s' : RunSummary) : Prop where
  accepted : s'.accepted = s.accepted
  refused : s'.refused = s.refused
  transientAcceptErrors : s'.transientAcceptErrors = s.transientAcceptErrors
  resourcePauseEntries : s'.resourcePauseEntries = s.resourcePauseEntries
  retryQuotaBackoffs : s'.retryQuotaBackoffs = s.retryQuotaBackoffs

theorem mergeProgress_sameAccepts {s next : RunSummary} {p : Progress}
    {result : Except ReceiverFailure Unit} (h : s.mergeProgress p = some (next, result)) :
    SameAccepts s next := by
  unfold RunSummary.mergeProgress at h
  dsimp only at h
  repeat' split at h
  all_goals
    cases h
    try exact ⟨rfl, rfl, rfl, rfl, rfl⟩

theorem absorb_sameAccepts {s next : RunSummary} {p : Progress}
    {result : Except ReceiverFailure Unit} (h : s.absorb p = some (next, result)) :
    SameAccepts s next := by
  simp only [RunSummary.absorb, Option.bind_eq_bind, Option.bind_eq_some_iff] at h
  obtain ⟨⟨merged, verdict⟩, hmerge, h⟩ := h
  have hsame := mergeProgress_sameAccepts hmerge
  cases verdict with
  | ok _ =>
      cases h
      exact hsame
  | error e =>
      cases h
      exact ⟨hsame.1, hsame.2, hsame.3, hsame.4, hsame.5⟩

/-- The accept loop is left alone, and the worker does not enter it. -/
structure Elsewhere (w w' : World) : Prop where
  accepting : w'.accepting = w.accepting
  outside : w'.pc.isAccepting = false
  running : w'.pc.isSetup = false

theorem elsewhere_goto {pc : Pc} (houtside : pc.isAccepting = false)
    (hrunning : pc.isSetup = false) : w.Elsewhere (w.goto pc) := ⟨rfl, houtside, hrunning⟩

theorem elsewhere_act {a : Engine.Action} {next : World → World}
    (hnext : ∀ engine, w.Elsewhere (next { w with engine })) : w.Elsewhere (w.act a next) := by
  unfold act
  cases w.engine.step a with
  | none => exact ⟨rfl, rfl, rfl⟩
  | some engine => exact hnext engine

theorem elsewhere_resume {v : World} {caller : Caller} {result : Except ReceiverFailure Unit}
    (h : v.accepting = w.accepting) : w.Elsewhere (v.resume caller result) := by
  cases caller <;> cases result <;> exact ⟨h, rfl, rfl⟩

theorem elsewhere_absorb {v : World} {caller : Caller} {progress : Progress}
    (h : v.accepting = w.accepting) : w.Elsewhere (v.absorb caller progress) := by
  unfold World.absorb
  cases habsorb : v.summary.absorb progress with
  | none => exact ⟨h, rfl, rfl⟩
  | some pair =>
      obtain ⟨summary, result⟩ := pair
      have hsame := absorb_sameAccepts habsorb
      refine elsewhere_resume ?_
      rw [← h]
      unfold accepting
      dsimp only
      rw [hsame.1, hsame.2, hsame.3, hsame.4, hsame.5]

theorem setCell_accepting (cell : Option ℕ) (result : ConnectionCloseResult) :
    (w.setCell cell result).accepting = w.accepting := by
  cases cell <;> rfl

theorem elsewhere_stepPublish (caller : Caller) (cell : Option ℕ) (progress : Progress) :
    w.Elsewhere (w.stepPublish caller cell progress) := by
  unfold stepPublish
  dsimp only
  split_ifs
  · split
    · exact elsewhere_resume (setCell_accepting cell _)
    · exact elsewhere_absorb (setCell_accepting cell _)
  · exact elsewhere_absorb (setCell_accepting cell _)

theorem elsewhere_afterPoll (left : ℕ) (token : Token) (ended : Bool) :
    w.Elsewhere (w.afterPoll left token ended) := by
  unfold afterPoll
  split
  · exact elsewhere_goto rfl rfl
  · split_ifs
    · exact elsewhere_goto rfl rfl
    · exact elsewhere_goto rfl rfl
    · split <;> exact elsewhere_goto rfl rfl

theorem elsewhere_stepPolling {token : Token} (input : Input)
    (hpc : w.pc = .polling left token) : w.Elsewhere (w.stepPolling input left token) := by
  have hact (a : Engine.Action) : w.Elsewhere (w.act a id) := by
    refine elsewhere_act fun engine ↦ ⟨rfl, ?_, ?_⟩
    · simp only [id, hpc, Pc.isAccepting]
    · simp only [id, hpc, Pc.isSetup]
  unfold stepPolling
  split
  · exact hact _
  · exact hact _
  · exact hact _
  · exact elsewhere_afterPoll left token true
  · exact elsewhere_afterPoll left token false

/-- What a step does to the accept loop, with its part of the log. -/
inductive AcceptStep (w : World) (a : Step) (w' : World) : Prop
  | elsewhere (hlog : w.accepts a = []) (h : w.Elsewhere w')
  | apart (hlog : w.accepts a = []) (haccepting : w'.accepting = w.accepting)
      (hpc : w'.pc = w.pc)
  | started (hpc : w.pc = .setup) (hlog : w.accepts a = [])
      (haccepting : w'.accepting = ⟨w.listenerReady, w.acceptPausedAt, 0, 0, 0, 0, 0⟩)
      (houtside : w'.pc.isAccepting = false) (hrunning : w'.pc.isSetup = false)
  | heard (hlog : w.accepts a = [.listener])
      (haccepting : w'.accepting = { w.accepting with listenerReady := true })
      (houtside : w'.pc.isAccepting = false) (hrunning : w'.pc.isSetup = false)
  | opened {input : Input} (ha : a = .work input) (hready : w.listenerReady = true)
      (hdelay : w.acceptDelay input.now = 0)
      (hlog : w.accepts a = [.opened input.now])
      (haccepting : w'.accepting = { w.accepting with acceptPausedAt := none })
      (hpc : w'.pc = .accepting w.quota false)
  | inside {input : Input} {left : ℕ} {progressed : Bool} (ha : a = .work input)
      (hpc : w.pc = .accepting left progressed)
      (hattempt : Attempt w.accepting input.now left progressed (w.accepts a) w'.accepting w'.pc)

theorem acceptStep_setup {input : Input} (hpc : w.pc = .setup) :
    w.AcceptStep (.work input) (w.stepSetup input) := by
  have hlog : w.accepts (.work input) = [] := by simp [accepts, hpc]
  unfold stepSetup
  cases input.setup with
  | some failure => exact .elsewhere hlog (elsewhere_goto rfl rfl)
  | none =>
      dsimp only
      unfold act
      split
      · exact .started hpc hlog rfl rfl rfl
      · exact .started hpc hlog rfl rfl rfl

theorem acceptStep_start {input : Input} (hpc : w.pc = .accept) :
    w.AcceptStep (.work input) (w.startAccept input.now) := by
  have hlog : w.accepts (.work input) =
      if (w.startAccept input.now).pc.isAccepting then [.opened input.now] else [] := by
    simp [accepts, hpc]
  unfold startAccept at hlog ⊢
  by_cases hclosed : (!w.listenerReady || w.acceptDelay input.now ≠ 0) = true
  · rw [if_pos hclosed] at hlog ⊢
    exact .elsewhere hlog (elsewhere_goto rfl rfl)
  · rw [if_neg hclosed] at hlog ⊢
    rw [Bool.or_eq_true, not_or, decide_eq_true_eq, not_not, Bool.not_eq_true',
      Bool.not_eq_false] at hclosed
    exact .opened rfl hclosed.1 hclosed.2 hlog rfl rfl

theorem acceptStep_event {input : Input} {token : Token} {rest : List Token}
    (hpc : w.pc = .events (token :: rest)) :
    w.AcceptStep (.work input) (w.stepEvent token rest) := by
  have hlog : w.accepts (.work input) = if token = listenerToken then [.listener] else [] := by
    simp [accepts, hpc]
  unfold stepEvent
  split_ifs at hlog ⊢ with hlistener hcontrol
  · exact .heard hlog rfl rfl rfl
  · exact .elsewhere hlog (elsewhere_goto rfl rfl)
  · exact .elsewhere hlog (elsewhere_act fun engine ↦ ⟨rfl, rfl, rfl⟩)

theorem elsewhere_stepFailure : w.Elsewhere w.stepFailure := by
  unfold stepFailure
  split
  · exact elsewhere_act fun engine ↦ ⟨rfl, rfl, rfl⟩
  · exact elsewhere_goto rfl rfl

theorem elsewhere_stepTurn (left : ℕ) : w.Elsewhere (w.stepTurn left) := by
  unfold stepTurn
  refine elsewhere_act fun engine ↦ ?_
  dsimp only
  split <;> exact ⟨rfl, rfl, rfl⟩

theorem elsewhere_stepBlock (input : Input) : w.Elsewhere (w.stepBlock input) := by
  unfold stepBlock
  split
  · exact elsewhere_goto rfl rfl
  · split_ifs <;> exact elsewhere_goto rfl rfl

theorem elsewhere_stepRetire (caller : Caller) (token : Token) :
    w.Elsewhere (w.stepRetire caller token) := by
  unfold stepRetire
  split
  · exact elsewhere_goto rfl rfl
  · exact elsewhere_act fun engine ↦ ⟨rfl, rfl, rfl⟩

theorem elsewhere_stepCleanup (result : DriveResult) (failure : Option ReceiverFailure) :
    w.Elsewhere (w.stepCleanup result failure) := by
  unfold stepCleanup
  split <;> exact elsewhere_goto rfl rfl

theorem elsewhere_stepPublishAll (result : DriveResult) (failure : Option ReceiverFailure)
    (cells : List ℕ) : w.Elsewhere (w.stepPublishAll result failure cells) := by
  cases cells with
  | nil => exact elsewhere_goto rfl rfl
  | cons cell cells => exact ⟨setCell_accepting _ _, rfl, rfl⟩

theorem acceptStep_work {input : Input} (h : w.Steady) (hstep : w.step (.work input) = some w') :
    w.AcceptStep (.work input) w' := by
  have helsewhere {v : World} (hlog : w.accepts (.work input) = []) (hv : w.Elsewhere v)
      (heq : some v = some w') : w.AcceptStep (.work input) w' := by
    cases heq
    exact .elsewhere hlog hv
  simp only [World.step, work] at hstep
  cases hpc : w.pc with
  | setup =>
      rw [hpc] at hstep
      cases hstep
      exact acceptStep_setup hpc
  | accept =>
      rw [hpc] at hstep
      cases hstep
      exact acceptStep_start hpc
  | accepting left progressed =>
      rw [hpc] at hstep
      cases hstep
      refine .inside rfl hpc ?_
      have hattempt := attempted_stepAccepting input h hpc
      have hlog : w.accepts (.work input) =
          w.attempting input left ++ (w.stepAccepting input left progressed).closing := by
        simp [accepts, hpc]
      rw [hlog]
      exact hattempt
  | events tokens =>
      rw [hpc] at hstep
      cases tokens with
      | nil => exact helsewhere (by simp [accepts, hpc]) (elsewhere_goto rfl rfl) hstep
      | cons token rest =>
          cases hstep
          exact acceptStep_event hpc
  | failure =>
      rw [hpc] at hstep
      exact helsewhere (by simp [accepts, hpc]) elsewhere_stepFailure hstep
  | cause =>
      rw [hpc] at hstep
      dsimp only at hstep
      cases hcause : w.stopCause input.raced with
      | none =>
          rw [hcause] at hstep
          exact helsewhere (by simp [accepts, hpc]) (elsewhere_goto rfl rfl) hstep
      | some cause =>
          rw [hcause] at hstep
          exact helsewhere (by simp [accepts, hpc]) (elsewhere_goto rfl rfl) hstep
  | causeAgain =>
      rw [hpc] at hstep
      dsimp only at hstep
      cases hcause : w.stopCause input.raced with
      | none =>
          rw [hcause] at hstep
          exact helsewhere (by simp [accepts, hpc]) (elsewhere_goto rfl rfl) hstep
      | some cause =>
          rw [hcause] at hstep
          exact helsewhere (by simp [accepts, hpc]) (elsewhere_goto rfl rfl) hstep
  | scan site rest found =>
      rw [hpc] at hstep
      cases rest <;>
        exact helsewhere (by simp [accepts, hpc]) (elsewhere_goto rfl rfl) hstep
  | retiring site tokens =>
      rw [hpc] at hstep
      cases tokens with
      | nil =>
          cases site <;>
            exact helsewhere (by simp [accepts, hpc]) (elsewhere_goto rfl rfl) hstep
      | cons token rest =>
          exact helsewhere (by simp [accepts, hpc]) (elsewhere_goto rfl rfl) hstep
  | control =>
      rw [hpc] at hstep
      dsimp only at hstep
      split_ifs at hstep
      · exact helsewhere (by simp [accepts, hpc])
          (elsewhere_act fun engine ↦ ⟨rfl, rfl, rfl⟩) hstep
      · exact helsewhere (by simp [accepts, hpc]) (elsewhere_goto rfl rfl) hstep
  | credit k =>
      rw [hpc] at hstep
      cases k <;>
        exact helsewhere (by simp [accepts, hpc])
          (elsewhere_act fun engine ↦ ⟨rfl, rfl, rfl⟩) hstep
  | turn left =>
      rw [hpc] at hstep
      cases left with
      | zero => exact helsewhere (by simp [accepts, hpc]) (elsewhere_goto rfl rfl) hstep
      | succ left =>
          dsimp only at hstep
          split_ifs at hstep
          · exact helsewhere (by simp [accepts, hpc]) (elsewhere_goto rfl rfl) hstep
          · exact helsewhere (by simp [accepts, hpc]) (elsewhere_stepTurn left) hstep
  | polling left token =>
      rw [hpc] at hstep
      exact helsewhere (by simp [accepts, hpc]) (elsewhere_stepPolling input hpc) hstep
  | block =>
      rw [hpc] at hstep
      exact helsewhere (by simp [accepts, hpc]) (elsewhere_stepBlock input) hstep
  | retire caller token =>
      rw [hpc] at hstep
      exact helsewhere (by simp [accepts, hpc]) (elsewhere_stepRetire caller token) hstep
  | finish caller token progress =>
      rw [hpc] at hstep
      have hnext : w.Elsewhere (w.stepFinish caller token progress) := ⟨rfl, rfl, rfl⟩
      exact helsewhere (by simp [accepts, hpc]) hnext hstep
  | publish caller cell progress =>
      rw [hpc] at hstep
      exact helsewhere (by simp [accepts, hpc]) (elsewhere_stepPublish caller cell progress) hstep
  | driven result =>
      rw [hpc] at hstep
      have hnext : w.Elsewhere (w.stepDriven result) := ⟨rfl, rfl, rfl⟩
      exact helsewhere (by simp [accepts, hpc]) hnext hstep
  | cleanup result failure =>
      rw [hpc] at hstep
      exact helsewhere (by simp [accepts, hpc]) (elsewhere_stepCleanup result failure) hstep
  | stopAll result failure =>
      rw [hpc] at hstep
      have hnext : w.Elsewhere (w.stepStopAll result failure) := ⟨rfl, rfl, rfl⟩
      exact helsewhere (by simp [accepts, hpc]) hnext hstep
  | publishAll result failure cells =>
      rw [hpc] at hstep
      exact helsewhere (by simp [accepts, hpc]) (elsewhere_stepPublishAll result failure cells)
        hstep
  | outcome result failure =>
      rw [hpc] at hstep
      have hnext : w.Elsewhere (w.stepOutcome result failure) := by
        unfold stepOutcome act
        dsimp only
        split <;> exact ⟨rfl, rfl, rfl⟩
      exact helsewhere (by simp [accepts, hpc]) hnext hstep
  | returned result =>
      rw [hpc] at hstep
      cases hstep
  | panicked =>
      rw [hpc] at hstep
      cases hstep

theorem acceptStep_of_step {a : Step} (h : w.Steady) (hstep : w.step a = some w') :
    w.AcceptStep a w' := by
  by_cases ha : ∃ input, a = .work input
  · obtain ⟨input, rfl⟩ := ha
    exact acceptStep_work h hstep
  · have hapart := apart_of_step (fun input heq ↦ ha ⟨input, heq⟩) hstep
    refine .apart ?_ ?_ hapart.pc
    · cases a with
      | work input => exact absurd ⟨input, rfl⟩ ha
      | _ => rfl
    · unfold accepting
      rw [hapart.listenerReady, hapart.acceptPausedAt, hapart.summary]

end World

end Phonowire.Receiver
