import Phonowire.Library.History
import Phonowire.Receiver.AcceptLog

/-!
# The accept loop over whole runs

Every call makes at most a quota of attempts, and a pause is installed exactly
where the last attempt met resource pressure or every attempt of the quota was
retryable. The listener counts as drained only behind an attempt that said so,
and the counters of the summary count what the log lists.
-/

namespace Phonowire.Receiver

open History

/-! ## Reading the log -/

namespace AcceptEvent

/-- The attempts of the last call after one more event. -/
def record (call : List AcceptResult) : AcceptEvent → List AcceptResult
  | .opened _ => []
  | .attempted _ result => call ++ [result]
  | _ => call

def succeeded : AcceptEvent → Bool
  | .attempted _ (.ok _) => true
  | _ => false

/-- An attempt that met an error of the class `c`. -/
def erred (c : AcceptFailure) : AcceptEvent → Bool
  | .attempted _ (.error e) => classifyAccept e = c
  | _ => false

def isClosed : AcceptEvent → Bool
  | .closed _ => true
  | _ => false

/-- The events that say whether the listener may have a backlog. -/
def onReadiness : AcceptEvent → Bool
  | .listener => true
  | .attempted _ _ => true
  | _ => false

/-- The events that install or clear a pause. -/
def onPause : AcceptEvent → Bool
  | .opened _ => true
  | .closed _ => true
  | _ => false

end AcceptEvent

/-- The attempts since the last call began. -/
def lastCall (log : List AcceptEvent) : List AcceptResult := log.foldl AcceptEvent.record []

theorem lastCall_snoc (log : List AcceptEvent) (e : AcceptEvent) :
    lastCall (log ++ [e]) = e.record (lastCall log) := by
  simp [lastCall]

def isRetry : AcceptResult → Bool
  | .ok _ => false
  | .error e => classifyAccept e = .retry

/-- The call spent its whole quota on retryable errors. -/
def AllRetried (quota : ℕ) (call : List AcceptResult) : Prop :=
  call.length = quota ∧ ∀ result ∈ call, isRetry result = true

instance (quota : ℕ) (call : List AcceptResult) : Decidable (AllRetried quota call) :=
  inferInstanceAs (Decidable (_ ∧ _))

/-- The last attempt of the call met resource pressure. -/
def Pressed (call : List AcceptResult) : Prop :=
  ∃ e, call.getLast? = some (.error e) ∧ classifyAccept e = .pause

/-- The end of a call leaves a pause exactly for one of the two reasons. -/
def PauseExact (quota : ℕ) (past : List AcceptEvent) (event : AcceptEvent) : Prop :=
  ∀ pausedAt, event = .closed pausedAt →
    (pausedAt.isSome = true ↔ Pressed (lastCall past) ∨ AllRetried quota (lastCall past))

def Bounded (quota : ℕ) (past : List AcceptEvent) (event : AcceptEvent) : Prop :=
  (lastCall (past ++ [event])).length ≤ quota

/-- A failed call failed with the error that the listener returned. -/
def Fatal (past : List AcceptEvent) (event : AcceptEvent) : Prop :=
  ∀ failure, event = .failed failure →
    ∃ now e, past.getLast? = some (.attempted now (.error e)) ∧ classifyAccept e = .fatal

/-- Calls that spent their whole quota on retryable errors. -/
def spentQuotas (quota : ℕ) (log : List AcceptEvent) : ℕ :=
  tally (fun past event ↦ event.isClosed && decide (AllRetried quota (lastCall past))) log

/-- The counters are what the log lists. -/
structure Tallied (quota : ℕ) (a : Accepting) (log : List AcceptEvent) : Prop where
  successes : a.accepted + a.refused = log.countP AcceptEvent.succeeded
  transient : a.transientAcceptErrors = log.countP (AcceptEvent.erred .retry)
  pauses : a.resourcePauseEntries = log.countP (AcceptEvent.erred .pause)
  backoffs : a.retryQuotaBackoffs = spentQuotas quota log

/-! ## What holds along a run -/

/-- Inside a call: the listener is ready, there is no pause, and the attempts so
far let the call go on. -/
structure Inside (quota left : ℕ) (progressed : Bool) (a : Accepting)
    (call : List AcceptResult) : Prop where
  ready : a.listenerReady = true
  unpaused : a.acceptPausedAt = none
  length : call.length + left = quota
  progressed : progressed = false ↔ ∀ result ∈ call, isRetry result = true
  errors : ∀ e, .error e ∈ call → classifyAccept e = .retry

structure Tracked (quota : ℕ) (a : Accepting) (pc : Pc) (log : List AcceptEvent) : Prop where
  bounded : Each (Bounded quota) log
  exact : Each (PauseExact quota) log
  setup : pc.isSetup = true → log = []
  inside : ∀ left progressed, pc = .accepting left progressed →
    Inside quota left progressed a (lastCall log)
  drained : a.listenerReady = false → ∃ now e,
    (log.filter AcceptEvent.onReadiness).getLast? = some (.attempted now (.error e)) ∧
      classifyAccept e = .drained
  paused : ∀ now, a.acceptPausedAt = some now →
    (log.filter AcceptEvent.onPause).getLast? = some (.closed (some now))
  counted : Each Fatal log → Tallied quota a log

section Attempts

variable {quota left : ℕ} {progressed : Bool} {a a' : Accepting} {pc' : Pc} {now : Instant}
  {log events : List AcceptEvent}

theorem mem_lastCall_of_getLast {result : AcceptResult}
    (h : log.getLast? = some (.attempted now result)) : result ∈ lastCall log := by
  obtain ⟨init, rfl⟩ := List.getLast?_eq_some_iff.mp h
  rw [lastCall_snoc]
  exact List.mem_append_right _ (List.mem_singleton_self result)

theorem Inside.le (h : Inside quota left progressed a (lastCall log)) :
    (lastCall log).length ≤ quota := by
  have hlength := h.length
  omega

theorem Inside.not_pressed {call : List AcceptResult}
    (h : Inside quota left progressed a call) : ¬ Pressed call := by
  rintro ⟨e, hlast, hclass⟩
  rw [h.errors e (List.mem_of_getLast? hlast)] at hclass
  cases hclass

theorem Attempt.bounded (h : Attempt a now left progressed events a' pc')
    (hinside : Inside quota left progressed a (lastCall log)) (hlog : Each (Bounded quota) log) :
    Each (Bounded quota) (log ++ events) := by
  have hlength := hinside.length
  have hattempt (result : AcceptResult) (hleft : 0 < left) :
      Bounded quota log (.attempted now result) := by
    unfold Bounded
    rw [lastCall_snoc, AcceptEvent.record, List.length_append, List.length_singleton]
    omega
  have hsame {past : List AcceptEvent} {e : AcceptEvent} (hpast : (lastCall past).length ≤ quota)
      (he : e.record (lastCall past) = lastCall past) : Bounded quota past e := by
    unfold Bounded
    rw [lastCall_snoc, he]
    exact hpast
  cases h with
  | spent => exact each_snoc.mpr ⟨hlog, hsame hinside.le rfl⟩
  | backoff => exact each_snoc.mpr ⟨hlog, hsame hinside.le rfl⟩
  | stopped => exact each_snoc.mpr ⟨hlog, hsame hinside.le rfl⟩
  | refused peer => exact each_snoc.mpr ⟨hlog, hattempt _ (Nat.succ_pos _)⟩
  | admitted peer => exact each_snoc.mpr ⟨hlog, hattempt _ (Nat.succ_pos _)⟩
  | retried hclass => exact each_snoc.mpr ⟨hlog, hattempt _ (Nat.succ_pos _)⟩
  | quotaFailed failure => exact each_snoc.mpr ⟨hlog, hsame hinside.le rfl⟩
  | @drained left progressed error hclass =>
      have hfirst := hattempt (.error error) (Nat.succ_pos _)
      exact each_pair.mpr ⟨hlog, hfirst, hsame hfirst rfl⟩
  | @paused left progressed error hclass =>
      have hfirst := hattempt (.error error) (Nat.succ_pos _)
      exact each_pair.mpr ⟨hlog, hfirst, hsame hfirst rfl⟩
  | @fatal left progressed error hclass =>
      have hfirst := hattempt (.error error) (Nat.succ_pos _)
      exact each_pair.mpr ⟨hlog, hfirst, hsame hfirst rfl⟩
  | @attemptFailed left progressed result failure hresult =>
      have hfirst := hattempt result (Nat.succ_pos _)
      exact each_pair.mpr ⟨hlog, hfirst, hsame hfirst rfl⟩

theorem Attempt.exact (h : Attempt a now left progressed events a' pc')
    (hinside : Inside quota left progressed a (lastCall log)) (hlog : Each (PauseExact quota) log) :
    Each (PauseExact quota) (log ++ events) := by
  have hlength := hinside.length
  have hopen {past : List AcceptEvent} {e : AcceptEvent} (he : e.isClosed = false) :
      PauseExact quota past e := by
    rintro pausedAt rfl
    cases he
  have hunpaused {past : List AcceptEvent} (hpressed : ¬ Pressed (lastCall past))
      (hretried : ¬ AllRetried quota (lastCall past)) :
      PauseExact quota past (.closed a.acceptPausedAt) := by
    intro pausedAt hclosed
    cases hclosed
    rw [hinside.unpaused]
    simp [hpressed, hretried]
  cases h with
  | spent =>
      refine each_snoc.mpr ⟨hlog, hunpaused hinside.not_pressed ?_⟩
      intro hretried
      have hfalse := hinside.progressed.mpr hretried.2
      cases hfalse
  | backoff =>
      refine each_snoc.mpr ⟨hlog, ?_⟩
      intro pausedAt hclosed
      cases hclosed
      simp only [Option.isSome_some, true_iff]
      exact Or.inr ⟨hlength, hinside.progressed.mp rfl⟩
  | stopped =>
      refine each_snoc.mpr ⟨hlog, hunpaused hinside.not_pressed ?_⟩
      intro hretried
      have hall := hretried.1
      omega
  | refused peer => exact each_snoc.mpr ⟨hlog, hopen rfl⟩
  | admitted peer => exact each_snoc.mpr ⟨hlog, hopen rfl⟩
  | retried hclass => exact each_snoc.mpr ⟨hlog, hopen rfl⟩
  | quotaFailed failure => exact each_snoc.mpr ⟨hlog, hopen rfl⟩
  | @drained left progressed error hclass =>
      refine each_pair.mpr ⟨hlog, hopen rfl, hunpaused ?_ ?_⟩
      · rintro ⟨e, hlast, hpause⟩
        rw [lastCall_snoc, AcceptEvent.record, List.getLast?_concat] at hlast
        cases hlast
        rw [hclass] at hpause
        cases hpause
      · intro hretried
        have hretry := hretried.2 (.error error) (by simp [lastCall_snoc, AcceptEvent.record])
        simp [isRetry, hclass] at hretry
  | @paused left progressed error hclass =>
      refine each_pair.mpr ⟨hlog, hopen rfl, ?_⟩
      intro pausedAt hclosed
      cases hclosed
      simp only [Option.isSome_some, true_iff]
      refine Or.inl ⟨error, ?_, hclass⟩
      rw [lastCall_snoc, AcceptEvent.record, List.getLast?_concat]
  | fatal hclass => exact each_pair.mpr ⟨hlog, hopen rfl, hopen rfl⟩
  | attemptFailed failure hresult => exact each_pair.mpr ⟨hlog, hopen rfl, hopen rfl⟩

theorem Inside.succeeded {call : List AcceptResult} {peer : SocketAddr}
    (h : Inside quota (left + 1) progressed a call) (hready : a'.listenerReady = a.listenerReady)
    (ha : a'.acceptPausedAt = a.acceptPausedAt) :
    Inside quota left true a' (call ++ [.ok peer]) where
  ready := hready.trans h.ready
  unpaused := ha.trans h.unpaused
  length := by
    have hlength := h.length
    rw [List.length_append, List.length_singleton]
    omega
  progressed := by
    refine ⟨nofun, ?_⟩
    intro hall
    have hok := hall (.ok peer) (List.mem_append_right _ (List.mem_singleton_self _))
    cases hok
  errors e he := by
    rcases List.mem_append.mp he with hcall | hlast
    · exact h.errors e hcall
    · rw [List.mem_singleton] at hlast
      cases hlast

theorem Inside.retried {call : List AcceptResult} {error : IoError}
    (h : Inside quota (left + 1) progressed a call) (hready : a'.listenerReady = a.listenerReady)
    (ha : a'.acceptPausedAt = a.acceptPausedAt) (hclass : classifyAccept error = .retry) :
    Inside quota left progressed a' (call ++ [.error error]) where
  ready := hready.trans h.ready
  unpaused := ha.trans h.unpaused
  length := by
    have hlength := h.length
    rw [List.length_append, List.length_singleton]
    omega
  progressed := by
    rw [h.progressed]
    constructor
    · intro hall result hresult
      rcases List.mem_append.mp hresult with hcall | hlast
      · exact hall result hcall
      · rw [List.mem_singleton.mp hlast]
        simp [isRetry, hclass]
    · exact fun hall result hresult ↦ hall result (List.mem_append_left _ hresult)
  errors e he := by
    rcases List.mem_append.mp he with hcall | hlast
    · exact h.errors e hcall
    · rw [List.mem_singleton] at hlast
      cases hlast
      exact hclass

/-- A call that goes on is still inside. -/
theorem Attempt.inside (h : Attempt a now left progressed events a' pc')
    (hinside : Inside quota left progressed a (lastCall log)) (left' : ℕ) (progressed' : Bool)
    (hpc : pc' = .accepting left' progressed') :
    Inside quota left' progressed' a' (lastCall (log ++ events)) := by
  cases h with
  | refused peer =>
      cases hpc
      rw [lastCall_snoc]
      exact hinside.succeeded rfl rfl
  | admitted peer =>
      cases hpc
      rw [lastCall_snoc]
      exact hinside.succeeded rfl rfl
  | retried hclass =>
      cases hpc
      rw [lastCall_snoc]
      exact hinside.retried rfl rfl hclass
  | _ => cases hpc

theorem Attempt.drains (h : Attempt a now left progressed events a' pc')
    (hready : a.listenerReady = true) (hnot : a'.listenerReady = false) : ∃ now e,
      ((log ++ events).filter AcceptEvent.onReadiness).getLast? =
        some (.attempted now (.error e)) ∧ classifyAccept e = .drained := by
  cases h with
  | @drained left progressed error hclass =>
      refine ⟨now, error, ?_, hclass⟩
      rw [List.filter_append]
      exact List.getLast?_concat
  | _ =>
      rw [hready] at hnot
      cases hnot

theorem Attempt.pauses (h : Attempt a now left progressed events a' pc')
    (hunpaused : a.acceptPausedAt = none) (pausedAt : Instant)
    (hpaused : a'.acceptPausedAt = some pausedAt) :
    ((log ++ events).filter AcceptEvent.onPause).getLast? = some (.closed (some pausedAt)) := by
  cases h with
  | backoff =>
      cases hpaused
      rw [List.filter_append]
      exact List.getLast?_concat
  | paused hclass =>
      cases hpaused
      rw [List.filter_append]
      exact List.getLast?_concat
  | _ =>
      rw [hunpaused] at hpaused
      cases hpaused

theorem spentQuotas_open {e : AcceptEvent} (he : e.isClosed = false) :
    spentQuotas quota (log ++ [e]) = spentQuotas quota log := by
  unfold spentQuotas
  rw [tally_snoc, he]
  rfl

theorem spentQuotas_unspent {pausedAt : Option Instant} (h : ¬ AllRetried quota (lastCall log)) :
    spentQuotas quota (log ++ [.closed pausedAt]) = spentQuotas quota log := by
  unfold spentQuotas
  rw [tally_snoc]
  simp [AcceptEvent.isClosed, h]

theorem spentQuotas_spent {pausedAt : Option Instant} (h : AllRetried quota (lastCall log)) :
    spentQuotas quota (log ++ [.closed pausedAt]) = spentQuotas quota log + 1 := by
  unfold spentQuotas
  rw [tally_snoc]
  simp [AcceptEvent.isClosed, h]

/-- An attempt outside the class of retryable errors saves the quota. -/
theorem not_allRetried {error : IoError} (hclass : classifyAccept error ≠ .retry) :
    ¬ AllRetried quota (lastCall (log ++ [.attempted now (.error error)])) := by
  intro hretried
  have hretry := hretried.2 (.error error) (by simp [lastCall_snoc, AcceptEvent.record])
  simp [isRetry, hclass] at hretry

theorem Tallied.succeeded {peer : SocketAddr} (h : Tallied quota a log)
    (hsum : a'.accepted + a'.refused = a.accepted + a.refused + 1)
    (htransient : a'.transientAcceptErrors = a.transientAcceptErrors)
    (hpauses : a'.resourcePauseEntries = a.resourcePauseEntries)
    (hbackoffs : a'.retryQuotaBackoffs = a.retryQuotaBackoffs) :
    Tallied quota a' (log ++ [.attempted now (.ok peer)]) where
  successes := by simp [hsum, h.successes, AcceptEvent.succeeded]
  transient := by simp [htransient, h.transient, AcceptEvent.erred]
  pauses := by simp [hpauses, h.pauses, AcceptEvent.erred]
  backoffs := by rw [spentQuotas_open rfl, hbackoffs, h.backoffs]

theorem Tallied.erred {error : IoError} (h : Tallied quota a log)
    (hsum : a'.accepted + a'.refused = a.accepted + a.refused)
    (htransient : a'.transientAcceptErrors =
      a.transientAcceptErrors + if classifyAccept error = .retry then 1 else 0)
    (hpauses : a'.resourcePauseEntries =
      a.resourcePauseEntries + if classifyAccept error = .pause then 1 else 0)
    (hbackoffs : a'.retryQuotaBackoffs = a.retryQuotaBackoffs) :
    Tallied quota a' (log ++ [.attempted now (.error error)]) where
  successes := by simp [hsum, h.successes, AcceptEvent.succeeded]
  transient := by simp [htransient, h.transient, AcceptEvent.erred]
  pauses := by simp [hpauses, h.pauses, AcceptEvent.erred]
  backoffs := by rw [spentQuotas_open rfl, hbackoffs, h.backoffs]

theorem uncounted {e : AcceptEvent} (he : ∀ now result, e ≠ .attempted now result) :
    e.succeeded = false ∧ ∀ c, e.erred c = false := by
  cases e with
  | attempted now result => exact absurd rfl (he now result)
  | _ => exact ⟨rfl, fun _ ↦ rfl⟩

theorem Tallied.other {e : AcceptEvent} (h : Tallied quota a log)
    (he : ∀ now result, e ≠ .attempted now result)
    (hsum : a'.accepted + a'.refused = a.accepted + a.refused)
    (htransient : a'.transientAcceptErrors = a.transientAcceptErrors)
    (hpauses : a'.resourcePauseEntries = a.resourcePauseEntries)
    (hbackoffs : a'.retryQuotaBackoffs = spentQuotas quota (log ++ [e])) :
    Tallied quota a' (log ++ [e]) where
  successes := by simp [hsum, h.successes, (uncounted he).1]
  transient := by simp [htransient, h.transient, (uncounted he).2]
  pauses := by simp [hpauses, h.pauses, (uncounted he).2]
  backoffs := hbackoffs

theorem Attempt.counted (h : Attempt a now left progressed events a' pc')
    (hinside : Inside quota left progressed a (lastCall log)) (hlog : Tallied quota a log)
    (hfatal : Each Fatal (log ++ events)) : Tallied quota a' (log ++ events) := by
  have hlength := hinside.length
  cases h with
  | spent =>
      refine hlog.other nofun rfl rfl rfl ?_
      rw [spentQuotas_unspent, hlog.backoffs]
      intro hretried
      have hfalse := hinside.progressed.mpr hretried.2
      cases hfalse
  | backoff =>
      refine hlog.other nofun rfl rfl rfl ?_
      rw [spentQuotas_spent ⟨hlength, hinside.progressed.mp rfl⟩, hlog.backoffs]
  | stopped =>
      refine hlog.other nofun rfl rfl rfl ?_
      rw [spentQuotas_unspent, hlog.backoffs]
      intro hretried
      have hall := hretried.1
      omega
  | refused peer => exact hlog.succeeded (by dsimp only; omega) rfl rfl rfl
  | admitted peer => exact hlog.succeeded (by dsimp only; omega) rfl rfl rfl
  | retried hclass => exact hlog.erred rfl (by simp [hclass]) (by simp [hclass]) rfl
  | @drained left progressed error hclass =>
      rw [List.append_cons]
      have hfirst : Tallied quota a (log ++ [.attempted now (.error error)]) :=
        hlog.erred rfl (by simp [hclass]) (by simp [hclass]) rfl
      refine hfirst.other nofun rfl rfl rfl ?_
      rw [spentQuotas_unspent (not_allRetried (by rw [hclass]; nofun)), ← hfirst.backoffs]
  | @paused left progressed error hclass =>
      rw [List.append_cons]
      have hfirst : Tallied quota { a with resourcePauseEntries := a.resourcePauseEntries + 1 }
          (log ++ [.attempted now (.error error)]) :=
        hlog.erred rfl (by simp [hclass]) (by simp [hclass]) rfl
      refine hfirst.other nofun rfl rfl rfl ?_
      rw [spentQuotas_unspent (not_allRetried (by rw [hclass]; nofun)), ← hfirst.backoffs]
  | @fatal left progressed error hclass =>
      rw [List.append_cons]
      have hfirst : Tallied quota a (log ++ [.attempted now (.error error)]) :=
        hlog.erred rfl (by simp [hclass]) (by simp [hclass]) rfl
      refine hfirst.other nofun rfl rfl rfl ?_
      rw [spentQuotas_open rfl, ← hfirst.backoffs]
  | quotaFailed failure =>
      obtain ⟨then', e, hlast, hclass⟩ := (each_snoc.mp hfatal).2 failure rfl
      rw [hinside.errors e (mem_lastCall_of_getLast hlast)] at hclass
      cases hclass
  | attemptFailed failure hresult =>
      obtain ⟨then', e, hlast, hclass⟩ := (each_pair.mp hfatal).2.2 failure rfl
      rw [List.getLast?_concat] at hlast
      cases hlast
      exact absurd hclass (hresult e rfl)

theorem Attempt.running (h : Attempt a now left progressed events a' pc') :
    pc'.isSetup = false := by
  cases h <;> rfl

end Attempts

section Runs

variable {quota : ℕ} {a : Accepting} {pc pc' : Pc} {log : List AcceptEvent} {w w' : World}

theorem length_lastCall (h : Each (Bounded quota) log) : (lastCall log).length ≤ quota := by
  rcases List.eq_nil_or_concat log with rfl | ⟨init, e, rfl⟩
  · exact Nat.zero_le quota
  · rw [List.concat_eq_append] at h ⊢
    exact (each_snoc.mp h).2

theorem tracked_new (settings : Settings) (outside : List ℕ) :
    Tracked quota (World.new settings outside).accepting .setup [] where
  bounded := each_nil _
  exact := each_nil _
  setup _ := rfl
  inside _ _ := nofun
  drained := nofun
  paused _ := nofun
  counted _ := ⟨rfl, rfl, rfl, rfl⟩

/-- A place outside the calls, or the same place. -/
theorem Tracked.goto (h : Tracked quota a pc log)
    (hpc : pc' = pc ∨ pc'.isAccepting = false ∧ pc'.isSetup = false) :
    Tracked quota a pc' log := by
  rcases hpc with rfl | ⟨houtside, hrunning⟩
  · exact h
  · refine ⟨h.bounded, h.exact, ?_, ?_, h.drained, h.paused, h.counted⟩
    · intro hsetup
      rw [hrunning] at hsetup
      cases hsetup
    · rintro left progressed rfl
      cases houtside

theorem Tracked.heard (h : Tracked quota a pc log) (houtside : pc'.isAccepting = false)
    (hrunning : pc'.isSetup = false) :
    Tracked quota { a with listenerReady := true } pc' (log ++ [.listener]) where
  bounded := by
    refine each_snoc.mpr ⟨h.bounded, ?_⟩
    unfold Bounded
    rw [lastCall_snoc]
    exact length_lastCall h.bounded
  exact := each_snoc.mpr ⟨h.exact, nofun⟩
  setup hsetup := by
    rw [hrunning] at hsetup
    cases hsetup
  inside left progressed hpc := by
    rw [hpc] at houtside
    cases houtside
  drained := nofun
  paused now hnow := by
    rw [List.filter_append]
    exact (List.append_nil _).symm ▸ h.paused now hnow
  counted hfatal := by
    have hcounted := h.counted (each_snoc.mp hfatal).1
    refine hcounted.other nofun rfl rfl rfl ?_
    rw [spentQuotas_open rfl]
    exact hcounted.backoffs

theorem Tracked.opened {now : Instant} (h : Tracked quota a pc log)
    (hready : a.listenerReady = true) :
    Tracked quota { a with acceptPausedAt := none } (.accepting quota false)
      (log ++ [.opened now]) where
  bounded := by
    refine each_snoc.mpr ⟨h.bounded, ?_⟩
    unfold Bounded
    rw [lastCall_snoc]
    exact Nat.zero_le quota
  exact := each_snoc.mpr ⟨h.exact, nofun⟩
  setup := nofun
  inside left progressed hpc := by
    cases hpc
    rw [lastCall_snoc]
    exact ⟨hready, rfl, Nat.zero_add quota, by simp [AcceptEvent.record],
      by simp [AcceptEvent.record]⟩
  drained hnot := by
    rw [hready] at hnot
    cases hnot
  paused _ := nofun
  counted hfatal := by
    have hcounted := h.counted (each_snoc.mp hfatal).1
    refine hcounted.other nofun rfl rfl rfl ?_
    rw [spentQuotas_open rfl]
    exact hcounted.backoffs

theorem Tracked.attempt {a' : Accepting} {now : Instant} {left : ℕ} {progressed : Bool}
    {events : List AcceptEvent} (h : Tracked quota a (.accepting left progressed) log)
    (hattempt : Attempt a now left progressed events a' pc') :
    Tracked quota a' pc' (log ++ events) := by
  have hinside := h.inside left progressed rfl
  exact {
    bounded := hattempt.bounded hinside h.bounded
    exact := hattempt.exact hinside h.exact
    setup := fun hsetup ↦ by
      rw [hattempt.running] at hsetup
      cases hsetup
    inside := hattempt.inside hinside
    drained := hattempt.drains hinside.ready
    paused := hattempt.pauses hinside.unpaused
    counted := fun hfatal ↦ by
      exact hattempt.counted hinside (h.counted hfatal.append_left) hfatal }

theorem Tracked.step {s : World.Step} (h : Tracked quota w.accepting w.pc log)
    (hquota : w.quota = quota) (hstep : w.AcceptStep s w') :
    Tracked quota w'.accepting w'.pc (log ++ w.accepts s) := by
  cases hstep with
  | elsewhere hlog helsewhere =>
      rw [hlog, List.append_nil, helsewhere.accepting]
      exact h.goto (Or.inr ⟨helsewhere.outside, helsewhere.running⟩)
  | apart hlog haccepting hpc =>
      rw [hlog, List.append_nil, haccepting]
      exact h.goto (Or.inl hpc)
  | started hpc hlog haccepting houtside hrunning =>
      rw [hlog, List.append_nil, haccepting]
      have hnil := h.setup (by rw [hpc]; rfl)
      subst hnil
      have htracked : Tracked quota ⟨w.listenerReady, w.acceptPausedAt, 0, 0, 0, 0, 0⟩ w.pc [] := by
        refine ⟨h.bounded, h.exact, h.setup, ?_, h.drained, h.paused, fun _ ↦ ⟨rfl, rfl, rfl, rfl⟩⟩
        rw [hpc]
        nofun
      exact htracked.goto (Or.inr ⟨houtside, hrunning⟩)
  | heard hlog haccepting houtside hrunning =>
      rw [hlog, haccepting]
      exact h.heard houtside hrunning
  | opened ha hready hdelay hlog haccepting hpc =>
      rw [hlog, haccepting, hpc, hquota]
      exact h.opened hready
  | inside ha hpc hattempt =>
      rw [hpc] at h
      exact h.attempt hattempt

end Runs

end Phonowire.Receiver
