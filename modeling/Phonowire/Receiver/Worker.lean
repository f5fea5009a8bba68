import Phonowire.Receiver.Engine
import Phonowire.Receiver.Summary

/-!
# The worker loop and its controls

`World` is one bound receiver with its worker. The program counter names the
place in `run_with` and in what it calls; every step of the worker is one
operation on shared state with the local work behind it, and between two steps
any other thread may act. `panicked` is where a failed assertion leads.

`cells` are the completion states that close tickets share with the registry,
one for each admission; `owners` says of which token.
-/

namespace Phonowire.Receiver

/-! ## Accepting -/

/-- `STOP_RECHECK` in nanoseconds. -/
def stopRecheck : ℕ := 100_000_000

def turnBatch : ℕ := 128

def firstConnection : ℕ := 2

def listenerToken : Token := 0

def controlToken : Token := 1

def Instant.nanos (t : Instant) : ℕ := t.seconds * 1_000_000_000 + t.nanoseconds

inductive AcceptFailure where
  | drained
  | retry
  | pause
  | fatal
  deriving DecidableEq, Repr

/-- `EAGAIN` and `EWOULDBLOCK`, which are one code on Linux. -/
def drainedCodes : List ℤ := [11]

/-- `EINTR`, `ECONNABORTED`, `ECONNRESET`, `ETIMEDOUT`, `ENETDOWN`, `EPROTO`,
`ENOPROTOOPT`, `EHOSTDOWN`, `ENONET`, `EHOSTUNREACH`, `EOPNOTSUPP`,
`ENETUNREACH`, `EPERM`, `ESOCKTNOSUPPORT` and `EPROTONOSUPPORT`. -/
def retryCodes : List ℤ := [4, 103, 104, 110, 100, 71, 92, 112, 64, 113, 95, 101, 1, 94, 93]

/-- `EMFILE`, `ENFILE`, `ENOBUFS`, `ENOMEM` and `ENOSR`. -/
def pauseCodes : List ℤ := [24, 23, 105, 12, 63]

def classifyAccept (error : IoError) : AcceptFailure :=
  match error.rawOsError with
  | some code =>
      if code ∈ drainedCodes then .drained
      else if code ∈ retryCodes then .retry
      else if code ∈ pauseCodes then .pause
      else .fatal
  | none =>
      match error.kind with
      | .wouldBlock => .drained
      | .interrupted => .retry
      | .connectionAborted => .retry
      | .connectionReset => .retry
      | .timedOut => .retry
      | .networkDown => .retry
      | .networkUnreachable => .retry
      | .hostUnreachable => .retry
      | .outOfMemory => .pause
      | .tooManyOpenFiles => .pause
      | _ => .fatal

/-! ## Program counter -/

/-- The three calls of `retire_requested` in `drive`. -/
inductive Site where
  | first
  | again
  | last
  deriving DecidableEq, Repr

abbrev DriveResult := Except ReceiverFailure StopCause

/-- Who calls `retire_with`, and what is left to do there. -/
inductive Caller where
  | turn (left : ℕ)
  | requested (site : Site) (tokens : List Token)
  | cleanup (result : DriveResult) (failure : Option ReceiverFailure)
  deriving DecidableEq

def Caller.closeResult : Caller → ConnectionCloseResult
  | .turn _ => .connectionEnded
  | .requested _ _ => .retiredByRequest
  | .cleanup _ _ => .receiverStopped

inductive Pc where
  | setup
  | failure
  | cause
  | scan (site : Site) (rest found : List Token)
  | retiring (site : Site) (tokens : List Token)
  | control
  | credit (k : Resource)
  | turn (left : ℕ)
  | polling (left : ℕ) (token : Token)
  | causeAgain
  | accept
  | accepting (left : ℕ) (progressed : Bool)
  | block
  | events (tokens : List Token)
  | retire (caller : Caller) (token : Token)
  | finish (caller : Caller) (token : Token) (progress : Progress)
  | publish (caller : Caller) (cell : Option ℕ) (progress : Progress)
  | driven (result : DriveResult)
  | cleanup (result : DriveResult) (failure : Option ReceiverFailure)
  | stopAll (result : DriveResult) (failure : Option ReceiverFailure)
  | publishAll (result : DriveResult) (failure : Option ReceiverFailure) (cells : List ℕ)
  | outcome (result : DriveResult) (failure : Option ReceiverFailure)
  | returned (result : DriveResult)
  | panicked
  deriving DecidableEq

/-! ## The receiver with its worker -/

structure ControlEntry where
  requested : Bool
  cell : ℕ
  deriving DecidableEq, Repr

structure CloseTicket where
  id : ConnectionId
  cell : ℕ
  deriving DecidableEq, Repr

/-- `tickets` are all tickets issued so far, and `asked` the tokens for which a
close was accepted while their task was unfinished. -/
structure World where
  engine : Engine
  stopping : Bool
  entries : Std.TreeMap Token ControlEntry
  cells : List (Option ConnectionCloseResult)
  owners : List Token
  tickets : List CloseTicket
  asked : List Token
  next : ℕ
  listenerReady : Bool
  acceptPausedAt : Option Instant
  summary : RunSummary
  pc : Pc

/-- Why `run_with` returns before its worker exists. -/
inductive SetupFailure where
  | io (error : IoError)
  | budgetInUse
  deriving DecidableEq, Repr

def SetupFailure.failure : SetupFailure → ReceiverFailure
  | .io error => .io error
  | .budgetInUse => .budgetAlreadySubscribed

/-- What the worker meets at a step. `raced` says that the disconnection was
published between the two loads of `stop_cause`. -/
structure Input where
  poll : Engine.PollInput
  raced : Bool
  accepted : Except IoError SocketAddr
  registered : Except IoError Unit
  polled : Except IoError (List Token)
  setup : Option SetupFailure

def Input.now (input : Input) : Instant := input.poll.now

namespace World

/-- A receiver as `bind` returns it. -/
def new (settings : Settings) (outside : List ℕ) : World where
  engine := .new settings outside
  stopping := false
  entries := ∅
  cells := []
  owners := []
  tickets := []
  asked := []
  next := firstConnection
  listenerReady := true
  acceptPausedAt := none
  summary := {}
  pc := .setup

def limits (w : World) : Limits := w.engine.board.settings.limits

def goto (w : World) (pc : Pc) : World := { w with pc }

/-- One action on the shared state and what follows it; a failed assertion
panics. -/
def act (w : World) (a : Engine.Action) (next : World → World) : World :=
  match w.engine.step a with
  | some engine => next { w with engine }
  | none => w.goto .panicked

def stopCause (w : World) (raced : Bool) : Option StopCause :=
  if w.engine.signals.raised .disconnected && !raced then some .consumerDisconnected
  else if w.engine.signals.raised .stop then some .requested
  else none

/-- The start of `retire_requested`: its iterator over the live tokens. -/
def scan (w : World) (site : Site) : World :=
  w.goto (.scan site w.engine.board.live.keys [])

def requested (w : World) (token : Token) : Bool :=
  w.entries[token]?.any (·.requested)

def afterRequested : Site → Pc
  | .first => .control
  | .again => .credit .queue
  | .last => .causeAgain

def fail (w : World) (failure : ReceiverFailure) : World := w.goto (.driven (.error failure))

/-! ### Turns -/

def stepTurn (w : World) (left : ℕ) : World :=
  w.act .take fun w ↦
    match w.engine.board.phase with
    | .polling token => w.goto (.polling left token)
    | _ => w.scan .last

/-- The end of a poll: the overflow check comes before the outcome. -/
def afterPoll (w : World) (left : ℕ) (token : Token) (ended : Bool) : World :=
  match w.engine.board.live[token]? with
  | none => w.goto .panicked
  | some entry =>
      if entry.connection.task.progress.counterOverflow then w.fail .counterExhausted
      else if ended then w.goto (.retire (.turn left) token)
      else
        match w.engine.board.ready.verifyPending token with
        | none => w.goto .panicked
        | some () => w.goto (.turn left)

def stepPolling (w : World) (input : Input) (left : ℕ) (token : Token) : World :=
  match w.engine.board.phase with
  | .polling _ => w.act (.poll input.poll) id
  | .attempting _ _ => w.act (.attempt input.now) id
  | .full _ _ => w.act .parkFull id
  | .ended _ => w.afterPoll left token true
  | .idle => w.afterPoll left token false

/-! ### Accepting connections -/

def acceptDelay (w : World) (now : Instant) : ℕ :=
  match w.acceptPausedAt with
  | none => 0
  | some pausedAt => stopRecheck - (now.nanos - pausedAt.nanos)

def startAccept (w : World) (now : Instant) : World :=
  if !w.listenerReady || w.acceptDelay now ≠ 0 then w.goto .block
  else
    { w with acceptPausedAt := none }.goto
      (.accepting (min w.limits.turnSteps.val eventBatch) false)

/-- A pressure counter grows by one, or the run ends. -/
def count (w : World) (value : ℕ) (update : RunSummary → ℕ → RunSummary)
    (next : World → World) : World :=
  match checkedAdd value 1 with
  | none => w.fail .counterExhausted
  | some value => next { w with summary := update w.summary value }

/-- `controls.register`. -/
def register (w : World) (token : Token) : World :=
  { w with
    entries := w.entries.insert token ⟨false, w.cells.length⟩
    cells := w.cells ++ [none]
    owners := w.owners ++ [token] }

/-- The rest of `admit` behind the registration of the socket. -/
def admitTask (w : World) (token : Token) (peer : SocketAddr) (pc : Pc) : World :=
  w.act (.insert token peer) fun w ↦
    if w.entries[token]?.isSome then w.goto .panicked
    else
      (w.register token).count w.summary.accepted ({ · with accepted := · }) (·.goto pc)

def admitPeer (w : World) (input : Input) (peer : SocketAddr) (pc : Pc) : World :=
  let token := w.next
  match checkedAdd w.next 1 with
  | none => w.fail .tokenExhausted
  | some next =>
      let w := { w with next }
      match input.registered with
      | .error error => w.fail (.io error)
      | .ok () => w.admitTask token peer pc

def onAccepted (w : World) (input : Input) (left : ℕ) (peer : SocketAddr) : World :=
  if w.engine.board.live.size = w.limits.maxConnections.val then
    w.count w.summary.refused ({ · with refused := · }) (·.goto (.accepting left true))
  else w.admitPeer input peer (.accepting left true)

def onAcceptError (w : World) (input : Input) (left : ℕ) (progressed : Bool) (error : IoError) :
    World :=
  match classifyAccept error with
  | .drained => { w with listenerReady := false }.goto .block
  | .retry =>
      w.count w.summary.transientAcceptErrors ({ · with transientAcceptErrors := · })
        (·.goto (.accepting left progressed))
  | .pause =>
      w.count w.summary.resourcePauseEntries ({ · with resourcePauseEntries := · })
        fun w ↦ { w with acceptPausedAt := some input.now }.goto .block
  | .fatal => w.fail (.io error)

def stepAccepting (w : World) (input : Input) (left : ℕ) (progressed : Bool) : World :=
  match left with
  | 0 =>
      if progressed then w.goto .block
      else
        w.count w.summary.retryQuotaBackoffs ({ · with retryQuotaBackoffs := · })
          fun w ↦ { w with acceptPausedAt := some input.now }.goto .block
  | left + 1 =>
      if (w.stopCause input.raced).isSome then w.goto .block
      else
        match input.accepted with
        | .ok peer => w.onAccepted input left peer
        | .error error => w.onAcceptError input left progressed error

/-! ### Retirement -/

/-- The registry side of `controls.finish`. -/
def stepFinish (w : World) (caller : Caller) (token : Token) (progress : Progress) : World :=
  { w with entries := w.entries.erase token }.goto
    (.publish caller (w.entries[token]?.map ControlEntry.cell) progress)

def setCell (w : World) (cell : Option ℕ) (result : ConnectionCloseResult) : World :=
  match cell with
  | none => w
  | some cell => { w with cells := w.cells.set cell (some result) }

/-- The return of `retire_with` to its caller. -/
def resume (w : World) (caller : Caller) (result : Except ReceiverFailure Unit) : World :=
  match caller, result with
  | .cleanup drive failure, .ok () => w.goto (.cleanup drive failure)
  | .cleanup drive _, .error error => w.goto (.cleanup drive (some error))
  | _, .error error => w.fail error
  | .turn left, .ok () => w.goto (.turn left)
  | .requested site tokens, .ok () => w.goto (.retiring site tokens)

def absorb (w : World) (caller : Caller) (progress : Progress) : World :=
  match w.summary.absorb progress with
  | none => w.goto .panicked
  | some (summary, result) => { w with summary }.resume caller result

/-- The result is published, then the counters are folded in. -/
def stepPublish (w : World) (caller : Caller) (cell : Option ℕ) (progress : Progress) : World :=
  let w := w.setCell cell caller.closeResult
  if caller.closeResult = .retiredByRequest then
    match checkedAdd w.summary.closedByRequest 1 with
    | none => w.resume caller (.error .counterExhausted)
    | some closedByRequest =>
        { w with summary := { w.summary with closedByRequest } }.absorb caller progress
  else w.absorb caller progress

def stepRetire (w : World) (caller : Caller) (token : Token) : World :=
  match w.engine.board.live[token]? with
  | none => w.goto .panicked
  | some entry =>
      w.act (.retire token) (·.goto (.finish caller token entry.connection.task.progress))

/-! ### Shutdown -/

def exhausted : DriveResult → Bool
  | .error .counterExhausted => true
  | _ => false

def stepDriven (w : World) (result : DriveResult) : World :=
  { w with summary := { w.summary with
      countersComplete := w.summary.countersComplete && !exhausted result
      live := w.engine.board.live.size } }.goto (.cleanup result none)

def stepCleanup (w : World) (result : DriveResult) (failure : Option ReceiverFailure) : World :=
  match w.engine.board.live.keys.head? with
  | some token => w.goto (.retire (.cleanup result failure) token)
  | none => w.goto (.stopAll result failure)

/-- The first half of `stop_all`. -/
def stepStopAll (w : World) (result : DriveResult) (failure : Option ReceiverFailure) : World :=
  { w with stopping := true, entries := ∅ }.goto
    (.publishAll result failure (w.entries.toList.map (ControlEntry.cell ∘ Prod.snd)))

def stepPublishAll (w : World) (result : DriveResult) (failure : Option ReceiverFailure) :
    List ℕ → World
  | [] => w.goto (.outcome result failure)
  | cell :: cells =>
      (w.setCell (some cell) .receiverStopped).goto (.publishAll result failure cells)

def finalResult (result : DriveResult) (failure : Option ReceiverFailure) : DriveResult :=
  match result, failure with
  | .ok _, some failure => .error failure
  | result, _ => result

def stepOutcome (w : World) (result : DriveResult) (failure : Option ReceiverFailure) : World :=
  let final := finalResult result failure
  { w with summary := { w.summary with
      retainedOutputBytes := w.engine.used
      stoppedBy := final.toOption } }.act (.subscribe false) (·.goto (.returned final))

/-! ### The whole loop -/

def stepSetup (w : World) (input : Input) : World :=
  match input.setup with
  | some failure => w.goto (.returned (.error failure.failure))
  | none =>
      { w with summary := { fixedBufferCapacity := w.limits.fixedBufferCapacity } }.act
        (.subscribe true) (·.goto .failure)

def stepFailure (w : World) : World :=
  match w.engine.signals.failure with
  | some error => w.act .takeFailure (·.fail (.io error))
  | none => w.goto .cause

def stepEvent (w : World) (token : Token) (rest : List Token) : World :=
  if token = listenerToken then { w with listenerReady := true }.goto (.events rest)
  else if token = controlToken then w.goto (.events rest)
  else w.act (.ioReady token) (·.goto (.events rest))

def stepBlock (w : World) (input : Input) : World :=
  match input.polled with
  | .ok tokens => w.goto (.events tokens)
  | .error error =>
      if error.kind = .interrupted then w.goto .failure else w.fail (.io error)

/-- One step of the worker's thread. -/
def work (w : World) (input : Input) : Option World :=
  match w.pc with
  | .setup => some (w.stepSetup input)
  | .failure => some w.stepFailure
  | .cause =>
      match w.stopCause input.raced with
      | some cause => some (w.goto (.driven (.ok cause)))
      | none => some (w.scan .first)
  | .scan site [] found => some (w.goto (.retiring site found))
  | .scan site (token :: rest) found =>
      some (w.goto (.scan site rest (if w.requested token then found ++ [token] else found)))
  | .retiring site [] => some (w.goto (afterRequested site))
  | .retiring site (token :: rest) => some (w.goto (.retire (.requested site rest) token))
  | .control =>
      if w.engine.signals.raised .control then
        some (w.act .takeControl (·.scan .again))
      else some (w.goto (.credit .queue))
  | .credit .queue => some (w.act (.takeCredit .queue) (·.goto (.credit .bytes)))
  | .credit .bytes => some (w.act (.takeCredit .bytes) (·.goto (.turn turnBatch)))
  | .turn 0 => some (w.scan .last)
  | .turn (left + 1) =>
      if (w.stopCause input.raced).isSome then some (w.scan .last) else some (w.stepTurn left)
  | .polling left token => some (w.stepPolling input left token)
  | .causeAgain =>
      match w.stopCause input.raced with
      | some cause => some (w.goto (.driven (.ok cause)))
      | none => some (w.goto .accept)
  | .accept => some (w.startAccept input.now)
  | .accepting left progressed => some (w.stepAccepting input left progressed)
  | .block => some (w.stepBlock input)
  | .events [] => some (w.goto .failure)
  | .events (token :: rest) => some (w.stepEvent token rest)
  | .retire caller token => some (w.stepRetire caller token)
  | .finish caller token progress => some (w.stepFinish caller token progress)
  | .publish caller cell progress => some (w.stepPublish caller cell progress)
  | .driven result => some (w.stepDriven result)
  | .cleanup result failure => some (w.stepCleanup result failure)
  | .stopAll result failure => some (w.stepStopAll result failure)
  | .publishAll result failure cells => some (w.stepPublishAll result failure cells)
  | .outcome result failure => some (w.stepOutcome result failure)
  | .returned _ => none
  | .panicked => none

/-! ## Other threads -/

/-- `ConnectionControlHandle::close`, before it publishes the control signal. -/
def close (w : World) (id : ConnectionId) : World × Except ConnectionCloseError CloseTicket :=
  if id.instanceId ≠ w.engine.board.settings.instanceId then (w, .error .unknownOrStale)
  else if w.stopping then (w, .error .receiverStopping)
  else
    match w.entries[id.sequence]? with
    | none => (w, .error .unknownOrStale)
    | some entry =>
        let unfinished := w.engine.board.live[id.sequence]?.any (!·.await.isReturned)
        ({ w with
          entries := w.entries.insert id.sequence { entry with requested := true }
          tickets := ⟨id, entry.cell⟩ :: w.tickets
          asked := if unfinished then id.sequence :: w.asked else w.asked
          engine := { w.engine with signals := w.engine.signals.owe .control } },
          .ok ⟨id, entry.cell⟩)

/-- What other threads do to the shared state without the registry. -/
inductive Outside where
  | wake (token : Token)
  | receive
  | discard (index : ℕ)
  | copyOutside (bytes : ℕ)
  | disconnect
  | publish (signal : Signal)
  | stop
  | wakeFailed (error : IoError)

def Outside.action : Outside → Engine.Action
  | .wake token => .wake token
  | .receive => .receive
  | .discard index => .discard index
  | .copyOutside bytes => .copyOutside bytes
  | .disconnect => .disconnect
  | .publish signal => .publish signal
  | .stop => .stop
  | .wakeFailed error => .wakeFailed error

inductive Step where
  | work (input : Input)
  | close (id : ConnectionId)
  | outside (o : Outside)

def Step.isWork : Step → Bool
  | .work _ => true
  | _ => false

def step (w : World) : Step → Option World
  | .work input => w.work input
  | .close id => some (w.close id).1
  | .outside o => (w.engine.step o.action).map fun engine ↦ { w with engine }

end World

end Phonowire.Receiver
