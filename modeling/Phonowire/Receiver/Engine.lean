import Phonowire.Receiver.Handoff

/-!
# The worker's tasks, resources and environment

`Board` is what the worker's thread owns: the scheduler, the live connections
with the turns of their tasks, and where the thread is inside a task's poll.
`Engine` adds what it shares with other threads: the byte budget, the handoff
channel and the signals. An action is one critical section of the worker or one
step of another thread; `none` stands for a failed assertion or an action that
is not enabled.

Ghost data stays beside the state: the records that the channel accepted and
that the consumer took, the connections that have been retired, and the requests
in the order in which they registered, were attempted and were dropped.
-/

namespace Phonowire.Receiver

open AudioSocket

/-- What `bind` accepted. -/
structure Settings where
  instanceId : ℕ
  limits : Limits
  profile : IncomingProfile
  capacity : NonZeroUsize
  fits : max readBytes limits.payload ≤ capacity.val

/-! ## Tasks and their turns -/

/-- The resource that a suspended operation requests. -/
def Await.wants : Await → Option Resource
  | .send _ _ => some .queue
  | .copy _ _ => some .bytes
  | _ => none

def Await.isReturned : Await → Bool
  | .returned _ => true
  | _ => false

/-- Charged bytes that a suspended task owns: those of the record it sends. -/
def Await.charge : Await → ℕ
  | .send record _ => record.kind.charged
  | _ => 0

/-- A live connection: its task, the steps left in its turn, and whether the
request of its current operation is registered. -/
structure Entry where
  connection : Connection
  remaining : ℕ
  registered : Bool

namespace Entry

def await (e : Entry) : Await := e.connection.task.await

/-- The registered request of the current operation. -/
def request (e : Entry) : Option Resource := if e.registered then e.await.wants else none

end Entry

/-- Where the worker's thread is: outside a poll, at the current suspension point
of a task, in front of the attempt for which a request has its turn, behind an
attempt that found the resource full, or behind the return of a task. -/
inductive Phase where
  | idle
  | polling (token : Token)
  | attempting (token : Token) (k : Resource)
  | full (token : Token) (k : Resource)
  | ended (token : Token)
  deriving DecidableEq, Repr

def Phase.token : Phase → Option Token
  | .idle => none
  | .polling token => some token
  | .attempting token _ => some token
  | .full token _ => some token
  | .ended token => some token

/-- The worker polls no task. -/
def Phase.betweenPolls : Phase → Bool
  | .idle => true
  | .ended _ => true
  | _ => false

/-- The phase behind an operation that answered. -/
def Phase.behind (token : Token) : Await → Phase
  | .returned _ => .ended token
  | _ => .polling token

inductive RequestEvent where
  | registered (token : Token) (k : Resource)
  | attempted (token : Token) (k : Resource)
  | dropped (token : Token) (k : Resource)
  deriving DecidableEq, Repr

structure Board where
  settings : Settings
  ready : Ready
  live : Std.TreeMap Token Entry
  phase : Phase
  departed : Std.TreeMap Token Connection
  log : List RequestEvent

namespace Board

def new (settings : Settings) : Board :=
  ⟨settings, .new settings.limits.maxConnections.val, ∅, .idle, ∅, []⟩

def id (b : Board) (token : Token) : ConnectionId := ⟨b.settings.instanceId, token⟩

/-- A connection just admitted under `token`. -/
def admitted (b : Board) (token : Token) (peer : SocketAddr) : Connection :=
  .new (b.id token) peer b.settings.limits.payload b.settings.profile

/-- The scheduler side of `admit`. -/
def insert (b : Board) (token : Token) (peer : SocketAddr) : Option Board := do
  let ready ← b.ready.insert token
  if b.live[token]?.isSome then none
  else some { b with ready, live := b.live.insert token ⟨b.admitted token peer, 0, false⟩ }

/-- The next runnable token starts its turn with all its steps. -/
def take (b : Board) : Option Board := do
  let (ready, token) ← b.ready.take
  match token with
  | none => some b
  | some token => do
      let entry ← b.live[token]?
      some { b with
        ready
        live := b.live.insert token { entry with remaining := b.settings.limits.turnSteps.val }
        phase := .polling token }

def resumeCredit (b : Board) (k : Resource) : Option Board := do
  let (ready, _) ← b.ready.resumeHead k.reason
  some { b with ready }

def wake (b : Board) (token : Token) : Option Board := do
  let (ready, _) ← b.ready.enqueue token
  some { b with ready }

def ioReady (b : Board) (token : Token) : Option Board := do
  let ready ← b.ready.ioReady token
  some { b with ready }

/-- The poll ends with a wait for `reason`. -/
def park (b : Board) (token : Token) (reason : WaitReason) : Option Board := do
  let ready ← b.ready.park token reason
  some { b with ready, phase := .idle }

/-- The poll ends with a later turn already queued. -/
def yield (b : Board) (token : Token) : Option Board := do
  let (ready, _) ← b.ready.enqueue token
  some { b with ready, phase := .idle }

def setEntry (b : Board) (token : Token) (entry : Entry) : Board :=
  { b with live := b.live.insert token entry }

/-- `Request::is_head`: the request registers once and then asks for its turn. -/
def request (b : Board) (token : Token) (entry : Entry) (k : Resource) : Option Board := do
  let (ready, head) ← b.ready.requestTurn token k.reason
  let b := { b with
    ready
    live := b.live.insert token { entry with registered := true }
    log := if entry.registered then b.log else b.log ++ [RequestEvent.registered token k] }
  if head then some { b with phase := .attempting token k } else b.park token k.reason

/-- A request that has its turn is tried. -/
def attempted (b : Board) (token : Token) (k : Resource) : Board :=
  { b with log := b.log ++ [.attempted token k] }

/-- `Drop for Request`. -/
def dropRequest (b : Board) (token : Token) (entry : Entry) : Option Board :=
  match entry.request with
  | some k => do
      let ready ← b.ready.finishRequest token k.reason
      some { b with ready, log := b.log ++ [.dropped token k] }
  | none => some b

/-- The operation answers: its request is dropped, and the task runs on to its
next suspension point. -/
def advance (b : Board) (token : Token) (entry : Entry) (event : Event) : Option Board := do
  let connection ← entry.connection.step b.settings.capacity.val event
  let b ← b.dropRequest token entry
  some { b with
    live := b.live.insert token { entry with connection, registered := false }
    phase := .behind token connection.task.await }

/-- `Scheduler::retire` and the drop of the entry, whose request reaches the
scheduler after its token is gone. -/
def retire (b : Board) (token : Token) (entry : Entry) : Option Board := do
  let ready ← b.ready.retire token
  let b ← { b with ready, live := b.live.erase token }.dropRequest token entry
  some { b with
    phase := if b.phase = .ended token then .idle else b.phase
    departed := b.departed.insert token entry.connection }

end Board

/-! ## Shared resources -/

structure Engine where
  board : Board
  used : ℕ
  subscribed : Bool
  outside : List ℕ
  channel : Channel
  signals : Signals
  accepted : List Record
  received : List Record

namespace Engine

/-- A bound receiver. Its budget may already be charged by other owners. -/
def new (settings : Settings) (outside : List ℕ) : Engine where
  board := .new settings
  used := outside.sum
  subscribed := false
  outside := outside
  channel := .new settings.limits.queueSlots
  signals := .new
  accepted := []
  received := []

def capacity (s : Engine) : ℕ := s.board.settings.capacity.val

/-- The shared account; its subscriber is this worker. -/
def budget (s : Engine) : ByteBudget := ⟨s.board.settings.capacity, s.used, s.subscribed⟩

/-- The worker drops charged bytes and publishes the byte credit itself. -/
def release (s : Engine) (bytes : ℕ) : Option Engine := do
  let (budget, notify) ← s.budget.release bytes
  some { s with
    used := budget.used
    signals := if notify then s.signals.set .bytes else s.signals }

/-! ### The poll of a task -/

/-- What a poll meets: the clock and one result of the socket, which fits the
buffer. -/
structure PollInput where
  now : Instant
  read : ReadResult
  fits : read.data.length ≤ readBytes

def onBoard (s : Engine) (board : Option Board) : Option Engine :=
  board.map fun board ↦ { s with board }

/-- `context.send` up to the attempt. Without a record count it refuses, and the
record is dropped. -/
def pollSend (s : Engine) (token : Token) (entry : Entry) (record : Record) : Option Engine :=
  match entry.connection.task.nextCount with
  | none => do
      let s ← s.release record.kind.charged
      s.onBoard (s.board.advance token entry (.send s.channel.connected))
  | some _ => s.onBoard (s.board.request token entry .queue)

/-- `context.copy` up to the attempt. -/
def pollCopy (s : Engine) (now : Instant) (token : Token) (entry : Entry) (bytes : List UInt8) :
    Option Engine :=
  if s.capacity < bytes.length then s.onBoard (s.board.advance token entry (.copy now))
  else s.onBoard (s.board.request token entry .bytes)

/-- `read_once` with one result of the socket. -/
def pollRead (s : Engine) (input : PollInput) (token : Token) (entry : Entry) : Option Engine :=
  match input.read with
  | .error e =>
      if e.kind = .wouldBlock then s.onBoard ((s.board.setEntry token entry).park token .kernel)
      else if e.kind = .interrupted then s.onBoard ((s.board.setEntry token entry).yield token)
      else s.onBoard (s.board.advance token entry (.read input.now (.error e)))
  | .ok bytes => s.onBoard (s.board.advance token entry (.read input.now (.ok bytes)))

/-- One operation that needs a permit. -/
def permitted (s : Engine) (input : PollInput) (token : Token) (entry : Entry) : Option Engine :=
  match entry.await with
  | .read => s.pollRead input token entry
  | .feed _ => s.onBoard (s.board.advance token entry (.step input.now))
  | .typed _ _ _ => s.onBoard (s.board.advance token entry (.step input.now))
  | .copy bytes _ => s.pollCopy input.now token entry bytes
  | .send record _ => s.pollSend token entry record
  | _ => none

/-- The task goes on from its suspension point. Its first poll runs to the first
send without a permit; without a step left the turn ends. -/
def poll (s : Engine) (input : PollInput) : Option Engine :=
  match s.board.phase with
  | .polling token => do
      let entry ← s.board.live[token]?
      if entry.await = .start then s.onBoard (s.board.advance token entry (.poll input.now))
      else if entry.remaining = 0 then s.onBoard (s.board.yield token)
      else s.permitted input token { entry with remaining := entry.remaining - 1 }
  | _ => none

def attemptCopy (s : Engine) (now : Instant) (token : Token) (entry : Entry)
    (bytes : List UInt8) : Option Engine :=
  match s.budget.tryReserve bytes.length with
  | none => none
  | some (.ok budget) =>
      { s with used := budget.used }.onBoard (s.board.advance token entry (.copy now))
  | some (.error (.full _ _)) =>
      some { s with board := { s.board with phase := .full token .bytes } }
  | some (.error (.tooLarge _ _)) => s.onBoard (s.board.advance token entry (.copy now))

def attemptSend (s : Engine) (token : Token) (entry : Entry) (record : Record) : Option Engine :=
  match s.channel.trySend record with
  | .ok channel =>
      { s with channel, accepted := s.accepted ++ [record] }.onBoard
        (s.board.advance token entry (.send true))
  | .error (.full _) => some { s with board := { s.board with phase := .full token .queue } }
  | .error (.disconnected _) => do
      let s ← s.release record.kind.charged
      s.onBoard (s.board.advance token entry (.send false))

/-- `try_copy_for` or `try_send` of the request that has its turn. -/
def attempt (s : Engine) (now : Instant) : Option Engine :=
  match s.board.phase with
  | .attempting token k => do
      let entry ← s.board.live[token]?
      let s := { s with board := s.board.attempted token k }
      match k, entry.await with
      | .bytes, .copy bytes _ => s.attemptCopy now token entry bytes
      | .queue, .send record _ => s.attemptSend token entry record
      | _, _ => none
  | _ => none

def parkFull (s : Engine) : Option Engine :=
  match s.board.phase with
  | .full token k => s.onBoard (s.board.park token k.reason)
  | _ => none

/-! ### The worker outside a poll -/

/-- A task is destroyed: its bytes are released and its request dropped. -/
def retire (s : Engine) (token : Token) : Option Engine := do
  let entry ← s.board.live[token]?
  let board ← s.board.retire token entry
  { s with board }.release entry.await.charge

def takeCredit (s : Engine) (k : Resource) : Option Engine :=
  if s.signals.raised k.signal then
    { s with signals := s.signals.clear k.signal }.onBoard (s.board.resumeCredit k)
  else some s

/-! ### Other threads -/

/-- The consumer takes a record and owes the queue credit. -/
def receive (s : Engine) : Option Engine :=
  match s.channel.tryRecv with
  | none => none
  | some (record, channel) =>
      some { s with
        channel
        received := s.received ++ [record]
        outside := record.kind.charged :: s.outside
        signals := s.signals.owe .queue }

/-- Owned bytes outside the tasks are dropped; the release that frees them owes
the byte credit to the worker if it is subscribed. -/
def discard (s : Engine) (index : ℕ) : Option Engine := do
  let bytes ← s.outside[index]?
  let (budget, notify) ← s.budget.release bytes
  some { s with
    used := budget.used
    outside := s.outside.eraseIdx index
    signals := if notify then s.signals.owe .bytes else s.signals }

/-- `ByteBudget::try_copy` by another owner. -/
def copyOutside (s : Engine) (bytes : ℕ) : Option Engine :=
  match s.budget.tryReserve bytes with
  | none => none
  | some (.error _) => some s
  | some (.ok budget) => some { s with used := budget.used, outside := bytes :: s.outside }

/-- `Drop for Records`: the consumer goes, what was buffered waits for its drop,
and the disconnection is owed. -/
def disconnect (s : Engine) : Option Engine :=
  if s.channel.connected then
    some { s with
      channel := s.channel.close
      outside := s.channel.buffer.map (·.kind.charged) ++ s.outside
      signals := s.signals.owe .disconnected }
  else none

/-! ### All actions -/

inductive Action where
  | insert (token : Token) (peer : SocketAddr)
  | take
  | poll (input : PollInput)
  | attempt (now : Instant)
  | parkFull
  | retire (token : Token)
  | takeCredit (k : Resource)
  | ioReady (token : Token)
  | subscribe (subscribed : Bool)
  | takeControl
  | takeFailure
  | wake (token : Token)
  | receive
  | discard (index : ℕ)
  | copyOutside (bytes : ℕ)
  | disconnect
  | owe
  | publish (signal : Signal)
  | stop
  | wakeFailed (error : IoError)

/-- A turn starts and a task is destroyed only outside polls. Tokens are never
reused, and connections live only while the worker is subscribed to the budget. -/
def step (s : Engine) : Action → Option Engine
  | .insert token peer =>
      if s.board.departed[token]? = none ∧ s.subscribed = true then
        s.onBoard (s.board.insert token peer)
      else none
  | .take => if s.board.phase = .idle then s.onBoard s.board.take else none
  | .poll input => s.poll input
  | .attempt now => s.attempt now
  | .parkFull => s.parkFull
  | .retire token => if s.board.phase.betweenPolls then s.retire token else none
  | .takeCredit k => s.takeCredit k
  | .ioReady token => s.onBoard (s.board.ioReady token)
  | .subscribe subscribed =>
      if subscribed = true ∨ s.board.live.size = 0 then some { s with subscribed } else none
  | .takeControl => some { s with signals := s.signals.clear .control }
  | .takeFailure => some { s with signals := { s.signals with failure := none } }
  | .wake token => s.onBoard (s.board.wake token)
  | .receive => s.receive
  | .discard index => s.discard index
  | .copyOutside bytes => s.copyOutside bytes
  | .disconnect => s.disconnect
  | .owe => some { s with signals := s.signals.owe .control }
  | .publish signal => (s.signals.publish signal).map fun signals ↦ { s with signals }
  | .stop => some { s with signals := s.signals.set .stop }
  | .wakeFailed error => some { s with signals := s.signals.remember error }

end Engine

end Phonowire.Receiver
