import Phonowire.Library.Machine
import Phonowire.Receiver.Record

/-!
# One connection's task

`receive_from` is an asynchronous function. Its compiler future is a state
machine whose states are the suspension points of the function, each with the
values that the code after it still needs. `Await` lists those points, and
`Connection.step` says what the function does from the moment an awaited
operation answers up to the next suspension point.

Waiting is absent here: a full queue, a full budget, an exhausted turn and a
read that would block leave the task at its suspension point. They belong to
the scheduler.
-/

namespace Phonowire.Receiver

open AudioSocket

def readBytes : ℕ := 4096

/-- `socket.read` into the fixed buffer; no bytes mean end of input. -/
abbrev ReadResult := Except IoError (List UInt8)

/-- The result ends `read_once`. It fits the buffer, and `WouldBlock` and
`Interrupted` are retried inside. -/
def ReadResult.Final : ReadResult → Prop
  | .ok bytes => bytes.length ≤ readBytes
  | .error e => e.kind ≠ .wouldBlock ∧ e.kind ≠ .interrupted

instance : DecidablePred ReadResult.Final
  | .ok bytes => inferInstanceAs (Decidable (bytes.length ≤ readBytes))
  | .error e => inferInstanceAs (Decidable (e.kind ≠ .wouldBlock ∧ e.kind ≠ .interrupted))

/-- Bytes that a read returned. -/
def ReadResult.data : ReadResult → List UInt8
  | .ok bytes => bytes
  | .error _ => []

inductive SendFailure where
  | disconnected
  | counterOverflow
  deriving DecidableEq, Repr

structure Progress where
  read : ℕ
  consumed : ℕ
  wireQueued : ℕ
  recordsQueued : ℕ
  pendingRecord : Bool
  terminalQueued : Bool
  counterOverflow : Bool
  deriving DecidableEq, Repr

namespace Progress

def default : Progress := ⟨0, 0, 0, 0, false, false, false⟩

/-- The start of the bytes just read, or no position when the counter
overflows. -/
def observeRead (p : Progress) (count : ℕ) : Progress × Option ℕ :=
  match checkedAdd p.read count with
  | some next => ({ p with read := next }, some p.read)
  | none => ({ p with counterOverflow := true }, none)

/-- The position after the bytes just decoded. The outer `none` is the failed
assertion that the decoder consumes only observed bytes. -/
def consume (p : Progress) (count : ℕ) : Option (Progress × Option ℕ) :=
  match checkedAdd p.consumed count with
  | some next => if next ≤ p.read then some ({ p with consumed := next }, some next) else none
  | none => some ({ p with counterOverflow := true }, none)

/-- The account of a record the channel accepted, when `next` is the record
count. A wire total beyond 64 bits panics. -/
def accept (p : Progress) (kind : RecordKind) (next : ℕ) : Option Progress := do
  let wireQueued ← checkedAdd p.wireQueued kind.wireLength
  some { p with
    pendingRecord := false
    terminalQueued := p.terminalQueued || kind.isEnded
    wireQueued
    recordsQueued := next }

end Progress

/-! ## Suspension points -/

/-- What follows an accepted record: the read loop, the decoding of the chunk
just handed off, the return of `receive_from`, or the check of the session
identity in `decode_chunk`. -/
inductive AfterSend where
  | read
  | decode (chunk : List UInt8)
  | stop
  | observed (input : List UInt8)
  deriving DecidableEq, Repr

inductive AfterCopy where
  | wire (start : ℕ) (observedAt : Instant) (chunk : List UInt8)
  | audio (offset : ℕ) (observedAt : Instant) (uuid : Uuid) (rate : SampleRate)
      (input : List UInt8)
  | peerError (offset : ℕ) (observedAt : Instant) (uuid : Option Uuid) (input : List UInt8)
  deriving DecidableEq, Repr

inductive Await where
  | start
  | send (record : Record) (after : AfterSend)
  | read
  | copy (bytes : List UInt8) (after : AfterCopy)
  | feed (input : List UInt8)
  | typed (raw : RawEnvelope) (offset : ℕ) (input : List UInt8)
  | returned (failure : Option (Record × SendFailure))
  | panicked
  deriving DecidableEq, Repr

structure Task where
  id : ConnectionId
  peer : SocketAddr
  await : Await
  decoder : RawDecoder
  session : IncomingSession
  progress : Progress
  deriving DecidableEq, Repr

namespace Task

def new (id : ConnectionId) (peer : SocketAddr) (payloadCapacity : ℕ)
    (profile : IncomingProfile) : Task where
  id := id
  peer := peer
  await := .start
  decoder := .new (List.replicate payloadCapacity 0)
  session := .withProfile profile
  progress := .default

def offset (t : Task) : ℕ := t.progress.consumed

def sendAt (t : Task) (offset : ℕ) (observedAt : Instant) (kind : RecordKind)
    (after : AfterSend) : Task :=
  { t with
    await := .send ⟨t.id, offset, observedAt, kind⟩ after
    progress := { t.progress with pendingRecord := true } }

def endAt (t : Task) (offset : ℕ) (observedAt : Instant) (uuid : Option Uuid)
    (reason : EndReason) (after : AfterSend) : Task :=
  t.sendAt offset observedAt (.ended uuid reason) after

def panic (t : Task) : Task := { t with await := .panicked }

/-- The loop head of `decode_chunk`; its normal end returns to the read loop. -/
def decodeRest (t : Task) (input : List UInt8) : Task :=
  { t with await := if input = [] then .read else .feed input }

/-- The first poll, up to the send of the peer address. -/
def begin (t : Task) (now : Instant) : Task :=
  t.sendAt 0 now (.connected t.peer) .read

def endOfInput (t : Task) (now : Instant) : Task :=
  let uuid := t.session.identity
  match t.decoder.finish with
  | .error e => t.endAt t.offset now uuid (.truncated e) .stop
  | .ok () =>
      let (session, reply) := t.session.endOfInput
      let t := { t with session }
      match reply with
      | .ok (.ended _ _) => t.endAt t.offset now uuid .cleanEof .stop
      | .ok _ => t.panic
      | .error e => t.endAt t.offset now uuid (.policy e) .stop

def onRead (t : Task) (now : Instant) : ReadResult → Task
  | .error e => t.endAt t.offset now t.session.identity (.transport e) .stop
  | .ok [] => t.endOfInput now
  | .ok bytes =>
      let (progress, start) := t.progress.observeRead bytes.length
      let t := { t with progress }
      match start with
      | some start => { t with await := .copy bytes (.wire start now bytes) }
      | none => t.endAt t.offset now t.session.identity .offsetExhausted .stop

def onFeed (t : Task) (now : Instant) (input : List UInt8) : Task :=
  match t.decoder.feed input with
  | none => t.panic
  | some fed =>
      let t := { t with decoder := fed.next }
      match t.progress.consume (input.length - fed.rest.length) with
      | none => t.panic
      | some (progress, position) =>
          let t := { t with progress }
          match position with
          | none => t.endAt t.offset now t.session.identity .offsetExhausted .stop
          | some offset =>
              match fed.result with
              | .ok .needInput => { t with await := .read }
              | .error e => t.endAt offset now t.session.identity (.decode e) .stop
              | .ok (.frame raw) => { t with await := .typed raw offset fed.rest }

def observe (t : Task) (offset : ℕ) (now : Instant) (input : List UInt8) : IncomingEvent → Task
  | .started uuid => t.sendAt offset now (.started uuid) (.observed input)
  | .dtmf uuid digit => t.sendAt offset now (.dtmf uuid digit) (.observed input)
  | .audio uuid rate payload =>
      { t with await := .copy payload.bytes (.audio offset now uuid rate input) }
  | .ended uuid .terminate => t.endAt offset now uuid .terminate (.observed input)
  | .ended uuid (.peerError payload) =>
      { t with await := .copy payload.bytes (.peerError offset now uuid input) }
  | .ended uuid .endOfInput => t.endAt offset now uuid .cleanEof (.observed input)

def onTyped (t : Task) (now : Instant) (raw : RawEnvelope) (offset : ℕ)
    (input : List UInt8) : Task :=
  match raw.typed with
  | none => t.panic
  | some (.error e) => t.endAt offset now t.session.identity (.invalidMessage e) .stop
  | some (.ok message) =>
      let uuid := t.session.identity
      let (session, reply) := t.session.receive message
      let t := { t with session }
      match reply with
      | .error e => t.endAt offset now uuid (.policy e) .stop
      | .ok event => t.observe offset now input event

/-- The answer of `context.copy`. Every caller emits a terminal record on a
refusal; the audio caller then goes on as after an accepted frame. -/
def onCopy (t : Task) (now : Instant) (result : Except BudgetError OwnedBytes) :
    AfterCopy → Task
  | .wire start observedAt chunk =>
      match result with
      | .ok bytes => t.sendAt start observedAt (.wire bytes) (.decode chunk)
      | .error e => t.endAt start now t.session.identity (.resourceRefused e) .stop
  | .audio offset observedAt uuid rate input =>
      match result with
      | .ok bytes => t.sendAt offset observedAt (.audio uuid rate bytes) (.observed input)
      | .error e => t.endAt offset observedAt (some uuid) (.resourceRefused e) (.observed input)
  | .peerError offset observedAt uuid input =>
      match result with
      | .ok bytes => t.endAt offset observedAt uuid (.peerError bytes) (.observed input)
      | .error e => t.endAt offset observedAt uuid (.resourceRefused e) (.observed input)

def afterSent (t : Task) : AfterSend → Task
  | .read => { t with await := .read }
  | .decode chunk => t.decodeRest chunk
  | .stop => { t with await := .returned none }
  | .observed input =>
      if t.session.identity = none then { t with await := .returned none }
      else t.decodeRest input

/-- The record count after one more record; without it `context.send` refuses
before it looks at the queue. -/
def nextCount (t : Task) : Option ℕ := checkedAdd t.progress.recordsQueued 1

def sendFailed (t : Task) (record : Record) (failure : SendFailure) : Task :=
  { t with await := .returned (some (record, failure)) }

def countExhausted (t : Task) (record : Record) : Task :=
  { t with progress := { t.progress with counterOverflow := true } }.sendFailed record
    .counterOverflow

def onSent (t : Task) (record : Record) (next : ℕ) (after : AfterSend) : Task :=
  match t.progress.accept record.kind next with
  | none => t.panic
  | some progress => { t with progress }.afterSent after

end Task

/-! ## The task with its history -/

/-- A task with the final results of its socket reads and the records that the
channel accepted from it. -/
structure Connection where
  task : Task
  reads : List ReadResult
  sent : List Record
  deriving DecidableEq, Repr

/-- The answer of an awaited operation with the clock reading that follows it.
A copy ends by its size alone, and a send by the consumer's presence. -/
inductive Event where
  | poll (now : Instant)
  | read (now : Instant) (result : ReadResult)
  | step (now : Instant)
  | copy (now : Instant)
  | send (connected : Bool)
  deriving DecidableEq, Repr

def copyResult (capacity : ℕ) (bytes : List UInt8) : Except BudgetError OwnedBytes :=
  if capacity < bytes.length then .error (.tooLarge bytes.length capacity) else .ok ⟨bytes⟩

namespace Connection

def new (id : ConnectionId) (peer : SocketAddr) (payloadCapacity : ℕ)
    (profile : IncomingProfile) : Connection :=
  ⟨.new id peer payloadCapacity profile, [], []⟩

def send (c : Connection) (record : Record) (after : AfterSend) (connected : Bool) :
    Connection :=
  match c.task.nextCount with
  | none => { c with task := c.task.countExhausted record }
  | some next =>
      if connected then
        { c with task := c.task.onSent record next after, sent := c.sent ++ [record] }
      else { c with task := c.task.sendFailed record .disconnected }

/-- The step of a task whose awaited operation answers, over a budget of
`capacity` bytes. -/
def step (capacity : ℕ) (c : Connection) (e : Event) : Option Connection :=
  match c.task.await, e with
  | .start, .poll now => some { c with task := c.task.begin now }
  | .read, .read now result =>
      if result.Final then
        some { c with task := c.task.onRead now result, reads := c.reads ++ [result] }
      else none
  | .feed input, .step now => some { c with task := c.task.onFeed now input }
  | .typed raw offset input, .step now => some { c with task := c.task.onTyped now raw offset input }
  | .copy bytes after, .copy now =>
      some { c with task := c.task.onCopy now (copyResult capacity bytes) after }
  | .send record after, .send connected => some (c.send record after connected)
  | _, _ => none

section Steps

variable {capacity : ℕ} {c : Connection}

theorem step_start (now : Instant) (hat : c.task.await = .start) :
    c.step capacity (.poll now) = some { c with task := c.task.begin now } := by
  obtain ⟨⟨id, peer, await, decoder, session, progress⟩, reads, sent⟩ := c
  cases hat
  rfl

theorem step_read (now : Instant) {result : ReadResult} (hat : c.task.await = .read)
    (hfinal : result.Final) :
    c.step capacity (.read now result) =
      some { c with task := c.task.onRead now result, reads := c.reads ++ [result] } := by
  obtain ⟨⟨id, peer, await, decoder, session, progress⟩, reads, sent⟩ := c
  cases hat
  exact if_pos hfinal

theorem step_feed (now : Instant) {input : List UInt8} (hat : c.task.await = .feed input) :
    c.step capacity (.step now) = some { c with task := c.task.onFeed now input } := by
  obtain ⟨⟨id, peer, await, decoder, session, progress⟩, reads, sent⟩ := c
  cases hat
  rfl

theorem step_typed (now : Instant) {raw : RawEnvelope} {offset : ℕ} {input : List UInt8}
    (hat : c.task.await = .typed raw offset input) :
    c.step capacity (.step now) = some { c with task := c.task.onTyped now raw offset input } := by
  obtain ⟨⟨id, peer, await, decoder, session, progress⟩, reads, sent⟩ := c
  cases hat
  rfl

theorem step_copy (now : Instant) {bytes : List UInt8} {after : AfterCopy}
    (hat : c.task.await = .copy bytes after) :
    c.step capacity (.copy now) =
      some { c with task := c.task.onCopy now (copyResult capacity bytes) after } := by
  obtain ⟨⟨id, peer, await, decoder, session, progress⟩, reads, sent⟩ := c
  cases hat
  rfl

theorem step_send (connected : Bool) {record : Record} {after : AfterSend}
    (hat : c.task.await = .send record after) :
    c.step capacity (.send connected) = some (c.send record after connected) := by
  obtain ⟨⟨id, peer, await, decoder, session, progress⟩, reads, sent⟩ := c
  cases hat
  rfl

end Steps

end Connection

end Phonowire.Receiver
