import Phonowire.Receiver.Connection
import Phonowire.Receiver.Scheduler

/-!
# Bounds, handoff channel and signals of one worker

The channel is the bounded one of the standard library: a full buffer returns
the record, and a dropped consumer discards what is buffered. Another thread
first frees capacity and then publishes the signal for it; `pending` counts the
threads between the two.
-/

namespace Phonowire.Receiver

/-! ## Validated bounds -/

def uuidBytes : ℕ := 16

/-- `EVENT_BATCH`. -/
def eventBatch : ℕ := 128

inductive LimitsError where
  | payloadBelowUuid
  | fixedStorageOverflow
  deriving DecidableEq, Repr

/-- The bounds that `Limits::new` accepts. -/
structure Limits where
  maxConnections : NonZeroUsize
  queueSlots : NonZeroUsize
  payloadCapacity : UInt16
  turnSteps : NonZeroUsize
  uuidFits : uuidBytes ≤ payloadCapacity.toNat
  storageFits : maxConnections.val * (readBytes + payloadCapacity.toNat) ≤ usizeMax

namespace Limits

def new (maxConnections queueSlots : NonZeroUsize) (payloadCapacity : UInt16)
    (turnSteps : NonZeroUsize) : Except LimitsError Limits :=
  if huuid : payloadCapacity.toNat < uuidBytes then .error .payloadBelowUuid
  else if hstorage : usizeMax < maxConnections.val * (readBytes + payloadCapacity.toNat) then
    .error .fixedStorageOverflow
  else
    .ok ⟨maxConnections, queueSlots, payloadCapacity, turnSteps, Nat.le_of_not_lt huuid,
      Nat.le_of_not_lt hstorage⟩

def payload (l : Limits) : ℕ := l.payloadCapacity.toNat

def fixedBufferCapacity (l : Limits) : ℕ := l.maxConnections.val * (readBytes + l.payload)

end Limits

/-! ## The handoff channel -/

/-- `mpsc::sync_channel` of positive capacity. -/
structure Channel where
  slots : NonZeroUsize
  buffer : List Record
  connected : Bool
  bounded : buffer.length ≤ slots.val

inductive HandoffFailure where
  | full (record : Record)
  | disconnected (record : Record)
  deriving DecidableEq, Repr

namespace Channel

def new (slots : NonZeroUsize) : Channel := ⟨slots, [], true, Nat.zero_le _⟩

/-- A missing consumer is reported before a full buffer. -/
def trySend (c : Channel) (record : Record) : Except HandoffFailure Channel :=
  if c.connected then
    if hroom : c.buffer.length < c.slots.val then
      .ok { c with
        buffer := c.buffer ++ [record]
        bounded := by simpa using hroom }
    else .error (.full record)
  else .error (.disconnected record)

def tryRecv (c : Channel) : Option (Record × Channel) :=
  match hbuffer : c.buffer with
  | [] => none
  | record :: buffer =>
      some (record, { c with
        buffer
        bounded := by
          have hbounded := c.bounded
          rw [hbuffer, List.length_cons] at hbounded
          omega })

/-- The consumer is dropped together with the records it has not taken. -/
def close (c : Channel) : Channel :=
  { c with buffer := [], connected := false, bounded := Nat.zero_le _ }

/-- Bytes charged for the buffered records. -/
def charged (c : Channel) : ℕ := (c.buffer.map (·.kind.charged)).sum

def Full (c : Channel) : Prop := c.buffer.length = c.slots.val

/-- What a send does. -/
inductive Sent (c : Channel) (record : Record) : Except HandoffFailure Channel → Prop
  | accepted (next : Channel) (hconnected : c.connected = true)
      (hslots : next.slots = c.slots) (hbuffer : next.buffer = c.buffer ++ [record])
      (hnext : next.connected = true) : Sent c record (.ok next)
  | full (hconnected : c.connected = true) (hfull : c.Full) : Sent c record (.error (.full record))
  | disconnected (hconnected : c.connected = false) :
      Sent c record (.error (.disconnected record))

theorem trySend_sent (c : Channel) (record : Record) : c.Sent record (c.trySend record) := by
  unfold trySend
  split_ifs with hconnected hroom
  · exact .accepted _ hconnected rfl rfl hconnected
  · exact .full hconnected (Nat.le_antisymm c.bounded (Nat.le_of_not_lt hroom))
  · exact .disconnected (by simpa using hconnected)

theorem tryRecv_eq_some {c next : Channel} {record : Record}
    (h : c.tryRecv = some (record, next)) :
    c.buffer = record :: next.buffer ∧ next.slots = c.slots ∧ next.connected = c.connected := by
  unfold tryRecv at h
  split at h
  · cases h
  · next record' buffer hbuffer =>
      cases h
      exact ⟨hbuffer, rfl, rfl⟩

end Channel

/-! ## Signals -/

inductive Signal where
  | queue
  | bytes
  | stop
  | disconnected
  | control
  deriving DecidableEq, Repr

def Resource.signal : Resource → Signal
  | .queue => .queue
  | .bytes => .bytes

/-- The flags a worker polls. `failure` is the error that `take_failure`
rebuilds from the kind and the code of the first failed wake. -/
structure Signals where
  raised : Signal → Bool
  pending : Signal → ℕ
  failure : Option IoError

namespace Signals

def new : Signals := ⟨fun _ ↦ false, fun _ ↦ 0, none⟩

def set (s : Signals) (signal : Signal) : Signals :=
  { s with raised := Function.update s.raised signal true }

/-- The `swap` that takes a flag. -/
def clear (s : Signals) (signal : Signal) : Signals :=
  { s with raised := Function.update s.raised signal false }

/-- A thread has freed what it will publish. -/
def owe (s : Signals) (signal : Signal) : Signals :=
  { s with pending := Function.update s.pending signal (s.pending signal + 1) }

def publish (s : Signals) (signal : Signal) : Option Signals :=
  if s.pending signal = 0 then none
  else
    some ({ s with
      pending := Function.update s.pending signal (s.pending signal - 1) }.set signal)

/-- Only the first failed wake is kept. -/
def remember (s : Signals) (error : IoError) : Signals :=
  { s with failure := s.failure <|> some error }

/-- The worker will see the signal: it is raised, or a thread will raise it. -/
def Due (s : Signals) (signal : Signal) : Prop := s.raised signal = true ∨ 0 < s.pending signal

section Due

variable {s : Signals} {signal other : Signal}

theorem due_set : (s.set other).Due signal ↔ signal = other ∨ s.Due signal := by
  unfold Due set
  by_cases h : signal = other
  · subst h
    simp
  · simp [h]

theorem due_owe : (s.owe other).Due signal ↔ signal = other ∨ s.Due signal := by
  unfold Due owe
  by_cases h : signal = other
  · subst h
    simp
  · simp [h]

theorem due_clear (h : signal ≠ other) : (s.clear other).Due signal ↔ s.Due signal := by
  simp [Due, clear, h]

theorem due_publish {next : Signals} (hnext : s.publish other = some next) (h : s.Due signal) :
    next.Due signal := by
  unfold publish at hnext
  split_ifs at hnext with hzero
  cases hnext
  rw [due_set]
  by_cases hsignal : signal = other
  · exact Or.inl hsignal
  · refine Or.inr ?_
    simpa [Due, hsignal] using h

end Due

end Signals

end Phonowire.Receiver
