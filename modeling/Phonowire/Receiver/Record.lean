import Phonowire.AudioSocket.Session
import Phonowire.AudioSocket.Decoder
import Phonowire.Receiver.Memory

/-!
# Observations the worker hands to a consumer

Values of the operating system enter by what the receiver reads of them: an
error by its kind, its code and its text, a peer address by its text, a clock
reading by its seconds and nanoseconds.
-/

namespace Phonowire.Receiver

open AudioSocket

def u64Max : ℕ := 2 ^ 64 - 1

/-- `u64::checked_add`, and `usize::checked_add` on a 64-bit target. -/
def checkedAdd (a b : ℕ) : Option ℕ := if u64Max < a + b then none else some (a + b)

theorem checkedAdd_eq_some_iff {a b c : ℕ} :
    checkedAdd a b = some c ↔ a + b ≤ u64Max ∧ c = a + b := by
  unfold checkedAdd
  by_cases h : u64Max < a + b
  · simp only [if_pos h, reduceCtorEq, false_iff, not_and]
    omega
  · simp only [if_neg h, Option.some.injEq]
    exact ⟨fun hc ↦ ⟨by omega, hc.symm⟩, fun hc ↦ hc.2.symm⟩

theorem checkedAdd_eq_none_iff {a b : ℕ} : checkedAdd a b = none ↔ u64Max < a + b := by
  simp [checkedAdd]

inductive ErrorKind where
  | wouldBlock
  | interrupted
  | connectionAborted
  | connectionReset
  | timedOut
  | networkDown
  | networkUnreachable
  | hostUnreachable
  | outOfMemory
  | tooManyOpenFiles
  | writeZero
  | other
  deriving DecidableEq, Repr

structure IoError where
  kind : ErrorKind
  rawOsError : Option ℤ
  text : String
  deriving DecidableEq, Repr

structure SocketAddr where
  text : String
  deriving DecidableEq, Repr

structure Instant where
  seconds : ℕ
  nanoseconds : ℕ
  deriving DecidableEq, Repr

/-- A worker-scoped connection identity: the receiver instance that admitted
the connection and its sequence number there. -/
structure ConnectionId where
  instanceId : ℕ
  sequence : ℕ
  deriving DecidableEq, Repr

/-- Bytes charged to a budget until they are dropped. -/
structure OwnedBytes where
  bytes : List UInt8
  deriving DecidableEq, Repr

def OwnedBytes.chargedCapacity (b : OwnedBytes) : ℕ := b.bytes.length

inductive EndReason where
  | cleanEof
  | terminate
  | peerError (bytes : OwnedBytes)
  | invalidMessage (error : TypedMessageError)
  | decode (error : DecodeError)
  | truncated (error : FinishError)
  | policy (error : IncomingSessionError)
  | transport (error : IoError)
  | resourceRefused (error : BudgetError)
  | offsetExhausted
  deriving DecidableEq, Repr

inductive RecordKind where
  | connected (peer : SocketAddr)
  | wire (bytes : OwnedBytes)
  | started (uuid : Uuid)
  | audio (uuid : Uuid) (rate : SampleRate) (bytes : OwnedBytes)
  | dtmf (uuid : Uuid) (digit : Dtmf)
  | ended (uuid : Option Uuid) (reason : EndReason)
  deriving DecidableEq, Repr

structure Record where
  connection : ConnectionId
  offset : ℕ
  observedAt : Instant
  kind : RecordKind
  deriving DecidableEq, Repr

namespace RecordKind

/-- Bytes of the budget the observation keeps charged. -/
def charged : RecordKind → ℕ
  | .wire bytes => bytes.chargedCapacity
  | .audio _ _ bytes => bytes.chargedCapacity
  | .ended _ (.peerError bytes) => bytes.chargedCapacity
  | _ => 0

/-- Transport bytes of a raw observation. -/
def wireLength : RecordKind → ℕ
  | .wire bytes => bytes.bytes.length
  | _ => 0

def isEnded : RecordKind → Bool
  | .ended _ _ => true
  | _ => false

/-- The observation comes from the protocol: it is neither the peer address nor
a raw chunk. -/
def isProtocol : RecordKind → Bool
  | .connected _ => false
  | .wire _ => false
  | _ => true

theorem wireLength_of_isProtocol {kind : RecordKind} (h : kind.isProtocol = true) :
    kind.wireLength = 0 := by
  cases kind <;> first | rfl | cases h

def isConnected : RecordKind → Bool
  | .connected _ => true
  | _ => false

def isWire : RecordKind → Bool
  | .wire _ => true
  | _ => false

end RecordKind

namespace Record

def wireBytes (record : Record) : List UInt8 :=
  match record.kind with
  | .wire bytes => bytes.bytes
  | _ => []

def audioBytes (record : Record) : List UInt8 :=
  match record.kind with
  | .audio _ _ bytes => bytes.bytes
  | _ => []

theorem wireBytes_of_isProtocol {record : Record} (h : record.kind.isProtocol = true) :
    record.wireBytes = [] := by
  unfold wireBytes
  cases hkind : record.kind <;> simp_all [RecordKind.isProtocol]

end Record

/-- The bytes of the raw chunks, in order. -/
def wireOutput (records : List Record) : List UInt8 := (records.map Record.wireBytes).flatten

/-- The bytes of the audio payloads, in order. -/
def audioOutput (records : List Record) : List UInt8 := (records.map Record.audioBytes).flatten

end Phonowire.Receiver
