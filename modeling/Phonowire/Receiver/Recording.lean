import Phonowire.Receiver.Description

/-!
# Recording one connection

A recorder writes the raw chunks, a WAVE file and one diagnostic line per record
to three writers of its caller. A writer answers each call as it likes: it takes
a beginning of the bytes, or fails. What it will answer is its script; a writer
whose script has run out takes everything.
-/

namespace Phonowire.Receiver

open AudioSocket

/-! ## Writers -/

/-- A byte array with a write position. -/
structure Sink where
  content : List UInt8
  position : ℕ
  deriving DecidableEq, Repr

namespace Sink

def empty : Sink := ⟨[], 0⟩

/-- Overwrite from the position on. -/
def put (s : Sink) (bytes : List UInt8) : Sink where
  content := s.content.take s.position ++ bytes ++ s.content.drop (s.position + bytes.length)
  position := s.position + bytes.length

end Sink

/-- The answer to one `write` call; a count above the length of the slice stands
for the whole slice. -/
inductive WriteOutcome where
  | accept (count : ℕ)
  | fail (error : IoError)
  deriving DecidableEq, Repr

structure Writer where
  sink : Sink
  script : List WriteOutcome
  seekError : Option IoError
  flushError : Option IoError
  deriving DecidableEq, Repr

/-- An empty writer at position zero. -/
def Writer.fresh (script : List WriteOutcome) (seekError flushError : Option IoError) : Writer :=
  ⟨.empty, script, seekError, flushError⟩

def writeZero : IoError := ⟨.writeZero, none, "writer accepted no bytes"⟩

def countOverflow : IoError := ⟨.other, none, "output count overflow"⟩

/-- What a counted write leaves behind. -/
structure Written where
  sink : Sink
  script : List WriteOutcome
  count : ℕ
  result : Except IoError Unit

/-- The loop of `write_count`. Interrupted calls are repeated, and a call that
takes nothing is an error. -/
def writeLoop : List WriteOutcome → Sink → List UInt8 → ℕ → Written
  | script, sink, [], count => ⟨sink, script, count, .ok ()⟩
  | [], sink, bytes, count => ⟨sink.put bytes, [], count + bytes.length, .ok ()⟩
  | .fail e :: script, sink, bytes, count =>
      if e.kind = .interrupted then writeLoop script sink bytes count
      else ⟨sink, script, count, .error e⟩
  | .accept k :: script, sink, bytes, count =>
      let written := min k bytes.length
      if written = 0 then ⟨sink, script, count, .error writeZero⟩
      else
        writeLoop script (sink.put (bytes.take written)) (bytes.drop written) (count + written)

def writeCount (w : Writer) (bytes : List UInt8) (count : ℕ) : Written :=
  match checkedAdd count bytes.length with
  | none => ⟨w.sink, w.script, count, .error countOverflow⟩
  | some _ => writeLoop w.script w.sink bytes count

def Writer.after (w : Writer) (written : Written) : Writer :=
  { w with sink := written.sink, script := written.script }

/-! ## The WAVE header -/

def u32Max : ℕ := 2 ^ 32 - 1

def riffOverhead : ℕ := 36

def sampleBytes : ℕ := 2

def le16 (n : ℕ) : List UInt8 := [UInt8.ofNat n, UInt8.ofNat (n / 256)]

def le32 (n : ℕ) : List UInt8 := le16 n ++ le16 (n / 65536)

inductive RecordingViolation where
  | afterFailure
  | afterEnd
  | connection
  | order
  | uuid
  | offset
  | audioFormat
  | waveSize
  deriving DecidableEq, Repr

/-- The header of one channel of sixteen-bit PCM. -/
def headerContent (audioBytes : ℕ) (rate : SampleRate) : List UInt8 :=
  [0x52, 0x49, 0x46, 0x46] ++ le32 (audioBytes + riffOverhead) ++
    [0x57, 0x41, 0x56, 0x45] ++ [0x66, 0x6d, 0x74, 0x20] ++ le32 16 ++ le16 1 ++ le16 1 ++
    le32 rate.hertz ++ le32 (rate.hertz * sampleBytes) ++ le16 sampleBytes ++ le16 16 ++
    [0x64, 0x61, 0x74, 0x61] ++ le32 audioBytes

def waveHeader (audioBytes : ℕ) (rate : SampleRate) : Except RecordingViolation (List UInt8) :=
  if u32Max < audioBytes then .error .waveSize
  else if u32Max < audioBytes + riffOverhead then .error .waveSize
  else .ok (headerContent audioBytes rate)

/-! ## The recorder -/

inductive RecordingStage where
  | validate
  | header
  | wire
  | audio
  | events
  | seek
  | patch
  | flushWire
  | flushWave
  | flushEvents
  deriving DecidableEq, Repr

inductive TerminalKind where
  | cleanEof
  | terminate
  | peerError
  | invalidMessage
  | decode
  | truncated
  | policy
  | transport
  | resourceRefused
  | offsetExhausted
  deriving DecidableEq, Repr

def EndReason.terminalKind : EndReason → TerminalKind
  | .cleanEof => .cleanEof
  | .terminate => .terminate
  | .peerError _ => .peerError
  | .invalidMessage _ => .invalidMessage
  | .decode _ => .decode
  | .truncated _ => .truncated
  | .policy _ => .policy
  | .transport _ => .transport
  | .resourceRefused _ => .resourceRefused
  | .offsetExhausted => .offsetExhausted

inductive RecordingEnd where
  | incomplete
  | observed (kind : TerminalKind)
  deriving DecidableEq, Repr

structure RecordingSummary where
  wireBytes : ℕ
  audioBytes : ℕ
  eventBytes : ℕ
  headerBytes : ℕ
  patchBytes : ℕ
  ending : RecordingEnd
  deriving DecidableEq, Repr

def RecordingSummary.default : RecordingSummary := ⟨0, 0, 0, 0, 0, .incomplete⟩

inductive RecordingFailure where
  | io (error : IoError)
  | invalid (violation : RecordingViolation)
  deriving DecidableEq, Repr

structure RecordingError where
  stage : RecordingStage
  failure : RecordingFailure
  summary : RecordingSummary
  deriving DecidableEq, Repr

inductive RecordingState where
  | awaitingConnection
  | awaitingUuid
  | active (uuid : Uuid)
  | ended
  | failed
  deriving DecidableEq, Repr

/-- The `uuid` that `validate` reads from its state. -/
def RecordingState.identity : RecordingState → Option Uuid
  | .active uuid => some uuid
  | _ => none

structure Recording where
  id : ConnectionId
  sampleRate : SampleRate
  wire : Writer
  wave : Writer
  events : Writer
  state : RecordingState
  lastEventOffset : ℕ
  summary : RecordingSummary
  deriving DecidableEq, Repr

namespace Recording

def invalid {α : Type} (r : Recording) (violation : RecordingViolation) :
    Recording × Except RecordingError α :=
  ({ r with state := .failed }, .error ⟨.validate, .invalid violation, r.summary⟩)

/-- `output_result` on an error. -/
def outputFailed {α : Type} (r : Recording) (stage : RecordingStage) (error : IoError) :
    Recording × Except RecordingError α :=
  ({ r with state := .failed }, .error ⟨stage, .io error, r.summary⟩)

def writeHeader (r : Recording) (header : List UInt8) : Recording × Except IoError Unit :=
  let written := writeCount r.wave header r.summary.headerBytes
  ({ r with
    wave := r.wave.after written
    summary := { r.summary with headerBytes := written.count } }, written.result)

def writeWire (r : Recording) (bytes : List UInt8) : Recording × Except IoError Unit :=
  let written := writeCount r.wire bytes r.summary.wireBytes
  ({ r with
    wire := r.wire.after written
    summary := { r.summary with wireBytes := written.count } }, written.result)

def writeAudio (r : Recording) (bytes : List UInt8) : Recording × Except IoError Unit :=
  let written := writeCount r.wave bytes r.summary.audioBytes
  ({ r with
    wave := r.wave.after written
    summary := { r.summary with audioBytes := written.count } }, written.result)

def writeEvents (r : Recording) (bytes : List UInt8) : Recording × Except IoError Unit :=
  let written := writeCount r.events bytes r.summary.eventBytes
  ({ r with
    events := r.events.after written
    summary := { r.summary with eventBytes := written.count } }, written.result)

def writePatch (r : Recording) (header : List UInt8) : Recording × Except IoError Unit :=
  let written := writeCount r.wave header r.summary.patchBytes
  ({ r with
    wave := r.wave.after written
    summary := { r.summary with patchBytes := written.count } }, written.result)

/-- The recorder before its header is written. -/
def blank (id : ConnectionId) (sampleRate : SampleRate) (wire wave events : Writer) : Recording :=
  ⟨id, sampleRate, wire, wave, events, .awaitingConnection, 0, .default⟩

/-- The recorder that `with_sample_rate` builds, with its result. -/
def withSampleRate (id : ConnectionId) (sampleRate : SampleRate) (wire wave events : Writer) :
    Recording × Except RecordingError Unit :=
  match waveHeader 0 sampleRate with
  | .error v => (blank id sampleRate wire wave events).invalid v
  | .ok header =>
      match (blank id sampleRate wire wave events).writeHeader header with
      | (r, .error e) => r.outputFailed .header e
      | (r, .ok ()) => (r, .ok ())

/-- The identity that the records so far established. -/
def identity (r : Recording) : Option Uuid := r.state.identity

def validateKind (r : Recording) (offset : ℕ) :
    RecordKind → Except RecordingViolation RecordingState
  | .connected _ => if r.state = .awaitingConnection then .ok .awaitingUuid else .error .order
  | .wire _ => if offset = r.summary.wireBytes then .ok r.state else .error .offset
  | .started uuid => if r.state = .awaitingUuid then .ok (.active uuid) else .error .order
  | .audio uuid rate bytes =>
      if r.identity ≠ some uuid then .error .uuid
      else if rate ≠ r.sampleRate ∨ bytes.bytes.length % sampleBytes ≠ 0 then .error .audioFormat
      else
        match checkedAdd r.summary.audioBytes bytes.bytes.length with
        | none => .error .waveSize
        | some next => (waveHeader next r.sampleRate).map fun _ ↦ r.state
  | .dtmf uuid _ => if r.identity ≠ some uuid then .error .uuid else .ok r.state
  | .ended uuid _ => if r.identity ≠ uuid then .error .uuid else .ok .ended

def validate (r : Recording) (record : Record) : Except RecordingViolation RecordingState :=
  if r.state = .failed then .error .afterFailure
  else if r.state = .ended then .error .afterEnd
  else if record.connection ≠ r.id then .error .connection
  else if r.state = .awaitingConnection ∧ record.kind.isConnected = false then .error .order
  else if record.kind.isWire = false ∧
      (record.offset < r.lastEventOffset ∨ r.summary.wireBytes < record.offset) then .error .offset
  else r.validateKind record.offset record.kind

/-- The first output of a record, with its stage. -/
def writePayload (r : Recording) :
    RecordKind → Recording × RecordingStage × Except IoError Unit
  | .wire bytes => let (r, result) := r.writeWire bytes.bytes; (r, .wire, result)
  | .audio _ _ bytes => let (r, result) := r.writeAudio bytes.bytes; (r, .audio, result)
  | _ => (r, .events, .ok ())

/-- The state after both outputs of a record. -/
def accept (r : Recording) (record : Record) (next : RecordingState) : Recording :=
  { r with
    state := next
    lastEventOffset := if record.kind.isWire then r.lastEventOffset else record.offset
    summary := match record.kind with
      | .ended _ reason => { r.summary with ending := .observed reason.terminalKind }
      | _ => r.summary }

def record (r : Recording) (record : Record) : Recording × Except RecordingError Unit :=
  match r.validate record with
  | .error v => r.invalid v
  | .ok next =>
      match r.writePayload record.kind with
      | (r, stage, .error e) => r.outputFailed stage e
      | (r, _, .ok ()) =>
          match r.writeEvents (record.line r.id) with
          | (r, .error e) => r.outputFailed .events e
          | (r, .ok ()) => (r.accept record next, .ok ())

/-- The flushes at the end, in their order. -/
def flush (r : Recording) : Option (RecordingStage × IoError) :=
  match r.wire.flushError, r.wave.flushError, r.events.flushError with
  | some e, _, _ => some (.flushWire, e)
  | none, some e, _ => some (.flushWave, e)
  | none, none, some e => some (.flushEvents, e)
  | none, none, none => none

/-- The recorder with its WAVE writer back at the start. -/
def rewound (r : Recording) : Recording :=
  { r with wave := { r.wave with sink := { r.wave.sink with position := 0 } } }

/-- The end of `finish`, after the header was written once more. -/
def conclude (r : Recording) :
    Except IoError Unit → Recording × Except RecordingError RecordingSummary
  | .error e => r.outputFailed .patch e
  | .ok () =>
      match r.flush with
      | some (stage, e) => r.outputFailed stage e
      | none => (r, .ok r.summary)

def finish (r : Recording) : Recording × Except RecordingError RecordingSummary :=
  if r.state = .failed then r.invalid .afterFailure
  else
    match waveHeader r.summary.audioBytes r.sampleRate with
    | .error v => r.invalid v
    | .ok header =>
        match r.wave.seekError with
        | some e => r.outputFailed .seek e
        | none =>
            let (r, result) := r.rewound.writePatch header
            r.conclude result

/-- The recorder after a sequence of `record` calls. -/
def run (r : Recording) (records : List Record) : Recording :=
  records.foldl (fun r record ↦ (r.record record).1) r

/-- The results of those calls. -/
def results : Recording → List Record → List (Except RecordingError Unit)
  | _, [] => []
  | r, record :: records => (r.record record).2 :: results (r.record record).1 records

/-- The records that passed validation. -/
def validated : Recording → List Record → List Record
  | _, [] => []
  | r, record :: records =>
      (match r.validate record with
        | .ok _ => [record]
        | .error _ => []) ++ validated (r.record record).1 records

end Recording

end Phonowire.Receiver
