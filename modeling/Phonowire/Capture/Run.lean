import Phonowire.Capture.LimitedFile
import Phonowire.Receiver.Summary

/-!
# A run of the capture application

`run` drains the records of the receiver into one recorder for each connection,
then finalizes the recorders that are left, and last writes the status of the
run. `Run` is its state and `Run.step` does what one record, one finalized entry
or one signal does. What the system answers comes with each event. `log` is the
history of what was done for the connections.
-/

namespace Phonowire.Capture

open Receiver AudioSocket

/-! ## Stopping -/

inductive Cause where
  | signal
  | localFailure
  | admission
  deriving DecidableEq, Repr

def Cause.text : Cause → String
  | .signal => "signal"
  | .localFailure => "local_failure"
  | .admission => "admission_exhausted"

structure StopInfo where
  cause : Option Cause := none
  wake : Option String := none
  signals : ℕ := 0
  deriving DecidableEq, Repr

structure Control where
  won : Bool := false
  info : StopInfo := {}
  deriving DecidableEq, Repr

/-- `u64::saturating_add`. -/
def saturatingAdd (a b : ℕ) : ℕ := min (a + b) u64Max

namespace Control

/-- Only the first claim stops the receiver; `woken` is the text of the error
when the wake of its worker fails. -/
def request (c : Control) (cause : Cause) (woken : Option String) : Control :=
  if c.won then c
  else ⟨true, { c.info with cause := some cause, wake := woken <|> c.info.wake }⟩

def signal (c : Control) (woken : Option String) : Control :=
  { c with info := { c.info with signals := saturatingAdd c.info.signals 1 } }.request .signal woken

def stopWakeFailed (c : Control) : Bool := c.info.wake.isSome

end Control

/-! ## Receipts and their texts -/

def stage : RecordingStage → String
  | .validate => "validate"
  | .header => "header"
  | .wire => "wire"
  | .audio => "audio"
  | .events => "events"
  | .seek => "seek"
  | .patch => "patch"
  | .flushWire => "flush_wire"
  | .flushWave => "flush_wave"
  | .flushEvents => "flush_events"

structure Receipt where
  stage : String
  class_ : String
  summary : RecordingSummary
  dropped : ℕ
  bytes : ℕ
  deriving DecidableEq, Repr

def Receipt.fromError (e : RecordingError) : Receipt where
  stage := Capture.stage e.stage
  class_ := match e.failure with
    | .io _ => "io"
    | .invalid _ => "invalid"
  summary := e.summary
  dropped := 0
  bytes := 0

inductive Entry where
  | active (recorder : Recording)
  | failed (receipt : Receipt)
  deriving DecidableEq, Repr

structure Counts where
  admission : ℕ := 0
  stopped : ℕ := 0
  unowned : ℕ := 0
  unownedBytes : ℕ := 0
  failed : ℕ := 0
  failedBytes : ℕ := 0
  metadata : ℕ := 0
  deriving DecidableEq, Repr

def bytes (r : Record) : ℕ :=
  match r.kind with
  | .wire bytes => min bytes.bytes.length u64Max
  | .audio _ _ bytes => min bytes.bytes.length u64Max
  | _ => 0

def debugTerminal : TerminalKind → String
  | .cleanEof => "CleanEof"
  | .terminate => "Terminate"
  | .peerError => "PeerError"
  | .invalidMessage => "InvalidMessage"
  | .decode => "Decode"
  | .truncated => "Truncated"
  | .policy => "Policy"
  | .transport => "Transport"
  | .resourceRefused => "ResourceRefused"
  | .offsetExhausted => "OffsetExhausted"

def debugEnd : RecordingEnd → String
  | .incomplete => "Incomplete"
  | .observed kind => "Observed(" ++ debugTerminal kind ++ ")"

/-- An object of a JSON text. -/
def jsonObject (fields : List (String × String)) : String :=
  "\x7b" ++ ",".intercalate (fields.map fun f ↦ "\"" ++ f.1 ++ "\":" ++ f.2) ++ "\x7d"

def jsonText (text : String) : String := "\"" ++ text ++ "\""

def jsonSummary (id : ConnectionId) (outcome : String) (s : RecordingSummary)
    (receipt : Option Receipt) : String :=
  let (st, cl, dropped, bytes) := match receipt with
    | none => ("null", "null", 0, 0)
    | some x => (x.stage, x.class_, x.dropped, x.bytes)
  jsonObject [
    ("connection", jsonObject [
      ("instance", toString id.instanceId), ("sequence", toString id.sequence)]),
    ("outcome", jsonText outcome),
    ("recording", jsonObject [
      ("wire_bytes", toString s.wireBytes), ("audio_bytes", toString s.audioBytes),
      ("event_bytes", toString s.eventBytes), ("header_bytes", toString s.headerBytes),
      ("patch_bytes", toString s.patchBytes), ("end", jsonText (debugEnd s.ending))]),
    ("failure", jsonObject [
      ("stage", jsonText st), ("class", jsonText cl),
      ("dropped_records", toString dropped), ("dropped_bytes", toString bytes)])]

def debugStopCause : StopCause → String
  | .requested => "Requested"
  | .consumerDisconnected => "ConsumerDisconnected"

def receiverJson : Option RunSummary → String
  | none => "null"
  | some x => jsonObject [
      ("transient_accept_errors", toString x.transientAcceptErrors),
      ("resource_pause_entries", toString x.resourcePauseEntries),
      ("retry_quota_backoffs", toString x.retryQuotaBackoffs),
      ("accepted", toString x.accepted), ("refused", toString x.refused),
      ("ended", toString x.ended), ("abandoned", toString x.abandoned),
      ("live", toString x.live), ("raw_bytes_read", toString x.rawBytesRead),
      ("raw_bytes_handed_off", toString x.rawBytesHandedOff),
      ("undelivered_raw_bytes", toString x.undeliveredRawBytes),
      ("records_handed_off", toString x.recordsHandedOff),
      ("undelivered_records", toString x.undeliveredRecords),
      ("retained_output_bytes", toString x.retainedOutputBytes),
      ("fixed_buffer_capacity", toString x.fixedBufferCapacity),
      ("stopped_by", jsonText (x.stoppedBy.elim "None" fun c ↦ "Some(" ++ debugStopCause c ++ ")")),
      ("counters_complete", toString x.countersComplete)]

/-! ## Files -/

/-- How a new file behaves. -/
structure Behaviour where
  script : List WriteOutcome
  seekError : Option IoError
  flushError : Option IoError
  deriving DecidableEq, Repr

def Behaviour.file (b : Behaviour) : Writer := .fresh b.script b.seekError b.flushError

/-- What the system answers to the creation of a new file. -/
abbrev Created := Except IoError Behaviour

/-- What a connection directory holds. -/
structure Directory where
  wire : Option (List UInt8) := none
  wave : Option (List UInt8) := none
  events : Option (List UInt8) := none
  summary : Option (List UInt8) := none
  deriving DecidableEq, Repr

/-- The files of a recorder as they are in its directory. -/
def Directory.keep (d : Directory) (r : Recording) : Directory :=
  { d with
    wire := some r.wire.sink.content
    wave := some r.wave.sink.content
    events := some r.events.sink.content }

/-- The name of a connection directory. -/
def dirName (id : ConnectionId) : String :=
  "connection-" ++ toString id.instanceId ++ "-" ++ toString id.sequence

theorem takeWhile_digits (n : ℕ) (rest : List Char) :
    (Nat.toDigits 10 n ++ '-' :: rest).takeWhile Char.isDigit = Nat.toDigits 10 n := by
  rw [List.takeWhile_append_of_pos]
  · simp
  · exact fun c hc ↦ Nat.isDigit_of_mem_toDigits (by decide) (by decide) hc

theorem toDigits_injective {m n : ℕ} (h : Nat.toDigits 10 m = Nat.toDigits 10 n) : m = n := by
  rw [← Nat.ofDigitChars_ten_toDigits (n := m), h, Nat.ofDigitChars_ten_toDigits]

/-- Distinct connections have distinct directories, so a run keeps its
directories by connection. -/
theorem dirName_injective : Function.Injective dirName := by
  intro a b h
  have hlist := congrArg String.toList h
  simp only [dirName, String.toList_append, Nat.toString_eq_repr, Nat.toList_repr,
    List.append_assoc] at hlist
  have htail := List.append_cancel_left hlist
  have hdash : "-".toList = ['-'] := rfl
  rw [hdash, List.singleton_append, List.singleton_append] at htail
  have hinstance := congrArg (List.takeWhile Char.isDigit) htail
  rw [takeWhile_digits, takeWhile_digits] at hinstance
  rw [hinstance] at htail
  have hsequence := List.tail_eq_of_cons_eq (List.append_cancel_left htail)
  cases a
  cases b
  rw [ConnectionId.mk.injEq]
  exact ⟨toDigits_injective hinstance, toDigits_injective hsequence⟩

def utf8 (text : String) : List UInt8 := text.toUTF8.data.toList

/-- `write_json` at a path that holds `existing`, and whether it succeeds. -/
def writeJson (cap : ℕ) (existing : Option (List UInt8)) (created : Created) (text : String) :
    Option (List UInt8) × Bool :=
  match existing, created with
  | none, .ok b =>
      let written := limitedLoop cap b.script .empty (utf8 text) 0
      (some written.sink.content, written.result.toBool && b.flushError.isNone)
  | existing, _ => (existing, false)

structure CreateIo where
  wire : Created
  wave : Created
  events : Created
  deriving DecidableEq, Repr

inductive CreateError where
  | io
  | recording (error : RecordingError)
  deriving DecidableEq, Repr

def CreateError.receipt : CreateError → Receipt
  | .io => ⟨"create", "io", .default, 0, 0⟩
  | .recording e => .fromError e

/-- The directory that `create` leaves behind, and its result. -/
def create (cap : ℕ) (id : ConnectionId) (io : CreateIo) :
    Directory × Except CreateError Recording :=
  match io.wire, io.wave, io.events with
  | .error _, _, _ => ({}, .error .io)
  | .ok _, .error _, _ => ({ wire := some [] }, .error .io)
  | .ok _, .ok _, .error _ => ({ wire := some [], wave := some [] }, .error .io)
  | .ok wire, .ok wave, .ok events =>
      match openWithin cap id wire.file wave.file events.file with
      | (r, .ok ()) => (({} : Directory).keep r, .ok r)
      | (r, .error e) => (({} : Directory).keep r, .error (.recording e))

def successfulTerminal : RecordingEnd → Bool
  | .observed .cleanEof => true
  | .observed .terminate => true
  | _ => false

/-! ## The state of a run -/

/-- `BTreeMap` orders connections by receiver and then by sequence. -/
instance : Ord ConnectionId :=
  ⟨compareLex (compareOn ConnectionId.instanceId) (compareOn ConnectionId.sequence)⟩

instance : Std.TransCmp (compare : ConnectionId → ConnectionId → Ordering) :=
  inferInstanceAs (Std.TransCmp
    (compareLex (compareOn ConnectionId.instanceId) (compareOn ConnectionId.sequence)))

instance : Std.LawfulEqCmp (compare : ConnectionId → ConnectionId → Ordering) where
  eq_of_compare {a b} h := by
    have hparts : (compare a.instanceId b.instanceId).then (compare a.sequence b.sequence) = .eq := h
    rw [Ordering.then_eq_eq] at hparts
    have hinstance := Std.LawfulEqCmp.eq_of_compare hparts.1
    have hsequence := Std.LawfulEqCmp.eq_of_compare hparts.2
    cases a
    cases b
    simp_all

inductive Phase where
  | draining
  | finalizing (rest : List (ConnectionId × Entry))
  | exited (ok : Bool)
  deriving DecidableEq, Repr

/-- What was done for a connection: its directory is new, its recorder accepted
a record, its recorder is finished, its `summary.json` is written. -/
inductive Happening where
  | created (id : ConnectionId)
  | recorded (record : Record)
  | finished (id : ConnectionId) (summary : RecordingSummary)
  | summarized (id : ConnectionId) (outcome : String)
  deriving DecidableEq, Repr

def Happening.connection : Happening → ConnectionId
  | .created id => id
  | .recorded record => record.connection
  | .finished id _ => id
  | .summarized id _ => id

structure Run where
  config : Config
  entries : Std.TreeMap ConnectionId Entry
  dirs : Std.TreeMap ConnectionId Directory
  status : Option (List UInt8)
  reserved : ℕ
  counts : Counts
  bad : Bool
  control : Control
  phase : Phase
  log : List Happening

/-- What the system answers while one record is handled. -/
structure RecordIo where
  createDir : Except IoError Unit
  create : CreateIo
  summary : Created
  woken : Option String

inductive WorkerExit where
  | returned (ok : Bool) (summary : RunSummary)
  | panicked
  deriving DecidableEq, Repr

/-- What `run` meets behind its loops. -/
structure ExitIo where
  signalsJoined : Bool
  worker : WorkerExit
  budgetUsed : ℕ
  status : Created

inductive Event where
  | signal (woken : Option String)
  | record (record : Record) (io : RecordIo)
  | disconnected
  | finalize (summary : Created)
  | exit (io : ExitIo)

namespace Run

/-- A run whose receiver is bound and whose threads exist. -/
def new (config : Config) : Run where
  config := config
  entries := ∅
  dirs := ∅
  status := none
  reserved := 0
  counts := {}
  bad := false
  control := {}
  phase := .draining
  log := []

/-- A local failure. -/
def fail (w : Run) (woken : Option String) : Run :=
  { w with bad := true, control := w.control.request .localFailure woken }

def setEntry (w : Run) (id : ConnectionId) (entry : Entry) : Run :=
  { w with entries := w.entries.insert id entry }

/-- The files of a recorder are where it wrote them. -/
def keep (w : Run) (id : ConnectionId) (r : Recording) : Run :=
  { w with dirs := w.dirs.insert id ((w.dirs.getD id {}).keep r) }

def note (w : Run) (happening : Happening) : Run := { w with log := w.log ++ [happening] }

/-- `summary`, and whether it succeeds. -/
def writeSummary (w : Run) (id : ConnectionId) (outcome : String) (s : RecordingSummary)
    (receipt : Option Receipt) (created : Created) : Run × Bool :=
  match w.dirs[id]? with
  | none => (w, false)
  | some d =>
      let (content, ok) :=
        writeJson w.config.summary d.summary created (jsonSummary id outcome s receipt)
      let w := { w with dirs := w.dirs.insert id { d with summary := content } }
      (if ok then w.note (.summarized id outcome) else w, ok)

/-! ### Draining -/

/-- The rest of an admission behind the new directory. -/
def createRecorder (w : Run) (record : Record) (io : RecordIo) : Run :=
  let id := record.connection
  let (directory, result) := create w.config.file id io.create
  let w := { w with dirs := w.dirs.insert id directory }.note (.created id)
  match result with
  | .error e => (w.setEntry id (.failed e.receipt)).fail io.woken
  | .ok recorder =>
      match recordWithin w.config.file recorder record with
      | (recorder, .ok ()) =>
          ((w.keep id recorder).setEntry id (.active recorder)).note (.recorded record)
      | (recorder, .error e) =>
          ((w.keep id recorder).setEntry id (.failed (.fromError e))).fail io.woken

def refuseAdmission (w : Run) : Run :=
  { w with counts := { w.counts with admission := saturatingAdd w.counts.admission 1 } }

def onConnected (w : Run) (record : Record) (io : RecordIo) : Run :=
  if w.control.won then
    { w with counts := { w.counts with stopped := saturatingAdd w.counts.stopped 1 } }
  else if w.reserved = w.config.run ∨ w.config.active ≤ w.entries.size then
    let cause := if w.reserved = w.config.run then Cause.admission else .localFailure
    { w.refuseAdmission with bad := true, control := w.control.request cause io.woken }
  else
    let w := { w with reserved := saturatingAdd w.reserved 1 }
    match w.dirs[record.connection]?, io.createDir with
    | none, .ok () => w.createRecorder record io
    | _, _ => w.refuseAdmission.fail io.woken

/-- The end of a connection whose terminal record its recorder accepted. -/
def finish (w : Run) (id : ConnectionId) (recorder : Recording) (io : RecordIo) : Run :=
  let w := { w with entries := w.entries.erase id }
  match finishWithin w.config.file recorder with
  | (recorder, .error e) =>
      ((w.keep id recorder).setEntry id (.failed (.fromError e))).fail io.woken
  | (recorder, .ok s) =>
      let good := successfulTerminal s.ending
      let w := { (w.keep id recorder).note (.finished id s) with bad := w.bad || !good }
      match w.writeSummary id (if good then "observed" else "failed") s none io.summary with
      | (w, true) => w
      | (w, false) =>
          { w with counts := { w.counts with
            metadata := saturatingAdd w.counts.metadata 1 } }.fail io.woken

def onActive (w : Run) (record : Record) (recorder : Recording) (io : RecordIo) : Run :=
  let id := record.connection
  match recordWithin w.config.file recorder record with
  | (recorder, .error e) =>
      ((w.keep id recorder).setEntry id (.failed (.fromError e))).fail io.woken
  | (recorder, .ok ()) =>
      let w := ((w.keep id recorder).setEntry id (.active recorder)).note (.recorded record)
      if record.kind.isEnded then w.finish id recorder io else w

def onFailed (w : Run) (record : Record) (receipt : Receipt) : Run :=
  { w with
    entries := w.entries.insert record.connection (.failed { receipt with
      dropped := saturatingAdd receipt.dropped 1
      bytes := saturatingAdd receipt.bytes (bytes record) })
    counts := { w.counts with
      failed := saturatingAdd w.counts.failed 1
      failedBytes := saturatingAdd w.counts.failedBytes (bytes record) } }

def onUnowned (w : Run) (record : Record) : Run :=
  { w with counts := { w.counts with
    unowned := saturatingAdd w.counts.unowned 1
    unownedBytes := saturatingAdd w.counts.unownedBytes (bytes record) } }

def onRecord (w : Run) (record : Record) (io : RecordIo) : Run :=
  if record.kind.isConnected then w.onConnected record io
  else
    match w.entries[record.connection]? with
    | some (.active recorder) => w.onActive record recorder io
    | some (.failed receipt) => w.onFailed record receipt
    | none => w.onUnowned record

/-! ### Finalizing -/

/-- The summary of an entry that is left over, which is never a success. -/
def summarize (w : Run) (id : ConnectionId) (outcome : String) (s : RecordingSummary)
    (receipt : Option Receipt) (created : Created) : Run :=
  match { w with bad := true }.writeSummary id outcome s receipt created with
  | (w, true) => w
  | (w, false) =>
      { w with counts := { w.counts with metadata := saturatingAdd w.counts.metadata 1 } }

def onFinalize (w : Run) (id : ConnectionId) (entry : Entry) (created : Created) : Run :=
  match entry with
  | .failed receipt => w.summarize id "failed" receipt.summary (some receipt) created
  | .active recorder =>
      match finishWithin w.config.file recorder with
      | (recorder, .ok s) =>
          ((w.keep id recorder).note (.finished id s)).summarize id "incomplete" s none created
      | (recorder, .error e) =>
          let receipt := Receipt.fromError e
          (w.keep id recorder).summarize id "failed" receipt.summary (some receipt) created

/-! ### The exit -/

def statusJson (w : Run) (budgetUsed : ℕ) (receiver : Option RunSummary) : String :=
  let i := w.control.info
  jsonObject [
    ("reserved_recordings", toString w.reserved),
    ("admission_refused", toString w.counts.admission),
    ("stopped_refused", toString w.counts.stopped),
    ("unowned_records", toString w.counts.unowned),
    ("unowned_bytes", toString w.counts.unownedBytes),
    ("failed_records", toString w.counts.failed),
    ("failed_bytes", toString w.counts.failedBytes),
    ("metadata_failures", toString w.counts.metadata),
    ("final_budget_used", toString budgetUsed),
    ("first_stop_cause", i.cause.elim "null" fun c ↦ jsonText c.text),
    ("stop_wake_error", i.wake.elim "null" jsonText),
    ("signals", toString i.signals),
    ("receiver", receiverJson receiver)]

def workerFailed : WorkerExit → Bool
  | .returned ok _ => !ok
  | .panicked => true

def workerSummary : WorkerExit → Option RunSummary
  | .returned _ summary => some summary
  | .panicked => none

def summaryFailed (s : RunSummary) : Bool :=
  s.abandoned ≠ 0 || s.undeliveredRawBytes ≠ 0 || s.undeliveredRecords ≠ 0 || !s.countersComplete

def onExit (w : Run) (io : ExitIo) : Run :=
  let receiver := workerSummary io.worker
  let bad := w.bad || !io.signalsJoined || workerFailed io.worker || io.budgetUsed ≠ 0 ||
    w.counts.unowned ≠ 0 || w.counts.metadata ≠ 0 || receiver.any summaryFailed ||
    w.control.stopWakeFailed
  let (status, ok) :=
    writeJson w.config.status w.status io.status (w.statusJson io.budgetUsed receiver)
  let bad := bad || !ok
  { w with status, bad, phase := .exited (!bad) }

def step (w : Run) : Event → Option Run
  | .signal woken =>
      match w.phase with
      | .exited _ => none
      | _ => some { w with control := w.control.signal woken }
  | .record record io =>
      match w.phase with
      | .draining => some (w.onRecord record io)
      | _ => none
  | .disconnected =>
      match w.phase with
      | .draining => some { w with phase := .finalizing w.entries.toList, entries := ∅ }
      | _ => none
  | .finalize created =>
      match w.phase with
      | .finalizing ((id, entry) :: rest) =>
          some { w.onFinalize id entry created with phase := .finalizing rest }
      | _ => none
  | .exit io =>
      match w.phase with
      | .finalizing [] => some (w.onExit io)
      | _ => none

section Step

variable {w v : Run}

theorem step_signal {woken : Option String} (h : w.step (.signal woken) = some v) :
    (∀ ok, w.phase ≠ .exited ok) ∧ v = { w with control := w.control.signal woken } := by
  unfold step at h
  dsimp only at h
  split at h
  · cases h
  · rename_i hphase
    exact ⟨hphase, (Option.some.inj h).symm⟩

theorem step_record {record : Record} {io : RecordIo} (h : w.step (.record record io) = some v) :
    w.phase = .draining ∧ v = w.onRecord record io := by
  unfold step at h
  dsimp only at h
  split at h
  · rename_i hphase
    exact ⟨hphase, (Option.some.inj h).symm⟩
  · cases h

theorem step_disconnected (h : w.step .disconnected = some v) :
    w.phase = .draining ∧ v = { w with phase := .finalizing w.entries.toList, entries := ∅ } := by
  unfold step at h
  dsimp only at h
  split at h
  · rename_i hphase
    exact ⟨hphase, (Option.some.inj h).symm⟩
  · cases h

theorem step_finalize {created : Created} (h : w.step (.finalize created) = some v) :
    ∃ id entry rest, w.phase = .finalizing ((id, entry) :: rest) ∧
      v = { w.onFinalize id entry created with phase := .finalizing rest } := by
  unfold step at h
  dsimp only at h
  split at h
  · rename_i id entry rest hphase
    exact ⟨id, entry, rest, hphase, (Option.some.inj h).symm⟩
  · cases h

theorem step_exit {io : ExitIo} (h : w.step (.exit io) = some v) :
    w.phase = .finalizing [] ∧ v = w.onExit io := by
  unfold step at h
  dsimp only at h
  split at h
  · rename_i hphase
    exact ⟨hphase, (Option.some.inj h).symm⟩
  · cases h

end Step

end Run

end Phonowire.Capture
