import Phonowire.Receiver.Recording

/-!
# A recorder reports what its writers accepted

Each output of a recorder is a beginning of what the validated records should
have produced, and its counter is the length of that beginning. The facts hold
for every behaviour of the writers and after every call.
-/

namespace Phonowire.Receiver

open AudioSocket

/-! ## Counted writes -/

namespace Sink

def AtEnd (s : Sink) : Prop := s.position = s.content.length

theorem put_nil (s : Sink) : s.put [] = s := by
  simp [put]

theorem put_put {s : Sink} (h : s.position ≤ s.content.length) (a b : List UInt8) :
    (s.put a).put b = s.put (a ++ b) := by
  have hfront : (s.content.take s.position ++ a).length = s.position + a.length := by
    simp [h]
  unfold put
  dsimp only
  rw [List.take_left' hfront, List.drop_append, hfront, List.drop_drop, List.append_assoc _ a b,
    List.length_append, ← Nat.add_assoc]
  have hdrop : (s.content.take s.position ++ a).drop (s.position + a.length + b.length) = [] :=
    List.drop_of_length_le (by omega)
  have hback : s.position + a.length + (s.position + a.length + b.length -
      (s.position + a.length)) = s.position + a.length + b.length := by omega
  rw [hdrop, hback, List.nil_append, List.append_assoc]

theorem put_of_atEnd {s : Sink} (h : s.AtEnd) (bytes : List UInt8) :
    (s.put bytes).content = s.content ++ bytes ∧ (s.put bytes).AtEnd := by
  have hposition : s.position = s.content.length := h
  have hcontent : (s.put bytes).content = s.content ++ bytes := by
    simp [put, hposition]
  refine ⟨hcontent, ?_⟩
  unfold AtEnd
  rw [hcontent, List.length_append, ← hposition]
  rfl

end Sink

/-- A counted write puts a beginning of its bytes and counts it; without an error
it puts all of them. -/
def Written.Puts (written : Written) (sink : Sink) (bytes : List UInt8) (count : ℕ) : Prop :=
  ∃ accepted, accepted <+: bytes ∧ written.sink = sink.put accepted ∧
    written.count = count + accepted.length ∧ (written.result = .ok () → accepted = bytes)

theorem Written.puts_error {sink : Sink} {script : List WriteOutcome} {count : ℕ}
    (e : IoError) (bytes : List UInt8) :
    (⟨sink, script, count, .error e⟩ : Written).Puts sink bytes count :=
  ⟨[], List.nil_prefix, sink.put_nil.symm, rfl, nofun⟩

theorem position_put_le {s : Sink} (h : s.position ≤ s.content.length) (bytes : List UInt8) :
    (s.put bytes).position ≤ (s.put bytes).content.length := by
  simp only [Sink.put, List.length_append, List.length_take]
  omega

theorem writeLoop_puts (script : List WriteOutcome) (sink : Sink) (bytes : List UInt8)
    (count : ℕ) (h : sink.position ≤ sink.content.length) :
    (writeLoop script sink bytes count).Puts sink bytes count := by
  fun_induction writeLoop script sink bytes count with
  | case1 script sink count => exact ⟨[], List.nil_prefix, sink.put_nil.symm, rfl, fun _ ↦ rfl⟩
  | case2 sink bytes count hne => exact ⟨bytes, List.prefix_rfl, rfl, rfl, fun _ ↦ rfl⟩
  | case3 e script sink bytes count hne hkind ih => exact ih h
  | case4 e script sink bytes count hne hkind => exact Written.puts_error e bytes
  | case5 k script sink bytes count hne written hzero => exact Written.puts_error writeZero bytes
  | case6 k script sink bytes count hne written hpos ih =>
      obtain ⟨accepted, hpre, hsink, hcount, hall⟩ := ih (position_put_le h _)
      have hlength : (bytes.take written).length = written := by
        rw [List.length_take]
        exact Nat.min_eq_left (Nat.min_le_right k bytes.length)
      refine ⟨bytes.take written ++ accepted, ?_, ?_, ?_, ?_⟩
      · obtain ⟨rest, hrest⟩ := hpre
        exact ⟨rest, by rw [List.append_assoc, hrest, List.take_append_drop]⟩
      · rw [hsink, Sink.put_put h]
      · rw [hcount, List.length_append, hlength, Nat.add_assoc]
      · intro hok
        rw [hall hok, List.take_append_drop]

theorem writeCount_puts (w : Writer) (bytes : List UInt8) (count : ℕ)
    (h : w.sink.position ≤ w.sink.content.length) :
    (writeCount w bytes count).Puts w.sink bytes count := by
  unfold writeCount
  cases checkedAdd count bytes.length with
  | none => exact Written.puts_error countOverflow bytes
  | some _ => exact writeLoop_puts _ _ _ _ h

/-- The output is `front` and then the first `count` bytes of `whole`. -/
def Writer.Holds (w : Writer) (front whole : List UInt8) (count : ℕ) : Prop :=
  w.sink.AtEnd ∧ w.sink.content = front ++ whole.take count ∧ count ≤ whole.length

namespace Writer.Holds

variable {w : Writer} {front whole : List UInt8} {count : ℕ}

theorem append (h : w.Holds front whole count) (more : List UInt8) :
    w.Holds front (whole ++ more) count := by
  obtain ⟨hend, hcontent, hle⟩ := h
  refine ⟨hend, ?_, ?_⟩
  · rw [hcontent, List.take_append_of_le_length hle]
  · rw [List.length_append]
    omega

/-- A write behind a complete output adds a beginning of its bytes and counts
it. -/
theorem write (h : w.Holds front whole count) (hwhole : count = whole.length)
    (bytes : List UInt8) :
    (w.after (writeCount w bytes count)).Holds front (whole ++ bytes)
        (writeCount w bytes count).count ∧
      ((writeCount w bytes count).result = .ok () →
        (writeCount w bytes count).count = (whole ++ bytes).length) := by
  obtain ⟨hend, hcontent, _⟩ := h
  obtain ⟨accepted, hpre, hsink, hcounted, hall⟩ := writeCount_puts w bytes count hend.le
  obtain ⟨hput, hatEnd⟩ := Sink.put_of_atEnd hend accepted
  have hle := hpre.length_le
  refine ⟨⟨?_, ?_, ?_⟩, ?_⟩
  · rw [← hsink] at hatEnd
    exact hatEnd
  · obtain ⟨rest, rfl⟩ := hpre
    have htake : (whole ++ (accepted ++ rest)).take (whole.length + accepted.length) =
        whole ++ accepted := by
      rw [← List.append_assoc, ← List.length_append]
      exact List.take_left' rfl
    have hafter : (w.after (writeCount w (accepted ++ rest) count)).sink.content =
        w.sink.content ++ accepted := by
      rw [← hput, ← hsink]
      rfl
    rw [hafter, hcounted, hcontent, hwhole, htake, List.take_length, List.append_assoc]
  · rw [hcounted, List.length_append, hwhole]
    omega
  · intro hok
    rw [hcounted, hall hok, hwhole, List.length_append]

theorem length_eq (h : w.Holds [] whole count) : w.sink.content.length = count := by
  obtain ⟨_, hcontent, hle⟩ := h
  rw [hcontent, List.nil_append, List.length_take]
  omega

theorem isPrefix (h : w.Holds [] whole count) : w.sink.content <+: whole := by
  obtain ⟨_, hcontent, _⟩ := h
  rw [hcontent, List.nil_append]
  exact List.take_prefix count whole

end Writer.Holds

theorem headerContent_length (audioBytes : ℕ) (rate : SampleRate) :
    (headerContent audioBytes rate).length = 44 := by
  simp [headerContent, le32, le16]

/-! ## The outputs of a recorder -/

/-- The diagnostic lines of the records, in order. -/
def eventOutput (id : ConnectionId) (records : List Record) : List UInt8 :=
  (records.map (·.line id)).flatten

namespace Recording

/-- Every output is a beginning of what is given, as long as its counter says. -/
structure Outputs (r : Recording) (wire audio events : List UInt8) : Prop where
  wire : r.wire.Holds [] wire r.summary.wireBytes
  wave : r.wave.Holds ((headerContent 0 r.sampleRate).take r.summary.headerBytes) audio
    r.summary.audioBytes
  events : r.events.Holds [] events r.summary.eventBytes
  header_le : r.summary.headerBytes ≤ 44
  patch : r.summary.patchBytes = 0

/-- No output is cut short. -/
structure Full (r : Recording) (wire audio events : List UInt8) : Prop where
  wire : r.summary.wireBytes = wire.length
  audio : r.summary.audioBytes = audio.length
  events : r.summary.eventBytes = events.length
  header : r.summary.headerBytes = 44

section Writes

variable {r : Recording} {wire audio events : List UInt8}

theorem Outputs.writeWire (h : r.Outputs wire audio events) (hfull : r.Full wire audio events)
    (bytes : List UInt8) :
    (r.writeWire bytes).1.Outputs (wire ++ bytes) audio events ∧
      ((r.writeWire bytes).2 = .ok () → (r.writeWire bytes).1.Full (wire ++ bytes) audio events) := by
  obtain ⟨hholds, hall⟩ := h.wire.write hfull.wire bytes
  exact ⟨⟨hholds, h.wave, h.events, h.header_le, h.patch⟩,
    fun hok ↦ ⟨hall hok, hfull.audio, hfull.events, hfull.header⟩⟩

theorem Outputs.writeAudio (h : r.Outputs wire audio events) (hfull : r.Full wire audio events)
    (bytes : List UInt8) :
    (r.writeAudio bytes).1.Outputs wire (audio ++ bytes) events ∧
      ((r.writeAudio bytes).2 = .ok () →
        (r.writeAudio bytes).1.Full wire (audio ++ bytes) events) := by
  obtain ⟨hholds, hall⟩ := h.wave.write hfull.audio bytes
  exact ⟨⟨h.wire, hholds, h.events, h.header_le, h.patch⟩,
    fun hok ↦ ⟨hfull.wire, hall hok, hfull.events, hfull.header⟩⟩

theorem Outputs.writeEvents (h : r.Outputs wire audio events) (hfull : r.Full wire audio events)
    (bytes : List UInt8) :
    (r.writeEvents bytes).1.Outputs wire audio (events ++ bytes) ∧
      ((r.writeEvents bytes).2 = .ok () →
        (r.writeEvents bytes).1.Full wire audio (events ++ bytes)) := by
  obtain ⟨hholds, hall⟩ := h.events.write hfull.events bytes
  exact ⟨⟨h.wire, h.wave, hholds, h.header_le, h.patch⟩,
    fun hok ↦ ⟨hfull.wire, hfull.audio, hall hok, hfull.header⟩⟩

theorem Outputs.append (h : r.Outputs wire audio events) (more : List UInt8) :
    r.Outputs wire audio (events ++ more) :=
  ⟨h.wire, h.wave, h.events.append more, h.header_le, h.patch⟩

/-- The payload of a record goes to its own output. -/
theorem Outputs.writePayload (h : r.Outputs wire audio events)
    (hfull : r.Full wire audio events) (record : Record) :
    let written := r.writePayload record.kind
    written.1.Outputs (wire ++ record.wireBytes) (audio ++ record.audioBytes) events ∧
      (written.2.2 = .ok () →
        written.1.Full (wire ++ record.wireBytes) (audio ++ record.audioBytes) events) ∧
      (written.2.1 ≠ .wire → written.1.summary.wireBytes = (wire ++ record.wireBytes).length) := by
  unfold Recording.writePayload Record.wireBytes Record.audioBytes
  cases record.kind with
  | wire bytes =>
      obtain ⟨hout, hall⟩ := h.writeWire hfull bytes.bytes
      simp only [List.append_nil]
      exact ⟨hout, hall, fun hne ↦ absurd rfl hne⟩
  | audio uuid rate bytes =>
      obtain ⟨hout, hall⟩ := h.writeAudio hfull bytes.bytes
      simp only [List.append_nil]
      exact ⟨hout, hall, fun _ ↦ hfull.wire⟩
  | _ =>
      simp only [List.append_nil]
      exact ⟨h, fun _ ↦ hfull, fun _ ↦ hfull.wire⟩

end Writes

/-! ## One call -/

/-- The recorder's outputs are those of the records validated so far; while it
has not failed they are complete. -/
structure Sound (r : Recording) (past : List Record) : Prop where
  outputs : r.Outputs (wireOutput past) (audioOutput past) (eventOutput r.id past)
  full : r.state ≠ .failed →
    r.Full (wireOutput past) (audioOutput past) (eventOutput r.id past)

/-- Where a `record` call can fail, and with which counts. -/
inductive RecordFails (r : Recording) (record : Record) : RecordingError → Prop
  | refused {v : RecordingViolation} (hvalidate : r.validate record = .error v) :
      RecordFails r record ⟨.validate, .invalid v, r.summary⟩
  | payload {s : Recording} {next : RecordingState} {stage : RecordingStage} {e : IoError}
      (hvalidate : r.validate record = .ok next)
      (hwrite : r.writePayload record.kind = (s, stage, .error e)) :
      RecordFails r record ⟨stage, .io e, s.summary⟩
  | events {s t : Recording} {next : RecordingState} {stage : RecordingStage} {e : IoError}
      (hvalidate : r.validate record = .ok next)
      (hwrite : r.writePayload record.kind = (s, stage, .ok ()))
      (hevents : s.writeEvents (record.line s.id) = (t, .error e)) :
      RecordFails r record ⟨.events, .io e, t.summary⟩

variable {r : Recording} {past : List Record}

theorem outputs_congr {s : Recording} {wire audio events : List UInt8}
    (h : r.Outputs wire audio events) (hrate : s.sampleRate = r.sampleRate)
    (hwire : s.wire = r.wire) (hwave : s.wave = r.wave) (hevents : s.events = r.events)
    (hsummary : ∃ ending, s.summary = { r.summary with ending }) :
    s.Outputs wire audio events := by
  obtain ⟨ending, hsummary⟩ := hsummary
  refine ⟨?_, ?_, ?_, ?_, ?_⟩
  · rw [hwire, hsummary]
    exact h.wire
  · rw [hwave, hsummary, hrate]
    exact h.wave
  · rw [hevents, hsummary]
    exact h.events
  · rw [hsummary]
    exact h.header_le
  · rw [hsummary]
    exact h.patch

theorem Sound.failed (h : r.Outputs (wireOutput past) (audioOutput past) (eventOutput r.id past)) :
    { r with state := .failed }.Sound past :=
  ⟨outputs_congr h rfl rfl rfl rfl ⟨r.summary.ending, rfl⟩, fun hne ↦ absurd rfl hne⟩

theorem invalid_fst {α : Type} (r : Recording) (v : RecordingViolation) :
    (r.invalid v : Recording × Except RecordingError α).1 = { r with state := .failed } := rfl

theorem wireOutput_append (past : List Record) (record : Record) :
    wireOutput (past ++ [record]) = wireOutput past ++ record.wireBytes := by
  simp [wireOutput]

theorem audioOutput_append (past : List Record) (record : Record) :
    audioOutput (past ++ [record]) = audioOutput past ++ record.audioBytes := by
  simp [audioOutput]

theorem eventOutput_append (id : ConnectionId) (past : List Record) (record : Record) :
    eventOutput id (past ++ [record]) = eventOutput id past ++ record.line id := by
  simp [eventOutput]

theorem writePayload_id (r : Recording) (kind : RecordKind) :
    (r.writePayload kind).1.id = r.id ∧ (r.writePayload kind).1.state = r.state := by
  cases kind <;> exact ⟨rfl, rfl⟩

theorem validate_failed (h : r.state = .failed) (record : Record) :
    r.validate record = .error .afterFailure := by
  simp [validate, h]

/-- What a call on a validated record leaves behind. -/
structure Recorded (r s : Recording) (past : List Record) (record : Record)
    (result : Except RecordingError Unit) : Prop where
  sound : s.Sound (past ++ [record])
  wire : s.summary.wireBytes = (wireOutput (past ++ [record])).length ∨
    ∃ e, result = .error e ∧ e.stage = .wire
  error : ∀ e, result = .error e → r.RecordFails record e ∧ e.summary = s.summary ∧
    s.state = .failed

section Calls

variable {s t : Recording} {record : Record} {next : RecordingState} {stage : RecordingStage}
  {e : IoError}

theorem record_refused {v : RecordingViolation} (hvalidate : r.validate record = .error v) :
    r.record record =
      ({ r with state := .failed }, .error ⟨.validate, .invalid v, r.summary⟩) := by
  rw [Recording.record, hvalidate]
  rfl

theorem record_payloadFailed (hvalidate : r.validate record = .ok next)
    (hpayload : r.writePayload record.kind = (s, stage, .error e)) :
    r.record record = ({ s with state := .failed }, .error ⟨stage, .io e, s.summary⟩) := by
  rw [Recording.record, hvalidate]
  simp only [hpayload]
  rfl

theorem record_eventsFailed (hvalidate : r.validate record = .ok next)
    (hpayload : r.writePayload record.kind = (s, stage, .ok ()))
    (hevents : s.writeEvents (record.line s.id) = (t, .error e)) :
    r.record record = ({ t with state := .failed }, .error ⟨.events, .io e, t.summary⟩) := by
  rw [Recording.record, hvalidate]
  simp only [hpayload, hevents]
  rfl

theorem record_accepted (hvalidate : r.validate record = .ok next)
    (hpayload : r.writePayload record.kind = (s, stage, .ok ()))
    (hevents : s.writeEvents (record.line s.id) = (t, .ok ())) :
    r.record record = (t.accept record next, .ok ()) := by
  rw [Recording.record, hvalidate]
  simp only [hpayload, hevents]

theorem writeEvents_keeps (s : Recording) (bytes : List UInt8) :
    (s.writeEvents bytes).1.id = s.id ∧
      (s.writeEvents bytes).1.summary.wireBytes = s.summary.wireBytes :=
  ⟨rfl, rfl⟩

theorem accept_summary (t : Recording) (record : Record) (next : RecordingState) :
    ∃ ending, (t.accept record next).summary = { t.summary with ending } := by
  unfold accept
  cases record.kind <;> exact ⟨_, rfl⟩

theorem Outputs.accept {wire audio events : List UInt8} (h : t.Outputs wire audio events) :
    (t.accept record next).Outputs wire audio events :=
  outputs_congr h rfl rfl rfl rfl (accept_summary t record next)

theorem Full.accept {wire audio events : List UInt8} (h : t.Full wire audio events) :
    (t.accept record next).Full wire audio events := by
  obtain ⟨ending, hsummary⟩ := accept_summary t record next
  refine ⟨?_, ?_, ?_, ?_⟩ <;> rw [hsummary]
  · exact h.wire
  · exact h.audio
  · exact h.events
  · exact h.header

theorem Sound.record_payloadFailed (h : r.Sound past) (hstate : r.state ≠ .failed)
    (hvalidate : r.validate record = .ok next)
    (hpayload : r.writePayload record.kind = (s, stage, .error e)) :
    r.Recorded { s with state := .failed } past record (.error ⟨stage, .io e, s.summary⟩) := by
  obtain ⟨hout, _, hwire⟩ := h.outputs.writePayload (h.full hstate) record
  obtain ⟨hid, _⟩ := writePayload_id r record.kind
  rw [hpayload] at hout hwire hid
  dsimp only at hout hwire hid
  refine ⟨Sound.failed ?_, ?_, ?_⟩
  · rw [wireOutput_append, audioOutput_append, eventOutput_append, hid]
    exact hout.append _
  · by_cases hstage : stage = .wire
    · exact Or.inr ⟨_, rfl, hstage⟩
    · rw [wireOutput_append]
      exact Or.inl (hwire hstage)
  · rintro _ ⟨⟩
    exact ⟨.payload hvalidate hpayload, rfl, rfl⟩

/-- Both writes of a record, for any diagnostic line. -/
theorem Sound.written (h : r.Sound past) (hstate : r.state ≠ .failed)
    (hpayload : r.writePayload record.kind = (s, stage, .ok ())) (line : List UInt8) :
    (s.writeEvents line).1.id = r.id ∧ s.id = r.id ∧
      (s.writeEvents line).1.summary.wireBytes = (wireOutput (past ++ [record])).length ∧
      (s.writeEvents line).1.Outputs (wireOutput (past ++ [record]))
        (audioOutput (past ++ [record])) (eventOutput r.id past ++ line) ∧
      ((s.writeEvents line).2 = .ok () → (s.writeEvents line).1.Full
        (wireOutput (past ++ [record])) (audioOutput (past ++ [record]))
        (eventOutput r.id past ++ line)) := by
  obtain ⟨hout, hfull, _⟩ := h.outputs.writePayload (h.full hstate) record
  obtain ⟨hid, _⟩ := writePayload_id r record.kind
  rw [hpayload] at hout hfull hid
  dsimp only at hout hfull hid
  obtain ⟨hevents, hall⟩ := hout.writeEvents (hfull rfl) line
  obtain ⟨hkeeps, hwire⟩ := writeEvents_keeps s line
  rw [wireOutput_append, audioOutput_append]
  exact ⟨hkeeps.trans hid, hid, hwire.trans (hfull rfl).wire, hevents, hall⟩

theorem Sound.record_eventsFailed (h : r.Sound past) (hstate : r.state ≠ .failed)
    (hvalidate : r.validate record = .ok next)
    (hpayload : r.writePayload record.kind = (s, stage, .ok ()))
    (hevents : s.writeEvents (record.line s.id) = (t, .error e)) :
    r.Recorded { t with state := .failed } past record (.error ⟨.events, .io e, t.summary⟩) := by
  obtain ⟨hid, hsid, hwire, hout, _⟩ := h.written hstate hpayload (record.line s.id)
  rw [hevents] at hid hwire hout
  rw [hsid, ← eventOutput_append, ← hid] at hout
  refine ⟨Sound.failed hout, Or.inl hwire, ?_⟩
  rintro _ ⟨⟩
  exact ⟨.events hvalidate hpayload hevents, rfl, rfl⟩

theorem Sound.record_accepted (h : r.Sound past) (hstate : r.state ≠ .failed)
    (hpayload : r.writePayload record.kind = (s, stage, .ok ()))
    (hevents : s.writeEvents (record.line s.id) = (t, .ok ())) :
    r.Recorded (t.accept record next) past record (.ok ()) := by
  obtain ⟨hid, hsid, _, hout, hfull⟩ := h.written hstate hpayload (record.line s.id)
  rw [hevents] at hid hout hfull
  have hfull := hfull rfl
  rw [hsid, ← eventOutput_append, ← hid] at hout hfull
  exact ⟨⟨hout.accept, fun _ ↦ hfull.accept⟩, Or.inl hfull.accept.wire, fun _ h ↦ (by cases h)⟩

theorem Sound.record_valid (h : r.Sound past) (hvalidate : r.validate record = .ok next) :
    r.Recorded (r.record record).1 past record (r.record record).2 := by
  have hstate : r.state ≠ .failed := by
    intro hfailed
    simp [validate_failed hfailed] at hvalidate
  rcases hpayload : r.writePayload record.kind with ⟨s, stage, e | ⟨⟩⟩
  · rw [Recording.record_payloadFailed hvalidate hpayload]
    exact h.record_payloadFailed hstate hvalidate hpayload
  · rcases hevents : s.writeEvents (record.line s.id) with ⟨t, e | ⟨⟩⟩
    · rw [Recording.record_eventsFailed hvalidate hpayload hevents]
      exact h.record_eventsFailed hstate hvalidate hpayload hevents
    · rw [Recording.record_accepted hvalidate hpayload hevents]
      exact h.record_accepted hstate hpayload hevents

end Calls

/-! ## Sequences of calls -/

/-- The recorder touches nothing any more: every later call reports the failure
with the same summary. -/
def Absorbs (r : Recording) : Prop :=
  (∀ records, r.run records = r ∧ ∀ result ∈ r.results records,
    result = .error ⟨.validate, .invalid .afterFailure, r.summary⟩) ∧
    r.finish = (r, .error ⟨.validate, .invalid .afterFailure, r.summary⟩)

theorem record_failed (h : r.state = .failed) (record : Record) :
    r.record record = (r, .error ⟨.validate, .invalid .afterFailure, r.summary⟩) := by
  have hself : { r with state := .failed } = r := by
    cases r
    simp_all
  rw [record_refused (validate_failed h record), hself]

theorem absorbs_of_failed (h : r.state = .failed) : r.Absorbs := by
  refine ⟨fun records ↦ ?_, ?_⟩
  · induction records with
    | nil => exact ⟨rfl, fun _ h ↦ absurd h List.not_mem_nil⟩
    | cons record records ih =>
        simp only [run, results, List.foldl_cons, record_failed h, List.mem_cons] at ih ⊢
        exact ⟨ih.1, fun result hmem ↦ hmem.elim (fun h ↦ h) (ih.2 result)⟩
  · have hself : { r with state := .failed } = r := by
      cases r
      simp_all
    simp [finish, h, invalid, hself]

theorem run_cons (r : Recording) (record : Record) (records : List Record) :
    r.run (record :: records) = (r.record record).1.run records := rfl

theorem Sound.run (h : r.Sound past) (records : List Record) :
    (r.run records).Sound (past ++ r.validated records) := by
  induction records generalizing r past with
  | nil => simpa [Recording.run, validated] using h
  | cons record records ih =>
      rw [run_cons, validated, ← List.append_assoc]
      cases hvalidate : r.validate record with
      | ok next => exact ih (h.record_valid hvalidate).sound
      | error v =>
          have hnext : (r.record record).1.Sound past := by
            rw [record_refused hvalidate]
            exact Sound.failed h.outputs
          simpa using ih hnext

/-- The raw output is complete, or some call failed while writing it. -/
theorem Sound.run_wire (h : r.Sound past)
    (hwire : r.summary.wireBytes = (wireOutput past).length) (records : List Record) :
    (r.run records).summary.wireBytes = (wireOutput (past ++ r.validated records)).length ∨
      ∃ e, .error e ∈ r.results records ∧ e.stage = .wire := by
  induction records generalizing r past with
  | nil => simpa [Recording.run, validated] using Or.inl hwire
  | cons record records ih =>
      rw [run_cons, validated, ← List.append_assoc]
      have hlater : ∀ {past'}, (r.record record).1.Sound past' →
          (r.record record).1.summary.wireBytes = (wireOutput past').length →
          ((r.record record).1.run records).summary.wireBytes =
              (wireOutput (past' ++ (r.record record).1.validated records)).length ∨
            ∃ e, .error e ∈ r.results (record :: records) ∧ e.stage = .wire := by
        intro past' hsound hcount
        rcases ih hsound hcount with hdone | ⟨e, hmem, hstage⟩
        · exact Or.inl hdone
        · exact Or.inr ⟨e, List.mem_cons_of_mem _ hmem, hstage⟩
      cases hvalidate : r.validate record with
      | ok next =>
          have hrecorded := h.record_valid hvalidate
          rcases hrecorded.wire with hcount | ⟨e, herror, hstage⟩
          · exact hlater hrecorded.sound hcount
          · exact Or.inr ⟨e, by rw [results, herror]; exact List.mem_cons_self, hstage⟩
      | error v =>
          have hnext : (r.record record).1.Sound past := by
            rw [record_refused hvalidate]
            exact Sound.failed h.outputs
          have hcount : (r.record record).1.summary.wireBytes = (wireOutput past).length := by
            rw [record_refused hvalidate]
            exact hwire
          simpa using hlater hnext hcount

theorem record_error (h : r.Sound past) {record : Record} {e : RecordingError}
    (herror : (r.record record).2 = .error e) :
    r.RecordFails record e ∧ e.summary = (r.record record).1.summary ∧
      (r.record record).1.state = .failed := by
  cases hvalidate : r.validate record with
  | ok next => exact (h.record_valid hvalidate).error e herror
  | error v =>
      rw [record_refused hvalidate] at herror ⊢
      cases herror
      exact ⟨.refused hvalidate, rfl, rfl⟩

/-! ## Opening and finishing -/

section Opening

variable (id : ConnectionId) (rate : SampleRate) (wire wave events : List WriteOutcome)
  (seekError wireFlush waveFlush eventsFlush : Option IoError)

/-- A recorder over three empty writers at position zero, with its result. -/
def opened : Recording × Except RecordingError Unit :=
  withSampleRate id rate (.fresh wire none wireFlush) (.fresh wave seekError waveFlush)
    (.fresh events none eventsFlush)

theorem writeHeader_outputs {r : Recording} (hwire : r.wire.Holds [] [] 0)
    (hwave : r.wave.Holds [] [] 0) (hevents : r.events.Holds [] [] 0)
    (hsummary : r.summary = .default) :
    let written := r.writeHeader (headerContent 0 r.sampleRate)
    written.1.Outputs [] [] [] ∧ (written.2 = .ok () → written.1.Full [] [] []) := by
  obtain ⟨⟨hend, hcontent, hle⟩, hall⟩ := hwave.write rfl (headerContent 0 r.sampleRate)
  rw [List.nil_append] at hle hall
  unfold writeHeader
  rw [hsummary]
  have hwhole : (r.wave.after (writeCount r.wave (headerContent 0 r.sampleRate) 0)).sink.content =
      (headerContent 0 r.sampleRate).take
        (writeCount r.wave (headerContent 0 r.sampleRate) 0).count ++ [].take 0 := by
    rw [hcontent, List.take_nil, List.append_nil, List.nil_append, List.nil_append]
  rw [headerContent_length] at hle hall
  exact ⟨⟨hwire, ⟨hend, hwhole, le_rfl⟩, hevents, hle, rfl⟩,
    fun hok ↦ ⟨rfl, rfl, rfl, hall hok⟩⟩

theorem opened_sound :
    let r := opened id rate wire wave events seekError wireFlush waveFlush eventsFlush
    r.1.Sound [] ∧ r.1.sampleRate = rate ∧ r.1.id = id ∧
      (r.2 = .ok () → r.1.state = .awaitingConnection) ∧
      ∀ e, r.2 = .error e → e.stage = .header ∧ e.summary = r.1.summary ∧ r.1.state = .failed := by
  intro r
  have hfresh : ∀ script seek flush, (Writer.fresh script seek flush).Holds [] [] 0 :=
    fun _ _ _ ↦ ⟨rfl, rfl, le_rfl⟩
  obtain ⟨hout, hfull⟩ := writeHeader_outputs (r := blank id rate (.fresh wire none wireFlush)
    (.fresh wave seekError waveFlush) (.fresh events none eventsFlush)) (hfresh _ _ _)
    (hfresh _ _ _) (hfresh _ _ _) rfl
  have hheader : waveHeader 0 rate = .ok (headerContent 0 rate) := rfl
  have hkeeps : ∀ (s : Recording) header, (s.writeHeader header).1.sampleRate = s.sampleRate ∧
      (s.writeHeader header).1.id = s.id ∧ (s.writeHeader header).1.state = s.state :=
    fun _ _ ↦ ⟨rfl, rfl, rfl⟩
  obtain ⟨hrate, hid, hstate⟩ := hkeeps (blank id rate (.fresh wire none wireFlush)
    (.fresh wave seekError waveFlush) (.fresh events none eventsFlush)) (headerContent 0 rate)
  have hrate' : (blank id rate (.fresh wire none wireFlush) (.fresh wave seekError waveFlush)
    (.fresh events none eventsFlush)).sampleRate = rate := rfl
  rw [hrate'] at hout hfull
  rcases hwritten : (blank id rate (.fresh wire none wireFlush) (.fresh wave seekError waveFlush)
    (.fresh events none eventsFlush)).writeHeader (headerContent 0 rate) with ⟨s, e | ⟨⟩⟩
  · have hopened : r = s.outputFailed .header e := by
      simp only [r, opened, withSampleRate, hheader, hwritten]
    rw [hopened]
    rw [hwritten] at hout hrate hid
    refine ⟨Sound.failed hout, hrate, hid, fun h ↦ (by cases h), ?_⟩
    rintro _ ⟨⟩
    exact ⟨rfl, rfl, rfl⟩
  · have hopened : r = (s, .ok ()) := by
      simp only [r, opened, withSampleRate, hheader, hwritten]
    rw [hopened]
    rw [hwritten] at hout hfull hrate hid hstate
    exact ⟨⟨hout, fun _ ↦ hfull rfl⟩, hrate, hid, fun _ ↦ hstate, fun _ h ↦ (by cases h)⟩

end Opening

/-! ## Finishing -/

/-- Where a `finish` call can fail, and with which counts. -/
inductive FinishFails (r : Recording) : RecordingError → Prop
  | after (hstate : r.state = .failed) :
      FinishFails r ⟨.validate, .invalid .afterFailure, r.summary⟩
  | size {v : RecordingViolation}
      (hsize : waveHeader r.summary.audioBytes r.sampleRate = .error v) :
      FinishFails r ⟨.validate, .invalid v, r.summary⟩
  | seek {e : IoError} (hseek : r.wave.seekError = some e) :
      FinishFails r ⟨.seek, .io e, r.summary⟩
  | patch {s : Recording} {header : List UInt8} {e : IoError}
      (hwrite : r.rewound.writePatch header = (s, .error e)) :
      FinishFails r ⟨.patch, .io e, s.summary⟩
  | flush {s : Recording} {header : List UInt8} {stage : RecordingStage} {e : IoError}
      (hwrite : r.rewound.writePatch header = (s, .ok ())) (hflush : s.flush = some (stage, e)) :
      FinishFails r ⟨stage, .io e, s.summary⟩

/-- What a `finish` call leaves behind: only the header is overwritten. -/
structure Finished (r s : Recording) (result : Except RecordingError RecordingSummary) :
    Prop where
  wire : s.wire = r.wire
  events : s.events = r.events
  summary : s.summary = { r.summary with patchBytes := s.summary.patchBytes }
  patch_le : s.summary.patchBytes ≤ 44
  wave : s.wave.sink.content =
    (headerContent r.summary.audioBytes r.sampleRate).take s.summary.patchBytes ++
      r.wave.sink.content.drop s.summary.patchBytes
  ok : ∀ summary, result = .ok summary → summary = s.summary ∧ summary.patchBytes = 44
  error : ∀ e, result = .error e → r.FinishFails e ∧ e.summary = s.summary ∧ s.state = .failed

theorem finished_untouched (hpatch : r.summary.patchBytes = 0) {e : RecordingError}
    (herror : r.FinishFails e) (hsummary : e.summary = r.summary) :
    r.Finished { r with state := .failed } (.error e) := by
  refine ⟨rfl, rfl, rfl, by simp [hpatch], by simp [hpatch], fun _ h ↦ (by cases h), ?_⟩
  rintro _ ⟨⟩
  exact ⟨herror, hsummary, rfl⟩

theorem writePatch_finished (hpatch : r.summary.patchBytes = 0) {header : List UInt8}
    (hlength : header.length = 44) :
    let written := r.rewound.writePatch header
    written.1.wire = r.wire ∧ written.1.events = r.events ∧
      written.1.summary = { r.summary with patchBytes := written.1.summary.patchBytes } ∧
      written.1.summary.patchBytes ≤ 44 ∧
      written.1.wave.sink.content = header.take written.1.summary.patchBytes ++
        r.wave.sink.content.drop written.1.summary.patchBytes ∧
      (written.2 = .ok () → written.1.summary.patchBytes = 44) := by
  obtain ⟨accepted, hpre, hsink, hcount, hall⟩ :=
    writeCount_puts r.rewound.wave header r.summary.patchBytes (Nat.zero_le _)
  have hcounted : (r.rewound.writePatch header).1.summary.patchBytes = accepted.length := by
    rw [hpatch, Nat.zero_add] at hcount
    rw [← hcount, ← hpatch]
    rfl
  have hcontent : (r.rewound.writePatch header).1.wave.sink.content =
      accepted ++ r.wave.sink.content.drop accepted.length := by
    calc (r.rewound.writePatch header).1.wave.sink.content
        = (writeCount r.rewound.wave header r.summary.patchBytes).sink.content := rfl
      _ = (r.rewound.wave.sink.put accepted).content := by rw [hsink]
      _ = accepted ++ r.wave.sink.content.drop accepted.length := by simp [Sink.put, rewound]
  refine ⟨rfl, rfl, rfl, ?_, ?_, ?_⟩
  · rw [hcounted, ← hlength]
    exact hpre.length_le
  · rw [hcounted, hcontent, ← List.prefix_iff_eq_take.mp hpre]
  · intro hok
    rw [hcounted, hall hok, hlength]

theorem conclude_finished {s : Recording} {header : List UInt8}
    {result : Except IoError Unit}
    (hheader : header = headerContent r.summary.audioBytes r.sampleRate)
    (hpatch : r.summary.patchBytes = 0) (hwrite : r.rewound.writePatch header = (s, result)) :
    r.Finished (s.conclude result).1 (s.conclude result).2 := by
  have hlength : header.length = 44 := by
    rw [hheader, headerContent_length]
  obtain ⟨hwire, hevents, hsummary, hle, hwave, hfull⟩ := writePatch_finished hpatch hlength
  rw [hwrite] at hwire hevents hsummary hle hwave hfull
  rw [hheader] at hwave
  dsimp only at hwire hevents hsummary hle hwave hfull
  rcases result with e | ⟨⟩
  · refine ⟨hwire, hevents, hsummary, hle, hwave, fun _ h ↦ (by cases h), ?_⟩
    rintro _ ⟨⟩
    exact ⟨.patch hwrite, rfl, rfl⟩
  · rcases hflush : s.flush with _ | ⟨stage, e⟩
    · have hconclude : s.conclude (.ok ()) = (s, .ok s.summary) := by
        simp only [conclude, hflush]
      rw [hconclude]
      refine ⟨hwire, hevents, hsummary, hle, hwave, ?_, fun _ h ↦ (by cases h)⟩
      rintro _ ⟨⟩
      exact ⟨rfl, hfull rfl⟩
    · have hconclude : s.conclude (.ok ()) =
          ({ s with state := .failed }, .error ⟨stage, .io e, s.summary⟩) := by
        simp only [conclude, hflush]
        rfl
      rw [hconclude]
      refine ⟨hwire, hevents, hsummary, hle, hwave, fun _ h ↦ (by cases h), ?_⟩
      rintro _ ⟨⟩
      exact ⟨.flush hwrite hflush, rfl, rfl⟩

theorem finish_finished (hpatch : r.summary.patchBytes = 0) :
    r.Finished r.finish.1 r.finish.2 := by
  by_cases hstate : r.state = .failed
  · have hself : { r with state := .failed } = r := by
      cases r
      simp_all
    rw [(absorbs_of_failed hstate).2]
    have h := finished_untouched hpatch (.after hstate) rfl
    rw [hself] at h
    exact h
  cases hsize : waveHeader r.summary.audioBytes r.sampleRate with
  | error v =>
      simp only [finish, hstate, hsize, if_false]
      exact finished_untouched hpatch (.size hsize) rfl
  | ok header =>
      have hheader : header = headerContent r.summary.audioBytes r.sampleRate := by
        unfold waveHeader at hsize
        split_ifs at hsize
        exact (Except.ok.inj hsize).symm
      cases hseek : r.wave.seekError with
      | some e =>
          simp only [finish, hstate, hsize, hseek, if_false]
          exact finished_untouched hpatch (.seek hseek) rfl
      | none =>
          simp only [finish, hstate, hsize, hseek, if_false]
          exact conclude_finished hheader hpatch rfl

/-! ## Whole recordings -/

/-- The counters are the lengths of what the writers hold, and what they hold is
a beginning of what the validated records should have produced. -/
structure Reports (r : Recording) (past : List Record) : Prop where
  wire : r.wire.sink.content.length = r.summary.wireBytes
  wire_prefix : r.wire.sink.content <+: wireOutput past
  events : r.events.sink.content.length = r.summary.eventBytes
  events_prefix : r.events.sink.content <+: eventOutput r.id past
  wave : r.wave.sink.content = (headerContent 0 r.sampleRate).take r.summary.headerBytes ++
    (audioOutput past).take r.summary.audioBytes
  header_le : r.summary.headerBytes ≤ 44
  audio_le : r.summary.audioBytes ≤ (audioOutput past).length
  patch : r.summary.patchBytes = 0

theorem Sound.reports (h : r.Sound past) : r.Reports past := by
  obtain ⟨⟨hwire, ⟨_, hwave, haudio⟩, hevents, hheader, hpatch⟩, _⟩ := h
  exact ⟨hwire.length_eq, hwire.isPrefix, hevents.length_eq, hevents.isPrefix, hwave, hheader,
    haudio, hpatch⟩

theorem Sound.wire_whole (h : r.Sound past)
    (hcount : r.summary.wireBytes = (wireOutput past).length) :
    r.wire.sink.content = wireOutput past :=
  h.reports.wire_prefix.eq_of_length (h.reports.wire.trans hcount)

/-- For every script of the three writers and every sequence of records, a
recorder reports what its writers accepted: its counters are the lengths of its
outputs, the raw output is complete up to a write that failed, a refused record
touches nothing, an error names its stage and carries the counts, and after an
error nothing is touched any more. -/
theorem opened_run_reports (id : ConnectionId) (rate : SampleRate)
    (wire wave events : List WriteOutcome)
    (seekError wireFlush waveFlush eventsFlush : Option IoError) (records : List Record) :
    let start := opened id rate wire wave events seekError wireFlush waveFlush eventsFlush
    let r := start.1.run records
    let past := start.1.validated records
    r.Reports past ∧
      (r.wire.sink.content = wireOutput past ∨
        ∃ e, .error e ∈ start.1.results records ∧ e.stage = .wire) ∧
      (∀ e, start.2 = .error e →
        e.stage = .header ∧ e.summary = start.1.summary ∧ start.1.Absorbs) ∧
      (∀ record v, r.validate record = .error v →
        r.record record =
          ({ r with state := .failed }, .error ⟨.validate, .invalid v, r.summary⟩)) ∧
      (∀ record e, (r.record record).2 = .error e →
        r.RecordFails record e ∧ e.summary = (r.record record).1.summary ∧
          (r.record record).1.Absorbs) ∧
      r.Finished r.finish.1 r.finish.2 := by
  intro start r past
  obtain ⟨hstart, _, _, hok, hfailed⟩ :=
    opened_sound id rate wire wave events seekError wireFlush waveFlush eventsFlush
  have hsound : r.Sound past := by
    simpa [past] using hstart.run records
  have hempty : start.1.summary.wireBytes = (wireOutput []).length :=
    Nat.le_zero.mp hstart.outputs.wire.2.2
  refine ⟨hsound.reports, ?_, ?_, ?_, ?_, finish_finished hsound.outputs.patch⟩
  · rcases hstart.run_wire hempty records with hcount | herror
    · exact Or.inl (hsound.wire_whole (by simpa using hcount))
    · exact Or.inr herror
  · intro e herror
    obtain ⟨hstage, hsummary, hstate⟩ := hfailed e herror
    exact ⟨hstage, hsummary, absorbs_of_failed hstate⟩
  · intro record v hvalidate
    exact record_refused hvalidate
  · intro record e herror
    obtain ⟨hfails, hsummary, hstate⟩ := record_error hsound herror
    exact ⟨hfails, hsummary, absorbs_of_failed hstate⟩

end Recording

end Phonowire.Receiver
