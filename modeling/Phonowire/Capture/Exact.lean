import Phonowire.Capture.Run
import Phonowire.Receiver.RecordingExact

/-!
# What a recorder leaves in its directory

A recorder over limited files that has accepted a sequence of records and is
finished without an error leaves exactly the outputs of that sequence, and a
summary that these records determine.
-/

namespace Phonowire.Capture

open Receiver AudioSocket

/-- The end that the recorder of `records` has observed. -/
def closing (records : List Record) : RecordingEnd :=
  records.foldl (fun ending record ↦
    match record.kind with
    | .ended _ reason => .observed reason.terminalKind
    | _ => ending) .incomplete

/-- The summary of a whole recording. -/
def wholeSummary (id : ConnectionId) (records : List Record) : RecordingSummary where
  wireBytes := (wireOutput records).length
  audioBytes := (audioOutput records).length
  eventBytes := (eventOutput id records).length
  headerBytes := 44
  patchBytes := 44
  ending := closing records

/-- The directory of a whole recording that is summarized as `observed`. -/
def wholeDirectory (id : ConnectionId) (records : List Record) : Directory where
  wire := some (wireOutput records)
  wave := some (headerContent (audioOutput records).length .khz8 ++ audioOutput records)
  events := some (eventOutput id records)
  summary := some (utf8 (jsonSummary id "observed" (wholeSummary id records) none))

/-- A recorder that accepted `past`. -/
structure Took (id : ConnectionId) (past : List Record) (r : Recording) : Prop where
  sound : r.Sound past
  id : r.id = id
  rate : r.sampleRate = .khz8
  live : r.state ≠ .failed
  ending : r.summary.ending = closing past

section Recorder

variable {cap : ℕ} {id : ConnectionId} {past : List Record} {r s : Recording} {record : Record}

theorem closing_append (past : List Record) (record : Record) :
    closing (past ++ [record]) =
      match record.kind with
      | .ended _ reason => .observed reason.terminalKind
      | _ => closing past := by
  unfold closing
  rw [List.foldl_append]
  rfl

theorem took_open {wire wave events : Writer} (hwire : wire.sink = .empty)
    (hwave : wave.sink = .empty) (hevents : events.sink = .empty)
    (hok : openWithin cap id wire wave events = (r, .ok ())) : Took id [] r := by
  have hfresh {w : Writer} (hw : w.sink = .empty) : w.Holds [] [] 0 := by
    unfold Writer.Holds
    rw [hw]
    exact ⟨rfl, rfl, le_rfl⟩
  have hrefused : (refuse cap wave (headerContent 0 .khz8)).sink = .empty := hwave
  obtain ⟨hout, hfull⟩ := Recording.writeHeader_outputs
    (r := .blank id .khz8 wire (refuse cap wave (headerContent 0 .khz8)) events)
    (hfresh hwire) (hfresh hrefused) (hfresh hevents) rfl
  have hheader : waveHeader 0 .khz8 = .ok (headerContent 0 .khz8) := rfl
  unfold openWithin at hok
  simp only [Recording.withSampleRate, hheader] at hok
  have hkeeps : ∀ (t : Recording) header, (t.writeHeader header).1.id = t.id ∧
      (t.writeHeader header).1.sampleRate = t.sampleRate ∧
      (t.writeHeader header).1.state = t.state ∧
      (t.writeHeader header).1.summary.ending = t.summary.ending :=
    fun _ _ ↦ ⟨rfl, rfl, rfl, rfl⟩
  obtain ⟨hid, hrate, hstate, hending⟩ := hkeeps
    (.blank id .khz8 wire (refuse cap wave (headerContent 0 .khz8)) events) (headerContent 0 .khz8)
  rcases hwritten : (Recording.blank id .khz8 wire (refuse cap wave (headerContent 0 .khz8))
    events).writeHeader (headerContent 0 .khz8) with ⟨t, e | ⟨⟩⟩
  · rw [hwritten] at hok
    cases hok
  · have hrate' : (Recording.blank id .khz8 wire (refuse cap wave (headerContent 0 .khz8))
        events).sampleRate = .khz8 := rfl
    rw [hrate', hwritten] at hout hfull
    rw [hwritten] at hok hid hrate hstate hending
    cases hok
    refine ⟨⟨hout, fun _ ↦ hfull rfl⟩, hid, hrate, ?_, hending⟩
    rw [hstate]
    rintro ⟨⟩

/-- Scripts do not matter for what was written. -/
theorem sound_refuse (cap : ℕ) (h : r.Sound past) (wire wave events : List UInt8) :
    Recording.Sound { r with
      wire := refuse cap r.wire wire
      wave := refuse cap r.wave wave
      events := refuse cap r.events events } past :=
  ⟨⟨h.outputs.wire, h.outputs.wave, h.outputs.events, h.outputs.header_le, h.outputs.patch⟩,
    fun hne ↦ ⟨(h.full hne).wire, (h.full hne).audio, (h.full hne).events, (h.full hne).header⟩⟩

theorem validate_ne_failed {next : RecordingState} (h : r.validate record = .ok next) :
    next ≠ .failed := by
  unfold Recording.validate at h
  split_ifs at h with hfailed
  rintro rfl
  unfold Recording.validateKind at h
  cases hkind : record.kind with
  | audio uuid rate bytes =>
      rw [hkind] at h
      dsimp only at h
      split_ifs at h
      split at h
      · cases h
      · rename_i next _
        cases hheader : waveHeader next r.sampleRate with
        | error v =>
            rw [hheader] at h
            cases h
        | ok header =>
            rw [hheader] at h
            exact hfailed (Except.ok.inj h)
  | wire bytes =>
      rw [hkind] at h
      dsimp only at h
      split_ifs at h
      exact hfailed (Except.ok.inj h)
  | dtmf uuid digit =>
      rw [hkind] at h
      dsimp only at h
      split_ifs at h
      exact hfailed (Except.ok.inj h)
  | _ =>
      rw [hkind] at h
      dsimp only at h
      split_ifs at h
      cases h

theorem Took.accept (h : Took id past r) (hok : recordWithin cap r record = (s, .ok ())) :
    Took id (past ++ [record]) s := by
  have hsound := sound_refuse cap h.sound record.wireBytes record.audioBytes
    (record.line r.id)
  unfold recordWithin at hok
  revert hok hsound
  generalize hrefused : ({ r with
    wire := refuse cap r.wire record.wireBytes
    wave := refuse cap r.wave record.audioBytes
    events := refuse cap r.events (record.line r.id) } : Recording) = t
  intro hok hsound
  have hid : t.id = id := by rw [← hrefused, ← h.id]
  have hrate : t.sampleRate = .khz8 := by rw [← hrefused, ← h.rate]
  have hlive : t.state ≠ .failed := by rw [← hrefused]; exact h.live
  have hending : t.summary.ending = closing past := by rw [← hrefused, ← h.ending]
  cases hvalidate : t.validate record with
  | error v =>
      rw [Recording.record_refused hvalidate] at hok
      cases hok
  | ok next =>
      rcases hpayload : t.writePayload record.kind with ⟨u, stage, e | ⟨⟩⟩
      · rw [Recording.record_payloadFailed hvalidate hpayload] at hok
        cases hok
      · rcases hevents : u.writeEvents (record.line u.id) with ⟨x, e | ⟨⟩⟩
        · rw [Recording.record_eventsFailed hvalidate hpayload hevents] at hok
          cases hok
        · have hrecorded : t.Recorded (x.accept record next) past record (.ok ()) :=
            hsound.record_accepted hlive hpayload hevents
          rw [Recording.record_accepted hvalidate hpayload hevents] at hok
          cases hok
          have hu : u = (t.writePayload record.kind).1 := by rw [hpayload]
          have hx : x = (u.writeEvents (record.line u.id)).1 := by rw [hevents]
          have hpart : u.id = t.id ∧ u.sampleRate = t.sampleRate ∧
              u.summary.ending = t.summary.ending := by
            rw [hu]
            cases record.kind <;> exact ⟨rfl, rfl, rfl⟩
          have hwhole : x.id = u.id ∧ x.sampleRate = u.sampleRate ∧
              x.summary.ending = u.summary.ending := by
            rw [hx]
            exact ⟨rfl, rfl, rfl⟩
          refine ⟨hrecorded.sound, ?_, ?_, validate_ne_failed hvalidate, ?_⟩
          · exact hwhole.1.trans (hpart.1.trans hid)
          · exact hwhole.2.1.trans (hpart.2.1.trans hrate)
          · have hbefore := hwhole.2.2.trans (hpart.2.2.trans hending)
            rw [closing_append]
            unfold Recording.accept
            cases record.kind <;> first | exact hbefore | rfl

/-- A finished recording is the one that its records determine. -/
theorem Took.finish {summary : RecordingSummary} (h : Took id past r)
    (hok : finishWithin cap r = (s, .ok summary)) :
    summary = wholeSummary id past ∧ s.wire.sink.content = wireOutput past ∧
      s.wave.sink.content =
        headerContent (audioOutput past).length .khz8 ++ audioOutput past ∧
      s.events.sink.content = eventOutput id past := by
  have hout := h.sound.outputs
  have hfull := h.sound.full h.live
  rw [h.id] at hout hfull
  have hpatch : (refusePatch cap r).summary.patchBytes = 0 := hout.patch
  have hfinished := Recording.finish_finished hpatch
  unfold finishWithin at hok
  rw [hok] at hfinished
  obtain ⟨hsummary, hpatched⟩ := hfinished.ok summary rfl
  rw [hsummary] at hpatched
  have hwire : s.wire.sink = r.wire.sink := by rw [hfinished.wire, refusePatch]
  have hevents : s.events.sink = r.events.sink := by rw [hfinished.events, refusePatch]
  have hwave := hfinished.wave
  have hsame := hfinished.summary
  simp only [refusePatch] at hwave hsame
  refine ⟨?_, ?_, ?_, ?_⟩
  · rw [hsummary, hsame, hpatched, wholeSummary, hfull.wire, hfull.audio, hfull.events,
      hfull.header, h.ending]
  · rw [hwire, hout.wire.2.1, List.nil_append, hfull.wire, List.take_length]
  · rw [hwave, hpatched, hfull.audio, h.rate, hout.wave.2.1, hfull.header, hfull.audio,
      List.take_length, h.rate, List.take_of_length_le (headerContent_length _ _).le,
      List.take_of_length_le (headerContent_length _ _).le,
      List.drop_left' (headerContent_length 0 .khz8)]
  · rw [hevents, hout.events.2.1, List.nil_append, hfull.events, List.take_length]

end Recorder

/-- A counted write without an error puts all bytes. -/
theorem limitedLoop_ok {cap count : ℕ} {script : List WriteOutcome} {bytes : List UInt8}
    (h : (limitedLoop cap script .empty bytes count).result = .ok ()) :
    (limitedLoop cap script .empty bytes count).sink.content = bytes := by
  rw [limitedLoop_eq] at h ⊢
  obtain ⟨accepted, _, hsink, _, hall⟩ := writeLoop_puts
    (refusing cap Sink.empty.position bytes script) .empty bytes count (Nat.zero_le _)
  rw [hsink, hall h]
  simp [Sink.put, Sink.empty]

/-- `write_json` succeeds only on a new file, which then holds the whole text. -/
theorem writeJson_ok {cap : ℕ} {existing content : Option (List UInt8)} {created : Created}
    {text : String} (h : writeJson cap existing created text = (content, true)) :
    content = some (utf8 text) := by
  unfold writeJson at h
  cases existing with
  | some before => cases h
  | none =>
      cases created with
      | error e => cases h
      | ok b =>
          dsimp only at h
          revert h
          generalize hwritten : limitedLoop cap b.script .empty (utf8 text) 0 = written
          intro h
          simp only [Prod.mk.injEq, Bool.and_eq_true] at h
          obtain ⟨hcontent, hok, _⟩ := h
          have hresult : written.result = .ok () := by
            cases hresult : written.result with
            | ok _ => rfl
            | error e =>
                rw [hresult] at hok
                cases hok
          rw [← hwritten] at hresult
          rw [← hcontent, ← hwritten, limitedLoop_ok hresult]

end Phonowire.Capture
