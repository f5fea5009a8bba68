import Phonowire.Capture.Handling

/-!
# What is on the disk

Whatever the system answers, every file of a connection directory holds a
beginning of what the records of this connection should have produced, and a
summary that was written counts exactly the bytes that are beside it.
-/

namespace Phonowire.Capture

open Receiver AudioSocket

/-! ## A recording that broke off -/

/-- The files hold a beginning of the outputs of `past`, as long as `s` counts. -/
structure Directory.Begun (id : ConnectionId) (past : List Record) (s : RecordingSummary)
    (d : Directory) : Prop where
  wire : d.wire.getD [] <+: wireOutput past
  wire_count : size d.wire = s.wireBytes
  wave : (d.wave.getD []).drop 44 <+: audioOutput past
  wave_count : size d.wave = s.headerBytes + s.audioBytes
  events : d.events.getD [] <+: eventOutput id past
  events_count : size d.events = s.eventBytes

theorem wireOutput_prefix (past more : List Record) : wireOutput past <+: wireOutput (past ++ more) :=
  ⟨wireOutput more, by simp [wireOutput]⟩

theorem audioOutput_prefix (past more : List Record) :
    audioOutput past <+: audioOutput (past ++ more) :=
  ⟨audioOutput more, by simp [audioOutput]⟩

theorem eventOutput_prefix (id : ConnectionId) (past more : List Record) :
    eventOutput id past <+: eventOutput id (past ++ more) :=
  ⟨eventOutput id more, by simp [eventOutput]⟩

section Recorder

variable {cap : ℕ} {id : ConnectionId} {past more : List Record} {r s : Recording}
  {record : Record} {e : RecordingError} {d : Directory} {summary : RecordingSummary}

theorem Directory.Begun.append (h : d.Begun id past summary) (more : List Record) :
    d.Begun id (past ++ more) summary where
  wire := h.wire.trans <| wireOutput_prefix past more
  wire_count := h.wire_count
  wave := h.wave.trans <| audioOutput_prefix past more
  wave_count := h.wave_count
  events := h.events.trans <| eventOutput_prefix id past more
  events_count := h.events_count

theorem Directory.Begun.congr {d' : Directory} (h : d.Begun id past summary)
    (hwire : d'.wire = d.wire) (hwave : d'.wave = d.wave) (hevents : d'.events = d.events) :
    d'.Begun id past summary where
  wire := hwire ▸ h.wire
  wire_count := hwire ▸ h.wire_count
  wave := hwave ▸ h.wave
  wave_count := hwave ▸ h.wave_count
  events := hevents ▸ h.events
  events_count := hevents ▸ h.events_count

/-- The files of a recorder whose header is whole, or whose audio is empty. -/
theorem begun_of_sound (h : r.Sound past) (hid : r.id = id)
    (hheader : r.summary.headerBytes = 44 ∨ audioOutput past = []) (d : Directory) :
    (d.keep r).Begun id past r.summary := by
  have hreports := h.reports
  have hwave := hreports.wave
  have hlength : ((headerContent 0 r.sampleRate).take r.summary.headerBytes).length =
      r.summary.headerBytes := by
    rw [List.length_take, headerContent_length]
    exact Nat.min_eq_left hreports.header_le
  have hevents := hreports.events_prefix
  rw [hid] at hevents
  refine ⟨ hreports.wire_prefix, hreports.wire, ?_, ?_, hevents, hreports.events⟩
  · have hdrop : r.wave.sink.content.drop 44 <+: audioOutput past := by
      rw [hwave]
      rcases hheader with hwhole | hempty
      · rw [List.drop_left' (hlength.trans hwhole)]
        exact List.take_prefix _ _
      · have hle := hreports.header_le
        rw [hempty, List.take_nil, List.append_nil, List.drop_of_length_le (hlength.trans_le hle)]
    exact hdrop
  · have hsize : r.wave.sink.content.length = r.summary.headerBytes + r.summary.audioBytes := by
      rw [hwave, List.length_append, hlength, List.length_take,
        Nat.min_eq_left hreports.audio_le]
    exact hsize

theorem Took.whole (h : Took id past r) : r.Full (wireOutput past) (audioOutput past)
    (eventOutput id past) := by
  have hfull := h.sound.full h.live
  rwa [h.id] at hfull

theorem writePayload_header (r : Recording) (kind : RecordKind) :
    (r.writePayload kind).1.summary.headerBytes = r.summary.headerBytes := by
  cases kind <;> rfl

theorem writeEvents_header (r : Recording) (line : List UInt8) :
    (r.writeEvents line).1.summary.headerBytes = r.summary.headerBytes := rfl

/-- A call that fails leaves a beginning of its record behind. -/
theorem Took.broken (h : Took id past r) (hrecord : recordWithin cap r record = (s, .error e))
    (d : Directory) : (d.keep s).Begun id (past ++ [record]) e.summary := by
  have hsound := sound_refuse cap h.sound record.wireBytes record.audioBytes (record.line r.id)
  have hheader := h.whole.header
  unfold recordWithin at hrecord
  revert hrecord hsound
  generalize hrefused : ({ r with
    wire := refuse cap r.wire record.wireBytes
    wave := refuse cap r.wave record.audioBytes
    events := refuse cap r.events (record.line r.id) } : Recording) = t
  intro hrecord hsound
  have hid : t.id = id := by rw [← hrefused, ← h.id]
  have hlive : t.state ≠ .failed := by rw [← hrefused]; exact h.live
  have hkept : t.summary.headerBytes = 44 := by rw [← hrefused, ← hheader]
  cases hvalidate : t.validate record with
  | error v =>
      rw [Recording.record_refused hvalidate] at hrecord
      cases hrecord
      have hfailed : Recording.Sound { t with state := .failed } past :=
        Recording.Sound.failed hsound.outputs
      exact (begun_of_sound hfailed hid (.inl hkept) d).append [record]
  | ok next =>
      have hrecorded := hsound.record_valid hvalidate
      rw [hrecord] at hrecorded
      obtain ⟨_, hsummary, _⟩ := hrecorded.error e rfl
      have hsame : s.id = id ∧ s.summary.headerBytes = 44 := by
        have hpayload := writePayload_header t record.kind
        obtain ⟨hpid, _⟩ := Recording.writePayload_id t record.kind
        rcases hwrite : t.writePayload record.kind with ⟨u, stage, x | ⟨⟩⟩
        · rw [hwrite] at hpayload hpid
          rw [Recording.record_payloadFailed hvalidate hwrite] at hrecord
          cases hrecord
          exact ⟨hpid.trans hid, hpayload.trans hkept⟩
        · rw [hwrite] at hpayload hpid
          have hevents := writeEvents_header u (record.line u.id)
          have heid := (Recording.writeEvents_keeps u (record.line u.id)).1
          rcases hline : u.writeEvents (record.line u.id) with ⟨x, y | ⟨⟩⟩
          · rw [hline] at hevents heid
            rw [Recording.record_eventsFailed hvalidate hwrite hline] at hrecord
            cases hrecord
            exact ⟨heid.trans (hpid.trans hid), hevents.trans (hpayload.trans hkept)⟩
          · rw [Recording.record_accepted hvalidate hwrite hline] at hrecord
            cases hrecord
      rw [hsummary]
      exact begun_of_sound hrecorded.sound hsame.1 (.inl hsame.2) d

/-- An end that fails leaves the outputs as they were, and a beginning of the
final header over the first one. -/
theorem Took.unfinished (h : Took id past r) (hfinish : finishWithin cap r = (s, .error e))
    (d : Directory) : (d.keep s).Begun id past e.summary := by
  have hpatch : (refusePatch cap r).summary.patchBytes = 0 := h.sound.outputs.patch
  have hfinished := Recording.finish_finished hpatch
  unfold finishWithin at hfinish
  rw [hfinish] at hfinished
  obtain ⟨_, hsummary, _⟩ := hfinished.error e rfl
  have hbefore := begun_of_sound h.sound h.id (.inl h.whole.header) d
  have hwire : s.wire.sink = r.wire.sink := by rw [hfinished.wire, refusePatch]
  have hevents : s.events.sink = r.events.sink := by rw [hfinished.events, refusePatch]
  have hwave := hfinished.wave
  have hsame := hfinished.summary
  simp only [refusePatch] at hwave hsame
  have hle : s.summary.patchBytes ≤ 44 := hfinished.patch_le
  have hsize : r.wave.sink.content.length = 44 + r.summary.audioBytes := by
    have hcount := hbefore.wave_count
    rw [h.whole.header] at hcount
    exact hcount
  have hfront : ((headerContent r.summary.audioBytes r.sampleRate).take
      s.summary.patchBytes).length = s.summary.patchBytes := by
    rw [List.length_take, headerContent_length]
    exact Nat.min_eq_left hle
  have hlength : s.wave.sink.content.length = r.wave.sink.content.length := by
    rw [hwave, List.length_append, hfront, List.length_drop]
    omega
  have hdrop : s.wave.sink.content.drop 44 = r.wave.sink.content.drop 44 := by
    rw [hwave, List.drop_append, hfront, List.drop_drop, List.drop_of_length_le (by omega),
      List.nil_append]
    congr 1
    omega
  rw [hsummary, hsame]
  refine ⟨?_, ?_, ?_, ?_, ?_, ?_⟩
  · have hprefix := hbefore.wire
    simp only [Directory.keep, Option.getD_some, hwire] at hprefix ⊢
    exact hprefix
  · have hcount := hbefore.wire_count
    simp only [Directory.keep, hwire] at hcount ⊢
    exact hcount
  · have hprefix := hbefore.wave
    simp only [Directory.keep, Option.getD_some, hdrop] at hprefix ⊢
    exact hprefix
  · exact hlength.trans hbefore.wave_count
  · have hprefix := hbefore.events
    simp only [Directory.keep, Option.getD_some, hevents] at hprefix ⊢
    exact hprefix
  · have hcount := hbefore.events_count
    simp only [Directory.keep, hevents] at hcount ⊢
    exact hcount

/-- A recorder that could not be opened, over files without a record. -/
theorem open_begun {wire wave events : Writer} (hwire : wire.sink = .empty)
    (hwave : wave.sink = .empty) (hevents : events.sink = .empty)
    (hopened : openWithin cap id wire wave events = (r, .error e)) (d : Directory) :
    (d.keep r).Begun id [] e.summary := by
  have hfresh {w : Writer} (hw : w.sink = .empty) : w.Holds [] [] 0 := by
    unfold Writer.Holds
    rw [hw]
    exact ⟨rfl, rfl, le_rfl⟩
  have hrefused : (refuse cap wave (headerContent 0 .khz8)).sink = .empty := hwave
  have hheader : waveHeader 0 .khz8 = .ok (headerContent 0 .khz8) := rfl
  unfold openWithin at hopened
  revert hopened hrefused
  generalize refuse cap wave (headerContent 0 .khz8) = file
  intro hopened hfile
  obtain ⟨hout, _⟩ := Recording.writeHeader_outputs (r := .blank id .khz8 wire file events)
    (hfresh hwire) (hfresh hfile) (hfresh hevents) rfl
  have hblank : (Recording.blank id .khz8 wire file events).sampleRate = .khz8 := rfl
  rw [hblank] at hout
  simp only [Recording.withSampleRate, hheader] at hopened
  rcases hwritten : (Recording.blank id .khz8 wire file events).writeHeader
    (headerContent 0 .khz8) with ⟨t, x | ⟨⟩⟩
  · have hid : t.id = id := by
      have hkept : ((Recording.blank id .khz8 wire file events).writeHeader
        (headerContent 0 .khz8)).1.id = id := rfl
      rwa [hwritten] at hkept
    rw [hwritten] at hout hopened
    cases hopened
    have hsound : Recording.Sound { t with state := .failed } [] := Recording.Sound.failed hout
    exact begun_of_sound hsound hid (.inr rfl) d
  · rw [hwritten] at hopened
    cases hopened

/-- A file is missing, or all three are those of a recorder over empty files. -/
theorem create_cases {io : CreateIo} {result : Except CreateError Recording}
    (hcreate : create cap id io = (d, result)) :
    (result = .error .io ∧ size d.wire = 0 ∧ size d.wave = 0 ∧ size d.events = 0 ∧
        d.summary = none) ∨
      ∃ r opened, d = ({} : Directory).keep r ∧ (∃ wire wave events : Behaviour,
        openWithin cap id wire.file wave.file events.file = (r, opened)) ∧
        result = (opened.mapError CreateError.recording).map fun _ ↦ r := by
  unfold create at hcreate
  rcases hwire : io.wire with y | wire
  · rw [hwire] at hcreate
    cases hcreate
    exact .inl ⟨rfl, rfl, rfl, rfl, rfl⟩
  rcases hwave : io.wave with y | wave
  · rw [hwire, hwave] at hcreate
    cases hcreate
    exact .inl ⟨rfl, rfl, rfl, rfl, rfl⟩
  rcases hevents : io.events with y | events
  · rw [hwire, hwave, hevents] at hcreate
    cases hcreate
    exact .inl ⟨rfl, rfl, rfl, rfl, rfl⟩
  rw [hwire, hwave, hevents] at hcreate
  dsimp only at hcreate
  right
  rcases hopened : openWithin cap id wire.file wave.file events.file with ⟨s, y | ⟨⟩⟩
  · rw [hopened] at hcreate
    cases hcreate
    exact ⟨s, _, rfl, ⟨wire, wave, events, hopened⟩, rfl⟩
  · rw [hopened] at hcreate
    cases hcreate
    exact ⟨s, _, rfl, ⟨wire, wave, events, hopened⟩, rfl⟩

/-- What a failed `create` leaves behind. -/
theorem create_begun {io : CreateIo} {x : CreateError}
    (hcreate : create cap id io = (d, .error x)) :
    d.Begun id [] x.receipt.summary ∧ d.summary = none := by
  have hnil {content : Option (List UInt8)} (h : size content = 0) : content.getD [] = [] := by
    cases content with
    | none => rfl
    | some content => exact List.length_eq_zero_iff.mp h
  rcases create_cases hcreate with ⟨hresult, hwire, hwave, hevents, hsummary⟩ |
    ⟨r, opened, rfl, ⟨wire, wave, events, hopened⟩, hresult⟩
  · cases hresult
    refine ⟨⟨?_, hwire, ?_, hwave, ?_, hevents⟩, hsummary⟩
    · rw [hnil hwire]
      exact List.nil_prefix
    · rw [hnil hwave]
      exact List.nil_prefix
    · rw [hnil hevents]
      exact List.nil_prefix
  · cases opened with
    | ok _ => cases hresult
    | error y =>
        cases hresult
        exact ⟨open_begun rfl rfl rfl hopened {}, rfl⟩

theorem create_files {io : CreateIo} (hcreate : create cap id io = (d, .ok r)) :
    d = ({} : Directory).keep r := by
  rcases create_cases hcreate with ⟨hresult, _⟩ | ⟨s, opened, rfl, _, hresult⟩
  · cases hresult
  · cases opened with
    | error y => cases hresult
    | ok _ =>
        cases hresult
        rfl

end Recorder

/-! ## Summaries -/

/-- `summary.json` holds a beginning of its text, and all of it if `ok`. -/
def Directory.Summed (d : Directory) (text : String) (ok : Bool) : Prop :=
  d.summary.getD [] <+: utf8 text ∧ (ok = true → d.summary = some (utf8 text))

theorem writeJson_prefix {cap : ℕ} {content : Option (List UInt8)} {created : Created}
    {text : String} {ok : Bool} (h : writeJson cap none created text = (content, ok)) :
    content.getD [] <+: utf8 text ∧ (ok = true → content = some (utf8 text)) := by
  refine ⟨?_, fun hok ↦ writeJson_ok (hok ▸ h)⟩
  unfold writeJson at h
  cases created with
  | error e =>
      cases h
      exact List.nil_prefix
  | ok b =>
      cases h
      obtain ⟨accepted, hprefix, hsink, _⟩ := writeLoop_puts
        (refusing cap Sink.empty.position (utf8 text) b.script) .empty (utf8 text) 0 (Nat.zero_le _)
      rw [Option.getD_some, limitedLoop_eq, hsink]
      simpa [Sink.put, Sink.empty] using hprefix

/-- The three files of a whole recording. -/
structure Directory.Whole (id : ConnectionId) (records : List Record) (d : Directory) : Prop where
  wire : d.wire = some (wireOutput records)
  wave : d.wave =
    some (headerContent (audioOutput records).length .khz8 ++ audioOutput records)
  events : d.events = some (eventOutput id records)

theorem Took.kept {cap : ℕ} {id : ConnectionId} {past : List Record} {r s : Recording}
    {summary : RecordingSummary} (h : Took id past r)
    (hfinish : finishWithin cap r = (s, .ok summary)) (d : Directory) :
    summary = wholeSummary id past ∧ (d.keep s).Whole id past := by
  obtain ⟨hsummary, hwire, hwave, hevents⟩ := h.finish hfinish
  exact ⟨hsummary, congrArg some hwire, congrArg some hwave, congrArg some hevents⟩

theorem Directory.Whole.begun {id : ConnectionId} {records : List Record} {d : Directory}
    (h : d.Whole id records) : d.Begun id records (wholeSummary id records) := by
  obtain ⟨hwire, hwave, hevents⟩ := h
  refine ⟨?_, ?_, ?_, ?_, ?_, ?_⟩
  · rw [hwire]
    exact List.prefix_rfl
  · rw [hwire]
    rfl
  · rw [hwave, Option.getD_some, List.drop_left' (headerContent_length _ _)]
  · rw [hwave]
    simp [size, headerContent_length, wholeSummary]
  · rw [hevents]
    exact List.prefix_rfl
  · rw [hevents]
    rfl

/-- The outcome of a whole recording. -/
def verdict (records : List Record) : String :=
  if successfulTerminal (closing records) then "observed"
  else if closing records = .incomplete then "incomplete"
  else "failed"

theorem closing_of_open {records : List Record}
    (h : ∀ record ∈ records, record.kind.isEnded = false) : closing records = .incomplete := by
  induction records using List.reverseRecOn with
  | nil => rfl
  | append_singleton records record ih =>
      have hopen := h record (by simp)
      rw [closing_append]
      cases hkind : record.kind with
      | ended uuid reason =>
          rw [hkind] at hopen
          cases hopen
      | _ => exact ih fun other hmem ↦ h other (List.mem_append_left _ hmem)

theorem closing_of_ended {p : List Record} {record : Record}
    (h : record.kind.isEnded = true) : closing (p ++ [record]) ≠ .incomplete := by
  rw [closing_append]
  cases hkind : record.kind with
  | ended uuid reason => rintro ⟨⟩
  | _ =>
      rw [hkind] at h
      cases h

/-- The receipt names the stage and the class of a failure. -/
structure Receipt.Named (receipt : Receipt) : Prop where
  stage : receipt.stage = "create" ∨ ∃ s, receipt.stage = Capture.stage s
  class_ : receipt.class_ = "io" ∨ receipt.class_ = "invalid"

theorem Receipt.named_fromError (e : RecordingError) : (Receipt.fromError e).Named := by
  refine ⟨.inr ⟨e.stage, rfl⟩, ?_⟩
  unfold Receipt.fromError
  cases e.failure with
  | io error => exact .inl rfl
  | invalid error => exact .inr rfl

theorem CreateError.receipt_named (e : CreateError) : e.receipt.Named := by
  cases e with
  | io => exact ⟨.inl rfl, .inl rfl⟩
  | recording e => exact Receipt.named_fromError e

/-- A recording that broke off behind the records it `kept`. It may have begun
one more, and later ones are counted as dropped. -/
structure Cut (id : ConnectionId) (kept tried dropped : List Record) (receipt : Receipt)
    (d : Directory) : Prop where
  single : tried.length ≤ 1
  named : receipt.Named
  lost : receipt.dropped = min dropped.length u64Max
  lost_bytes : receipt.bytes = min (dropped.map bytes).sum u64Max
  files : d.Begun id (kept ++ tried) receipt.summary

theorem Cut.congr {id : ConnectionId} {kept tried dropped : List Record} {receipt : Receipt}
    {d d' : Directory} (h : Cut id kept tried dropped receipt d) (hwire : d'.wire = d.wire)
    (hwave : d'.wave = d.wave) (hevents : d'.events = d.events) :
    Cut id kept tried dropped receipt d' :=
  ⟨h.single, h.named, h.lost, h.lost_bytes, h.files.congr hwire hwave hevents⟩

theorem saturatingAdd_min (a b : ℕ) : saturatingAdd (min a u64Max) b = min (a + b) u64Max := by
  unfold saturatingAdd
  omega

/-- One more record is dropped. -/
theorem Cut.drop {id : ConnectionId} {kept tried dropped : List Record} {receipt : Receipt}
    {d : Directory} (h : Cut id kept tried dropped receipt d) (record : Record) :
    Cut id kept tried (dropped ++ [record]) { receipt with
      dropped := saturatingAdd receipt.dropped 1
      bytes := saturatingAdd receipt.bytes (bytes record) } d where
  single := h.single
  named := ⟨h.named.stage, h.named.class_⟩
  lost := by
    dsimp only
    rw [h.lost, saturatingAdd_min, List.length_append]
    rfl
  lost_bytes := by
    dsimp only
    rw [h.lost_bytes, saturatingAdd_min]
    simp
  files := h.files

namespace Run

/-! ## Connections -/

/-- What the directory of a tracked connection holds. -/
def Held (w : Run) (id : ConnectionId) (records : List Record) : Entry → Prop
  | .active r =>
      w.dirs[id]? = some (({} : Directory).keep r) ∧ Took id records r ∧ records ≠ [] ∧
        (∀ record ∈ records, record.kind.isEnded = false) ∧
        w.story id = .created id :: records.map .recorded
  | .failed receipt =>
      ∃ kept tried dropped d, records = kept ++ tried ++ dropped ∧ records ≠ [] ∧
        Cut id kept tried dropped receipt d ∧ w.dirs[id]? = some d ∧ d.summary = none ∧
        w.story id = .created id :: kept.map .recorded

/-- What there is of a connection that is not tracked. -/
inductive Settled (w : Run) (id : ConnectionId) (records : List Record) : Prop
  | absent (hdir : w.dirs[id]? = none) (hstory : w.story id = [])
  | whole {d : Directory} {ok : Bool} (hdir : w.dirs[id]? = some d) (hne : records ≠ [])
      (hend : (∃ record ∈ records, record.kind.isEnded = true) ∨ w.phase ≠ .draining)
      (hwhole : d.Whole id records)
      (hsummed : d.Summed (jsonSummary id (verdict records) (wholeSummary id records) none) ok)
      (hstory : w.story id = .created id :: records.map .recorded ++
        .finished id (wholeSummary id records) :: summarized ok id (verdict records))
  | cut {kept tried dropped : List Record} {receipt : Receipt} {d : Directory} {ok : Bool}
      (hdir : w.dirs[id]? = some d) (hne : records ≠ []) (hend : w.phase ≠ .draining)
      (hrecords : records = kept ++ tried ++ dropped) (hcut : Cut id kept tried dropped receipt d)
      (hsummed : d.Summed (jsonSummary id "failed" receipt.summary (some receipt)) ok)
      (hstory : w.story id =
        .created id :: kept.map .recorded ++ summarized ok id "failed")

variable {w v : Run} {id : ConnectionId} {records : List Record} {record : Record} {io : RecordIo}
  {entry : Entry}

theorem Held.congr (h : w.Held id records entry) (hdir : v.dirs[id]? = w.dirs[id]?)
    (hstory : v.story id = w.story id) : v.Held id records entry := by
  cases entry with
  | active r =>
      unfold Held at h ⊢
      rwa [hdir, hstory]
  | failed receipt =>
      unfold Held at h ⊢
      rwa [hdir, hstory]

theorem Settled.congr (h : w.Settled id records) (hdir : v.dirs[id]? = w.dirs[id]?)
    (hstory : v.story id = w.story id) (hphase : w.phase ≠ .draining → v.phase ≠ .draining) :
    v.Settled id records := by
  cases h with
  | absent hnone hempty => exact .absent (hdir.trans hnone) (hstory.trans hempty)
  | whole hd hne hend hwhole hsummed htold =>
      exact .whole (hdir.trans hd) hne (hend.imp_right hphase) hwhole hsummed (hstory.trans htold)
  | cut hd hne hend hrecords hcut hsummed htold =>
      exact .cut (hdir.trans hd) hne (hphase hend) hrecords hcut hsummed (hstory.trans htold)

theorem Held.ne_nil (h : w.Held id records entry) : records ≠ [] := by
  cases entry with
  | active r => exact h.2.2.1
  | failed receipt =>
      obtain ⟨_, _, _, _, _, hne, _⟩ := h
      exact hne

/-- While a run is draining, an untracked connection whose records go on has no
directory. -/
theorem Settled.absent_of_draining (h : w.Settled id records) (hphase : w.phase = .draining)
    (hopen : ∀ record ∈ records, record.kind.isEnded = false) :
    w.dirs[id]? = none ∧ w.story id = [] := by
  cases h with
  | absent hnone hempty => exact ⟨hnone, hempty⟩
  | whole hd hne hend hwhole hsummed htold =>
      rcases hend with ⟨record, hmem, hended⟩ | hleft
      · rw [hopen record hmem] at hended
        cases hended
      · exact absurd hphase hleft
  | cut hd hne hend hrecords hcut hsummed htold => exact absurd hphase hend

/-! ## One record -/

/-- A connection that is tracked with an entry, or not tracked. -/
def Place (w : Run) (id : ConnectionId) (records : List Record) : Option Entry → Prop
  | some entry => w.Held id records entry
  | none => w.Settled id records

theorem Place.congr {entry : Option Entry} (h : w.Place id records entry)
    (hdir : v.dirs[id]? = w.dirs[id]?) (hstory : v.story id = w.story id)
    (hphase : w.phase ≠ .draining → v.phase ≠ .draining) : v.Place id records entry := by
  cases entry with
  | some entry => exact Held.congr h hdir hstory
  | none => exact Settled.congr h hdir hstory hphase

theorem not_ended_of_shaped {before : List Record} (h : Shaped (before ++ [record])) :
    ∀ other ∈ before, other.kind.isEnded = false := by
  intro other hmem
  obtain ⟨front, back, rfl⟩ := List.append_of_mem hmem
  cases hended : other.kind.isEnded with
  | false => rfl
  | true =>
      have hnil := h.ended front other (back ++ [record]) (by simp) hended
      simp at hnil

theorem Opened.held {entry : Entry} {d : Directory} {more : List Happening} {cap : ℕ}
    {io : CreateIo} (h : Opened cap record io entry d more)
    (hconnected : record.kind.isConnected = true)
    (hdir : v.dirs[record.connection]? = some d) (hstory : v.story record.connection = more) :
    v.Held record.connection [record] entry := by
  cases h with
  | failed hcreate =>
      obtain ⟨hbegun, hsummary⟩ := create_begun hcreate
      rename_i e
      refine ⟨[], [record], [], _, rfl, by simp,
        ⟨le_rfl, e.receipt_named, ?_, ?_, hbegun.append [record]⟩, hdir, hsummary, hstory⟩
      · cases e <;> rfl
      · cases e <;> rfl
  | broken hcreate hrecord =>
      have hbegun := (create_took hcreate).broken hrecord
      rw [create_files hcreate] at hdir
      exact ⟨[], [record], [], _, rfl, by simp,
        ⟨le_rfl, Receipt.named_fromError _, rfl, rfl, hbegun _⟩, hdir, rfl, hstory⟩
  | taken hcreate hrecord =>
      rw [create_files hcreate] at hdir
      refine ⟨hdir, (create_took hcreate).accept hrecord, by simp, ?_, hstory⟩
      intro other hmem
      obtain rfl := List.mem_singleton.mp hmem
      exact not_ended_of_connected hconnected

/-- What a record does to the connection it belongs to. -/
theorem Handled.place {before : List Record} (h : Handled w record io v)
    (hphase : w.phase = .draining) (hafter : v.phase = .draining)
    (hshaped : Shaped (before ++ [record]))
    (hplace : w.Place record.connection before w.entries[record.connection]?) :
    v.Place record.connection (before ++ [record]) v.entries[record.connection]? := by
  have hfirst := hshaped.connected before record [] rfl
  have hopen := not_ended_of_shaped hshaped
  -- a first record, and a record of a connection without a recorder
  have haside (hnone : w.entries[record.connection]? = none)
      (hentries : v.entries = w.entries) (hdirs : v.dirs = w.dirs) (hlog : v.log = w.log) :
      v.Place record.connection (before ++ [record]) v.entries[record.connection]? := by
    rw [hnone] at hplace
    obtain ⟨hdir, hstory⟩ := hplace.absent_of_draining hphase hopen
    rw [hentries, hnone]
    exact .absent (hdirs ▸ hdir) ((story_congr hlog _).trans hstory)
  have hnew (hconnected : record.kind.isConnected = true) :
      w.entries[record.connection]? = none := by
    obtain rfl := hfirst.mp hconnected
    cases hentry : w.entries[record.connection]? with
    | none => rfl
    | some entry =>
        rw [hentry] at hplace
        exact absurd rfl (Held.ne_nil hplace)
  have hactive {r : Recording} (hentry : w.entries[record.connection]? = some (.active r)) :
      w.Held record.connection before (.active r) := by rwa [hentry] at hplace
  have hdirs {r : Recording} (hheld : w.Held record.connection before (.active r)) :
      w.dirs.getD record.connection {} = ({} : Directory).keep r := by
    rw [Std.TreeMap.getD_eq_getD_getElem?, hheld.1, Option.getD_some]
  cases h with
  | stopped hconnected hwon hv =>
      subst hv
      exact haside (hnew hconnected) rfl rfl rfl
  | full hconnected hwon hfull hv =>
      subst hv
      exact haside (hnew hconnected) rfl rfl rfl
  | uncreated hconnected hwon hroom hv =>
      subst hv
      exact haside (hnew hconnected) rfl rfl rfl
  | unowned hconnected hentry hv =>
      subst hv
      exact haside hentry rfl rfl rfl
  | created hconnected hwon hroom hlimit hnone hopened hchanged hreserved hcounts hstops =>
      rw [hnew hconnected] at hplace
      obtain ⟨_, hempty⟩ := hplace.absent_of_draining hphase hopen
      obtain rfl := hfirst.mp hconnected
      rw [hchanged.entries, if_pos rfl]
      refine hopened.held hconnected ((hchanged.dirs _).trans (if_pos rfl)) ?_
      rw [hchanged.story, hempty, List.nil_append]
  | taken hconnected hended hentry hrecord hchanged hreserved hcounts hstops =>
      have hheld := hactive hentry
      obtain ⟨hdir, htook, hne, _, hstory⟩ := hheld
      rw [hchanged.entries, if_pos rfl]
      refine ⟨?_, htook.accept hrecord, by simp, ?_, ?_⟩
      · rw [hchanged.dirs, if_pos rfl, hdirs (hactive hentry)]
        rfl
      · intro other hmem
        rcases List.mem_append.mp hmem with hmem | hmem
        · exact hopen other hmem
        · exact List.mem_singleton.mp hmem ▸ hended
      · rw [hchanged.story, hstory, List.map_append]
        rfl
  | @broken hconnected r s e hentry hrecord hchanged hreserved hcounts hstops =>
      obtain ⟨hdir, htook, hne, _, hstory⟩ := hactive hentry
      rw [hchanged.entries, if_pos rfl]
      refine ⟨before, [record], [], ({} : Directory).keep s, (List.append_nil _).symm, by simp,
        ⟨le_rfl, Receipt.named_fromError e, rfl, rfl, htook.broken hrecord _⟩, ?_, rfl, ?_⟩
      · rw [hchanged.dirs, if_pos rfl, hdirs (hactive hentry)]
        rfl
      · rw [hchanged.story, hstory, List.append_nil]
  | @unfinished hconnected hended r s t e hentry hrecord hfinish hchanged hreserved hcounts
      hstops =>
      obtain ⟨hdir, htook, hne, _, hstory⟩ := hactive hentry
      have hbegun := (htook.accept hrecord).unfinished hfinish
      rw [hchanged.entries, if_pos rfl]
      refine ⟨before ++ [record], [], [], ({} : Directory).keep t, by simp, by simp,
        ⟨Nat.zero_le _, Receipt.named_fromError e, rfl, rfl, ?_⟩, ?_, rfl, ?_⟩
      · rw [List.append_nil]
        exact hbegun _
      · rw [hchanged.dirs, if_pos rfl, hdirs (hactive hentry)]
        rfl
      · rw [hchanged.story, hstory, List.map_append]
        rfl
  | finished hconnected hended hentry hrecord hfinish hwrite hchanged hreserved hcounts hbad
      hcontrol =>
      obtain ⟨hdir, htook, hne, _, hstory⟩ := hactive hentry
      obtain ⟨rfl, hwhole⟩ := (htook.accept hrecord).kept hfinish
        (w.dirs.getD record.connection {})
      have hverdict : outcome (wholeSummary record.connection (before ++ [record])) =
          verdict (before ++ [record]) := by
        have hincomplete := closing_of_ended (p := before) hended
        unfold outcome verdict wholeSummary
        rw [if_neg hincomplete]
      rw [hdirs (hactive hentry)] at hwrite
      rw [hverdict] at hwrite hchanged
      obtain ⟨hpre, hall⟩ := writeJson_prefix hwrite
      rw [hchanged.entries, if_pos rfl]
      refine .whole ((hchanged.dirs _).trans (if_pos rfl)) (by simp) (.inl ⟨record, by simp, hended⟩)
        ⟨hwhole.wire, hwhole.wave, hwhole.events⟩ ⟨hpre, hall⟩ ?_
      rw [hchanged.story, hstory, List.map_append]
      simp
  | @failed hconnected receipt hentry hv =>
      subst hv
      rw [hentry] at hplace
      obtain ⟨kept, tried, dropped, d, hrecords, hne, hcut, hdir, hsummary, hstory⟩ := hplace
      have hat : (w.onFailed record receipt).entries[record.connection]? = some (.failed
          { receipt with
            dropped := saturatingAdd receipt.dropped 1
            bytes := saturatingAdd receipt.bytes (bytes record) }) :=
        Std.TreeMap.getElem?_insert_self
      rw [hat]
      refine ⟨kept, tried, dropped ++ [record], d, ?_, by simp, hcut.drop record, hdir, hsummary,
        hstory⟩
      rw [hrecords, List.append_assoc]

/-- Other connections are as they were. -/
theorem Handled.aside (h : Handled w record io v) (hne : record.connection ≠ id) :
    v.entries[id]? = w.entries[id]? ∧ v.dirs[id]? = w.dirs[id]? ∧ v.story id = w.story id := by
  have haside {entry : Option Entry} {d : Option Directory} {more : List Happening}
      (h : Changed record.connection entry d more w v) :
      v.entries[id]? = w.entries[id]? ∧ v.dirs[id]? = w.dirs[id]? ∧ v.story id = w.story id :=
    ⟨(h.entries id).trans (if_neg hne), (h.dirs id).trans (if_neg hne), h.story_ne hne⟩
  cases h with
  | stopped hconnected hwon hv =>
      subst hv
      exact ⟨rfl, rfl, rfl⟩
  | full hconnected hwon hfull hv =>
      subst hv
      exact ⟨rfl, rfl, rfl⟩
  | uncreated hconnected hwon hroom hv =>
      subst hv
      exact ⟨rfl, rfl, rfl⟩
  | unowned hconnected hentry hv =>
      subst hv
      exact ⟨rfl, rfl, rfl⟩
  | failed hconnected hentry hv =>
      subst hv
      exact ⟨Std.TreeMap.getElem?_insert_of_ne hne _, rfl, rfl⟩
  | created hconnected hwon hroom hlimit hnone hopened hchanged hreserved hcounts hstops =>
      exact haside hchanged
  | taken hconnected hended hentry hrecord hchanged hreserved hcounts hstops =>
      exact haside hchanged
  | broken hconnected hentry hrecord hchanged hreserved hcounts hstops => exact haside hchanged
  | unfinished hconnected hended hentry hrecord hfinish hchanged hreserved hcounts hstops =>
      exact haside hchanged
  | finished hconnected hended hentry hrecord hfinish hwrite hchanged hreserved hcounts hbad
      hcontrol => exact haside hchanged

/-! ## One entry that is left over -/

theorem verdict_of_open (hopen : ∀ record ∈ records, record.kind.isEnded = false) :
    verdict records = "incomplete" := by
  unfold verdict
  rw [closing_of_open hopen]
  rfl

theorem Closed.settled {u : Run} {created : Created} {d : Directory}
    (h : Closed w id created d u entry) (hheld : w.Held id records entry)
    (hd : w.dirs[id]? = some d) (hdirs : v.dirs = u.dirs) (hlog : v.log = u.log)
    (hphase : v.phase ≠ .draining) : v.Settled id records := by
  have hne := hheld.ne_nil
  have hsummary : d.summary = none := by
    cases entry with
    | active r =>
        have hdir := hheld.1
        rw [hd] at hdir
        cases hdir
        rfl
    | failed receipt =>
        obtain ⟨_, _, _, e, _, _, _, he, hnone, _⟩ := hheld
        rw [hd] at he
        cases he
        exact hnone
  have hat {entry : Option Entry} {e : Directory} {more : List Happening}
      (hchanged : Changed id entry (some e) more w u) :
      v.dirs[id]? = some e ∧ v.story id = w.story id ++ more :=
    ⟨by rw [hdirs, hchanged.dirs, if_pos rfl], by rw [story_congr hlog, hchanged.story]⟩
  cases h with
  | failed hwrite hchanged hcounts =>
      obtain ⟨kept, tried, dropped, e, hrecords, _, hcut, he, _, hstory⟩ := hheld
      rw [hd] at he
      cases he
      rw [hsummary] at hwrite
      obtain ⟨hpre, hall⟩ := writeJson_prefix hwrite
      obtain ⟨hdir, htold⟩ := hat hchanged
      rw [hstory] at htold
      exact .cut hdir hne hphase hrecords (hcut.congr rfl rfl rfl) ⟨hpre, hall⟩ htold
  | finished hfinish hwrite hchanged hcounts =>
      obtain ⟨_, htook, _, hopen, hstory⟩ := hheld
      obtain ⟨rfl, hwhole⟩ := htook.kept hfinish d
      rw [hsummary, ← verdict_of_open hopen] at hwrite
      rw [← verdict_of_open hopen] at hchanged
      obtain ⟨hpre, hall⟩ := writeJson_prefix hwrite
      obtain ⟨hdir, htold⟩ := hat hchanged
      rw [hstory] at htold
      exact .whole hdir hne (.inr hphase) ⟨hwhole.wire, hwhole.wave, hwhole.events⟩ ⟨hpre, hall⟩
        htold
  | @unfinished r t e content ok hfinish hwrite hchanged hcounts =>
      obtain ⟨_, htook, _, hopen, hstory⟩ := hheld
      have hbegun := htook.unfinished hfinish d
      rw [hsummary] at hwrite
      obtain ⟨hpre, hall⟩ := writeJson_prefix hwrite
      obtain ⟨hdir, htold⟩ := hat hchanged
      rw [hstory] at htold
      have hcut : Cut id records [] [] (.fromError e) { d.keep t with summary := content } := by
        refine ⟨Nat.zero_le _, Receipt.named_fromError e, rfl, rfl, ?_⟩
        rw [List.append_nil]
        exact hbegun.congr rfl rfl rfl
      exact .cut hdir hne hphase (by simp) hcut ⟨hpre, hall⟩ htold

/-! ## Whole runs -/

/-- Whether a connection is tracked, and how. -/
def Tracks (w : Run) (id : ConnectionId) : Option Entry → Prop
  | some entry => (id, entry) ∈ w.tracked
  | none => id ∉ w.tracked.map Prod.fst

theorem tracks_iff (hphase : w.phase = .draining) {entry : Option Entry} :
    w.Tracks id entry ↔ w.entries[id]? = entry := by
  have htracked : w.tracked = w.entries.toList := by rw [Run.tracked, hphase]
  cases entry with
  | some entry =>
      unfold Tracks
      rw [htracked]
      exact Std.TreeMap.mem_toList_iff_getElem?_eq_some
  | none =>
      unfold Tracks
      rw [htracked, Std.TreeMap.map_fst_toList_eq_keys, Std.TreeMap.mem_keys,
        Std.TreeMap.mem_iff_isSome_getElem?, Option.not_isSome_iff_eq_none]

theorem tracks_congr (h : v.tracked = w.tracked) {entry : Option Entry} :
    v.Tracks id entry ↔ w.Tracks id entry := by
  cases entry <;> simp only [Tracks, h]

/-- Every connection is where its records have brought it. -/
def Disk (records : List Record) (w : Run) : Prop :=
  ∀ id entry, w.Tracks id entry → w.Place id (records.filter (·.connection = id)) entry

theorem disk_new (c : Config) : Disk [] (new c) := by
  intro id entry htracks
  have hnone := (tracks_iff (w := new c) rfl).mp htracks
  have hempty : (∅ : Std.TreeMap ConnectionId Entry)[id]? = entry := hnone
  rw [Std.TreeMap.getElem?_emptyc] at hempty
  subst hempty
  exact .absent Std.TreeMap.getElem?_emptyc rfl

theorem Disk.congr (h : Disk records w) (htracked : v.tracked = w.tracked)
    (hdirs : v.dirs = w.dirs) (hlog : v.log = w.log)
    (hphase : w.phase ≠ .draining → v.phase ≠ .draining) : Disk records v := by
  intro id entry htracks
  apply (h id entry ((tracks_congr htracked).mp htracks)).congr
  · rw [hdirs]
  · exact story_congr hlog id
  · exact hphase

theorem Disk.onRecord (h : Disk records w) (hphase : w.phase = .draining)
    (hshaped : Shaped ((records ++ [record]).filter (·.connection = record.connection))) :
    Disk (records ++ [record]) (w.onRecord record io) := by
  have hhandled := handled_onRecord w record io
  have hafter : (w.onRecord record io).phase = .draining := (onRecord_phase w record io).trans hphase
  intro id entry htracks
  obtain rfl := (tracks_iff hafter).mp htracks
  have hbefore := h id _ ((tracks_iff hphase).mpr rfl)
  by_cases hid : record.connection = id
  · subst hid
    have hmine : (records ++ [record]).filter (·.connection = record.connection) =
        records.filter (·.connection = record.connection) ++ [record] := by simp
    rw [hmine] at hshaped ⊢
    exact hhandled.place hphase hafter hshaped hbefore
  · obtain ⟨hentry, hdir, hstory⟩ := hhandled.aside hid
    have hrecords : (records ++ [record]).filter (·.connection = id) =
        records.filter (·.connection = id) := by simp [hid]
    rw [hrecords, hentry]
    exact hbefore.congr hdir hstory fun hne ↦ absurd hphase hne

/-- The connection at hand is settled, and the others stay as they were. -/
theorem Disk.finalize {c : Config} (h : Disk records w) (hbounded : w.Bounded c)
    {rest : List (ConnectionId × Entry)} (hphase : w.phase = .finalizing ((id, entry) :: rest))
    (created : Created) :
    Disk records { w.onFinalize id entry created with phase := .finalizing rest } := by
  have htracked : w.tracked = (id, entry) :: rest := by rw [Run.tracked, hphase]
  have hdistinct := hbounded.distinct
  rw [htracked, List.map_cons, List.nodup_cons] at hdistinct
  have hfirst : w.Tracks id (some entry) := by
    unfold Tracks
    rw [htracked]
    exact List.mem_cons_self
  have hheld : w.Held id (records.filter (·.connection = id)) entry := h id _ hfirst
  obtain ⟨d, hd, -⟩ := hbounded.fits (id, entry) hfirst
  have hclosed := closed_onFinalize hd entry created
  have hother : ∀ other, id ≠ other → (w.onFinalize id entry created).dirs[other]? =
      w.dirs[other]? ∧ (w.onFinalize id entry created).story other = w.story other := by
    intro other hne
    have haside {e : Option Entry} {d : Option Directory} {more : List Happening}
        (hchanged : Changed id e d more w (w.onFinalize id entry created)) :
        (w.onFinalize id entry created).dirs[other]? = w.dirs[other]? ∧
          (w.onFinalize id entry created).story other = w.story other :=
      ⟨(hchanged.dirs other).trans (if_neg hne), hchanged.story_ne hne⟩
    generalize w.onFinalize id entry created = u at hclosed haside ⊢
    cases hclosed with
    | failed hwrite hchanged hcounts => exact haside hchanged
    | finished hfinish hwrite hchanged hcounts => exact haside hchanged
    | unfinished hfinish hwrite hchanged hcounts => exact haside hchanged
  intro other e htracks
  by_cases hid : id = other
  · subst hid
    cases e with
    | some e =>
        have hmem : (id, e) ∈ rest := htracks
        exact absurd (List.mem_map_of_mem hmem) hdistinct.1
    | none => exact hclosed.settled hheld hd rfl rfl (by rintro ⟨⟩)
  · obtain ⟨hdir, hstory⟩ := hother other hid
    have hbefore : w.Tracks other e := by
      cases e with
      | some e =>
          have hmem : (other, e) ∈ rest := htracks
          unfold Tracks
          rw [htracked]
          exact List.mem_cons_of_mem _ hmem
      | none =>
          have hnot : other ∉ rest.map Prod.fst := htracks
          unfold Tracks
          rw [htracked, List.map_cons, List.mem_cons, not_or]
          exact ⟨fun heq ↦ hid heq.symm, hnot⟩
    exact (h other e hbefore).congr hdir hstory fun _ ↦ (by rintro ⟨⟩)

theorem Disk.step {c : Config} (h : Disk records w) (hbounded : w.Bounded c) {event : Event}
    (hshaped : ∀ id, Shaped ((records ++ event.records).filter (·.connection = id)))
    (hstep : w.step event = some v) : Disk (records ++ event.records) v := by
  cases event with
  | signal woken =>
      obtain ⟨_, rfl⟩ := step_signal hstep
      have hnil : (Event.signal woken).records = [] := rfl
      rw [hnil, List.append_nil]
      exact h.congr rfl rfl rfl fun hne ↦ hne
  | record record io =>
      obtain ⟨hphase, rfl⟩ := step_record hstep
      exact h.onRecord hphase (hshaped record.connection)
  | disconnected =>
      obtain ⟨hphase, rfl⟩ := step_disconnected hstep
      have hnil : Event.disconnected.records = [] := rfl
      rw [hnil, List.append_nil]
      refine h.congr ?_ rfl rfl fun _ ↦ (by rintro ⟨⟩)
      rw [Run.tracked, Run.tracked, hphase]
  | finalize created =>
      obtain ⟨id, entry, rest, hphase, rfl⟩ := step_finalize hstep
      have hnil : (Event.finalize created).records = [] := rfl
      rw [hnil, List.append_nil]
      exact h.finalize hbounded hphase created
  | exit io =>
      obtain ⟨hphase, rfl⟩ := step_exit hstep
      have hnil : (Event.exit io).records = [] := rfl
      rw [hnil, List.append_nil]
      refine h.congr ?_ rfl rfl fun _ ↦ (by rintro ⟨⟩)
      rw [Run.tracked, Run.tracked, hphase]
      rfl

theorem disk_of_run {c : Config} (hvalid : c.Valid) {events : List Event}
    (hshaped : ∀ id, Shaped ((given events).filter (·.connection = id)))
    (hrun : Machine.run Run.step (new c) events = some w) : Disk (given events) w := by
  induction events using List.reverseRecOn generalizing w with
  | nil =>
      cases hrun
      exact disk_new c
  | append_singleton events event ih =>
      obtain ⟨u, hu, hstep⟩ := Machine.run_snoc.mp hrun
      have hgiven : given (events ++ [event]) = given events ++ event.records := by
        simp [given]
      rw [hgiven] at hshaped ⊢
      have hbefore : Disk (given events) u := by
        refine ih (fun id ↦ ?_) hu
        have happended := hshaped id
        rw [List.filter_append] at happended
        exact happended.of_append
      exact hbefore.step (bounded_of_run hvalid hu) hshaped hstep

end Run

end Phonowire.Capture
