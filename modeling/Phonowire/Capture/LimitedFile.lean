import Phonowire.Capture.Config
import Phonowire.Receiver.WaveFile

/-!
# Files with a cap

A limited file refuses every write that would end behind its cap and hands the
others to the file below. A partial write moves the position and the rest of the
bytes by the same amount, so a counted write meets the cap at its first call or
never: it is the counted write of the recorder over a writer that begins with the
refusal.
-/

namespace Phonowire.Capture

open Receiver AudioSocket

def limitExceeded : IoError := ⟨.other, none, "configured file limit exceeded"⟩

/-- `File::write`. -/
def fileWrite (file : Writer) (bytes : List UInt8) : Writer × Except IoError ℕ :=
  match file.script with
  | [] => ({ file with sink := file.sink.put bytes }, .ok bytes.length)
  | .fail e :: script => ({ file with script }, .error e)
  | .accept k :: script =>
      let written := min k bytes.length
      ({ file with script, sink := file.sink.put (bytes.take written) }, .ok written)

/-- A file that was just created or written before, and its cap. An error of the
query for the position is one of the answers of the file. -/
structure LimitedFile where
  file : Writer
  cap : ℕ

/-- The check of `LimitedFile::write`. -/
def exceeds (cap position count : ℕ) : Bool := (checkedAdd position count).all (cap < ·)

def LimitedFile.write (f : LimitedFile) (bytes : List UInt8) : LimitedFile × Except IoError ℕ :=
  if exceeds f.cap f.file.sink.position bytes.length then (f, .error limitExceeded)
  else
    let (file, result) := fileWrite f.file bytes
    ({ f with file }, result)

/-- The loop of `write_count` over a limited file, and that of `write_all` apart
from the text of its error. -/
def limitedLoop (cap : ℕ) : List WriteOutcome → Sink → List UInt8 → ℕ → Written
  | script, sink, [], count => ⟨sink, script, count, .ok ()⟩
  | [], sink, bytes, count =>
      if exceeds cap sink.position bytes.length then ⟨sink, [], count, .error limitExceeded⟩
      else ⟨sink.put bytes, [], count + bytes.length, .ok ()⟩
  | .fail e :: script, sink, bytes, count =>
      if exceeds cap sink.position bytes.length then
        ⟨sink, .fail e :: script, count, .error limitExceeded⟩
      else if e.kind = .interrupted then limitedLoop cap script sink bytes count
      else ⟨sink, script, count, .error e⟩
  | .accept k :: script, sink, bytes, count =>
      if exceeds cap sink.position bytes.length then
        ⟨sink, .accept k :: script, count, .error limitExceeded⟩
      else
        let written := min k bytes.length
        if written = 0 then ⟨sink, script, count, .error writeZero⟩
        else
          limitedLoop cap script (sink.put (bytes.take written)) (bytes.drop written)
            (count + written)

section Loop

variable {f g : LimitedFile} {bytes : List UInt8} {e : IoError} {written : ℕ}

/-- The loop repeats an interrupted `write` and ends with any other error. -/
theorem limitedLoop_of_error (hne : bytes ≠ []) (h : f.write bytes = (g, .error e)) (count : ℕ) :
    limitedLoop f.cap f.file.script f.file.sink bytes count =
      if e.kind = .interrupted then limitedLoop f.cap g.file.script g.file.sink bytes count
      else ⟨g.file.sink, g.file.script, count, .error e⟩ := by
  obtain ⟨⟨sink, script, seekError, flushError⟩, cap⟩ := f
  obtain ⟨b, bytes, rfl⟩ := List.exists_cons_of_ne_nil hne
  unfold LimitedFile.write at h
  dsimp only at h ⊢
  split_ifs at h with hover
  · cases h
    rw [List.length_cons] at hover
    rcases script with _ | ⟨_ | _, script⟩ <;> simp [limitedLoop, hover, limitExceeded]
  · rcases script with _ | ⟨k | e', script⟩
    · cases h
    · cases h
    · cases h
      rw [List.length_cons] at hover
      simp [limitedLoop, fileWrite, hover]

/-- The loop goes on behind the bytes that a `write` took. -/
theorem limitedLoop_of_ok (hne : bytes ≠ []) (h : f.write bytes = (g, .ok written)) (count : ℕ) :
    limitedLoop f.cap f.file.script f.file.sink bytes count =
      if written = 0 then ⟨g.file.sink, g.file.script, count, .error writeZero⟩
      else limitedLoop f.cap g.file.script g.file.sink (bytes.drop written) (count + written) := by
  obtain ⟨⟨sink, script, seekError, flushError⟩, cap⟩ := f
  obtain ⟨b, bytes, rfl⟩ := List.exists_cons_of_ne_nil hne
  unfold LimitedFile.write at h
  dsimp only at h ⊢
  split_ifs at h with hover
  · cases h
  · rcases script with _ | ⟨k | e', script⟩
    · cases h
      rw [List.length_cons] at hover
      simp [limitedLoop, fileWrite, hover]
    · simp only [fileWrite, Prod.mk.injEq, Except.ok.injEq] at h
      obtain ⟨rfl, rfl⟩ := h
      rw [limitedLoop, if_neg hover]
      · dsimp only
        split_ifs with hzero
        · rw [hzero, List.take_zero, Sink.put_nil]
        · rfl
      · exact hne
    · cases h

end Loop

/-! ## The cap is met at the first call or never -/

theorem exceeds_congr {cap p q m n : ℕ} (h : p + m = q + n) : exceeds cap p m = exceeds cap q n := by
  unfold exceeds checkedAdd
  rw [h]

theorem le_of_exceeds {cap p n : ℕ} (h : exceeds cap p n ≠ true) : p + n ≤ cap := by
  unfold exceeds at h
  cases hsum : checkedAdd p n with
  | none => simp [hsum] at h
  | some e =>
      obtain ⟨_, rfl⟩ := checkedAdd_eq_some_iff.mp hsum
      simpa [hsum] using h

/-- The answers that the loop over a limited file gets, as the recorder sees
them. -/
def refusing (cap position : ℕ) (request : List UInt8) (script : List WriteOutcome) :
    List WriteOutcome :=
  if request ≠ [] ∧ exceeds cap position request.length then .fail limitExceeded :: script
  else script

section Refusing

variable {cap : ℕ} {sink : Sink} {bytes : List UInt8} {script : List WriteOutcome}

theorem refusing_of_exceeds (hne : bytes ≠ [])
    (hover : exceeds cap sink.position bytes.length = true) (script : List WriteOutcome) :
    refusing cap sink.position bytes script = .fail limitExceeded :: script :=
  if_pos ⟨hne, hover⟩

theorem refusing_of_fits (hover : ¬ exceeds cap sink.position bytes.length = true)
    (script : List WriteOutcome) : refusing cap sink.position bytes script = script :=
  if_neg fun h ↦ hover h.2

theorem writeLoop_refused (hne : bytes ≠ []) (script : List WriteOutcome) (sink : Sink)
    (count : ℕ) :
    writeLoop (.fail limitExceeded :: script) sink bytes count =
      ⟨sink, script, count, .error limitExceeded⟩ := by
  obtain ⟨b, bytes, rfl⟩ := List.exists_cons_of_ne_nil hne
  simp [writeLoop, limitExceeded]

end Refusing

theorem limitedLoop_eq (cap : ℕ) (script : List WriteOutcome) (sink : Sink)
    (bytes : List UInt8) (count : ℕ) :
    limitedLoop cap script sink bytes count =
      writeLoop (refusing cap sink.position bytes script) sink bytes count := by
  fun_induction limitedLoop cap script sink bytes count with
  | case1 script sink count => simp [refusing, writeLoop]
  | case2 sink bytes count hne hover =>
      rw [refusing_of_exceeds hne hover, writeLoop_refused hne]
  | case3 sink bytes count hne hover =>
      rw [refusing_of_fits hover, writeLoop]
      exact hne
  | case4 e script sink bytes count hne hover =>
      rw [refusing_of_exceeds hne hover, writeLoop_refused hne]
  | case5 e script sink bytes count hne hover hkind ih =>
      rw [refusing_of_fits hover] at ih ⊢
      rw [ih, writeLoop, if_pos hkind]
      exact hne
  | case6 e script sink bytes count hne hover hkind =>
      rw [refusing_of_fits hover, writeLoop, if_neg hkind]
      exact hne
  | case7 k script sink bytes count hne hover =>
      rw [refusing_of_exceeds hne hover, writeLoop_refused hne]
  | case8 k script sink bytes count hne hover written hzero =>
      rw [refusing_of_fits hover, writeLoop, if_pos hzero]
      exact hne
  | case9 k script sink bytes count hne hover written hpos ih =>
      have hsame : exceeds cap (sink.put (bytes.take written)).position (bytes.drop written).length =
          exceeds cap sink.position bytes.length := by
        apply exceeds_congr
        simp only [Sink.put, List.length_take, List.length_drop, written]
        omega
      rw [refusing_of_fits (by rw [hsame]; exact hover)] at ih
      rw [ih, refusing_of_fits hover, writeLoop, if_neg hpos]
      exact hne

/-! ## Sizes -/

/-- The file is not longer than the cap, and its position is not behind its end. -/
structure Capped (cap : ℕ) (sink : Sink) : Prop where
  position : sink.position ≤ sink.content.length
  length : sink.content.length ≤ cap

theorem length_put {sink : Sink} (h : sink.position ≤ sink.content.length) (bytes : List UInt8) :
    (sink.put bytes).content.length = max sink.content.length (sink.position + bytes.length) := by
  simp only [Sink.put, List.length_append, List.length_take, List.length_drop]
  omega

theorem Capped.put {cap : ℕ} {sink : Sink} (h : Capped cap sink) {bytes : List UInt8}
    (hle : sink.position + bytes.length ≤ cap) :
    Capped cap (sink.put bytes) ∧ sink.content.length ≤ (sink.put bytes).content.length := by
  have hlength := length_put h.position bytes
  have hcap := h.length
  exact ⟨⟨position_put_le h.position bytes, by omega⟩, by omega⟩

/-- No single write makes a limited file longer than its cap. -/
theorem LimitedFile.write_capped (f : LimitedFile) (bytes : List UInt8)
    (h : Capped f.cap f.file.sink) :
    (f.write bytes).1.cap = f.cap ∧ Capped f.cap (f.write bytes).1.file.sink ∧
      f.file.sink.content.length ≤ (f.write bytes).1.file.sink.content.length := by
  unfold write
  split_ifs with hover
  · exact ⟨rfl, h, le_rfl⟩
  · have hle := le_of_exceeds hover
    unfold fileWrite
    rcases f.file.script with _ | ⟨k | e, script⟩
    · exact ⟨rfl, h.put hle⟩
    · have htake : f.file.sink.position + (bytes.take (min k bytes.length)).length ≤ f.cap := by
        rw [List.length_take]
        omega
      exact ⟨rfl, h.put htake⟩
    · exact ⟨rfl, h, le_rfl⟩

/-- Nor does a counted write. -/
theorem limitedLoop_capped (cap : ℕ) (script : List WriteOutcome) (sink : Sink)
    (bytes : List UInt8) (count : ℕ) (h : Capped cap sink) :
    Capped cap (limitedLoop cap script sink bytes count).sink ∧
      sink.content.length ≤ (limitedLoop cap script sink bytes count).sink.content.length := by
  fun_induction limitedLoop cap script sink bytes count with
  | case3 sink bytes count hne hover => exact h.put (le_of_exceeds hover)
  | case5 e script sink bytes count hne hover hkind ih => exact ih h
  | case9 k script sink bytes count hne hover written hpos ih =>
      have hle := le_of_exceeds hover
      have htake : sink.position + (bytes.take written).length ≤ cap := by
        rw [List.length_take]
        omega
      obtain ⟨hput, hgrows⟩ := h.put htake
      obtain ⟨hrest, hmore⟩ := ih hput
      exact ⟨hrest, hgrows.trans hmore⟩
  | _ => exact ⟨h, le_rfl⟩

/-! ## Recorders over limited files -/

/-- The writer whose next counted write is `request`. -/
def refuse (cap : ℕ) (w : Writer) (request : List UInt8) : Writer :=
  { w with script := refusing cap w.sink.position request w.script }

theorem writeCount_capped {cap : ℕ} {w : Writer} (h : Capped cap w.sink) (bytes : List UInt8)
    (count : ℕ) :
    Capped cap (writeCount (refuse cap w bytes) bytes count).sink ∧
      w.sink.content.length ≤ (writeCount (refuse cap w bytes) bytes count).sink.content.length := by
  unfold writeCount
  cases checkedAdd count bytes.length with
  | none => exact ⟨h, le_rfl⟩
  | some _ =>
      simp only [refuse]
      rw [← limitedLoop_eq]
      exact limitedLoop_capped cap w.script w.sink bytes count h

/-- `Recording::new`. -/
def openWithin (cap : ℕ) (id : ConnectionId) (wire wave events : Writer) :
    Recording × Except RecordingError Unit :=
  Recording.withSampleRate id .khz8 wire (refuse cap wave (headerContent 0 .khz8)) events

/-- `Recording::record`. -/
def recordWithin (cap : ℕ) (r : Recording) (record : Record) :
    Recording × Except RecordingError Unit :=
  Recording.record { r with
    wire := refuse cap r.wire record.wireBytes
    wave := refuse cap r.wave record.audioBytes
    events := refuse cap r.events (record.line r.id) } record

/-- The recorder whose next counted write is the header at position zero. -/
def refusePatch (cap : ℕ) (r : Recording) : Recording :=
  let patch := headerContent r.summary.audioBytes r.sampleRate
  { r with wave := { r.wave with script := refusing cap 0 patch r.wave.script } }

/-- `Recording::finish`. -/
def finishWithin (cap : ℕ) (r : Recording) : Recording × Except RecordingError RecordingSummary :=
  (refusePatch cap r).finish

/-- A recorder whose files keep the cap and whose WAVE file holds a header. -/
structure Within (cap : ℕ) (r : Recording) : Prop where
  wire : Capped cap r.wire.sink
  wave : Capped cap r.wave.sink
  events : Capped cap r.events.sink
  headed : header ≤ r.wave.sink.content.length
  patch : r.summary.patchBytes = 0

section Recorder

variable {cap : ℕ} {r s : Recording} {record : Record}

theorem Within.congr (h : Within cap r) (hwire : s.wire.sink = r.wire.sink)
    (hwave : s.wave.sink = r.wave.sink) (hevents : s.events.sink = r.events.sink)
    (hpatch : s.summary.patchBytes = r.summary.patchBytes) : Within cap s :=
  ⟨hwire ▸ h.wire, hwave ▸ h.wave, hevents ▸ h.events, hwave ▸ h.headed, hpatch.trans h.patch⟩

theorem Within.writePayload (h : Within cap r) (hwire : r.wire = refuse cap s.wire record.wireBytes)
    (hwave : r.wave = refuse cap s.wave record.audioBytes) :
    Within cap (r.writePayload record.kind).1 ∧
      (r.writePayload record.kind).1.events = r.events ∧
      (r.writePayload record.kind).1.id = r.id := by
  cases hkind : record.kind with
  | wire bytes =>
      have hbytes : record.wireBytes = bytes.bytes := by rw [Record.wireBytes, hkind]
      have hcapped : Capped cap s.wire.sink := by
        have hsink := h.wire
        rw [hwire] at hsink
        exact hsink
      have hwritten := (writeCount_capped hcapped bytes.bytes r.summary.wireBytes).1
      rw [← hbytes, ← hwire, hbytes] at hwritten
      exact ⟨⟨hwritten, h.wave, h.events, h.headed, h.patch⟩, rfl, rfl⟩
  | audio uuid rate bytes =>
      have hbytes : record.audioBytes = bytes.bytes := by rw [Record.audioBytes, hkind]
      have hsame : r.wave.sink = s.wave.sink := by rw [hwave]; rfl
      obtain ⟨hwritten, hgrows⟩ :=
        writeCount_capped (hsame ▸ h.wave) bytes.bytes r.summary.audioBytes
      rw [← hbytes, ← hwave, hbytes] at hwritten hgrows
      exact ⟨⟨h.wire, hwritten, h.events, h.headed.trans (hsame ▸ hgrows), h.patch⟩, rfl, rfl⟩
  | _ => exact ⟨h, rfl, rfl⟩

theorem Within.writeEvents {w : Writer} {line : List UInt8} (h : Within cap r)
    (hevents : r.events = refuse cap w line) : Within cap (r.writeEvents line).1 := by
  have hsame : r.events.sink = w.sink := by rw [hevents]; rfl
  have hwritten := (writeCount_capped (hsame ▸ h.events) line r.summary.eventBytes).1
  rw [← hevents] at hwritten
  exact ⟨h.wire, h.wave, hwritten, h.headed, h.patch⟩

/-- A record, accepted or not, leaves the files within the cap. -/
theorem within_record (h : Within cap r) (record : Record) :
    Within cap (recordWithin cap r record).1 := by
  let refused : Recording := { r with
    wire := refuse cap r.wire record.wireBytes
    wave := refuse cap r.wave record.audioBytes
    events := refuse cap r.events (record.line r.id) }
  have hrefused : Within cap refused := h.congr rfl rfl rfl rfl
  have hrecord : recordWithin cap r record = refused.record record := rfl
  rw [hrecord]
  cases hvalidate : refused.validate record with
  | error v =>
      rw [Recording.record_refused hvalidate]
      exact hrefused.congr rfl rfl rfl rfl
  | ok next =>
      have hwire : refused.wire = refuse cap r.wire record.wireBytes := rfl
      have hwave : refused.wave = refuse cap r.wave record.audioBytes := rfl
      obtain ⟨hpayload, hevents, hid⟩ := hrefused.writePayload hwire hwave
      rcases hwrite : refused.writePayload record.kind with ⟨t, stage, e | ⟨⟩⟩
      · rw [Recording.record_payloadFailed hvalidate hwrite]
        rw [hwrite] at hpayload
        exact hpayload.congr rfl rfl rfl rfl
      · rw [hwrite] at hpayload hevents hid
        have hline : record.line t.id = record.line r.id := by rw [hid]
        have hwritten := hpayload.writeEvents hevents
        rw [← hline] at hwritten
        rcases hline : t.writeEvents (record.line t.id) with ⟨u, e | ⟨⟩⟩
        · rw [Recording.record_eventsFailed hvalidate hwrite hline]
          rw [hline] at hwritten
          exact hwritten.congr rfl rfl rfl rfl
        · rw [Recording.record_accepted hvalidate hwrite hline]
          rw [hline] at hwritten
          refine hwritten.congr rfl rfl rfl ?_
          rw [Recording.accept]
          cases record.kind <;> rfl

/-- The header is replaced in place, and nothing else is written. -/
theorem finishWithin_sinks (h : Within cap r) :
    (finishWithin cap r).1.wire.sink = r.wire.sink ∧
      (finishWithin cap r).1.events.sink = r.events.sink ∧
      (finishWithin cap r).1.wave.sink.content.length = r.wave.sink.content.length := by
  have hpatch : (refusePatch cap r).summary.patchBytes = 0 := by
    simp only [refusePatch, h.patch]
  have hfinished := Recording.finish_finished hpatch
  have hbefore : (refusePatch cap r).wave.sink = r.wave.sink := by simp only [refusePatch]
  unfold finishWithin
  refine ⟨?_, ?_, ?_⟩
  · rw [hfinished.wire, refusePatch]
  · rw [hfinished.events, refusePatch]
  · have hle := hfinished.patch_le
    have hheader := h.headed
    unfold header at hheader
    rw [hfinished.wave, hbefore, List.length_append, List.length_take, List.length_drop,
      headerContent_length]
    omega

/-- A recorder over a new WAVE file, also when the header is refused. -/
theorem openWithin_capped (cap : ℕ) (id : ConnectionId) {wire wave events : Writer}
    (hwire : wire.sink = .empty) (hwave : wave.sink = .empty) (hevents : events.sink = .empty) :
    let opened := openWithin cap id wire wave events
    opened.1.wire.sink = .empty ∧ Capped cap opened.1.wave.sink ∧ opened.1.events.sink = .empty ∧
      (opened.2 = .ok () → Within cap opened.1) := by
  intro opened
  have hempty : Capped cap .empty := ⟨le_rfl, Nat.zero_le _⟩
  obtain ⟨hcapped, _⟩ := writeCount_capped (w := wave) (hwave ▸ hempty) (headerContent 0 .khz8) 0
  have hopened : opened = Recording.withSampleRate id .khz8 wire
    (refuse cap wave (headerContent 0 .khz8)) events := rfl
  have hsink : (refuse cap wave (headerContent 0 .khz8)).sink = .empty := hwave
  revert hcapped hopened hsink
  generalize refuse cap wave (headerContent 0 .khz8) = w
  intro hcapped hopened hsink
  obtain ⟨accepted, _, hput, _, hall⟩ := writeCount_puts w (headerContent 0 .khz8) 0
    (by rw [hsink]; exact le_rfl)
  have hheader : waveHeader 0 .khz8 = .ok (headerContent 0 .khz8) := rfl
  rcases hwritten : (Recording.blank id .khz8 wire w events).writeHeader
    (headerContent 0 .khz8) with ⟨s, result⟩
  have hs : s = ((Recording.blank id .khz8 wire w events).writeHeader (headerContent 0 .khz8)).1 :=
    by rw [hwritten]
  have hresult : result = (writeCount w (headerContent 0 .khz8) 0).result := by
    have hsnd := congrArg Prod.snd hwritten
    exact hsnd.symm
  have hcap : Capped cap s.wave.sink := by
    rw [hs]
    exact hcapped
  have hswire : s.wire.sink = .empty := by
    rw [hs]
    exact hwire
  have hsevents : s.events.sink = .empty := by
    rw [hs]
    exact hevents
  cases result with
  | error e =>
      have hfailed : opened = s.outputFailed .header e := by
        rw [hopened]
        simp only [Recording.withSampleRate, hheader, hwritten]
      rw [hfailed]
      exact ⟨hswire, hcap, hsevents, fun h ↦ (by cases h)⟩
  | ok _ =>
      have hok : opened = (s, .ok ()) := by
        rw [hopened]
        simp only [Recording.withSampleRate, hheader, hwritten]
      rw [hok]
      refine ⟨hswire, hcap, hsevents, fun _ ↦ ⟨?_, hcap, ?_, ?_, ?_⟩⟩
      · rw [hswire]
        exact hempty
      · rw [hsevents]
        exact hempty
      · have hcontent : s.wave.sink = w.sink.put accepted := by
          rw [hs]
          exact hput
        rw [hcontent, hall hresult.symm, length_put (by rw [hsink]; exact le_rfl),
          headerContent_length, hsink]
        exact le_rfl
      · rw [hs]
        rfl

end Recorder

end Phonowire.Capture
