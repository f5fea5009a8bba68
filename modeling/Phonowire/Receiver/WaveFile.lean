import Phonowire.Receiver.Pipeline

/-!
# A finished WAVE file is well formed

The size limit is checked for each record, long before the header is written for
the second time. It bounds everything that was ever counted as audio, so both
size fields of the final header are the numbers they stand for, and what follows
the header is the audio of the records.
-/

namespace Phonowire.Receiver

open AudioSocket

/-! ## Little-endian fields -/

/-- The number that bytes stand for, the lowest byte first. -/
def fromLe : List UInt8 → ℕ
  | [] => 0
  | byte :: bytes => byte.toNat + 256 * fromLe bytes

/-- The four bytes of `content` from `offset` on, as a number. -/
def fieldAt (content : List UInt8) (offset : ℕ) : ℕ := fromLe ((content.drop offset).take 4)

theorem fromLe_le32 {n : ℕ} (h : n ≤ u32Max) : fromLe (le32 n) = n := by
  unfold u32Max at h
  simp only [le32, le16, fromLe, List.cons_append, List.nil_append, UInt8.toNat_ofNat']
  omega

theorem fieldAt_header (audioBytes : ℕ) (rate : SampleRate) (rest : List UInt8) :
    fieldAt (headerContent audioBytes rate ++ rest) 4 = fromLe (le32 (audioBytes + riffOverhead)) ∧
      fieldAt (headerContent audioBytes rate ++ rest) 24 = fromLe (le32 rate.hertz) ∧
      fieldAt (headerContent audioBytes rate ++ rest) 28 =
        fromLe (le32 (rate.hertz * sampleBytes)) ∧
      fieldAt (headerContent audioBytes rate ++ rest) 40 = fromLe (le32 audioBytes) := by
  simp [fieldAt, headerContent, le32, le16]

/-- The largest number of audio bytes that both size fields can hold. -/
def waveLimit : ℕ := u32Max - riffOverhead

theorem waveHeader_eq (audioBytes : ℕ) (rate : SampleRate) :
    waveHeader audioBytes rate =
      if waveLimit < audioBytes then .error .waveSize else .ok (headerContent audioBytes rate) := by
  unfold waveHeader waveLimit u32Max riffOverhead
  split_ifs <;> first | rfl | omega

namespace Recording

variable {r : Recording} {past : List Record} {record : Record}

/-! ## The limit on audio -/

/-- The checks on an audio record in front of the size limit. -/
structure AudioChecked (r : Recording) (record : Record) (uuid : Uuid) (rate : SampleRate)
    (bytes : List UInt8) : Prop where
  state : r.state ≠ .failed ∧ r.state ≠ .ended ∧ r.state ≠ .awaitingConnection
  connection : record.connection = r.id
  offset : r.lastEventOffset ≤ record.offset ∧ record.offset ≤ r.summary.wireBytes
  identity : r.identity = some uuid
  rate : rate = r.sampleRate
  even : bytes.length % sampleBytes = 0

theorem AudioChecked.validate {uuid : Uuid} {rate : SampleRate} {bytes : OwnedBytes}
    (h : r.AudioChecked record uuid rate bytes.bytes) (hkind : record.kind = .audio uuid rate bytes) :
    r.validate record =
      if waveLimit < r.summary.audioBytes + bytes.bytes.length then .error .waveSize
      else .ok r.state := by
  obtain ⟨hfailed, hended, hawaiting⟩ := h.state
  have hoffset : ¬ (record.offset < r.lastEventOffset ∨ r.summary.wireBytes < record.offset) := by
    have hbounds := h.offset
    omega
  have hformat : ¬ (rate ≠ r.sampleRate ∨ bytes.bytes.length % sampleBytes ≠ 0) := by
    rintro (hrate | hodd)
    · exact hrate h.rate
    · exact hodd h.even
  simp only [Recording.validate, hfailed, hended, hawaiting, h.connection, hkind,
    RecordKind.isWire, hoffset, validateKind, h.identity, hformat, waveHeader_eq, ne_eq,
    not_true_eq_false, false_and, and_false, if_false, checkedAdd]
  split_ifs with hover hlimit hlimit
  · rfl
  · simp only [waveLimit, u32Max, u64Max] at hover hlimit
    omega
  · simp only [if_pos hlimit]
    rfl
  · simp only [if_neg hlimit]
    rfl

/-- An accepted audio record leaves the count even and within the limit. -/
theorem validate_audio {next : RecordingState} (h : r.validate record = .ok next)
    {uuid : Uuid} {rate : SampleRate} {bytes : OwnedBytes} (hkind : record.kind = .audio uuid rate bytes) :
    bytes.bytes.length % 2 = 0 ∧ r.summary.audioBytes + bytes.bytes.length ≤ waveLimit := by
  unfold Recording.validate at h
  rw [hkind] at h
  split_ifs at h
  simp only [validateKind] at h
  split_ifs at h with huuid hformat
  cases hnext : checkedAdd r.summary.audioBytes bytes.bytes.length with
  | none => simp [hnext] at h
  | some total =>
      obtain ⟨_, rfl⟩ := checkedAdd_eq_some_iff.mp hnext
      simp only [hnext, waveHeader_eq] at h
      split_ifs at h with hlimit
      · cases h
      · push Not at hformat
        exact ⟨hformat.2, not_lt.mp hlimit⟩

/-- The audio of the records is even and fits the header. -/
def Bounded (past : List Record) : Prop :=
  (audioOutput past).length % 2 = 0 ∧ (audioOutput past).length ≤ waveLimit

theorem Bounded.snoc {next : RecordingState} (h : Bounded past) (hsound : r.Sound past)
    (hvalidate : r.validate record = .ok next) : Bounded (past ++ [record]) := by
  have hstate : r.state ≠ .failed := by
    intro hfailed
    simp [validate_failed hfailed] at hvalidate
  have hcount := (hsound.full hstate).audio
  unfold Bounded
  rw [audioOutput_append, List.length_append]
  unfold Record.audioBytes
  cases hkind : record.kind with
  | audio uuid rate bytes =>
      obtain ⟨heven, hle⟩ := validate_audio hvalidate hkind
      have hpast := h.1
      dsimp only
      omega
  | _ => exact h

theorem Bounded.run (h : Bounded past) (hsound : r.Sound past) (records : List Record) :
    Bounded (past ++ r.validated records) := by
  induction records generalizing r past with
  | nil => simpa [validated] using h
  | cons record records ih =>
      rw [validated, ← List.append_assoc]
      cases hvalidate : r.validate record with
      | ok next => exact ih (h.snoc hsound hvalidate) (hsound.record_valid hvalidate).sound
      | error v =>
          have hnext : (r.record record).1.Sound past := by
            rw [record_refused hvalidate]
            exact Sound.failed hsound.outputs
          simpa using ih h hnext

/-! ## Records of a recorder that has not failed -/

/-- As long as the recorder has not failed it has accepted every record. -/
theorem accepted_of_run (hsound : r.Sound past) (records : List Record)
    (hstate : (r.run records).state ≠ .failed) :
    r.validated records = records ∧ ∀ result ∈ r.results records, result = .ok () := by
  induction records generalizing r past with
  | nil => exact ⟨rfl, fun _ hmem ↦ absurd hmem List.not_mem_nil⟩
  | cons record records ih =>
      rw [run_cons] at hstate
      cases hresult : (r.record record).2 with
      | error e =>
          have hfailed := (record_error hsound hresult).2.2
          rw [((absorbs_of_failed hfailed).1 records).1] at hstate
          exact absurd hfailed hstate
      | ok _ =>
          cases hvalidate : r.validate record with
          | error v =>
              rw [record_refused hvalidate] at hresult
              cases hresult
          | ok next =>
              obtain ⟨hvalidated, hresults⟩ := ih (hsound.record_valid hvalidate).sound hstate
              refine ⟨?_, ?_⟩
              · rw [validated, hvalidate, hvalidated]
                rfl
              · rw [results, hresult]
                intro result hmem
                rcases List.mem_cons.mp hmem with rfl | hmem
                · rfl
                · exact hresults result hmem

theorem finish_state {summary : RecordingSummary} (h : r.finish.2 = .ok summary) :
    r.state ≠ .failed := by
  intro hfailed
  rw [(absorbs_of_failed hfailed).2] at h
  cases h

/-! ## The finished file -/

/-- The file behind a `finish` that returned `summary`: a header whose fields are
the numbers they stand for, and the audio of the records. -/
structure WellFormed (content : List UInt8) (rate : SampleRate) (records : List Record)
    (audioBytes : ℕ) : Prop where
  whole : content = headerContent audioBytes rate ++ audioOutput records
  length : content.length = 44 + audioBytes
  riff : fieldAt content 4 = content.length - 8
  data : fieldAt content 40 = audioBytes
  hertz : fieldAt content 24 = rate.hertz
  byteRate : fieldAt content 28 = 2 * rate.hertz
  even : audioBytes % 2 = 0

theorem hertz_le (rate : SampleRate) : rate.hertz * sampleBytes ≤ u32Max ∧ rate.hertz ≤ u32Max := by
  cases rate <;> decide

theorem wellFormed_of_finish {records : List Record} {summary : RecordingSummary}
    (hsound : r.Sound records) (hbounded : Bounded records) (hfinish : r.finish.2 = .ok summary) :
    WellFormed r.finish.1.wave.sink.content r.sampleRate records summary.audioBytes := by
  have hfull := hsound.full (finish_state hfinish)
  have hfinished := finish_finished hsound.outputs.patch
  obtain ⟨rfl, hpatch⟩ := hfinished.ok summary hfinish
  have haudio : r.finish.1.summary.audioBytes = r.summary.audioBytes := by
    rw [hfinished.summary]
  have hwave := hfinished.wave
  rw [hpatch, hsound.reports.wave, hfull.header, hfull.audio, List.take_length,
    ← headerContent_length 0 r.sampleRate, List.take_length, List.drop_left,
    headerContent_length, ← headerContent_length (audioOutput records).length r.sampleRate,
    List.take_length] at hwave
  rw [haudio, hfull.audio, hwave]
  obtain ⟨hriff, hrate, hbyte, hdata⟩ := fieldAt_header (audioOutput records).length r.sampleRate
    (audioOutput records)
  have hle := hbounded.2
  unfold waveLimit u32Max riffOverhead at hle
  have hsize : (headerContent (audioOutput records).length r.sampleRate ++
      audioOutput records).length = 44 + (audioOutput records).length := by
    rw [List.length_append, headerContent_length]
  obtain ⟨hbyteLe, hrateLe⟩ := hertz_le r.sampleRate
  constructor
  case whole => rfl
  case length => exact hsize
  case riff =>
    rw [hriff, fromLe_le32 (by unfold u32Max riffOverhead; omega), hsize]
    unfold riffOverhead
    omega
  case data =>
    rw [hdata, fromLe_le32 (by unfold u32Max; omega)]
  case hertz => rw [hrate, fromLe_le32 hrateLe]
  case byteRate =>
    rw [hbyte, fromLe_le32 hbyteLe, Nat.mul_comm]
    rfl
  case even => exact hbounded.1

theorem run_sampleRate (r : Recording) (records : List Record) :
    (r.run records).sampleRate = r.sampleRate := by
  induction records generalizing r with
  | nil => rfl
  | cons record records ih =>
      rw [run_cons, ih, (record_keeps r record).2]

theorem Sound.audio_le (h : r.Sound past) (hbounded : Bounded past) :
    r.summary.audioBytes ≤ waveLimit :=
  h.reports.audio_le.trans hbounded.2

/-- Within the limit `finish` never fails on the size of the file. -/
theorem finish_ne_waveSize (hle : r.summary.audioBytes ≤ waveLimit)
    (hpatch : r.summary.patchBytes = 0) {e : RecordingError} (h : r.finish.2 = .error e) :
    e.failure ≠ .invalid .waveSize := by
  intro hfailure
  cases ((finish_finished hpatch).error e h).1 with
  | after hstate => cases hfailure
  | size hsize =>
      rw [waveHeader_eq, if_neg hle.not_gt] at hsize
      cases hsize
  | seek hseek => cases hfailure
  | patch hwrite => cases hfailure
  | flush hwrite hflush => cases hfailure

/-- For every script of the writers and every sequence of records: a `finish`
that succeeds leaves a well-formed WAVE file with the audio of all records; the
count of audio bytes always fits the header, so the size never fails `finish`;
and an audio record that passes the other checks is refused for its size exactly
when it would pass the limit, with no output touched. -/
theorem wave_file_well_formed (id : ConnectionId) (rate : SampleRate)
    (wire wave events : List WriteOutcome)
    (seekError wireFlush waveFlush eventsFlush : Option IoError) (records : List Record) :
    let start := opened id rate wire wave events seekError wireFlush waveFlush eventsFlush
    let r := start.1.run records
    (∀ summary, r.finish.2 = .ok summary →
      (∀ result ∈ start.1.results records, result = .ok ()) ∧
        WellFormed r.finish.1.wave.sink.content rate records summary.audioBytes) ∧
    r.summary.audioBytes ≤ u32Max - riffOverhead ∧
    (∀ e, r.finish.2 = .error e → e.failure ≠ .invalid .waveSize) ∧
    ∀ record uuid sampleRate bytes, record.kind = .audio uuid sampleRate bytes →
      r.AudioChecked record uuid sampleRate bytes.bytes →
        (r.validate record = .error .waveSize ↔
          u32Max - riffOverhead < r.summary.audioBytes + bytes.bytes.length) ∧
        (r.validate record = .error .waveSize → r.record record =
          ({ r with state := .failed }, .error ⟨.validate, .invalid .waveSize, r.summary⟩)) := by
  intro start r
  obtain ⟨hstart, hrate, _⟩ :=
    opened_sound id rate wire wave events seekError wireFlush waveFlush eventsFlush
  have hbounded : Bounded (start.1.validated records) := by
    simpa using Bounded.run ⟨rfl, Nat.zero_le _⟩ hstart records
  have hsound : r.Sound (start.1.validated records) := by
    simpa using hstart.run records
  have hle := hsound.audio_le hbounded
  refine ⟨?_, hle, fun e ↦ finish_ne_waveSize hle hsound.outputs.patch, ?_⟩
  · intro summary hfinish
    obtain ⟨hvalidated, hresults⟩ := accepted_of_run hstart records (finish_state hfinish)
    rw [hvalidated] at hsound hbounded
    have hformed := wellFormed_of_finish hsound hbounded hfinish
    rw [run_sampleRate, hrate] at hformed
    exact ⟨hresults, hformed⟩
  · intro record uuid sampleRate bytes hkind hchecked
    refine ⟨?_, record_refused⟩
    rw [hchecked.validate hkind]
    unfold waveLimit
    split_ifs with hlimit
    · exact iff_of_true rfl hlimit
    · exact iff_of_false nofun hlimit

/-- A call with four bytes of sound. -/
def shortAudio : List Record :=
  let uuid : Uuid := ⟨.replicate 16 0⟩
  let at_ (kind : RecordKind) : Record := ⟨⟨1, 2⟩, 0, ⟨0, 0⟩, kind⟩
  [at_ (.connected ⟨"127.0.0.1:9"⟩), at_ (.started uuid), at_ (.audio uuid .khz8 ⟨[1, 2, 3, 4]⟩)]

/-- Three records and a full writer leave a file of forty-eight bytes. -/
theorem wave_file_well_formed_short :
    ∃ content summary, WellFormed content .khz8 shortAudio 4 ∧ content.length = 48 ∧
      (((opened ⟨1, 2⟩ .khz8 [] [.accept 1] [] none none none none).1.run shortAudio).finish).2 =
        .ok summary := by
  obtain ⟨hformed, _⟩ := wave_file_well_formed ⟨1, 2⟩ .khz8 [] [.accept 1] [] none none none none
    shortAudio
  have hrun : (((opened ⟨1, 2⟩ .khz8 [] [.accept 1] [] none none none none).1.run
      shortAudio).finish).2.toOption.map (·.audioBytes) = some 4 := by
    decide +kernel
  cases hfinish : (((opened ⟨1, 2⟩ .khz8 [] [.accept 1] [] none none none none).1.run
      shortAudio).finish).2 with
  | error e =>
      rw [hfinish] at hrun
      cases hrun
  | ok summary =>
      rw [hfinish] at hrun
      obtain ⟨_, hwell⟩ := hformed summary hfinish
      have hbytes : summary.audioBytes = 4 := Option.some.inj hrun
      rw [hbytes] at hwell
      exact ⟨_, summary, hwell, hwell.length, rfl⟩

end Recording

end Phonowire.Receiver
