import Phonowire.Capture.Capacity
import Phonowire.Receiver.Pipeline

/-!
# A capture over a system that answers

Where every file takes what it is given and everything fits its limits, a run
over the records of a receiver whose connections all end cleanly returns `Ok`:
none of its guards refuses a record that it should take.
-/

namespace Phonowire.Capture

open Receiver AudioSocket

/-! ## Answers and sizes -/

/-- A new file that takes what it is given. -/
def Created.Works (created : Created) : Prop :=
  ∃ b, created = .ok b ∧ (∀ outcome ∈ b.script, outcome.Works) ∧ b.seekError = none ∧
    b.flushError = none

structure RecordIo.Works (io : RecordIo) : Prop where
  createDir : io.createDir = .ok ()
  wire : Created.Works io.create.wire
  wave : Created.Works io.create.wave
  events : Created.Works io.create.events
  summary : Created.Works io.summary

/-- What the recording of these records needs. -/
structure Sized (c : Config) (id : ConnectionId) (records : List Record) : Prop where
  wire : (wireOutput records).length ≤ c.file
  audio : header + (audioOutput records).length ≤ c.file
  events : (eventOutput id records).length ≤ c.file
  wave : (audioOutput records).length + riffOverhead ≤ u32Max

theorem Sized.of_append {c : Config} {id : ConnectionId} {records more : List Record}
    (h : Sized c id (records ++ more)) : Sized c id records := by
  obtain ⟨hwire, haudio, hevents, hwave⟩ := h
  have hwireLe := List.IsPrefix.length_le <| wireOutput_prefix records more
  have haudioLe := List.IsPrefix.length_le <| audioOutput_prefix records more
  have heventsLe := List.IsPrefix.length_le <| eventOutput_prefix id records more
  exact ⟨hwireLe.trans hwire, by omega, heventsLe.trans hevents, by omega⟩

section Fitting

variable {cap position : ℕ} {request : List UInt8} {w : Writer} {bytes : List UInt8}

theorem refusing_of_le (hfits : position + request.length ≤ cap) (hcap : cap ≤ u64Max)
    (script : List WriteOutcome) : refusing cap position request script = script := by
  apply if_neg
  rintro ⟨_, hover⟩
  unfold exceeds at hover
  rw [checkedAdd_eq_some_iff.mpr ⟨hfits.trans hcap, rfl⟩, Option.all_some,
    decide_eq_true_eq] at hover
  omega

theorem refuse_of_le (hfits : w.sink.position + bytes.length ≤ cap) (hcap : cap ≤ u64Max) :
    refuse cap w bytes = w := by
  unfold refuse
  rw [refusing_of_le hfits hcap]

end Fitting

/-! ## One recorder -/

/-- A recorder over writers that do not fail, which accepted `past`. -/
structure Fine (id : ConnectionId) (past : List Record) (r : Recording) : Prop where
  took : Took id past r
  fed : ∃ start : Recording, start.Taken [] .empty ∧ start.id = id ∧
    start.sampleRate = .khz8 ∧ r = start.run past

section Recorder

variable {c : Config} {id : ConnectionId} {past : List Record} {record : Record} {r s : Recording}

/-- The writers stand behind what was recorded. -/
theorem Took.positions (h : Took id past r) :
    r.wire.sink.position = (wireOutput past).length ∧
      r.wave.sink.position = header + (audioOutput past).length ∧
      r.events.sink.position = (eventOutput id past).length := by
  obtain ⟨⟨hwireEnd, hwire, _⟩, ⟨hwaveEnd, hwave, _⟩, ⟨heventsEnd, hevents, _⟩, _, _⟩ :=
    h.sound.outputs
  have hfull := h.sound.full h.live
  rw [Sink.AtEnd] at hwireEnd hwaveEnd heventsEnd
  rw [hwireEnd, hwire, hwaveEnd, hwave, heventsEnd, hevents, hfull.wire, hfull.audio, hfull.events,
    hfull.header, h.id]
  simp [headerContent_length, header]

theorem steadily_taken (id : ConnectionId) {wire wave events : List WriteOutcome}
    (hwire : ∀ outcome ∈ wire, outcome.Works) (hwave : ∀ outcome ∈ wave, outcome.Works)
    (hevents : ∀ outcome ∈ events, outcome.Works) :
    (Recording.steadily id .khz8 wire wave events).2 = .ok () ∧
      (Recording.steadily id .khz8 wire wave events).1.Taken [] .empty ∧
      (Recording.steadily id .khz8 wire wave events).1.id = id ∧
      (Recording.steadily id .khz8 wire wave events).1.sampleRate = .khz8 := by
  obtain ⟨hok, hsteady, hmatches, hending⟩ :=
    Recording.steadily_ready id .khz8 hwire hwave hevents
  obtain ⟨hsound, hrate, hid, _⟩ :=
    Recording.opened_sound id .khz8 wire wave events none none none none
  refine ⟨hok, ⟨rfl, rfl, hsteady, hsound, hmatches, ?_, Or.inl ⟨?_, hending, ?_⟩⟩, hid, hrate⟩
  · simp [Recording.results]
  · simp [Ledger.empty]
  · simp

/-- A recorder is opened wherever the header fits. -/
theorem create_fine (id : ConnectionId) {io : CreateIo} (hheader : header ≤ c.file)
    (hfile : c.file ≤ u64Max) (hwire : Created.Works io.wire) (hwave : Created.Works io.wave)
    (hevents : Created.Works io.events) :
    ∃ d r, create c.file id io = (d, .ok r) ∧ Fine id [] r := by
  obtain ⟨wire, hwire, hwireScript, hwireSeek, hwireFlush⟩ := hwire
  obtain ⟨wave, hwave, hwaveScript, hwaveSeek, hwaveFlush⟩ := hwave
  obtain ⟨events, hevents, heventsScript, heventsSeek, heventsFlush⟩ := hevents
  obtain ⟨hok, htaken, hid, hrate⟩ := steadily_taken id hwireScript hwaveScript heventsScript
  have hfits : wave.file.sink.position + (headerContent 0 .khz8).length ≤ c.file := by
    rw [headerContent_length]
    exact hheader
  have hopened : openWithin c.file id wire.file wave.file events.file =
      Recording.steadily id .khz8 wire.script wave.script events.script := by
    unfold openWithin Recording.steadily Recording.opened
    rw [refuse_of_le hfits hfile, Behaviour.file, Behaviour.file, Behaviour.file, hwireSeek,
      hwireFlush, hwaveSeek, hwaveFlush, heventsSeek, heventsFlush]
  have hpair : openWithin c.file id wire.file wave.file events.file =
      ((Recording.steadily id .khz8 wire.script wave.script events.script).1, .ok ()) := by
    rw [hopened]
    exact Prod.ext rfl hok
  have hcreate : create c.file id io =
      (({} : Directory).keep (Recording.steadily id .khz8 wire.script wave.script
        events.script).1, .ok (Recording.steadily id .khz8 wire.script wave.script
          events.script).1) := by
    unfold create
    rw [hwire, hwave, hevents]
    dsimp only
    rw [hpair]
  exact ⟨_, _, hcreate, create_took hcreate, _, htaken, hid, hrate, rfl⟩

/-- A recorder takes the next record of its connection wherever it fits. -/
theorem Fine.step {m : Ledger} (h : Fine id past r) (hfile : c.file ≤ u64Max)
    (hsized : Sized c id (past ++ [record]))
    (hadmits : Ledger.Admits id .khz8 (past ++ [record]) m) :
    ∃ s, recordWithin c.file r record = (s, .ok ()) ∧ Fine id (past ++ [record]) s := by
  obtain ⟨htook, start, hstart, hid, hrate, hr⟩ := h
  obtain ⟨hwire, hwave, hevents⟩ := htook.positions
  have hbefore := hsized.of_append
  have hwireLe := hsized.wire
  have haudioLe := hsized.audio
  have heventsLe := hsized.events
  rw [Recording.wireOutput_append, List.length_append] at hwireLe
  rw [Recording.audioOutput_append, List.length_append] at haudioLe
  rw [Recording.eventOutput_append, List.length_append] at heventsLe
  rw [← htook.id] at hevents heventsLe
  have hwithin : recordWithin c.file r record = r.record record := by
    unfold recordWithin
    rw [refuse_of_le (by omega) hfile, refuse_of_le (by omega) hfile,
      refuse_of_le (by omega) hfile]
  obtain ⟨l, hl, htakes⟩ := hadmits.of_snoc
  have hfits : Recording.Fits start.id past := by
    rw [hid]
    exact ⟨hbefore.wave, hbefore.events.trans hfile⟩
  have hadmitted : Ledger.Admits start.id start.sampleRate past l := by
    rw [hid, hrate]
    exact hl
  have htaken := Recording.Taken.of_admits hstart hadmitted hfits
  have hnext := htaken.step (Recording.wire_le_of_admits hl) hfits (by rwa [hid, hrate])
  have hwaveLe := hsized.wave
  have hall := hsized.events.trans hfile
  rw [if_neg (Nat.not_lt.mpr hwaveLe), hid, if_neg (Nat.not_lt.mpr hall), ← hr] at hnext
  obtain ⟨hok, _⟩ := hnext
  have hpair : recordWithin c.file r record = ((r.record record).1, .ok ()) := by
    rw [hwithin]
    exact Prod.ext rfl hok
  refine ⟨_, hpair, htook.accept hpair, start, hstart, hid, hrate, ?_⟩
  rw [Recording.run_concat, hr]

/-- A recorder is finished wherever its records fit. -/
theorem Fine.finish {l : Ledger} (h : Fine id past r) (hheader : header ≤ c.file)
    (hfile : c.file ≤ u64Max) (hsized : Sized c id past)
    (hadmits : Ledger.Admits id .khz8 past l) :
    ∃ s, finishWithin c.file r = (s, .ok (wholeSummary id past)) := by
  obtain ⟨htook, start, hstart, hid, hrate, hr⟩ := h
  have hpatch : refusePatch c.file r = r := by
    unfold refusePatch
    dsimp only
    rw [refusing_of_le (by rw [headerContent_length]; exact hheader) hfile]
  have hfits : Recording.Fits start.id past := by
    rw [hid]
    exact ⟨hsized.wave, hsized.events.trans hfile⟩
  have hadmitted : Ledger.Admits start.id start.sampleRate past l := by
    rw [hid, hrate]
    exact hadmits
  have htaken := Recording.Taken.of_admits hstart hadmitted hfits
  have hcompleted := htaken.completed (Recording.ne_failed_of_admits hadmits) hfits
  have hok := hcompleted.ok
  rw [← hr] at hok
  have hpair : finishWithin c.file r = (r.finish.1, .ok r.finish.1.summary) := by
    unfold finishWithin
    rw [hpatch]
    exact Prod.ext rfl hok
  obtain ⟨hsummary, _⟩ := htook.finish hpair
  rw [hsummary] at hpair
  exact ⟨_, hpair⟩

end Recorder

theorem writeJson_of_works {cap : ℕ} {created : Created} {text : String}
    (hworks : Created.Works created) (hfits : (utf8 text).length ≤ cap) (hcap : cap ≤ u64Max) :
    writeJson cap none created text = (some (utf8 text), true) := by
  obtain ⟨b, rfl, hscript, _, hflush⟩ := hworks
  have hrefusing : refusing cap Sink.empty.position (utf8 text) b.script = b.script := by
    apply refusing_of_le ?_ hcap
    rw [Sink.empty, Nat.zero_add]
    exact hfits
  have hloop : limitedLoop cap b.script .empty (utf8 text) 0 =
      writeLoop b.script .empty (utf8 text) 0 := by
    rw [limitedLoop_eq, hrefusing]
  obtain ⟨hok, _⟩ := writeLoop_steady b.script .empty (utf8 text) 0 hscript
  have hwhole : (limitedLoop cap b.script .empty (utf8 text) 0).sink.content = utf8 text := by
    apply limitedLoop_ok
    rw [hloop]
    exact hok
  unfold writeJson
  dsimp only
  rw [hwhole, hloop, hok, hflush]
  rfl

/-! ## One record -/

/-- The records of a connection that the application can record as a whole. -/
structure Acceptable (c : Config) (id : ConnectionId) (records : List Record) : Prop where
  shaped : Shaped records
  sized : Sized c id records
  admits : ∃ l, Ledger.Admits id .khz8 records l
  clean : (∃ record ∈ records, record.kind.isEnded = true) →
    successfulTerminal (closing records) = true ∧
      (utf8 (jsonSummary id "observed" (wholeSummary id records) none)).length ≤ c.summary

theorem Acceptable.of_append {c : Config} {id : ConnectionId} {records more : List Record}
    (h : Acceptable c id (records ++ more)) : Acceptable c id records := by
  obtain ⟨l, hl⟩ := h.admits
  refine ⟨h.shaped.of_append, h.sized.of_append, hl.of_append, ?_⟩
  rintro ⟨record, hmem, hended⟩
  obtain ⟨before, after, rfl⟩ := List.append_of_mem hmem
  have hnil := h.shaped.ended before record (after ++ more) (by simp) hended
  obtain ⟨rfl, rfl⟩ := List.append_eq_nil_iff.mp hnil
  have hclean := h.clean ⟨record, by simp, hended⟩
  rwa [List.append_nil] at hclean

theorem Shaped.countP_connected {records : List Record} (h : Shaped records) (hne : records ≠ []) :
    records.countP (·.kind.isConnected) = 1 := by
  obtain ⟨first, rest, rfl⟩ := List.exists_cons_of_ne_nil hne
  have hfirst := (h.connected [] first rest rfl).mpr rfl
  have hrest : rest.countP (·.kind.isConnected) = 0 := by
    rw [List.countP_eq_zero]
    intro record hmem hconnected
    obtain ⟨before, after, rfl⟩ := List.append_of_mem hmem
    cases (h.connected (first :: before) record after rfl).mp hconnected
  rw [List.countP_cons, hrest, if_pos hfirst]

theorem exists_ended_of_successful {records : List Record}
    (h : successfulTerminal (closing records) = true) :
    ∃ record ∈ records, record.kind.isEnded = true := by
  by_contra hopen
  push Not at hopen
  rw [closing_of_open fun record hmem ↦ Bool.eq_false_iff.mpr (hopen record hmem)] at h
  cases h

theorem acceptable_nil {c : Config} (hheader : header ≤ c.file) (id : ConnectionId) :
    Acceptable c id [] where
  shaped := ⟨fun before record after h ↦ (by simp at h), fun before record after h ↦ (by simp at h)⟩
  sized := ⟨Nat.zero_le _, hheader, Nat.zero_le _, by decide⟩
  admits := ⟨.empty, .nil⟩
  clean h := by simp at h

namespace Run

variable {w v : Run} {c : Config} {records : List Record} {record : Record} {io : RecordIo}
  {id : ConnectionId}

/-- Nothing was refused so far, and a stop was claimed by a signal only. -/
structure Flawless (records : List Record) (signalled : Prop) (w : Run) : Prop where
  bad : w.bad = false
  wake : w.control.info.wake = none
  won : w.control.won = true → signalled
  unowned : w.counts.unowned = 0
  metadata : w.counts.metadata = 0
  reserved : w.reserved = records.countP (·.kind.isConnected)
  fine : ∀ (id : ConnectionId) entry, w.entries[id]? = some entry →
    ∃ r, entry = .active r ∧ Fine id (records.filter (·.connection = id)) r
  gone : ∀ id : ConnectionId, w.entries[id]? = none →
    records.filter (·.connection = id) = [] ∨
      ∃ record ∈ records.filter (·.connection = id), record.kind.isEnded = true

theorem flawless_new (c : Config) (signalled : Prop) : Flawless [] signalled (new c) where
  bad := rfl
  wake := rfl
  won h := by cases h
  unowned := rfl
  metadata := rfl
  reserved := rfl
  fine id entry h := by simp [new] at h
  gone id _ := .inl rfl

theorem filter_snoc_self (records : List Record) (record : Record) :
    (records ++ [record]).filter (·.connection = record.connection) =
      records.filter (·.connection = record.connection) ++ [record] := by
  simp [List.filter_append]

theorem filter_snoc_of_ne (records : List Record) (hne : record.connection ≠ id) :
    (records ++ [record]).filter (·.connection = id) = records.filter (·.connection = id) := by
  simp [List.filter_append, hne]

/-- A step at one connection without a failure. -/
theorem Flawless.changed {signalled : Prop} {entry : Option Entry} {d : Option Directory}
    {more : List Happening} (h : Flawless records signalled w)
    (hchanged : Changed record.connection entry d more w v) (hbad : v.bad = w.bad)
    (hcontrol : v.control = w.control) (hcounts : v.counts = w.counts)
    (hreserved : v.reserved = (records ++ [record]).countP (·.kind.isConnected))
    (hfine : ∀ e, entry = some e → ∃ r, e = .active r ∧
      Fine record.connection (records.filter (·.connection = record.connection) ++ [record]) r)
    (hgone : entry = none → record.kind.isEnded = true) :
    Flawless (records ++ [record]) signalled v where
  bad := hbad.trans h.bad
  wake := by
    rw [hcontrol]
    exact h.wake
  won hwon := by
    rw [hcontrol] at hwon
    exact h.won hwon
  unowned := by
    rw [hcounts]
    exact h.unowned
  metadata := by
    rw [hcounts]
    exact h.metadata
  reserved := hreserved
  fine id e he := by
    rw [hchanged.entries] at he
    split_ifs at he with hid
    · subst hid
      rw [filter_snoc_self]
      exact hfine e he
    · rw [filter_snoc_of_ne records hid]
      exact h.fine id e he
  gone id hnone := by
    rw [hchanged.entries] at hnone
    split_ifs at hnone with hid
    · subst hid
      rw [filter_snoc_self]
      exact .inr ⟨record, by simp, hgone hnone⟩
    · rw [filter_snoc_of_ne records hid]
      exact h.gone id hnone

theorem Flawless.active {signalled : Prop} {r : Recording} (h : Flawless records signalled w)
    (hentry : w.entries[id]? = some (.active r)) :
    Fine id (records.filter (·.connection = id)) r := by
  obtain ⟨s, hs, hfine⟩ := h.fine id (.active r) hentry
  obtain rfl := Entry.active.inj hs
  exact hfine

/-- The directory of a recorder that is not finished has no summary. -/
theorem Disk.summary_eq_none {r : Recording} (h : Disk records w) (hphase : w.phase = .draining)
    (hentry : w.entries[id]? = some (.active r)) : (w.dirs.getD id {}).summary = none := by
  have hheld : w.Held id (records.filter (·.connection = id)) (.active r) :=
    h id (some (.active r)) ((tracks_iff hphase).mpr hentry)
  obtain ⟨hdir, _⟩ := hheld
  rw [Std.TreeMap.getD_eq_getD_getElem?, hdir]
  rfl

/-- What the state must allow when a record comes. -/
structure Admissible (c : Config) (records : List Record) (signalled : Prop) (record : Record)
    (w : Run) : Prop where
  own : Acceptable c record.connection
    (records.filter (·.connection = record.connection) ++ [record])
  quiet : record.kind.isConnected = true → ¬ signalled
  room : record.kind.isConnected = true → w.control.won = false →
    w.entries.size < c.active ∧ w.dirs[record.connection]? = none
  limit : record.kind.isConnected = true → w.reserved < c.run

theorem Handled.flawless {signalled : Prop} (h : Handled w record io v)
    (hbefore : Flawless records signalled w) (hphase : w.phase = .draining) (hkept : w.Kept c)
    (hvalid : c.Valid) (hfile : c.file ≤ u64Max) (hsummary : c.summary ≤ u64Max)
    (hdisk : Disk records w) (hio : io.Works)
    (hadmissible : Admissible c records signalled record w) :
    Flawless (records ++ [record]) signalled v := by
  have hconfig := hkept.config
  obtain ⟨hown, hquiet, hroom, hlimit⟩ := hadmissible
  obtain ⟨m, hadmits⟩ := hown.admits
  have hcount (hconnected : record.kind.isConnected = false) (hreserved : v.reserved = w.reserved) :
      v.reserved = (records ++ [record]).countP (·.kind.isConnected) := by
    rw [hreserved, hbefore.reserved, List.countP_append, List.countP_singleton, hconnected]
    rfl
  cases h with
  | stopped hconnected hwon hv => exact absurd (hbefore.won hwon) (hquiet hconnected)
  | full hconnected hwon hfull hv =>
      rw [hconfig] at hfull
      have hsize := (hroom hconnected hwon).1
      have hreserved := hlimit hconnected
      omega
  | uncreated hconnected hwon hlimit hv hdir =>
      exact absurd hio.createDir (hdir (hroom hconnected hwon).2)
  | created hconnected hwon hfull hactive hnew hopened hchanged hreserved hcounts hstops =>
      have hnil := filter_eq_nil_of_connected hconnected
        (by rw [filter_snoc_self]; exact hown.shaped)
      rw [hnil, List.nil_append] at hown hadmits
      obtain ⟨_, r, hmade, hfine⟩ :=
        create_fine record.connection hvalid.file hfile hio.wire hio.wave hio.events
      rw [← hconfig] at hmade
      obtain ⟨s, hrecorded, hnext⟩ := hfine.step hfile hown.sized hadmits
      rw [← hconfig] at hrecorded
      cases hopened with
      | failed hcreate =>
          rw [hmade] at hcreate
          cases hcreate
      | broken hcreate hrecord =>
          rw [hmade] at hcreate
          cases hcreate
          rw [hrecorded] at hrecord
          cases hrecord
      | taken hcreate hrecord =>
          rw [hmade] at hcreate
          cases hcreate
          rw [hrecorded] at hrecord
          cases hrecord
          obtain ⟨hbad, hcontrol⟩ := hstops.quiet rfl
          refine hbefore.changed hchanged hbad hcontrol hcounts ?_ ?_ (by rintro ⟨⟩)
          · have hroom := (hlimit hconnected).trans_le hvalid.run_le
            rw [hreserved, saturatingAdd, List.countP_append, List.countP_singleton,
              if_pos hconnected, ← hbefore.reserved]
            exact Nat.min_eq_left hroom
          · rintro _ ⟨⟩
            rw [hnil]
            exact ⟨_, rfl, hnext⟩
  | taken hconnected hended hentry hrecord hchanged hreserved hcounts hstops =>
      obtain ⟨s, hrecorded, hnext⟩ := (hbefore.active hentry).step hfile hown.sized hadmits
      rw [hconfig, hrecorded] at hrecord
      cases hrecord
      obtain ⟨hbad, hcontrol⟩ := hstops.quiet rfl
      refine hbefore.changed hchanged hbad hcontrol hcounts (hcount hconnected hreserved) ?_
        (by rintro ⟨⟩)
      rintro _ ⟨⟩
      exact ⟨_, rfl, hnext⟩
  | broken hconnected hentry hrecord hchanged hreserved hcounts hstops =>
      obtain ⟨s, hrecorded, _⟩ := (hbefore.active hentry).step hfile hown.sized hadmits
      rw [hconfig, hrecorded] at hrecord
      cases hrecord
  | unfinished hconnected hended hentry hrecord hfinish hchanged hreserved hcounts hstops =>
      obtain ⟨s, hrecorded, hnext⟩ := (hbefore.active hentry).step hfile hown.sized hadmits
      rw [hconfig, hrecorded] at hrecord
      cases hrecord
      obtain ⟨t, hfinished⟩ := hnext.finish hvalid.file hfile hown.sized hadmits
      rw [hconfig, hfinished] at hfinish
      cases hfinish
  | @finished hconnected hended r s t summary content ok hentry hrecord hfinish hwrite hchanged
      hreserved hcounts hbad hcontrol =>
      obtain ⟨s, hrecorded, hnext⟩ := (hbefore.active hentry).step hfile hown.sized hadmits
      rw [hconfig, hrecorded] at hrecord
      cases hrecord
      obtain ⟨t, hfinished⟩ := hnext.finish hvalid.file hfile hown.sized hadmits
      rw [hconfig, hfinished] at hfinish
      cases hfinish
      obtain ⟨hgood, hfits⟩ := hown.clean ⟨record, by simp, hended⟩
      have hobserved : outcome (wholeSummary record.connection
          (records.filter (·.connection = record.connection) ++ [record])) = "observed" :=
        if_pos hgood
      rw [hdisk.summary_eq_none hphase hentry, hconfig, hobserved,
        writeJson_of_works hio.summary hfits hsummary] at hwrite
      cases hwrite
      refine hbefore.changed hchanged ?_ hcontrol hcounts (hcount hconnected hreserved)
        (by rintro _ ⟨⟩) fun _ ↦ hended
      rw [hbad]
      simp [wholeSummary, hgood]
  | failed hconnected hentry hv =>
      obtain ⟨r, hr, _⟩ := hbefore.fine _ _ hentry
      cases hr
  | unowned hconnected hentry hv =>
      rcases hbefore.gone _ hentry with hnil | ⟨other, hmem, hended⟩
      · rw [hnil] at hown
        have hfirst := (hown.shaped.connected [] record [] rfl).mpr rfl
        rw [hconnected] at hfirst
        cases hfirst
      · rw [not_ended_of_shaped hown.shaped other hmem] at hended
        cases hended

/-! ## Whole runs -/

/-- Behind the drain a run is given no record. -/
theorem given_eq_nil {u : Run} {events : List Event} (hphase : u.phase ≠ .draining)
    (hrun : Machine.run Run.step u events = some v) : given events = [] := by
  induction events generalizing u with
  | nil => rfl
  | cons event events ih =>
      obtain ⟨t, hstep, hrest⟩ := Machine.run_cons.mp hrun
      cases event with
      | signal woken =>
          obtain ⟨_, rfl⟩ := step_signal hstep
          apply ih ?_ hrest
          exact hphase
      | record record io => exact absurd (step_record hstep).1 hphase
      | disconnected => exact absurd (step_disconnected hstep).1 hphase
      | finalize created =>
          obtain ⟨id, entry, rest, _, rfl⟩ := step_finalize hstep
          exact ih (by rintro ⟨⟩) hrest
      | exit io =>
          obtain ⟨_, rfl⟩ := step_exit hstep
          exact ih (by rintro ⟨⟩) hrest

/-- What a run is given by its environment when nothing goes wrong there. -/
structure Calm (c : Config) (events : List Event) : Prop where
  signal : ∀ woken, Event.signal woken ∈ events → woken = none
  io : ∀ record io, Event.record record io ∈ events → io.Works
  quiet : ∀ before woken after, events = before ++ .signal woken :: after →
    ∀ record ∈ given after, record.kind.isConnected = false
  acceptable : ∀ id, Acceptable c id ((given events).filter (·.connection = id))
  ended : ∀ id, (given events).filter (·.connection = id) = [] ∨
    ∃ record ∈ (given events).filter (·.connection = id), record.kind.isEnded = true
  limit : (given events).countP (·.kind.isConnected) ≤ c.run

theorem Flawless.mono {signalled more : Prop} (h : Flawless records signalled w)
    (himp : signalled → more) : Flawless records more w where
  bad := h.bad
  wake := h.wake
  won hwon := himp (h.won hwon)
  unowned := h.unowned
  metadata := h.metadata
  reserved := h.reserved
  fine := h.fine
  gone := h.gone

theorem Flawless.signal {signalled : Prop} (h : Flawless records signalled w)
    (hsignalled : signalled) :
    Flawless records signalled { w with control := w.control.signal none } where
  bad := h.bad
  wake := by
    have hwake := h.wake
    unfold Control.signal Control.request
    split
    · exact hwake
    · dsimp only
      rw [hwake]
      rfl
  won _ := hsignalled
  unowned := h.unowned
  metadata := h.metadata
  reserved := h.reserved
  fine := h.fine
  gone := h.gone

theorem Flawless.emptied {signalled : Prop} {phase : Phase} (h : Flawless records signalled w)
    (hended : ∀ id, records.filter (·.connection = id) = [] ∨
      ∃ record ∈ records.filter (·.connection = id), record.kind.isEnded = true) :
    Flawless records signalled { w with phase := phase, entries := ∅ } where
  bad := h.bad
  wake := h.wake
  won := h.won
  unowned := h.unowned
  metadata := h.metadata
  reserved := h.reserved
  fine id entry he := by simp at he
  gone id _ := hended id

/-- When all connections have ended there is no recorder left. -/
theorem Flawless.entries_eq_none {signalled : Prop} (h : Flawless records signalled w)
    (hphase : w.phase = .draining) (hdisk : Disk records w)
    (hended : ∀ id, records.filter (·.connection = id) = [] ∨
      ∃ record ∈ records.filter (·.connection = id), record.kind.isEnded = true)
    (id : ConnectionId) : w.entries[id]? = none := by
  cases hentry : w.entries[id]? with
  | none => rfl
  | some entry =>
      obtain ⟨r, rfl, _⟩ := h.fine id entry hentry
      have hheld : w.Held id (records.filter (·.connection = id)) (.active r) :=
        hdisk id _ ((tracks_iff hphase).mpr hentry)
      obtain ⟨_, _, hne, hopen, _⟩ := hheld
      rcases hended id with hnil | ⟨record, hmem, hend⟩
      · exact absurd hnil hne
      · rw [hopen record hmem] at hend
        cases hend

theorem open_of_step {u : Run} {event : Event} (hstep : u.step event = some v) (ok : Bool) :
    u.phase ≠ .exited ok := by
  cases event with
  | signal woken => exact (step_signal hstep).1 ok
  | record record io =>
      rw [(step_record hstep).1]
      rintro ⟨⟩
  | disconnected =>
      rw [(step_disconnected hstep).1]
      rintro ⟨⟩
  | finalize created =>
      obtain ⟨id, entry, rest, hphase, _⟩ := step_finalize hstep
      rw [hphase]
      rintro ⟨⟩
  | exit io =>
      rw [(step_exit hstep).1]
      rintro ⟨⟩

theorem given_snoc_record (events : List Event) (record : Record) (io : RecordIo) :
    given (events ++ [.record record io]) = given events ++ [record] := by
  simp [given, Event.records]

section Joint

variable {settings : Settings} {outside : List ℕ} {world : World} {isDir : Bool}
  {events rest : List Event}

/-- A calm environment admits each record. -/
theorem Calm.admissible (h : Calm c (events ++ .record record io :: rest))
    (hreserved : w.reserved = (given events).countP (·.kind.isConnected))
    (hroom : record.kind.isConnected = true → w.control.won = false →
      w.entries.size < c.active ∧ w.dirs[record.connection]? = none) :
    Admissible c (given events) (∃ woken, Event.signal woken ∈ events) record w := by
  have hgiven : given (events ++ .record record io :: rest) =
      given events ++ [record] ++ given rest := by
    simp [given, Event.records]
  constructor
  · have hown := h.acceptable record.connection
    rw [hgiven, List.filter_append, filter_snoc_self] at hown
    exact hown.of_append
  · rintro hconnected ⟨woken, hmem⟩
    obtain ⟨before, after, rfl⟩ := List.append_of_mem hmem
    have hquiet := h.quiet before woken (after ++ .record record io :: rest) (by simp) record
      (by simp [given, Event.records])
    rw [hquiet] at hconnected
    cases hconnected
  · exact hroom
  · intro hconnected
    have hlimit := h.limit
    rw [hgiven, List.countP_append, List.countP_append, List.countP_singleton, if_pos hconnected]
      at hlimit
    omega

theorem flawless_of_run (hfits : outside.sum ≤ settings.capacity.val)
    (hreachable : Machine.Reachable World.step (World.new settings outside) world)
    (hasked : world.asked = []) (hvalid : c.Valid)
    (hlimit : settings.limits.maxConnections.val ≤ c.active) {u : Run}
    (hu : Machine.run Run.step (new c) events = some u)
    (hrun : Machine.run Run.step u rest = some v)
    (hgiven : given (events ++ rest) = world.engine.accepted) (hcalm : Calm c (events ++ rest))
    (hopen : ∀ ok, u.phase ≠ .exited ok) :
    Flawless (given events) (∃ woken, Event.signal woken ∈ events) u ∧ u.status = none ∧
      (u.phase = .draining ∨ u.phase = .finalizing []) := by
  induction events using List.reverseRecOn generalizing rest u with
  | nil =>
      cases hu
      exact ⟨flawless_new c _, rfl, .inl rfl⟩
  | append_singleton events event ih =>
      obtain ⟨t, ht, hstep⟩ := Machine.run_snoc.mp hu
      have hsplit : (events ++ [event]) ++ rest = events ++ event :: rest := by simp
      rw [hsplit] at hgiven hcalm
      have hlater : Machine.run Run.step t (event :: rest) = some v :=
        Machine.run_cons.mpr ⟨u, hstep, hrun⟩
      obtain ⟨hbefore, hstatus, hphase⟩ := ih ht hlater hgiven hcalm (open_of_step hstep)
      have hmore : (∃ woken, Event.signal woken ∈ events) →
          ∃ woken, Event.signal woken ∈ events ++ [event] :=
        fun ⟨woken, hmem⟩ ↦ ⟨woken, List.mem_append_left _ hmem⟩
      have hshaped (id : ConnectionId) : Shaped ((given events).filter (·.connection = id)) := by
        have hall := World.shaped_of_reachable hfits hreachable id
        rw [← hgiven, given, List.flatMap_append, List.filter_append] at hall
        exact hall.of_append
      have hdisk := disk_of_run hvalid hshaped ht
      cases event with
      | signal woken =>
          obtain ⟨_, rfl⟩ := step_signal hstep
          obtain rfl := hcalm.signal woken (by simp)
          have hnow : given (events ++ [.signal none]) = given events := by
            simp [given, Event.records]
          rw [hnow]
          exact ⟨(hbefore.mono hmore).signal ⟨none, by simp⟩, hstatus, hphase⟩
      | record record io =>
          obtain ⟨hdraining, rfl⟩ := step_record hstep
          have hkept := (bounded_of_run hvalid ht).kept
          have hnext : given events ++ [record] <+: world.engine.accepted := by
            rw [← hgiven]
            exact ⟨given rest, by simp [given, Event.records]⟩
          have hadmissible := hcalm.admissible hbefore.reserved fun hconnected hwon ↦
            room_of_run hfits hreachable hasked hvalid hlimit ht hnext hconnected hdraining hwon
          obtain ⟨hfile, hsummary⟩ := hvalid.parts_le
          rw [given_snoc_record]
          refine ⟨?_, ?_, ?_⟩
          · exact ((handled_onRecord t record io).flawless hbefore hdraining hkept hvalid hfile
              hsummary hdisk (hcalm.io record io (by simp)) hadmissible).mono hmore
          · rw [onRecord_status, hstatus]
          · exact .inl ((onRecord_phase t record io).trans hdraining)
      | disconnected =>
          obtain ⟨hdraining, rfl⟩ := step_disconnected hstep
          have hnil := given_eq_nil (by rintro ⟨⟩) hrun
          have hall : given (events ++ .disconnected :: rest) = given events := by
            have hsum : given (events ++ .disconnected :: rest) = given events ++ given rest := by
              simp [given, Event.records]
            rw [hsum, hnil, List.append_nil]
          have hended := hcalm.ended
          rw [hall] at hended
          have hnone := hbefore.entries_eq_none hdraining hdisk hended
          have hempty : t.entries.toList = [] := by
            apply List.eq_nil_iff_forall_not_mem.mpr
            rintro ⟨id, entry⟩ hmem
            have hentry := Std.TreeMap.mem_toList_iff_getElem?_eq_some.mp hmem
            rw [hnone] at hentry
            cases hentry
          have hnow : given (events ++ [.disconnected]) = given events := by
            simp [given, Event.records]
          rw [hnow]
          refine ⟨hbefore.mono hmore |>.emptied hended, hstatus, .inr ?_⟩
          exact congrArg Phase.finalizing hempty
      | finalize created =>
          obtain ⟨id, entry, more, hfinalizing, _⟩ := step_finalize hstep
          rw [hfinalizing] at hphase
          rcases hphase with hphase | hphase <;> cases hphase
      | exit io =>
          obtain ⟨_, rfl⟩ := step_exit hstep
          exact absurd rfl (hopen _)

end Joint

/-! ## The receiver behind it -/

section Returned

variable {settings : Settings} {outside : List ℕ} {world : World} {result : DriveResult}

/-- A receiver that returned `Ok` behind connections that have all ended reports
nothing that was lost. -/
theorem summaryFailed_of_ended (hfits : outside.sum ≤ settings.capacity.val)
    (hreachable : Machine.Reachable World.step (World.new settings outside) world)
    (hpc : world.pc = .returned result) (hcomplete : world.summary.countersComplete = true)
    (hended : ∀ t ∈ world.engine.board.tasks, t.sent.countP (·.kind.isEnded) = 1) :
    summaryFailed world.summary = false := by
  have hsteady := World.steady_of_reachable hfits hreachable
  have haudited := World.audited_of_reachable hfits hreachable
  have hbooked := haudited.booked ⟨hcomplete, by rw [hpc]; rfl, by rw [hpc]; rintro p ⟨⟩⟩
  have hbalanced := World.balanced_of_returned haudited hsteady hpc hcomplete
  have hcounter (k : Counter) : world.summary.counter k =
      (world.engine.board.tasks.map (·.task.progress.counter k)).sum := by
    have hmerged := hbooked.merged k
    rw [hpc] at hmerged
    exact hmerged
  have hruns : ∀ t ∈ world.engine.board.tasks,
      ∃ token, Board.Runs world.engine.board.settings token t := by
    intro t ht
    obtain ⟨token, hat⟩ := Board.mem_tasks.mp ht
    exact ⟨token, hsteady.sound.coherent.departed token t hat⟩
  have habandoned : world.summary.abandoned = 0 := by
    apply (hcounter .abandoned).trans
    rw [List.sum_eq_zero_iff]
    intro n hn
    obtain ⟨t, ht, rfl⟩ := List.mem_map.mp hn
    obtain ⟨token, hrun⟩ := hruns t ht
    have hqueued := hrun.terminal_eq
    rw [hended t ht, eq_comm, Bool.toNat_eq_one] at hqueued
    simp [Progress.counter, hqueued]
  have hdelivered : world.summary.rawBytesRead = world.summary.rawBytesHandedOff := by
    apply (hcounter .read).trans
    apply Eq.trans ?_ (hcounter .handedOff).symm
    apply congrArg List.sum
    apply List.map_congr_left
    intro t ht
    obtain ⟨token, hrun⟩ := hruns t ht
    obtain ⟨_, _, hover, hread⟩ :=
      delivered_of_ended hfits hreachable hpc hcomplete ht (hended t ht)
    have hlength := congrArg List.length hread
    have hwire : (wireOutput t.sent).length = (t.sent.map (·.kind.wireLength)).sum := by
      simp [wireOutput, Function.comp_def, Recording.length_wireBytes]
    rw [Connection.bytesRead, List.length_flatten, List.map_map, hwire] at hlength
    exact (hrun.settled.1.read hover).trans (hlength.trans hrun.settled.1.wire.symm)
  have hundelivered := hbalanced.undelivered
  have hpending := hbalanced.pending_le
  rw [hdelivered, Nat.sub_self] at hundelivered
  rw [habandoned, Nat.le_zero] at hpending
  simp [summaryFailed, habandoned, hundelivered, hpending, hcomplete]

end Returned

/-! ## The exit -/

/-- What the application meets outside of itself and of its receiver when
nothing goes wrong there, and everything fits its limits. -/
structure Healthy (c : Config) (world : World) (events : List Event) : Prop where
  signal : ∀ woken, Event.signal woken ∈ events → woken = none
  io : ∀ record io, Event.record record io ∈ events → io.Works
  quiet : ∀ before woken after, events = before ++ .signal woken :: after →
    ∀ record ∈ given after, record.kind.isConnected = false
  room : world.summary.accepted ≤ c.run
  sized : ∀ t ∈ world.engine.board.tasks, Sized c t.task.id t.sent
  summary : ∀ t ∈ world.engine.board.tasks, (utf8 (jsonSummary t.task.id "observed"
    (wholeSummary t.task.id t.sent) none)).length ≤ c.summary

section Joint

variable {settings : Settings} {outside : List ℕ} {world : World} {isDir : Bool}
  {events : List Event} {result : DriveResult}

/-- Behind connections that all end cleanly a healthy environment is calm. -/
theorem Healthy.calm (h : Healthy c world events) (hfits : outside.sum ≤ settings.capacity.val)
    (hreachable : Machine.Reachable World.step (World.new settings outside) world)
    (hprofile : ∀ rate, settings.profile.accepts rate = true → rate = .khz8)
    (hpc : world.pc = .returned result) (hcomplete : world.summary.countersComplete = true)
    (hvalid : c.Valid) (hgiven : given events = world.engine.accepted)
    (hclean : ∀ t ∈ world.engine.board.tasks, successfulTerminal (closing t.sent) = true) :
    Calm c events := by
  have hsteady := World.steady_of_reachable hfits hreachable
  have hbalanced := World.balanced_of_returned (World.audited_of_reachable hfits hreachable)
    hsteady hpc hcomplete
  have hcalls (id : ConnectionId) : (given events).filter (·.connection = id) = [] ∨
      ∃ t ∈ world.engine.board.tasks, t.task.id = id ∧
        (given events).filter (·.connection = id) = t.sent := by
    rw [hgiven]
    rcases World.accepted_filter hsteady id with hnil | ⟨token, t, hid, ht, hsent⟩
    · exact .inl hnil
    · refine .inr ⟨t, World.mem_tasks_of_connection hsteady hpc ht, ?_, hsent⟩
      rw [hid]
      exact (hsteady.sound.coherent.connection_runs ht).id_eq
  have hended (id : ConnectionId) : (given events).filter (·.connection = id) = [] ∨
      ∃ record ∈ (given events).filter (·.connection = id), record.kind.isEnded = true := by
    rcases hcalls id with hnil | ⟨t, ht, _, hsent⟩
    · exact .inl hnil
    · rw [hsent]
      exact .inr (exists_ended_of_successful (hclean t ht))
  refine ⟨h.signal, h.io, h.quiet, ?_, hended, ?_⟩
  · intro id
    rcases hcalls id with hnil | ⟨t, ht, rfl, hsent⟩
    · rw [hnil]
      exact acceptable_nil hvalid.file id
    · have hshaped := World.shaped_of_reachable hfits hreachable t.task.id
      rw [← hgiven] at hshaped
      rw [hsent] at hshaped ⊢
      obtain ⟨token, hat⟩ := Board.mem_tasks.mp ht
      have hruns := hsteady.sound.coherent.departed token t hat
      have hid := hruns.id_eq
      have hreached := hruns.reachable
      rw [World.settings_of_reachable hfits hreachable] at hreached hid
      obtain ⟨l, hl⟩ := Connection.admits_of_reachable settings.fits hprofile hreached
      refine ⟨hshaped, h.sized t ht, ⟨l, ?_⟩, fun _ ↦ ⟨hclean t ht, h.summary t ht⟩⟩
      rw [hid]
      exact hl
  · have hcount : (given events).countP (·.kind.isConnected) =
        (given events).countP (·.kind.isEnded) := by
      apply List.countP_eq_of_filter Record.connection Record.connection
      intro id
      rcases hcalls id with hnil | ⟨t, ht, _, hsent⟩
      · rw [hnil]
        rfl
      · have hshaped := World.shaped_of_reachable hfits hreachable id
        rw [← hgiven] at hshaped
        rw [hsent] at hshaped ⊢
        obtain ⟨record, hmem, hend⟩ := exists_ended_of_successful (hclean t ht)
        obtain ⟨token, hat⟩ := Board.mem_tasks.mp ht
        have hruns := hsteady.sound.coherent.departed token t hat
        have hle := hruns.settled.2.endsOnce.countP_le
        have hpos : 0 < t.sent.countP (·.kind.isEnded) :=
          List.countP_pos_iff.mpr ⟨record, hmem, hend⟩
        rw [hshaped.countP_connected (List.ne_nil_of_mem hmem)]
        omega
    have hroom := h.room
    rw [hbalanced.settled, hbalanced.ended, ← hgiven] at hroom
    omega

/-- The exit code of a healthy capture. Over the records of a receiver that
returned, where files take what they are given, everything fits its limits and no
connection comes behind a signal, the application returns `Ok` exactly when the
receiver did, the thread of the signals is joined, the budget is free again and
every connection has ended cleanly. -/
theorem healthy_run_succeeds (hfits : outside.sum ≤ settings.capacity.val)
    (hreachable : Machine.Reachable World.step (World.new settings outside) world)
    (hprofile : ∀ rate, settings.profile.accepts rate = true → rate = .khz8)
    (hasked : world.asked = []) (hpc : world.pc = .returned result)
    (hconnected : world.engine.channel.connected = true)
    (hdrained : world.engine.channel.buffer = []) (hvalid : c.validate isDir = .ok ())
    (hlimit : settings.limits.maxConnections.val ≤ c.active) {exit : ExitIo}
    (hrun : Machine.run Run.step (new c) (events ++ [.exit exit]) = some v)
    (hgiven : given events = world.engine.received) (hhealthy : Healthy c world events)
    (hworker : exit.worker = .returned result.toBool world.summary)
    (hstatus : Created.Works exit.status) (hroom : (utf8 (v.statusJson exit.budgetUsed
      (some world.summary))).length ≤ c.status) :
    v.phase = .exited true ↔ result.toBool = true ∧ exit.signalsJoined = true ∧
      exit.budgetUsed = 0 ∧
      ∀ t ∈ world.engine.board.tasks, successfulTerminal (closing t.sent) = true := by
  have hok := Config.valid_of_validate hvalid
  have hsteady := World.steady_of_reachable hfits hreachable
  have hall : world.engine.received = world.engine.accepted := by
    have hqueued := hsteady.sound.handed.queued hconnected
    rwa [hdrained, List.append_nil] at hqueued
  obtain ⟨u, hu, hstep⟩ := Machine.run_snoc.mp hrun
  obtain ⟨hphase, rfl⟩ := step_exit hstep
  have hopen : ∀ ok, u.phase ≠ .exited ok := by
    rw [hphase]
    rintro _ ⟨⟩
  have hnow : given (events ++ [.exit exit]) = given events := by simp [given, Event.records]
  constructor
  · intro hsuccess
    have hwhole : Whole world (u.onExit exit) := by
      apply whole_of_ok hfits hreachable hpc hconnected hdrained hvalid hrun (hnow.trans hgiven) ?_
        hsuccess
      intro io hmem
      rcases List.mem_append.mp hmem with hmem | hmem
      · exact absurd hmem (not_mem_exit hu hopen io)
      · obtain rfl := Event.exit.inj (List.mem_singleton.mp hmem)
        exact .inr hworker
    obtain ⟨_, hjoined, hfailed, hbudget, _⟩ := (onExit_succeeds_iff u exit).mp hsuccess
    rw [hworker, workerFailed, Bool.not_eq_false'] at hfailed
    exact ⟨hfailed, hjoined, hbudget, fun t ht ↦ (hwhole.tasks t ht).1⟩
  · rintro ⟨hreturned, hjoined, hbudget, hclean⟩
    have hcomplete : world.summary.countersComplete = true := by
      have hhonest := World.honest_of_reachable hfits hreachable
      unfold World.Honest at hhonest
      rw [hpc] at hhonest
      by_contra hincomplete
      obtain ⟨error, rfl⟩ := hhonest.1 (Bool.eq_false_iff.mpr hincomplete)
      cases hreturned
    have hended : ∀ t ∈ world.engine.board.tasks, t.sent.countP (·.kind.isEnded) = 1 := by
      intro t ht
      obtain ⟨token, hat⟩ := Board.mem_tasks.mp ht
      have hruns := hsteady.sound.coherent.departed token t hat
      have hle := hruns.settled.2.endsOnce.countP_le
      have hpos : 0 < t.sent.countP (·.kind.isEnded) :=
        List.countP_pos_iff.mpr (exists_ended_of_successful (hclean t ht))
      omega
    have hlost := summaryFailed_of_ended hfits hreachable hpc hcomplete hended
    have hcalm := hhealthy.calm hfits hreachable hprofile hpc hcomplete hok (hgiven.trans hall)
      hclean
    rw [← List.append_nil events] at hcalm
    have hself : Machine.run Run.step u [] = some u := rfl
    obtain ⟨hflawless, hnone, _⟩ := flawless_of_run hfits hreachable hasked hok hlimit hu hself
      (by rw [List.append_nil]; exact hgiven.trans hall) hcalm hopen
    have hwritten : writeJson u.config.status u.status exit.status (u.statusJson exit.budgetUsed
        (some world.summary)) =
          (some (utf8 (u.statusJson exit.budgetUsed (some world.summary))), true) := by
      rw [hnone, (bounded_of_run hok hu).kept.config]
      exact writeJson_of_works hstatus hroom hok.status_le
    apply (onExit_succeeds_iff u exit).mpr
    rw [hworker, workerSummary, hwritten]
    refine ⟨hflawless.bad, hjoined, ?_, hbudget, hflawless.unowned, hflawless.metadata, ?_, ?_, rfl⟩
    · rw [workerFailed, hreturned]
      rfl
    · rw [Option.any_some]
      exact hlost
    · rw [Control.stopWakeFailed, hflawless.wake]
      rfl

end Joint

/-- A receiver of the one rate that the application records. -/
def eightKhz : Settings := { eightSlots with profile := .fromRates [.khz8] }

def pairConfig : Config := { smallConfig with active := 2, connections := 2, file := 1000 }

/-- A file that takes ten bytes at first and is interrupted then. -/
def slowFile : Created := .ok ⟨[.accept 10, .fail ⟨.interrupted, none, "signal"⟩], none, none⟩

theorem slowFile_works : Created.Works slowFile := by
  refine ⟨_, rfl, ?_, rfl, rfl⟩
  decide

/-- The application over the records of a worker, up to its exit. -/
def drainOf (w : World) : List Event :=
  w.engine.received.map (fun record ↦
    .record record ⟨.ok (), ⟨slowFile, slowFile, slowFile⟩, slowFile, none⟩) ++ [.disconnected]

theorem not_mem_drainOf (w : World) (woken : Option String) : Event.signal woken ∉ drainOf w := by
  simp [drainOf]

theorem works_drainOf {w : World} (hmem : Event.record record io ∈ drainOf w) : io.Works := by
  simp only [drainOf, List.mem_append, List.mem_map, Event.record.injEq, List.mem_singleton,
    reduceCtorEq, or_false] at hmem
  obtain ⟨_, _, _, rfl⟩ := hmem
  exact ⟨rfl, slowFile_works, slowFile_works, slowFile_works, slowFile_works⟩

theorem healthy_run_succeeds_one_call :
    ∃ w v, Machine.run World.step (World.new eightKhz []) oneCall = some w ∧
      Machine.run Run.step (new pairConfig)
        (drainOf w ++ [.exit ⟨true, .returned true w.summary, 0, slowFile⟩]) = some v ∧
      w.engine.received.length = 3 ∧ v.phase = .exited true := by
  obtain ⟨w, hw, hasked, hpc, hconnected, hdrained, hgiven, hlength, hroom, hsized, hcapture⟩ :=
    Machine.exists_of_run World.step (World.new eightKhz []) oneCall
      (fun w ↦ w.asked = [] ∧ w.pc = .returned (.ok .requested) ∧
        w.engine.channel.connected = true ∧ w.engine.channel.buffer = [] ∧
        given (drainOf w) = w.engine.received ∧ w.engine.received.length = 3 ∧
        w.summary.accepted ≤ 1 ∧
        (∀ t ∈ w.engine.board.tasks, successfulTerminal (closing t.sent) = true ∧
          (wireOutput t.sent).length ≤ 1000 ∧ header + (audioOutput t.sent).length ≤ 1000 ∧
          (eventOutput t.task.id t.sent).length ≤ 1000 ∧
          (audioOutput t.sent).length + riffOverhead ≤ u32Max ∧ (utf8 (jsonSummary t.task.id
            "observed" (wholeSummary t.task.id t.sent) none)).length ≤ 400) ∧
        (Machine.run Run.step (new pairConfig)
          (drainOf w ++ [.exit ⟨true, .returned true w.summary, 0, slowFile⟩])).any
            (fun v ↦ decide ((utf8 (v.statusJson 0 (some w.summary))).length ≤ 1200)) = true)
      (by decide +kernel)
  obtain ⟨v, hv, hstatus⟩ := Machine.exists_of_run Run.step _ _ _ hcapture
  have hvalid : pairConfig.validate true = .ok () := by decide
  have hhealthy : Healthy pairConfig w (drainOf w) := by
    refine ⟨?_, fun record io hmem ↦ works_drainOf hmem, ?_, hroom, ?_, ?_⟩
    · intro woken hmem
      exact absurd hmem (not_mem_drainOf w woken)
    · intro before woken after hsplit
      exact absurd (hsplit ▸ by simp) (not_mem_drainOf w woken)
    · intro t ht
      obtain ⟨_, hwire, haudio, hevents, hwave, _⟩ := hsized t ht
      exact ⟨hwire, haudio, hevents, hwave⟩
    · intro t ht
      obtain ⟨_, _, _, _, _, hsummary⟩ := hsized t ht
      exact hsummary
  have hexit := healthy_run_succeeds (by decide) ⟨_, hw⟩
    (fun rate ↦ (IncomingProfile.accepts_fromRates_singleton .khz8 rate).mp) hasked hpc hconnected
    hdrained hvalid (by decide) hv hgiven hhealthy rfl slowFile_works hstatus
  exact ⟨w, v, hw, hv, hlength, hexit.mpr ⟨rfl, rfl, rfl, fun t ht ↦ (hsized t ht).1⟩⟩

end Run

end Phonowire.Capture
