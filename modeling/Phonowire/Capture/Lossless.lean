import Phonowire.Capture.Bound
import Phonowire.Capture.Exact

/-!
# Runs without a failure

Every way to lose a record sets `bad` or counts an unowned record. While neither
has happened, the state of a run is determined, connection by connection, by the
records it was given: a connection is unknown, or its recorder took all of its
records, or its directory is the whole recording.
-/

namespace Phonowire.Capture

open Receiver AudioSocket

/-! ## Histories -/

def Event.records : Event → List Record
  | .record observation _ => [observation]
  | _ => []

/-- The records that a run is given. -/
def given (events : List Event) : List Record := events.flatMap Event.records

/-- All that is done for a connection that is recorded as a whole. -/
def wholeStory (id : ConnectionId) (records : List Record) : List Happening :=
  .created id :: records.map .recorded ++
    [.finished id (wholeSummary id records), .summarized id "observed"]

namespace Happening

def isCreated : Happening → Bool
  | .created _ => true
  | _ => false

def isFinished : Happening → Bool
  | .finished _ _ => true
  | _ => false

end Happening

/-- Only the first record of a connection connects, and only its last one ends. -/
structure Shaped (records : List Record) : Prop where
  connected : ∀ before record after, records = before ++ record :: after →
    (record.kind.isConnected = true ↔ before = [])
  ended : ∀ before record after, records = before ++ record :: after →
    record.kind.isEnded = true → after = []

theorem not_ended_of_connected {kind : RecordKind} (h : kind.isConnected = true) :
    kind.isEnded = false := by
  cases kind <;> first | rfl | cases h

theorem Shaped.of_append {xs ys : List Record} (h : Shaped (xs ++ ys)) : Shaped xs := by
  constructor
  · rintro before record after rfl
    exact h.connected before record (after ++ ys) (by simp)
  · rintro before record after rfl hended
    have hnil := h.ended before record (after ++ ys) (by simp) hended
    exact (List.append_eq_nil_iff.mp hnil).1

/-- A new recorder, over files that exist now. -/
theorem create_took {cap : ℕ} {id : ConnectionId} {io : CreateIo} {d : Directory} {r : Recording}
    (h : create cap id io = (d, .ok r)) : Took id [] r := by
  unfold create at h
  rcases hwire : io.wire with e | wire
  · rw [hwire] at h
    cases h
  rcases hwave : io.wave with e | wave
  · rw [hwire, hwave] at h
    cases h
  rcases hevents : io.events with e | events
  · rw [hwire, hwave, hevents] at h
    cases h
  rw [hwire, hwave, hevents] at h
  dsimp only at h
  rcases hopened : openWithin cap id wire.file wave.file events.file with ⟨s, e | ⟨⟩⟩
  · rw [hopened] at h
    cases h
  · rw [hopened] at h
    cases h
    exact took_open rfl rfl rfl hopened

namespace Run

variable {w v : Run} {record : Record} {io : RecordIo} {id : ConnectionId}

/-- What was done for one connection. -/
def story (w : Run) (id : ConnectionId) : List Happening := w.log.filter (·.connection = id)

/-! ## One record -/

/-- The entry of one connection changes, its directory may, and what happens is
about it. -/
structure Changed (id : ConnectionId) (entry : Option Entry) (d : Option Directory)
    (more : List Happening) (w v : Run) : Prop where
  entries : ∀ j : ConnectionId, v.entries[j]? = if id = j then entry else w.entries[j]?
  dirs : ∀ j : ConnectionId, v.dirs[j]? = if id = j then d else w.dirs[j]?
  log : v.log = w.log ++ more
  about : ∀ h ∈ more, h.connection = id

/-- What a record can do to a run that goes on without a failure. -/
inductive Smooth (w : Run) (record : Record) (v : Run) : Prop
  | stopped (hconnected : record.kind.isConnected = true)
      (hv : v = { w with
        counts := { w.counts with stopped := saturatingAdd w.counts.stopped 1 } })
  | created (hconnected : record.kind.isConnected = true) (hroom : w.reserved ≠ w.config.run)
      {io : CreateIo} {d : Directory} {r s : Recording}
      (hcreate : create w.config.file record.connection io = (d, .ok r))
      (hok : recordWithin w.config.file r record = (s, .ok ()))
      (hchanged : Changed record.connection (some (.active s)) (some (d.keep s))
        [.created record.connection, .recorded record] w v)
      (hreserved : v.reserved = saturatingAdd w.reserved 1) (hcounts : v.counts = w.counts)
  | recorded (hconnected : record.kind.isConnected = false) (hended : record.kind.isEnded = false)
      {r s : Recording} (hentry : w.entries[record.connection]? = some (.active r))
      (hok : recordWithin w.config.file r record = (s, .ok ()))
      (hchanged : Changed record.connection (some (.active s))
        (some ((w.dirs.getD record.connection {}).keep s)) [.recorded record] w v)
      (hreserved : v.reserved = w.reserved) (hcounts : v.counts = w.counts)
  | finished (hconnected : record.kind.isConnected = false) (hended : record.kind.isEnded = true)
      {r s t : Recording} {summary : RecordingSummary}
      (hentry : w.entries[record.connection]? = some (.active r))
      (hok : recordWithin w.config.file r record = (s, .ok ()))
      (hfinish : finishWithin w.config.file s = (t, .ok summary))
      (hgood : successfulTerminal summary.ending = true)
      (hchanged : Changed record.connection none
        (some { (w.dirs.getD record.connection {}).keep t with
          summary := some (utf8 (jsonSummary record.connection "observed" summary none)) })
        [.recorded record, .finished record.connection summary,
          .summarized record.connection "observed"] w v)
      (hreserved : v.reserved = w.reserved) (hcounts : v.counts = w.counts)
  | failed {receipt : Receipt} (hconnected : record.kind.isConnected = false)
      (hentry : w.entries[record.connection]? = some (.failed receipt))

theorem smooth_createRecorder (hconnected : record.kind.isConnected = true)
    (hroom : w.reserved ≠ w.config.run)
    (hbad : (createRecorder { w with reserved := saturatingAdd w.reserved 1 } record io).bad =
      false) :
    w.bad = false ∧
      Smooth w record (createRecorder { w with reserved := saturatingAdd w.reserved 1 } record io) ∧
      (createRecorder { w with reserved := saturatingAdd w.reserved 1 } record io).counts =
        w.counts := by
  unfold createRecorder at hbad ⊢
  dsimp only at hbad ⊢
  rcases hcreate : create w.config.file record.connection io.create with ⟨d, e | r⟩
  · rw [hcreate] at hbad
    cases hbad
  · rw [hcreate] at hbad
    dsimp only [Run.note] at hbad ⊢
    rcases hok : recordWithin w.config.file r record with ⟨s, e | ⟨⟩⟩
    · rw [hok] at hbad
      cases hbad
    · rw [hok] at hbad
      refine ⟨hbad, .created hconnected hroom hcreate hok ⟨?_, ?_, ?_, ?_⟩ rfl rfl, rfl⟩
      · exact fun j ↦ Std.TreeMap.getElem?_insert_ite _ _ _ j
      · intro j
        have hat : (w.dirs.insert record.connection d).getD record.connection {} = d := by simp
        simp only [Run.keep, Run.setEntry, hat, Std.TreeMap.getElem?_insert_ite]
        split_ifs <;> rfl
      · simp [Run.keep, Run.setEntry]
      · simp [Happening.connection]

/-- An `observed` summary is written only to a directory without one. -/
theorem writeSummary_ok {outcome : String} {s : RecordingSummary} {created : Created}
    (h : w.writeSummary id outcome s none created = (v, true)) :
    ∃ d, w.dirs[id]? = some d ∧ v = { w with
      dirs := w.dirs.insert id { d with
        summary := some (utf8 (jsonSummary id outcome s none)) }
      log := w.log ++ [.summarized id outcome] } := by
  unfold Run.writeSummary at h
  cases hd : w.dirs[id]? with
  | none =>
      rw [hd] at h
      cases h
  | some d =>
      rw [hd] at h
      dsimp only at h
      rcases hwritten : writeJson w.config.summary d.summary created (jsonSummary id outcome s none)
        with ⟨content, _ | _⟩
      · rw [hwritten] at h
        cases h
      · rw [hwritten] at h
        refine ⟨d, rfl, ?_⟩
        rw [writeJson_ok hwritten] at h
        exact (congrArg Prod.fst h).symm

theorem Changed.trans {entry later : Option Entry} {d e : Option Directory}
    {more rest : List Happening} {u : Run} (h : Changed id entry d more w v)
    (hrest : Changed id later e rest v u) : Changed id later e (more ++ rest) w u := by
  refine ⟨fun j ↦ ?_, fun j ↦ ?_, ?_, ?_⟩
  · rw [hrest.entries, h.entries]
    split_ifs <;> rfl
  · rw [hrest.dirs, h.dirs]
    split_ifs <;> rfl
  · rw [hrest.log, h.log, List.append_assoc]
  · intro happening hmem
    rcases List.mem_append.mp hmem with hmem | hmem
    · exact h.about happening hmem
    · exact hrest.about happening hmem

/-- A finished recorder whose end is not a failure. -/
theorem finish_smooth {d : Directory} {r : Recording} (hd : w.dirs[id]? = some d)
    (hbad : (w.finish id r io).bad = false) :
    w.bad = false ∧ ∃ t summary, finishWithin w.config.file r = (t, .ok summary) ∧
      successfulTerminal summary.ending = true ∧
      Changed id none (some { d.keep t with
          summary := some (utf8 (jsonSummary id "observed" summary none)) })
        [.finished id summary, .summarized id "observed"] w (w.finish id r io) ∧
      (w.finish id r io).reserved = w.reserved ∧ (w.finish id r io).counts = w.counts := by
  generalize hv : w.finish id r io = v at hbad ⊢
  unfold Run.finish at hv
  dsimp only at hv
  rcases hfinish : finishWithin w.config.file r with ⟨t, e | summary⟩
  · rw [hfinish] at hv
    rw [← hv] at hbad
    cases hbad
  · rw [hfinish] at hv
    dsimp only at hv
    split at hv
    · rename_i u hsummary
      subst hv
      obtain ⟨before, hbefore, rfl⟩ := writeSummary_ok hsummary
      have hat : w.dirs.getD id {} = d := by
        rw [Std.TreeMap.getD_eq_getD_getElem?, hd, Option.getD_some]
      simp only [Run.note, Run.keep, hat, Std.TreeMap.getElem?_insert_self,
        Option.some.injEq] at hbefore hbad
      subst hbefore
      rw [Bool.or_eq_false_iff, Bool.not_eq_false'] at hbad
      obtain ⟨hbad, hgood⟩ := hbad
      refine ⟨hbad, t, summary, rfl, hgood, ⟨fun j ↦ ?_, fun j ↦ ?_, ?_, ?_⟩, rfl, rfl⟩
      · exact Std.TreeMap.getElem?_erase_ite _ _ j
      · simp only [Run.note, Run.keep, Std.TreeMap.getElem?_insert_ite, if_pos hgood]
        split_ifs <;> rfl
      · simp [Run.note, Run.keep, hgood]
      · simp [Happening.connection]
    · rw [← hv] at hbad
      cases hbad

theorem smooth_onActive {r : Recording} (hconnected : record.kind.isConnected = false)
    (hentry : w.entries[record.connection]? = some (.active r))
    (hbad : (w.onActive record r io).bad = false) :
    w.bad = false ∧ Smooth w record (w.onActive record r io) ∧
      (w.onActive record r io).counts = w.counts := by
  unfold Run.onActive at hbad ⊢
  dsimp only at hbad ⊢
  rcases hok : recordWithin w.config.file r record with ⟨s, e | ⟨⟩⟩
  · rw [hok] at hbad
    cases hbad
  · rw [hok] at hbad
    dsimp only at hbad ⊢
    have hchanged : Changed record.connection (some (.active s))
        (some ((w.dirs.getD record.connection {}).keep s)) [.recorded record] w
        (((w.keep record.connection s).setEntry record.connection (.active s)).note
          (.recorded record)) :=
      ⟨fun j ↦ Std.TreeMap.getElem?_insert_ite _ _ _ j,
        fun j ↦ Std.TreeMap.getElem?_insert_ite _ _ _ j, rfl, by simp [Happening.connection]⟩
    cases hended : record.kind.isEnded with
    | false =>
        rw [hended] at hbad
        exact ⟨hbad, .recorded hconnected hended hentry hok hchanged rfl rfl, rfl⟩
    | true =>
        rw [hended, if_pos rfl] at hbad
        have hat : (((w.keep record.connection s).setEntry record.connection (.active s)).note
            (.recorded record)).dirs[record.connection]? =
              some ((w.dirs.getD record.connection {}).keep s) := by
          rw [hchanged.dirs, if_pos rfl]
        obtain ⟨hbefore, t, summary, hfinish, hgood, hfinished, hreserved, hcounts⟩ :=
          finish_smooth hat hbad
        rw [if_pos rfl]
        exact ⟨hbefore, .finished hconnected hended hentry hok hfinish hgood
          (hchanged.trans hfinished) hreserved hcounts, hcounts⟩

theorem smooth_onRecord (hbad : (w.onRecord record io).bad = false)
    (hunowned : (w.onRecord record io).counts.unowned = 0) :
    w.bad = false ∧ w.counts.unowned = 0 ∧ Smooth w record (w.onRecord record io) := by
  unfold Run.onRecord at hbad hunowned ⊢
  cases hconnected : record.kind.isConnected with
  | true =>
      rw [hconnected, if_pos rfl] at hbad hunowned
      rw [if_pos rfl]
      unfold Run.onConnected at hbad hunowned ⊢
      dsimp only at hbad hunowned ⊢
      split_ifs at hbad hunowned ⊢ with hwon hfull
      · exact ⟨hbad, hunowned, .stopped hconnected rfl⟩
      · rw [not_or] at hfull
        split at hbad
        · rename_i hnew hcreated
          rw [hnew, hcreated] at hunowned
          obtain ⟨hbefore, hsmooth, hcounts⟩ := smooth_createRecorder hconnected hfull.1 hbad
          exact ⟨hbefore, hcounts ▸ hunowned, hsmooth⟩
        · cases hbad
  | false =>
      rw [hconnected, if_neg (by rintro ⟨⟩)] at hbad hunowned
      rw [if_neg (by rintro ⟨⟩)]
      cases hentry : w.entries[record.connection]? with
      | none =>
          rw [hentry] at hunowned
          simp only [Run.onUnowned, saturatingAdd, u64Max] at hunowned
          omega
      | some entry =>
          cases entry with
          | active r =>
              rw [hentry] at hbad hunowned
              obtain ⟨hbefore, hsmooth, hcounts⟩ := smooth_onActive hconnected hentry hbad
              exact ⟨hbefore, hcounts ▸ hunowned, hsmooth⟩
          | failed receipt =>
              rw [hentry] at hbad hunowned
              exact ⟨hbad, hunowned, .failed hconnected hentry⟩

/-! ## One connection -/

/-- What the records of one connection have come to. -/
inductive Fate (w : Run) (id : ConnectionId) (records : List Record) : Prop
  | idle (hentry : w.entries[id]? = none) (hstory : w.story id = [])
      (hrefused : ∀ record ∈ records, record.kind.isConnected = true)
  | active {r : Recording} (hentry : w.entries[id]? = some (.active r)) (htook : Took id records r)
      (hne : records ≠ []) (hopen : ∀ record ∈ records, record.kind.isEnded = false)
      (hstory : w.story id = .created id :: records.map .recorded)
  | done (hentry : w.entries[id]? = none) (hended : ∃ record ∈ records, record.kind.isEnded = true)
      (hgood : successfulTerminal (closing records) = true)
      (hdir : w.dirs[id]? = some (wholeDirectory id records))
      (hstory : w.story id = wholeStory id records)

variable {records before : List Record} {entry : Option Entry} {d : Option Directory}
  {more : List Happening}

theorem Fate.congr (h : Fate w id records) (hentry : v.entries[id]? = w.entries[id]?)
    (hdir : v.dirs[id]? = w.dirs[id]?) (hstory : v.story id = w.story id) :
    Fate v id records := by
  cases h with
  | idle hnone hempty hrefused => exact .idle (hentry.trans hnone) (hstory.trans hempty) hrefused
  | active hactive htook hne hopen htold =>
      exact .active (hentry.trans hactive) htook hne hopen (hstory.trans htold)
  | done hnone hended hgood hwhole htold =>
      exact .done (hentry.trans hnone) hended hgood (hdir.trans hwhole) (hstory.trans htold)

theorem Fate.not_failed (h : Fate w id records) (receipt : Receipt) :
    w.entries[id]? ≠ some (.failed receipt) := by
  cases h with
  | idle hnone _ _ =>
      rw [hnone]
      rintro ⟨⟩
  | active hactive _ _ _ _ =>
      rw [hactive]
      rintro ⟨⟩
  | done hnone _ _ _ _ =>
      rw [hnone]
      rintro ⟨⟩

theorem Fate.idle_of_nil (h : Fate w id []) : w.entries[id]? = none ∧ w.story id = [] := by
  cases h with
  | idle hnone hstory _ => exact ⟨hnone, hstory⟩
  | active _ _ hne _ _ => exact absurd rfl hne
  | done _ hended _ _ _ =>
      obtain ⟨record, hmem, _⟩ := hended
      cases hmem

theorem Fate.of_active {r : Recording} (h : Fate w id records)
    (hentry : w.entries[id]? = some (.active r)) :
    Took id records r ∧ records ≠ [] ∧ (∀ record ∈ records, record.kind.isEnded = false) ∧
      w.story id = .created id :: records.map .recorded := by
  cases h with
  | idle hnone _ _ =>
      rw [hnone] at hentry
      cases hentry
  | active hactive htook hne hopen hstory =>
      rw [hactive] at hentry
      cases hentry
      exact ⟨htook, hne, hopen, hstory⟩
  | done hnone _ _ _ _ =>
      rw [hnone] at hentry
      cases hentry

/-- A connection that has ended and is not tracked is a whole recording. -/
theorem Fate.whole (h : Fate w id records) (hnone : w.entries[id]? = none)
    (hended : ∃ record ∈ records, record.kind.isEnded = true) :
    successfulTerminal (closing records) = true ∧
      w.dirs[id]? = some (wholeDirectory id records) ∧ w.story id = wholeStory id records := by
  cases h with
  | idle _ _ hrefused =>
      obtain ⟨record, hmem, hend⟩ := hended
      have hconnected := hrefused record hmem
      rw [not_ended_of_connected hconnected] at hend
      cases hend
  | active hactive _ _ _ _ =>
      rw [hnone] at hactive
      cases hactive
  | done _ _ hgood hdir hstory => exact ⟨hgood, hdir, hstory⟩

theorem Changed.story (h : Changed id entry d more w v) : v.story id = w.story id ++ more := by
  have hmore : more.filter (·.connection = id) = more :=
    List.filter_eq_self.mpr fun happening hmem ↦ decide_eq_true (h.about happening hmem)
  unfold Run.story
  rw [h.log, List.filter_append, hmore]

theorem Changed.story_ne (h : Changed id entry d more w v) {j : ConnectionId} (hne : id ≠ j) :
    v.story j = w.story j := by
  have hmore : more.filter (·.connection = j) = [] := by
    rw [List.filter_eq_nil_iff]
    intro happening hmem hj
    exact hne ((h.about happening hmem).symm.trans (of_decide_eq_true hj))
  unfold Run.story
  rw [h.log, List.filter_append, hmore, List.append_nil]

/-- Other connections are as they were. -/
theorem Smooth.aside (h : Smooth w record v) {j : ConnectionId} (hne : record.connection ≠ j)
    (hfailed : ∀ receipt, w.entries[record.connection]? ≠ some (.failed receipt)) :
    v.entries[j]? = w.entries[j]? ∧ v.dirs[j]? = w.dirs[j]? ∧ v.story j = w.story j := by
  have haside {entry : Option Entry} {d : Option Directory} {more : List Happening}
      (h : Changed record.connection entry d more w v) :
      v.entries[j]? = w.entries[j]? ∧ v.dirs[j]? = w.dirs[j]? ∧ v.story j = w.story j :=
    ⟨(h.entries j).trans (if_neg hne), (h.dirs j).trans (if_neg hne), h.story_ne hne⟩
  cases h with
  | stopped hconnected hv =>
      subst hv
      exact ⟨rfl, rfl, rfl⟩
  | created hconnected hroom hcreate hok hchanged hreserved hcounts => exact haside hchanged
  | recorded hconnected hended hentry hok hchanged hreserved hcounts => exact haside hchanged
  | finished hconnected hended hentry hok hfinish hgood hchanged hreserved hcounts =>
      exact haside hchanged
  | failed hconnected hentry => exact absurd hentry (hfailed _)

/-- The connection of the record. -/
theorem Fate.step (h : Fate w record.connection before) (hshaped : Shaped (before ++ [record]))
    (hsmooth : Smooth w record v) : Fate v record.connection (before ++ [record]) := by
  have hfirst := hshaped.connected before record [] rfl
  cases hsmooth with
  | stopped hconnected hv =>
      obtain rfl := hfirst.mp hconnected
      obtain ⟨hnone, hstory⟩ := h.idle_of_nil
      subst hv
      exact .idle hnone hstory fun other hmem ↦ List.mem_singleton.mp hmem ▸ hconnected
  | created hconnected hroom hcreate hok hchanged hreserved hcounts =>
      obtain rfl := hfirst.mp hconnected
      obtain ⟨hnone, hstory⟩ := h.idle_of_nil
      refine .active ((hchanged.entries _).trans (if_pos rfl)) ((create_took hcreate).accept hok)
        (by simp) ?_ ?_
      · intro other hmem
        obtain rfl := List.mem_singleton.mp hmem
        exact not_ended_of_connected hconnected
      · rw [hchanged.story, hstory]
        rfl
  | recorded hconnected hended hentry hok hchanged hreserved hcounts =>
      obtain ⟨htook, _, hopen, hstory⟩ := h.of_active hentry
      refine .active ((hchanged.entries _).trans (if_pos rfl)) (htook.accept hok) (by simp) ?_ ?_
      · intro other hmem
        rcases List.mem_append.mp hmem with hmem | hmem
        · exact hopen other hmem
        · exact List.mem_singleton.mp hmem ▸ hended
      · rw [hchanged.story, hstory, List.map_append]
        rfl
  | finished hconnected hended hentry hok hfinish hgood hchanged hreserved hcounts =>
      obtain ⟨htook, _, _, hstory⟩ := h.of_active hentry
      obtain ⟨rfl, hwire, hwave, hevents⟩ := (htook.accept hok).finish hfinish
      refine .done ((hchanged.entries _).trans (if_pos rfl))
        ⟨record, List.mem_append_right _ (List.mem_singleton.mpr rfl), hended⟩ hgood ?_ ?_
      · rw [hchanged.dirs, if_pos rfl, wholeDirectory]
        simp only [Directory.keep, hwire, hwave, hevents]
      · rw [hchanged.story, hstory, wholeStory, List.map_append]
        simp
  | failed hconnected hentry => exact absurd hentry (h.not_failed _)

/-! ## All connections -/

/-- A run that has lost nothing so far. -/
structure Lossless (records : List Record) (w : Run) : Prop where
  fate : ∀ id, Fate w id (records.filter (·.connection = id))
  reserved : w.reserved = w.log.countP (·.isCreated)
  stopped : w.counts.stopped ≠ 0 → ∃ record ∈ records, w.story record.connection = []
  failed : w.counts.failed = 0
  admission : w.counts.admission = 0

theorem lossless_new (c : Config) : Lossless [] (new c) where
  fate id := .idle (by simp [new]) rfl fun _ hmem ↦ (by cases hmem)
  reserved := rfl
  stopped h := absurd rfl h
  failed := rfl
  admission := rfl

theorem Smooth.counts (h : Smooth w record v)
    (hfailed : ∀ receipt, w.entries[record.connection]? ≠ some (.failed receipt)) :
    v.counts.failed = w.counts.failed ∧ v.counts.admission = w.counts.admission := by
  cases h with
  | stopped hconnected hv =>
      subst hv
      exact ⟨rfl, rfl⟩
  | created hconnected hroom hcreate hok hchanged hreserved hcounts =>
      rw [hcounts]
      exact ⟨rfl, rfl⟩
  | recorded hconnected hended hentry hok hchanged hreserved hcounts =>
      rw [hcounts]
      exact ⟨rfl, rfl⟩
  | finished hconnected hended hentry hok hfinish hgood hchanged hreserved hcounts =>
      rw [hcounts]
      exact ⟨rfl, rfl⟩
  | failed hconnected hentry => exact absurd hentry (hfailed _)

theorem Smooth.reserved {c : Config} (h : Smooth w record v) (hvalid : c.Valid)
    (hkept : w.Kept c) (hbefore : w.reserved = w.log.countP (·.isCreated))
    (hfailed : ∀ receipt, w.entries[record.connection]? ≠ some (.failed receipt)) :
    v.reserved = v.log.countP (·.isCreated) := by
  cases h with
  | stopped hconnected hv =>
      subst hv
      exact hbefore
  | created hconnected hroom hcreate hok hchanged hreserved hcounts =>
      rw [hkept.config] at hroom
      have hlimit := Nat.lt_of_le_of_ne hkept.reserved hroom
      have hfits : w.reserved + 1 ≤ u64Max := hlimit.trans_le hvalid.run_le
      rw [hreserved, hchanged.log, List.countP_append, ← hbefore, saturatingAdd,
        Nat.min_eq_left hfits]
      rfl
  | recorded hconnected hended hentry hok hchanged hreserved hcounts =>
      rw [hreserved, hchanged.log, List.countP_append, ← hbefore]
      rfl
  | finished hconnected hended hentry hok hfinish hgood hchanged hreserved hcounts =>
      rw [hreserved, hchanged.log, List.countP_append, ← hbefore]
      rfl
  | failed hconnected hentry => exact absurd hentry (hfailed _)

/-- A connection that was refused stays refused, or its records are unowned. -/
theorem Smooth.stopped_aside (h : Smooth w record v) {records : List Record}
    (hfate : Fate w record.connection (records.filter (·.connection = record.connection)))
    (hshaped : Shaped (records.filter (·.connection = record.connection) ++ [record]))
    (hbefore : w.counts.stopped ≠ 0 → ∃ other ∈ records, w.story other.connection = [])
    (hstopped : v.counts.stopped ≠ 0) :
    ∃ other ∈ records ++ [record], v.story other.connection = [] := by
  have hfailed := hfate.not_failed
  have hfirst := hshaped.connected _ record [] rfl
  have hother {other : Record} (hmem : other ∈ records) (hstory : w.story other.connection = [])
      (hnot : other.connection = record.connection → False) :
      ∃ other ∈ records ++ [record], v.story other.connection = [] :=
    ⟨other, List.mem_append_left _ hmem, (h.aside (fun heq ↦ hnot heq.symm) hfailed).2.2.trans hstory⟩
  have hactive {r : Recording} (hentry : w.entries[record.connection]? = some (.active r))
      {other : Record} (hstory : w.story other.connection = [])
      (heq : other.connection = record.connection) : False := by
    rw [heq, (hfate.of_active hentry).2.2.2] at hstory
    cases hstory
  cases h with
  | stopped hconnected hv =>
      obtain ⟨_, hstory⟩ := (hfirst.mp hconnected ▸ hfate).idle_of_nil
      refine ⟨record, List.mem_append_right _ (List.mem_singleton.mpr rfl), ?_⟩
      rw [hv]
      exact hstory
  | created hconnected hroom hcreate hok hchanged hreserved hcounts =>
      obtain ⟨other, hmem, hstory⟩ := hbefore (hcounts ▸ hstopped)
      refine hother hmem hstory fun heq ↦ ?_
      have hin : other ∈ records.filter (·.connection = record.connection) :=
        List.mem_filter.mpr ⟨hmem, decide_eq_true heq⟩
      rw [hfirst.mp hconnected] at hin
      cases hin
  | recorded hconnected hended hentry hok hchanged hreserved hcounts =>
      obtain ⟨other, hmem, hstory⟩ := hbefore (hcounts ▸ hstopped)
      exact hother hmem hstory (hactive hentry hstory)
  | finished hconnected hended hentry hok hfinish hgood hchanged hreserved hcounts =>
      obtain ⟨other, hmem, hstory⟩ := hbefore (hcounts ▸ hstopped)
      exact hother hmem hstory (hactive hentry hstory)
  | failed hconnected hentry => exact absurd hentry (hfailed _)

theorem Lossless.step {c : Config} (h : Lossless records w) (hvalid : c.Valid) (hkept : w.Kept c)
    (hshaped : Shaped ((records ++ [record]).filter (·.connection = record.connection)))
    (hsmooth : Smooth w record v) : Lossless (records ++ [record]) v := by
  have hmine : (records ++ [record]).filter (·.connection = record.connection) =
      records.filter (·.connection = record.connection) ++ [record] := by simp
  rw [hmine] at hshaped
  have hfate := h.fate record.connection
  have hfailed := hfate.not_failed
  obtain ⟨hsame, hadmission⟩ := hsmooth.counts hfailed
  constructor
  · intro id
    by_cases hid : record.connection = id
    · subst hid
      rw [hmine]
      exact hfate.step hshaped hsmooth
    · obtain ⟨hentry, hdir, hstory⟩ := hsmooth.aside hid hfailed
      have hrecords : (records ++ [record]).filter (·.connection = id) =
          records.filter (·.connection = id) := by simp [hid]
      rw [hrecords]
      exact (h.fate id).congr hentry hdir hstory
  · exact hsmooth.reserved hvalid hkept h.reserved hfailed
  · exact hsmooth.stopped_aside hfate hshaped h.stopped
  · exact hsame.trans h.failed
  · exact hadmission.trans h.admission

/-! ## Whole runs -/

theorem story_congr (h : v.log = w.log) (id : ConnectionId) : v.story id = w.story id := by
  unfold Run.story
  rw [h]

theorem Lossless.congr (h : Lossless records w) (hentries : v.entries = w.entries)
    (hdirs : v.dirs = w.dirs) (hlog : v.log = w.log) (hreserved : v.reserved = w.reserved)
    (hcounts : v.counts = w.counts) : Lossless records v where
  fate id := (h.fate id).congr (by rw [hentries]) (by rw [hdirs]) (story_congr hlog id)
  reserved := by
    rw [hreserved, hlog]
    exact h.reserved
  stopped hstopped := by
    obtain ⟨record, hmem, hstory⟩ := h.stopped (hcounts ▸ hstopped)
    exact ⟨record, hmem, (story_congr hlog record.connection).trans hstory⟩
  failed := hcounts ▸ h.failed
  admission := hcounts ▸ h.admission

theorem summarize_bad (w : Run) (id : ConnectionId) (outcome : String) (s : RecordingSummary)
    (receipt : Option Receipt) (created : Created) :
    (w.summarize id outcome s receipt created).bad = true := by
  have hwritten : (Run.writeSummary { w with bad := true } id outcome s receipt created).1.bad =
      true := by
    unfold Run.writeSummary
    cases w.dirs[id]? with
    | none => rfl
    | some d =>
        dsimp only
        split_ifs <;> rfl
  unfold Run.summarize
  split
  · rename_i hresult
    rwa [hresult] at hwritten
  · rename_i hresult
    rwa [hresult] at hwritten

/-- An entry that is left over is never a success. -/
theorem onFinalize_bad (w : Run) (id : ConnectionId) (entry : Entry) (created : Created) :
    (w.onFinalize id entry created).bad = true := by
  cases entry with
  | failed receipt => exact summarize_bad w id _ _ _ created
  | active r =>
      unfold Run.onFinalize
      dsimp only
      rcases finishWithin w.config.file r with ⟨s, e | summary⟩
      · exact summarize_bad _ id _ _ _ created
      · exact summarize_bad _ id _ _ _ created

/-- Without a failure and an unowned record a run has lost nothing, unless an
entry is left over. -/
def Faultless (records : List Record) (w : Run) : Prop :=
  w.bad = false → w.counts.unowned = 0 → w.phase = .draining ∨ w.phase = .finalizing [] →
    Lossless records w

theorem Faultless.step {c : Config} (h : Faultless records w) (hvalid : c.Valid)
    (hbounded : w.Bounded c) {event : Event}
    (hshaped : ∀ id, Shaped ((records ++ event.records).filter (·.connection = id)))
    (hstep : w.step event = some v) : Faultless (records ++ event.records) v := by
  intro hbad hunowned hphase
  cases event with
  | signal woken =>
      obtain ⟨_, rfl⟩ := step_signal hstep
      have hlossless := (h hbad hunowned hphase).congr (v := { w with
        control := w.control.signal woken }) rfl rfl rfl rfl rfl
      have hnil : (Event.signal woken).records = [] := rfl
      rwa [hnil, List.append_nil]
  | record record io =>
      obtain ⟨hdraining, rfl⟩ := step_record hstep
      obtain ⟨hbefore, hnone, hsmooth⟩ := smooth_onRecord hbad hunowned
      exact (h hbefore hnone (.inl hdraining)).step hvalid hbounded.kept
        (hshaped record.connection) hsmooth
  | disconnected =>
      obtain ⟨hdraining, rfl⟩ := step_disconnected hstep
      have hlossless := h hbad hunowned (.inl hdraining)
      have hempty : w.entries.toList = [] := by
        rcases hphase with hphase | hphase
        · cases hphase
        · exact Phase.finalizing.inj hphase
      have hnone (id : ConnectionId) : w.entries[id]? = none := by
        cases hentry : w.entries[id]? with
        | none => rfl
        | some entry =>
            have hmem := Std.TreeMap.mem_toList_iff_getElem?_eq_some.mpr hentry
            rw [hempty] at hmem
            cases hmem
      have hnil : Event.disconnected.records = [] := rfl
      rw [hnil, List.append_nil]
      exact ⟨fun id ↦ (hlossless.fate id).congr (by rw [hnone]; simp) rfl rfl, hlossless.reserved,
        hlossless.stopped, hlossless.failed, hlossless.admission⟩
  | finalize created =>
      obtain ⟨id, entry, rest, _, rfl⟩ := step_finalize hstep
      have hfailed := onFinalize_bad w id entry created
      rw [hbad] at hfailed
      cases hfailed
  | exit io =>
      obtain ⟨_, rfl⟩ := step_exit hstep
      rcases hphase with hphase | hphase <;> cases hphase

theorem faultless_of_run {c : Config} (hvalid : c.Valid) {events : List Event}
    (hshaped : ∀ id, Shaped ((given events).filter (·.connection = id)))
    (hrun : Machine.run Run.step (new c) events = some w) : Faultless (given events) w := by
  induction events using List.reverseRecOn generalizing w with
  | nil =>
      cases hrun
      exact fun _ _ _ ↦ lossless_new c
  | append_singleton events event ih =>
      obtain ⟨u, hu, hstep⟩ := Machine.run_snoc.mp hrun
      have hgiven : given (events ++ [event]) = given events ++ event.records := by
        simp [given]
      rw [hgiven] at hshaped ⊢
      have hbefore : Faultless (given events) u := by
        refine ih (fun id ↦ ?_) hu
        have happended := hshaped id
        rw [List.filter_append] at happended
        exact happended.of_append
      exact hbefore.step hvalid (bounded_of_run hvalid hu) hshaped hstep

/-- Nothing happens behind the exit. -/
theorem not_mem_exit {c : Config} {events : List Event}
    (hrun : Machine.run Run.step (new c) events = some v) (hphase : ∀ ok, v.phase ≠ .exited ok)
    (io : ExitIo) : Event.exit io ∉ events := by
  induction events using List.reverseRecOn generalizing v with
  | nil => exact List.not_mem_nil
  | append_singleton events event ih =>
      obtain ⟨u, hu, hstep⟩ := Machine.run_snoc.mp hrun
      have hbefore : ∀ ok, u.phase ≠ .exited ok := by
        intro ok hok
        cases event with
        | signal woken => exact (step_signal hstep).1 ok hok
        | record record io =>
            rw [(step_record hstep).1] at hok
            cases hok
        | disconnected =>
            rw [(step_disconnected hstep).1] at hok
            cases hok
        | finalize created =>
            obtain ⟨id, entry, rest, hleft, _⟩ := step_finalize hstep
            rw [hleft] at hok
            cases hok
        | exit io =>
            rw [(step_exit hstep).1] at hok
            cases hok
      intro hmem
      rcases List.mem_append.mp hmem with hmem | hmem
      · exact ih hu hbefore hmem
      · obtain rfl := List.mem_singleton.mp hmem
        obtain ⟨_, rfl⟩ := step_exit hstep
        exact hphase _ rfl

/-- What a run that returns `Ok` has met at its exit. -/
theorem exit_of_ok {c : Config} {events : List Event}
    (hrun : Machine.run Run.step (new c) events = some v) (hok : v.phase = .exited true) :
    ∃ before io u, events = before ++ [.exit io] ∧ Machine.run Run.step (new c) before = some u ∧
      u.phase = .finalizing [] ∧ v = u.onExit io ∧ u.bad = false ∧ u.counts.unowned = 0 ∧
      u.counts.metadata = 0 ∧ io.budgetUsed = 0 ∧ workerFailed io.worker = false ∧
      (workerSummary io.worker).any summaryFailed = false := by
  induction events using List.reverseRecOn generalizing v with
  | nil =>
      cases hrun
      cases hok
  | append_singleton events event _ =>
      obtain ⟨u, hu, hstep⟩ := Machine.run_snoc.mp hrun
      cases event with
      | signal woken =>
          obtain ⟨hphase, rfl⟩ := step_signal hstep
          exact absurd hok (hphase true)
      | record record io =>
          obtain ⟨hphase, rfl⟩ := step_record hstep
          rw [onRecord_phase, hphase] at hok
          cases hok
      | disconnected =>
          obtain ⟨_, rfl⟩ := step_disconnected hstep
          cases hok
      | finalize created =>
          obtain ⟨id, entry, rest, _, rfl⟩ := step_finalize hstep
          cases hok
      | exit io =>
          obtain ⟨hphase, rfl⟩ := step_exit hstep
          refine ⟨events, io, u, rfl, hu, hphase, rfl, ?_⟩
          simp only [Run.onExit, Phase.exited.injEq, Bool.not_eq_true', Bool.or_eq_false_iff,
            decide_eq_false_iff_not, ne_eq, not_not] at hok
          obtain ⟨⟨⟨⟨⟨⟨⟨⟨hbad, _⟩, hworker⟩, hbudget⟩, hunowned⟩, hmetadata⟩, hsummary⟩, _⟩, _⟩ := hok
          exact ⟨hbad, hunowned, hmetadata, hbudget, hworker, hsummary⟩

end Run

end Phonowire.Capture
