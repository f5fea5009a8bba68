import Phonowire.Capture.Lossless

/-!
# What the loops of a run can do

`Handled` lists everything that one record can do to a run, and `Closed`
everything that one entry can come to that is left over, failures of the system
included. The invariants of whole runs go by cases on these.
-/

namespace Phonowire.Capture

open Receiver AudioSocket

/-- The note of a summary, if it was written. -/
def summarized (ok : Bool) (id : ConnectionId) (outcome : String) : List Happening :=
  if ok then [.summarized id outcome] else []

/-- The outcome of a recorder that has finished without an error. -/
def outcome (s : RecordingSummary) : String :=
  if successfulTerminal s.ending then "observed" else "failed"

def Entry.isFailed : Entry → Bool
  | .active _ => false
  | .failed _ => true

namespace Run

/-! ## One record -/

/-- What the admission of a connection leaves behind. -/
inductive Opened (cap : ℕ) (record : Record) (io : CreateIo) :
    Entry → Directory → List Happening → Prop
  | failed {d : Directory} {e : CreateError}
      (hcreate : create cap record.connection io = (d, .error e)) :
      Opened cap record io (.failed e.receipt) d [.created record.connection]
  | broken {d : Directory} {r s : Recording} {e : RecordingError}
      (hcreate : create cap record.connection io = (d, .ok r))
      (hrecord : recordWithin cap r record = (s, .error e)) :
      Opened cap record io (.failed (.fromError e)) (d.keep s) [.created record.connection]
  | taken {d : Directory} {r s : Recording}
      (hcreate : create cap record.connection io = (d, .ok r))
      (hrecord : recordWithin cap r record = (s, .ok ())) :
      Opened cap record io (.active s) (d.keep s) [.created record.connection, .recorded record]

/-- A step that fails stops the receiver, and another one leaves it alone. -/
structure Stops (fails : Bool) (woken : Option String) (w v : Run) : Prop where
  failing : fails = true → v.bad = true ∧ v.control = w.control.request .localFailure woken
  quiet : fails = false → v.bad = w.bad ∧ v.control = w.control

theorem stops_fail (w v : Run) (woken : Option String) (hcontrol : v.control = w.control) :
    Stops true woken w (v.fail woken) :=
  ⟨fun _ ↦ ⟨rfl, congrArg (Control.request · _ _) hcontrol⟩, fun h ↦ (by cases h)⟩

theorem stops_quiet {w v : Run} (woken : Option String) (hbad : v.bad = w.bad)
    (hcontrol : v.control = w.control) : Stops false woken w v :=
  ⟨fun h ↦ (by cases h), fun _ ↦ ⟨hbad, hcontrol⟩⟩

/-- Everything that one record can do. -/
inductive Handled (w : Run) (record : Record) (io : RecordIo) (v : Run) : Prop
  | stopped (hconnected : record.kind.isConnected = true) (hwon : w.control.won = true)
      (hv : v = { w with
        counts := { w.counts with stopped := saturatingAdd w.counts.stopped 1 } })
  | full (hconnected : record.kind.isConnected = true) (hwon : w.control.won = false)
      (hfull : w.reserved = w.config.run ∨ w.config.active ≤ w.entries.size)
      (hv : v = { w.refuseAdmission with
        bad := true
        control := w.control.request
          (if w.reserved = w.config.run then Cause.admission else .localFailure) io.woken })
  | uncreated (hconnected : record.kind.isConnected = true) (hwon : w.control.won = false)
      (hroom : w.reserved ≠ w.config.run)
      (hv : v = { w.refuseAdmission.fail io.woken with reserved := saturatingAdd w.reserved 1 })
      (hdir : w.dirs[record.connection]? = none → io.createDir ≠ .ok ())
  | created (hconnected : record.kind.isConnected = true) (hwon : w.control.won = false)
      (hroom : w.reserved ≠ w.config.run) (hactive : w.entries.size < w.config.active)
      (hnew : w.dirs[record.connection]? = none) {entry : Entry} {d : Directory}
      {more : List Happening} (hopened : Opened w.config.file record io.create entry d more)
      (hchanged : Changed record.connection (some entry) (some d) more w v)
      (hreserved : v.reserved = saturatingAdd w.reserved 1) (hcounts : v.counts = w.counts)
      (hstops : Stops entry.isFailed io.woken w v)
  | taken (hconnected : record.kind.isConnected = false) (hended : record.kind.isEnded = false)
      {r s : Recording} (hentry : w.entries[record.connection]? = some (.active r))
      (hrecord : recordWithin w.config.file r record = (s, .ok ()))
      (hchanged : Changed record.connection (some (.active s))
        (some ((w.dirs.getD record.connection {}).keep s)) [.recorded record] w v)
      (hreserved : v.reserved = w.reserved) (hcounts : v.counts = w.counts)
      (hstops : Stops false io.woken w v)
  | broken (hconnected : record.kind.isConnected = false) {r s : Recording} {e : RecordingError}
      (hentry : w.entries[record.connection]? = some (.active r))
      (hrecord : recordWithin w.config.file r record = (s, .error e))
      (hchanged : Changed record.connection (some (.failed (.fromError e)))
        (some ((w.dirs.getD record.connection {}).keep s)) [] w v)
      (hreserved : v.reserved = w.reserved) (hcounts : v.counts = w.counts)
      (hstops : Stops true io.woken w v)
  | unfinished (hconnected : record.kind.isConnected = false)
      (hended : record.kind.isEnded = true) {r s t : Recording} {e : RecordingError}
      (hentry : w.entries[record.connection]? = some (.active r))
      (hrecord : recordWithin w.config.file r record = (s, .ok ()))
      (hfinish : finishWithin w.config.file s = (t, .error e))
      (hchanged : Changed record.connection (some (.failed (.fromError e)))
        (some ((w.dirs.getD record.connection {}).keep t)) [.recorded record] w v)
      (hreserved : v.reserved = w.reserved) (hcounts : v.counts = w.counts)
      (hstops : Stops true io.woken w v)
  | finished (hconnected : record.kind.isConnected = false) (hended : record.kind.isEnded = true)
      {r s t : Recording} {summary : RecordingSummary} {content : Option (List UInt8)} {ok : Bool}
      (hentry : w.entries[record.connection]? = some (.active r))
      (hrecord : recordWithin w.config.file r record = (s, .ok ()))
      (hfinish : finishWithin w.config.file s = (t, .ok summary))
      (hwrite : writeJson w.config.summary (w.dirs.getD record.connection {}).summary io.summary
        (jsonSummary record.connection (outcome summary) summary none) = (content, ok))
      (hchanged : Changed record.connection none
        (some { (w.dirs.getD record.connection {}).keep t with summary := content })
        (.recorded record :: .finished record.connection summary ::
          summarized ok record.connection (outcome summary)) w v)
      (hreserved : v.reserved = w.reserved)
      (hcounts : v.counts = if ok then w.counts else { w.counts with
        metadata := saturatingAdd w.counts.metadata 1 })
      (hbad : v.bad = (w.bad || !successfulTerminal summary.ending || !ok))
      (hcontrol : v.control =
        if ok then w.control else w.control.request .localFailure io.woken)
  | failed (hconnected : record.kind.isConnected = false) {receipt : Receipt}
      (hentry : w.entries[record.connection]? = some (.failed receipt))
      (hv : v = w.onFailed record receipt)
  | unowned (hconnected : record.kind.isConnected = false)
      (hentry : w.entries[record.connection]? = none) (hv : v = w.onUnowned record)

variable {w v : Run} {record : Record} {io : RecordIo} {id : ConnectionId} {d : Directory}

theorem Changed.insert {entry : Entry} {dirs : Std.TreeMap ConnectionId Directory}
    {more : List Happening} (hdirs : ∀ j : ConnectionId, dirs[j]? = if id = j then some d
      else w.dirs[j]?) (hentries : v.entries = w.entries.insert id entry) (hv : v.dirs = dirs)
    (hlog : v.log = w.log ++ more) (habout : ∀ h ∈ more, h.connection = id) :
    Changed id (some entry) (some d) more w v where
  entries j := by
    rw [hentries]
    exact Std.TreeMap.getElem?_insert_ite _ _ _ j
  dirs j := by
    rw [hv]
    exact hdirs j
  log := hlog
  about := habout

theorem insert_insert_at (dirs : Std.TreeMap ConnectionId Directory) (id : ConnectionId)
    (before d : Directory) (j : ConnectionId) :
    ((dirs.insert id before).insert id d)[j]? = if id = j then some d else dirs[j]? := by
  rw [Std.TreeMap.getElem?_insert_ite, Std.TreeMap.getElem?_insert_ite]
  split_ifs <;> rfl

/-- An admitted connection: `w` is the run behind the reservation. -/
theorem handled_createRecorder (hconnected : record.kind.isConnected = true)
    (hwon : w.control.won = false) (hroom : w.reserved ≠ w.config.run)
    (hactive : w.entries.size < w.config.active) (hnew : w.dirs[record.connection]? = none) :
    Handled w record io
      (createRecorder { w with reserved := saturatingAdd w.reserved 1 } record io) := by
  have habout : ∀ h ∈ [Happening.created record.connection], h.connection = record.connection := by
    simp [Happening.connection]
  unfold createRecorder
  dsimp only
  rcases hcreate : create w.config.file record.connection io.create with ⟨d, e | r⟩
  · refine .created hconnected hwon hroom hactive hnew (.failed hcreate)
      (.insert ?_ rfl rfl rfl habout) rfl rfl (stops_fail w _ io.woken rfl)
    exact Std.TreeMap.getElem?_insert_ite _ _ _
  · have hat : (w.dirs.insert record.connection d).getD record.connection {} = d := by simp
    dsimp only [Run.note]
    rcases hrecord : recordWithin w.config.file r record with ⟨s, e | ⟨⟩⟩
    · refine .created hconnected hwon hroom hactive hnew (.broken hcreate hrecord)
        (.insert ?_ rfl rfl rfl habout) rfl rfl (stops_fail w _ io.woken rfl)
      intro j
      simp only [Run.fail, Run.setEntry, Run.keep, hat]
      exact insert_insert_at _ _ _ _ j
    · refine .created hconnected hwon hroom hactive hnew (.taken hcreate hrecord)
        (.insert ?_ rfl rfl ?_ ?_) rfl rfl (stops_quiet io.woken rfl rfl)
      · intro j
        simp only [Run.setEntry, Run.keep, hat]
        exact insert_insert_at _ _ _ _ j
      · exact List.append_assoc _ _ _
      · simp [Happening.connection]

theorem handled_onConnected (hconnected : record.kind.isConnected = true) :
    Handled w record io (w.onConnected record io) := by
  unfold Run.onConnected
  dsimp only
  split_ifs with hwon hfull
  · exact .stopped hconnected hwon rfl
  · refine .full hconnected (by simpa using hwon) (.inl ‹_›) ?_
    rw [if_pos ‹_›]
  · refine .full hconnected (by simpa using hwon) hfull ?_
    rw [if_neg ‹_›]
  · rw [not_or, Nat.not_le] at hfull
    split
    · exact handled_createRecorder hconnected (by simpa using hwon) hfull.1 hfull.2 ‹_›
    · next hother =>
        exact .uncreated hconnected (by simpa using hwon) hfull.1 rfl hother

/-- `summary` in a directory that exists. -/
theorem writeSummary_eq {outcome : String} {s : RecordingSummary} {receipt : Option Receipt}
    {created : Created} {content : Option (List UInt8)} {ok : Bool} (hd : w.dirs[id]? = some d)
    (hwrite : writeJson w.config.summary d.summary created (jsonSummary id outcome s receipt) =
      (content, ok)) :
    w.writeSummary id outcome s receipt created = ({ w with
      dirs := w.dirs.insert id { d with summary := content }
      log := w.log ++ summarized ok id outcome }, ok) := by
  unfold Run.writeSummary
  rw [hd]
  dsimp only
  rw [hwrite]
  cases ok with
  | true => rfl
  | false => simp [summarized]

theorem handled_finish {r s : Recording} (hconnected : record.kind.isConnected = false)
    (hended : record.kind.isEnded = true)
    (hentry : w.entries[record.connection]? = some (.active r))
    (hrecord : recordWithin w.config.file r record = (s, .ok ())) :
    Handled w record io ((((w.keep record.connection s).setEntry record.connection
      (.active s)).note (.recorded record)).finish record.connection s io) := by
  generalize hu : ((w.keep record.connection s).setEntry record.connection
    (.active s)).note (.recorded record) = u
  have hconfig : u.config = w.config := by rw [← hu]; rfl
  have hdirs : u.dirs = w.dirs.insert record.connection
      ((w.dirs.getD record.connection {}).keep s) := by rw [← hu]; rfl
  have hentries : u.entries = w.entries.insert record.connection (.active s) := by rw [← hu]; rfl
  have hlog : u.log = w.log ++ [.recorded record] := by rw [← hu]; rfl
  have hrest : u.reserved = w.reserved ∧ u.counts = w.counts ∧ u.bad = w.bad ∧
      u.control = w.control := by rw [← hu]; exact ⟨rfl, rfl, rfl, rfl⟩
  obtain ⟨hreserved, hcounts, hbad, hcontrol⟩ := hrest
  have hat : u.dirs.getD record.connection {} =
      (w.dirs.getD record.connection {}).keep s := by rw [hdirs]; simp
  unfold Run.finish
  dsimp only
  rcases hfinish : finishWithin u.config.file s with ⟨t, e | summary⟩
  · rw [hconfig] at hfinish
    refine .unfinished hconnected hended hentry hrecord hfinish ⟨?_, ?_, hlog, ?_⟩ hreserved
      hcounts (stops_fail w _ io.woken hcontrol)
    · intro j
      simp only [Run.fail, Run.setEntry, Run.keep, hentries, Std.TreeMap.getElem?_insert_ite,
        Std.TreeMap.getElem?_erase_ite]
      split_ifs <;> rfl
    · intro j
      simp only [Run.fail, Run.setEntry, Run.keep, hat]
      rw [hdirs]
      exact insert_insert_at _ _ _ _ j
    · simp [Happening.connection]
  · rw [hconfig] at hfinish
    have hsummary : ((u.dirs.getD record.connection {}).keep t).summary =
        (w.dirs.getD record.connection {}).summary := by rw [hat]; rfl
    rcases hwrite : writeJson w.config.summary (w.dirs.getD record.connection {}).summary
      io.summary (jsonSummary record.connection (outcome summary) summary none) with ⟨content, ok⟩
    have hnow := hwrite
    rw [← hsummary, ← hconfig] at hnow
    have hwritten := writeSummary_eq (w := { (Run.keep { u with
        entries := u.entries.erase record.connection } record.connection t).note
        (.finished record.connection summary) with
        bad := u.bad || !successfulTerminal summary.ending })
      Std.TreeMap.getElem?_insert_self hnow
    have hdir : (u.dirs.getD record.connection {}).keep t =
        (w.dirs.getD record.connection {}).keep t := by rw [hat]; rfl
    have hfinal {x : Run} (hx : x.entries = u.entries.erase record.connection)
        (hxd : x.dirs = ((u.dirs.insert record.connection
          ((u.dirs.getD record.connection {}).keep t)).insert record.connection
          { (u.dirs.getD record.connection {}).keep t with summary := content }))
        (hxl : x.log = u.log ++ [.finished record.connection summary] ++
          summarized ok record.connection (outcome summary)) :
        Changed record.connection none
          (some { (w.dirs.getD record.connection {}).keep t with summary := content })
          (.recorded record :: .finished record.connection summary ::
            summarized ok record.connection (outcome summary)) w x := by
      refine ⟨fun j ↦ ?_, fun j ↦ ?_, ?_, ?_⟩
      · rw [hx, hentries, Std.TreeMap.getElem?_erase_ite, Std.TreeMap.getElem?_insert_ite]
        split_ifs <;> rfl
      · rw [hxd, insert_insert_at, hdir, hdirs, Std.TreeMap.getElem?_insert_ite]
        split_ifs <;> rfl
      · rw [hxl, hlog]
        simp
      · cases ok <;> simp [Happening.connection, summarized]
    unfold outcome at hwritten
    dsimp only at hwritten ⊢
    rw [hwritten]
    cases ok with
    | true =>
        refine .finished hconnected hended hentry hrecord hfinish hwrite (hfinal rfl rfl rfl)
          hreserved hcounts ?_ hcontrol
        rw [← hbad]
        exact (Bool.or_false _).symm
    | false =>
        refine .finished hconnected hended hentry hrecord hfinish hwrite (hfinal rfl rfl rfl)
          hreserved ?_ ?_ ?_
        · rw [← hcounts]
          rfl
        · rw [Bool.not_false, Bool.or_true]
          rfl
        · rw [← hcontrol]
          rfl

theorem handled_onRecord (w : Run) (record : Record) (io : RecordIo) :
    Handled w record io (w.onRecord record io) := by
  unfold Run.onRecord
  split_ifs with hconnected
  · exact handled_onConnected hconnected
  · rw [Bool.not_eq_true] at hconnected
    split
    · rename_i r hentry
      have hone : ∀ h ∈ [Happening.recorded record], h.connection = record.connection := by
        simp [Happening.connection]
      unfold Run.onActive
      dsimp only
      rcases hrecord : recordWithin w.config.file r record with ⟨s, e | ⟨⟩⟩
      · refine .broken hconnected hentry hrecord (.insert ?_ rfl rfl ?_ ?_) rfl rfl
          (stops_fail w _ io.woken rfl)
        · exact Std.TreeMap.getElem?_insert_ite _ _ _
        · exact (List.append_nil _).symm
        · simp
      · dsimp only
        split_ifs with hended
        · exact handled_finish hconnected hended hentry hrecord
        · refine .taken hconnected (by simpa using hended) hentry hrecord
            (.insert ?_ rfl rfl rfl hone) rfl rfl (stops_quiet io.woken rfl rfl)
          exact Std.TreeMap.getElem?_insert_ite _ _ _
    · exact .failed hconnected ‹_› rfl
    · exact .unowned hconnected ‹_› rfl

/-! ## One entry that is left over -/

/-- Everything that an entry can come to which is left over. -/
inductive Closed (w : Run) (id : ConnectionId) (created : Created) (d : Directory) (v : Run) :
    Entry → Prop
  | failed {receipt : Receipt} {content : Option (List UInt8)} {ok : Bool}
      (hwrite : writeJson w.config.summary d.summary created
        (jsonSummary id "failed" receipt.summary (some receipt)) = (content, ok))
      (hchanged : Changed id w.entries[id]? (some { d with summary := content })
        (summarized ok id "failed") w v)
      (hcounts : v.counts = if ok then w.counts else { w.counts with
        metadata := saturatingAdd w.counts.metadata 1 }) :
      Closed w id created d v (.failed receipt)
  | finished {r t : Recording} {summary : RecordingSummary} {content : Option (List UInt8)}
      {ok : Bool} (hfinish : finishWithin w.config.file r = (t, .ok summary))
      (hwrite : writeJson w.config.summary d.summary created
        (jsonSummary id "incomplete" summary none) = (content, ok))
      (hchanged : Changed id w.entries[id]? (some { d.keep t with summary := content })
        (.finished id summary :: summarized ok id "incomplete") w v)
      (hcounts : v.counts = if ok then w.counts else { w.counts with
        metadata := saturatingAdd w.counts.metadata 1 }) :
      Closed w id created d v (.active r)
  | unfinished {r t : Recording} {e : RecordingError} {content : Option (List UInt8)} {ok : Bool}
      (hfinish : finishWithin w.config.file r = (t, .error e))
      (hwrite : writeJson w.config.summary d.summary created
        (jsonSummary id "failed" e.summary (some (.fromError e))) = (content, ok))
      (hchanged : Changed id w.entries[id]? (some { d.keep t with summary := content })
        (summarized ok id "failed") w v)
      (hcounts : v.counts = if ok then w.counts else { w.counts with
        metadata := saturatingAdd w.counts.metadata 1 }) :
      Closed w id created d v (.active r)

/-- What `summarize` does in a directory that exists. -/
theorem summarize_changed (outcome : String) (s : RecordingSummary) (receipt : Option Receipt)
    (created : Created) (hd : w.dirs[id]? = some d) :
    ∃ content ok, writeJson w.config.summary d.summary created
        (jsonSummary id outcome s receipt) = (content, ok) ∧
      Changed id w.entries[id]? (some { d with summary := content }) (summarized ok id outcome) w
        (w.summarize id outcome s receipt created) ∧
      (w.summarize id outcome s receipt created).counts = if ok then w.counts else { w.counts with
        metadata := saturatingAdd w.counts.metadata 1 } := by
  rcases hwrite : writeJson w.config.summary d.summary created (jsonSummary id outcome s receipt)
    with ⟨content, ok⟩
  refine ⟨content, ok, rfl, ?_⟩
  have hwritten := writeSummary_eq (w := { w with bad := true }) hd hwrite
  have hchanged {x : Run} (hentries : x.entries = w.entries)
      (hdirs : x.dirs = w.dirs.insert id { d with summary := content })
      (hlog : x.log = w.log ++ summarized ok id outcome) :
      Changed id w.entries[id]? (some { d with summary := content })
        (summarized ok id outcome) w x := by
    refine ⟨fun j ↦ ?_, fun j ↦ ?_, hlog, ?_⟩
    · rw [hentries]
      split_ifs with hid
      · rw [hid]
      · rfl
    · rw [hdirs]
      exact Std.TreeMap.getElem?_insert_ite _ _ _ j
    · cases ok <;> simp [Happening.connection, summarized]
  unfold Run.summarize
  rw [hwritten]
  cases ok with
  | true => exact ⟨hchanged rfl rfl rfl, rfl⟩
  | false => exact ⟨hchanged rfl rfl rfl, rfl⟩

theorem closed_onFinalize (hd : w.dirs[id]? = some d) (entry : Entry) (created : Created) :
    Closed w id created d (w.onFinalize id entry created) entry := by
  cases entry with
  | failed receipt =>
      obtain ⟨content, ok, hwrite, hchanged, hcounts⟩ := summarize_changed "failed"
        receipt.summary (some receipt) created hd
      exact .failed hwrite hchanged hcounts
  | active r =>
      have hkeep : ∀ t more, (∀ h ∈ more, h.connection = id) →
          Changed id w.entries[id]? (some (d.keep t)) more w
            { w.keep id t with log := w.log ++ more } := by
        intro t more habout
        refine ⟨fun j ↦ ?_, fun j ↦ ?_, rfl, habout⟩
        · split_ifs with hid
          · rw [hid]
            rfl
          · rfl
        · rw [keep_eq hd]
          exact Std.TreeMap.getElem?_insert_ite _ _ _ j
      have hat : ∀ t, (w.keep id t).dirs[id]? = some (d.keep t) := by
        intro t
        rw [keep_eq hd]
        exact Std.TreeMap.getElem?_insert_self
      unfold Run.onFinalize
      dsimp only
      rcases hfinish : finishWithin w.config.file r with ⟨t, e | summary⟩
      · obtain ⟨content, ok, hwrite, hchanged, hcounts⟩ := summarize_changed "failed" e.summary
          (some (.fromError e)) created (hat t)
        have hkept := hkeep t [] (by simp)
        rw [List.append_nil] at hkept
        exact .unfinished hfinish hwrite (hkept.trans hchanged) hcounts
      · obtain ⟨content, ok, hwrite, hchanged, hcounts⟩ := summarize_changed
          (w := (w.keep id t).note (.finished id summary)) "incomplete" summary none created (hat t)
        exact .finished hfinish hwrite
          ((hkeep t [.finished id summary] (by simp [Happening.connection])).trans hchanged) hcounts

end Run

end Phonowire.Capture
