import Phonowire.Capture.Lossless
import Phonowire.Receiver.Balance

/-!
# A successful capture lost nothing

The records that a receiver hands off for one connection begin with its only
`Connected` and end with its only `Ended`. So a run of the application over
them, with the summary of that receiver, returns `Ok` only if every connection
the receiver accepted is a whole recording.
-/

namespace Phonowire.Receiver

open AudioSocket

theorem Connection.Faithful.shaped {payloadCapacity : ℕ} {profile : IncomingProfile}
    {c : Connection} (h : c.Faithful payloadCapacity profile) : Capture.Shaped c.sent := by
  constructor
  · intro before record after hsent
    cases before with
    | nil =>
        obtain ⟨_, hkind, _⟩ := h.opened.first record after hsent
        rw [hkind]
        exact ⟨fun _ ↦ rfl, fun _ ↦ rfl⟩
    | cons first before =>
        obtain ⟨_, _, hlater⟩ := h.opened.first first (before ++ record :: after) hsent
        have hrecord := hlater record (by simp)
        cases hkind : record.kind with
        | connected peer =>
            rw [hkind] at hrecord
            rcases hrecord with hrecord | hrecord <;> cases hrecord
        | _ => simp [RecordKind.isConnected]
  · intro before record after hsent hended
    exact (h.concluded.endsOnce before record after hsent hended).1

namespace World

variable {w : World} {settings : Settings} {outside : List ℕ}

/-- The records of an identity are those of a connection, or there are none. -/
theorem accepted_filter (hsteady : w.Steady) (id : ConnectionId) :
    w.engine.accepted.filter (·.connection = id) = [] ∨
      ∃ token c, id = w.engine.board.id token ∧ w.connection token = some c ∧
        w.engine.accepted.filter (·.connection = id) = c.sent := by
  rcases hrecords : w.engine.accepted.filter (·.connection = id) with _ | ⟨record, rest⟩
  · exact .inl hrecords
  · right
    have hmem : record ∈ w.engine.accepted.filter (·.connection = id) := by
      rw [hrecords]
      exact List.mem_cons_self
    rw [List.mem_filter, decide_eq_true_eq] at hmem
    obtain ⟨token, htoken, hhistory⟩ := hsteady.sound.handed.known record hmem.1
    rw [Board.history_eq, Option.isSome_map] at hhistory
    obtain ⟨c, hc⟩ := Option.isSome_iff_exists.mp hhistory
    have hid : id = w.engine.board.id token := hmem.2.symm.trans htoken
    refine ⟨token, c, hid, hc, ?_⟩
    rw [hid]
    exact accepted_eq hsteady hc

theorem shaped_of_reachable (hfits : outside.sum ≤ settings.capacity.val)
    (hreachable : Machine.Reachable World.step (new settings outside) w) (id : ConnectionId) :
    Capture.Shaped (w.engine.accepted.filter (·.connection = id)) := by
  have hsteady := steady_of_reachable hfits hreachable
  rcases accepted_filter hsteady id with hnil | ⟨token, c, _, hc, hsent⟩
  · rw [hnil]
    exact ⟨fun before record after h ↦ (by simp at h), fun before record after h ↦ (by simp at h)⟩
  · rw [hsent]
    have hruns := (hsteady.sound.coherent.connection_runs hc).reachable
    rw [settings_of_reachable hfits hreachable] at hruns
    exact (Connection.faithful_of_reachable settings.fits hruns).2.shaped

/-- A run without an abandoned connection has queued the end of every task. -/
theorem ended_of_unabandoned {result : DriveResult} (haudited : w.Audited) (hsteady : w.Steady)
    (hpc : w.pc = .returned result) (hcomplete : w.summary.countersComplete = true)
    (habandoned : w.summary.abandoned = 0) :
    ∀ t ∈ w.engine.board.tasks, t.sent.countP (·.kind.isEnded) = 1 := by
  intro t ht
  have hbooked := haudited.booked ⟨hcomplete, by rw [hpc]; rfl, by rw [hpc]; rintro p ⟨⟩⟩
  have hmerged := hbooked.merged .abandoned
  have hzero : w.summary.counter .abandoned + w.pc.unmerged.elim 0 (·.counter .abandoned) = 0 := by
    rw [hpc]
    exact habandoned
  rw [hzero, eq_comm, List.sum_eq_zero_iff] at hmerged
  have hone := hmerged _ (List.mem_map_of_mem ht)
  obtain ⟨token, hat⟩ := Board.mem_tasks.mp ht
  rw [(hsteady.sound.coherent.departed token t hat).terminal_eq]
  simp only [Progress.counter] at hone
  cases hqueued : t.task.progress.terminalQueued with
  | true => rfl
  | false =>
      rw [hqueued] at hone
      cases hone

/-- A returned worker has destroyed every connection. -/
theorem mem_tasks_of_connection {result : DriveResult} (hsteady : w.Steady)
    (hpc : w.pc = .returned result) {token : Token} {c : Connection}
    (hc : w.connection token = some c) : c ∈ w.engine.board.tasks := by
  have hplace := hsteady.place
  rw [hpc] at hplace
  have hlive := hplace.2 token
  unfold World.connection Board.connection at hc
  rw [hlive, Option.map_none, Option.none_or] at hc
  exact Board.mem_tasks.mpr ⟨token, hc⟩

theorem tasks_ids_nodup (hsteady : w.Steady) :
    (w.engine.board.tasks.map (·.task.id)).Nodup := by
  have hids : w.engine.board.tasks.map (·.task.id) =
      (w.engine.board.departed.toList.map Prod.fst).map w.engine.board.id := by
    rw [Board.tasks, List.map_map, List.map_map]
    refine List.map_congr_left fun e he ↦ ?_
    have hat := Std.TreeMap.mem_toList_iff_getElem?_eq_some.mp he
    exact (hsteady.sound.coherent.departed e.1 e.2 hat).id_eq
  rw [hids, Std.TreeMap.map_fst_toList_eq_keys]
  refine List.Nodup.map (fun a b h ↦ ?_) Std.TreeMap.nodup_keys
  exact congrArg ConnectionId.sequence h

end World

end Phonowire.Receiver

namespace Phonowire.Capture

open Receiver AudioSocket

namespace Run

variable {settings : Settings} {outside : List ℕ} {w : World} {c : Config} {u v : Run}

/-- What the connections of a returned receiver have come to when the run over
its records has met no failure. -/
theorem Lossless.tasks {result : DriveResult} (h : Lossless w.engine.accepted u)
    (hnone : ∀ id : ConnectionId, u.entries[id]? = none) (hsteady : w.Steady)
    (hpc : w.pc = .returned result)
    (hended : ∀ t ∈ w.engine.board.tasks, t.sent.countP (·.kind.isEnded) = 1) :
    (∀ t ∈ w.engine.board.tasks, successfulTerminal (closing t.sent) = true ∧
      u.dirs[t.task.id]? = some (wholeDirectory t.task.id t.sent) ∧
      u.story t.task.id = wholeStory t.task.id t.sent) ∧
      u.log.countP (·.isCreated) = w.engine.accepted.countP (·.kind.isEnded) ∧
      u.log.countP (·.isFinished) = w.engine.accepted.countP (·.kind.isEnded) ∧
      u.counts.stopped = 0 := by
  have hwhole : ∀ t ∈ w.engine.board.tasks, ∀ id, t.task.id = id →
      w.engine.accepted.filter (·.connection = id) = t.sent →
      successfulTerminal (closing t.sent) = true ∧
        u.dirs[id]? = some (wholeDirectory id t.sent) ∧ u.story id = wholeStory id t.sent := by
    intro t ht id _ hsent
    have hfate := h.fate id
    rw [hsent] at hfate
    refine hfate.whole (hnone id) ?_
    have hpos : 0 < t.sent.countP (·.kind.isEnded) := by rw [hended t ht]; exact Nat.one_pos
    exact List.countP_pos_iff.mp hpos
  have hconnection : ∀ token t, w.connection token = some t →
      t ∈ w.engine.board.tasks ∧ t.task.id = w.engine.board.id token :=
    fun token t hc ↦ ⟨World.mem_tasks_of_connection hsteady hpc hc,
      (hsteady.sound.coherent.connection_runs hc).id_eq⟩
  have hcount (p : Happening → Bool)
      (hone : ∀ (id : ConnectionId) (records : List Record), (wholeStory id records).countP p = 1) :
      u.log.countP p = w.engine.accepted.countP (·.kind.isEnded) := by
    refine List.countP_eq_of_filter Happening.connection Record.connection fun id ↦ ?_
    have hstory : u.log.filter (·.connection = id) = u.story id := rfl
    rw [hstory]
    rcases World.accepted_filter hsteady id with hnil | ⟨token, t, hid, hc, hsent⟩
    · have hfate := h.fate id
      rw [hnil] at hfate
      rw [hnil, hfate.idle_of_nil.2]
      rfl
    · obtain ⟨ht, htid⟩ := hconnection token t hc
      obtain ⟨_, _, htold⟩ := hwhole t ht id (htid.trans hid.symm) hsent
      rw [hsent, hended t ht, htold]
      exact hone id t.sent
  refine ⟨?_, ?_, ?_, ?_⟩
  · intro t ht
    obtain ⟨token, hat⟩ := Board.mem_tasks.mp ht
    have hplace := hsteady.place
    rw [hpc] at hplace
    have hc : w.connection token = some t := by
      unfold World.connection Board.connection
      rw [hplace.2 token, hat]
      rfl
    have hid := (hconnection token t hc).2
    have hsent := World.accepted_eq hsteady hc
    unfold World.accepted at hsent
    rw [← hid] at hsent
    exact hwhole t ht t.task.id rfl hsent
  · refine hcount _ fun id records ↦ ?_
    simp [wholeStory, Happening.isCreated, Function.comp_def]
  · refine hcount _ fun id records ↦ ?_
    simp [wholeStory, Happening.isFinished, Function.comp_def]
  · by_contra hstopped
    obtain ⟨record, hmem, hstory⟩ := h.stopped hstopped
    rcases World.accepted_filter hsteady record.connection with hnil | ⟨token, t, hid, hc, hsent⟩
    · rw [List.filter_eq_nil_iff] at hnil
      exact hnil record hmem (decide_eq_true rfl)
    · obtain ⟨ht, htid⟩ := hconnection token t hc
      obtain ⟨_, _, htold⟩ := hwhole t ht record.connection (htid.trans hid.symm) hsent
      rw [hstory] at htold
      cases htold

/-- Every connection of the receiver is a whole recording, and nothing else was
done. -/
structure Whole (w : World) (v : Run) : Prop where
  complete : w.summary.countersComplete = true
  abandoned : w.summary.abandoned = 0
  tasks : ∀ t ∈ w.engine.board.tasks, successfulTerminal (closing t.sent) = true ∧
    v.dirs[t.task.id]? = some (wholeDirectory t.task.id t.sent) ∧
    v.story t.task.id = wholeStory t.task.id t.sent
  created : v.log.countP (·.isCreated) = w.engine.accepted.countP (·.kind.isEnded)
  finished : v.log.countP (·.isFinished) = w.engine.accepted.countP (·.kind.isEnded)
  reserved : v.reserved = v.log.countP (·.isCreated)
  failed : v.counts.failed = 0
  unowned : v.counts.unowned = 0
  admission : v.counts.admission = 0
  stopped : v.counts.stopped = 0

theorem terminal_of_successful {ending : RecordingEnd} (h : successfulTerminal ending = true) :
    ending = .observed .cleanEof ∨ ending = .observed .terminate := by
  unfold successfulTerminal at h
  split at h
  · exact .inl rfl
  · exact .inr rfl
  · cases h

section Joint

variable {result : DriveResult} {isDir : Bool} {events : List Event}

theorem whole_of_ok (hfits : outside.sum ≤ settings.capacity.val)
    (hreachable : Machine.Reachable World.step (World.new settings outside) w)
    (hpc : w.pc = .returned result) (hconnected : w.engine.channel.connected = true)
    (hdrained : w.engine.channel.buffer = []) (hvalid : c.validate isDir = .ok ())
    (hrun : Machine.run Run.step (new c) events = some v)
    (hgiven : given events = w.engine.received)
    (hworker : ∀ io, Event.exit io ∈ events →
      io.worker = .panicked ∨ io.worker = .returned result.toBool w.summary)
    (hok : v.phase = .exited true) : Whole w v := by
  have hsteady := World.steady_of_reachable hfits hreachable
  have hall : w.engine.received = w.engine.accepted := by
    have hqueued := hsteady.sound.handed.queued hconnected
    rwa [hdrained, List.append_nil] at hqueued
  obtain ⟨before, io, u, rfl, hu, hphase, rfl, hbad, hunowned, _, _, hfailed, hsummary⟩ :=
    exit_of_ok hrun hok
  have hgiven' : given before = w.engine.accepted := by
    rw [← hall, ← hgiven]
    simp [given, Event.records]
  have hbounded := bounded_of_run (Config.valid_of_validate hvalid) hu
  have hlossless : Lossless w.engine.accepted u := by
    have hfaultless := faultless_of_run (Config.valid_of_validate hvalid)
      (fun id ↦ hgiven'.symm ▸ World.shaped_of_reachable hfits hreachable id) hu
    rw [hgiven'] at hfaultless
    exact hfaultless hbad hunowned (.inr hphase)
  have hentries : u.entries = ∅ := hbounded.entries (by rw [hphase]; rintro ⟨⟩)
  have hreturned : io.worker = .returned result.toBool w.summary := by
    rcases hworker io (by simp) with hpanicked | hreturned
    · rw [hpanicked] at hfailed
      cases hfailed
    · exact hreturned
  rw [hreturned] at hsummary
  simp only [workerSummary, Option.any_some, summaryFailed, ne_eq, Bool.or_eq_false_iff,
    decide_eq_false_iff_not, not_not, Bool.not_eq_false'] at hsummary
  obtain ⟨⟨⟨habandoned, _⟩, _⟩, hcomplete⟩ := hsummary
  have hended := World.ended_of_unabandoned (World.audited_of_reachable hfits hreachable) hsteady
    hpc hcomplete habandoned
  obtain ⟨htasks, hcreated, hfinished, hstopped⟩ := hlossless.tasks
    (fun id ↦ by rw [hentries]; simp) hsteady hpc hended
  exact ⟨hcomplete, habandoned, htasks, hcreated, hfinished, hlossless.reserved,
    hlossless.failed, hunowned, hlossless.admission, hstopped⟩

/-- A successful capture lost nothing. The receiver and the application over its
records are any runs, with a stop at any moment and any answers of the system:
if the application returns `Ok`, every connection that the receiver accepted has
one new directory, its recorder took every record handed off for it and was
finished on a clean end, and its summary is written as `observed`. -/
theorem successful_run_lost_nothing (hfits : outside.sum ≤ settings.capacity.val)
    (hreachable : Machine.Reachable World.step (World.new settings outside) w)
    (hpc : w.pc = .returned result) (hconnected : w.engine.channel.connected = true)
    (hdrained : w.engine.channel.buffer = []) (hvalid : c.validate isDir = .ok ())
    (hrun : Machine.run Run.step (new c) events = some v)
    (hgiven : given events = w.engine.received)
    (hworker : ∀ io, Event.exit io ∈ events →
      io.worker = .panicked ∨ io.worker = .returned result.toBool w.summary)
    (hok : v.phase = .exited true) :
    (∀ t ∈ w.engine.board.tasks,
      v.log.filter (·.connection = t.task.id) =
        .created t.task.id :: t.sent.map .recorded ++
          [.finished t.task.id (wholeSummary t.task.id t.sent),
            .summarized t.task.id "observed"] ∧
      ((wholeSummary t.task.id t.sent).ending = .observed .cleanEof ∨
        (wholeSummary t.task.id t.sent).ending = .observed .terminate) ∧
      ∃ d, v.dirs[t.task.id]? = some d ∧ d.summary =
        some (utf8 (jsonSummary t.task.id "observed" (wholeSummary t.task.id t.sent) none))) ∧
    (w.engine.board.tasks.map (·.task.id)).Nodup ∧
    w.engine.board.tasks.length = w.summary.accepted ∧
    v.log.countP (·.isCreated) = w.summary.accepted ∧
    v.log.countP (·.isFinished) = w.summary.accepted ∧ v.reserved = w.summary.accepted ∧
    v.counts.failed = 0 ∧ v.counts.unowned = 0 ∧ v.counts.admission = 0 ∧
    v.counts.stopped = 0 ∧ ∀ io, Event.exit io ∈ events → io.budgetUsed = 0 := by
  have hwhole := whole_of_ok hfits hreachable hpc hconnected hdrained hvalid hrun hgiven hworker hok
  have hsteady := World.steady_of_reachable hfits hreachable
  have hbalanced := World.balanced_of_returned (World.audited_of_reachable hfits hreachable)
    hsteady hpc hwhole.complete
  have haccepted : w.engine.accepted.countP (·.kind.isEnded) = w.summary.accepted := by
    rw [hbalanced.settled, hwhole.abandoned, Nat.add_zero, hbalanced.ended]
  refine ⟨?_, World.tasks_ids_nodup hsteady, hbalanced.tasks.symm, ?_, ?_, ?_, hwhole.failed,
    hwhole.unowned, hwhole.admission, hwhole.stopped, ?_⟩
  · intro t ht
    obtain ⟨hgood, hdir, hstory⟩ := hwhole.tasks t ht
    exact ⟨hstory, terminal_of_successful hgood, _, hdir, rfl⟩
  · exact hwhole.created.trans haccepted
  · exact hwhole.finished.trans haccepted
  · exact hwhole.reserved.trans (hwhole.created.trans haccepted)
  · obtain ⟨before, io, u, rfl, hu, hphase, _, _, _, _, hbudget, _⟩ := exit_of_ok hrun hok
    intro other hmem
    rcases List.mem_append.mp hmem with hmem | hmem
    · exact absurd hmem (not_mem_exit hu (by rw [hphase]; rintro _ ⟨⟩) other)
    · obtain rfl := Event.exit.inj (List.mem_singleton.mp hmem)
      exact hbudget

end Joint

/-- One call that hangs up, whose records the consumer takes before the stop. -/
def oneCall : List World.Step :=
  World.Step.admission ++ World.Step.works 27 .hangup ++ World.Step.taken ++ World.Step.taken ++
    World.Step.taken ++ [.outside .stop] ++ World.Step.works 9 .quiet

/-- The application over the records of a worker that returned, with files that
take ten bytes at first and are interrupted then. -/
def captureOf (w : World) : List Event :=
  let slow : Created := .ok ⟨[.accept 10, .fail ⟨.interrupted, none, "signal"⟩], none, none⟩
  w.engine.received.map (fun r ↦ .record r ⟨.ok (), ⟨slow, slow, slow⟩, slow, none⟩) ++
    [.disconnected, .exit ⟨true, .returned true w.summary, 0, slow⟩]

theorem successful_run_lost_nothing_one_call :
    ∃ w v, Machine.run World.step (World.new eightSlots []) oneCall = some w ∧
      Machine.run Run.step (new { smallConfig with file := 1000 }) (captureOf w) = some v ∧
      v.phase = .exited true ∧ w.engine.received.length = 3 ∧ v.reserved = 1 ∧
      v.log.countP (·.isFinished) = w.summary.accepted := by
  obtain ⟨w, hw, hpc, hconnected, hdrained, hlength, hgiven, hcapture⟩ :=
    Machine.exists_of_run World.step (World.new eightSlots []) oneCall
      (fun w ↦ w.pc = .returned (.ok .requested) ∧ w.engine.channel.connected = true ∧
        w.engine.channel.buffer = [] ∧ w.engine.received.length = 3 ∧
        given (captureOf w) = w.engine.received ∧
        (Machine.run Run.step (new { smallConfig with file := 1000 }) (captureOf w)).any
          (fun v ↦ decide (v.phase = .exited true ∧ v.reserved = 1)) = true)
      (by decide +kernel)
  obtain ⟨v, hv, hok, hreserved⟩ := Machine.exists_of_run Run.step _ _ _ hcapture
  have hvalid : Config.validate { smallConfig with file := 1000 } true = .ok () := by decide
  have hworker : ∀ io, Event.exit io ∈ captureOf w →
      io.worker = .panicked ∨ io.worker = .returned true w.summary := by
    intro io hmem
    simp only [captureOf, List.mem_append, List.mem_map, reduceCtorEq, and_false, exists_false,
      List.mem_cons, Event.exit.injEq, List.not_mem_nil, or_false, false_or] at hmem
    rw [hmem]
    exact .inr rfl
  have hlost := successful_run_lost_nothing (by decide) ⟨_, hw⟩ hpc hconnected hdrained hvalid hv
    hgiven hworker hok
  exact ⟨w, v, hw, hv, hok, hlength, hreserved, hlost.2.2.2.2.1⟩

end Run

end Phonowire.Capture
