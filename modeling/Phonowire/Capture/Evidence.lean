import Phonowire.Capture.Disk
import Phonowire.Capture.Success

/-!
# From the peers to the disk

The records that a run is given are a beginning of what the receiver accepted
for each of its connections, and those follow the bytes that the peer has sent.
So the directories of a run, a failed one too, can be read against the bytes of
the peers.
-/

namespace Phonowire.Receiver

open AudioSocket

/-- The PCM of a transcript. -/
def pcm (observations : List Observation) : List UInt8 :=
  observations.flatMap fun o ↦ match o.2 with
    | .audio _ _ bytes => bytes.bytes
    | _ => []

/-- Audio is observed by protocol records only. -/
theorem audioOutput_eq (records : List Record) :
    audioOutput records = pcm (records.filterMap Record.observation) := by
  induction records with
  | nil => rfl
  | cons record records ih =>
      have hcons : audioOutput (record :: records) = record.audioBytes ++ audioOutput records := rfl
      rw [hcons, ih, List.filterMap_cons]
      unfold Record.observation Record.audioBytes pcm
      cases hkind : record.kind <;> simp

namespace World

variable {w : World} {settings : Settings} {outside : List ℕ}

end World

end Phonowire.Receiver

namespace Phonowire.Capture

open Receiver AudioSocket

/-- How a summary describes its directory: as a whole recording, or as one that
broke off at a record and dropped the later ones. -/
inductive Described (id : ConnectionId) (records : List Record) (d : Directory) :
    String → RecordingSummary → Option Receipt → Prop
  | whole (hwire : d.wire = some (wireOutput records))
      (hwave : d.wave =
        some (headerContent (audioOutput records).length .khz8 ++ audioOutput records))
      (hevents : d.events = some (eventOutput id records)) :
      Described id records d (verdict records) (wholeSummary id records) none
  | cut {kept tried dropped : List Record} {receipt : Receipt}
      (hrecords : records = kept ++ tried ++ dropped) (htried : tried.length ≤ 1)
      (hwire : d.wire.getD [] <+: wireOutput (kept ++ tried))
      (hwave : (d.wave.getD []).drop 44 <+: audioOutput (kept ++ tried))
      (hevents : d.events.getD [] <+: eventOutput id (kept ++ tried))
      (hdropped : receipt.dropped = min dropped.length u64Max)
      (hbytes : receipt.bytes = min (dropped.map bytes).sum u64Max) :
      Described id records d "failed" receipt.summary (some receipt)

namespace Run

variable {v : Run} {id : ConnectionId} {records : List Record} {d : Directory} {entry : Entry}

theorem Held.begun (h : v.Held id records entry) (hd : v.dirs[id]? = some d) :
    records ≠ [] ∧ ∃ summary, d.Begun id records summary := by
  refine ⟨h.ne_nil, ?_⟩
  cases entry with
  | active r =>
      obtain ⟨hdir, htook, _⟩ := h
      rw [hd] at hdir
      obtain rfl := Option.some.inj hdir
      exact ⟨_, begun_of_sound htook.sound htook.id (.inl htook.whole.header) {}⟩
  | failed receipt =>
      obtain ⟨kept, tried, dropped, e, rfl, _, hcut, he, _⟩ := h
      rw [hd] at he
      obtain rfl := Option.some.inj he
      exact ⟨_, hcut.files.append dropped⟩

theorem Settled.begun (h : v.Settled id records) (hd : v.dirs[id]? = some d) :
    records ≠ [] ∧ ∃ summary, d.Begun id records summary := by
  cases h with
  | absent hnone hstory =>
      rw [hd] at hnone
      cases hnone
  | whole he hne hend hwhole hsummed hstory =>
      rw [hd] at he
      obtain rfl := Option.some.inj he
      exact ⟨hne, _, hwhole.begun⟩
  | cut he hne hend hrecords hcut hsummed hstory =>
      rw [hd] at he
      obtain rfl := Option.some.inj he
      subst hrecords
      exact ⟨hne, _, hcut.files.append _⟩

theorem mem_story {happening : Happening} : happening ∈ v.story happening.connection ↔
    happening ∈ v.log := by
  simp [Run.story]

theorem mem_summarized {ok : Bool} {outcome other : String}
    (h : Happening.summarized id other ∈ summarized ok id outcome) :
    ok = true ∧ other = outcome := by
  cases ok with
  | false => cases h
  | true =>
      have heq := List.mem_singleton.mp h
      exact ⟨rfl, (Happening.summarized.inj heq).2⟩

section Joint

variable {settings : Settings} {outside : List ℕ} {w : World} {c : Config} {isDir : Bool}
  {events : List Event}

end Joint

theorem worker_captureOf (w : World) (io : ExitIo) (hmem : Event.exit io ∈ captureOf w) :
    io.worker = .panicked ∨ io.worker = .returned true w.summary := by
  simp only [captureOf, List.mem_append, List.mem_map, reduceCtorEq, and_false, exists_false,
    List.mem_cons, Event.exit.injEq, List.not_mem_nil, or_false, false_or] at hmem
  rw [hmem]
  exact .inr rfl

section Whole

variable {settings : Settings} {outside : List ℕ} {w : World} {c : Config} {isDir : Bool}
  {events : List Event} {result : DriveResult}

/-- A task that has queued its end has sent all that it read. -/
theorem delivered_of_ended (hfits : outside.sum ≤ settings.capacity.val)
    (hreachable : Machine.Reachable World.step (World.new settings outside) w)
    (hpc : w.pc = .returned result) (hcomplete : w.summary.countersComplete = true)
    {t : Connection} (ht : t ∈ w.engine.board.tasks)
    (hended : t.sent.countP (·.kind.isEnded) = 1) :
    t.Faithful settings.limits.payload settings.profile ∧ t.task.await = .returned none ∧
      t.task.progress.counterOverflow = false ∧ t.bytesRead = wireOutput t.sent := by
  have hsteady := World.steady_of_reachable hfits hreachable
  have haudited := World.audited_of_reachable hfits hreachable
  obtain ⟨token, hat⟩ := Board.mem_tasks.mp ht
  have hruns := hsteady.sound.coherent.departed token t hat
  have hreached := hruns.reachable
  rw [World.settings_of_reachable hfits hreachable] at hreached
  have hfaithful := (Connection.faithful_of_reachable settings.fits hreached).2
  have hreturned : t.task.await = .returned none := by
    apply hruns.terminalQueued_iff.mp
    rw [hruns.terminal_eq] at hended
    exact Bool.toNat_eq_one.mp hended
  have hover := (haudited.booked ⟨hcomplete, by rw [hpc]; rfl,
    by rw [hpc]; rintro p ⟨⟩⟩).flawless t ht
  have hdelivered := hfaithful.delivered hover
  rw [hreturned] at hdelivered
  exact ⟨hfaithful, hreturned, hover, hdelivered.trans (List.append_nil _)⟩

theorem delivered_of_whole (hfits : outside.sum ≤ settings.capacity.val)
    (hreachable : Machine.Reachable World.step (World.new settings outside) w)
    (hpc : w.pc = .returned result) (hwhole : Whole w v) {t : Connection}
    (ht : t ∈ w.engine.board.tasks) :
    t.Faithful settings.limits.payload settings.profile ∧ t.task.await = .returned none ∧
      t.task.progress.counterOverflow = false ∧ t.bytesRead = wireOutput t.sent := by
  apply delivered_of_ended hfits hreachable hpc hwhole.complete ht
  exact World.ended_of_unabandoned (World.audited_of_reachable hfits hreachable)
    (World.steady_of_reachable hfits hreachable) hpc hwhole.complete hwhole.abandoned t ht

/-- What a successful capture has on the disk is what the peers sent. For every
connection `wire.bin` is all that was read from its peer, and for any delivery
that the reads follow, the PCM of `audio.wav` is that of the reference reading of
the delivered bytes, behind a header that says its length. The raw files are
together as long as the receiver says it has read. -/
theorem success_persists_streams (hfits : outside.sum ≤ settings.capacity.val)
    (hreachable : Machine.Reachable World.step (World.new settings outside) w)
    (hpc : w.pc = .returned result) (hconnected : w.engine.channel.connected = true)
    (hdrained : w.engine.channel.buffer = []) (hvalid : c.validate isDir = .ok ())
    (hrun : Machine.run Run.step (new c) events = some v)
    (hgiven : given events = w.engine.received)
    (hworker : ∀ io, Event.exit io ∈ events →
      io.worker = .panicked ∨ io.worker = .returned result.toBool w.summary)
    (hok : v.phase = .exited true) :
    (∀ t ∈ w.engine.board.tasks, ∃ d, v.dirs[t.task.id]? = some d ∧ d.wire = some t.bytesRead ∧
      ∀ (chunks : List (List UInt8)) (ending : ReadResult), (∀ chunk ∈ chunks, chunk ≠ []) →
        ending.data = [] → t.reads <+: chunks.map .ok ++ [ending] →
          t.bytesRead <+: chunks.flatten ∧
          d.wave = some (headerContent (pcm (reference settings.limits.payload settings.profile
              chunks.flatten ending)).length .khz8 ++
            pcm (reference settings.limits.payload settings.profile chunks.flatten ending)) ∧
          ∃ before reason, (reference settings.limits.payload settings.profile chunks.flatten
              ending) = before ++ [reason] ∧
            ∃ uuid, reason.2 = .ended uuid .cleanEof ∨ reason.2 = .ended uuid .terminate) ∧
    (w.engine.board.tasks.map fun t ↦ size (v.dirs.getD t.task.id {}).wire).sum =
      w.summary.rawBytesRead := by
  have hwhole := whole_of_ok hfits hreachable hpc hconnected hdrained hvalid hrun hgiven hworker hok
  have hsteady := World.steady_of_reachable hfits hreachable
  have hbalanced := World.balanced_of_returned (World.audited_of_reachable hfits hreachable)
    hsteady hpc hwhole.complete
  refine ⟨?_, ?_⟩
  · intro t ht
    obtain ⟨hgood, hdir, _⟩ := hwhole.tasks t ht
    obtain ⟨hfaithful, hreturned, hover, hread⟩ := delivered_of_whole hfits hreachable hpc hwhole ht
    refine ⟨_, hdir, congrArg some hread.symm, ?_⟩
    intro chunks ending hne hending hreads
    have htranscribes := hfaithful.transcribes hreturned hover hne hending hreads
    obtain ⟨more, hmore, _⟩ := Connection.delivers_of_prefix hne hending hreads
    refine ⟨⟨more, hmore.symm⟩, ?_, ?_⟩
    · rw [wholeDirectory, audioOutput_eq, htranscribes.protocol]
    · obtain ⟨before, last, hsent, hended, _⟩ := htranscribes.ended
      rw [← htranscribes.protocol, hsent]
      rw [hsent, closing_append] at hgood
      cases hkind : last.kind with
      | ended uuid reason =>
          have hobservation : last.observation = some (last.offset, .ended uuid reason) := by
            unfold Record.observation
            rw [hkind]
          rw [hkind] at hgood
          refine ⟨before.filterMap Record.observation, (last.offset, .ended uuid reason), ?_, uuid, ?_⟩
          · rw [List.filterMap_append, List.filterMap_cons, hobservation]
            rfl
          · rcases terminal_of_successful hgood with hclean | hclean
            · cases reason <;> cases hclean
              exact .inl rfl
            · cases reason <;> cases hclean
              exact .inr rfl
      | _ =>
          rw [hkind] at hended
          cases hended
  · rw [hbalanced.read]
    apply congrArg List.sum
    apply List.map_congr_left
    intro t ht
    obtain ⟨_, hdir, _⟩ := hwhole.tasks t ht
    obtain ⟨_, _, _, hread⟩ := delivered_of_whole hfits hreachable hpc hwhole ht
    rw [Std.TreeMap.getD_eq_getD_getElem?, hdir, Option.getD_some]
    have hsize : size (wholeDirectory t.task.id t.sent).wire = t.bytesRead.length := by
      rw [hread]
      rfl
    rw [hsize, Connection.bytesRead, List.length_flatten, List.map_map]
    rfl

end Whole

/-- A call that hangs up is on the disk as its three bytes. -/
theorem success_persists_streams_hangup :
    ∃ w v t d, Machine.run World.step (World.new eightSlots []) oneCall = some w ∧
      Machine.run Run.step (new { smallConfig with file := 1000 }) (captureOf w) = some v ∧
      t ∈ w.engine.board.tasks ∧ v.dirs[t.task.id]? = some d ∧ d.wire = some [0, 0, 0] ∧
      t.bytesRead = [0, 0, 0] ∧ w.summary.rawBytesRead = 3 := by
  obtain ⟨w, hw, hpc, hconnected, hdrained, hgiven, hread, hsummary, hcapture⟩ :=
    Machine.exists_of_run World.step (World.new eightSlots []) oneCall
      (fun w ↦ w.pc = .returned (.ok .requested) ∧ w.engine.channel.connected = true ∧
        w.engine.channel.buffer = [] ∧ given (captureOf w) = w.engine.received ∧
        w.engine.board.tasks.head?.map (·.bytesRead) = some [0, 0, 0] ∧
        w.summary.rawBytesRead = 3 ∧
        (Machine.run Run.step (new { smallConfig with file := 1000 }) (captureOf w)).any
          (fun v ↦ decide (v.phase = .exited true)) = true)
      (by decide +kernel)
  obtain ⟨v, hv, hok⟩ := Machine.exists_of_run Run.step _ _ _ hcapture
  have hvalid : Config.validate { smallConfig with file := 1000 } true = .ok () := by decide
  obtain ⟨hdirs, _⟩ := success_persists_streams (by decide) ⟨_, hw⟩ hpc hconnected hdrained hvalid
    hv hgiven (worker_captureOf w) hok
  obtain ⟨t, hhead, hthree⟩ := Option.map_eq_some_iff.mp hread
  have ht : t ∈ w.engine.board.tasks := List.mem_of_head? hhead
  obtain ⟨d, hd, hwire, _⟩ := hdirs t ht
  exact ⟨w, v, t, d, hw, hv, ht, hd, hwire.trans (congrArg some hthree), hthree, hsummary⟩

end Run

end Phonowire.Capture
