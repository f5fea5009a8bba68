import Phonowire.Capture.Evidence
import Phonowire.Capture.Stopping
import Phonowire.Library.Json

/-!
# What a reader of the reports sees

The application writes its reports as formatted text. Each of them is the text
of one JSON object, so a reader tells a report that broke off from a whole one,
and reads the values of a whole one back.
-/

namespace Phonowire.Capture

open Receiver AudioSocket

/-! ## Texts of values -/

/-- A text that stands for itself in a JSON string. -/
def plainText (text : String) : Bool := text.toList.all Json.plain

theorem plainText_verdict (records : List Record) : plainText (verdict records) = true := by
  unfold verdict
  split_ifs <;> decide

theorem Receipt.Named.plainText {receipt : Receipt} (h : receipt.Named) :
    plainText receipt.stage = true ∧ plainText receipt.class_ = true := by
  constructor
  · rcases h.stage with hstage | ⟨s, hstage⟩
    · rw [hstage]
      decide
    · rw [hstage]
      cases s <;> decide
  · rcases h.class_ with hclass | hclass
    · rw [hclass]
      decide
    · rw [hclass]
      decide

/-- The text of the error of a wake that an event brings. -/
def Event.woken : Event → Option String
  | .signal woken => woken
  | .record _ io => io.woken
  | _ => none

/-! ## Reports on the disk -/

namespace Run

variable {v : Run} {id : ConnectionId} {records : List Record} {d : Directory} {entry : Entry}

theorem Held.summary_eq_none (h : v.Held id records entry) (hd : v.dirs[id]? = some d) :
    d.summary = none := by
  cases entry with
  | active r =>
      obtain ⟨hdir, _⟩ := h
      rw [hd] at hdir
      obtain rfl := Option.some.inj hdir
      rfl
  | failed receipt =>
      obtain ⟨_, _, _, e, _, _, _, he, hnone, _⟩ := h
      rw [hd] at he
      obtain rfl := Option.some.inj he
      exact hnone

/-- What there is of a summary is a beginning of one that describes the files
beside it. -/
theorem Settled.reported (h : v.Settled id records) (hd : v.dirs[id]? = some d) :
    ∃ outcome s receipt, plainText outcome = true ∧ (∀ x ∈ receipt, x.Named) ∧
      d.summary.getD [] <+: utf8 (jsonSummary id outcome s receipt) ∧
      (∀ other, Happening.summarized id other ∈ v.log →
        d.summary = some (utf8 (jsonSummary id outcome s receipt))) ∧
      size d.wire = s.wireBytes ∧ size d.wave = s.headerBytes + s.audioBytes ∧
      size d.events = s.eventBytes ∧ Described id records d outcome s receipt := by
  have hnoted {other outcome : String} {ok : Bool} {before : List Happening}
      (hmem : Happening.summarized id other ∈ v.log)
      (hstory : v.story id = before ++ summarized ok id outcome)
      (hbefore : ∀ said, Happening.summarized id said ∉ before) : ok = true := by
    have hin : Happening.summarized id other ∈ v.story id := mem_story.mpr hmem
    rw [hstory] at hin
    rcases List.mem_append.mp hin with hin | hin
    · exact absurd hin (hbefore other)
    · exact (mem_summarized hin).1
  cases h with
  | absent hnone hstory =>
      rw [hd] at hnone
      cases hnone
  | @whole e ok he hne hend hwhole hsummed hstory =>
      rw [hd] at he
      obtain rfl := Option.some.inj he
      have hbegun := hwhole.begun
      have htold : v.story id = (.created id :: records.map .recorded ++
          [.finished id (wholeSummary id records)]) ++ summarized ok id (verdict records) := by
        rw [hstory]
        simp
      refine ⟨_, _, none, plainText_verdict records, by simp, hsummed.1, ?_, hbegun.wire_count,
        hbegun.wave_count, hbegun.events_count, .whole hwhole.wire hwhole.wave hwhole.events⟩
      intro other hmem
      exact hsummed.2 (hnoted hmem htold (by simp))
  | @cut kept tried dropped receipt e ok he hne hend hrecords hcut hsummed hstory =>
      rw [hd] at he
      obtain rfl := Option.some.inj he
      have hbegun := hcut.files
      refine ⟨"failed", _, some receipt, by decide, by simpa using hcut.named, hsummed.1, ?_,
        hbegun.wire_count, hbegun.wave_count, hbegun.events_count, .cut hrecords hcut.single
          hbegun.wire hbegun.wave hbegun.events hcut.lost hcut.lost_bytes⟩
      intro other hmem
      exact hsummed.2 (hnoted hmem hstory (by simp))

section Joint

variable {settings : Settings} {outside : List ℕ} {w : World} {c : Config} {isDir : Bool}
  {events : List Event}

end Joint

theorem plain_request {c : Control} {cause : Cause} {woken : Option String}
    (hc : ∀ text ∈ c.info.wake, plainText text = true)
    (hwoken : ∀ text ∈ woken, plainText text = true) :
    ∀ text ∈ (c.request cause woken).info.wake, plainText text = true := by
  unfold Control.request
  split_ifs with hwon
  · exact hc
  · cases woken with
    | none => exact hc
    | some text => exact hwoken

theorem Stops.plain {w v : Run} {fails : Bool} {woken : Option String} (h : Stops fails woken w v)
    (hwake : ∀ text ∈ w.control.info.wake, plainText text = true)
    (hwoken : ∀ text ∈ woken, plainText text = true) :
    ∀ text ∈ v.control.info.wake, plainText text = true := by
  cases fails with
  | true =>
      rw [(h.failing rfl).2]
      exact plain_request hwake hwoken
  | false =>
      rw [(h.quiet rfl).2]
      exact hwake

theorem Handled.plain {w v : Run} {record : Record} {io : RecordIo} (h : Handled w record io v)
    (hwake : ∀ text ∈ w.control.info.wake, plainText text = true)
    (hwoken : ∀ text ∈ io.woken, plainText text = true) :
    ∀ text ∈ v.control.info.wake, plainText text = true := by
  cases h with
  | stopped hconnected hwon hv =>
      subst hv
      exact hwake
  | full hconnected hwon hfull hv =>
      subst hv
      exact plain_request hwake hwoken
  | uncreated hconnected hwon hroom hv =>
      subst hv
      exact plain_request hwake hwoken
  | created hconnected hwon hroom hactive hnew hopened hchanged hreserved hcounts hstops =>
      exact hstops.plain hwake hwoken
  | taken hconnected hended hentry hrecord hchanged hreserved hcounts hstops =>
      exact hstops.plain hwake hwoken
  | broken hconnected hentry hrecord hchanged hreserved hcounts hstops =>
      exact hstops.plain hwake hwoken
  | unfinished hconnected hended hentry hrecord hfinish hchanged hreserved hcounts hstops =>
      exact hstops.plain hwake hwoken
  | finished hconnected hended hentry hrecord hfinish hwrite hchanged hreserved hcounts hbad
      hcontrol =>
      rw [hcontrol]
      split_ifs
      · exact hwake
      · exact plain_request hwake hwoken
  | failed hconnected hentry hv =>
      subst hv
      exact hwake
  | unowned hconnected hentry hv =>
      subst hv
      exact hwake

/-- What is there of the status of a run. -/
structure Reported (w : Run) : Prop where
  wake : ∀ text ∈ w.control.info.wake, plainText text = true
  status : (∀ ok, w.phase ≠ .exited ok) → w.status = none
  told : ∀ content, w.status = some content →
    ∃ budgetUsed receiver, content <+: utf8 (w.statusJson budgetUsed receiver)
  whole : w.phase = .exited true → w.counts.unowned = 0 ∧ w.counts.metadata = 0 ∧
    ∃ receiver, w.status = some (utf8 (w.statusJson 0 receiver))

/-- A step that leaves the status alone. -/
theorem Reported.goes {u : Run} (h : Reported u) (hbefore : ∀ ok, u.phase ≠ .exited ok)
    (hafter : ∀ ok, v.phase ≠ .exited ok) (hstatus : v.status = u.status)
    (hwake : ∀ text ∈ v.control.info.wake, plainText text = true) : Reported v where
  wake := hwake
  status _ := hstatus.trans (h.status hbefore)
  told content hcontent := by
    rw [hstatus, h.status hbefore] at hcontent
    cases hcontent
  whole hphase := absurd hphase (hafter true)

theorem Reported.exit {u : Run} (h : Reported u) (hphase : u.phase = .finalizing []) (io : ExitIo) :
    Reported (u.onExit io) := by
  have hnone : u.status = none := h.status (by rw [hphase]; rintro ok ⟨⟩)
  have hjson (receiver : Option RunSummary) :
      (u.onExit io).statusJson io.budgetUsed receiver = u.statusJson io.budgetUsed receiver := rfl
  have hwritten : ((u.onExit io).status, (writeJson u.config.status none io.status
      (u.statusJson io.budgetUsed (workerSummary io.worker))).2) = writeJson u.config.status none
        io.status (u.statusJson io.budgetUsed (workerSummary io.worker)) := by
    rw [← hnone]
    rfl
  obtain ⟨hpart, hall⟩ := writeJson_prefix hwritten.symm
  refine ⟨h.wake, fun hopen ↦ absurd rfl (hopen _), ?_, ?_⟩
  · intro content hcontent
    rw [hcontent, Option.getD_some] at hpart
    exact ⟨io.budgetUsed, _, hpart⟩
  · intro hok
    obtain ⟨_, _, _, hbudget, hunowned, hmetadata, _, _, hwrite⟩ :=
      (onExit_succeeds_iff u io).mp hok
    rw [hnone] at hwrite
    refine ⟨hunowned, hmetadata, workerSummary io.worker, ?_⟩
    rw [← hbudget, hjson]
    exact hall hwrite

theorem Reported.step {u : Run} {event : Event} (h : Reported u)
    (hwoken : ∀ text ∈ event.woken, plainText text = true) (hstep : u.step event = some v) :
    Reported v := by
  cases event with
  | signal woken =>
      obtain ⟨hopen, rfl⟩ := step_signal hstep
      exact h.goes hopen hopen rfl (plain_request h.wake hwoken)
  | record record io =>
      obtain ⟨hphase, rfl⟩ := step_record hstep
      refine h.goes ?_ ?_ (onRecord_status u record io)
        ((handled_onRecord u record io).plain h.wake hwoken)
      · rw [hphase]
        rintro ok ⟨⟩
      · rw [onRecord_phase, hphase]
        rintro ok ⟨⟩
  | disconnected =>
      obtain ⟨hphase, rfl⟩ := step_disconnected hstep
      refine h.goes ?_ (by rintro ok ⟨⟩) rfl h.wake
      rw [hphase]
      rintro ok ⟨⟩
  | finalize created =>
      obtain ⟨id, entry, rest, hphase, rfl⟩ := step_finalize hstep
      have hbeside := beside_onFinalize u id entry created
      refine h.goes ?_ (by rintro ok ⟨⟩) hbeside.status ?_
      · rw [hphase]
        rintro ok ⟨⟩
      · dsimp only
        rw [hbeside.control]
        exact h.wake
  | exit io =>
      obtain ⟨hphase, rfl⟩ := step_exit hstep
      exact h.exit hphase io

end Run

end Phonowire.Capture
