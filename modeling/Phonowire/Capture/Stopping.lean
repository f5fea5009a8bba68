import Phonowire.Capture.Handling

/-!
# The stop of a run

The first claim decides why a run stops. Every failure of the loops claims the
stop or comes behind it, and behind it no connection is admitted any more.
-/

namespace Phonowire.Capture

open Receiver AudioSocket

namespace Control

variable {c : Control} {cause : Cause} {woken : Option String}

theorem request_of_won (h : c.won = true) : c.request cause woken = c := if_pos h

theorem request_of_not_won (h : c.won = false) : c.request cause woken =
    ⟨true, { c.info with cause := some cause, wake := woken <|> c.info.wake }⟩ :=
  if_neg (by rw [h]; rintro ⟨⟩)

theorem request_won (c : Control) (cause : Cause) (woken : Option String) :
    (c.request cause woken).won = true := by
  unfold request
  split_ifs with h
  · exact h
  · rfl

/-- A signal is counted, and claims the stop like a failure. -/
theorem signal_of_won (h : c.won = true) : c.signal woken = { c with info := { c.info with
    signals := saturatingAdd c.info.signals 1 } } := if_pos h

theorem signal_of_not_won (h : c.won = false) : c.signal woken =
    ⟨true, ⟨some .signal, woken <|> c.info.wake, saturatingAdd c.info.signals 1⟩⟩ :=
  if_neg (by rw [h]; rintro ⟨⟩)

theorem signal_won (c : Control) (woken : Option String) : (c.signal woken).won = true :=
  request_won _ _ _

end Control

namespace Run

variable {w v : Run} {record : Record} {io : RecordIo} {id : ConnectionId}

/-! ## Left-over entries -/

theorem writeSummary_frame (w : Run) (id : ConnectionId) (outcome : String)
    (s : RecordingSummary) (receipt : Option Receipt) (created : Created) :
    (w.writeSummary id outcome s receipt created).1.control = w.control ∧
      (w.writeSummary id outcome s receipt created).1.reserved = w.reserved ∧
      (w.writeSummary id outcome s receipt created).1.counts = w.counts ∧
      (w.writeSummary id outcome s receipt created).1.status = w.status := by
  unfold Run.writeSummary
  cases w.dirs[id]? with
  | none => exact ⟨rfl, rfl, rfl, rfl⟩
  | some d =>
      dsimp only
      split_ifs <;> exact ⟨rfl, rfl, rfl, rfl⟩

/-- A summary touches neither the stop nor the reservations nor the status. -/
structure Beside (w v : Run) : Prop where
  control : v.control = w.control
  reserved : v.reserved = w.reserved
  counts : v.counts = { w.counts with metadata := v.counts.metadata }
  status : v.status = w.status

theorem beside_summarize (w : Run) (id : ConnectionId) (outcome : String) (s : RecordingSummary)
    (receipt : Option Receipt) (created : Created) :
    Beside w (w.summarize id outcome s receipt created) := by
  obtain ⟨hcontrol, hreserved, hcounts, hstatus⟩ :=
    writeSummary_frame { w with bad := true } id outcome s receipt created
  unfold Run.summarize
  split
  · rename_i u hresult
    rw [hresult] at hcontrol hreserved hcounts hstatus
    exact ⟨hcontrol, hreserved, by rw [hcounts], hstatus⟩
  · rename_i u hresult
    rw [hresult] at hcontrol hreserved hcounts hstatus
    exact ⟨hcontrol, hreserved, by rw [hcounts], hstatus⟩

theorem beside_onFinalize (w : Run) (id : ConnectionId) (entry : Entry) (created : Created) :
    Beside w (w.onFinalize id entry created) := by
  cases entry with
  | failed receipt => exact beside_summarize w id _ _ _ created
  | active r =>
      unfold Run.onFinalize
      dsimp only
      rcases finishWithin w.config.file r with ⟨s, e | summary⟩
      · obtain ⟨hcontrol, hreserved, hcounts, hstatus⟩ :=
          beside_summarize (w.keep id s) id "failed" e.summary (some (.fromError e)) created
        exact ⟨hcontrol, hreserved, hcounts, hstatus⟩
      · obtain ⟨hcontrol, hreserved, hcounts, hstatus⟩ := beside_summarize
          ((w.keep id s).note (.finished id summary)) id "incomplete" summary none created
        exact ⟨hcontrol, hreserved, hcounts, hstatus⟩

theorem finish_status (w : Run) (id : ConnectionId) (r : Recording) (io : RecordIo) :
    (w.finish id r io).status = w.status := by
  unfold Run.finish
  dsimp only
  rcases finishWithin w.config.file r with ⟨s, e | summary⟩
  · rfl
  · dsimp only
    split <;> rename_i hresult <;> have hstatus := congrArg (Run.status ·.1) hresult <;>
      exact hstatus.symm.trans (writeSummary_frame _ _ _ _ _ _).2.2.2

theorem onRecord_status (w : Run) (record : Record) (io : RecordIo) :
    (w.onRecord record io).status = w.status := by
  unfold Run.onRecord
  split_ifs
  · unfold Run.onConnected Run.createRecorder
    dsimp only
    split_ifs <;> try rfl
    split
    · rcases create w.config.file record.connection io.create with ⟨d, e | recorder⟩
      · rfl
      · dsimp only [Run.note]
        rcases recordWithin w.config.file recorder record with ⟨s, e | ⟨⟩⟩ <;> rfl
    · rfl
  · split
    · rename_i r _
      unfold Run.onActive
      dsimp only
      rcases recordWithin w.config.file r record with ⟨s, e | ⟨⟩⟩
      · rfl
      · dsimp only
        split_ifs
        · exact finish_status _ _ _ _
        · rfl
    · rfl
    · rfl

/-! ## The exit -/

theorem onExit_succeeds_iff (w : Run) (io : ExitIo) :
    (w.onExit io).phase = .exited true ↔ w.bad = false ∧ io.signalsJoined = true ∧
      workerFailed io.worker = false ∧ io.budgetUsed = 0 ∧ w.counts.unowned = 0 ∧
      w.counts.metadata = 0 ∧ (workerSummary io.worker).any summaryFailed = false ∧
      w.control.stopWakeFailed = false ∧ (writeJson w.config.status w.status io.status
        (w.statusJson io.budgetUsed (workerSummary io.worker))).2 = true := by
  simp only [Run.onExit, Phase.exited.injEq, Bool.not_eq_true', Bool.or_eq_false_iff,
    Bool.not_eq_false', decide_eq_false_iff_not, ne_eq, not_not, and_assoc]

/-! ## Why a run stops -/

/-- The recorded cause is a real one. -/
def Explained (w : Run) : Option Cause → Prop
  | none => w.control.won = false ∧ w.control.info.wake = none
  | some .signal => w.control.won = true ∧ 0 < w.control.info.signals
  | some .localFailure => w.control.won = true ∧ w.bad = true
  | some .admission => w.control.won = true ∧ w.bad = true ∧ w.reserved = w.config.run

structure Claimed (w : Run) : Prop where
  explained : w.Explained w.control.info.cause
  failed : ∀ (id : ConnectionId) receipt, w.entries[id]? = some (.failed receipt) →
    w.control.won = true
  admission : w.counts.admission ≠ 0 → w.control.won = true
  metadata : w.phase = .draining → w.counts.metadata ≠ 0 → w.control.won = true
  stopped : w.counts.stopped ≤ u64Max
  refused : w.counts.stopped ≠ 0 → w.control.won = true

theorem claimed_new (c : Config) : (new c).Claimed where
  explained := ⟨rfl, rfl⟩
  failed := by simp [new]
  admission h := absurd rfl h
  metadata _ h := absurd rfl h
  stopped := Nat.zero_le _
  refused h := absurd rfl h

/-- A step that leaves the stop alone. -/
theorem Explained.same (h : w.Explained w.control.info.cause) (hcontrol : v.control = w.control)
    (hbad : w.bad = true → v.bad = true) (hreserved : w.control.won = true → v.reserved = w.reserved)
    (hconfig : v.config = w.config) : v.Explained v.control.info.cause := by
  rw [hcontrol]
  cases hcause : w.control.info.cause with
  | none =>
      rw [hcause] at h
      unfold Explained
      rwa [hcontrol]
  | some cause =>
      rw [hcause] at h
      cases cause with
      | signal =>
          unfold Explained
          rwa [hcontrol]
      | localFailure => exact ⟨hcontrol ▸ h.1, hbad h.2⟩
      | admission =>
          refine ⟨hcontrol ▸ h.1, hbad h.2.1, ?_⟩
          rw [hreserved h.1, hconfig]
          exact h.2.2

/-- A failure that claims the stop, unless it is claimed. -/
theorem Explained.request (h : w.Explained w.control.info.cause) {cause : Cause}
    {woken : Option String} (hcontrol : v.control = w.control.request cause woken)
    (hbad : v.bad = true) (hreserved : w.control.won = true → v.reserved = w.reserved)
    (hconfig : v.config = w.config) (hlocal : cause ≠ .signal)
    (hfull : w.control.won = false → cause = .admission → v.reserved = v.config.run) :
    v.Explained v.control.info.cause := by
  cases hwon : w.control.won with
  | true =>
      rw [Control.request_of_won hwon] at hcontrol
      exact h.same hcontrol (fun _ ↦ hbad) hreserved hconfig
  | false =>
      have hclaimed : v.control.won = true := by
        rw [hcontrol]
        exact Control.request_won _ _ _
      have hcause : v.control.info.cause = some cause := by
        rw [hcontrol, Control.request_of_not_won hwon]
      rw [hcause]
      cases cause with
      | signal => exact absurd rfl hlocal
      | localFailure => exact ⟨hclaimed, hbad⟩
      | admission => exact ⟨hclaimed, hbad, hfull hwon rfl⟩

theorem Stops.explained {fails : Bool} (h : Stops fails io.woken w v)
    (hbefore : w.Explained w.control.info.cause)
    (hreserved : w.control.won = true → v.reserved = w.reserved) (hconfig : v.config = w.config) :
    v.Explained v.control.info.cause ∧
      (w.control.won = true ∨ fails = true → v.control.won = true) := by
  cases fails with
  | true =>
      obtain ⟨hbad, hcontrol⟩ := h.failing rfl
      refine ⟨hbefore.request hcontrol hbad hreserved hconfig (by rintro ⟨⟩)
        (fun _ h ↦ (by cases h)), fun _ ↦ ?_⟩
      rw [hcontrol]
      exact Control.request_won _ _ _
  | false =>
      obtain ⟨hbad, hcontrol⟩ := h.quiet rfl
      refine ⟨hbefore.same hcontrol (fun hw ↦ hbad.trans hw) hreserved hconfig, fun hor ↦ ?_⟩
      rw [hcontrol]
      exact hor.resolve_right (by rintro ⟨⟩)

/-- A step at one connection whose failures claim the stop. -/
theorem Claimed.changed {entry : Option Entry} {d : Option Directory} {more : List Happening}
    (h : w.Claimed) (hchanged : Changed id entry d more w v)
    (hexplained : v.Explained v.control.info.cause)
    (hwon : w.control.won = true → v.control.won = true)
    (hfailed : ∀ receipt, entry = some (.failed receipt) → v.control.won = true)
    (hcounts : v.counts = { w.counts with metadata := v.counts.metadata })
    (hmetadata : v.phase = .draining → v.counts.metadata ≠ 0 → v.control.won = true) :
    v.Claimed where
  explained := hexplained
  failed j receipt hj := by
    rw [hchanged.entries] at hj
    split_ifs at hj with hid
    · exact hfailed receipt hj
    · exact hwon (h.failed j receipt hj)
  admission hne := by
    rw [hcounts] at hne
    exact hwon (h.admission hne)
  metadata := hmetadata
  stopped := by
    rw [hcounts]
    exact h.stopped
  refused hne := by
    rw [hcounts] at hne
    exact hwon (h.refused hne)

theorem counts_of_eq (h : v.counts = w.counts) :
    v.counts = { w.counts with metadata := v.counts.metadata } := by
  rw [h]

theorem Handled.claimed (h : Handled w record io v) (hbefore : w.Claimed)
    (hphase : w.phase = .draining) (hconfig : v.config = w.config) : v.Claimed := by
  have hexplained := hbefore.explained
  cases h with
  | stopped hconnected hwon hv =>
      subst hv
      refine ⟨hexplained.same rfl (fun h ↦ h) (fun _ ↦ rfl) rfl, hbefore.failed, hbefore.admission,
        hbefore.metadata, ?_, fun _ ↦ hwon⟩
      exact Nat.min_le_right _ _
  | full hconnected hwon hfull hv =>
      subst hv
      have hclaimed := Control.request_won w.control
        (if w.reserved = w.config.run then Cause.admission else .localFailure) io.woken
      refine ⟨hexplained.request rfl rfl (fun _ ↦ rfl) rfl ?_ ?_, fun _ _ _ ↦ hclaimed,
        fun _ ↦ hclaimed, fun _ _ ↦ hclaimed, hbefore.stopped, fun _ ↦ hclaimed⟩
      · split_ifs <;> rintro ⟨⟩
      · intro _ hcause
        split_ifs at hcause with hlimit
        exact hlimit
  | uncreated hconnected hwon hroom hv =>
      subst hv
      have hclaimed := Control.request_won w.control .localFailure io.woken
      refine ⟨hexplained.request rfl rfl (fun h ↦ ?_) rfl (by rintro ⟨⟩) (fun _ h ↦ (by cases h)),
        fun _ _ _ ↦ hclaimed, fun _ ↦ hclaimed, fun _ _ ↦ hclaimed, hbefore.stopped,
        fun _ ↦ hclaimed⟩
      rw [hwon] at h
      cases h
  | @created hconnected hwon hroom hlimit hnone e d more hopened hchanged hreserved hcounts hstops =>
      obtain ⟨hafter, hclaims⟩ := hstops.explained hexplained
        (fun h ↦ (by rw [hwon] at h; cases h)) hconfig
      refine hbefore.changed hchanged hafter (fun h ↦ hclaims (.inl h)) ?_ (counts_of_eq hcounts) ?_
      · intro receipt hentry
        obtain rfl := Option.some.inj hentry
        exact hclaims (.inr rfl)
      · intro _ hne
        rw [hcounts] at hne
        exact hclaims (.inl (hbefore.metadata hphase hne))
  | taken hconnected hended hentry hrecord hchanged hreserved hcounts hstops =>
      obtain ⟨hafter, hclaims⟩ := hstops.explained hexplained (fun _ ↦ hreserved) hconfig
      refine hbefore.changed hchanged hafter (fun h ↦ hclaims (.inl h)) ?_ (counts_of_eq hcounts) ?_
      · rintro receipt ⟨⟩
      · intro _ hne
        rw [hcounts] at hne
        exact hclaims (.inl (hbefore.metadata hphase hne))
  | broken hconnected hentry hrecord hchanged hreserved hcounts hstops =>
      obtain ⟨hafter, hclaims⟩ := hstops.explained hexplained (fun _ ↦ hreserved) hconfig
      exact hbefore.changed hchanged hafter (fun h ↦ hclaims (.inl h)) (fun _ _ ↦ hclaims (.inr rfl))
        (counts_of_eq hcounts) fun _ _ ↦ hclaims (.inr rfl)
  | unfinished hconnected hended hentry hrecord hfinish hchanged hreserved hcounts hstops =>
      obtain ⟨hafter, hclaims⟩ := hstops.explained hexplained (fun _ ↦ hreserved) hconfig
      exact hbefore.changed hchanged hafter (fun h ↦ hclaims (.inl h)) (fun _ _ ↦ hclaims (.inr rfl))
        (counts_of_eq hcounts) fun _ _ ↦ hclaims (.inr rfl)
  | @finished hconnected hended r s t summary content ok hentry hrecord hfinish hwrite hchanged
      hreserved hcounts hbad hcontrol =>
      have hstops : (w.bad = true → v.bad = true) := by
        intro hw
        rw [hbad, hw]
        rfl
      cases ok with
      | true =>
          refine hbefore.changed hchanged
            (hexplained.same hcontrol hstops (fun _ ↦ hreserved) hconfig) ?_ (by rintro _ ⟨⟩)
            (counts_of_eq hcounts) ?_
          · intro hwon
            rw [hcontrol]
            exact hwon
          · intro _ hne
            rw [hcounts] at hne
            rw [hcontrol]
            exact hbefore.metadata hphase hne
      | false =>
          have hclaimed : v.control.won = true := by
            rw [hcontrol]
            exact Control.request_won _ _ _
          refine hbefore.changed hchanged ?_ (fun _ ↦ hclaimed) (by rintro _ ⟨⟩) ?_
            fun _ _ ↦ hclaimed
          · apply hexplained.request hcontrol ?_ (fun _ ↦ hreserved) hconfig (by rintro ⟨⟩)
              (fun _ h ↦ (by cases h))
            rw [hbad, Bool.not_false, Bool.or_true]
          · rw [hcounts]
            rfl
  | @failed hconnected receipt hentry hv =>
      subst hv
      refine ⟨hexplained.same rfl (fun h ↦ h) (fun _ ↦ rfl) rfl, ?_, hbefore.admission,
        hbefore.metadata, hbefore.stopped, hbefore.refused⟩
      intro _ _ _
      exact hbefore.failed _ receipt hentry
  | unowned hconnected hentry hv =>
      subst hv
      exact ⟨hexplained.same rfl (fun h ↦ h) (fun _ ↦ rfl) rfl, hbefore.failed, hbefore.admission,
        hbefore.metadata, hbefore.stopped, hbefore.refused⟩

theorem Claimed.step {c : Config} (h : w.Claimed) (hbounded : w.Bounded c) (hafter : v.Bounded c)
    {event : Event} (hstep : w.step event = some v) : v.Claimed := by
  have hconfig : v.config = w.config := hafter.kept.config.trans hbounded.kept.config.symm
  cases event with
  | signal woken =>
      obtain ⟨_, rfl⟩ := step_signal hstep
      have hclaimed := Control.signal_won w.control woken
      have hpos : 0 < saturatingAdd w.control.info.signals 1 := by
        unfold saturatingAdd u64Max
        omega
      refine ⟨?_, fun _ _ _ ↦ hclaimed, fun _ ↦ hclaimed, fun _ _ ↦ hclaimed, h.stopped,
        fun _ ↦ hclaimed⟩
      have hexplained := h.explained
      cases hbefore : w.control.won with
      | false =>
          rw [Control.signal_of_not_won hbefore]
          exact ⟨rfl, hpos⟩
      | true =>
          rw [Control.signal_of_won hbefore]
          cases hcause : w.control.info.cause with
          | none =>
              rw [hcause] at hexplained
              rw [hexplained.1] at hbefore
              cases hbefore
          | some cause =>
              rw [hcause] at hexplained
              cases cause with
              | signal => exact ⟨hbefore, hpos⟩
              | localFailure => exact hexplained
              | admission => exact hexplained
  | record record io =>
      obtain ⟨hphase, rfl⟩ := step_record hstep
      exact (handled_onRecord w record io).claimed h hphase hconfig
  | disconnected =>
      obtain ⟨hphase, rfl⟩ := step_disconnected hstep
      refine ⟨h.explained.same rfl (fun h ↦ h) (fun _ ↦ rfl) rfl, ?_, h.admission, by rintro ⟨⟩,
        h.stopped, h.refused⟩
      intro id receipt hentry
      dsimp only at hentry
      rw [Std.TreeMap.getElem?_emptyc] at hentry
      cases hentry
  | finalize created =>
      obtain ⟨id, entry, rest, hphase, rfl⟩ := step_finalize hstep
      obtain ⟨hcontrol, hreserved, hcounts⟩ := beside_onFinalize w id entry created
      have hempty := hafter.entries (by rintro ⟨⟩)
      have hwon : w.control.won = true → (w.onFinalize id entry created).control.won = true := by
        intro hw
        rw [hcontrol]
        exact hw
      refine ⟨?_, ?_, ?_, by rintro ⟨⟩, ?_, ?_⟩
      · exact h.explained.same hcontrol (fun _ ↦ onFinalize_bad w id entry created)
          (fun _ ↦ hreserved) hconfig
      · intro j receipt hentry
        rw [hempty, Std.TreeMap.getElem?_emptyc] at hentry
        cases hentry
      · intro hne
        dsimp only at hne
        rw [hcounts] at hne
        exact hwon (h.admission hne)
      · dsimp only
        rw [hcounts]
        exact h.stopped
      · intro hne
        dsimp only at hne
        rw [hcounts] at hne
        exact hwon (h.refused hne)
  | exit io =>
      obtain ⟨hphase, rfl⟩ := step_exit hstep
      have hbad : w.bad = true → (w.onExit io).bad = true := by
        intro hbad
        simp [Run.onExit, hbad]
      have hexplained : (w.onExit io).Explained (w.onExit io).control.info.cause :=
        h.explained.same rfl hbad (fun _ ↦ rfl) hconfig
      exact ⟨hexplained, h.failed, h.admission, by rintro ⟨⟩, h.stopped, h.refused⟩

theorem claimed_of_run {c : Config} (hvalid : c.Valid) {events : List Event}
    (hrun : Machine.run Run.step (new c) events = some w) : w.Claimed := by
  induction events using List.reverseRecOn generalizing w with
  | nil =>
      cases hrun
      exact claimed_new c
  | append_singleton events event ih =>
      obtain ⟨u, hu, hstep⟩ := Machine.run_snoc.mp hrun
      exact (ih hu).step (bounded_of_run hvalid hu) (bounded_of_run hvalid hrun) hstep

/-! ## Behind the stop -/

/-- What `records` change behind the stop: refused connections are counted. -/
structure Frozen (records : List Record) (w v : Run) : Prop where
  won : v.control.won = true
  cause : v.control.info.cause = w.control.info.cause
  wake : v.control.info.wake = w.control.info.wake
  reserved : v.reserved = w.reserved
  admission : v.counts.admission = w.counts.admission
  stopped : v.counts.stopped =
    min (w.counts.stopped + records.countP (·.kind.isConnected)) u64Max
  dirs : ∀ id : ConnectionId, v.dirs[id]?.isSome = w.dirs[id]?.isSome

theorem Frozen.trans {u : Run} {records more : List Record} (h : Frozen records w v)
    (hrest : Frozen more v u) : Frozen (records ++ more) w u where
  won := hrest.won
  cause := hrest.cause.trans h.cause
  wake := hrest.wake.trans h.wake
  reserved := hrest.reserved.trans h.reserved
  admission := hrest.admission.trans h.admission
  stopped := by
    rw [hrest.stopped, h.stopped, List.countP_append]
    omega
  dirs id := (hrest.dirs id).trans (h.dirs id)

theorem Changed.isSome {entry : Option Entry} {d : Directory} {more : List Happening}
    (h : Changed id entry (some d) more w v) (hsome : w.dirs[id]?.isSome = true)
    (other : ConnectionId) : v.dirs[other]?.isSome = w.dirs[other]?.isSome := by
  rw [h.dirs]
  split_ifs with hid
  · rw [← hid, hsome]
    rfl
  · rfl

end Run

end Phonowire.Capture
