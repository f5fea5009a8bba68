import Phonowire.Receiver.Accounting

/-!
# Run accounting is exact

When `run` returns with complete counters, its summary is the account of all
tasks it admitted and of all records the channel accepted. From the first
counter that cannot represent its next value on, the run is bound to end in an
error with incomplete counters.
-/

namespace Phonowire.Receiver

open AudioSocket

/-! ## Additions that do not fit -/

/-- The answer of the awaited operation adds to a counter of the task that cannot
represent the sum. -/
def Connection.Exceeds (c : Connection) : Event → Prop
  | .read _ (.ok bytes) =>
      c.task.await = .read ∧ bytes ≠ [] ∧ checkedAdd c.task.progress.read bytes.length = none
  | .step _ => ∃ input fed, c.task.await = .feed input ∧ c.task.decoder.feed input = some fed ∧
      checkedAdd c.task.progress.consumed (input.length - fed.rest.length) = none
  | .send _ => ∃ record after, c.task.await = .send record after ∧ c.task.nextCount = none
  | _ => False

/-- Such a task remembers it. -/
theorem Connection.Exceeds.counterOverflow {capacity : ℕ} {c d : Connection} {e : Event}
    (h : c.Exceeds e) (hstep : c.step capacity e = some d) :
    d.task.progress.counterOverflow = true := by
  cases e with
  | poll now => exact h.elim
  | copy now => exact h.elim
  | read now result =>
      cases result with
      | error error => exact h.elim
      | ok bytes =>
          obtain ⟨hat, hne, hover⟩ := h
          simp only [step, hat] at hstep
          split_ifs at hstep
          cases hstep
          cases bytes with
          | nil => exact absurd rfl hne
          | cons b bytes =>
              rw [List.length_cons] at hover
              simp [Task.onRead, Progress.observeRead, hover, Task.endAt, Task.sendAt]
  | step now =>
      obtain ⟨input, fed, hat, hfed, hover⟩ := h
      rw [step_feed now hat] at hstep
      cases hstep
      simp [Task.onFeed, hfed, Progress.consume, hover, Task.endAt, Task.sendAt]
  | send connected =>
      obtain ⟨record, after, hat, hover⟩ := h
      rw [step_send connected hat] at hstep
      cases hstep
      simp [send, hover, Task.countExhausted, Task.sendFailed]

/-- Nor does it forget it. -/
theorem Board.Grew.counterOverflow {b : Board} {connected : Bool} {token : Token}
    {entry : Entry} {d : Connection} (h : b.Grew connected token d) (hcoherent : b.Coherent)
    (hlive : b.live[token]? = some entry)
    (hover : entry.connection.task.progress.counterOverflow = true) :
    d.task.progress.counterOverflow = true := by
  have hconnection := Board.connection_of_live hlive
  cases h with
  | same h =>
      cases hconnection.symm.trans h
      exact hover
  | admitted peer h hd => cases hconnection.symm.trans h
  | stepped c event h hstep hsend =>
      cases hconnection.symm.trans h
      have hruns := (hcoherent.holds token entry hlive).runs
      have hplaced := (Connection.accounted_of_reachable hruns.reachable).1
      obtain ⟨effect, hmove, _, _⟩ := Connection.move_of_step hplaced hstep
      by_contra hclear
      have hbefore := (hmove.counts.read (by simpa using hclear)).1
      cases hover.symm.trans hbefore

namespace World

variable {w w' : World}

/-- The step of the worker adds to a counter that cannot represent the sum. The
tokens are none of these counters, and their end is an error of its own. -/
def Exhausts (w : World) (input : Input) (w' : World) : Prop :=
  match w.pc with
  | .accepting 0 progressed =>
      progressed = false ∧ checkedAdd w.summary.retryQuotaBackoffs 1 = none
  | .accepting (_ + 1) _ =>
      w.stopCause input.raced = none ∧
        match input.accepted with
        | .ok _ =>
            if w.engine.board.live.size = w.limits.maxConnections.val then
              checkedAdd w.summary.refused 1 = none
            else
              checkedAdd w.next 1 ≠ none ∧ input.registered = .ok () ∧
                checkedAdd w.summary.accepted 1 = none
        | .error error =>
            classifyAccept error = .retry ∧ checkedAdd w.summary.transientAcceptErrors 1 = none ∨
              classifyAccept error = .pause ∧ checkedAdd w.summary.resourcePauseEntries 1 = none
  | .polling _ token =>
      ∃ before event after, w.engine.board.live[token]? = some before ∧
        w'.engine.board.live[token]? = some after ∧
        before.connection.step w.engine.capacity event = some after.connection ∧
        before.connection.Exceeds event
  | .publish caller _ progress =>
      caller.closeResult = .retiredByRequest ∧ checkedAdd w.summary.closedByRequest 1 = none ∨
        w.summary.Overflows progress
  | _ => False

/-- A run whose summary can no longer be complete. -/
def Doomed (w : World) : Prop :=
  match w.pc with
  | .polling _ token => ∃ entry, w.engine.board.live[token]? = some entry ∧
      entry.connection.task.progress.counterOverflow = true
  | .driven result => exhausted result = true
  | pc => pc.closing = true ∧ w.summary.countersComplete = false

variable {input : Input}

theorem Doomed.polling {left : ℕ} {token : Token} {entry : Entry} (hsteady : w.Steady)
    (hpc : w.pc = .polling left token) (hlive : w.engine.board.live[token]? = some entry)
    (hover : entry.connection.task.progress.counterOverflow = true)
    (hstep : w.work input = some w') : w'.Doomed := by
  rcases polling_step hsteady hpc hlive hstep with ⟨hphase, _⟩ | ⟨hplace, _⟩
  · have hwork : w' = w.stepPolling input left token := by
      simp only [work, hpc, Option.some.injEq] at hstep
      exact hstep.symm
    have hfail (ended : Bool) : w.afterPoll left token ended = w.fail .counterExhausted := by
      simp [afterPoll, hlive, hover]
    have hfailed : w' = w.fail .counterExhausted := by
      rw [hwork]
      unfold stepPolling
      cases hat : w.engine.board.phase with
      | idle => exact hfail false
      | ended u => exact hfail true
      | _ =>
          rw [hat] at hphase
          cases hphase
    rw [hfailed]
    rfl
  · have hplace' := (hsteady.step (a := .work input) hstep).place
    rw [hplace, hpc] at hplace'
    obtain ⟨after, hafter⟩ := Option.isSome_iff_exists.mp hplace'.2
    have hmove := move_of_step (a := .work input) hsteady hstep
    have hgrew := hmove.grew (Board.connection_of_live hafter)
    unfold Doomed
    rw [hplace, hpc]
    exact ⟨after, hafter, hgrew.counterOverflow hsteady.sound.coherent hlive hover⟩

theorem Doomed.not_loop (h : w.Doomed) : ¬ Loop w.pc := by
  intro hloop
  unfold Doomed at h
  cases hpc : w.pc <;> rw [hpc] at h hloop <;> first | exact hloop.elim | cases h.1

theorem Settles.incomplete_of {s next : RunSummary} {caller : Caller} {p : Progress}
    {result : Except ReceiverFailure Unit} (h : Settles s caller p next result)
    (hincomplete : s.countersComplete = false) : next.countersComplete = false := by
  cases h with
  | exact hover => exact hincomplete
  | incomplete next hcomplete hhanded hlive => exact hcomplete
  | exhausted hcaller => exact hincomplete

theorem Doomed.works (h : w.Doomed) (hpolling : ∀ left token, w.pc ≠ .polling left token)
    (hworks : w.Works w') : w'.Doomed := by
  have hloop := h.not_loop
  unfold Doomed at h
  cases hworks with
  | looped hpc hpc' haside hsummary => exact absurd hpc hloop
  | listed hpc haside => exact absurd hpc hloop
  | stopped hpc => exact absurd hpc hloop
  | failed hpc haside hnext => exact absurd hpc hloop
  | polled hpc hstep hpolled => exact absurd hpc (hpolling _ _)
  | parked hpc hphase => exact absurd hpc (hpolling _ _)
  | ended hpc hphase => exact absurd hpc (hpolling _ _)
  | overflowed hpc hphase hlive hoverflow => exact absurd hpc (hpolling _ _)
  | @retired caller token entry ready hpc hlive hstep =>
      rw [hpc] at h
      cases caller with
      | cleanup result failure => exact h
      | _ => cases h.1
  | @finished caller token progress hpc =>
      rw [hpc] at h
      cases caller with
      | cleanup result failure => exact h
      | _ => cases h.1
  | @published caller cell progress summary result hpc hsettles =>
      rw [hpc] at h
      cases caller with
      | cleanup drive failure =>
          have hincomplete := hsettles.incomplete_of h.2
          cases cell <;> cases result <;> exact ⟨rfl, hincomplete⟩
      | _ => cases h.1
  | drove hpc =>
      rw [hpc] at h
      refine ⟨rfl, ?_⟩
      simp only [stepDriven, goto]
      rw [h]
      simp
  | cleaning hpc hlive =>
      rw [hpc] at h
      exact h
  | cleaned hpc hempty =>
      rw [hpc] at h
      exact h
  | stoppedAll hpc =>
      rw [hpc] at h
      exact h
  | resolved hpc =>
      rw [hpc] at h
      exact h
  | resolvedAll hpc =>
      rw [hpc] at h
      exact h
  | returned hpc hstep =>
      rw [hpc] at h
      exact h
  | _ hpc =>
      rw [hpc] at h
      cases h.1

theorem Doomed.step {a : Step} (h : w.Doomed) (hsteady : w.Steady) (hstep : w.step a = some w') :
    w'.Doomed := by
  by_cases ha : ∃ input, a = .work input
  · obtain ⟨input, rfl⟩ := ha
    by_cases hpolling : ∃ left token, w.pc = .polling left token
    · obtain ⟨left, token, hpc⟩ := hpolling
      unfold Doomed at h
      rw [hpc] at h
      obtain ⟨entry, hlive, hover⟩ := h
      exact Doomed.polling hsteady hpc hlive hover hstep
    · exact h.works (fun left token hpc ↦ hpolling ⟨left, token, hpc⟩) (works_of_work hsteady hstep)
  · have hapart := apart_of_step (fun input heq ↦ ha ⟨input, heq⟩) hstep
    obtain ⟨⟨ready, hboard⟩, _⟩ := hapart.engine
    unfold Doomed at h ⊢
    rw [hapart.pc, hapart.summary, hboard]
    exact h

/-- Nothing saves a doomed run: it returns an error with incomplete counters. -/
theorem Doomed.returned {later : List Step} {v : World} {result : DriveResult} (h : w.Doomed)
    (hsteady : w.Steady) (hhonest : w.Honest) (hrun : Machine.run World.step w later = some v)
    (hv : v.pc = .returned result) :
    v.summary.countersComplete = false ∧ ∃ error, result = .error error := by
  have hreachable : Machine.Reachable World.step w v := ⟨later, hrun⟩
  obtain ⟨_, hhonest', hdoomed⟩ := hreachable.invariant
    (I := fun w ↦ w.Steady ∧ w.Honest ∧ w.Doomed) ⟨hsteady, hhonest, h⟩ (by
      rintro u a v ⟨hu, huhonest, hudoomed⟩ hstep
      exact ⟨hu.step hstep, huhonest.step hu hstep, hudoomed.step hu hstep⟩)
  unfold Doomed at hdoomed
  unfold Honest at hhonest'
  rw [hv] at hdoomed hhonest'
  exact ⟨hdoomed.2, hhonest'.1 hdoomed.2⟩

/-! ## Where a counter ends the run -/

theorem count_none {value : ℕ} {update : RunSummary → ℕ → RunSummary} {next : World → World}
    (h : checkedAdd value 1 = none) : w.count value update next = w.fail .counterExhausted := by
  simp [count, h]

theorem doomed_fail (w : World) : (w.fail .counterExhausted).Doomed := rfl

/-- The worker does not panic. -/
theorem not_panicked (hsteady : w.Steady) (hstep : w.work input = some w') :
    w'.pc ≠ .panicked := by
  intro hpanicked
  have hplace := (hsteady.step (a := .work input) hstep).place
  rw [hpanicked] at hplace
  exact hplace

theorem Exhausts.admitting {left : ℕ} {progressed : Bool} {peer : SocketAddr} (hsteady : w.Steady)
    (hpc : w.pc = .accepting (left + 1) progressed) (hcause : w.stopCause input.raced = none)
    (haccepted : input.accepted = .ok peer)
    (hroom : w.engine.board.live.size ≠ w.limits.maxConnections.val)
    (hnext : checkedAdd w.next 1 ≠ none) (hregistered : input.registered = .ok ())
    (hover : checkedAdd w.summary.accepted 1 = none) (hstep : w.work input = some w') :
    w'.Doomed := by
  have hpanic := not_panicked hsteady hstep
  obtain ⟨next, hnext⟩ := Option.ne_none_iff_exists'.mp hnext
  have hwork : w' = { w with next }.admitTask w.next peer (.accepting left true) := by
    simp only [work, hpc, stepAccepting, hcause, haccepted, onAccepted, if_neg hroom, admitPeer,
      hnext, hregistered, Option.some.injEq] at hstep
    exact hstep.symm
  rw [hwork] at hpanic ⊢
  unfold admitTask act at hpanic ⊢
  cases hinsert : ({ w with next } : World).engine.step (.insert w.next peer) with
  | none =>
      rw [hinsert] at hpanic
      exact absurd rfl hpanic
  | some engine =>
      rw [hinsert] at hpanic
      dsimp only at hpanic ⊢
      split_ifs at hpanic ⊢
      · exact absurd rfl hpanic
      · rw [count_none hover]
        exact doomed_fail _

theorem Exhausts.publishing {caller : Caller} {cell : Option ℕ} {p : Progress}
    (hsteady : w.Steady) (hpc : w.pc = .publish caller cell p)
    (h : caller.closeResult = .retiredByRequest ∧ checkedAdd w.summary.closedByRequest 1 = none ∨
      w.summary.Overflows p) : (w.stepPublish caller cell p).Doomed := by
  have hplace := hsteady.place
  rw [hpc] at hplace
  have hset : (w.setCell cell caller.closeResult).summary = w.summary := by
    cases cell <;> rfl
  have habsorb (v : World) (hv : v.summary.Overflows p)
      (hhanded : v.summary.rawBytesHandedOff ≤ v.summary.rawBytesRead) :
      (v.absorb caller p).Doomed := by
    obtain ⟨next, hnext, hcomplete⟩ := RunSummary.absorb_of_overflows hhanded hplace.2 hv
    unfold World.absorb
    rw [hnext]
    cases caller with
    | turn left => exact doomed_fail _
    | requested site tokens => exact doomed_fail _
    | cleanup drive failure => exact ⟨rfl, hcomplete⟩
  unfold stepPublish
  dsimp only
  rw [hset]
  split_ifs with hrequested
  · cases hclosed : checkedAdd w.summary.closedByRequest 1 with
    | none =>
        cases caller with
        | requested site tokens => exact doomed_fail _
        | _ => cases hrequested
    | some closed =>
        rcases h with ⟨_, hnone⟩ | hover
        · cases hclosed.symm.trans hnone
        · exact habsorb _ hover hsteady.handed
  · rcases h with ⟨hyes, _⟩ | hover
    · exact absurd hyes hrequested
    · exact habsorb _ (hset ▸ hover) (hset ▸ hsteady.handed)

/-- A counter that cannot represent its next value dooms the run. -/
theorem Exhausts.doomed (h : w.Exhausts input w') (hsteady : w.Steady)
    (hstep : w.work input = some w') : w'.Doomed := by
  unfold Exhausts at h
  cases hpc : w.pc with
  | accepting left progressed =>
      rw [hpc] at h
      cases left with
      | zero =>
          obtain ⟨hprogressed, hover⟩ := h
          have hwork : w' = w.stepAccepting input 0 progressed := by
            simp only [work, hpc, Option.some.injEq] at hstep
            exact hstep.symm
          rw [hwork, hprogressed]
          simp only [stepAccepting, count_none hover]
          exact doomed_fail w
      | succ left =>
          obtain ⟨hcause, h⟩ := h
          have hwork : w' = w.stepAccepting input (left + 1) progressed := by
            simp only [work, hpc, Option.some.injEq] at hstep
            exact hstep.symm
          cases haccepted : input.accepted with
          | ok peer =>
              rw [haccepted] at h
              dsimp only at h
              split_ifs at h with hfull
              · rw [hwork]
                simp only [stepAccepting, hcause, haccepted, onAccepted, if_pos hfull, count_none h]
                exact doomed_fail w
              · obtain ⟨hnext, hregistered, hover⟩ := h
                exact admitting hsteady hpc hcause haccepted hfull hnext hregistered hover hstep
          | error error =>
              rw [haccepted] at h
              rw [hwork]
              rcases h with ⟨hclass, hover⟩ | ⟨hclass, hover⟩
              · simp only [stepAccepting, hcause, haccepted, onAcceptError, hclass,
                  count_none hover]
                exact doomed_fail w
              · simp only [stepAccepting, hcause, haccepted, onAcceptError, hclass,
                  count_none hover]
                exact doomed_fail w
  | polling left token =>
      rw [hpc] at h
      obtain ⟨before, event, after, hlive, hafter, hanswer, hexceeds⟩ := h
      have hover := hexceeds.counterOverflow hanswer
      rcases polling_step hsteady hpc hlive hstep with ⟨_, hengine, _⟩ | ⟨hplace, _⟩
      · rw [hengine] at hafter
        exact Doomed.polling hsteady hpc hafter hover hstep
      · unfold Doomed
        rw [hplace, hpc]
        exact ⟨after, hafter, hover⟩
  | publish caller cell progress =>
      rw [hpc] at h
      have hwork : w' = w.stepPublish caller cell progress := by
        simp only [work, hpc, Option.some.injEq] at hstep
        exact hstep.symm
      rw [hwork]
      exact publishing hsteady hpc h
  | _ =>
      rw [hpc] at h
      exact h.elim

/-! ## The summary that is returned -/

/-- The account of a run that has returned. All tasks it admitted are destroyed. -/
structure Balanced (w : World) : Prop where
  settled : w.summary.accepted = w.summary.ended + w.summary.abandoned
  tasks : w.summary.accepted = w.engine.board.tasks.length
  ended : w.summary.ended = w.engine.accepted.countP (·.kind.isEnded)
  abandoned : w.summary.abandoned = w.summary.live + w.summary.closedByRequest +
    w.engine.board.tasks.countP (·.task.await.refused)
  read : w.summary.rawBytesRead =
    (w.engine.board.tasks.map fun c ↦ (c.reads.map (·.data.length)).sum).sum
  handedOff : w.summary.rawBytesHandedOff = (w.engine.accepted.map (·.kind.wireLength)).sum
  handedOff_le : w.summary.rawBytesHandedOff ≤ w.summary.rawBytesRead
  undelivered : w.summary.undeliveredRawBytes =
    w.summary.rawBytesRead - w.summary.rawBytesHandedOff
  records : w.summary.recordsHandedOff = w.engine.accepted.length
  pending : w.summary.undeliveredRecords = w.engine.board.tasks.countP (·.task.await.holding)
  pending_le : w.summary.undeliveredRecords ≤ w.summary.abandoned

theorem balanced_of_returned {result : DriveResult} (haudited : w.Audited) (hsteady : w.Steady)
    (hpc : w.pc = .returned result) (hcomplete : w.summary.countersComplete = true) :
    w.Balanced := by
  have hplace := hsteady.place
  rw [hpc] at hplace
  have hempty := hplace.2
  have hbooked := haudited.booked ⟨hcomplete, by rw [hpc]; rfl, by rw [hpc]; rintro p ⟨⟩⟩
  have hruns : ∀ c ∈ w.engine.board.tasks, ∃ token, Board.Runs w.engine.board.settings token c := by
    intro c hc
    obtain ⟨token, hat⟩ := Board.mem_tasks.mp hc
    exact ⟨token, hsteady.sound.coherent.departed token c hat⟩
  have hcounter (k : Counter) : w.summary.counter k =
      (w.engine.board.tasks.map (·.task.progress.counter k)).sum := by
    have hmerged := hbooked.merged k
    rw [hpc] at hmerged
    exact hmerged
  have hsent (f : Record → ℕ) : (w.engine.accepted.map f).sum =
      (w.engine.board.tasks.map fun c ↦ (c.sent.map f).sum).sum := by
    rw [hsteady.sound.handed.total f, Board.recordTotal, Board.sum_tasks,
      Std.TreeMap.total_eq_zero, Nat.zero_add]
    intro token entry hlive
    rw [hempty token] at hlive
    cases hlive
  have htasks (f g : Connection → ℕ) (h : ∀ token c, c ∈ w.engine.board.tasks →
      Board.Runs w.engine.board.settings token c → f c = g c) :
      (w.engine.board.tasks.map f).sum = (w.engine.board.tasks.map g).sum := by
    congr 1
    refine List.map_congr_left fun c hc ↦ ?_
    obtain ⟨token, hrun⟩ := hruns c hc
    exact h token c hc hrun
  have haccepted := hbooked.accepted
  rw [hempty.size_eq, Nat.add_zero] at haccepted
  constructor
  case settled =>
    have hone : ∀ c : Connection,
        c.task.progress.counter .ended + c.task.progress.counter .abandoned = 1 := by
      intro c
      simp only [Progress.counter]
      cases c.task.progress.terminalQueued <;> rfl
    have hsum := List.sum_map_add (l := w.engine.board.tasks)
      (f := (·.task.progress.counter .ended)) (g := (·.task.progress.counter .abandoned))
    simp only [hone, List.map_const', List.sum_replicate, smul_eq_mul, mul_one] at hsum
    rw [haccepted, hsum, ← hcounter, ← hcounter]
    rfl
  case tasks => exact haccepted
  case ended =>
    rw [List.countP_eq_sum, hsent]
    refine (hcounter .ended).trans (htasks _ _ fun token c hc hrun ↦ ?_)
    rw [← List.countP_eq_sum]
    exact hrun.terminal_eq.symm
  case abandoned =>
    have hclosing := hbooked.closing (by rw [hpc]; rfl)
    rw [hempty.size_eq, ← hcounter] at hclosing
    simp only [RunSummary.counter] at hclosing
    rw [List.countP_eq_sum]
    omega
  case read =>
    refine (hcounter .read).trans (htasks _ _ fun token c hc hrun ↦ ?_)
    exact hrun.settled.1.read (hbooked.flawless c hc)
  case handedOff =>
    rw [hsent]
    exact (hcounter .handedOff).trans (htasks _ _ fun token c hc hrun ↦ hrun.settled.1.wire)
  case handedOff_le => exact hsteady.handed
  case undelivered =>
    have hsum := hbooked.undelivered
    omega
  case records =>
    have hlength := hsent fun _ ↦ 1
    simp only [List.map_const', List.sum_replicate, smul_eq_mul, mul_one] at hlength
    rw [hlength]
    exact (hcounter .records).trans (htasks _ _ fun token c hc hrun ↦ hrun.settled.1.records)
  case pending =>
    rw [List.countP_eq_sum]
    refine (hcounter .undelivered).trans (htasks _ _ fun token c hc hrun ↦ ?_)
    simp only [Progress.counter]
    rw [hrun.settled.1.pending]
  case pending_le =>
    have hle : w.summary.counter .undelivered ≤ w.summary.counter .abandoned := by
      rw [hcounter, hcounter]
      refine List.sum_le_sum fun c hc ↦ ?_
      obtain ⟨token, hrun⟩ := hruns c hc
      exact hrun.holding_le
    exact hle

/-- A retirement folds in the whole progress of its task or nothing of it. -/
theorem stepPublish_whole (w : World) (caller : Caller) (cell : Option ℕ) (p : Progress) :
    ∃ closed complete,
      (w.stepPublish caller cell p).summary = { w.summary with
        closedByRequest := closed
        countersComplete := complete } ∨
      (w.stepPublish caller cell p).summary = { w.summary.plus p with
        closedByRequest := closed
        countersComplete := complete } := by
  have hset : (w.setCell cell caller.closeResult).summary = w.summary := by
    cases cell <;> rfl
  have habsorb (v : World) (closed : ℕ)
      (hv : v.summary = { w.summary with closedByRequest := closed }) :
      ∃ complete, (v.absorb caller p).summary = { w.summary with
          closedByRequest := closed
          countersComplete := complete } ∨
        (v.absorb caller p).summary = { w.summary.plus p with
          closedByRequest := closed
          countersComplete := complete } := by
    unfold World.absorb
    cases hnext : v.summary.absorb p with
    | none => exact ⟨w.summary.countersComplete, Or.inl hv⟩
    | some absorbed =>
        obtain ⟨next, result⟩ := absorbed
        obtain ⟨pc, hresume, _⟩ := resume_eq { v with summary := next } caller result
        obtain ⟨complete, hwhole⟩ := RunSummary.absorb_whole hnext
        rw [hv] at hwhole
        dsimp only
        rw [hresume]
        exact ⟨complete, hwhole⟩
  unfold stepPublish
  dsimp only
  rw [hset]
  split_ifs
  · cases hclosed : checkedAdd w.summary.closedByRequest 1 with
    | none =>
        obtain ⟨pc, hresume, _⟩ :=
          resume_eq (w.setCell cell caller.closeResult) caller (.error .counterExhausted)
        dsimp only
        rw [hresume]
        exact ⟨w.summary.closedByRequest, w.summary.countersComplete, Or.inl hset⟩
    | some closed => exact ⟨closed, habsorb _ closed rfl⟩
  · exact ⟨w.summary.closedByRequest, habsorb _ _ hset⟩

/-- Run accounting is exact. The summary of a run with complete counters accounts
for every task, every read byte and every record; a counter that cannot represent
its next value ends the run in an error with incomplete counters; and a
retirement is accounted for as a whole or not at all. -/
theorem run_accounting_exact (settings : Settings) (outside : List ℕ)
    (hfits : outside.sum ≤ settings.capacity.val) (w : World)
    (hreachable : Machine.Reachable World.step (new settings outside) w) :
    (∀ result, w.pc = .returned result → w.summary.countersComplete = true → w.Balanced) ∧
    (∀ input w', w.step (.work input) = some w' → w.Exhausts input w' →
      ∀ later v result, Machine.run World.step w' later = some v → v.pc = .returned result →
        v.summary.countersComplete = false ∧ ∃ error, result = .error error) ∧
    ∀ caller cell progress input w', w.pc = .publish caller cell progress →
      w.step (.work input) = some w' →
      ∃ closed complete,
        w'.summary = { w.summary with
          closedByRequest := closed
          countersComplete := complete } ∨
        w'.summary = { w.summary.plus progress with
          closedByRequest := closed
          countersComplete := complete } := by
  have hsteady := steady_of_reachable hfits hreachable
  have hhonest := honest_of_reachable hfits hreachable
  refine ⟨?_, ?_, ?_⟩
  · intro result hpc hcomplete
    exact balanced_of_returned (audited_of_reachable hfits hreachable) hsteady hpc hcomplete
  · intro input w' hstep hexhausts later v result hlater hv
    have hdoomed := hexhausts.doomed hsteady hstep
    exact hdoomed.returned (hsteady.step hstep) (hhonest.step hsteady hstep) hlater hv
  · intro caller cell progress input w' hpc hstep
    have hwork : w' = w.stepPublish caller cell progress := by
      simp only [step, work, hpc, Option.some.injEq] at hstep
      exact hstep.symm
    rw [hwork]
    exact w.stepPublish_whole caller cell progress

/-- Two callers. The consumer leaves when the first has ended, so the second loses
the bytes it has just read, and then the receiver is stopped. -/
def Step.consumerLeaves : List Step :=
  Step.works 13 .quiet ++ Step.works 2 .caller ++ Step.works 34 .hangup ++
    [.outside .disconnect] ++ Step.works 10 .quiet ++ [.outside .stop] ++ Step.works 7 .quiet

theorem run_accounting_exact_consumer_leaves :
    ∃ w, Machine.run World.step (new eightSlots []) Step.consumerLeaves = some w ∧
      w.pc = .returned (.ok .requested) ∧ w.Balanced ∧
      w.summary.accepted = 2 ∧ w.summary.ended = 1 ∧ w.summary.abandoned = 1 ∧
      w.engine.board.tasks.countP (·.task.await.refused) = 1 ∧
      w.summary.rawBytesRead = 6 ∧ w.summary.undeliveredRawBytes = 3 ∧
      w.summary.recordsHandedOff = 4 ∧ w.summary.undeliveredRecords = 1 := by
  obtain ⟨w, hw, hpc, hcomplete, hcounters⟩ :=
    Machine.exists_of_run World.step (new eightSlots []) Step.consumerLeaves
      (fun w ↦ w.pc = .returned (.ok .requested) ∧ w.summary.countersComplete = true ∧
        w.summary.accepted = 2 ∧ w.summary.ended = 1 ∧ w.summary.abandoned = 1 ∧
        w.engine.board.tasks.countP (·.task.await.refused) = 1 ∧
        w.summary.rawBytesRead = 6 ∧ w.summary.undeliveredRawBytes = 3 ∧
        w.summary.recordsHandedOff = 4 ∧ w.summary.undeliveredRecords = 1) (by decide +kernel)
  have hexact := run_accounting_exact eightSlots [] (by decide) w ⟨_, hw⟩
  exact ⟨w, hw, hpc, hexact.1 _ hpc hcomplete, hcounters⟩

end World

end Phonowire.Receiver
