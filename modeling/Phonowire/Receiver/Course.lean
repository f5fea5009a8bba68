import Phonowire.Receiver.Steady

/-!
# The worker never panics

In a steady world every action of the worker finds its assertion true. So each
step is one of those listed, and it leads to a steady world again: no run
reaches a panic, and the shared state stays sound along every run.
-/

namespace Phonowire.Receiver

namespace World

variable {w : World} {engine : Engine} {pc : Pc} {token : Token}

/-! ## Each step is one of these -/

theorem Firm.fresh (h : w.Firm) (htoken : w.next ≤ token) :
    w.engine.board.live[token]? = none ∧ w.engine.board.departed[token]? = none ∧
      w.entries[token]? = none := by
  refine ⟨?_, ?_, ?_⟩
  · cases hlive : w.engine.board.live[token]? with
    | none => rfl
    | some entry => exact absurd (h.below token (Or.inl (by simp [hlive]))) (Nat.not_lt.mpr htoken)
  · cases hdeparted : w.engine.board.departed[token]? with
    | none => rfl
    | some connection => exact absurd (h.below token (Or.inr (by simp [hdeparted]))) (Nat.not_lt.mpr htoken)
  · cases hentry : w.entries[token]? with
    | none => rfl
    | some entry => exact absurd (h.entries token (by simp [hentry])) (Nat.not_lt.mpr htoken)

theorem Steady.room (h : w.Steady)
    (hfull : w.engine.board.live.size ≠ w.limits.maxConnections.val) :
    w.engine.board.live.size < w.limits.maxConnections.val := by
  refine lt_of_le_of_ne ?_ hfull
  have hsize := h.sound.coherent.consistent.size
  rw [h.sound.coherent.size_eq, h.sound.coherent.capacity] at hsize
  exact hsize

/-- With room for it, a connection is inserted under a token that nobody knows. -/
theorem admitTask_eq {peer : SocketAddr} {left : ℕ} {progressed : Bool} (h : w.Steady)
    (hpc : w.pc = .accepting (left + 1) progressed)
    (hroom : w.engine.board.live.size < w.limits.maxConnections.val) :
    ∃ ready, w.engine.step (.insert w.next peer) = some (w.admission peer ready).engine ∧
      w.entries[w.next]? = none ∧
      admitTask { w with next := w.next + 1 } w.next peer (.accepting left true) =
        (w.admission peer ready).count w.summary.accepted ({ · with accepted := · })
          (·.goto (.accepting left true)) := by
  obtain ⟨hlive, hdeparted, hentry⟩ := h.fresh le_rfl
  have hsubscribed : w.engine.subscribed = true := h.subscribed (by rw [hpc]; trivial)
  obtain ⟨ready, hinsert, _, _⟩ :=
    Engine.insert_spec peer h.sound.coherent hlive hdeparted hsubscribed hroom
  have hstep : w.engine.step (.insert w.next peer) = some (w.admission peer ready).engine := by
    simp only [Engine.step, hdeparted, hsubscribed, and_self, if_true]
    exact hinsert
  refine ⟨ready, hstep, hentry, ?_⟩
  unfold admitTask act
  simp only [hstep, hentry]
  rfl

theorem works_admitTask {peer : SocketAddr} {left : ℕ} {progressed : Bool} (h : w.Steady)
    (hpc : w.pc = .accepting (left + 1) progressed)
    (hroom : w.engine.board.live.size < w.limits.maxConnections.val) :
    w.Works (admitTask { w with next := w.next + 1 } w.next peer (.accepting left true)) := by
  obtain ⟨ready, hstep, hentry, htask⟩ := admitTask_eq h hpc hroom
  rw [htask]
  unfold count
  cases hcount : checkedAdd w.summary.accepted 1 with
  | none => exact .uncounted hpc hstep hentry
  | some accepted =>
      obtain ⟨_, rfl⟩ := checkedAdd_eq_some_iff.mp hcount
      exact .admitted hpc hstep hentry

theorem works_count {value : ℕ} {update : RunSummary → ℕ → RunSummary}
    {next : World → World} (hpc : Loop w.pc)
    (hnext : ∀ value, w.Works (next { w with summary := update w.summary value })) :
    w.Works (w.count value update next) := by
  unfold count
  cases checkedAdd value 1 with
  | none => exact .failed hpc (Aside.refl _) le_rfl
  | some value => exact hnext value

theorem works_stepAccepting {left : ℕ} {progressed : Bool} (input : Input) (h : w.Steady)
    (hpc : w.pc = .accepting left progressed) :
    w.Works (w.stepAccepting input left progressed) := by
  have hloop : Loop w.pc := by rw [hpc]; trivial
  have hblock : w.Works (w.goto .block) := .looped hloop trivial (Aside.refl _) (SameAccount.refl _)
  unfold stepAccepting
  cases left with
  | zero =>
      dsimp only
      split_ifs
      · exact hblock
      · refine works_count hloop ?_
        exact fun _ ↦ .looped hloop trivial (Aside.refl _) ⟨_, _, _, _, rfl⟩
  | succ left =>
      dsimp only
      split_ifs
      · exact hblock
      · cases input.accepted with
        | ok peer =>
            dsimp only
            unfold onAccepted
            split_ifs with hfull
            · refine works_count hloop ?_
              exact fun _ ↦ .looped hloop trivial (Aside.refl _) ⟨_, _, _, _, rfl⟩
            · have hroom := h.room hfull
              unfold admitPeer
              dsimp only
              cases hnext : checkedAdd w.next 1 with
              | none => exact .failed hloop (Aside.refl _) le_rfl
              | some next =>
                  obtain ⟨_, rfl⟩ := checkedAdd_eq_some_iff.mp hnext
                  cases input.registered with
                  | error error => exact .failed hloop (Aside.refl _) (Nat.le_add_right _ _)
                  | ok _ => exact works_admitTask h hpc hroom
        | error error =>
            dsimp only
            unfold onAcceptError
            cases classifyAccept error with
            | drained => exact .looped hloop trivial (Aside.refl _) (SameAccount.refl _)
            | retry =>
                refine works_count hloop ?_
                exact fun _ ↦ .looped hloop trivial (Aside.refl _) ⟨_, _, _, _, rfl⟩
            | pause =>
                refine works_count hloop ?_
                exact fun _ ↦ .looped hloop trivial (Aside.refl _) ⟨_, _, _, _, rfl⟩
            | fatal => exact .failed hloop (Aside.refl _) le_rfl

theorem works_stepTurn {left : ℕ} (h : w.Steady) (hpc : w.pc = .turn (left + 1)) :
    w.Works (w.stepTurn left) := by
  have hloop : Loop w.pc := by rw [hpc]; trivial
  have hphase : w.engine.board.phase = .idle := (Loop.fits hloop).mp h.place
  have hrun : w.engine.step .take = w.engine.onBoard w.engine.board.take := if_pos hphase
  unfold stepTurn
  rcases h.sound.coherent.take_spec hphase with
    ⟨_, htake⟩ | ⟨token, entry, ready, _, hlive, htake, _, _, _⟩
  · have hstep : w.engine.step .take = some w.engine := by
      rw [hrun, htake]
      rfl
    rw [act_eq _ hstep]
    dsimp only
    rw [hphase]
    exact .listed hloop (Aside.refl _)
  · have hstep := hrun
    rw [htake] at hstep
    simp only [Engine.onBoard, Option.map_some] at hstep
    rw [act_eq _ hstep]
    refine .took hpc hstep ?_ rfl
    exact Engine.keeps_of_swapped (Board.swapped_insert rfl hlive rfl rfl) rfl

theorem works_afterPoll {left : ℕ} {ended : Bool} (h : w.Steady)
    (hpc : w.pc = .polling left token)
    (hphase : w.engine.board.phase = if ended then .ended token else .idle) :
    w.Works (w.afterPoll left token ended) := by
  have hplace := h.place
  rw [hpc] at hplace
  obtain ⟨entry, hlive⟩ := Option.isSome_iff_exists.mp hplace.2
  have hbetween : w.engine.board.phase.betweenPolls = true := by
    rw [hphase]
    cases ended <;> rfl
  unfold afterPoll
  simp only [hlive]
  split_ifs with hoverflow hended
  · exact .overflowed hpc hbetween hlive hoverflow
  · rw [if_pos hended] at hphase
    exact .ended hpc hphase
  · rw [if_neg hended] at hphase
    have hverify : w.engine.board.ready.verifyPending token = some () := by
      refine if_neg ?_
      intro hrunning
      have hturn := h.sound.coherent.running token hrunning
      rw [hphase] at hturn
      cases hturn
    rw [hverify]
    exact .parked hpc hphase

theorem works_stepPolling {left : ℕ} (input : Input) (h : w.Steady)
    (hpc : w.pc = .polling left token) : w.Works (w.stepPolling input left token) := by
  have hplace := h.place
  rw [hpc] at hplace
  have hcoherent := h.sound.coherent
  have hact {a : Engine.Action}
      (hspec : ∃ s, w.engine.step a = some s ∧ w.engine.Polled token s ∧ s.board.Coherent) :
      w.Works (w.act a id) := by
    obtain ⟨s, hstep, hpolled, _⟩ := hspec
    rw [act_eq _ hstep]
    exact .polled hpc ⟨a, hstep⟩ hpolled
  unfold stepPolling
  cases hphase : w.engine.board.phase with
  | idle => exact works_afterPoll h hpc hphase
  | polling u =>
      obtain rfl : u = token := by simpa [hphase, Phase.token] using hplace.1
      exact hact (Engine.poll_spec input.poll hcoherent h.sound.exact hphase)
  | attempting u k =>
      obtain rfl : u = token := by simpa [hphase, Phase.token] using hplace.1
      exact hact (Engine.attempt_spec input.now hcoherent h.sound.exact hphase)
  | full u k =>
      obtain rfl : u = token := by simpa [hphase, Phase.token] using hplace.1
      exact hact (Engine.parkFull_spec hcoherent hphase)
  | ended u =>
      obtain rfl : u = token := by simpa [hphase, Phase.token] using hplace.1
      exact works_afterPoll h hpc hphase

theorem works_stepRetire {caller : Caller} (h : w.Steady) (hpc : w.pc = .retire caller token) :
    w.Works (w.stepRetire caller token) := by
  have hplace := h.place
  rw [hpc] at hplace
  have hboth : w.engine.board.phase.betweenPolls = true ∧
      w.engine.board.live[token]?.isSome = true := by
    cases caller with
    | turn left => exact ⟨by rw [hplace.1]; rfl, hplace.2⟩
    | requested site tokens => exact ⟨by rw [hplace.1]; rfl, hplace.2.2 token List.mem_cons_self⟩
    | cleanup result failure => exact hplace
  obtain ⟨entry, hlive⟩ := Option.isSome_iff_exists.mp hboth.2
  obtain ⟨ready, hretire, _, _⟩ :=
    Engine.retire_spec h.sound.coherent h.sound.exact hboth.1 hlive
  have hstep : w.engine.step (.retire token) = some
      { w.engine.released entry.await.charge with
        board := w.engine.board.without token entry ready } := (if_pos hboth.1).trans hretire
  unfold stepRetire
  simp only [hlive]
  rw [act_eq _ hstep]
  exact .retired hpc hlive hstep

theorem works_stepPublish {caller : Caller} {cell : Option ℕ} {progress : Progress}
    (h : w.Steady) (hpc : w.pc = .publish caller cell progress) :
    w.Works (w.stepPublish caller cell progress) := by
  have hplace := h.place
  rw [hpc] at hplace
  have hsummary : (w.setCell cell caller.closeResult).summary = w.summary := by
    cases cell <;> rfl
  have habsorb {s : RunSummary} (hhanded : s.rawBytesHandedOff ≤ s.rawBytesRead)
      (hlive : s.live = w.summary.live)
      (hexact : progress.counterOverflow = false →
        Settles w.summary caller progress (s.plus progress) (.ok ())) :
      w.Works (absorb { w.setCell cell caller.closeResult with summary := s } caller progress) := by
    unfold absorb
    rcases RunSummary.absorb_spec hhanded hplace.2 with
      ⟨hover, heq⟩ | ⟨next, heq, hcomplete, hle, hnext⟩
    · simp only [heq]
      exact .published hpc (hexact hover)
    · simp only [heq]
      exact .published hpc (.incomplete next hcomplete hle (hnext.trans hlive))
  unfold stepPublish
  dsimp only
  rw [hsummary]
  split_ifs with hrequested
  · cases hcount : checkedAdd w.summary.closedByRequest 1 with
    | none =>
        have hcaller : ∃ site tokens, caller = .requested site tokens := by
          cases caller with
          | requested site tokens => exact ⟨site, tokens, rfl⟩
          | turn left => cases hrequested
          | cleanup result failure => cases hrequested
        have hworks := Works.published hpc (.exhausted hcaller)
        rw [← hsummary] at hworks
        exact hworks
    | some closedByRequest =>
        obtain ⟨_, rfl⟩ := checkedAdd_eq_some_iff.mp hcount
        refine habsorb h.handed rfl ?_
        intro hover
        have hsettles := @Settles.exact w.summary caller progress hover
        rw [if_pos hrequested] at hsettles
        exact hsettles
  · have hsame : w.setCell cell caller.closeResult =
        { w.setCell cell caller.closeResult with summary := w.summary } := by rw [← hsummary]
    rw [hsame]
    refine habsorb h.handed rfl ?_
    intro hover
    have hsettles := @Settles.exact w.summary caller progress hover
    rw [if_neg hrequested] at hsettles
    exact hsettles

theorem works_stepEvent {rest : List Token} (h : w.Steady)
    (hpc : w.pc = .events (token :: rest)) : w.Works (w.stepEvent token rest) := by
  have hloop : Loop w.pc := by rw [hpc]; trivial
  unfold stepEvent
  split_ifs
  · exact .looped hloop trivial (Aside.refl _) (SameAccount.refl _)
  · exact .looped hloop trivial (Aside.refl _) (SameAccount.refl _)
  · obtain ⟨ready, hready, _, _⟩ := h.sound.coherent.consistent.ioReady_spec token
    have hstep : w.engine.step (.ioReady token) =
        some { w.engine with board := { w.engine.board with ready } } := by
      simp [Engine.step, Engine.onBoard, Board.ioReady, hready]
    rw [act_eq _ hstep]
    exact .looped hloop trivial ⟨⟨⟨ready, rfl⟩, rfl, rfl⟩, Or.inr ⟨_, hstep⟩⟩ (SameAccount.refl _)

theorem takeCredit_aside (k : Resource) (h : w.Steady) :
    ∃ engine, w.engine.step (.takeCredit k) = some engine ∧ Aside w.engine engine := by
  have hstep : w.engine.step (.takeCredit k) = w.engine.takeCredit k := rfl
  unfold Engine.takeCredit at hstep
  split_ifs at hstep
  · obtain ⟨ready, inserted, hresume, _, _⟩ := h.sound.coherent.consistent.resumeCredit_spec k
    have hrun : w.engine.step (.takeCredit k) = some { w.engine with
        board := { w.engine.board with ready }
        signals := w.engine.signals.clear k.signal } := by
      rw [hstep]
      simp [Engine.onBoard, Board.resumeCredit, hresume]
    exact ⟨_, hrun, ⟨⟨ready, rfl⟩, rfl, rfl⟩, Or.inr ⟨_, hrun⟩⟩
  · exact ⟨w.engine, hstep, Aside.refl _⟩

/-- From a steady world every step of the worker is one of those listed. -/
theorem works_of_work {input : Input} {w' : World} (h : w.Steady)
    (hwork : w.work input = some w') : w.Works w' := by
  have hlooped {pc : Pc} (hloop : Loop w.pc) (hpc : Loop pc) : w.Works (w.goto pc) :=
    .looped hloop hpc (Aside.refl _) (SameAccount.refl _)
  have hcredit {pc : Pc} (k : Resource) (hloop : Loop w.pc) (hpc : Loop pc) :
      w.Works (w.act (.takeCredit k) (·.goto pc)) := by
    obtain ⟨engine, hstep, haside⟩ := takeCredit_aside k h
    rw [act_eq _ hstep]
    exact .looped hloop hpc haside (SameAccount.refl _)
  unfold work at hwork
  cases hpc : w.pc with
  | setup =>
      simp only [hpc, Option.some.injEq] at hwork
      subst hwork
      unfold stepSetup
      cases input.setup with
      | some failure => exact .refused hpc
      | none => exact .started hpc
  | failure =>
      have hloop : Loop w.pc := by rw [hpc]; trivial
      simp only [hpc, Option.some.injEq] at hwork
      subst hwork
      unfold stepFailure
      cases w.engine.signals.failure with
      | none => exact hlooped hloop trivial
      | some error =>
          refine .failed hloop ⟨?_, Or.inr ⟨.takeFailure, rfl⟩⟩ le_rfl
          exact Engine.undisturbed_of_board rfl rfl rfl
  | cause =>
      have hloop : Loop w.pc := by rw [hpc]; trivial
      simp only [hpc] at hwork
      cases hcause : w.stopCause input.raced with
      | some cause =>
          simp only [hcause, Option.some.injEq] at hwork
          exact hwork ▸ .stopped hloop
      | none =>
          simp only [hcause, Option.some.injEq] at hwork
          exact hwork ▸ .listed hloop (Aside.refl _)
  | scan site rest found =>
      cases rest with
      | nil =>
          simp only [hpc, Option.some.injEq] at hwork
          exact hwork ▸ .found hpc
      | cons token rest =>
          simp only [hpc, Option.some.injEq] at hwork
          exact hwork ▸ .scanned hpc
  | retiring site tokens =>
      cases tokens with
      | nil =>
          simp only [hpc, Option.some.injEq] at hwork
          exact hwork ▸ .cleared hpc (by cases site <;> trivial)
      | cons token rest =>
          simp only [hpc, Option.some.injEq] at hwork
          exact hwork ▸ .chosen hpc
  | control =>
      have hloop : Loop w.pc := by rw [hpc]; trivial
      simp only [hpc] at hwork
      split_ifs at hwork
      · simp only [Option.some.injEq] at hwork
        subst hwork
        refine .listed hloop ⟨?_, Or.inr ⟨.takeControl, rfl⟩⟩
        exact Engine.undisturbed_of_board rfl rfl rfl
      · simp only [Option.some.injEq] at hwork
        exact hwork ▸ hlooped hloop trivial
  | credit k =>
      have hloop : Loop w.pc := by rw [hpc]; trivial
      cases k with
      | queue =>
          simp only [hpc, Option.some.injEq] at hwork
          exact hwork ▸ hcredit .queue hloop trivial
      | bytes =>
          simp only [hpc, Option.some.injEq] at hwork
          exact hwork ▸ hcredit .bytes hloop trivial
  | turn left =>
      have hloop : Loop w.pc := by rw [hpc]; trivial
      cases left with
      | zero =>
          simp only [hpc, Option.some.injEq] at hwork
          exact hwork ▸ .listed hloop (Aside.refl _)
      | succ left =>
          simp only [hpc] at hwork
          split_ifs at hwork
          · simp only [Option.some.injEq] at hwork
            exact hwork ▸ .listed hloop (Aside.refl _)
          · simp only [Option.some.injEq] at hwork
            exact hwork ▸ works_stepTurn h hpc
  | polling left token =>
      simp only [hpc, Option.some.injEq] at hwork
      exact hwork ▸ works_stepPolling input h hpc
  | causeAgain =>
      have hloop : Loop w.pc := by rw [hpc]; trivial
      simp only [hpc] at hwork
      cases hcause : w.stopCause input.raced with
      | some cause =>
          simp only [hcause, Option.some.injEq] at hwork
          exact hwork ▸ .stopped hloop
      | none =>
          simp only [hcause, Option.some.injEq] at hwork
          exact hwork ▸ hlooped hloop trivial
  | accept =>
      have hloop : Loop w.pc := by rw [hpc]; trivial
      simp only [hpc, Option.some.injEq] at hwork
      subst hwork
      unfold startAccept
      split_ifs
      · exact hlooped hloop trivial
      · exact .looped hloop trivial (Aside.refl _) (SameAccount.refl _)
  | accepting left progressed =>
      simp only [hpc, Option.some.injEq] at hwork
      exact hwork ▸ works_stepAccepting input h hpc
  | block =>
      have hloop : Loop w.pc := by rw [hpc]; trivial
      simp only [hpc, Option.some.injEq] at hwork
      subst hwork
      unfold stepBlock
      cases input.polled with
      | ok tokens => exact hlooped hloop trivial
      | error error =>
          dsimp only
          split_ifs
          · exact hlooped hloop trivial
          · exact .failed hloop (Aside.refl _) le_rfl
  | events tokens =>
      have hloop : Loop w.pc := by rw [hpc]; trivial
      cases tokens with
      | nil =>
          simp only [hpc, Option.some.injEq] at hwork
          exact hwork ▸ hlooped hloop trivial
      | cons token rest =>
          simp only [hpc, Option.some.injEq] at hwork
          exact hwork ▸ works_stepEvent h hpc
  | retire caller token =>
      simp only [hpc, Option.some.injEq] at hwork
      exact hwork ▸ works_stepRetire h hpc
  | finish caller token progress =>
      simp only [hpc, Option.some.injEq] at hwork
      exact hwork ▸ .finished hpc
  | publish caller cell progress =>
      simp only [hpc, Option.some.injEq] at hwork
      exact hwork ▸ works_stepPublish h hpc
  | driven result =>
      simp only [hpc, Option.some.injEq] at hwork
      exact hwork ▸ .drove hpc
  | cleanup result failure =>
      simp only [hpc, Option.some.injEq] at hwork
      subst hwork
      unfold stepCleanup
      cases hhead : w.engine.board.live.keys.head? with
      | none =>
          refine .cleaned hpc ?_
          intro token
          rw [List.head?_eq_none_iff] at hhead
          refine Std.TreeMap.getElem?_eq_none ?_
          rw [← Std.TreeMap.mem_keys, hhead]
          exact List.not_mem_nil
      | some token =>
          refine .cleaning hpc ?_
          rw [Std.TreeMap.isSome_getElem?_iff_mem, ← Std.TreeMap.mem_keys]
          exact List.mem_of_head? hhead
  | stopAll result failure =>
      simp only [hpc, Option.some.injEq] at hwork
      exact hwork ▸ .stoppedAll hpc
  | publishAll result failure cells =>
      simp only [hpc, Option.some.injEq] at hwork
      subst hwork
      cases cells with
      | nil => exact .resolvedAll hpc
      | cons cell cells => exact .resolved hpc
  | outcome result failure =>
      simp only [hpc, Option.some.injEq] at hwork
      subst hwork
      have hplace := h.place
      rw [hpc] at hplace
      have hsize : w.engine.board.live.size = 0 := hplace.2.size_eq
      have hstep : w.engine.step (.subscribe false) =
          some { w.engine with subscribed := false } := by
        simp [Engine.step, hsize]
      unfold stepOutcome
      dsimp only
      rw [act_eq _ (by exact hstep)]
      exact .returned hpc hstep
  | returned result => simp [hpc] at hwork
  | panicked => simp [hpc] at hwork

/-! ## Steadiness is kept -/

theorem Aside.sound {s s' : Engine} (h : Aside s s') (hs : s.Sound) : s'.Sound := by
  rcases h.2 with rfl | ⟨a, hstep⟩
  · exact hs
  · exact hs.step hstep

theorem SameAccount.handed_le {s s' : RunSummary} (h : SameAccount s s')
    (hs : s.rawBytesHandedOff ≤ s.rawBytesRead) : s'.rawBytesHandedOff ≤ s'.rawBytesRead := by
  obtain ⟨_, _, _, _, rfl⟩ := h
  exact hs

theorem Settles.handed_le {s s' : RunSummary} {caller : Caller} {p : Progress}
    {result : Except ReceiverFailure Unit} (h : Settles s caller p s' result)
    (hs : s.rawBytesHandedOff ≤ s.rawBytesRead) (hp : p.wireQueued ≤ p.read) :
    s'.rawBytesHandedOff ≤ s'.rawBytesRead := by
  cases h with
  | exact hover => exact Nat.add_le_add hs hp
  | incomplete next hcomplete hhanded hlive => exact hhanded
  | exhausted hcaller => exact hs

theorem Firm.admission {peer : SocketAddr} {ready : Ready} (h : w.Firm)
    (hstep : w.engine.step (.insert w.next peer) = some (w.admission peer ready).engine) :
    (w.admission peer ready).Firm := by
  refine ⟨h.sound.step hstep, ?_, ?_, h.handed⟩
  · intro token htoken
    dsimp only [World.admission, register] at htoken ⊢
    rw [Std.TreeMap.getElem?_insert_ite] at htoken
    split_ifs at htoken with hsame
    · exact hsame ▸ Nat.lt_succ_self w.next
    · exact Nat.lt_succ_of_lt (h.below token htoken)
  · intro token htoken
    dsimp only [World.admission, register] at htoken ⊢
    rw [Std.TreeMap.getElem?_insert_ite] at htoken
    split_ifs at htoken with hsame
    · exact hsame ▸ Nat.lt_succ_self w.next
    · exact Nat.lt_succ_of_lt (h.entries token htoken)

theorem Firm.retired {entry : Entry} {ready : Ready} (h : w.Firm)
    (hlive : w.engine.board.live[token]? = some entry)
    (hstep : w.engine.step (.retire token) = some
      { w.engine.released entry.await.charge with
        board := w.engine.board.without token entry ready }) :
    Firm { w with engine := { w.engine.released entry.await.charge with
      board := w.engine.board.without token entry ready } } := by
  refine ⟨h.sound.step hstep, ?_, h.entries, h.handed⟩
  intro u hu
  dsimp only [Board.without] at hu
  rw [Std.TreeMap.getElem?_erase_ite, Std.TreeMap.getElem?_insert_ite] at hu
  by_cases hsame : token = u
  · exact h.below u (Or.inl (by simp [← hsame, hlive]))
  · rw [if_neg hsame, if_neg hsame] at hu
    exact h.below u hu

theorem Firm.setCell (h : w.Firm) (cell : Option ℕ) (result : ConnectionCloseResult) :
    (w.setCell cell result).Firm := by
  cases cell <;> exact ⟨h.sound, h.below, h.entries, h.handed⟩

/-- What the caller expects once its connection is gone. -/
theorem fits_without {caller : Caller} {entry : Entry} {ready : Ready} {b : Board}
    (hplace : (Pc.retire caller token).Fits b) :
    caller.Fits (b.without token entry ready) := by
  cases caller with
  | turn left =>
      dsimp only [Caller.Fits, Board.without]
      rw [if_pos hplace.1]
  | requested site tokens =>
      obtain ⟨hphase, hnodup, hlive⟩ := hplace
      rw [List.nodup_cons] at hnodup
      refine ⟨?_, hnodup.2, ?_⟩
      · dsimp only [Board.without]
        split_ifs
        · rfl
        · exact hphase
      · intro u hu
        dsimp only [Board.without]
        rw [Std.TreeMap.getElem?_erase_ite, if_neg]
        · exact hlive u (List.mem_cons_of_mem _ hu)
        · rintro rfl
          exact hnodup.1 hu
  | cleanup result failure =>
      dsimp only [Caller.Fits, Board.without]
      split_ifs
      · rfl
      · exact hplace.1

theorem Steady.resume {caller : Caller} (h : w.Firm) (hfits : caller.Fits w.engine.board)
    (hsubscribed : w.engine.subscribed = true) (result : Except ReceiverFailure Unit) :
    (w.resume caller result).Steady := by
  have hidle {p : Phase} (hphase : p = .idle) : p.betweenPolls = true := by rw [hphase]; rfl
  cases caller with
  | turn left =>
      cases result with
      | ok _ => exact h.at hfits fun _ ↦ hsubscribed
      | error failure => exact h.at (hidle hfits) fun _ ↦ hsubscribed
  | requested site tokens =>
      cases result with
      | ok _ => exact h.at hfits fun _ ↦ hsubscribed
      | error failure => exact h.at (hidle hfits.1) fun _ ↦ hsubscribed
  | cleanup drive failure =>
      cases result with
      | ok _ => exact h.at hfits fun _ ↦ hsubscribed
      | error error => exact h.at hfits fun _ ↦ hsubscribed

theorem Steady.works {w' : World} (h : w.Steady) (hworks : w.Works w') : w'.Steady := by
  have hplace := h.place
  have hsubscribed := h.subscribed
  have hbetween {p : Phase} (hphase : p = .idle) : p.betweenPolls = true := by rw [hphase]; rfl
  cases hworks with
  | refused hpc =>
      rw [hpc] at hplace
      exact h.at hplace fun hrunning ↦ hrunning.elim
  | started hpc =>
      rw [hpc] at hplace
      have hstep : w.engine.step (.subscribe true) = some { w.engine with subscribed := true } := by
        simp [Engine.step]
      exact ⟨⟨h.sound.step hstep, h.below, h.entries, le_rfl⟩, hplace.1, fun _ ↦ rfl⟩
  | @looped pc engine summary listenerReady acceptPausedAt hpc hpc' haside hsummary =>
      refine ⟨⟨haside.sound h.sound, ?_, h.entries, hsummary.handed_le h.handed⟩, ?_, ?_⟩
      · exact (h.keeps (haside.sound h.sound) haside.1.keeps).below
      · rw [Loop.fits hpc']
        exact haside.1.phase_eq.trans ((Loop.fits hpc).mp hplace)
      · exact fun _ ↦ haside.1.subscribed.trans (hsubscribed hpc.running)
  | listed hpc haside =>
      have hfirm := h.keeps (haside.sound h.sound) haside.1.keeps
      refine hfirm.at ⟨haside.1.phase_eq.trans ((Loop.fits hpc).mp hplace), ?_⟩ ?_
      · exact Board.listed_keys _
      · exact fun _ ↦ haside.1.subscribed.trans (hsubscribed hpc.running)
  | @scanned site token rest found hpc =>
      rw [hpc] at hplace hsubscribed
      refine h.at ⟨hplace.1, hplace.2.sublist ?_⟩ fun _ ↦ hsubscribed trivial
      split_ifs
      · simp
      · exact List.Sublist.append_left (List.sublist_cons_self token rest) found
  | found hpc =>
      rw [hpc] at hplace hsubscribed
      refine h.at ⟨hplace.1, ?_⟩ fun _ ↦ hsubscribed trivial
      simpa using hplace.2
  | chosen hpc =>
      rw [hpc] at hplace hsubscribed
      exact h.at hplace fun _ ↦ hsubscribed trivial
  | cleared hpc hpc' =>
      rw [hpc] at hplace hsubscribed
      exact h.at ((Loop.fits hpc').mpr hplace.1) fun _ ↦ hsubscribed trivial
  | @took engine left token hpc hstep hkeeps hphase =>
      rw [hpc] at hsubscribed
      have hsound := h.sound.step hstep
      obtain ⟨entry, hlive⟩ := hsound.coherent.entry_of_turn
        (by rw [hphase]; rfl : engine.board.phase.token = some token)
      refine ⟨⟨hsound, (h.keeps hsound hkeeps).below, h.entries, h.handed⟩, ?_, ?_⟩
      · exact ⟨Or.inr (by rw [hphase]; rfl), by simp [hlive]⟩
      · exact fun _ ↦ hkeeps.subscribed.trans (hsubscribed trivial)
  | @polled engine left token hpc hstep hpolled =>
      obtain ⟨a, hstep⟩ := hstep
      obtain ⟨hkeeps, hphase⟩ := hpolled.keeps
      have hsound := h.sound.step hstep
      refine ⟨⟨hsound, (h.keeps hsound hkeeps).below, h.entries, h.handed⟩, ?_, ?_⟩
      · rw [hpc] at hplace ⊢
        exact ⟨hphase, (hkeeps.live token).trans hplace.2⟩
      · exact fun hrunning ↦ hkeeps.subscribed.trans (hsubscribed hrunning)
  | parked hpc hphase =>
      rw [hpc] at hsubscribed
      exact h.at hphase fun _ ↦ hsubscribed trivial
  | ended hpc hphase =>
      rw [hpc] at hplace hsubscribed
      exact h.at ⟨hphase, hplace.2⟩ fun _ ↦ hsubscribed trivial
  | overflowed hpc hphase hlive hoverflow =>
      rw [hpc] at hsubscribed
      exact h.at hphase fun _ ↦ hsubscribed trivial
  | stopped hpc =>
      exact h.at (hbetween ((Loop.fits hpc).mp hplace)) fun _ ↦ hsubscribed hpc.running
  | @failed engine next failure hpc haside hnext =>
      have hfirm := h.keeps (haside.sound h.sound) haside.1.keeps
      have hphase := haside.1.phase_eq.trans ((Loop.fits hpc).mp hplace)
      refine ⟨⟨hfirm.sound, ?_, ?_, hfirm.handed⟩, hbetween hphase, ?_⟩
      · exact fun token htoken ↦ (hfirm.below token htoken).trans_le hnext
      · exact fun token htoken ↦ (hfirm.entries token htoken).trans_le hnext
      · exact fun _ ↦ haside.1.subscribed.trans (hsubscribed hpc.running)
  | admitted hpc hstep hentry =>
      rw [hpc] at hplace hsubscribed
      have hfirm := h.admission hstep
      exact ⟨⟨hfirm.sound, hfirm.below, hfirm.entries, hfirm.handed⟩, hplace,
        fun _ ↦ hsubscribed trivial⟩
  | uncounted hpc hstep hentry =>
      rw [hpc] at hplace hsubscribed
      exact (h.admission hstep).at (hbetween hplace) fun _ ↦ hsubscribed trivial
  | @retired caller token entry ready hpc hlive hstep =>
      rw [hpc] at hplace hsubscribed
      have hfirm := h.retired hlive hstep
      have hruns := (h.sound.coherent.holds token entry hlive).runs
      refine ⟨⟨hfirm.sound, hfirm.below, hfirm.entries, hfirm.handed⟩,
        ⟨fits_without hplace, hruns.placed.wireQueued_le⟩, fun _ ↦ hsubscribed trivial⟩
  | @finished caller token progress hpc =>
      rw [hpc] at hplace hsubscribed
      refine ⟨⟨h.sound, h.below, ?_, h.handed⟩, hplace, fun _ ↦ hsubscribed trivial⟩
      intro u hu
      dsimp only [stepFinish, goto] at hu ⊢
      rw [Std.TreeMap.getElem?_erase_ite] at hu
      split_ifs at hu
      · cases hu
      · exact h.entries u hu
  | @published caller cell progress summary result hpc hsettles =>
      rw [hpc] at hplace hsubscribed
      have hset := h.setCell cell caller.closeResult
      have hengine : (w.setCell cell caller.closeResult).engine = w.engine := by
        cases cell <;> rfl
      have hfirm : Firm { w.setCell cell caller.closeResult with summary } :=
        ⟨hset.sound, hset.below, hset.entries, hsettles.handed_le h.handed hplace.2⟩
      refine Steady.resume hfirm ?_ ?_ result
      · dsimp only
        rw [hengine]
        exact hplace.1
      · dsimp only
        rw [hengine]
        exact hsubscribed trivial
  | drove hpc =>
      rw [hpc] at hplace hsubscribed
      exact ⟨⟨h.sound, h.below, h.entries, h.handed⟩, hplace, fun _ ↦ hsubscribed trivial⟩
  | cleaning hpc hlive =>
      rw [hpc] at hplace hsubscribed
      exact h.at ⟨hplace, hlive⟩ fun _ ↦ hsubscribed trivial
  | cleaned hpc hempty =>
      rw [hpc] at hplace hsubscribed
      refine h.at ⟨?_, hempty⟩ fun _ ↦ hsubscribed trivial
      cases hphase : w.engine.board.phase with
      | idle => rfl
      | ended token =>
          obtain ⟨entry, hlive⟩ := h.sound.coherent.entry_of_turn
            (by rw [hphase]; rfl : w.engine.board.phase.token = some token)
          rw [hempty token] at hlive
          cases hlive
      | polling token => simp [Pc.Fits, hphase, Phase.betweenPolls] at hplace
      | attempting token k => simp [Pc.Fits, hphase, Phase.betweenPolls] at hplace
      | full token k => simp [Pc.Fits, hphase, Phase.betweenPolls] at hplace
  | stoppedAll hpc =>
      rw [hpc] at hplace hsubscribed
      exact ⟨⟨h.sound, h.below, by simp [stepStopAll, goto], h.handed⟩, hplace,
        fun _ ↦ hsubscribed trivial⟩
  | resolved hpc =>
      rw [hpc] at hplace hsubscribed
      exact (h.setCell _ _).at hplace fun _ ↦ hsubscribed trivial
  | resolvedAll hpc =>
      rw [hpc] at hplace hsubscribed
      exact h.at hplace fun _ ↦ hsubscribed trivial
  | returned hpc hstep =>
      rw [hpc] at hplace
      exact ⟨⟨h.sound.step hstep, h.below, h.entries, h.handed⟩, hplace, fun hrunning ↦ hrunning.elim⟩

theorem Steady.step {a : Step} {w' : World} (h : w.Steady) (hstep : w.step a = some w') :
    w'.Steady := by
  cases a with
  | work input => exact h.works (works_of_work h hstep)
  | close id =>
      cases hstep
      exact h.close id
  | outside o =>
      simp only [World.step, Option.map_eq_some_iff] at hstep
      obtain ⟨engine, hengine, rfl⟩ := hstep
      exact h.outside hengine

/-- A step acts on the shared state at most once. -/
theorem engine_of_works {w' : World} (hworks : w.Works w') :
    w'.engine = w.engine ∨ ∃ a, w.engine.step a = some w'.engine := by
  have hset (cell : Option ℕ) (result : ConnectionCloseResult) :
      (w.setCell cell result).engine = w.engine := by cases cell <;> rfl
  cases hworks with
  | started hpc => exact Or.inr ⟨.subscribe true, by simp [Engine.step]⟩
  | looped hpc hpc' haside hsummary => exact haside.2
  | listed hpc haside => exact haside.2
  | took hpc hstep hkeeps hphase => exact Or.inr ⟨_, hstep⟩
  | polled hpc hstep hpolled => exact Or.inr hstep
  | failed hpc haside hnext => exact haside.2
  | admitted hpc hstep hentry => exact Or.inr ⟨_, hstep⟩
  | uncounted hpc hstep hentry => exact Or.inr ⟨_, hstep⟩
  | retired hpc hlive hstep => exact Or.inr ⟨_, hstep⟩
  | @published caller cell progress summary result hpc hsettles =>
      left
      cases caller <;> cases result <;> exact hset _ _
  | resolved hpc => exact Or.inl (hset _ _)
  | returned hpc hstep => exact Or.inr ⟨_, hstep⟩
  | _ => exact Or.inl rfl

theorem engine_of_step {a : Step} {w' : World} (h : w.Steady) (hstep : w.step a = some w') :
    w'.engine = w.engine ∨ ∃ action, w.engine.step action = some w'.engine := by
  cases a with
  | work input => exact engine_of_works (works_of_work h hstep)
  | close id =>
      cases hstep
      unfold World.close
      split_ifs
      · exact Or.inl rfl
      · exact Or.inl rfl
      · split
        · exact Or.inl rfl
        · exact Or.inr ⟨.owe, rfl⟩
  | outside o =>
      simp only [World.step, Option.map_eq_some_iff] at hstep
      obtain ⟨engine, hengine, rfl⟩ := hstep
      exact Or.inr ⟨_, hengine⟩

/-- Every step is a move of the shared state, or leaves it alone. -/
theorem move_of_step {a : Step} {w' : World} (h : w.Steady) (hstep : w.step a = some w') :
    w.engine.Move w'.engine := by
  rcases engine_of_step h hstep with heq | ⟨action, haction⟩
  · rw [heq]
    exact .shared .unchanged
  · exact (Engine.move_of_step h.sound.coherent h.sound.exact haction).1

/-- No run of a receiver panics, and its shared state stays sound. -/
theorem steady_of_reachable {settings : Settings} {outside : List ℕ}
    (hfits : outside.sum ≤ settings.capacity.val)
    (h : Machine.Reachable World.step (new settings outside) w) : w.Steady :=
  h.invariant (steady_new settings hfits) fun _ _ _ hw hstep ↦ hw.step hstep

end World

/-! ## One call -/

def oneSlot : Settings where
  instanceId := 1
  limits := ⟨⟨2, by decide, by decide⟩, ⟨1, by decide, by decide⟩, 16, ⟨8, by decide, by decide⟩,
    by decide, by decide⟩
  profile := .allKnownRates
  capacity := ⟨4096, by decide, by decide⟩
  fits := by decide

def eightSlots : Settings :=
  { oneSlot with limits := { oneSlot.limits with queueSlots := ⟨8, by decide, by decide⟩ } }

/-- Nothing to read, nothing to accept and no events. -/
def Input.quiet : Input where
  poll := ⟨⟨0, 0⟩, .error ⟨.wouldBlock, some 11, ""⟩, by decide⟩
  raced := false
  accepted := .error ⟨.wouldBlock, some 11, ""⟩
  registered := .ok ()
  polled := .ok []
  setup := none

/-- A read of one whole termination frame. -/
def Input.hangup : Input := { Input.quiet with poll := ⟨⟨0, 0⟩, .ok [0, 0, 0], by decide⟩ }

def Input.caller : Input := { Input.quiet with accepted := .ok ⟨"127.0.0.1:9"⟩ }

namespace World

/-- `n` steps of the worker that meet `input`. -/
def Step.works (n : ℕ) (input : Input) : List Step := List.replicate n (.work input)

/-- The worker starts, accepts one caller and comes to its first blocking poll. -/
def Step.admission : List Step :=
  works 13 .quiet ++ works 1 .caller ++ works 1 .quiet

/-- The consumer takes a record and publishes the slot. -/
def Step.taken : List Step := [.outside .receive, .outside (.publish .queue)]

end World

end Phonowire.Receiver
