import Phonowire.Receiver.Course

/-!
# Shutdown is complete on every exit path

Once `drive` has ended, each step of the worker pays from a measure that other
threads cannot refill, so the cleanup returns. It leaves no connection, no
scheduler state and no registry entry behind, and the byte account holds only
what lives outside the tasks. The flag for incomplete counters and the result
agree at every place of the loop.
-/

namespace Phonowire.Receiver

/-! ## The result and the completeness of the counters -/

/-- What the cleanup has found so far. -/
def Verdict (result : DriveResult) (failure : Option ReceiverFailure) (complete : Bool) : Prop :=
  (failure = none ∨ failure = some .counterExhausted) ∧
    complete = (!World.exhausted result && failure.isNone)

def Caller.Honest (complete : Bool) : Caller → Prop
  | .cleanup result failure => Verdict result failure complete
  | _ => complete = true

/-- What the completeness flag says at each place. -/
def Pc.Honest (complete : Bool) : Pc → Prop
  | .retire caller _ => caller.Honest complete
  | .finish caller _ _ => caller.Honest complete
  | .publish caller _ _ => caller.Honest complete
  | .driven result => World.exhausted result = false → complete = true
  | .cleanup result found => Verdict result found complete
  | .stopAll result found => Verdict result found complete
  | .publishAll result found _ => Verdict result found complete
  | .outcome result found => Verdict result found complete
  | .returned result => (complete = false → ∃ error, result = .error error) ∧
      (result = .error .counterExhausted → complete = false)
  | _ => complete = true

namespace World

variable {w w' : World}

def Honest (w : World) : Prop := w.pc.Honest w.summary.countersComplete

theorem Loop.honest {pc : Pc} {complete : Bool} (h : Loop pc) :
    pc.Honest complete ↔ complete = true := by
  cases pc <;> first | exact h.elim | rfl

theorem SameAccount.countersComplete_eq {s s' : RunSummary} (h : SameAccount s s') :
    s'.countersComplete = s.countersComplete := by
  obtain ⟨_, _, _, _, rfl⟩ := h
  rfl

theorem finalResult_honest {result : DriveResult} {failure : Option ReceiverFailure}
    {complete : Bool} (h : Verdict result failure complete) :
    (complete = false → ∃ error, finalResult result failure = .error error) ∧
      (finalResult result failure = .error .counterExhausted → complete = false) := by
  obtain ⟨hfailure, hcomplete⟩ := h
  cases result with
  | ok cause =>
      rcases hfailure with rfl | rfl
      · simp [finalResult, hcomplete, exhausted]
      · simp [finalResult, hcomplete]
  | error error =>
      refine ⟨fun _ ↦ ⟨error, by cases failure <;> rfl⟩, ?_⟩
      intro hresult
      have herror : error = .counterExhausted := by
        cases failure <;> exact Except.error.inj hresult
      rw [hcomplete, herror]
      rfl

/-- The end of `retire_with` reports exactly what it does to the flag. -/
theorem honest_resume {caller : Caller} {p : Progress} {summary : RunSummary}
    {result : Except ReceiverFailure Unit} (hsettles : Settles w.summary caller p summary result)
    (hhonest : caller.Honest w.summary.countersComplete) (v : World) (hv : v.summary = summary) :
    (v.resume caller result).Honest := by
  have hfail {failure : ReceiverFailure} (h : failure = .counterExhausted) :
      (v.fail failure).Honest := by
    subst h
    exact nofun
  unfold Honest
  cases hsettles with
  | exact hover =>
      have hsame : v.summary.countersComplete = w.summary.countersComplete := by
        rw [hv]
        rfl
      rw [← hsame] at hhonest
      cases caller <;> exact hhonest
  | incomplete next hcomplete hhanded hlive =>
      cases caller with
      | turn left => exact hfail rfl
      | requested site tokens => exact hfail rfl
      | cleanup drive failure =>
          refine ⟨Or.inr rfl, ?_⟩
          simpa [resume, goto, hv] using hcomplete
  | exhausted hcaller =>
      obtain ⟨site, tokens, rfl⟩ := hcaller
      exact hfail rfl

theorem Honest.works (h : w.Honest) (hworks : w.Works w') : w'.Honest := by
  unfold Honest at h
  cases hworks with
  | @refused failure hpc =>
      refine ⟨fun _ ↦ ⟨_, rfl⟩, ?_⟩
      intro hresult
      cases failure <;> cases hresult
  | started hpc => rfl
  | looped hpc hpc' haside hsummary =>
      rw [Loop.honest hpc] at h
      exact (Loop.honest hpc').mpr (hsummary.countersComplete_eq.trans h)
  | listed hpc haside => exact (Loop.honest hpc).mp h
  | scanned hpc =>
      rw [hpc] at h
      exact h
  | found hpc =>
      rw [hpc] at h
      exact h
  | chosen hpc =>
      rw [hpc] at h
      exact h
  | cleared hpc hpc' =>
      rw [hpc] at h
      exact (Loop.honest hpc').mpr h
  | took hpc hstep hkeeps hphase =>
      rw [hpc] at h
      exact h
  | polled hpc hstep hpolled => exact h
  | parked hpc hphase =>
      rw [hpc] at h
      exact h
  | ended hpc hphase =>
      rw [hpc] at h
      exact h
  | overflowed hpc hphase hlive hoverflow => exact nofun
  | stopped hpc => exact fun _ ↦ (Loop.honest hpc).mp h
  | failed hpc haside hnext => exact fun _ ↦ (Loop.honest hpc).mp h
  | admitted hpc hstep hentry =>
      rw [hpc] at h
      exact h
  | uncounted hpc hstep hentry => exact nofun
  | retired hpc hlive hstep =>
      rw [hpc] at h
      exact h
  | finished hpc =>
      rw [hpc] at h
      exact h
  | published hpc hsettles =>
      rw [hpc] at h
      exact honest_resume hsettles h _ rfl
  | @drove result hpc =>
      rw [hpc] at h
      refine ⟨Or.inl rfl, ?_⟩
      cases hresult : exhausted result with
      | true => simp [stepDriven, goto, hresult]
      | false => simpa [stepDriven, goto, hresult] using h hresult
  | cleaning hpc hlive =>
      rw [hpc] at h
      exact h
  | cleaned hpc hempty =>
      rw [hpc] at h
      exact h
  | stoppedAll hpc =>
      rw [hpc] at h
      exact h
  | resolved hpc =>
      rw [hpc] at h
      exact h
  | resolvedAll hpc =>
      rw [hpc] at h
      exact h
  | returned hpc hstep =>
      rw [hpc] at h
      exact finalResult_honest h

theorem Honest.step {a : Step} (h : w.Honest) (hsteady : w.Steady) (hstep : w.step a = some w') :
    w'.Honest := by
  cases a with
  | work input => exact h.works (works_of_work hsteady hstep)
  | close id =>
      cases hstep
      unfold World.close
      split_ifs
      · exact h
      · exact h
      · split
        · exact h
        · exact h
  | outside o =>
      simp only [World.step, Option.map_eq_some_iff] at hstep
      obtain ⟨engine, _, rfl⟩ := hstep
      exact h

theorem honest_of_reachable {settings : Settings} {outside : List ℕ}
    (hfits : outside.sum ≤ settings.capacity.val)
    (h : Machine.Reachable World.step (new settings outside) w) : w.Honest := by
  refine (h.invariant (I := fun w ↦ w.Steady ∧ w.Honest) ⟨steady_new settings hfits, rfl⟩ ?_).2
  rintro u a v ⟨hu, hhonest⟩ hstep
  exact ⟨hu.step hstep, hhonest.step hu hstep⟩

/-! ## The steps that are left -/

/-- The places behind the end of `drive` with `result`. -/
def Closing (result : DriveResult) : Pc → Prop
  | .driven drive => drive = result
  | .cleanup drive _ => drive = result
  | .retire (.cleanup drive _) _ => drive = result
  | .finish (.cleanup drive _) _ _ => drive = result
  | .publish (.cleanup drive _) _ _ => drive = result
  | .stopAll drive _ => drive = result
  | .publishAll drive _ _ => drive = result
  | .outcome drive _ => drive = result
  | .returned final => ∃ found, (found = none ∨ found = some .counterExhausted) ∧
      final = finalResult result found
  | _ => False

/-- A bound for the steps of the worker until it returns. -/
def left (w : World) : ℕ :=
  match w.pc with
  | .driven _ => 4 * w.engine.board.live.size + w.entries.size + 5
  | .cleanup _ _ => 4 * w.engine.board.live.size + w.entries.size + 4
  | .retire _ _ => 4 * w.engine.board.live.size + w.entries.size + 3
  | .finish _ _ _ => 4 * w.engine.board.live.size + w.entries.size + 6
  | .publish _ _ _ => 4 * w.engine.board.live.size + w.entries.size + 5
  | .stopAll _ _ => w.entries.size + 3
  | .publishAll _ _ cells => cells.length + 2
  | .outcome _ _ => 1
  | _ => 0

/-- Behind `stop_all` the registry is empty and refuses every close. -/
def Sealed (w : World) : Prop :=
  match w.pc with
  | .publishAll _ _ _ => w.stopping = true ∧ w.entries.size = 0
  | .outcome _ _ => w.stopping = true ∧ w.entries.size = 0
  | .returned _ => w.stopping = true ∧ w.entries.size = 0
  | _ => True

/-- A shutdown on its way: where it is, and what it leaves alone. -/
structure Shutting (result : DriveResult) (accepted : List Record) (w : World) : Prop where
  place : Closing result w.pc
  registry : w.Sealed
  records : w.engine.accepted = accepted

variable {result : DriveResult} {accepted : List Record}

theorem closing_not_loop {pc : Pc} (h : Closing result pc) : ¬ Loop pc := by
  cases pc <;> first | exact h.elim | exact fun hloop ↦ hloop

/-- A step of the worker behind `drive` pays one unit and keeps the channel. -/
theorem Shutting.works (h : w.Shutting result accepted) (hhonest : w.Honest)
    (hworks : w.Works w') :
    w'.Shutting result accepted ∧ w'.left + 1 ≤ w.left ∧
      w'.engine.channel = w.engine.channel := by
  obtain ⟨hplace, hregistry, hrecords⟩ := h
  have hnot := closing_not_loop hplace
  unfold Sealed at hregistry
  cases hworks with
  | refused hpc => rw [hpc] at hplace; exact hplace.elim
  | started hpc => rw [hpc] at hplace; exact hplace.elim
  | looped hpc hpc' haside hsummary => exact absurd hpc hnot
  | listed hpc haside => exact absurd hpc hnot
  | scanned hpc => rw [hpc] at hplace; exact hplace.elim
  | found hpc => rw [hpc] at hplace; exact hplace.elim
  | chosen hpc => rw [hpc] at hplace; exact hplace.elim
  | cleared hpc hpc' => rw [hpc] at hplace; exact hplace.elim
  | took hpc hstep hkeeps hphase => rw [hpc] at hplace; exact hplace.elim
  | polled hpc hstep hpolled => rw [hpc] at hplace; exact hplace.elim
  | parked hpc hphase => rw [hpc] at hplace; exact hplace.elim
  | ended hpc hphase => rw [hpc] at hplace; exact hplace.elim
  | overflowed hpc hphase hlive hoverflow => rw [hpc] at hplace; exact hplace.elim
  | stopped hpc => exact absurd hpc hnot
  | failed hpc haside hnext => exact absurd hpc hnot
  | admitted hpc hstep hentry => rw [hpc] at hplace; exact hplace.elim
  | uncounted hpc hstep hentry => rw [hpc] at hplace; exact hplace.elim
  | @retired caller token entry ready hpc hlive hstep =>
      rw [hpc] at hplace
      have hsize := Std.TreeMap.size_erase_add_one hlive
      refine ⟨⟨?_, trivial, hrecords⟩, ?_, rfl⟩
      · cases caller <;> exact hplace
      · simp only [left, hpc, Board.without]
        omega
  | @finished caller token progress hpc =>
      rw [hpc] at hplace
      have hsize : (w.entries.erase token).size ≤ w.entries.size := Std.TreeMap.size_erase_le
      refine ⟨⟨?_, trivial, hrecords⟩, ?_, rfl⟩
      · cases caller <;> exact hplace
      · simp only [left, hpc, stepFinish, goto]
        omega
  | @published caller cell progress summary outcome hpc hsettles =>
      rw [hpc] at hplace
      obtain ⟨hengine, hentries⟩ : (w.setCell cell caller.closeResult).engine = w.engine ∧
          (w.setCell cell caller.closeResult).entries = w.entries := by
        cases cell <;> exact ⟨rfl, rfl⟩
      cases caller with
      | turn left => exact hplace.elim
      | requested site tokens => exact hplace.elim
      | cleanup drive failure =>
          have hresume : ∃ found, resume { w.setCell cell .receiverStopped with summary }
              (.cleanup drive failure) outcome =
                { w.setCell cell .receiverStopped with summary }.goto (.cleanup drive found) := by
            cases outcome with
            | ok _ => exact ⟨failure, rfl⟩
            | error error => exact ⟨some error, rfl⟩
          obtain ⟨found, hresume⟩ := hresume
          rw [Caller.closeResult] at hengine hentries ⊢
          rw [hresume]
          refine ⟨⟨hplace, trivial, ?_⟩, ?_, ?_⟩
          · exact (congrArg Engine.accepted hengine).trans hrecords
          · simp only [left, hpc, goto, hengine, hentries]
            omega
          · exact congrArg Engine.channel hengine
  | drove hpc =>
      rw [hpc] at hplace
      refine ⟨⟨hplace, trivial, hrecords⟩, ?_, rfl⟩
      simp only [left, hpc, stepDriven, goto]
      omega
  | cleaning hpc hlive =>
      rw [hpc] at hplace
      refine ⟨⟨hplace, trivial, hrecords⟩, ?_, rfl⟩
      simp only [left, hpc, goto]
      omega
  | cleaned hpc hempty =>
      rw [hpc] at hplace
      refine ⟨⟨hplace, trivial, hrecords⟩, ?_, rfl⟩
      simp only [left, hpc, goto]
      omega
  | stoppedAll hpc =>
      rw [hpc] at hplace
      refine ⟨⟨hplace, ⟨rfl, rfl⟩, hrecords⟩, ?_, rfl⟩
      simp only [left, hpc, stepStopAll, goto, List.length_map, Std.TreeMap.length_toList]
      omega
  | resolved hpc =>
      rw [hpc] at hplace hregistry
      refine ⟨⟨hplace, hregistry, hrecords⟩, ?_, rfl⟩
      simp only [left, hpc, goto, List.length_cons]
      omega
  | resolvedAll hpc =>
      rw [hpc] at hplace hregistry
      refine ⟨⟨hplace, hregistry, hrecords⟩, ?_, rfl⟩
      simp only [left, hpc, goto, List.length_nil]
      omega
  | returned hpc hstep =>
      rw [hpc] at hplace hregistry
      unfold Honest at hhonest
      rw [hpc] at hhonest
      refine ⟨⟨⟨_, hhonest.1, hplace ▸ rfl⟩, hregistry, hrecords⟩, ?_, rfl⟩
      simp only [left, hpc]
      omega

/-- Other threads neither undo a shutdown nor give it more to do. -/
theorem Shutting.outside {o : Outside} {engine : Engine} (h : w.Shutting result accepted)
    (hstep : w.engine.step o.action = some engine) :
    Shutting result accepted { w with engine } ∧ World.left { w with engine } = w.left := by
  obtain ⟨⟨ready, hboard⟩, _, haccepted⟩ := Engine.outside_undisturbed hstep
  refine ⟨⟨h.place, h.registry, haccepted.trans h.records⟩, ?_⟩
  unfold left
  simp only [hboard]

theorem Shutting.close (h : w.Shutting result accepted) (id : ConnectionId) :
    (w.close id).1.Shutting result accepted ∧ (w.close id).1.left = w.left := by
  unfold World.close
  split_ifs with hinstance hstopping
  · exact ⟨h, rfl⟩
  · exact ⟨h, rfl⟩
  · cases hentry : w.entries[id.sequence]? with
    | none => exact ⟨h, rfl⟩
    | some entry =>
        have hcontains : w.entries.contains id.sequence = true := by
          rw [← Std.TreeMap.isSome_getElem?_eq_contains, hentry]
          rfl
        have hsize (e : ControlEntry) : (w.entries.insert id.sequence e).size =
            w.entries.size := by
          rw [Std.TreeMap.size_insert, if_pos hcontains]
        have hregistry := h.registry
        unfold Sealed at hregistry
        refine ⟨⟨h.place, ?_, h.records⟩, ?_⟩
        · unfold Sealed
          dsimp only
          rw [hsize]
          exact hregistry
        · unfold left
          dsimp only
          rw [hsize]

/-- The worker can always go on until it has returned. -/
theorem Shutting.goes_on (h : w.Shutting result accepted) (hreturned : ∀ final, w.pc ≠ .returned final)
    (input : Input) : ∃ w', w.step (.work input) = some w' := by
  have hplace := h.place
  unfold World.step work
  cases hpc : w.pc with
  | returned final => exact absurd hpc (hreturned final)
  | driven drive => exact ⟨_, rfl⟩
  | cleanup drive found => exact ⟨_, rfl⟩
  | retire caller token => exact ⟨_, rfl⟩
  | finish caller token progress => exact ⟨_, rfl⟩
  | publish caller cell progress => exact ⟨_, rfl⟩
  | stopAll drive found => exact ⟨_, rfl⟩
  | publishAll drive found cells => exact ⟨_, rfl⟩
  | outcome drive found => exact ⟨_, rfl⟩
  | _ =>
      rw [hpc] at hplace
      exact hplace.elim

/-- Along a run behind the end of `drive`, the measure pays for every step of
the worker. -/
theorem Shutting.run {actions : List Step} (h : w.Shutting result accepted) (hsteady : w.Steady)
    (hhonest : w.Honest) (hrun : Machine.run World.step w actions = some w') :
    w'.Shutting result accepted ∧ w'.Steady ∧ w'.Honest ∧
      actions.countP Step.isWork + w'.left ≤ w.left := by
  have hend := Machine.run_measure
    (I := fun w ↦ w.Shutting result accepted ∧ w.Steady ∧ w.Honest) (m := World.left)
    (p := Step.isWork) hrun
    ⟨h, hsteady, hhonest⟩ ?_
  · exact ⟨hend.1.1, hend.1.2.1, hend.1.2.2, hend.2⟩
  · rintro u a v ⟨hu, husteady, huhonest⟩ hv
    have hstep : v.Shutting result accepted ∧
        (if a.isWork then 1 else 0) + v.left ≤ u.left := by
      cases a with
      | work input =>
          obtain ⟨hshutting, hleft, _⟩ := hu.works huhonest (works_of_work husteady hv)
          exact ⟨hshutting, by simp only [Step.isWork, if_true]; omega⟩
      | close id =>
          cases hv
          exact ⟨(hu.close id).1, by simp [Step.isWork, (hu.close id).2]⟩
      | outside o =>
          simp only [World.step, Option.map_eq_some_iff] at hv
          obtain ⟨engine, hengine, rfl⟩ := hv
          exact ⟨(hu.outside hengine).1, by simp [Step.isWork, (hu.outside hengine).2]⟩
    exact ⟨⟨hstep.1, husteady.step hv, huhonest.step husteady hv⟩, hstep.2⟩

/-! ## What is left behind -/

/-- Nothing of any connection remains with the worker, and the byte account is
the total of what lives in the channel and outside. -/
structure Vacant (w : World) : Prop where
  live : w.engine.board.live.size = 0
  states : w.engine.board.ready.states.size = 0
  runnable : w.engine.board.ready.queue.tokens = []
  waiters : ∀ k, (w.engine.board.ready.waiters k).tokens = []
  entries : w.entries.size = 0
  stopping : w.stopping = true
  used : w.engine.used = w.engine.outside.sum + w.engine.channel.charged

theorem Shutting.vacant {final : DriveResult} (h : w.Shutting result accepted)
    (hsteady : w.Steady) (hpc : w.pc = .returned final) : w.Vacant := by
  have hplace := hsteady.place
  have hregistry := h.registry
  unfold Sealed at hregistry
  rw [hpc] at hplace hregistry
  obtain ⟨hphase, hempty⟩ := hplace
  have hcoherent := hsteady.sound.coherent
  have hdead (token : Token) : w.engine.board.ready.states[token]? = none := by
    rw [← Option.isNone_iff_eq_none, ← Option.not_isSome, hcoherent.live, hempty token]
    rfl
  constructor
  case live => exact hempty.size_eq
  case states => rw [hcoherent.size_eq, hempty.size_eq]
  case runnable =>
    refine List.eq_nil_iff_forall_not_mem.mpr ?_
    intro token htoken
    rw [hcoherent.consistent.queue] at htoken
    have hlive := htoken.live
    simp [Ready.Live, hdead] at hlive
  case waiters =>
    intro k
    refine List.eq_nil_iff_forall_not_mem.mpr ?_
    intro token htoken
    have hlive := hcoherent.consistent.waiters k token htoken
    simp [Ready.Live, hdead] at hlive
  case entries => exact hregistry.2
  case stopping => exact hregistry.1
  case used =>
    have hheld : w.engine.board.held = 0 := by
      refine Std.TreeMap.total_eq_zero ?_
      intro token entry hlive
      rw [hempty token] at hlive
      cases hlive
    rw [hsteady.sound.exact.used, hheld, Nat.add_zero]

/-- Shutdown is complete on every exit path: behind any end of `drive` the
worker takes at most `left` more steps and can always take the next one until
it has returned; it never touches the channel; and when it has returned, nothing
of a connection is left and the reported error is that of `drive`, or else that
of the cleanup. -/
theorem shutdown_complete (settings : Settings) (outside : List ℕ)
    (hfits : outside.sum ≤ settings.capacity.val) (w : World) (result : DriveResult)
    (hreachable : Machine.Reachable World.step (new settings outside) w)
    (hdriven : w.pc = .driven result) (actions : List Step) (w' : World)
    (hrun : Machine.run World.step w actions = some w') :
    actions.countP Step.isWork + w'.left ≤
      4 * w.engine.board.live.size + w.entries.size + 5 ∧
    ((∃ final, w'.pc = .returned final) ∨
      ∀ input, ∃ next, w'.step (.work input) = some next ∧ next.left < w'.left ∧
        next.engine.channel = w'.engine.channel) ∧
    w'.engine.accepted = w.engine.accepted ∧
    (w'.engine.channel.connected = true →
      w'.engine.received ++ w'.engine.channel.buffer = w.engine.accepted) ∧
    ∀ final, w'.pc = .returned final → w'.Vacant ∧
      (∀ error, result = .error error → final = .error error) ∧
      (∀ cause, result = .ok cause →
        w'.summary.countersComplete = true ∧ final = .ok cause ∨
        w'.summary.countersComplete = false ∧ final = .error .counterExhausted) := by
  have hsteady := steady_of_reachable hfits hreachable
  have hhonest := honest_of_reachable hfits hreachable
  have hbegins : w.Shutting result w.engine.accepted := by
    refine ⟨?_, ?_, rfl⟩
    · rw [hdriven]
      rfl
    · unfold Sealed
      rw [hdriven]
      trivial
  obtain ⟨hshutting, hsteady', hhonest', hcount⟩ := hbegins.run hsteady hhonest hrun
  have hleft : w.left = 4 * w.engine.board.live.size + w.entries.size + 5 := by
    unfold left
    rw [hdriven]
  refine ⟨hleft ▸ hcount, ?_, hshutting.records, ?_, ?_⟩
  · by_cases hreturned : ∃ final, w'.pc = .returned final
    · exact Or.inl hreturned
    · right
      intro input
      obtain ⟨next, hnext⟩ := hshutting.goes_on (fun final hpc ↦ hreturned ⟨final, hpc⟩) input
      obtain ⟨_, hpays, hchannel⟩ := hshutting.works hhonest' (works_of_work hsteady' hnext)
      exact ⟨next, hnext, hpays, hchannel⟩
  · intro hconnected
    rw [hsteady'.sound.handed.queued hconnected, hshutting.records]
  · intro final hpc
    have hplace := hshutting.place
    unfold Honest at hhonest'
    rw [hpc] at hplace hhonest'
    obtain ⟨found, hfound, rfl⟩ := hplace
    refine ⟨hshutting.vacant hsteady' hpc, ?_, ?_⟩
    · rintro error rfl
      cases found <;> rfl
    · rintro cause rfl
      rcases hfound with rfl | rfl
      · left
        refine ⟨?_, rfl⟩
        by_contra hcomplete
        obtain ⟨error, herror⟩ := hhonest'.1 (by simpa using hcomplete)
        cases herror
      · exact Or.inr ⟨hhonest'.2 rfl, rfl⟩

/-- A stop while a record waits for the queue: the consumer keeps what was
queued, and the waiting task's bytes are returned. -/
theorem shutdown_complete_blocked_call :
    ∃ w w', Machine.run World.step (new oneSlot [])
        (Step.admission ++ Step.works 27 .hangup ++ [.outside .stop] ++ Step.works 4 .quiet) =
          some w ∧
      Machine.run World.step w (Step.works 9 .quiet) = some w' ∧
      w.engine.used = 3 ∧ w'.pc = .returned (.ok .requested) ∧ w'.engine.used = 0 ∧
      w'.engine.channel.buffer.length = 1 ∧ w'.Vacant := by
  obtain ⟨w, hw, hpc, hused⟩ := Machine.exists_of_run World.step (new oneSlot [])
    (Step.admission ++ Step.works 27 .hangup ++ [.outside .stop] ++ Step.works 4 .quiet)
    (fun w ↦ w.pc = .driven (.ok .requested) ∧ w.engine.used = 3) (by decide +kernel)
  obtain ⟨w', hw', hpc', hused', hbuffer⟩ := Machine.exists_of_run World.step (new oneSlot [])
    (Step.admission ++ Step.works 27 .hangup ++ [.outside .stop] ++ Step.works 4 .quiet ++
      Step.works 9 .quiet)
    (fun w ↦ w.pc = .returned (.ok .requested) ∧ w.engine.used = 0 ∧
      w.engine.channel.buffer.length = 1) (by decide +kernel)
  rw [Machine.run_append, hw, Option.bind_some] at hw'
  have hcomplete := shutdown_complete oneSlot [] (by decide) w (.ok .requested) ⟨_, hw⟩ hpc _ w' hw'
  exact ⟨w, w', hw, hw', hused, hpc', hused', hbuffer, (hcomplete.2.2.2.2 _ hpc').1⟩

end World

end Phonowire.Receiver
