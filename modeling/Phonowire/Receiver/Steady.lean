import Phonowire.Receiver.Admission
import Phonowire.Receiver.Credit
import Phonowire.Receiver.Worker

/-!
# What each place of the worker loop expects

Each place of the worker loop expects the board in a certain phase and the
tokens it remembers to be live. A steady world meets these expectations, and
its shared state is sound. `World.Works` lists what a step of the worker does
from there.
-/

namespace Phonowire.Receiver

namespace Engine

variable {s s' : Engine} {token : Token}

/-- The invariants of the shared state. -/
structure Sound (s : Engine) : Prop where
  coherent : s.board.Coherent
  exact : s.Exact
  handed : s.Handed
  credited : s.Credited
  ordered : s.board.Ordered

theorem sound_new (settings : Settings) {outside : List ℕ}
    (hfits : outside.sum ≤ settings.capacity.val) : (new settings outside).Sound where
  coherent := Board.coherent_new settings
  exact := exact_new settings hfits
  handed := handed_new settings outside
  credited := credited_new settings outside
  ordered := Board.ordered_new settings

theorem Sound.move (h : s.Sound) (hmove : s.Move s') (hcoherent : s'.board.Coherent) :
    s'.Sound where
  coherent := hcoherent
  exact := h.exact.move hmove
  handed := h.handed.move h.coherent hmove
  credited := h.credited.move h.coherent hmove
  ordered := ordered_move h.ordered h.coherent hmove

theorem Sound.step {a : Action} (h : s.Sound) (hstep : s.step a = some s') : s'.Sound := by
  obtain ⟨hmove, hcoherent⟩ := move_of_step h.coherent h.exact hstep
  exact h.move hmove hcoherent

/-- The same connections under the same settings. -/
structure Keeps (s s' : Engine) : Prop where
  settings : s'.board.settings = s.board.settings
  live : ∀ u : Token, s'.board.live[u]?.isSome = s.board.live[u]?.isSome
  departed : s'.board.departed = s.board.departed
  subscribed : s'.subscribed = s.subscribed

theorem Keeps.refl (s : Engine) : s.Keeps s := ⟨rfl, fun _ ↦ rfl, rfl, rfl⟩

theorem keeps_of_swapped {entry e : Entry} (h : s.board.Swapped token entry e s'.board)
    (hsubscribed : s'.subscribed = s.subscribed) : s.Keeps s' := by
  refine ⟨h.settings, ?_, h.departed, hsubscribed⟩
  intro u
  rw [h.live]
  split_ifs with hu
  · rw [← hu, h.before]
    rfl
  · rfl

/-- A poll changes its own task and leaves the phase at it, or ends. -/
theorem Polled.keeps (h : s.Polled token s') :
    s.Keeps s' ∧ (s'.board.phase = .idle ∨ s'.board.phase.token = some token) := by
  cases h with
  | yielded hphase hlive hsame hm hwoke =>
      exact ⟨keeps_of_swapped ⟨rfl, hlive, hm, rfl⟩ rfl, Or.inl rfl⟩
  | parked hphase hlive hsame hm htokens hstate hturn hstates =>
      exact ⟨keeps_of_swapped ⟨rfl, hlive, hm, rfl⟩ rfl, Or.inl rfl⟩
  | requested hphase hlive hsame hwants hhead =>
      exact ⟨keeps_of_swapped (Board.swapped_insert rfl hlive rfl rfl) rfl, Or.inr rfl⟩
  | lined hphase hlive hsame hwants hhead htokens hstates =>
      exact ⟨keeps_of_swapped (Board.swapped_insert rfl hlive rfl rfl) rfl, Or.inl rfl⟩
  | blocked hphase hlive hblocked =>
      exact ⟨⟨rfl, fun _ ↦ rfl, rfl, rfl⟩, Or.inr rfl⟩
  | advanced hphase hlive hsame hstep hrequest hsent hcharge hcharge' hreleased =>
      exact ⟨keeps_of_swapped (Board.swapped_insert rfl hlive rfl rfl) rfl,
        Or.inr (Phase.token_behind _ _)⟩
  | copied hphase hlive hat hstep hrequest hsent hfits hcharge hreleased =>
      exact ⟨keeps_of_swapped (Board.swapped_insert rfl hlive rfl rfl) rfl,
        Or.inr (Phase.token_behind _ _)⟩
  | sent hphase hlive hat hstep hrequest hsent hcharge hconnected hslots hbuffer hstill hreleased =>
      exact ⟨keeps_of_swapped (Board.swapped_insert rfl hlive rfl rfl) rfl,
        Or.inr (Phase.token_behind _ _)⟩
  | refused hphase hlive hat hstep hrequest hsent hcharge hconnected hle hreleased =>
      exact ⟨keeps_of_swapped (Board.swapped_insert rfl hlive rfl rfl) rfl,
        Or.inr (Phase.token_behind _ _)⟩
  | exhausted hphase hlive hsame hat hcount hstep hsent hcharge hle hreleased =>
      exact ⟨keeps_of_swapped (Board.swapped_insert rfl hlive rfl rfl) rfl,
        Or.inr (Phase.token_behind _ _)⟩

/-- What other threads and wakes leave alone. -/
structure Undisturbed (s s' : Engine) : Prop where
  board : ∃ ready, s'.board = { s.board with ready }
  subscribed : s'.subscribed = s.subscribed
  accepted : s'.accepted = s.accepted

theorem Undisturbed.keeps (h : s.Undisturbed s') : s.Keeps s' := by
  obtain ⟨⟨ready, hboard⟩, hsubscribed, _⟩ := h
  refine ⟨?_, ?_, ?_, hsubscribed⟩ <;> rw [hboard]
  intro u
  rfl

theorem Undisturbed.phase_eq (h : s.Undisturbed s') : s'.board.phase = s.board.phase := by
  obtain ⟨⟨ready, hboard⟩, _⟩ := h
  rw [hboard]

theorem undisturbed_of_board (hboard : s'.board = s.board)
    (hsubscribed : s'.subscribed = s.subscribed) (haccepted : s'.accepted = s.accepted) :
    s.Undisturbed s' :=
  ⟨⟨s.board.ready, hboard⟩, hsubscribed, haccepted⟩

theorem outside_undisturbed {o : World.Outside} (h : s.step o.action = some s') :
    s.Undisturbed s' := by
  cases o with
  | wake token =>
      simp only [World.Outside.action, step, onBoard, Option.map_eq_some_iff] at h
      obtain ⟨board, hboard, rfl⟩ := h
      simp only [Board.wake, Option.bind_eq_bind, Option.bind_eq_some_iff, Option.some.injEq]
        at hboard
      obtain ⟨⟨ready, inserted⟩, _, rfl⟩ := hboard
      exact ⟨⟨ready, rfl⟩, rfl, rfl⟩
  | receive =>
      simp only [World.Outside.action, step, receive] at h
      split at h <;> cases h
      exact undisturbed_of_board rfl rfl rfl
  | discard index =>
      simp only [World.Outside.action, step, discard, Option.bind_eq_bind,
        Option.bind_eq_some_iff, Option.some.injEq] at h
      obtain ⟨bytes, _, ⟨budget, notify⟩, _, rfl⟩ := h
      exact undisturbed_of_board rfl rfl rfl
  | copyOutside bytes =>
      simp only [World.Outside.action, step, copyOutside] at h
      split at h <;> cases h
      · exact undisturbed_of_board rfl rfl rfl
      · exact undisturbed_of_board rfl rfl rfl
  | disconnect =>
      simp only [World.Outside.action, step, disconnect] at h
      split_ifs at h
      cases h
      exact undisturbed_of_board rfl rfl rfl
  | publish signal =>
      simp only [World.Outside.action, step, Option.map_eq_some_iff] at h
      obtain ⟨signals, _, rfl⟩ := h
      exact undisturbed_of_board rfl rfl rfl
  | stop =>
      cases h
      exact undisturbed_of_board rfl rfl rfl
  | wakeFailed error =>
      cases h
      exact undisturbed_of_board rfl rfl rfl

end Engine

/-! ## What each place expects -/

/-- No connection is live. -/
def Board.Empty (b : Board) : Prop := ∀ token : Token, b.live[token]? = none

theorem Board.empty_iff {b : Board} : b.Empty ↔ b.live.isEmpty = true := by
  unfold Empty
  rw [Std.TreeMap.isEmpty_iff_forall_not_mem]
  refine forall_congr' fun token ↦ ?_
  rw [← Std.TreeMap.isSome_getElem?_iff_mem, Bool.not_eq_true, Option.isSome_eq_false_iff,
    Option.isNone_iff_eq_none]

theorem Board.Empty.size_eq {b : Board} (h : b.Empty) : b.live.size = 0 := by
  have hempty := Board.empty_iff.mp h
  rwa [Std.TreeMap.isEmpty_eq_size_eq_zero, beq_iff_eq] at hempty

/-- Distinct live tokens. -/
def Board.Listed (b : Board) (tokens : List Token) : Prop :=
  tokens.Nodup ∧ ∀ token ∈ tokens, b.live[token]?.isSome = true

def Caller.Fits (b : Board) : Caller → Prop
  | .turn _ => b.phase = .idle
  | .requested _ tokens => b.phase = .idle ∧ b.Listed tokens
  | .cleanup _ _ => b.phase.betweenPolls = true

def Pc.Fits (b : Board) : Pc → Prop
  | .setup => b.phase = .idle ∧ b.Empty
  | .scan _ rest found => b.phase = .idle ∧ b.Listed (found ++ rest)
  | .retiring _ tokens => b.phase = .idle ∧ b.Listed tokens
  | .polling _ token =>
      (b.phase = .idle ∨ b.phase.token = some token) ∧ b.live[token]?.isSome = true
  | .retire (.turn _) token => b.phase = .ended token ∧ b.live[token]?.isSome = true
  | .retire (.requested _ tokens) token => b.phase = .idle ∧ b.Listed (token :: tokens)
  | .retire (.cleanup _ _) token =>
      b.phase.betweenPolls = true ∧ b.live[token]?.isSome = true
  | .finish caller _ progress => caller.Fits b ∧ progress.wireQueued ≤ progress.read
  | .publish caller _ progress => caller.Fits b ∧ progress.wireQueued ≤ progress.read
  | .driven _ => b.phase.betweenPolls = true
  | .cleanup _ _ => b.phase.betweenPolls = true
  | .stopAll _ _ => b.phase = .idle ∧ b.Empty
  | .publishAll _ _ _ => b.phase = .idle ∧ b.Empty
  | .outcome _ _ => b.phase = .idle ∧ b.Empty
  | .returned _ => b.phase = .idle ∧ b.Empty
  | .panicked => False
  | _ => b.phase = .idle

/-- The worker exists. -/
def Pc.Running : Pc → Prop
  | .setup => False
  | .returned _ => False
  | _ => True

theorem Board.listed_keys (b : Board) : b.Listed b.live.keys := by
  refine ⟨Std.TreeMap.nodup_keys, ?_⟩
  intro token htoken
  rw [Std.TreeMap.mem_keys, ← Std.TreeMap.isSome_getElem?_iff_mem] at htoken
  exact htoken

theorem Board.Listed.sublist {b : Board} {xs ys : List Token} (h : b.Listed ys)
    (hsub : xs.Sublist ys) : b.Listed xs :=
  ⟨h.1.sublist hsub, fun token htoken ↦ h.2 token (hsub.mem htoken)⟩

namespace World

/-- What holds wherever the worker is. -/
structure Firm (w : World) : Prop where
  sound : w.engine.Sound
  below : ∀ token : Token, w.engine.board.live[token]?.isSome = true ∨
    w.engine.board.departed[token]?.isSome = true → token < w.next
  entries : ∀ token : Token, w.entries[token]?.isSome = true → token < w.next
  handed : w.summary.rawBytesHandedOff ≤ w.summary.rawBytesRead

structure Steady (w : World) : Prop extends w.Firm where
  place : w.pc.Fits w.engine.board
  subscribed : w.pc.Running → w.engine.subscribed = true

theorem steady_new (settings : Settings) {outside : List ℕ}
    (hfits : outside.sum ≤ settings.capacity.val) : (new settings outside).Steady where
  sound := Engine.sound_new settings hfits
  place := ⟨rfl, by intro token; simp [new, Engine.new, Board.new]⟩
  subscribed := nofun
  below := by simp [new, Engine.new, Board.new]
  entries := by simp [new]
  handed := le_rfl

variable {w : World} {engine : Engine} {pc : Pc} {token : Token}

theorem Firm.at (h : w.Firm) (hplace : pc.Fits w.engine.board)
    (hsubscribed : pc.Running → w.engine.subscribed = true) : (w.goto pc).Steady :=
  ⟨⟨h.sound, h.below, h.entries, h.handed⟩, hplace, hsubscribed⟩

theorem Firm.keeps (h : w.Firm) (hsound : engine.Sound) (hkeeps : w.engine.Keeps engine) :
    Firm { w with engine } := by
  refine ⟨hsound, ?_, h.entries, h.handed⟩
  intro token htoken
  rw [hkeeps.live, hkeeps.departed] at htoken
  exact h.below token htoken

theorem act_eq {a : Engine.Action} (next : World → World) (h : w.engine.step a = some engine) :
    w.act a next = next { w with engine } := by
  simp [act, h]

/-! ## Outside the worker -/

theorem Pc.fits_undisturbed {s s' : Engine} (h : s.Undisturbed s') (hpc : pc.Fits s.board) :
    pc.Fits s'.board := by
  obtain ⟨⟨ready, hboard⟩, _⟩ := h
  rw [hboard]
  exact hpc

theorem Steady.outside {o : Outside} (h : w.Steady)
    (hstep : w.engine.step o.action = some engine) : Steady { w with engine } := by
  have hundisturbed := Engine.outside_undisturbed hstep
  refine ⟨h.keeps (h.sound.step hstep) hundisturbed.keeps, ?_, ?_⟩
  · exact Pc.fits_undisturbed hundisturbed h.place
  · intro hrunning
    exact hundisturbed.subscribed.trans (h.subscribed hrunning)

theorem Steady.close (h : w.Steady) (id : ConnectionId) : (w.close id).1.Steady := by
  unfold World.close
  split_ifs with hinstance hstopping
  · exact h
  · exact h
  · cases hentry : w.entries[id.sequence]? with
    | none => exact h
    | some entry =>
        have hstep : w.engine.step .owe =
            some { w.engine with signals := w.engine.signals.owe .control } := rfl
        refine ⟨⟨h.sound.step hstep, h.below, ?_, h.handed⟩, h.place, h.subscribed⟩
        intro token htoken
        dsimp only at htoken
        rw [Std.TreeMap.getElem?_insert_ite] at htoken
        split_ifs at htoken with hsame
        · rw [← hsame]
          exact h.entries id.sequence (by simp [hentry])
        · exact h.entries token htoken

/-! ## What one step of the worker does -/

/-- The places of the main loop that remember no connection. -/
def Loop : Pc → Prop
  | .failure => True
  | .cause => True
  | .control => True
  | .credit _ => True
  | .turn _ => True
  | .causeAgain => True
  | .accept => True
  | .accepting _ _ => True
  | .block => True
  | .events _ => True
  | _ => False

theorem Loop.fits {b : Board} (h : Loop pc) : pc.Fits b ↔ b.phase = .idle := by
  cases pc <;> first | exact h.elim | rfl

theorem Loop.running (h : Loop pc) : pc.Running := by
  cases pc <;> first | exact h.elim | trivial

/-- Summaries that differ in what the listener counts without an admission. -/
def SameAccount (s s' : RunSummary) : Prop :=
  ∃ transient pauses backoffs refused, s' = { s with
    transientAcceptErrors := transient
    resourcePauseEntries := pauses
    retryQuotaBackoffs := backoffs
    refused := refused }

theorem SameAccount.refl (s : RunSummary) : SameAccount s s := ⟨_, _, _, _, rfl⟩

/-- The engine after an action that leaves connections and phase alone. -/
def Aside (s s' : Engine) : Prop := s.Undisturbed s' ∧ (s' = s ∨ ∃ a, s.step a = some s')

theorem Aside.refl (s : Engine) : Aside s s :=
  ⟨Engine.undisturbed_of_board rfl rfl rfl, Or.inl rfl⟩

/-- The connection admitted under the next token. -/
def admission (w : World) (peer : SocketAddr) (ready : Ready) : World :=
  World.register { w with
    next := w.next + 1
    engine := { w.engine with board := { w.engine.board with
      ready
      live := w.engine.board.live.insert w.next
        ⟨w.engine.board.admitted w.next peer, 0, false⟩ } } } w.next

/-- What the end of `retire_with` does to the summary, and its result. -/
inductive Settles (s : RunSummary) (caller : Caller) (p : Progress) :
    RunSummary → Except ReceiverFailure Unit → Prop
  | exact (hover : p.counterOverflow = false) :
      Settles s caller p
        { s.plus p with closedByRequest := s.closedByRequest +
            if caller.closeResult = .retiredByRequest then 1 else 0 } (.ok ())
  | incomplete (next : RunSummary) (hcomplete : next.countersComplete = false)
      (hhanded : next.rawBytesHandedOff ≤ next.rawBytesRead) (hlive : next.live = s.live) :
      Settles s caller p next (.error .counterExhausted)
  | exhausted (hcaller : ∃ site tokens, caller = .requested site tokens) :
      Settles s caller p s (.error .counterExhausted)

inductive Works (w : World) : World → Prop
  | refused {failure : SetupFailure} (hpc : w.pc = .setup) :
      Works w (w.goto (.returned (.error failure.failure)))
  | started (hpc : w.pc = .setup) :
      Works w { w with
        summary := { fixedBufferCapacity := w.limits.fixedBufferCapacity }
        engine := { w.engine with subscribed := true }
        pc := .failure }
  | looped {pc : Pc} {engine : Engine} {summary : RunSummary} {listenerReady : Bool}
      {acceptPausedAt : Option Instant} (hpc : Loop w.pc) (hpc' : Loop pc)
      (haside : Aside w.engine engine) (hsummary : SameAccount w.summary summary) :
      Works w { w with engine, summary, listenerReady, acceptPausedAt, pc }
  | listed {engine : Engine} {site : Site} (hpc : Loop w.pc) (haside : Aside w.engine engine) :
      Works w (World.scan { w with engine } site)
  | scanned {site : Site} {token : Token} {rest found : List Token}
      (hpc : w.pc = .scan site (token :: rest) found) :
      Works w (w.goto (.scan site rest (if w.requested token then found ++ [token] else found)))
  | found {site : Site} {found : List Token} (hpc : w.pc = .scan site [] found) :
      Works w (w.goto (.retiring site found))
  | chosen {site : Site} {token : Token} {rest : List Token}
      (hpc : w.pc = .retiring site (token :: rest)) :
      Works w (w.goto (.retire (.requested site rest) token))
  | cleared {pc : Pc} {site : Site} (hpc : w.pc = .retiring site []) (hpc' : Loop pc) :
      Works w (w.goto pc)
  | took {engine : Engine} {left : ℕ} {token : Token} (hpc : w.pc = .turn (left + 1))
      (hstep : w.engine.step .take = some engine) (hkeeps : w.engine.Keeps engine)
      (hphase : engine.board.phase = .polling token) :
      Works w { w with engine, pc := .polling left token }
  | polled {engine : Engine} {left : ℕ} {token : Token} (hpc : w.pc = .polling left token)
      (hstep : ∃ a, w.engine.step a = some engine) (hpolled : w.engine.Polled token engine) :
      Works w { w with engine }
  | parked {left : ℕ} {token : Token} (hpc : w.pc = .polling left token)
      (hphase : w.engine.board.phase = .idle) : Works w (w.goto (.turn left))
  | ended {left : ℕ} {token : Token} (hpc : w.pc = .polling left token)
      (hphase : w.engine.board.phase = .ended token) : Works w (w.goto (.retire (.turn left) token))
  | overflowed {left : ℕ} {token : Token} {entry : Entry} (hpc : w.pc = .polling left token)
      (hphase : w.engine.board.phase.betweenPolls = true)
      (hlive : w.engine.board.live[token]? = some entry)
      (hoverflow : entry.connection.task.progress.counterOverflow = true) :
      Works w (w.fail .counterExhausted)
  | stopped {cause : StopCause} (hpc : Loop w.pc) : Works w (w.goto (.driven (.ok cause)))
  | failed {engine : Engine} {next : ℕ} {failure : ReceiverFailure} (hpc : Loop w.pc)
      (haside : Aside w.engine engine) (hnext : w.next ≤ next) :
      Works w (World.fail { w with engine, next } failure)
  | admitted {peer : SocketAddr} {ready : Ready} {left : ℕ} {progressed : Bool}
      (hpc : w.pc = .accepting (left + 1) progressed)
      (hstep : w.engine.step (.insert w.next peer) =
        some (w.admission peer ready).engine)
      (hentry : w.entries[w.next]? = none) :
      Works w ({ w.admission peer ready with summary := { w.summary with
        accepted := w.summary.accepted + 1 } }.goto (.accepting left true))
  | uncounted {peer : SocketAddr} {ready : Ready} {left : ℕ} {progressed : Bool}
      (hpc : w.pc = .accepting (left + 1) progressed)
      (hstep : w.engine.step (.insert w.next peer) =
        some (w.admission peer ready).engine)
      (hentry : w.entries[w.next]? = none) :
      Works w ((w.admission peer ready).fail .counterExhausted)
  | retired {caller : Caller} {token : Token} {entry : Entry} {ready : Ready}
      (hpc : w.pc = .retire caller token)
      (hlive : w.engine.board.live[token]? = some entry)
      (hstep : w.engine.step (.retire token) = some
        { w.engine.released entry.await.charge with
          board := w.engine.board.without token entry ready }) :
      Works w { w with
        engine := { w.engine.released entry.await.charge with
          board := w.engine.board.without token entry ready }
        pc := .finish caller token entry.connection.task.progress }
  | finished {caller : Caller} {token : Token} {progress : Progress}
      (hpc : w.pc = .finish caller token progress) : Works w (w.stepFinish caller token progress)
  | published {caller : Caller} {cell : Option ℕ} {progress : Progress} {summary : RunSummary}
      {result : Except ReceiverFailure Unit} (hpc : w.pc = .publish caller cell progress)
      (hsettles : Settles w.summary caller progress summary result) :
      Works w ({ w.setCell cell caller.closeResult with summary }.resume caller result)
  | drove {result : DriveResult} (hpc : w.pc = .driven result) : Works w (w.stepDriven result)
  | cleaning {result : DriveResult} {failure : Option ReceiverFailure} {token : Token}
      (hpc : w.pc = .cleanup result failure)
      (hlive : w.engine.board.live[token]?.isSome = true) :
      Works w (w.goto (.retire (.cleanup result failure) token))
  | cleaned {result : DriveResult} {failure : Option ReceiverFailure}
      (hpc : w.pc = .cleanup result failure) (hempty : w.engine.board.Empty) :
      Works w (w.goto (.stopAll result failure))
  | stoppedAll {result : DriveResult} {failure : Option ReceiverFailure}
      (hpc : w.pc = .stopAll result failure) : Works w (w.stepStopAll result failure)
  | resolved {result : DriveResult} {failure : Option ReceiverFailure} {cell : ℕ}
      {cells : List ℕ} (hpc : w.pc = .publishAll result failure (cell :: cells)) :
      Works w ((w.setCell (some cell) .receiverStopped).goto (.publishAll result failure cells))
  | resolvedAll {result : DriveResult} {failure : Option ReceiverFailure}
      (hpc : w.pc = .publishAll result failure []) : Works w (w.goto (.outcome result failure))
  | returned {result : DriveResult} {failure : Option ReceiverFailure}
      (hpc : w.pc = .outcome result failure)
      (hstep : w.engine.step (.subscribe false) = some { w.engine with subscribed := false }) :
      Works w { w with
        summary := { w.summary with
          retainedOutputBytes := w.engine.used
          stoppedBy := (finalResult result failure).toOption }
        engine := { w.engine with subscribed := false }
        pc := .returned (finalResult result failure) }

end World

end Phonowire.Receiver
