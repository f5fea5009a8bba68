import Phonowire.Receiver.PollTurn

/-!
# Readiness of sockets

`Wired` is a receiver with the sockets of its connections and the readiness
events that were queued for them and that no poll has returned yet. Whatever
arrives at a registered socket queues one event, and a later poll returns it;
a poll may also return events once more, or events of nothing. An event whose
task does not wait for the kernel is discarded, and yet a task that waits for
the kernel has nothing to read or an event to come.
-/

namespace Phonowire.Receiver

/-! ## Sockets -/

inductive Ending where
  | eof
  | error (error : IoError)
  deriving DecidableEq, Repr

/-- The receiving side of a connected socket: the bytes that wait for a read, and
what follows them. -/
structure Socket where
  unread : List UInt8
  ending : Option Ending
  deriving DecidableEq, Repr

inductive Arrival where
  | bytes (bytes : List UInt8)
  | ending (ending : Ending)
  deriving DecidableEq, Repr

namespace Socket

def new : Socket := ⟨[], none⟩

/-- A read would block. -/
def Idle (s : Socket) : Prop := s.unread = [] ∧ s.ending = none

instance (s : Socket) : Decidable s.Idle :=
  inferInstanceAs (Decidable (s.unread = [] ∧ s.ending = none))

def receive (s : Socket) : Arrival → Socket
  | .bytes bytes => { s with unread := s.unread ++ bytes }
  | .ending ending => { s with ending := some ending }

/-- A nonblocking read of `s` may return `result` and leave `after`. -/
def Answers (s : Socket) (result : ReadResult) (after : Socket) : Prop :=
  match result with
  | .ok [] => s.unread = [] ∧ s.ending = some .eof ∧ after = s
  | .ok bytes =>
      bytes.length ≤ readBytes ∧ s.unread = bytes ++ after.unread ∧ after.ending = s.ending
  | .error e =>
      if e.kind = .wouldBlock then s.Idle ∧ after = s
      else if e.kind = .interrupted then after = s
      else s.ending = some (.error e)

instance (s : Socket) (result : ReadResult) (after : Socket) :
    Decidable (s.Answers result after) :=
  match result with
  | .ok [] => inferInstanceAs (Decidable (s.unread = [] ∧ s.ending = some .eof ∧ after = s))
  | .ok (byte :: bytes) => inferInstanceAs (Decidable ((byte :: bytes).length ≤ readBytes ∧
      s.unread = byte :: bytes ++ after.unread ∧ after.ending = s.ending))
  | .error e => inferInstanceAs (Decidable (if e.kind = .wouldBlock then s.Idle ∧ after = s
      else if e.kind = .interrupted then after = s else s.ending = some (.error e)))

end Socket

/-! ## Who comes to wait for the kernel -/

/-- The task under `token` waits for its socket. -/
def Ready.WaitsKernel (r : Ready) (token : Token) : Prop :=
  r.states[token]? = some (.waiting .kernel)

instance (r : Ready) (token : Token) : Decidable (r.WaitsKernel token) :=
  inferInstanceAs (Decidable (r.states[token]? = some (.waiting .kernel)))

namespace Ready

variable {r r' : Ready} {token : Token} {head : Option Token}

/-- A wake makes nobody wait. -/
theorem waitsKernel_of_woken (hstate : r'.states[token]? = r.states[token]? ∨
      r'.states[token]? = r.states[token]?.map TaskState.woken) (h : r'.WaitsKernel token) :
    r.WaitsKernel token := by
  rcases hstate with hsame | hwoken
  · exact hsame.symm.trans h
  · rw [WaitsKernel, hwoken, Option.map_eq_some_iff] at h
    obtain ⟨state, _, hstate⟩ := h
    exact absurd hstate (Board.woken_ne_waiting state .kernel)

theorem Woke.waitsKernel (hwoke : Woke head r r') (h : r'.WaitsKernel token) :
    r.WaitsKernel token := by
  refine waitsKernel_of_woken ?_ h
  rw [hwoke.states]
  split_ifs
  · exact Or.inr rfl
  · exact Or.inl rfl

theorem Woke.not_waitsKernel (hwoke : Woke (some token) r r') : ¬ r'.WaitsKernel token := by
  intro h
  rw [WaitsKernel, hwoke.states, if_pos rfl, Option.map_eq_some_iff] at h
  obtain ⟨state, _, hstate⟩ := h
  exact absurd hstate (Board.woken_ne_waiting state .kernel)

end Ready

theorem Entry.waitsFor_kernel {e : Entry} (h : e.waitsFor = some .kernel) : e.await = .read := by
  unfold waitsFor at h
  split_ifs at h with hread
  · exact hread
  · obtain ⟨k, _, hk⟩ := Option.map_eq_some_iff.mp h
    cases k <;> cases hk

theorem Board.Released.waitsKernel {r r' : Ready} {token u : Token} {request : Option Resource}
    (hreleased : Released r token request r') (h : r'.WaitsKernel u) : r.WaitsKernel u := by
  refine Ready.waitsKernel_of_woken ?_ h
  rw [hreleased.states]
  split_ifs
  · exact Or.inr rfl
  · exact Or.inl rfl

namespace Engine

variable {s s' : Engine} {token u : Token}

/-- The poll of `token` ended where it reads its socket. -/
def ParksRead (s s' : Engine) (token : Token) : Prop :=
  s.board.phase = .polling token ∧ s'.board.phase = .idle ∧
    ∃ entry, s.board.live[token]? = some entry ∧ entry.await = .read

/-- A task that waits for the kernel reads. -/
theorem await_of_waitsKernel {e : Entry} (h : s.board.Coherent)
    (hwaits : s.board.ready.WaitsKernel token) (hlive : s.board.live[token]? = some e) :
    e.await = .read := by
  have hreason := h.waiting token .kernel hwaits
  rw [hlive, Option.bind_some] at hreason
  exact Entry.waitsFor_kernel hreason

theorem Polled.waitsKernel (h : s.Polled u s') (hc : s.board.Coherent) (hc' : s'.board.Coherent)
    (hwaits : s'.board.ready.WaitsKernel token) :
    s.board.ready.WaitsKernel token ∨ s.ParksRead s' token := by
  cases h with
  | yielded hphase hlive hsame hm hwoke => exact Or.inl (hwoke.waitsKernel hwaits)
  | @parked entry e live ready reason state hphase hlive hsame hm htokens hstate hturn hstates =>
      by_cases hu : u = token
      · subst hu
        have hat : e.await = .read := await_of_waitsKernel hc' hwaits (by
          dsimp only
          rw [hm, if_pos rfl])
        rw [hsame.await_eq] at hat
        rcases hphase with ⟨hpolling, _⟩ | ⟨k, hfull⟩
        · exact Or.inr ⟨hpolling, rfl, entry, hlive, hat⟩
        · have hrequest : entry.request = some k := by
            rw [← hc.mem_requests hlive]
            exact List.mem_of_head? (hc.first u k (Or.inr hfull))
          have hwants := (request_eq_some hrequest).2
          rw [hat] at hwants
          cases hwants
      · left
        have hstates' := hstates token
        rw [if_neg hu] at hstates'
        exact hstates'.symm.trans hwaits
  | requested hphase hlive hsame hwants hhead =>
      rw [Ready.WaitsKernel, Board.registered, Ready.states_setWaiters] at hwaits
      exact Or.inl hwaits
  | @lined entry e k ready hphase hlive hsame hwants hhead htokens hstates =>
      by_cases hu : u = token
      · subst hu
        have hat : Entry.await { e with registered := true } = .read :=
          await_of_waitsKernel hc' hwaits Std.TreeMap.getElem?_insert_self
        change e.await = .read at hat
        rw [hat] at hwants
        cases hwants
      · exact Or.inl ((hstates token hu).symm.trans hwaits)
  | blocked hphase hlive hblocked => exact Or.inl hwaits
  | advanced hphase hlive hsame hstep hrequest hsent hcharge hcharge' hreleased =>
      exact Or.inl (hreleased.waitsKernel hwaits)
  | copied hphase hlive hat hstep hrequest hsent hfits hcharge hreleased =>
      exact Or.inl (hreleased.waitsKernel hwaits)
  | sent hphase hlive hat hstep hrequest hsent hcharge hconnected hslots hbuffer hstill hreleased =>
      exact Or.inl (hreleased.waitsKernel hwaits)
  | refused hphase hlive hat hstep hrequest hsent hcharge hconnected hle hreleased =>
      exact Or.inl (hreleased.waitsKernel hwaits)
  | exhausted hphase hlive hsame hat hcount hstep hsent hcharge hle hreleased =>
      exact Or.inl (hreleased.waitsKernel hwaits)

/-- Only the end of a poll at a read makes a task wait for the kernel. -/
theorem Move.waitsKernel (h : s.Move s') (hc : s.board.Coherent) (hc' : s'.board.Coherent)
    (hwaits : s'.board.ready.WaitsKernel token) :
    s.board.ready.WaitsKernel token ∨ s.ParksRead s' token := by
  cases h with
  | shared hshared =>
      have hboard : s'.board = s.board := by cases hshared <;> rfl
      rw [hboard] at hwaits
      exact Or.inl hwaits
  | woke hwoke => exact Or.inl (hwoke.waitsKernel hwaits)
  | credited hwoke => exact Or.inl (hwoke.waitsKernel hwaits)
  | inserted hfresh hdeparted hsubscribed hwaiters hstates =>
      rw [Ready.WaitsKernel, hstates] at hwaits
      split_ifs at hwaits
      · cases hwaits
      · exact Or.inl hwaits
  | took hphase hlive hhead hwaiters hstates =>
      rw [Ready.WaitsKernel, hstates] at hwaits
      split_ifs at hwaits
      · cases hwaits
      · exact Or.inl hwaits
  | polled hpolled => exact hpolled.waitsKernel hc hc' hwaits
  | @retired token' entry ready hphase hlive hle hretired =>
      have hstates := hretired.states token
      by_cases hu : token' = token
      · rw [if_pos hu] at hstates
        cases hstates.symm.trans hwaits
      · rw [if_neg hu] at hstates
        refine Or.inl (Ready.waitsKernel_of_woken ?_ hwaits)
        split_ifs at hstates
        · exact Or.inr hstates
        · exact Or.inl hstates

/-- A read that ends a poll with a wait found nothing to read. -/
theorem poll_wouldBlock {input : PollInput} (hc : s.board.Coherent)
    (hpoll : s.poll input = some s') (hparks : s.ParksRead s' token)
    (hwaits : s'.board.ready.WaitsKernel token) :
    s.operation = some .read ∧ ∃ e, input.read = .error e ∧ e.kind = .wouldBlock := by
  obtain ⟨hphase, hidle, entry, hlive, hat⟩ := hparks
  have hyielded {b b' : Board} (hboard : b.ready = s.board.ready)
      (hyield : b.yield token = some b') : ¬ b'.ready.WaitsKernel token := by
    obtain ⟨ready, inserted, henqueue, hwoke⟩ := hc.consistent.toSound.enqueue_woke token
    rw [Board.yield, hboard, henqueue] at hyield
    cases hyield
    exact hwoke.not_waitsKernel
  have hadvanced {e : Entry} {event : Event} {b' : Board}
      (hadvance : s.board.advance token e event = some b') : b'.phase ≠ .idle := by
    simp only [Board.advance, Option.bind_eq_bind, Option.bind_eq_some_iff, Option.some.injEq]
      at hadvance
    obtain ⟨connection, _, b, _, rfl⟩ := hadvance
    dsimp only
    cases connection.task.await <;> rintro ⟨⟩
  unfold poll at hpoll
  simp only [hphase, hlive, Option.bind_eq_bind, Option.bind_some] at hpoll
  rw [if_neg (by rw [hat]; rintro ⟨⟩)] at hpoll
  by_cases hspent : entry.remaining = 0
  · rw [if_pos hspent] at hpoll
    exact absurd hwaits (hyielded rfl (onBoard_eq_some hpoll))
  · rw [if_neg hspent] at hpoll
    have hread : Entry.await { entry with remaining := entry.remaining - 1 } = .read := hat
    simp only [permitted, hread] at hpoll
    refine ⟨by simp [operation, hphase, hlive, hspent, hat, Await.operation], ?_⟩
    unfold pollRead at hpoll
    cases hinput : input.read with
    | ok bytes =>
        rw [hinput] at hpoll
        exact absurd hidle (hadvanced (onBoard_eq_some hpoll))
    | error e =>
        rw [hinput] at hpoll
        dsimp only at hpoll
        split_ifs at hpoll with hblock hinterrupted
        · exact ⟨e, rfl, hblock⟩
        · exact absurd hwaits (hyielded (b := Board.setEntry _ _ _) rfl (onBoard_eq_some hpoll))
        · exact absurd hidle (hadvanced (onBoard_eq_some hpoll))

end Engine

namespace World

variable {w w' : World} {token : Token} {a : Step}

/-- The connection whose socket a step of the worker reads. -/
def reads (w : World) : Step → Option Token
  | .work _ =>
      match w.pc with
      | .polling _ token => if w.engine.operation = some .read then some token else none
      | _ => none
  | _ => none

/-- The events that a step of the worker gets from the kernel. -/
def polls (w : World) : Step → Option (List Token)
  | .work input =>
      match w.pc with
      | .block => input.polled.toOption
      | _ => none
  | _ => none

theorem not_reads_of_waitsKernel (h : w.Steady)
    (hwaits : w.engine.board.ready.WaitsKernel token) : w.reads a ≠ some token := by
  intro hreads
  cases a with
  | work input =>
      cases hpc : w.pc with
      | polling left u =>
          simp only [reads, hpc] at hreads
          split_ifs at hreads with hoperation
          obtain rfl : u = token := Option.some.inj hreads
          have hplace := h.place
          rw [hpc] at hplace
          have hturn : w.engine.board.phase.token = some u := by
            rcases hplace.1 with hidle | hturn
            · rw [Engine.operation, hidle] at hoperation
              cases hoperation
            · exact hturn
          rcases h.sound.coherent.turn u hturn with hstate | hstate
          · cases hstate.symm.trans hwaits
          · cases hstate.symm.trans hwaits
      | _ => simp [reads, hpc] at hreads
  | close id => cases hreads
  | outside o => cases hreads

/-- Only a read that would block makes a task wait for the kernel. -/
theorem waitsKernel_step (h : w.Steady) (hstep : w.step a = some w')
    (hwaits : w'.engine.board.ready.WaitsKernel token) :
    w.engine.board.ready.WaitsKernel token ∨
      ∃ input, a = .work input ∧ w.reads a = some token ∧
        ∃ e, input.poll.read = .error e ∧ e.kind = .wouldBlock := by
  have hcoherent := h.sound.coherent
  rcases (move_of_step h hstep).waitsKernel hcoherent (h.step hstep).sound.coherent hwaits with
    hbefore | hparks
  · exact Or.inl hbefore
  right
  have hphase := hparks.1
  obtain ⟨left, hpc⟩ : ∃ left, w.pc = .polling left token := by
    by_cases hpolling : ∃ left u, w.pc = .polling left u
    · obtain ⟨left, u, hpc⟩ := hpolling
      have hplace := h.place
      rw [hpc] at hplace
      obtain rfl : token = u := by simpa [hphase, Phase.token] using hplace.1
      exact ⟨left, hpc⟩
    · have hbetween := betweenPolls_of_fits h.place fun left u heq ↦ hpolling ⟨left, u, heq⟩
      rw [hphase] at hbetween
      cases hbetween
  by_cases ha : ∃ input, a = .work input
  · obtain ⟨input, rfl⟩ := ha
    obtain ⟨s, hpoll, _, _⟩ := Engine.poll_spec input.poll hcoherent h.sound.exact hphase
    have hengine : w.engine.step (.poll input.poll) = some s := hpoll
    simp only [World.step, work, hpc, stepPolling, hphase, act_eq _ hengine, id,
      Option.some.injEq] at hstep
    subst hstep
    obtain ⟨hoperation, hblock⟩ := Engine.poll_wouldBlock hcoherent hpoll hparks hwaits
    refine ⟨input, rfl, ?_, hblock⟩
    simp [reads, hpc, hoperation]
  · have hapart := apart_of_step (fun input heq ↦ ha ⟨input, heq⟩) hstep
    have hidle := hparks.2.1
    rw [hapart.engine.phase_eq, hphase] at hidle
    cases hidle

/-! ## The tokens of connections -/

/-- Connections have no token of the listener or of the control. -/
structure Numbered (w : World) : Prop where
  next : firstConnection ≤ w.next
  live : ∀ u : Token, w.engine.board.live[u]?.isSome = true → firstConnection ≤ u

theorem numbered_new (settings : Settings) (outside : List ℕ) :
    (new settings outside).Numbered :=
  ⟨le_rfl, by simp [new, Engine.new, Board.new]⟩

theorem Numbered.keeps (h : w.Numbered) (hkeeps : w.engine.Keeps w'.engine)
    (hnext : w.next ≤ w'.next) : w'.Numbered := by
  refine ⟨h.next.trans hnext, ?_⟩
  intro u hu
  rw [hkeeps.live] at hu
  exact h.live u hu

theorem Numbered.admission {peer : SocketAddr} {ready : Ready} (h : w.Numbered) :
    (w.admission peer ready).Numbered := by
  refine ⟨h.next.trans (Nat.le_succ _), ?_⟩
  intro u hu
  dsimp only [World.admission, register] at hu
  rw [Std.TreeMap.getElem?_insert_ite] at hu
  split_ifs at hu with hsame
  · exact hsame ▸ h.next
  · exact h.live u hu

theorem Numbered.works (h : w.Numbered) (hworks : w.Works w') : w'.Numbered := by
  have hrefl := Engine.Keeps.refl w.engine
  cases hworks with
  | started hpc => exact ⟨h.next, h.live⟩
  | looped hpc hpc' haside hsummary => exact h.keeps haside.1.keeps le_rfl
  | listed hpc haside => exact h.keeps haside.1.keeps le_rfl
  | took hpc hstep hkeeps hphase => exact h.keeps hkeeps le_rfl
  | polled hpc hstep hpolled => exact h.keeps hpolled.keeps.1 le_rfl
  | failed hpc haside hnext => exact h.keeps haside.1.keeps hnext
  | @admitted peer ready left progressed hpc hstep hentry =>
      have hadmission : (w.admission peer ready).Numbered := h.admission
      exact ⟨hadmission.next, hadmission.live⟩
  | @uncounted peer ready left progressed hpc hstep hentry =>
      have hadmission : (w.admission peer ready).Numbered := h.admission
      exact ⟨hadmission.next, hadmission.live⟩
  | retired hpc hlive hstep =>
      refine ⟨h.next, ?_⟩
      intro u hu
      dsimp only [Board.without] at hu
      rw [Std.TreeMap.getElem?_erase_ite] at hu
      split_ifs at hu
      · cases hu
      · exact h.live u hu
  | @published caller cell progress summary result hpc hsettles =>
      set v := { w.setCell cell caller.closeResult with summary }.resume caller result with hv
      have hsame : v.engine = w.engine ∧ v.next = w.next := by
        cases cell <;> cases caller <;> cases result <;> exact ⟨rfl, rfl⟩
      exact h.keeps (by rw [hsame.1]; exact hrefl) hsame.2.ge
  | returned hpc hstep => exact ⟨h.next, h.live⟩
  | _ => exact ⟨h.next, h.live⟩

theorem Numbered.step (h : w.Numbered) (hsteady : w.Steady) (hstep : w.step a = some w') :
    w'.Numbered := by
  by_cases ha : ∃ input, a = .work input
  · obtain ⟨input, rfl⟩ := ha
    exact h.works (works_of_work hsteady hstep)
  · have hapart := apart_of_step (fun input heq ↦ ha ⟨input, heq⟩) hstep
    exact h.keeps hapart.engine.keeps hapart.next.ge

/-! ## Events -/

/-- The worker has still to process an event of `token`. -/
def Unprocessed (w : World) (token : Token) : Prop :=
  ∃ tokens, w.pc = .events tokens ∧ token ∈ tokens

/-- An event leaves its task with a turn to come, or finds that it did not wait
for the kernel. -/
theorem Unprocessed.step (h : w.Unprocessed token) (hsteady : w.Steady) (hnumbered : w.Numbered)
    (hlive : w.engine.board.live[token]?.isSome = true) (hstep : w.step a = some w') :
    w'.Unprocessed token ∨ ¬ w'.engine.board.ready.WaitsKernel token := by
  obtain ⟨tokens, hpc, hmem⟩ := h
  by_cases ha : ∃ input, a = .work input
  · obtain ⟨input, rfl⟩ := ha
    obtain ⟨head, rest, rfl⟩ := List.exists_cons_of_ne_nil (List.ne_nil_of_mem hmem)
    have hfirst := hnumbered.live token hlive
    simp only [World.step, work, hpc, Option.some.injEq] at hstep
    subst hstep
    rcases List.mem_cons.mp hmem with rfl | hrest
    · right
      obtain ⟨ready, hready, _, hwoke⟩ :=
        hsteady.sound.coherent.consistent.ioReady_spec token
      have hengine : w.engine.step (.ioReady token) =
          some { w.engine with board := { w.engine.board with ready } } := by
        simp [Engine.step, Engine.onBoard, Board.ioReady, hready]
      have hlistener : token ≠ listenerToken := by
        rintro rfl
        exact absurd hfirst (by decide)
      have hcontrol : token ≠ controlToken := by
        rintro rfl
        exact absurd hfirst (by decide)
      rw [stepEvent, if_neg hlistener, if_neg hcontrol, act_eq _ hengine]
      intro hwaits
      have hbefore : w.engine.board.ready.states[token]? = some (.waiting .kernel) :=
        hwoke.waitsKernel hwaits
      rw [if_pos hbefore] at hwoke
      exact hwoke.not_waitsKernel hwaits
    · left
      have hpanic : (w.stepEvent head rest).pc = .events rest := by
        unfold stepEvent
        split_ifs
        · rfl
        · rfl
        · obtain ⟨s, hready, _, _⟩ := Engine.ioReady_spec head hsteady.sound.coherent
          have hengine : w.engine.step (.ioReady head) = some s := hready
          rw [act_eq _ hengine]
          rfl
      exact ⟨rest, hpanic, hrest⟩
  · have hapart := apart_of_step (fun input heq ↦ ha ⟨input, heq⟩) hstep
    exact Or.inl ⟨tokens, hapart.pc.trans hpc, hmem⟩

end World

/-! ## A receiver with its sockets -/

/-- `queued` are the events that no poll has returned yet. -/
structure Wired where
  world : World
  sockets : Token → Socket
  queued : List Token

namespace Wired

def new (settings : Settings) (outside : List ℕ) (sockets : Token → Socket) : Wired :=
  ⟨.new settings outside, sockets, []⟩

/-- The sockets after a step of the receiver. A read leaves `after`. -/
def read (m : Wired) (a : World.Step) (after : Socket) : Option (Token → Socket) :=
  match a with
  | .work input =>
      match m.world.reads a with
      | some token =>
          if (m.sockets token).Answers input.poll.read after then
            some (Function.update m.sockets token after)
          else none
      | none => some m.sockets
  | _ => some m.sockets

/-- The events after a step of the receiver. A poll returns each of them or
leaves it. -/
def poll (m : Wired) (a : World.Step) (left : List Token) : Option (List Token) :=
  match m.world.polls a with
  | some tokens => if ∀ u ∈ m.queued, u ∈ tokens ∨ u ∈ left then some left else none
  | none => some m.queued

inductive Step where
  | world (a : World.Step) (after : Socket) (left : List Token)
  | arrive (token : Token) (arrival : Arrival)

def step (m : Wired) : Step → Option Wired
  | .world a after left => do
      let world ← m.world.step a
      let sockets ← m.read a after
      let queued ← m.poll a left
      some ⟨world, sockets, queued⟩
  | .arrive token arrival =>
      some { m with
        sockets := Function.update m.sockets token ((m.sockets token).receive arrival)
        queued :=
          if m.world.engine.board.live[token]?.isSome then m.queued ++ [token] else m.queued }

/-- An event of `token` is on its way to the scheduler. -/
def Announced (m : Wired) (token : Token) : Prop :=
  token ∈ m.queued ∨ m.world.Unprocessed token

/-- A task that waits for the kernel has nothing to read or an event to come. -/
structure Attentive (m : Wired) : Prop where
  steady : m.world.Steady
  numbered : m.world.Numbered
  ready : ∀ token, m.world.engine.board.ready.WaitsKernel token →
    (m.sockets token).Idle ∨ m.Announced token

variable {m m' : Wired} {token : Token} {a : World.Step} {after : Socket} {left : List Token}

theorem step_world (hstep : m.step (.world a after left) = some m') :
    m.world.step a = some m'.world ∧ m.read a after = some m'.sockets ∧
      m.poll a left = some m'.queued := by
  simp only [step, Option.bind_eq_bind, Option.bind_eq_some_iff, Option.some.injEq] at hstep
  obtain ⟨world, hworld, sockets, hsockets, queued, hqueued, rfl⟩ := hstep
  exact ⟨hworld, hsockets, hqueued⟩

theorem read_other {sockets : Token → Socket} (h : m.read a after = some sockets)
    (htoken : m.world.reads a ≠ some token) : sockets token = m.sockets token := by
  cases a with
  | work input =>
      unfold read at h
      dsimp only at h
      cases hreads : m.world.reads (.work input) with
      | none =>
          rw [hreads, Option.some.injEq] at h
          rw [← h]
      | some u =>
          rw [hreads] at h htoken
          dsimp only at h
          split_ifs at h
          cases h
          rw [Function.update_of_ne]
          rintro rfl
          exact htoken rfl
  | close id =>
      cases h
      rfl
  | outside o =>
      cases h
      rfl

theorem read_wouldBlock {sockets : Token → Socket} {input : Input} {e : IoError}
    (h : m.read (.work input) after = some sockets)
    (htoken : m.world.reads (.work input) = some token) (hread : input.poll.read = .error e)
    (hblock : e.kind = .wouldBlock) : (sockets token).Idle := by
  unfold read at h
  dsimp only at h
  rw [htoken] at h
  dsimp only at h
  split_ifs at h with hanswers
  cases h
  unfold Socket.Answers at hanswers
  rw [hread] at hanswers
  dsimp only at hanswers
  rw [if_pos hblock] at hanswers
  rw [Function.update_self, hanswers.2]
  exact hanswers.1

/-- A queued event stays queued until a poll returns it. -/
theorem poll_announced {world : World} {queued : List Token} (hworld : m.world.step a = some world)
    (h : m.poll a left = some queued) (hmem : token ∈ m.queued) :
    token ∈ queued ∨ world.Unprocessed token := by
  unfold poll at h
  cases hpolls : m.world.polls a with
  | none =>
      rw [hpolls, Option.some.injEq] at h
      exact Or.inl (h ▸ hmem)
  | some tokens =>
      rw [hpolls] at h
      dsimp only at h
      split_ifs at h with hall
      cases h
      rcases hall token hmem with hreturned | hleft
      · right
        cases a with
        | work input =>
            cases hpc : m.world.pc with
            | block =>
                simp only [World.polls, hpc] at hpolls
                cases hpolled : input.polled with
                | error e => simp [hpolled, Except.toOption] at hpolls
                | ok events =>
                    obtain rfl : events = tokens := by
                      simpa [hpolled, Except.toOption] using hpolls
                    simp only [World.step, World.work, hpc, World.stepBlock, hpolled,
                      Option.some.injEq] at hworld
                    exact ⟨events, by rw [← hworld]; rfl, hreturned⟩
            | _ => simp [World.polls, hpc] at hpolls
        | close id => cases hpolls
        | outside o => cases hpolls
      · exact Or.inl hleft

theorem Attentive.world (h : m.Attentive) (hstep : m.step (.world a after left) = some m') :
    m'.Attentive := by
  obtain ⟨hworld, hread, hpoll⟩ := step_world hstep
  refine ⟨h.steady.step hworld, h.numbered.step h.steady hworld, ?_⟩
  intro token hwaits
  rcases World.waitsKernel_step h.steady hworld hwaits with
    hbefore | ⟨input, rfl, hreads, e, hinput, hblock⟩
  · have hlive : m.world.engine.board.live[token]?.isSome = true := by
      rw [← h.steady.sound.coherent.live_iff, Ready.Live, hbefore]
      rfl
    rcases h.ready token hbefore with hidle | hqueued | hevents
    · left
      rw [read_other hread (World.not_reads_of_waitsKernel h.steady hbefore)]
      exact hidle
    · exact Or.inr (poll_announced hworld hpoll hqueued)
    · rcases hevents.step h.steady h.numbered hlive hworld with hstill | hnot
      · exact Or.inr (Or.inr hstill)
      · exact absurd hwaits hnot
  · exact Or.inl (read_wouldBlock hread hreads hinput hblock)

theorem Attentive.arrive {u : Token} {arrival : Arrival} (h : m.Attentive)
    (hstep : m.step (.arrive u arrival) = some m') : m'.Attentive := by
  cases hstep
  refine ⟨h.steady, h.numbered, ?_⟩
  intro token hwaits
  by_cases hu : token = u
  · subst hu
    have hlive : m.world.engine.board.live[token]?.isSome = true := by
      rw [← h.steady.sound.coherent.live_iff, Ready.Live, hwaits]
      rfl
    refine Or.inr (Or.inl ?_)
    dsimp only
    rw [if_pos hlive]
    exact List.mem_append_right _ List.mem_cons_self
  · rcases h.ready token hwaits with hidle | hqueued | hevents
    · left
      dsimp only
      rw [Function.update_of_ne hu]
      exact hidle
    · refine Or.inr (Or.inl ?_)
      dsimp only
      split_ifs
      · exact List.mem_append_left _ hqueued
      · exact hqueued
    · exact Or.inr (Or.inr hevents)

theorem Attentive.step {b : Step} (h : m.Attentive) (hstep : m.step b = some m') :
    m'.Attentive := by
  cases b with
  | world a after left => exact h.world hstep
  | arrive token arrival => exact h.arrive hstep

/-- Readiness of a socket is never lost, however data arrives while tasks run,
yield, and wait for the queue or for bytes. Each live task that waits for the
kernel has nothing to read on its socket, or an event that is still to be
processed. -/
theorem readiness_kept (settings : Settings) (outside : List ℕ)
    (hfits : outside.sum ≤ settings.capacity.val) (sockets : Token → Socket) (m : Wired)
    (hreachable : Machine.Reachable step (new settings outside sockets) m) (token : Token)
    (hwaits : m.world.engine.board.ready.states[token]? = some (.waiting .kernel)) :
    (m.sockets token).Idle ∨ token ∈ m.queued ∨
      ∃ tokens, m.world.pc = .events tokens ∧ token ∈ tokens := by
  have hattentive : m.Attentive := hreachable.invariant
    ⟨World.steady_new settings hfits, World.numbered_new settings outside,
      by simp [new, World.new, Engine.new, Board.new, Ready.new, Ready.WaitsKernel]⟩
    fun _ _ _ hm hstep ↦ hm.step hstep
  exact hattentive.ready token hwaits

/-- Steps of the receiver while its sockets are idle. -/
def Step.idly (actions : List World.Step) : List Step :=
  actions.map fun a ↦ .world a .new []

/-- One call is admitted and waits for its socket when its first bytes arrive. -/
def Step.ringing : List Step :=
  idly (World.Step.admission ++ World.Step.works 25 .quiet ++ World.Step.taken ++
    World.Step.works 13 .quiet) ++ [.arrive 2 (.bytes [1, 0, 16])]

theorem readiness_kept_ringing :
    ∃ m, Machine.run step (new oneSlot [] fun _ ↦ .new) Step.ringing = some m ∧
      m.world.engine.board.ready.states[(2 : Token)]? = some (.waiting .kernel) ∧
      ¬ (m.sockets 2).Idle ∧
      (2 ∈ m.queued ∨ ∃ tokens, m.world.pc = .events tokens ∧ 2 ∈ tokens) := by
  obtain ⟨m, hm, hwaits, hunread⟩ :=
    Machine.exists_of_run step (new oneSlot [] fun _ ↦ .new) Step.ringing
      (fun m ↦ m.world.engine.board.ready.states[(2 : Token)]? = some (.waiting .kernel) ∧
        ¬ (m.sockets 2).Idle) (by decide +kernel)
  refine ⟨m, hm, hwaits, hunread, ?_⟩
  exact (readiness_kept oneSlot [] (by decide) (fun _ ↦ .new) m ⟨_, hm⟩ 2 hwaits).resolve_left
    hunread

end Wired

end Phonowire.Receiver
