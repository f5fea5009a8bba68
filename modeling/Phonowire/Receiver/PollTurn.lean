import Phonowire.Receiver.Blocking
import Phonowire.Receiver.Delivery

/-!
# One poll of a task

A task spends a step of its turn on every operation that it performs, and an
operation either completes with one answer to the task or leaves the task where
it is. So the operations of one poll are at most the steps of a turn, and the
answers of all polls together are the history of the task.
-/

namespace Phonowire.Receiver

/-- What a task spends a step of its turn on. -/
inductive Operation where
  | read
  | feed
  | typed
  | bytes
  | handoff
  deriving DecidableEq, Repr

/-- The operation at a suspension point. -/
def Await.operation : Await → Option Operation
  | .read => some .read
  | .feed _ => some .feed
  | .typed _ _ _ => some .typed
  | .copy _ _ => some .bytes
  | .send _ _ => some .handoff
  | _ => none

/-! ## What a poll leaves of the entry -/

namespace Board

variable {b b' : Board} {token : Token} {e : Entry} {event : Option Event}

/-- The task under `token` went on from `e` with the answer `event`, if there is
one; the other tasks stayed. -/
structure Proceeds (b : Board) (token : Token) (e : Entry) (event : Option Event) (b' : Board) :
    Prop where
  settings : b'.settings = b.settings
  departed : b'.departed = b.departed
  others : ∀ u : Token, token ≠ u → b'.live[u]? = b.live[u]?
  own : ∃ e', b'.live[token]? = some e' ∧ e'.remaining = e.remaining ∧
    Machine.run (Connection.step b.settings.capacity.val) e.connection event.toList =
      some e'.connection

theorem proceeds_insert {d : Entry} {b' : Board} (hsettings : b'.settings = b.settings)
    (hdeparted : b'.departed = b.departed) (hlive : b'.live = b.live.insert token d)
    (hremaining : d.remaining = e.remaining)
    (hrun : Machine.run (Connection.step b.settings.capacity.val) e.connection event.toList =
      some d.connection) : b.Proceeds token e event b' := by
  refine ⟨hsettings, hdeparted, ?_, d, ?_, hremaining, hrun⟩
  · intro u hu
    rw [hlive, Std.TreeMap.getElem?_insert_of_ne hu]
  · rw [hlive, Std.TreeMap.getElem?_insert_self]

theorem proceeds_same (hsettings : b'.settings = b.settings) (hdeparted : b'.departed = b.departed)
    (hlive : b'.live = b.live) (he : b.live[token]? = some e) : b.Proceeds token e none b' := by
  refine ⟨hsettings, hdeparted, fun u _ ↦ by rw [hlive], e, by rw [hlive, he], rfl, rfl⟩

theorem dropRequest_same {entry : Entry} (h : b.dropRequest token entry = some b') :
    b'.settings = b.settings ∧ b'.departed = b.departed ∧ b'.live = b.live := by
  unfold dropRequest at h
  cases hrequest : entry.request with
  | none =>
      rw [hrequest] at h
      cases h
      exact ⟨rfl, rfl, rfl⟩
  | some k =>
      rw [hrequest] at h
      simp only [Option.bind_eq_bind, Option.bind_eq_some_iff, Option.some.injEq] at h
      obtain ⟨ready, _, rfl⟩ := h
      exact ⟨rfl, rfl, rfl⟩

theorem park_same {reason : WaitReason} (h : b.park token reason = some b') :
    b'.settings = b.settings ∧ b'.departed = b.departed ∧ b'.live = b.live ∧ b'.phase = .idle := by
  simp only [park, Option.bind_eq_bind, Option.bind_eq_some_iff, Option.some.injEq] at h
  obtain ⟨ready, _, rfl⟩ := h
  exact ⟨rfl, rfl, rfl, rfl⟩

theorem yield_same (h : b.yield token = some b') :
    b'.settings = b.settings ∧ b'.departed = b.departed ∧ b'.live = b.live ∧ b'.phase = .idle := by
  simp only [yield, Option.bind_eq_bind, Option.bind_eq_some_iff, Option.some.injEq] at h
  obtain ⟨⟨ready, inserted⟩, _, rfl⟩ := h
  exact ⟨rfl, rfl, rfl, rfl⟩

theorem advance_proceeds {event : Event} (h : b.advance token e event = some b') :
    b.Proceeds token e (some event) b' := by
  simp only [advance, Option.bind_eq_bind, Option.bind_eq_some_iff, Option.some.injEq] at h
  obtain ⟨connection, hstep, c, hdrop, rfl⟩ := h
  obtain ⟨hsettings, hdeparted, hlive⟩ := dropRequest_same hdrop
  refine proceeds_insert (d := { e with connection, registered := false }) hsettings hdeparted
    (by rw [← hlive]) rfl ?_
  simp [Machine.run, hstep]

theorem set_park_proceeds {reason : WaitReason}
    (h : (b.setEntry token e).park token reason = some b') : b.Proceeds token e none b' := by
  obtain ⟨hsettings, hdeparted, hlive, _⟩ := park_same h
  exact proceeds_insert hsettings hdeparted hlive rfl rfl

theorem set_yield_proceeds (h : (b.setEntry token e).yield token = some b') :
    b.Proceeds token e none b' := by
  obtain ⟨hsettings, hdeparted, hlive, _⟩ := yield_same h
  exact proceeds_insert hsettings hdeparted hlive rfl rfl

theorem request_proceeds {k : Resource} (h : b.request token e k = some b') :
    b.Proceeds token e none b' := by
  simp only [request, Option.bind_eq_bind, Option.bind_eq_some_iff] at h
  obtain ⟨⟨ready, head⟩, _, h⟩ := h
  dsimp only at h
  by_cases hhead : head = true
  · rw [if_pos hhead, Option.some.injEq] at h
    subst h
    exact proceeds_insert (d := { e with registered := true }) rfl rfl rfl rfl rfl
  · rw [if_neg hhead] at h
    obtain ⟨hsettings, hdeparted, hlive, _⟩ := park_same h
    exact proceeds_insert (d := { e with registered := true }) hsettings hdeparted hlive rfl rfl

end Board

namespace Engine

variable {s s' : Engine} {token : Token} {entry : Entry}

/-- The answer of an operation that completes in front of an attempt. -/
def permittedAnswer (s : Engine) (input : PollInput) (entry : Entry) : Option Event :=
  match entry.await with
  | .read => if input.read.Final then some (.read input.now input.read) else none
  | .feed _ => some (.step input.now)
  | .typed _ _ _ => some (.step input.now)
  | .copy bytes _ => if s.capacity < bytes.length then some (.copy input.now) else none
  | .send _ _ =>
      if entry.connection.task.nextCount = none then some (.send s.channel.connected) else none
  | _ => none

def pollAnswer (s : Engine) (input : PollInput) (entry : Entry) : Option Event :=
  if entry.await = .start then some (.poll input.now)
  else if entry.remaining = 0 then none
  else s.permittedAnswer input entry

/-- The answer of an attempt, if the resource is not full. -/
def attemptAnswer (s : Engine) (now : Instant) (entry : Entry) : Option Event :=
  match entry.await with
  | .copy bytes _ =>
      match s.budget.tryReserve bytes.length with
      | some (.error (.full _ _)) => none
      | _ => some (.copy now)
  | .send record _ =>
      match s.channel.trySend record with
      | .ok _ => some (.send true)
      | .error (.full _) => none
      | .error (.disconnected _) => some (.send false)
  | _ => none

/-- The answer that the next step of a poll gives to its task. -/
def answer (s : Engine) (input : PollInput) : Option Event :=
  match s.board.phase with
  | .polling token => s.board.live[token]?.bind (s.pollAnswer input)
  | .attempting token _ => s.board.live[token]?.bind (s.attemptAnswer input.now)
  | _ => none

/-- The operation that the next step of a poll performs. -/
def operation (s : Engine) : Option Operation :=
  match s.board.phase with
  | .polling token =>
      s.board.live[token]?.bind fun entry ↦
        if entry.remaining = 0 then none else entry.await.operation
  | _ => none

theorem release_board {bytes : ℕ} (h : s.release bytes = some s') : s'.board = s.board := by
  simp only [release, Option.bind_eq_bind, Option.bind_eq_some_iff, Option.some.injEq] at h
  obtain ⟨⟨budget, notify⟩, _, rfl⟩ := h
  rfl

theorem onBoard_eq_some {board : Option Board} (h : s.onBoard board = some s') :
    board = some s'.board := by
  simp only [onBoard, Option.map_eq_some_iff] at h
  obtain ⟨b, hb, rfl⟩ := h
  exact hb

theorem pollRead_proceeds {input : PollInput} {e : Entry} (h : s.pollRead input token e = some s') :
    s.board.Proceeds token e
      (if input.read.Final then some (.read input.now input.read) else none) s'.board := by
  have hfits := input.fits
  unfold pollRead at h
  cases hread : input.read with
  | ok bytes =>
      rw [hread] at h hfits
      rw [if_pos (show ReadResult.Final (.ok bytes) from hfits)]
      exact Board.advance_proceeds (onBoard_eq_some h)
  | error error =>
      rw [hread] at h
      dsimp only at h
      split_ifs at h with hblock hinterrupted
      · rw [if_neg fun hfinal : ReadResult.Final (.error error) ↦ hfinal.1 hblock]
        exact Board.set_park_proceeds (onBoard_eq_some h)
      · rw [if_neg fun hfinal : ReadResult.Final (.error error) ↦ hfinal.2 hinterrupted]
        exact Board.set_yield_proceeds (onBoard_eq_some h)
      · rw [if_pos (show ReadResult.Final (.error error) from ⟨hblock, hinterrupted⟩)]
        exact Board.advance_proceeds (onBoard_eq_some h)

theorem pollCopy_proceeds {now : Instant} {e : Entry} {bytes : List UInt8}
    (h : s.pollCopy now token e bytes = some s') :
    s.board.Proceeds token e (if s.capacity < bytes.length then some (.copy now) else none)
      s'.board := by
  unfold pollCopy at h
  split_ifs at h ⊢ with hlarge
  · exact Board.advance_proceeds (onBoard_eq_some h)
  · exact Board.request_proceeds (onBoard_eq_some h)

theorem pollSend_proceeds {e : Entry} {record : Record} (h : s.pollSend token e record = some s') :
    s.board.Proceeds token e
      (if e.connection.task.nextCount = none then some (.send s.channel.connected) else none)
      s'.board := by
  unfold pollSend at h
  cases hcount : e.connection.task.nextCount with
  | none =>
      simp only [hcount, Option.bind_eq_bind, Option.bind_eq_some_iff] at h
      obtain ⟨t, hrelease, h⟩ := h
      have hconnected : t.channel = s.channel := by
        simp only [release, Option.bind_eq_bind, Option.bind_eq_some_iff, Option.some.injEq]
          at hrelease
        obtain ⟨⟨budget, notify⟩, _, rfl⟩ := hrelease
        rfl
      rw [if_pos rfl, ← release_board hrelease, ← hconnected]
      exact Board.advance_proceeds (onBoard_eq_some h)
  | some next =>
      rw [hcount] at h
      rw [if_neg (by simp)]
      exact Board.request_proceeds (onBoard_eq_some h)

theorem permitted_proceeds {input : PollInput} {e : Entry} (h : s.permitted input token e = some s') :
    s.board.Proceeds token e (s.permittedAnswer input e) s'.board := by
  unfold permitted at h
  unfold permittedAnswer
  cases hat : e.await with
  | read =>
      rw [hat] at h
      exact pollRead_proceeds h
  | feed bytes =>
      rw [hat] at h
      exact Board.advance_proceeds (onBoard_eq_some h)
  | typed raw offset bytes =>
      rw [hat] at h
      exact Board.advance_proceeds (onBoard_eq_some h)
  | copy bytes after =>
      rw [hat] at h
      exact pollCopy_proceeds h
  | send record after =>
      rw [hat] at h
      exact pollSend_proceeds h
  | _ =>
      rw [hat] at h
      cases h

/-- The first poll of a task runs to its first operation without a step. -/
theorem poll_proceeds {input : PollInput} (hphase : s.board.phase = .polling token)
    (hlive : s.board.live[token]? = some entry) (h : s.poll input = some s') :
    s.board.Proceeds token
      { entry with remaining := entry.remaining - if entry.await = .start then 0 else 1 }
      (s.answer input) s'.board := by
  have hanswer : s.answer input = s.pollAnswer input entry := by
    simp [answer, hphase, hlive]
  unfold poll at h
  simp only [hphase, hlive, Option.bind_eq_bind, Option.bind_some] at h
  rw [hanswer, pollAnswer]
  split_ifs at h ⊢ with hstart hremaining
  · exact Board.advance_proceeds (onBoard_eq_some h)
  · obtain ⟨hsettings, hdeparted, hboard, _⟩ := Board.yield_same (onBoard_eq_some h)
    refine Board.proceeds_same hsettings hdeparted hboard ?_
    rw [hlive, Nat.sub_eq_zero_of_le (by omega), ← hremaining]
  · exact permitted_proceeds h

theorem attempt_proceeds {now : Instant} {k : Resource} (input : PollInput)
    (hinput : input.now = now) (hphase : s.board.phase = .attempting token k)
    (hlive : s.board.live[token]? = some entry) (h : s.attempt now = some s') :
    s.board.Proceeds token entry (s.answer input) s'.board := by
  have hanswer : s.answer input = s.attemptAnswer now entry := by
    simp [answer, hphase, hlive, hinput]
  have hlog {event : Option Event} {b' : Board}
      (hproceeds : (s.board.attempted token k).Proceeds token entry event b') :
      s.board.Proceeds token entry event b' :=
    ⟨hproceeds.settings, hproceeds.departed, hproceeds.others, hproceeds.own⟩
  unfold attempt at h
  simp only [hphase, hlive, Option.bind_eq_bind, Option.bind_some] at h
  rw [hanswer]
  unfold attemptAnswer
  cases k with
  | bytes =>
      cases hat : entry.await with
      | copy bytes after =>
          simp only [hat, attemptCopy] at h
          have hbudget : budget { s with board := s.board.attempted token .bytes } = s.budget := rfl
          rw [hbudget] at h
          dsimp only
          cases hreserve : s.budget.tryReserve bytes.length with
          | none =>
              rw [hreserve] at h
              cases h
          | some result =>
              rw [hreserve] at h
              cases result with
              | ok budget => exact hlog (Board.advance_proceeds (onBoard_eq_some h))
              | error failure =>
                  cases failure with
                  | tooLarge _ _ => exact hlog (Board.advance_proceeds (onBoard_eq_some h))
                  | full _ _ =>
                      cases h
                      exact Board.proceeds_same rfl rfl rfl hlive
      | _ =>
          rw [hat] at h
          cases h
  | queue =>
      cases hat : entry.await with
      | send record after =>
          simp only [hat, attemptSend] at h
          dsimp only
          cases htry : s.channel.trySend record with
          | ok channel =>
              rw [htry] at h
              exact hlog (Board.advance_proceeds (onBoard_eq_some h))
          | error failure =>
              rw [htry] at h
              cases failure with
              | full _ =>
                  cases h
                  exact Board.proceeds_same rfl rfl rfl hlive
              | disconnected _ =>
                  simp only [Option.bind_eq_bind, Option.bind_eq_some_iff] at h
                  obtain ⟨t, hrelease, h⟩ := h
                  have hboard := release_board hrelease
                  have hproceeds := Board.advance_proceeds (onBoard_eq_some h)
                  rw [hboard] at hproceeds
                  exact hlog hproceeds
      | _ =>
          rw [hat] at h
          cases h

theorem parkFull_proceeds {k : Resource} (hphase : s.board.phase = .full token k)
    (hlive : s.board.live[token]? = some entry) (h : s.parkFull = some s') :
    s.board.Proceeds token entry none s'.board := by
  unfold parkFull at h
  rw [hphase] at h
  obtain ⟨hsettings, hdeparted, hboard, _⟩ := Board.park_same (onBoard_eq_some h)
  exact Board.proceeds_same hsettings hdeparted hboard hlive

/-- A task that was polled for the first time is still polled, now at its first
operation. -/
theorem poll_of_start {input : PollInput} (hphase : s.board.phase = .polling token)
    (hlive : s.board.live[token]? = some entry) (hstart : entry.await = .start)
    (h : s.poll input = some s') :
    s'.board.phase = .polling token ∧
      ∀ e, s'.board.live[token]? = some e → e.await ≠ .start := by
  unfold poll at h
  simp only [hphase, hlive, Option.bind_eq_bind, Option.bind_some] at h
  rw [if_pos hstart] at h
  have hboard := onBoard_eq_some h
  simp only [Board.advance, Connection.step_start input.now hstart, Option.bind_eq_bind,
    Option.bind_some, Option.bind_eq_some_iff, Option.some.injEq] at hboard
  obtain ⟨b, _, hb⟩ := hboard
  rw [← hb]
  refine ⟨rfl, ?_⟩
  intro e he
  rw [Std.TreeMap.getElem?_insert_self, Option.some.injEq] at he
  subst he
  rintro ⟨⟩

theorem poll_of_spent {input : PollInput} (hphase : s.board.phase = .polling token)
    (hlive : s.board.live[token]? = some entry) (hstart : entry.await ≠ .start)
    (hspent : entry.remaining = 0) (h : s.poll input = some s') : s'.board.phase = .idle := by
  unfold poll at h
  simp only [hphase, hlive, Option.bind_eq_bind, Option.bind_some] at h
  rw [if_neg hstart, if_pos hspent] at h
  exact (Board.yield_same (onBoard_eq_some h)).2.2.2

/-- A polled task with a step left performs an operation, unless it starts. -/
theorem operation_eq_none_iff (h : s.board.Coherent) (hphase : s.board.phase = .polling token)
    (hlive : s.board.live[token]? = some entry) :
    s.operation = none ↔ entry.remaining = 0 ∨ entry.await = .start := by
  have hoperation : s.operation =
      if entry.remaining = 0 then none else entry.await.operation := by
    simp [operation, hphase, hlive]
  have hholds := h.holds token entry hlive
  rw [hoperation]
  split_ifs with hremaining
  · simp [hremaining]
  · cases hat : entry.await with
    | returned failure =>
        have hreturned := hholds.returned.mp ⟨failure, hat⟩
        rw [hphase] at hreturned
        cases hreturned
    | panicked =>
        have hplaced := hholds.runs.placed
        have hawait : entry.connection.task.await = .panicked := hat
        simp [Task.Placed, hawait] at hplaced
    | _ => simp [Await.operation, hremaining]

theorem length_operation (h : s.board.Coherent) (hphase : s.board.phase = .polling token)
    (hlive : s.board.live[token]? = some entry) :
    s.operation.toList.length =
      if entry.remaining = 0 ∨ entry.await = .start then 0 else 1 := by
  have hnone := operation_eq_none_iff h hphase hlive
  cases hoperation : s.operation with
  | none =>
      rw [if_pos (hnone.mp hoperation)]
      rfl
  | some operation =>
      rw [if_neg]
      · rfl
      · intro hidle
        rw [hnone.mpr hidle] at hoperation
        cases hoperation

/-- Steps of the worker that the poll of `entry` still takes at most: three for
each step of the turn, and what the phase has left. -/
def pollCost (s : Engine) (entry : Entry) : ℕ :=
  match s.board.phase with
  | .polling _ => 3 * entry.remaining + 2 + if entry.await = .start then 1 else 0
  | .attempting _ _ => 3 * entry.remaining + 4
  | .full _ _ => 3 * entry.remaining + 3
  | _ => 1

theorem poll_cost {input : PollInput} {e : Entry} (hphase : s.board.phase = .polling token)
    (hlive : s.board.live[token]? = some entry) (h : s.poll input = some s')
    (he : s'.board.live[token]? = some e) : s'.pollCost e < s.pollCost entry := by
  obtain ⟨e', he', hremaining, _⟩ := (poll_proceeds hphase hlive h).own
  rw [he, Option.some.injEq] at he'
  subst he'
  unfold pollCost
  rw [hphase]
  by_cases hstart : entry.await = .start
  · obtain ⟨hphase', hnot⟩ := poll_of_start hphase hlive hstart h
    simp only [hphase', hremaining, hstart, if_neg (hnot e he), if_true]
    omega
  · rw [if_neg hstart] at hremaining
    dsimp only at hremaining ⊢
    by_cases hspent : entry.remaining = 0
    · rw [poll_of_spent hphase hlive hstart hspent h]
      dsimp only
      omega
    · split
      · split_ifs <;> omega
      all_goals omega

/-- An attempt is not followed by another. -/
theorem Polled.not_attempting {k : Resource} (h : s.Polled token s')
    (hphase : s.board.phase = .attempting token k) (u : Token) (j : Resource) :
    s'.board.phase ≠ .attempting u j := by
  have hbehind (a : Await) : Phase.behind token a ≠ .attempting u j := by
    cases a <;> simp [Phase.behind]
  cases h with
  | blocked => rintro ⟨⟩
  | copied => exact hbehind _
  | sent => exact hbehind _
  | refused => exact hbehind _
  | yielded hpolling => rw [hphase] at hpolling; cases hpolling
  | parked hpolling => rintro ⟨⟩
  | requested hpolling => rw [hphase] at hpolling; cases hpolling
  | lined hpolling => rw [hphase] at hpolling; cases hpolling
  | advanced hpolling => rw [hphase] at hpolling; cases hpolling
  | exhausted hpolling => rw [hphase] at hpolling; cases hpolling

theorem attempt_cost {k : Resource} {e : Entry} (input : PollInput)
    (hphase : s.board.phase = .attempting token k) (hlive : s.board.live[token]? = some entry)
    (h : s.attempt input.now = some s') (hpolled : s.Polled token s')
    (he : s'.board.live[token]? = some e) : s'.pollCost e < s.pollCost entry := by
  obtain ⟨e', he', hremaining, _⟩ := (attempt_proceeds input rfl hphase hlive h).own
  rw [he, Option.some.injEq] at he'
  subst he'
  unfold pollCost
  rw [hphase, hremaining]
  dsimp only
  cases hphase' : s'.board.phase with
  | attempting u j => exact absurd hphase' (hpolled.not_attempting hphase u j)
  | polling u =>
      dsimp only
      split_ifs <;> omega
  | _ =>
      dsimp only
      omega

theorem parkFull_cost {k : Resource} {e : Entry} (hphase : s.board.phase = .full token k)
    (h : s.parkFull = some s') : s'.pollCost e < s.pollCost entry := by
  unfold parkFull at h
  rw [hphase] at h
  unfold pollCost
  rw [hphase, (Board.park_same (onBoard_eq_some h)).2.2.2]
  dsimp only
  omega

end Engine

/-! ## One step of a world -/

namespace World

variable {w w' : World} {token u : Token} {left : ℕ} {entry : Entry}

/-- The operation that a step of the worker performs for the task it polls. -/
def performs (w : World) : Step → List Operation
  | .work _ =>
      match w.pc with
      | .polling _ _ => w.engine.operation.toList
      | _ => []
  | _ => []

/-- The operations performed along a run. -/
def performed (w : World) (actions : List Step) : List Operation :=
  Machine.trace World.step performs w actions

/-- The answers that a step gives to the task under `token`. -/
def answers (token : Token) (w : World) : Step → List Event
  | .work input =>
      match w.pc with
      | .polling _ u => if u = token then (w.engine.answer input.poll).toList else []
      | _ => []
  | _ => []

/-- The answers to one task along a run. -/
def answered (token : Token) (w : World) (actions : List Step) : List Event :=
  Machine.trace World.step (answers token) w actions

theorem performs_of_polling (hpc : w.pc = .polling left token) (input : Input) :
    w.performs (.work input) = w.engine.operation.toList := by
  simp [performs, hpc]

theorem afterPoll_leaves (w : World) (left : ℕ) (token : Token) (ended : Bool) :
    (w.afterPoll left token ended).engine = w.engine ∧
      (w.afterPoll left token ended).pc ≠ .polling left token := by
  unfold afterPoll
  split
  · exact ⟨rfl, nofun⟩
  · split_ifs
    · exact ⟨rfl, nofun⟩
    · exact ⟨rfl, nofun⟩
    · split <;> exact ⟨rfl, nofun⟩

/-- A step inside a poll goes on with the polled task and spends one step of its
turn on each operation; a step behind it leaves the task alone. -/
theorem polling_step (h : w.Steady) (hpc : w.pc = .polling left token)
    (hlive : w.engine.board.live[token]? = some entry) {input : Input}
    (hstep : w.step (.work input) = some w') :
    (w.engine.board.phase.betweenPolls = true ∧ w'.engine = w.engine ∧
      w'.pc ≠ .polling left token ∧
      w.engine.operation = none ∧ w.engine.answer input.poll = none) ∨
    (w'.pc = w.pc ∧ w.engine.operation.toList.length ≤ entry.remaining ∧
      (∀ e, w'.engine.board.live[token]? = some e →
        w'.engine.pollCost e < w.engine.pollCost entry) ∧
      w.engine.board.Proceeds token
        { entry with remaining := entry.remaining - w.engine.operation.toList.length }
        (w.engine.answer input.poll) w'.engine.board ∧
      (w.engine.operation = none → w.engine.board.phase = .polling token →
        entry.remaining ≠ 0 → w'.engine.board.phase = .polling token)) := by
  have hcoherent := h.sound.coherent
  have hplace := h.place
  rw [hpc] at hplace
  have hwork : w' = w.stepPolling input left token := by
    simp only [World.step, World.work, hpc, Option.some.injEq] at hstep
    exact hstep.symm
  unfold stepPolling at hwork
  cases hphase : w.engine.board.phase with
  | idle =>
      rw [hphase] at hwork
      subst hwork
      obtain ⟨hengine, hpc'⟩ := afterPoll_leaves w left token false
      exact Or.inl ⟨rfl, hengine, hpc', by simp [Engine.operation, hphase],
        by simp [Engine.answer, hphase]⟩
  | ended u =>
      obtain rfl : u = token := by simpa [hphase, Phase.token] using hplace.1
      rw [hphase] at hwork
      subst hwork
      obtain ⟨hengine, hpc'⟩ := afterPoll_leaves w left u true
      exact Or.inl ⟨rfl, hengine, hpc', by simp [Engine.operation, hphase],
        by simp [Engine.answer, hphase]⟩
  | polling u =>
      obtain rfl : u = token := by simpa [hphase, Phase.token] using hplace.1
      obtain ⟨s, hpoll, _, _⟩ := Engine.poll_spec input.poll hcoherent h.sound.exact hphase
      have hengine : w.engine.step (.poll input.poll) = some s := hpoll
      rw [hphase] at hwork
      dsimp only at hwork
      rw [act_eq _ hengine] at hwork
      subst hwork
      have hlength := Engine.length_operation hcoherent hphase hlive
      have hproceeds := Engine.poll_proceeds hphase hlive hpoll
      refine Or.inr ⟨rfl, ?_, fun e ↦ Engine.poll_cost hphase hlive hpoll, ?_, ?_⟩
      · rw [hlength]
        split_ifs <;> omega
      · have hspent : entry.remaining - w.engine.operation.toList.length =
            entry.remaining - if entry.await = .start then 0 else 1 := by
          rw [hlength]
          split_ifs <;> grind
        rw [hspent]
        exact hproceeds
      · intro hnone _ hremaining
        rcases (Engine.operation_eq_none_iff hcoherent hphase hlive).mp hnone with hzero | hstart
        · exact absurd hzero hremaining
        · exact (Engine.poll_of_start hphase hlive hstart hpoll).1
  | attempting u k =>
      obtain rfl : u = token := by simpa [hphase, Phase.token] using hplace.1
      obtain ⟨s, hattempt, hpolled, _⟩ := Engine.attempt_spec input.now hcoherent h.sound.exact hphase
      have hengine : w.engine.step (.attempt input.now) = some s := hattempt
      rw [hphase] at hwork
      dsimp only at hwork
      rw [act_eq _ hengine] at hwork
      subst hwork
      have hoperation : w.engine.operation = none := by simp [Engine.operation, hphase]
      rw [hoperation]
      exact Or.inr ⟨rfl, Nat.zero_le _,
        fun e ↦ Engine.attempt_cost input.poll hphase hlive hattempt hpolled,
        Engine.attempt_proceeds input.poll rfl hphase hlive hattempt,
        (by rintro _ ⟨⟩)⟩
  | full u k =>
      obtain rfl : u = token := by simpa [hphase, Phase.token] using hplace.1
      obtain ⟨s, hpark, _, _⟩ := Engine.parkFull_spec hcoherent hphase
      have hengine : w.engine.step .parkFull = some s := hpark
      rw [hphase] at hwork
      dsimp only at hwork
      rw [act_eq _ hengine] at hwork
      subst hwork
      have hoperation : w.engine.operation = none := by simp [Engine.operation, hphase]
      have hanswer : w.engine.answer input.poll = none := by simp [Engine.answer, hphase]
      rw [hoperation, hanswer]
      exact Or.inr ⟨rfl, Nat.zero_le _, fun e _ ↦ Engine.parkFull_cost hphase hpark,
        Engine.parkFull_proceeds hphase hlive hpark, (by rintro _ ⟨⟩)⟩

/-- What other threads leave to the worker. -/
structure Apart (w w' : World) : Prop where
  engine : w.engine.Undisturbed w'.engine
  pc : w'.pc = w.pc
  next : w'.next = w.next
  listenerReady : w'.listenerReady = w.listenerReady
  acceptPausedAt : w'.acceptPausedAt = w.acceptPausedAt
  summary : w'.summary = w.summary

theorem apart_of_step {a : Step} (ha : ∀ input, a ≠ .work input) (hstep : w.step a = some w') :
    w.Apart w' := by
  cases a with
  | work input => exact absurd rfl (ha input)
  | close id =>
      cases hstep
      have hrefl := Engine.undisturbed_of_board (s := w.engine) rfl rfl rfl
      unfold World.close
      split_ifs with hinstance hstopping
      · exact ⟨hrefl, rfl, rfl, rfl, rfl, rfl⟩
      · exact ⟨hrefl, rfl, rfl, rfl, rfl, rfl⟩
      · cases w.entries[id.sequence]? with
        | none => exact ⟨hrefl, rfl, rfl, rfl, rfl, rfl⟩
        | some entry =>
            exact ⟨Engine.undisturbed_of_board rfl rfl rfl, rfl, rfl, rfl, rfl, rfl⟩
  | outside o =>
      simp only [World.step, Option.map_eq_some_iff] at hstep
      obtain ⟨engine, hengine, rfl⟩ := hstep
      exact ⟨Engine.outside_undisturbed hengine, rfl, rfl, rfl, rfl, rfl⟩

theorem Apart.live_eq (h : w.Apart w') : w'.engine.board.live = w.engine.board.live := by
  obtain ⟨ready, hboard⟩ := h.engine.board
  rw [hboard]

theorem Apart.connection_eq (h : w.Apart w') (token : Token) :
    w'.connection token = w.connection token := by
  obtain ⟨ready, hboard⟩ := h.engine.board
  unfold connection
  rw [hboard]
  rfl

/-! ## A whole poll -/

/-- Inside the poll of `token` and behind it, when the turn began with `steps`
steps and `out` has been performed. -/
structure InTurn (left : ℕ) (token : Token) (steps : ℕ) (w : World) (out : List Operation) :
    Prop where
  steady : w.Steady
  inside : w.pc = .polling left token → ∃ entry, w.engine.board.live[token]? = some entry ∧
    out.length + entry.remaining = steps ∧ (out = [] → w.engine.board.phase = .polling token)
  behind : w.pc ≠ .polling left token → out ≠ [] ∧ out.length ≤ steps

theorem InTurn.step {steps : ℕ} {out : List Operation} {a : Step}
    (h : InTurn left token steps w out) (hsteps : 0 < steps) (hpc : w.pc = .polling left token)
    (hstep : w.step a = some w') : InTurn left token steps w' (out ++ w.performs a) := by
  obtain ⟨entry, hlive, hcount, hfirst⟩ := h.inside hpc
  by_cases ha : ∃ input, a = .work input
  · obtain ⟨input, rfl⟩ := ha
    rw [performs_of_polling hpc]
    rcases polling_step h.steady hpc hlive hstep with
      ⟨hbetween, hengine, _, hnone, _⟩ | ⟨hpc', hle, _, hproceeds, hstart⟩
    · rw [hnone, Option.toList_none, List.append_nil]
      refine ⟨h.steady.step hstep, ?_, ?_⟩
      · rw [hengine]
        exact fun _ ↦ ⟨entry, hlive, hcount, hfirst⟩
      · refine fun _ ↦ ⟨?_, by omega⟩
        intro hempty
        rw [hfirst hempty] at hbetween
        cases hbetween
    · obtain ⟨e, he, hremaining, _⟩ := hproceeds.own
      refine ⟨h.steady.step hstep, fun _ ↦ ⟨e, he, ?_, ?_⟩, fun hne ↦ absurd (hpc'.trans hpc) hne⟩
      · rw [List.length_append, hremaining]
        dsimp only
        omega
      · intro hempty
        obtain ⟨hout, hoperation⟩ := List.append_eq_nil_iff.mp hempty
        rw [hout, List.length_nil] at hcount
        exact hstart (Option.toList_eq_nil_iff.mp hoperation) (hfirst hout) (by omega)
  · have hapart := apart_of_step (fun input heq ↦ ha ⟨input, heq⟩) hstep
    have hnone : w.performs a = [] := by
      cases a with
      | work input => exact absurd ⟨input, rfl⟩ ha
      | _ => rfl
    rw [hnone, List.append_nil]
    refine ⟨h.steady.step hstep, fun _ ↦ ⟨entry, ?_, hcount, ?_⟩,
      fun hne ↦ absurd (hapart.pc.trans hpc) hne⟩
    · rw [hapart.live_eq, hlive]
    · rw [hapart.engine.phase_eq]
      exact hfirst

/-- A turn begins with all its steps. -/
theorem inTurn_of_take {input : Input} (h : w.Steady) (hturn : w.pc = .turn (left + 1))
    (hstep : w.step (.work input) = some w') (hpc : w'.pc = .polling left token) :
    InTurn left token w.limits.turnSteps.val w' [] := by
  have hphase : w.engine.board.phase = .idle := by
    have hplace := h.place
    rw [hturn] at hplace
    exact hplace
  refine ⟨h.step hstep, fun _ ↦ ?_, fun hne ↦ absurd hpc hne⟩
  simp only [World.step, work, hturn] at hstep
  split_ifs at hstep with hstop
  · cases hstep
    cases hpc
  · cases hstep
    have hrun : w.engine.step .take = w.engine.onBoard w.engine.board.take := if_pos hphase
    unfold stepTurn at hpc ⊢
    rcases h.sound.coherent.take_spec hphase with
      ⟨_, htake⟩ | ⟨u, entry, ready, _, hlive, htake, _, _, _⟩
    · have hengine : w.engine.step .take = some w.engine := by
        rw [hrun, htake]
        rfl
      rw [act_eq _ hengine] at hpc
      dsimp only at hpc
      rw [hphase] at hpc
      cases hpc
    · rw [htake] at hrun
      simp only [Engine.onBoard, Option.map_some] at hrun
      rw [act_eq _ hrun] at hpc ⊢
      dsimp only at hpc ⊢
      cases hpc
      exact ⟨_, Std.TreeMap.getElem?_insert_self, Nat.zero_add _, fun _ ↦ rfl⟩

/-- The operations of a poll that began with all its steps. -/
theorem InTurn.run {steps : ℕ} {actions : List Step} (h : InTurn left token steps w [])
    (hsteps : 0 < steps)
    (hrun : Machine.run (Machine.guarded (fun v ↦ v.pc = .polling left token) World.step) w actions =
      some w') :
    (w.performed actions).length ≤ steps ∧
      (w'.pc ≠ .polling left token ∨ w'.engine.board.phase.betweenPolls = true →
        w.performed actions ≠ []) := by
  have hend : InTurn left token steps w' (w.performed actions) := by
    unfold performed
    rw [← Machine.trace_guarded hrun]
    refine Machine.run_trace_invariant hrun h ?_
    intro v out a v' hv hguarded
    obtain ⟨hinside, hstep⟩ := Machine.guarded_eq_some_iff.mp hguarded
    exact hv.step hsteps hinside hstep
  by_cases hinside : w'.pc = .polling left token
  · obtain ⟨entry, _, hcount, hfirst⟩ := hend.inside hinside
    refine ⟨by omega, ?_⟩
    rintro (hne | hbetween) hempty
    · exact hne hinside
    · rw [hfirst hempty] at hbetween
      cases hbetween
  · exact ⟨(hend.behind hinside).2, fun _ ↦ (hend.behind hinside).1⟩

/-- Steps of the worker that are left of this poll at most. -/
def pollLeft (left : ℕ) (token : Token) (w : World) : ℕ :=
  if w.pc = .polling left token then w.engine.board.live[token]?.elim 0 w.engine.pollCost else 0

theorem pollLeft_step {a : Step} (h : w.Steady) (hpc : w.pc = .polling left token)
    (hstep : w.step a = some w') :
    (if a.isWork then 1 else 0) + pollLeft left token w' ≤ pollLeft left token w := by
  have hplace := h.place
  rw [hpc] at hplace
  obtain ⟨entry, hlive⟩ := Option.isSome_iff_exists.mp hplace.2
  have hbefore : pollLeft left token w = w.engine.pollCost entry := by
    rw [pollLeft, if_pos hpc, hlive]
    rfl
  rw [hbefore]
  by_cases ha : ∃ input, a = .work input
  · obtain ⟨input, rfl⟩ := ha
    rw [Step.isWork, if_pos rfl, pollLeft]
    rcases polling_step h hpc hlive hstep with
      ⟨hbetween, _, hpc', _⟩ | ⟨hpc', _, hcost, hproceeds, _⟩
    · rw [if_neg hpc']
      unfold Engine.pollCost
      cases hphase : w.engine.board.phase with
      | idle => exact le_rfl
      | ended u => exact le_rfl
      | _ =>
          rw [hphase] at hbetween
          cases hbetween
    · obtain ⟨e, he, _⟩ := hproceeds.own
      have hlt := hcost e he
      rw [if_pos (hpc'.trans hpc), he, Option.elim_some]
      omega
  · have hapart := apart_of_step (fun input heq ↦ ha ⟨input, heq⟩) hstep
    have hnot : a.isWork = false := by
      cases a with
      | work input => exact absurd ⟨input, rfl⟩ ha
      | _ => rfl
    have hcost (e : Entry) : w'.engine.pollCost e = w.engine.pollCost e := by
      unfold Engine.pollCost
      rw [hapart.engine.phase_eq]
    rw [hnot, pollLeft, if_pos (hapart.pc.trans hpc), hapart.live_eq, hlive, Option.elim_some, hcost]
    exact (Nat.zero_add _).le

theorem InTurn.pollLeft_le {steps : ℕ} (h : InTurn left token steps w [])
    (hpc : w.pc = .polling left token) : pollLeft left token w ≤ 3 * steps + 3 := by
  obtain ⟨entry, hlive, hcount, hphase⟩ := h.inside hpc
  rw [pollLeft, if_pos hpc, hlive, Option.elim_some, Engine.pollCost, hphase rfl]
  rw [List.length_nil] at hcount
  dsimp only
  split_ifs <;> omega

/-! ## All polls of a task -/

theorem betweenPolls_of_idle {b : Board} (h : b.phase = .idle) : b.phase.betweenPolls = true := by
  rw [h]
  rfl

theorem betweenPolls_of_caller {b : Board} {caller : Caller} (h : caller.Fits b) :
    b.phase.betweenPolls = true := by
  cases caller with
  | turn left => exact betweenPolls_of_idle h
  | requested site tokens => exact betweenPolls_of_idle h.1
  | cleanup result failure => exact h

/-- Outside the polls of the loop no task is polled. -/
theorem betweenPolls_of_fits {b : Board} {pc : Pc} (h : pc.Fits b)
    (hpc : ∀ left token, pc ≠ .polling left token) : b.phase.betweenPolls = true := by
  cases pc with
  | polling left token => exact absurd rfl (hpc left token)
  | setup => exact betweenPolls_of_idle h.1
  | scan site rest found => exact betweenPolls_of_idle h.1
  | retiring site tokens => exact betweenPolls_of_idle h.1
  | retire caller token =>
      cases caller with
      | turn left =>
          rw [h.1]
          rfl
      | requested site tokens => exact betweenPolls_of_idle h.1
      | cleanup result failure => exact h.1
  | finish caller token progress => exact betweenPolls_of_caller h.1
  | publish caller cell progress => exact betweenPolls_of_caller h.1
  | driven result => exact h
  | cleanup result failure => exact h
  | stopAll result failure => exact betweenPolls_of_idle h.1
  | publishAll result failure cells => exact betweenPolls_of_idle h.1
  | outcome result failure => exact betweenPolls_of_idle h.1
  | returned result => exact betweenPolls_of_idle h.1
  | panicked => exact h.elim
  | _ => exact betweenPolls_of_idle h

end World

namespace Engine

variable {s s' : Engine} {token u : Token} {c : Connection}

theorem Polled.not_betweenPolls (h : s.Polled token s') : s.board.phase.betweenPolls = false := by
  cases h with
  | parked hphase => rcases hphase with ⟨hphase, _⟩ | ⟨k, hphase⟩ <;> rw [hphase] <;> rfl
  | yielded hphase => rw [hphase]; rfl
  | requested hphase => rw [hphase]; rfl
  | lined hphase => rw [hphase]; rfl
  | blocked hphase => rw [hphase]; rfl
  | advanced hphase => rw [hphase]; rfl
  | copied hphase => rw [hphase]; rfl
  | sent hphase => rw [hphase]; rfl
  | refused hphase => rw [hphase]; rfl
  | exhausted hphase => rw [hphase]; rfl

/-- Between two polls no connection changes. -/
theorem Move.connection_eq (h : s.Move s') (hphase : s.board.phase.betweenPolls = true)
    (hc : s.board.connection u = some c) : s'.board.connection u = some c := by
  cases h with
  | shared hshared =>
      have hboard : s'.board = s.board := by cases hshared <;> rfl
      rw [hboard, hc]
  | woke hwoke => exact hc
  | credited hwoke => exact hc
  | @inserted token peer ready hfresh hdeparted hsubscribed hwaiters hstates =>
      unfold Board.connection at hc ⊢
      dsimp only
      rw [Std.TreeMap.getElem?_insert_ite]
      split_ifs with hu
      · subst hu
        rw [hfresh, hdeparted] at hc
        cases hc
      · exact hc
  | @took token entry ready hphase hlive hhead hwaiters hstates =>
      unfold Board.connection at hc ⊢
      dsimp only
      rw [Std.TreeMap.getElem?_insert_ite]
      split_ifs with hu
      · subst hu
        rw [hlive] at hc
        exact hc
      · exact hc
  | polled hpolled =>
      rw [hpolled.not_betweenPolls] at hphase
      cases hphase
  | @retired token entry ready hphase hlive hle hretired =>
      unfold Board.connection at hc ⊢
      dsimp only [Board.without]
      rw [Std.TreeMap.getElem?_erase_ite, Std.TreeMap.getElem?_insert_ite]
      split_ifs with hu
      · subst hu
        rw [hlive] at hc
        exact hc
      · exact hc

end Engine

namespace World

variable {w w' : World} {token u : Token} {c : Connection} {settings : Settings}
  {outside : List ℕ}

/-- A step applies to a connection the answers that it gives to its task, and
changes nothing else of it. -/
theorem answered_step {a : Step} (h : w.Steady) (hc : w.connection u = some c)
    (hstep : w.step a = some w') :
    ∃ c', w'.connection u = some c' ∧
      Machine.run (Connection.step w.engine.capacity) c (w.answers u a) = some c' := by
  by_cases ha : ∃ input, a = .work input
  · obtain ⟨input, rfl⟩ := ha
    by_cases hpolling : ∃ left token, w.pc = .polling left token
    · obtain ⟨left, token, hpc⟩ := hpolling
      have hplace := h.place
      rw [hpc] at hplace
      obtain ⟨entry, hlive⟩ := Option.isSome_iff_exists.mp hplace.2
      have hanswers : w.answers u (.work input) =
          if token = u then (w.engine.answer input.poll).toList else [] := by
        simp [answers, hpc]
      rw [hanswers]
      rcases polling_step h hpc hlive hstep with
        ⟨_, hengine, _, _, hanswer⟩ | ⟨_, _, _, hproceeds, _⟩
      · refine ⟨c, ?_, by simp [hanswer]⟩
        unfold connection
        rw [hengine]
        exact hc
      · split_ifs with hu
        · subst hu
          obtain ⟨e, he, _, hrun⟩ := hproceeds.own
          have hown : w.connection token = some entry.connection := Board.connection_of_live hlive
          rw [hown, Option.some.injEq] at hc
          subst hc
          exact ⟨e.connection, Board.connection_of_live he, hrun⟩
        · refine ⟨c, ?_, rfl⟩
          unfold connection Board.connection
          rw [hproceeds.others u hu, hproceeds.departed]
          exact hc
    · have hplace := betweenPolls_of_fits h.place fun left token heq ↦ hpolling ⟨left, token, heq⟩
      have hnone : w.answers u (.work input) = [] := by
        unfold answers
        dsimp only
        split
        · next left token hpc => exact absurd ⟨left, token, hpc⟩ hpolling
        · rfl
      rw [hnone]
      exact ⟨c, (move_of_step h hstep).connection_eq hplace hc, rfl⟩
  · have hapart := apart_of_step (fun input heq ↦ ha ⟨input, heq⟩) hstep
    have hnone : w.answers u a = [] := by
      cases a with
      | work input => exact absurd ⟨input, rfl⟩ ha
      | _ => rfl
    rw [hnone]
    exact ⟨c, (hapart.connection_eq u).trans hc, rfl⟩

/-- The answers along a run are the history of the task. -/
theorem answered_run {actions : List Step} (h : w.Steady) (hc : w.connection u = some c)
    (hrun : Machine.run World.step w actions = some w') :
    ∃ c', w'.connection u = some c' ∧
      Machine.run (Connection.step w.engine.capacity) c (answered u w actions) = some c' := by
  refine (Machine.run_trace_invariant (I := fun v out ↦ v.Steady ∧
    v.engine.capacity = w.engine.capacity ∧ ∃ c', v.connection u = some c' ∧
      Machine.run (Connection.step w.engine.capacity) c out = some c') hrun
    ⟨h, rfl, c, hc, rfl⟩ ?_).2.2
  rintro v out a v' ⟨hv, hcapacity, d, hd, hout⟩ hstep
  obtain ⟨d', hd', hanswers⟩ := answered_step hv hd hstep
  refine ⟨hv.step hstep, ?_, d', hd', ?_⟩
  · unfold Engine.capacity at hcapacity ⊢
    rw [(move_of_step hv hstep).settings_eq, hcapacity]
  · rw [Machine.run_append, hout, Option.bind_some, ← hcapacity]
    exact hanswers

/-- A task whose poll returned pending: it has a turn to come, or it waits for a
named reason, and for a resource in its order. -/
structure Suspended (w : World) (token : Token) : Prop where
  verified : w.engine.board.ready.verifyPending token = some ()
  resumable : token ∈ w.engine.board.ready.queue.tokens ∨
    ∃ reason, w.engine.board.ready.states[token]? = some (.waiting reason) ∧
      ∀ k : Resource, k.reason = reason → token ∈ (w.engine.board.ready.waiters k).tokens

theorem Steady.suspended (h : w.Steady) {left : ℕ} (hpc : w.pc = .polling left token)
    (hphase : w.engine.board.phase = .idle) : w.Suspended token := by
  have hcoherent := h.sound.coherent
  have hplace := h.place
  rw [hpc] at hplace
  have hnot : w.engine.board.ready.states[token]? ≠ some .running := by
    intro hrunning
    have hturn := hcoherent.running token hrunning
    rw [hphase] at hturn
    cases hturn
  refine ⟨if_neg hnot, ?_⟩
  obtain ⟨state, hstate⟩ := Option.isSome_iff_exists.mp (hcoherent.live_iff.mpr hplace.2)
  cases state with
  | running => exact absurd hstate hnot
  | notified => exact Or.inl ((hcoherent.consistent.queue token).mpr (Or.inr hstate))
  | queued => exact Or.inl ((hcoherent.consistent.queue token).mpr (Or.inl hstate))
  | waiting reason =>
      refine Or.inr ⟨reason, hstate, ?_⟩
      rintro k rfl
      exact hcoherent.mem_of_waiting hstate

/-- Every poll of a task is bounded and strands nobody. A poll that a turn
starts takes a bounded number of steps of the worker, and performs at least one
operation and at most as many as the turn has steps, however the environment
interleaves; a task that it leaves pending is suspended. And along every run a
task goes on from where it was: its connection is what it was, stepped by
exactly the answers that its operations got. -/
theorem turn_bounded (settings : Settings) (outside : List ℕ)
    (hfits : outside.sum ≤ settings.capacity.val) (w : World)
    (hreachable : Machine.Reachable World.step (new settings outside) w) :
    (∀ left input token start actions w', w.pc = .turn (left + 1) →
      w.step (.work input) = some start → start.pc = .polling left token →
      Machine.run (Machine.guarded (fun v ↦ v.pc = .polling left token) World.step) start actions =
        some w' →
      (start.performed actions).length ≤ settings.limits.turnSteps.val ∧
      (w'.pc ≠ .polling left token ∨ w'.engine.board.phase.betweenPolls = true →
        start.performed actions ≠ []) ∧
      actions.countP Step.isWork ≤ 3 * settings.limits.turnSteps.val + 3) ∧
    (∀ left token, w.pc = .polling left token → w.engine.board.phase = .idle →
      w.Suspended token) ∧
    (∀ token c actions w', w.connection token = some c →
      Machine.run World.step w actions = some w' →
      ∃ c', w'.connection token = some c' ∧ w'.accepted token = c'.sent ∧
        Machine.run (Connection.step settings.capacity.val) c (answered token w actions) =
          some c') := by
  have hsteady := steady_of_reachable hfits hreachable
  have hsettings := settings_of_reachable hfits hreachable
  refine ⟨?_, fun left token ↦ hsteady.suspended, ?_⟩
  · intro left input token start actions w' hturn hstep hpc hrun
    have hbegin := inTurn_of_take hsteady hturn hstep hpc
    have hturnSteps : 0 < w.limits.turnSteps.val := w.limits.turnSteps.pos
    have hlimits : w.limits.turnSteps.val = settings.limits.turnSteps.val := by
      unfold limits
      rw [hsettings]
    rw [← hlimits]
    obtain ⟨hperformed, hany⟩ := hbegin.run hturnSteps hrun
    refine ⟨hperformed, hany, ?_⟩
    have hcost := (Machine.run_measure (I := Steady) (m := pollLeft left token)
      (p := Step.isWork) hrun hbegin.steady fun u a v hu hguarded ↦
        have hinside := Machine.guarded_eq_some_iff.mp hguarded
        ⟨hu.step hinside.2, pollLeft_step hu hinside.1 hinside.2⟩).2
    have hall := hbegin.pollLeft_le hpc
    omega
  · intro token c actions w' hc hrun
    obtain ⟨c', hc', hanswered⟩ := answered_run hsteady hc hrun
    have hend := steady_of_reachable hfits (hreachable.trans ⟨actions, hrun⟩)
    refine ⟨c', hc', accepted_eq hend hc', ?_⟩
    unfold Engine.capacity at hanswered
    rw [hsettings] at hanswered
    exact hanswered

theorem turn_bounded_first_poll :
    ∃ w start w', Machine.run World.step (new oneSlot []) (Step.admission ++ Step.works 10 .quiet) =
        some w ∧ w.step (.work .quiet) = some start ∧
      Machine.run World.step start (Step.works 4 .quiet) = some w' ∧
      start.performed (Step.works 4 .quiet) = [.handoff, .read] ∧
      (start.performed (Step.works 4 .quiet)).length ≤ 8 ∧ w'.Suspended 2 ∧
      ∃ c', w'.connection 2 = some c' ∧ w'.accepted 2 = c'.sent := by
  obtain ⟨w, hw, hturn, hconnection, hpoll⟩ :=
    Machine.exists_of_run World.step (new oneSlot []) (Step.admission ++ Step.works 10 .quiet)
      (fun w ↦ w.pc = .turn 128 ∧ (w.connection 2).isSome = true ∧
        ((w.step (.work .quiet)).any fun start ↦ decide (start.pc = .polling 127 2 ∧
          start.performed (Step.works 4 .quiet) = [.handoff, .read]) &&
          (Machine.run (Machine.guarded (fun v ↦ v.pc = .polling 127 2) World.step) start
            (Step.works 4 .quiet)).any fun w' ↦
              decide (w'.pc = .polling 127 2 ∧ w'.engine.board.phase = .idle)) = true)
      (by decide +kernel)
  simp only [Option.any_eq_true, Bool.and_eq_true, decide_eq_true_eq] at hpoll
  obtain ⟨start, hstart, ⟨hpc, hperformed⟩, w', hrun, hpc', hidle⟩ := hpoll
  obtain ⟨c, hc⟩ := Option.isSome_iff_exists.mp hconnection
  have hsteps := Machine.run_of_guarded hrun
  have hall : Machine.run World.step w (.work .quiet :: Step.works 4 .quiet) = some w' :=
    Machine.run_cons.mpr ⟨start, hstart, hsteps⟩
  have hbounded := turn_bounded oneSlot [] (by decide) w ⟨_, hw⟩
  have hreached : Machine.Reachable World.step (new oneSlot []) w' :=
    Machine.Reachable.trans ⟨_, hw⟩ ⟨_, hall⟩
  have hpending := (turn_bounded oneSlot [] (by decide) w' hreached).2.1
  obtain ⟨c', hc', haccepted, _⟩ := hbounded.2.2 2 c _ w' hc hall
  exact ⟨w, start, w', hw, hstart, hsteps, hperformed,
    (hbounded.1 127 .quiet 2 start _ w' hturn hstart hpc hrun).1, hpending 127 2 hpc' hidle,
    c', hc', haccepted⟩

end World

end Phonowire.Receiver
