import Phonowire.Receiver.Controls

/-!
# The tracker of a receiver

A receiver counts the payload bytes that records of each connection own: the copy
of a task adds to its tracker, and the drop of the bytes releases from it,
wherever they are by then. `Metered` is a receiver beside its tracker and beside
what the consumer and other owners hold, each charge with the connection that it
is tracked for. A copy is charged and tracked in one step here, and so is a drop.
-/

namespace Phonowire.Receiver

open AudioSocket

/-! ## Operations on the tracker -/

inductive Change where
  | keep
  | add (id : ConnectionId) (bytes : ℕ)
  | release (id : ConnectionId) (bytes : ℕ)
  deriving DecidableEq, Repr

namespace Change

def apply (c : Change) (t : RetentionTracker ConnectionId) :
    Option (RetentionTracker ConnectionId) :=
  match c with
  | .keep => some t
  | .add id bytes => t.add id bytes
  | .release id bytes => t.release id bytes

def gain (c : Change) (id : ConnectionId) : ℕ :=
  match c with
  | .add other bytes => if id = other then bytes else 0
  | _ => 0

def loss (c : Change) (id : ConnectionId) : ℕ :=
  match c with
  | .release other bytes => if id = other then bytes else 0
  | _ => 0

theorem gain_or_loss (c : Change) (id : ConnectionId) : c.gain id = 0 ∨ c.loss id = 0 := by
  cases c with
  | keep => exact Or.inl rfl
  | add other bytes => exact Or.inr rfl
  | release other bytes => exact Or.inl rfl

theorem apply_spec {c : Change} {t : RetentionTracker ConnectionId} (h : t.Tight)
    (hloss : ∀ id, c.loss id ≤ t.used id) (hgain : ∀ id, t.used id + c.gain id ≤ usizeMax) :
    ∃ next, c.apply t = some next ∧ next.Tight ∧
      ∀ id, next.used id + c.loss id = t.used id + c.gain id := by
  cases c with
  | keep => exact ⟨t, rfl, h, fun _ ↦ rfl⟩
  | add id bytes =>
      have hmax := hgain id
      simp only [gain, if_true] at hmax
      obtain ⟨next, hnext, htight, hused⟩ := RetentionTracker.add_spec h hmax
      exact ⟨next, hnext, htight, fun other ↦ hused other⟩
  | release id bytes =>
      have hle := hloss id
      simp only [loss, if_true] at hle
      obtain ⟨next, hnext, htight, hused⟩ := RetentionTracker.release_spec h hle
      exact ⟨next, hnext, htight, fun other ↦ (hused other).symm⟩

end Change

namespace Engine

/-- The tracker in a poll of a task. A copy that gets its bytes is tracked, and a
record that cannot be sent any more is dropped. -/
def pollChange (s : Engine) : Change :=
  match s.board.phase with
  | .polling token =>
      match s.board.live[token]? with
      | none => .keep
      | some entry =>
          match entry.await with
          | .send record _ =>
              if entry.remaining ≠ 0 ∧ entry.connection.task.nextCount = none then
                .release entry.connection.task.id record.kind.charged
              else .keep
          | _ => .keep
  | .attempting token k =>
      match s.board.live[token]? with
      | none => .keep
      | some entry =>
          match k, entry.await with
          | .bytes, .copy bytes _ =>
              match s.budget.tryReserve bytes.length with
              | some (.ok _) => .add entry.connection.task.id bytes.length
              | _ => .keep
          | .queue, .send record _ =>
              match s.channel.trySend record with
              | .error (.disconnected _) =>
                  .release entry.connection.task.id record.kind.charged
              | _ => .keep
          | _, _ => .keep
  | _ => .keep

/-- A task is destroyed with the record that it sends. -/
def retireChange (s : Engine) (token : Token) : Change :=
  match s.board.live[token]? with
  | none => .keep
  | some entry => .release entry.connection.task.id entry.await.charge

end Engine

/-! ## The receiver beside its tracker -/

/-- A charge outside the worker, with the connection that it is tracked for. -/
abbrev Holding := Option ConnectionId × ℕ

def Record.holding (record : Record) : Holding := (some record.connection, record.kind.charged)

structure Metered where
  world : World
  holdings : List Holding
  tracker : RetentionTracker ConnectionId

namespace Metered

/-- A receiver as `bind` returns it. The tracker is its own. -/
def new (settings : Settings) (outside : List ℕ) : Metered :=
  ⟨.new settings outside, outside.map (none, ·), .new⟩

def change (m : Metered) : World.Step → Change
  | .work _ =>
      match m.world.pc with
      | .polling _ _ => m.world.engine.pollChange
      | .retire _ token => m.world.engine.retireChange token
      | _ => .keep
  | .outside (.discard index) =>
      match m.holdings[index]? with
      | some (some id, bytes) => .release id bytes
      | _ => .keep
  | _ => .keep

def held (m : Metered) : World.Step → List Holding
  | .outside .receive =>
      (m.world.engine.channel.buffer.head?.map Record.holding).toList ++ m.holdings
  | .outside (.discard index) => m.holdings.eraseIdx index
  | .outside (.copyOutside bytes) =>
      match m.world.engine.budget.tryReserve bytes with
      | some (.ok _) => (none, bytes) :: m.holdings
      | _ => m.holdings
  | .outside .disconnect => m.world.engine.channel.buffer.map Record.holding ++ m.holdings
  | _ => m.holdings

def step (m : Metered) (a : World.Step) : Option Metered := do
  let world ← m.world.step a
  let tracker ← (m.change a).apply m.tracker
  some ⟨world, m.held a, tracker⟩

/-- `CloseTicket::retained_output_bytes`. -/
def retainedOutputBytes (m : Metered) (ticket : CloseTicket) : ℕ := m.tracker.used ticket.id

end Metered

/-! ## Where the bytes of a connection are -/

def Holding.of (id : ConnectionId) (holding : Holding) : ℕ :=
  if holding.1 = some id then holding.2 else 0

namespace Holding

variable {id : ConnectionId}

theorem of_le (holding : Holding) : Holding.of id holding ≤ holding.2 := by
  unfold Holding.of
  split_ifs
  · exact le_rfl
  · exact Nat.zero_le _

theorem of_none (bytes : ℕ) : Holding.of id (none, bytes) = 0 := if_neg (by simp)

theorem of_owner (other : ConnectionId) (bytes : ℕ) :
    Holding.of id (some other, bytes) = (Change.release other bytes).loss id := by
  simp [Holding.of, Change.loss, eq_comm]

end Holding

def Channel.heldBy (c : Channel) (id : ConnectionId) : ℕ :=
  (c.buffer.map fun record ↦ Holding.of id record.holding).sum

namespace Engine

/-- The charge that the task under `token` owns. -/
def chargeOf (s : Engine) (token : Token) : ℕ := s.board.live[token]?.elim 0 (·.await.charge)

def heldBy (s : Engine) (id : ConnectionId) : ℕ :=
  if id.instanceId = s.board.settings.instanceId then s.chargeOf id.sequence else 0

/-- The bytes of `id` with its task and in the channel. -/
def keptBy (s : Engine) (id : ConnectionId) : ℕ := s.heldBy id + s.channel.heldBy id

end Engine

namespace Metered

/-- The bytes of `id` with its task, in the channel and with the consumer. -/
def owned (m : Metered) (id : ConnectionId) : ℕ :=
  m.world.engine.keptBy id + (m.holdings.map (Holding.of id)).sum

/-- The tracker counts what records of each connection own, and keeps no entry
without bytes. -/
structure Exact (m : Metered) : Prop where
  holdings : m.holdings.map Prod.snd = m.world.engine.outside
  tight : m.tracker.Tight
  used : ∀ id, m.tracker.used id = m.owned id

end Metered

/-! ## Steps that leave all charges where they are -/

namespace Engine

variable {s s' : Engine} {token : Token} {entry : Entry}

structure Rests (s s' : Engine) : Prop where
  settings : s'.board.settings = s.board.settings
  channel : s'.channel = s.channel
  outside : s'.outside = s.outside
  charges : ∀ token, s'.chargeOf token = s.chargeOf token

theorem Rests.refl (s : Engine) : s.Rests s := ⟨rfl, rfl, rfl, fun _ ↦ rfl⟩

theorem rests_onBoard {board : Option Board} (h : s.onBoard board = some s')
    (hsettings : ∀ b ∈ board, b.settings = s.board.settings)
    (hcharges : ∀ b ∈ board, ∀ token : Token,
      b.live[token]?.elim 0 (·.await.charge) = s.chargeOf token) : s.Rests s' := by
  simp only [onBoard, Option.map_eq_some_iff] at h
  obtain ⟨b, hb, rfl⟩ := h
  exact ⟨hsettings b hb, rfl, rfl, hcharges b hb⟩

theorem rests_insert {peer : SocketAddr} (h : s.step (.insert token peer) = some s') :
    s.Rests s' := by
  simp only [step] at h
  split_ifs at h
  simp only [onBoard, Board.insert, Option.map_eq_some_iff, Option.bind_eq_bind,
    Option.bind_eq_some_iff] at h
  obtain ⟨board, ⟨ready, _, hboard⟩, rfl⟩ := h
  split_ifs at hboard with hsome
  cases hboard
  refine ⟨rfl, rfl, rfl, fun u ↦ ?_⟩
  unfold chargeOf
  rw [Std.TreeMap.getElem?_insert_ite]
  split_ifs with hu
  · subst hu
    rw [Option.not_isSome_iff_eq_none.mp hsome]
    rfl
  · rfl

theorem rests_take (h : s.step .take = some s') : s.Rests s' := by
  simp only [step] at h
  split_ifs at h
  simp only [onBoard, Board.take, Option.map_eq_some_iff, Option.bind_eq_bind,
    Option.bind_eq_some_iff] at h
  obtain ⟨board, ⟨⟨ready, head⟩, _, hboard⟩, rfl⟩ := h
  cases head with
  | none =>
      cases hboard
      exact .refl s
  | some token =>
      simp only [Option.bind_eq_some_iff] at hboard
      obtain ⟨entry, hentry, hboard⟩ := hboard
      cases hboard
      refine ⟨rfl, rfl, rfl, fun u ↦ ?_⟩
      unfold chargeOf
      rw [Std.TreeMap.getElem?_insert_ite]
      split_ifs with hu
      · rw [← hu, hentry]
        rfl
      · rfl

theorem rests_parkFull (h : s.step .parkFull = some s') : s.Rests s' := by
  simp only [step, parkFull] at h
  split at h
  · simp only [onBoard, Board.park, Option.map_eq_some_iff, Option.bind_eq_bind,
      Option.bind_eq_some_iff] at h
    obtain ⟨board, ⟨ready, _, hboard⟩, rfl⟩ := h
    cases hboard
    exact ⟨rfl, rfl, rfl, fun _ ↦ rfl⟩
  · cases h

theorem rests_takeCredit {k : Resource} (h : s.step (.takeCredit k) = some s') : s.Rests s' := by
  simp only [step, takeCredit] at h
  split_ifs at h
  · simp only [onBoard, Board.resumeCredit, Option.map_eq_some_iff, Option.bind_eq_bind,
      Option.bind_eq_some_iff] at h
    obtain ⟨board, ⟨⟨ready, resumed⟩, _, hboard⟩, rfl⟩ := h
    cases hboard
    exact ⟨rfl, rfl, rfl, fun _ ↦ rfl⟩
  · cases h
    exact .refl s

theorem rests_ioReady (h : s.step (.ioReady token) = some s') : s.Rests s' := by
  simp only [step, onBoard, Board.ioReady, Option.map_eq_some_iff, Option.bind_eq_bind,
    Option.bind_eq_some_iff] at h
  obtain ⟨board, ⟨ready, _, hboard⟩, rfl⟩ := h
  cases hboard
  exact ⟨rfl, rfl, rfl, fun _ ↦ rfl⟩

theorem rests_subscribe {subscribed : Bool} (h : s.step (.subscribe subscribed) = some s') :
    s.Rests s' := by
  simp only [step] at h
  split_ifs at h
  cases h
  exact ⟨rfl, rfl, rfl, fun _ ↦ rfl⟩

theorem rests_outside {o : World.Outside} (h : s.step o.action = some s')
    (hreceive : o ≠ .receive) (hdiscard : ∀ index, o ≠ .discard index)
    (hcopy : ∀ bytes, o ≠ .copyOutside bytes) (hdisconnect : o ≠ .disconnect) : s.Rests s' := by
  cases o with
  | wake token =>
      simp only [World.Outside.action, step, onBoard, Board.wake, Option.map_eq_some_iff,
        Option.bind_eq_bind, Option.bind_eq_some_iff] at h
      obtain ⟨board, ⟨⟨ready, inserted⟩, _, hboard⟩, rfl⟩ := h
      cases hboard
      exact ⟨rfl, rfl, rfl, fun _ ↦ rfl⟩
  | receive => exact absurd rfl hreceive
  | discard index => exact absurd rfl (hdiscard index)
  | copyOutside bytes => exact absurd rfl (hcopy bytes)
  | disconnect => exact absurd rfl hdisconnect
  | publish signal =>
      simp only [World.Outside.action, step, Option.map_eq_some_iff] at h
      obtain ⟨signals, _, rfl⟩ := h
      exact ⟨rfl, rfl, rfl, fun _ ↦ rfl⟩
  | stop =>
      cases h
      exact ⟨rfl, rfl, rfl, fun _ ↦ rfl⟩
  | wakeFailed error =>
      cases h
      exact ⟨rfl, rfl, rfl, fun _ ↦ rfl⟩

end Engine

namespace World

variable {w w' : World} {input : Input}

theorem rests_of_eq (h : w'.engine = w.engine) : w.engine.Rests w'.engine := h ▸ .refl _

theorem rests_act {s : Engine} {a : Engine.Action} {next : World → World} (hw : w.engine = s)
    (hrests : ∀ t, s.step a = some t → s.Rests t)
    (hnext : ∀ v, (next v).engine = v.engine) : s.Rests (w.act a next).engine := by
  subst hw
  unfold act
  cases hstep : w.engine.step a with
  | none => exact .refl _
  | some t =>
      dsimp only
      rw [hnext]
      exact hrests t hstep

theorem engine_count {value : ℕ} {update : RunSummary → ℕ → RunSummary} {next : World → World}
    (hnext : ∀ v, (next v).engine = v.engine) :
    (w.count value update next).engine = w.engine := by
  unfold count
  cases checkedAdd value 1 with
  | none => rfl
  | some value => exact hnext _

theorem engine_setCell (cell : Option ℕ) (result : ConnectionCloseResult) :
    (w.setCell cell result).engine = w.engine := by cases cell <;> rfl

theorem engine_resume (caller : Caller) (result : Except ReceiverFailure Unit) :
    (w.resume caller result).engine = w.engine := by cases caller <;> cases result <;> rfl

theorem engine_absorb (caller : Caller) (progress : Progress) :
    (w.absorb caller progress).engine = w.engine := by
  unfold absorb
  cases w.summary.absorb progress with
  | none => rfl
  | some answer => exact engine_resume _ _

theorem engine_afterPoll (left : ℕ) (token : Token) (ended : Bool) :
    (w.afterPoll left token ended).engine = w.engine := by
  unfold afterPoll
  split
  · rfl
  · split_ifs
    · rfl
    · rfl
    · split <;> rfl

theorem rests_admitPeer (peer : SocketAddr) (pc : Pc) :
    w.engine.Rests (w.admitPeer input peer pc).engine := by
  unfold admitPeer
  dsimp only
  split
  · exact .refl _
  · split
    · exact .refl _
    · unfold admitTask
      refine rests_act rfl (fun s ↦ Engine.rests_insert) fun v ↦ ?_
      split_ifs
      · rfl
      · exact engine_count fun _ ↦ rfl

theorem rests_stepAccepting (left : ℕ) (progressed : Bool) :
    w.engine.Rests (w.stepAccepting input left progressed).engine := by
  cases left with
  | zero =>
      unfold stepAccepting
      dsimp only
      split_ifs
      · exact .refl _
      · exact rests_of_eq (engine_count fun _ ↦ rfl)
  | succ left =>
      unfold stepAccepting
      dsimp only
      split_ifs
      · exact .refl _
      · split
        · unfold onAccepted
          split_ifs
          · exact rests_of_eq (engine_count fun _ ↦ rfl)
          · exact rests_admitPeer _ _
        · unfold onAcceptError
          split
          · exact .refl _
          · exact rests_of_eq (engine_count fun _ ↦ rfl)
          · exact rests_of_eq (engine_count fun _ ↦ rfl)
          · exact .refl _

/-- The worker moves bytes only in the poll of a task and when it destroys one. -/
theorem rests_of_work (h : w.work input = some w')
    (hpolling : ∀ left token, w.pc ≠ .polling left token)
    (hretire : ∀ caller token, w.pc ≠ .retire caller token) : w.engine.Rests w'.engine := by
  cases hpc : w.pc with
  | setup =>
      simp only [work, hpc, Option.some.injEq] at h
      subst h
      unfold stepSetup
      split
      · exact .refl _
      · exact rests_act rfl (fun s ↦ Engine.rests_subscribe) fun _ ↦ rfl
  | failure =>
      simp only [work, hpc, Option.some.injEq] at h
      subst h
      unfold stepFailure
      split
      · refine rests_act rfl (fun s hs ↦ ?_) fun _ ↦ rfl
        cases hs
        exact ⟨rfl, rfl, rfl, fun _ ↦ rfl⟩
      · exact .refl _
  | cause =>
      simp only [work, hpc] at h
      split at h <;> cases h <;> exact .refl _
  | scan site rest found =>
      cases rest with
      | nil =>
          simp only [work, hpc, Option.some.injEq] at h
          exact h ▸ .refl _
      | cons token rest =>
          simp only [work, hpc, Option.some.injEq] at h
          exact h ▸ .refl _
  | retiring site tokens =>
      cases tokens with
      | nil =>
          simp only [work, hpc, Option.some.injEq] at h
          exact h ▸ .refl _
      | cons token rest =>
          simp only [work, hpc, Option.some.injEq] at h
          exact h ▸ .refl _
  | control =>
      simp only [work, hpc] at h
      split_ifs at h
      · cases h
        refine rests_act rfl (fun s hs ↦ ?_) fun _ ↦ rfl
        cases hs
        exact ⟨rfl, rfl, rfl, fun _ ↦ rfl⟩
      · cases h
        exact .refl _
  | credit k =>
      cases k <;> simp only [work, hpc, Option.some.injEq] at h <;> subst h <;>
        exact rests_act rfl (fun s ↦ Engine.rests_takeCredit) fun _ ↦ rfl
  | turn left =>
      cases left with
      | zero =>
          simp only [work, hpc, Option.some.injEq] at h
          exact h ▸ .refl _
      | succ left =>
          simp only [work, hpc] at h
          split_ifs at h
          · cases h
            exact .refl _
          · cases h
            refine rests_act rfl (fun s ↦ Engine.rests_take) fun v ↦ ?_
            split <;> rfl
  | polling left token => exact absurd hpc (hpolling left token)
  | causeAgain =>
      simp only [work, hpc] at h
      split at h <;> cases h <;> exact .refl _
  | accept =>
      simp only [work, hpc, Option.some.injEq] at h
      subst h
      unfold startAccept
      split_ifs <;> exact .refl _
  | accepting left progressed =>
      simp only [work, hpc, Option.some.injEq] at h
      subst h
      exact rests_stepAccepting left progressed
  | block =>
      simp only [work, hpc, Option.some.injEq] at h
      subst h
      unfold stepBlock
      split
      · exact .refl _
      · split_ifs <;> exact .refl _
  | events tokens =>
      cases tokens with
      | nil =>
          simp only [work, hpc, Option.some.injEq] at h
          exact h ▸ .refl _
      | cons token rest =>
          simp only [work, hpc, Option.some.injEq] at h
          subst h
          unfold stepEvent
          split_ifs
          · exact .refl _
          · exact .refl _
          · exact rests_act rfl (fun s ↦ Engine.rests_ioReady) fun _ ↦ rfl
  | retire caller token => exact absurd hpc (hretire caller token)
  | finish caller token progress =>
      simp only [work, hpc, Option.some.injEq] at h
      exact h ▸ .refl _
  | publish caller cell progress =>
      simp only [work, hpc, Option.some.injEq] at h
      subst h
      apply rests_of_eq
      unfold stepPublish
      dsimp only
      split_ifs
      · split
        · rw [engine_resume, engine_setCell]
        · rw [engine_absorb]
          exact engine_setCell _ _
      · rw [engine_absorb, engine_setCell]
  | driven result =>
      simp only [work, hpc, Option.some.injEq] at h
      exact h ▸ .refl _
  | cleanup result failure =>
      simp only [work, hpc, Option.some.injEq] at h
      subst h
      unfold stepCleanup
      split <;> exact .refl _
  | stopAll result failure =>
      simp only [work, hpc, Option.some.injEq] at h
      exact h ▸ .refl _
  | publishAll result failure cells =>
      simp only [work, hpc, Option.some.injEq] at h
      subst h
      cases cells with
      | nil => exact .refl _
      | cons cell cells => exact rests_of_eq (engine_setCell _ _)
  | outcome result failure =>
      simp only [work, hpc, Option.some.injEq] at h
      subst h
      unfold stepOutcome
      exact rests_act rfl (fun s ↦ Engine.rests_subscribe) fun _ ↦ rfl
  | returned result =>
      simp only [work, hpc] at h
      cases h
  | panicked =>
      simp only [work, hpc] at h
      cases h

end World

end Phonowire.Receiver
