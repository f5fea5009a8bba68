import Phonowire.Receiver.Lifetimes

/-!
# What one action does

`Engine.Move` lists what an action can do to the worker and to the resources it
shares, with everything that later invariants need: who was woken, which request
registered, was attempted or was dropped, and which bytes and records changed
hands. On a coherent board with an exact byte account every action is one of
these moves, and the worker's own actions never fail.
-/

namespace Phonowire.Receiver

open AudioSocket

/-- Bytes that the answer of the awaited operation charges to the task. -/
def Await.grant (capacity : ℕ) : Await → ℕ
  | .copy bytes _ => if capacity < bytes.length then 0 else bytes.length
  | _ => 0

namespace Task

variable {t u : Task} {capacity : ℕ} {effect : Effect}

theorem charge_afterSent (t : Task) (after : AfterSend) : (t.afterSent after).await.charge = 0 := by
  have hrest (u : Task) (input : List UInt8) : (u.decodeRest input).await.charge = 0 := by
    unfold decodeRest
    dsimp only
    split_ifs <;> rfl
  cases after with
  | read => rfl
  | decode chunk => exact hrest _ _
  | stop => rfl
  | observed input =>
      unfold afterSent
      dsimp only
      split_ifs
      · rfl
      · exact hrest _ _

theorem stopReason_charged {result : ReadResult} {reason : EndReason} {session : IncomingSession}
    (h : t.stopReason result = some (reason, session)) (uuid : Option Uuid) :
    (RecordKind.ended uuid reason).charged = 0 := by
  match result with
  | .error e =>
      cases h
      rfl
  | .ok [] =>
      simp only [stopReason] at h
      split at h <;> cases h <;> rfl
  | .ok (_ :: _) => cases h

theorem charge_observe (t : Task) (offset : ℕ) (now : Instant) (input : List UInt8)
    (event : IncomingEvent) : (t.observe offset now input event).await.charge = 0 := by
  cases event with
  | ended uuid reason => cases reason <;> rfl
  | _ => rfl

/-- A move leaves its task with the bytes that the awaited copy charged, and
with no others. -/
theorem Move.charge_eq (h : t.Move capacity effect u) :
    u.await.charge = t.await.grant capacity := by
  cases h with
  | begin now hat => simp [hat, Task.begin, sendAt, Await.charge, Await.grant, RecordKind.charged]
  | readStop now hat hfinal hreason =>
      rw [hat]
      exact stopReason_charged hreason _
  | readChunk now hat hne hlength hfits => simp [hat, Await.charge, Await.grant]
  | readOverflow now hat hne hlength hover =>
      simp [hat, endAt, sendAt, Await.charge, Await.grant, RecordKind.charged]
  | feedNeed hat hopen hneed hcap hnext => simp [hat, Await.charge, Await.grant]
  | feedOversize now next hat hopen hoversize hcap hconsumed hrest =>
      simp [hat, endAt, sendAt, Await.charge, Await.grant, RecordKind.charged]
  | feedFrame hat hopen hframe hcap hnext hconsumed hrest => simp [hat, Await.charge, Await.grant]
  | invalid now hat htyped =>
      simp [hat, endAt, sendAt, Await.charge, Await.grant, RecordKind.charged]
  | rejected now hat htyped hreceive =>
      simp [hat, endAt, sendAt, Await.charge, Await.grant, RecordKind.charged]
  | observed now hat htyped hreceive =>
      rw [hat]
      exact charge_observe _ _ _ _ _
  | @copied _ bytes after hat hfits =>
      have hnot : ¬ capacity < bytes.length := by omega
      cases after <;> simp [hat, onCopy, sendAt, endAt, Await.charge, Await.grant,
        RecordKind.charged, OwnedBytes.chargedCapacity, hnot]
  | @refused _ bytes after hat hover =>
      cases after <;> simp [hat, onCopy, sendAt, endAt, Await.charge, Await.grant,
        RecordKind.charged, hover]
  | exhausted hat hover => simp [hat, countExhausted, sendFailed, Await.charge, Await.grant]
  | disconnected hat hfits => simp [hat, sendFailed, Await.charge, Await.grant]
  | accepted hat hfits =>
      rw [hat]
      exact charge_afterSent _ _

end Task

namespace Connection

variable {capacity : ℕ} {c d : Connection} {e : Event}

theorem step_charge (hplaced : c.task.Placed) (h : c.step capacity e = some d) :
    d.task.await.charge = c.task.await.grant capacity := by
  obtain ⟨effect, hmove, _, _⟩ := move_of_step hplaced h
  exact hmove.charge_eq

/-- Only a send that finds its consumer and its count hands a record off. -/
theorem step_sent (h : c.step capacity e = some d) (he : e ≠ .send true) : d.sent = c.sent := by
  unfold step at h
  split at h
  case h_6 record after connected hat =>
    cases h
    unfold send
    cases connected with
    | true => exact absurd rfl he
    | false => cases c.task.nextCount <;> rfl
  case h_2 =>
    split_ifs at h
    cases h
    rfl
  all_goals
    cases h
    try rfl

theorem step_sent_send {record : Record} {after : AfterSend}
    (hat : c.task.await = .send record after) (hcount : c.task.nextCount ≠ none)
    (h : c.step capacity (.send true) = some d) : d.sent = c.sent ++ [record] := by
  rw [step_send true hat, Option.some.injEq] at h
  subst h
  unfold send
  cases hnext : c.task.nextCount with
  | none => exact absurd hnext hcount
  | some next => rfl

end Connection

/-! ## The byte account -/

/-- Charged bytes that live tasks own. -/
def Board.held (b : Board) : ℕ := Std.TreeMap.total (fun _ e ↦ e.await.charge) b.live

namespace Engine

/-- Every charged byte is outside, in the channel, or owned by a live task. -/
structure Exact (s : Engine) : Prop where
  used : s.used = s.outside.sum + s.channel.charged + s.board.held
  le_capacity : s.used ≤ s.capacity

/-- The worker after it dropped charged bytes. -/
def released (s : Engine) (bytes : ℕ) : Engine :=
  { s with
    used := s.used - bytes
    signals := if bytes ≠ 0 ∧ s.subscribed = true then s.signals.set .bytes else s.signals }

theorem release_eq {s : Engine} {bytes : ℕ} (h : bytes ≤ s.used) :
    s.release bytes = some (s.released bytes) := by
  have hrelease := ByteBudget.release_of_le (b := s.budget) h
  simp only [release, hrelease, released, Option.bind_eq_bind, Option.bind_some]
  simp [budget]

/-- The request for `k` of this entry cannot be granted now. -/
def Blocked (s : Engine) (k : Resource) (e : Entry) : Prop :=
  match k with
  | .bytes => ∃ bytes after, e.await = .copy bytes after ∧ s.capacity - s.used < bytes.length
  | .queue => s.channel.connected = true ∧ s.channel.Full

/-! ## Moves -/

/-- The steps of other threads on what the worker shares, and of the worker on
signals that no task waits for. -/
inductive Shared (s : Engine) : Engine → Prop
  | received {record : Record} {channel : Channel}
      (hbuffer : s.channel.buffer = record :: channel.buffer)
      (hslots : channel.slots = s.channel.slots)
      (hconnected : channel.connected = s.channel.connected) :
      Shared s { s with
        channel
        received := s.received ++ [record]
        outside := record.kind.charged :: s.outside
        signals := s.signals.owe .queue }
  | discarded {index bytes : ℕ} (hindex : s.outside[index]? = some bytes)
      (hle : bytes ≤ s.used) :
      Shared s { s with
        used := s.used - bytes
        outside := s.outside.eraseIdx index
        signals := if bytes ≠ 0 ∧ s.subscribed = true then s.signals.owe .bytes else s.signals }
  | copied {bytes : ℕ} (hfits : bytes ≤ s.capacity - s.used) :
      Shared s { s with used := s.used + bytes, outside := bytes :: s.outside }
  | unchanged : Shared s s
  | disconnected (hconnected : s.channel.connected = true) :
      Shared s { s with
        channel := s.channel.close
        outside := s.channel.buffer.map (·.kind.charged) ++ s.outside
        signals := s.signals.owe .disconnected }
  | signalled {signals : Signals}
      (hdue : ∀ signal, signal ≠ .control → s.signals.Due signal → signals.Due signal) :
      Shared s { s with signals }
  | subscribed {subscribed : Bool} (hempty : subscribed = true ∨ s.board.live.size = 0) :
      Shared s { s with subscribed }

/-- What the poll of the task under `token` can do between two operations. -/
inductive Polled (s : Engine) (token : Token) : Engine → Prop
  | yielded {entry e : Entry} {live : Std.TreeMap Token Entry} {ready : Ready}
      (hphase : s.board.phase = .polling token) (hlive : s.board.live[token]? = some entry)
      (hsame : Board.SameTask entry e)
      (hm : ∀ u : Token, live[u]? = if token = u then some e else s.board.live[u]?)
      (hwoke : Ready.Woke (some token) s.board.ready ready) :
      Polled s token { s with board := { s.board with ready, live, phase := .idle } }
  | parked {entry e : Entry} {live : Std.TreeMap Token Entry} {ready : Ready}
      {reason : WaitReason} {state : TaskState}
      (hphase : s.board.phase = .polling token ∧ entry.await = .read ∨
        ∃ k, s.board.phase = .full token k)
      (hlive : s.board.live[token]? = some entry) (hsame : Board.SameTask entry e)
      (hm : ∀ u : Token, live[u]? = if token = u then some e else s.board.live[u]?)
      (htokens : ∀ k, (ready.waiters k).tokens = (s.board.ready.waiters k).tokens)
      (hstate : s.board.ready.states[token]? = some state)
      (hturn : state = .running ∨ state = .notified)
      (hstates : ∀ u : Token, ready.states[u]? =
        if token = u then some (Ready.parked reason state) else s.board.ready.states[u]?) :
      Polled s token { s with board := { s.board with ready, live, phase := .idle } }
  | requested {entry e : Entry} {k : Resource}
      (hphase : s.board.phase = .polling token) (hlive : s.board.live[token]? = some entry)
      (hsame : Board.SameTask entry e) (hwants : e.await.wants = some k)
      (hhead : ((s.board.ready.waiters k).pushBack token).tokens.head? = some token) :
      Polled s token { s with board := s.board.registered token e k (.attempting token k) }
  | lined {entry e : Entry} {k : Resource} {ready : Ready}
      (hphase : s.board.phase = .polling token) (hlive : s.board.live[token]? = some entry)
      (hsame : Board.SameTask entry e) (hwants : e.await.wants = some k)
      (hhead : ((s.board.ready.waiters k).pushBack token).tokens.head? ≠ some token)
      (htokens : ∀ j, (ready.waiters j).tokens =
        ((s.board.registered token e k .idle).ready.waiters j).tokens)
      (hstates : ∀ u : Token, token ≠ u → ready.states[u]? = s.board.ready.states[u]?) :
      Polled s token { s with board := { s.board.registered token e k .idle with ready } }
  | blocked {entry : Entry} {k : Resource}
      (hphase : s.board.phase = .attempting token k)
      (hlive : s.board.live[token]? = some entry) (hblocked : s.Blocked k entry) :
      Polled s token { s with board := { s.board.attempted token k with phase := .full token k } }
  | advanced {entry e : Entry} {event : Event} {connection : Connection}
      {ready : Ready} (hphase : s.board.phase = .polling token)
      (hlive : s.board.live[token]? = some entry) (hsame : Board.SameTask entry e)
      (hstep : e.connection.step s.capacity event = some connection)
      (hrequest : e.request = none) (hsent : connection.sent = e.connection.sent)
      (hcharge : e.await.charge = 0) (hcharge' : connection.task.await.charge = 0)
      (hreleased : Board.Released s.board.ready token e.request ready)
      (hevent : ∀ connected, event ≠ .send connected) :
      Polled s token { s with board := s.board.advanced token e connection ready }
  | copied {entry : Entry} {bytes : List UInt8} {after : AfterCopy}
      {now : Instant} {connection : Connection} {ready : Ready}
      (hphase : s.board.phase = .attempting token .bytes)
      (hlive : s.board.live[token]? = some entry) (hat : entry.await = .copy bytes after)
      (hstep : entry.connection.step s.capacity (.copy now) = some connection)
      (hrequest : entry.request = some .bytes)
      (hsent : connection.sent = entry.connection.sent)
      (hfits : bytes.length ≤ s.capacity - s.used)
      (hcharge : connection.task.await.charge = bytes.length)
      (hreleased : Board.Released s.board.ready token entry.request ready) :
      Polled s token { s with
        used := s.used + bytes.length
        board := (s.board.attempted token .bytes).advanced token entry connection ready }
  | sent {entry : Entry} {record : Record} {after : AfterSend}
      {channel : Channel} {connection : Connection} {ready : Ready}
      (hphase : s.board.phase = .attempting token .queue)
      (hlive : s.board.live[token]? = some entry) (hat : entry.await = .send record after)
      (hstep : entry.connection.step s.capacity (.send true) = some connection)
      (hrequest : entry.request = some .queue)
      (hsent : connection.sent = entry.connection.sent ++ [record])
      (hcharge : connection.task.await.charge = 0)
      (hconnected : s.channel.connected = true) (hslots : channel.slots = s.channel.slots)
      (hbuffer : channel.buffer = s.channel.buffer ++ [record])
      (hstill : channel.connected = true)
      (hreleased : Board.Released s.board.ready token entry.request ready) :
      Polled s token { s with
        channel
        accepted := s.accepted ++ [record]
        board := (s.board.attempted token .queue).advanced token entry connection ready }
  | refused {entry : Entry} {record : Record} {after : AfterSend}
      {connection : Connection} {ready : Ready}
      (hphase : s.board.phase = .attempting token .queue)
      (hlive : s.board.live[token]? = some entry) (hat : entry.await = .send record after)
      (hstep : entry.connection.step s.capacity (.send false) = some connection)
      (hrequest : entry.request = some .queue)
      (hsent : connection.sent = entry.connection.sent)
      (hcharge : connection.task.await.charge = 0)
      (hconnected : s.channel.connected = false) (hle : record.kind.charged ≤ s.used)
      (hreleased : Board.Released s.board.ready token entry.request ready) :
      Polled s token { s.released record.kind.charged with
        board := (s.board.attempted token .queue).advanced token entry connection ready }
  | exhausted {entry e : Entry} {record : Record} {after : AfterSend}
      {connection : Connection} {ready : Ready}
      (hphase : s.board.phase = .polling token) (hlive : s.board.live[token]? = some entry)
      (hsame : Board.SameTask entry e) (hat : e.await = .send record after)
      (hcount : e.connection.task.nextCount = none)
      (hstep : e.connection.step s.capacity (.send s.channel.connected) = some connection)
      (hsent : connection.sent = e.connection.sent)
      (hcharge : connection.task.await.charge = 0) (hle : record.kind.charged ≤ s.used)
      (hreleased : Board.Released s.board.ready token e.request ready) :
      Polled s token { s.released record.kind.charged with
        board := s.board.advanced token e connection ready }

/-- Every action of the worker and of its environment. -/
inductive Move (s : Engine) : Engine → Prop
  | shared {s' : Engine} (hshared : s.Shared s') : Move s s'
  | woke {head : Option Token} {ready : Ready} (hwoke : Ready.Woke head s.board.ready ready) :
      Move s { s with board := { s.board with ready } }
  | credited {k : Resource} {ready : Ready}
      (hwoke : Ready.Woke (s.board.ready.waiters k).tokens.head? s.board.ready ready) :
      Move s { s with board := { s.board with ready }, signals := s.signals.clear k.signal }
  | inserted {token : Token} {peer : SocketAddr} {ready : Ready}
      (hfresh : s.board.live[token]? = none) (hdeparted : s.board.departed[token]? = none)
      (hsubscribed : s.subscribed = true)
      (hwaiters : ∀ k, ready.waiters k = s.board.ready.waiters k)
      (hstates : ∀ u : Token, ready.states[u]? =
        if token = u then some .queued else s.board.ready.states[u]?) :
      Move s { s with board := { s.board with
        ready
        live := s.board.live.insert token ⟨s.board.admitted token peer, 0, false⟩ } }
  | took {token : Token} {entry : Entry} {ready : Ready} (hphase : s.board.phase = .idle)
      (hlive : s.board.live[token]? = some entry)
      (hhead : s.board.ready.queue.tokens.head? = some token)
      (hwaiters : ∀ k, ready.waiters k = s.board.ready.waiters k)
      (hstates : ∀ u : Token, ready.states[u]? =
        if token = u then some .running else s.board.ready.states[u]?) :
      Move s { s with board := { s.board with
        ready
        live := s.board.live.insert token
          { entry with remaining := s.board.settings.limits.turnSteps.val }
        phase := .polling token } }
  | polled {token : Token} {s' : Engine} (hpolled : s.Polled token s') : Move s s'
  | retired {token : Token} {entry : Entry} {ready : Ready}
      (hphase : s.board.phase.betweenPolls = true)
      (hlive : s.board.live[token]? = some entry) (hle : entry.await.charge ≤ s.used)
      (hretired : s.board.ready.Retired token ready) :
      Move s { s.released entry.await.charge with board := s.board.without token entry ready }

/-! ## The worker's actions -/

section Worker

variable {s : Engine} {token : Token} {entry : Entry}

theorem charge_le_used (hx : s.Exact) (hlive : s.board.live[token]? = some entry) :
    entry.await.charge ≤ s.used := by
  have hle : entry.await.charge ≤ s.board.held :=
    Std.TreeMap.le_total (f := fun _ e ↦ e.await.charge) hlive
  have hused := hx.used
  omega

/-- A step that answers without any resource. -/
theorem plain_spec {e : Entry} {event : Event} {connection : Connection} (h : s.board.Coherent)
    (hphase : s.board.phase = .polling token) (hlive : s.board.live[token]? = some entry)
    (hsame : Board.SameTask entry e)
    (hstep : e.connection.step s.capacity event = some connection)
    (hevent : ∀ connected, event ≠ .send connected) (hrequest : e.request = none)
    (hcharge : e.await.charge = 0) (hgrant : e.await.grant s.capacity = 0) :
    ∃ s', s.onBoard (s.board.advance token e event) = some s' ∧ s.Polled token s' ∧
      s'.board.Coherent := by
  have htoken : s.board.phase.token = some token := by rw [hphase]; rfl
  obtain ⟨ready, hadvance, hreleased, hcoherent⟩ := h.advance_spec htoken hlive hsame hstep
  have hplaced : e.connection.task.Placed := by
    rw [hsame.connection]
    exact (h.holds token entry hlive).runs.placed
  have hcharge' := (Connection.step_charge hplaced hstep).trans hgrant
  exact ⟨_, by simp [onBoard, hadvance], .advanced hphase hlive hsame hstep hrequest
    (Connection.step_sent hstep (hevent true)) hcharge hcharge' hreleased hevent, hcoherent⟩

theorem request_of_wants {e : Entry} (h : e.await.wants = none) : e.request = none := by
  unfold Entry.request
  rw [h]
  split_ifs <;> rfl

theorem yield_spec {e : Entry} {live : Std.TreeMap Token Entry} (h : s.board.Coherent)
    (hphase : s.board.phase = .polling token) (hlive : s.board.live[token]? = some entry)
    (hsame : Board.SameTask entry e)
    (hm : ∀ u : Token, live[u]? = if token = u then some e else s.board.live[u]?) :
    ∃ s', s.onBoard (Board.yield { s.board with live } token) = some s' ∧ s.Polled token s' ∧
      s'.board.Coherent := by
  obtain ⟨ready, hyield, hwoke, hcoherent⟩ := h.yield_spec hphase hlive hsame hm
  exact ⟨_, by simp [onBoard, hyield], .yielded hphase hlive hsame hm hwoke, hcoherent⟩

theorem pollRead_spec {e : Entry} (input : PollInput) (h : s.board.Coherent)
    (hphase : s.board.phase = .polling token) (hlive : s.board.live[token]? = some entry)
    (hsame : Board.SameTask entry e) (hat : e.await = .read) :
    ∃ s', s.pollRead input token e = some s' ∧ s.Polled token s' ∧ s'.board.Coherent := by
  have htoken : s.board.phase.token = some token := by rw [hphase]; rfl
  have hm := Std.TreeMap.getElem?_insert_ite s.board.live token e
  have hrequest : e.request = none := request_of_wants (by rw [hat]; rfl)
  have hread (result : ReadResult) (hfinal : result.Final) :
      ∃ s', s.onBoard (s.board.advance token e (.read input.now result)) = some s' ∧
        s.Polled token s' ∧ s'.board.Coherent :=
    plain_spec h hphase hlive hsame (Connection.step_read input.now hat hfinal)
      (by rintro _ ⟨⟩) hrequest
      (by rw [hat]; rfl) (by rw [hat]; rfl)
  have hfits := input.fits
  unfold pollRead
  cases hinput : input.read with
  | ok bytes =>
      rw [hinput] at hfits
      exact hread (.ok bytes) hfits
  | error error =>
      dsimp only
      split_ifs with hblock hinterrupted
      · have hreason : e.waitsFor = some .kernel := by simp [Entry.waitsFor, hat]
        have hawait : entry.await = .read := by rw [← hsame.await_eq, hat]
        obtain ⟨ready, state, hstate, hturn, hpark, _, _, htokens, hstates, hcoherent⟩ :=
          h.park_spec htoken (by rw [hphase]; rintro ⟨⟩) hlive hsame hreason hm
        exact ⟨_, by simp [onBoard, Board.setEntry, hpark],
          .parked (Or.inl ⟨hphase, hawait⟩) hlive hsame hm htokens hstate hturn hstates, hcoherent⟩
      · exact yield_spec h hphase hlive hsame hm
      · exact hread (.error error) ⟨hblock, hinterrupted⟩

/-- A request that is neither refused for its size nor for the record count. -/
theorem request_spec {e : Entry} {k : Resource} (h : s.board.Coherent)
    (hphase : s.board.phase = .polling token) (hlive : s.board.live[token]? = some entry)
    (hsame : Board.SameTask entry e) (hwants : e.await.wants = some k)
    (hfits : ∀ bytes after, e.await = .copy bytes after → bytes.length ≤ s.capacity)
    (hcount : k = .queue → e.connection.task.nextCount ≠ none) :
    ∃ s', s.onBoard (s.board.request token e k) = some s' ∧ s.Polled token s' ∧ s'.board.Coherent := by
  rcases h.request_spec hphase hlive hsame hwants hfits hcount with
    ⟨hhead, hrequest, hcoherent⟩ | ⟨hhead, ready, hrequest, _, htokens, hstates, hcoherent⟩
  · exact ⟨_, by simp [onBoard, hrequest], .requested hphase hlive hsame hwants hhead, hcoherent⟩
  · exact ⟨_, by simp [onBoard, hrequest],
      .lined hphase hlive hsame hwants hhead htokens hstates, hcoherent⟩

theorem pollSend_spec {e : Entry} {record : Record} {after : AfterSend} (h : s.board.Coherent)
    (hx : s.Exact) (hphase : s.board.phase = .polling token)
    (hlive : s.board.live[token]? = some entry) (hsame : Board.SameTask entry e)
    (hat : e.await = .send record after) :
    ∃ s', s.pollSend token e record = some s' ∧ s.Polled token s' ∧ s'.board.Coherent := by
  unfold pollSend
  cases hcount : e.connection.task.nextCount with
  | some next =>
      refine request_spec h hphase hlive hsame (by rw [hat]; rfl) ?_ (by simp [hcount])
      intro bytes after hcopy
      rw [hat] at hcopy
      cases hcopy
  | none =>
      have htoken : s.board.phase.token = some token := by rw [hphase]; rfl
      have hle : record.kind.charged ≤ s.used := by
        have hcharge := charge_le_used hx hlive
        rw [← hsame.await_eq, hat] at hcharge
        exact hcharge
      have hstep : e.connection.step s.capacity (.send s.channel.connected) = _ :=
        Connection.step_send _ hat
      obtain ⟨ready, hadvance, hreleased, hcoherent⟩ := h.advance_spec htoken hlive hsame hstep
      have hplaced : e.connection.task.Placed := by
        rw [hsame.connection]
        exact (h.holds token entry hlive).runs.placed
      have hsent : (e.connection.send record after s.channel.connected).sent =
          e.connection.sent := by simp [Connection.send, hcount]
      have hcharge := Connection.step_charge hplaced hstep
      have hawait : e.connection.task.await = .send record after := hat
      rw [hawait] at hcharge
      refine ⟨_, ?_, .exhausted hphase hlive hsame hat hcount hstep hsent hcharge hle hreleased,
        hcoherent⟩
      simp only [release_eq hle, Option.bind_eq_bind, Option.bind_some]
      have hadvance' : (s.released record.kind.charged).board.advance token e
          (.send (s.released record.kind.charged).channel.connected) = _ := hadvance
      rw [hadvance']
      rfl

theorem pollCopy_spec {e : Entry} {bytes : List UInt8} {after : AfterCopy} (now : Instant)
    (h : s.board.Coherent) (hphase : s.board.phase = .polling token)
    (hlive : s.board.live[token]? = some entry) (hsame : Board.SameTask entry e)
    (hat : e.await = .copy bytes after) :
    ∃ s', s.pollCopy now token e bytes = some s' ∧ s.Polled token s' ∧ s'.board.Coherent := by
  unfold pollCopy
  split_ifs with hlarge
  · have hregistered : e.registered ≠ true := by
      intro hregistered
      have hfits := (h.holds token entry hlive).fits bytes after
        (hsame.registered ▸ hregistered) (hsame.await_eq ▸ hat)
      exact absurd hfits (Nat.not_le_of_lt hlarge)
    refine plain_spec h hphase hlive hsame (Connection.step_copy now hat) (by rintro _ ⟨⟩)
      ?_ ?_ ?_
    · simp [Entry.request, hregistered]
    · rw [hat]
      rfl
    · rw [hat]
      exact if_pos hlarge
  · refine request_spec h hphase hlive hsame (by rw [hat]; rfl) ?_ (by rintro ⟨⟩)
    intro bytes' after' hcopy
    rw [hat] at hcopy
    cases hcopy
    omega

theorem permitted_spec {e : Entry} (input : PollInput) (h : s.board.Coherent) (hx : s.Exact)
    (hphase : s.board.phase = .polling token) (hlive : s.board.live[token]? = some entry)
    (hsame : Board.SameTask entry e) (hstart : e.await ≠ .start) :
    ∃ s', s.permitted input token e = some s' ∧ s.Polled token s' ∧ s'.board.Coherent := by
  unfold permitted
  cases hat : e.await with
  | start => exact absurd hat hstart
  | read => exact pollRead_spec input h hphase hlive hsame hat
  | feed bytes =>
      exact plain_spec h hphase hlive hsame (Connection.step_feed input.now hat) nofun
        (request_of_wants (by rw [hat]; rfl)) (by rw [hat]; rfl) (by rw [hat]; rfl)
  | typed raw offset bytes =>
      exact plain_spec h hphase hlive hsame (Connection.step_typed input.now hat) nofun
        (request_of_wants (by rw [hat]; rfl)) (by rw [hat]; rfl) (by rw [hat]; rfl)
  | copy bytes after => exact pollCopy_spec input.now h hphase hlive hsame hat
  | send record after => exact pollSend_spec h hx hphase hlive hsame hat
  | returned failure =>
      have hreturned := (h.holds token entry hlive).returned.mp ⟨failure, hsame.await_eq ▸ hat⟩
      rw [hphase] at hreturned
      cases hreturned
  | panicked =>
      have hplaced := (h.holds token entry hlive).runs.placed
      have hawait : entry.await = .panicked := hsame.await_eq ▸ hat
      rw [Entry.await] at hawait
      simp [Task.Placed, hawait] at hplaced

theorem poll_spec (input : PollInput) (h : s.board.Coherent) (hx : s.Exact)
    (hphase : s.board.phase = .polling token) :
    ∃ s', s.poll input = some s' ∧ s.Polled token s' ∧ s'.board.Coherent := by
  obtain ⟨entry, hlive⟩ := h.entry_of_turn (by rw [hphase]; rfl : s.board.phase.token = some token)
  unfold poll
  simp only [hphase, hlive, Option.bind_eq_bind, Option.bind_some]
  split_ifs with hstart hremaining
  · exact plain_spec h hphase hlive ⟨rfl, rfl⟩ (Connection.step_start input.now hstart) nofun
      (request_of_wants (by rw [hstart]; rfl)) (by rw [hstart]; rfl) (by rw [hstart]; rfl)
  · exact yield_spec h hphase hlive ⟨rfl, rfl⟩ (Board.lookup_same hlive)
  · exact permitted_spec input h hx hphase hlive ⟨rfl, rfl⟩ hstart

/-- The request that has its turn belongs to the polled task. -/
theorem attempting_request {k : Resource} (h : s.board.Coherent)
    (hphase : s.board.phase = .attempting token k)
    (hlive : s.board.live[token]? = some entry) : entry.request = some k := by
  rw [← h.mem_requests hlive]
  exact List.mem_of_head? (h.first token k (Or.inl hphase))

theorem request_eq_some {e : Entry} {k : Resource} (h : e.request = some k) :
    e.registered = true ∧ e.await.wants = some k := by
  unfold Entry.request at h
  split_ifs at h with hregistered
  exact ⟨hregistered, h⟩

/-- The phase behind an attempt that found the resource full. -/
theorem coherent_full {k : Resource} (h : s.board.Coherent)
    (hphase : s.board.phase = .attempting token k)
    (hlive : s.board.live[token]? = some entry) :
    Board.Coherent { s.board.attempted token k with phase := .full token k } := by
  have htoken : s.board.phase.token = some token := by rw [hphase]; rfl
  have hfirst := h.first token k (Or.inl hphase)
  refine h.turned (Or.inr htoken) (by simp [hlive]) ?_ (e := entry)
  constructor
  case settings => rfl
  case live => exact Board.lookup_same hlive
  case departed => rfl
  case consistent => exact h.consistent
  case capacity => rfl
  case aside => exact fun u _ ↦ Or.inl rfl
  case exists_state =>
    have hstate := h.live token
    rw [hlive] at hstate
    exact hstate
  case requests =>
    intro j u
    split_ifs with hu
    · rw [← hu]
      exact h.mem_requests hlive j
    · rfl
  case waiting =>
    intro reason hwaiting
    have hreason := h.waiting token reason hwaiting
    rw [hlive] at hreason
    exact hreason
  case running => exact fun _ ↦ rfl
  case phase => exact Or.inr rfl
  case turn => exact fun _ ↦ h.turn token htoken
  case first =>
    intro j hj
    obtain rfl : k = j := by simpa using hj
    exact hfirst
  case holds =>
    refine (h.holds token entry hlive).same ⟨rfl, rfl⟩ rfl ?_ nofun
    rw [hphase]
    simp

theorem attemptCopy_spec {bytes : List UInt8} {after : AfterCopy} (now : Instant)
    (h : s.board.Coherent) (hx : s.Exact) (hphase : s.board.phase = .attempting token .bytes)
    (hlive : s.board.live[token]? = some entry) (hat : entry.await = .copy bytes after) :
    ∃ s', { s with board := s.board.attempted token .bytes }.attemptCopy now token entry bytes =
        some s' ∧ s.Polled token s' ∧ s'.board.Coherent := by
  have htoken : s.board.phase.token = some token := by rw [hphase]; rfl
  have hrequest := attempting_request h hphase hlive
  have hfits : bytes.length ≤ s.capacity :=
    (h.holds token entry hlive).fits bytes after (request_eq_some hrequest).1 hat
  have hnot : ¬ s.budget.capacity.val < bytes.length := by
    have hle : bytes.length ≤ s.budget.capacity.val := hfits
    omega
  have hused : s.budget.used ≤ s.budget.capacity.val := hx.le_capacity
  by_cases hroom : bytes.length ≤ s.capacity - s.used
  · have hreserve : s.budget.tryReserve bytes.length =
        some (.ok { s.budget with used := s.budget.used + bytes.length }) := by
      unfold ByteBudget.tryReserve
      rw [if_neg hnot]
      exact ByteBudget.reserve_of_le hused hroom
    have hstep : entry.connection.step s.capacity (.copy now) = _ := Connection.step_copy now hat
    obtain ⟨ready, hadvance, hreleased, hcoherent⟩ :=
      (h.with_log (s.board.log ++ [.attempted token .bytes])).advance_spec htoken hlive ⟨rfl, rfl⟩
        hstep
    have hplaced := (h.holds token entry hlive).runs.placed
    have hcharge := Connection.step_charge hplaced hstep
    have hawait : entry.connection.task.await = .copy bytes after := hat
    rw [hawait, Await.grant, if_neg (by omega)] at hcharge
    refine ⟨_, ?_, .copied hphase hlive hat hstep hrequest (Connection.step_sent hstep nofun) hroom
      hcharge hreleased, hcoherent⟩
    have hreserve' : budget { s with board := s.board.attempted token .bytes } = s.budget := rfl
    have hadvance' : (s.board.attempted token .bytes).advance token entry (.copy now) = _ := hadvance
    simp only [attemptCopy, hreserve', hreserve, onBoard, hadvance']
    rfl
  · have hreserve : s.budget.tryReserve bytes.length =
        some (.error (.full bytes.length (s.budget.capacity.val - s.budget.used))) := by
      unfold ByteBudget.tryReserve
      rw [if_neg hnot]
      exact ByteBudget.reserve_of_lt hused (Nat.lt_of_not_le hroom)
    refine ⟨_, ?_, .blocked hphase hlive ⟨bytes, after, hat, Nat.lt_of_not_le hroom⟩,
      coherent_full h hphase hlive⟩
    have hreserve' : budget { s with board := s.board.attempted token .bytes } = s.budget := rfl
    simp only [attemptCopy, hreserve', hreserve]

theorem attemptSend_spec {record : Record} {after : AfterSend}
    (h : s.board.Coherent) (hx : s.Exact) (hphase : s.board.phase = .attempting token .queue)
    (hlive : s.board.live[token]? = some entry) (hat : entry.await = .send record after) :
    ∃ s', { s with board := s.board.attempted token .queue }.attemptSend token entry record =
        some s' ∧ s.Polled token s' ∧ s'.board.Coherent := by
  have htoken : s.board.phase.token = some token := by rw [hphase]; rfl
  have hrequest := attempting_request h hphase hlive
  have hholds := h.holds token entry hlive
  have hcount := hholds.counted hphase
  have hawait : entry.connection.task.await = .send record after := hat
  have hadvance (connected : Bool) : ∃ ready connection,
      (s.board.attempted token .queue).advance token entry (.send connected) =
          some ((s.board.attempted token .queue).advanced token entry connection ready) ∧
        entry.connection.step s.capacity (.send connected) = some connection ∧
        connection.task.await.charge = 0 ∧
        Board.Released s.board.ready token entry.request ready ∧
        ((s.board.attempted token .queue).advanced token entry connection ready).Coherent := by
    have hstep : entry.connection.step s.capacity (.send connected) = _ :=
      Connection.step_send connected hat
    obtain ⟨ready, hadvance, hreleased, hcoherent⟩ :=
      (h.with_log (s.board.log ++ [.attempted token .queue])).advance_spec htoken hlive ⟨rfl, rfl⟩
        hstep
    have hcharge := Connection.step_charge hholds.runs.placed hstep
    rw [hawait] at hcharge
    exact ⟨ready, _, hadvance, hstep, hcharge, hreleased, hcoherent⟩
  have hsent := s.channel.trySend_sent record
  unfold attemptSend
  dsimp only
  cases htry : s.channel.trySend record with
  | ok channel =>
      rw [htry] at hsent
      cases hsent with
      | accepted _ hconnected hslots hbuffer hstill =>
          obtain ⟨ready, connection, hboard, hstep, hcharge, hreleased, hcoherent⟩ := hadvance true
          exact ⟨_, by simp [onBoard, hboard], .sent hphase hlive hat hstep hrequest
            (Connection.step_sent_send hat hcount hstep) hcharge hconnected hslots hbuffer hstill
            hreleased, hcoherent⟩
  | error failure =>
      rw [htry] at hsent
      cases hsent with
      | full hconnected hfull =>
          exact ⟨_, rfl, .blocked hphase hlive ⟨hconnected, hfull⟩, coherent_full h hphase hlive⟩
      | disconnected hconnected =>
          have hle : record.kind.charged ≤ s.used := by
            have hcharge := charge_le_used hx hlive
            rw [hat] at hcharge
            exact hcharge
          obtain ⟨ready, connection, hboard, hstep, hcharge, hreleased, hcoherent⟩ := hadvance false
          refine ⟨_, ?_, .refused hphase hlive hat hstep hrequest
            (Connection.step_sent hstep nofun) hcharge hconnected hle hreleased, hcoherent⟩
          have hrelease : release { s with board := s.board.attempted token .queue }
              record.kind.charged =
                some (released { s with board := s.board.attempted token .queue }
                  record.kind.charged) := release_eq hle
          simp only [hrelease, Option.bind_eq_bind, Option.bind_some]
          have hboard' : (released { s with board := s.board.attempted token .queue }
              record.kind.charged).board.advance token entry (.send false) = _ := hboard
          rw [hboard']
          rfl

theorem attempt_spec {k : Resource} (now : Instant) (h : s.board.Coherent) (hx : s.Exact)
    (hphase : s.board.phase = .attempting token k) :
    ∃ s', s.attempt now = some s' ∧ s.Polled token s' ∧ s'.board.Coherent := by
  obtain ⟨entry, hlive⟩ := h.entry_of_turn (by rw [hphase]; rfl : s.board.phase.token = some token)
  have hwants := (request_eq_some (attempting_request h hphase hlive)).2
  unfold attempt
  simp only [hphase, hlive, Option.bind_eq_bind, Option.bind_some]
  cases hat : entry.await with
  | copy bytes after =>
      rw [hat] at hwants
      cases hwants
      exact attemptCopy_spec now h hx hphase hlive hat
  | send record after =>
      rw [hat] at hwants
      cases hwants
      exact attemptSend_spec h hx hphase hlive hat
  | _ =>
      rw [hat] at hwants
      cases hwants

theorem parkFull_spec {k : Resource} (h : s.board.Coherent)
    (hphase : s.board.phase = .full token k) :
    ∃ s', s.parkFull = some s' ∧ s.Polled token s' ∧ s'.board.Coherent := by
  have htoken : s.board.phase.token = some token := by rw [hphase]; rfl
  obtain ⟨entry, hlive⟩ := h.entry_of_turn htoken
  have hrequest : entry.request = some k := by
    rw [← h.mem_requests hlive]
    exact List.mem_of_head? (h.first token k (Or.inr hphase))
  have hreason : entry.waitsFor = some k.reason := by
    unfold Entry.waitsFor
    rw [hrequest, if_neg]
    · rfl
    · intro hread
      have hwants := (request_eq_some hrequest).2
      rw [hread] at hwants
      cases hwants
  obtain ⟨ready, state, hstate, hturn, hpark, _, _, htokens, hstates, hcoherent⟩ :=
    h.park_spec htoken (by rw [hphase]; nofun) hlive ⟨rfl, rfl⟩ hreason
      (Board.lookup_same hlive)
  exact ⟨_, by simp [parkFull, hphase, onBoard, hpark],
    .parked (Or.inr ⟨k, hphase⟩) hlive ⟨rfl, rfl⟩ (Board.lookup_same hlive) htokens hstate hturn
      hstates, hcoherent⟩

theorem take_spec (h : s.board.Coherent) (hphase : s.board.phase = .idle) :
    ∃ s', s.onBoard s.board.take = some s' ∧ s.Move s' ∧ s'.board.Coherent := by
  rcases h.take_spec hphase with
    ⟨_, htake⟩ | ⟨token, entry, ready, hhead, hlive, htake, hwaiters, hstates, hcoherent⟩
  · exact ⟨s, by simp [onBoard, htake], .shared .unchanged, h⟩
  · exact ⟨_, by simp [onBoard, htake], .took hphase hlive hhead hwaiters hstates, hcoherent⟩

theorem retire_spec (h : s.board.Coherent) (hx : s.Exact)
    (hphase : s.board.phase.betweenPolls = true) (hlive : s.board.live[token]? = some entry) :
    ∃ ready, s.retire token =
        some { s.released entry.await.charge with board := s.board.without token entry ready } ∧
      s.Move { s.released entry.await.charge with board := s.board.without token entry ready } ∧
      (s.board.without token entry ready).Coherent := by
  have hle := charge_le_used hx hlive
  obtain ⟨ready, hretire, hretired, hcoherent⟩ := h.retire_spec hphase hlive
  refine ⟨ready, ?_, .retired hphase hlive hle hretired, hcoherent⟩
  have hrelease : release { s with board := s.board.without token entry ready }
      entry.await.charge = _ := release_eq hle
  simp [retire, hlive, hretire, hrelease, released]

theorem insert_spec (peer : SocketAddr) (h : s.board.Coherent)
    (hfresh : s.board.live[token]? = none) (hdeparted : s.board.departed[token]? = none)
    (hsubscribed : s.subscribed = true)
    (hroom : s.board.live.size < s.board.settings.limits.maxConnections.val) :
    ∃ ready, s.onBoard (s.board.insert token peer) = some { s with board := { s.board with
        ready
        live := s.board.live.insert token ⟨s.board.admitted token peer, 0, false⟩ } } ∧
      s.Move { s with board := { s.board with
        ready
        live := s.board.live.insert token ⟨s.board.admitted token peer, 0, false⟩ } } ∧
      Board.Coherent { s.board with
        ready
        live := s.board.live.insert token ⟨s.board.admitted token peer, 0, false⟩ } := by
  obtain ⟨ready, hinsert, hwaiters, hstates, hcoherent⟩ :=
    h.insert_spec peer hfresh hdeparted hroom
  exact ⟨ready, by simp [onBoard, hinsert], .inserted hfresh hdeparted hsubscribed hwaiters hstates,
    hcoherent⟩

theorem takeCredit_spec (k : Resource) (h : s.board.Coherent) :
    ∃ s', s.takeCredit k = some s' ∧ s.Move s' ∧ s'.board.Coherent := by
  unfold takeCredit
  split_ifs
  · obtain ⟨ready, inserted, hresume, _, hwoke⟩ := h.consistent.resumeCredit_spec k
    exact ⟨_, by simp [onBoard, Board.resumeCredit, hresume], .credited hwoke, h.woke hwoke⟩
  · exact ⟨s, rfl, .shared .unchanged, h⟩

theorem ioReady_spec (token : Token) (h : s.board.Coherent) :
    ∃ s', s.onBoard (s.board.ioReady token) = some s' ∧ s.Move s' ∧ s'.board.Coherent := by
  obtain ⟨ready, hready, _, hwoke⟩ := h.consistent.ioReady_spec token
  exact ⟨_, by simp [onBoard, Board.ioReady, hready], .woke hwoke, h.woke hwoke⟩

theorem wake_spec (token : Token) (h : s.board.Coherent) :
    ∃ s', s.onBoard (s.board.wake token) = some s' ∧ s.Move s' ∧ s'.board.Coherent := by
  obtain ⟨ready, inserted, henqueue, hwoke⟩ := h.consistent.toSound.enqueue_woke token
  exact ⟨_, by simp [onBoard, Board.wake, henqueue], .woke hwoke, h.woke hwoke⟩

end Worker

/-! ## Every action is a move -/

theorem shared_of_step {s s' : Engine} {signals : Signals}
    (hdue : ∀ signal, signal ≠ .control → s.signals.Due signal → signals.Due signal)
    (h : s' = { s with signals }) : s.Move s' ∧ s'.board = s.board := by
  subst h
  exact ⟨.shared (.signalled hdue), rfl⟩

theorem receive_move {s s' : Engine} (h : s.receive = some s') :
    s.Move s' ∧ s'.board = s.board := by
  unfold receive at h
  split at h
  · cases h
  · next record channel hrecv =>
      cases h
      obtain ⟨hbuffer, hslots, hconnected⟩ := Channel.tryRecv_eq_some hrecv
      exact ⟨.shared (.received hbuffer hslots hconnected), rfl⟩

theorem discard_move {s s' : Engine} {index : ℕ} (hx : s.Exact) (h : s.discard index = some s') :
    s.Move s' ∧ s'.board = s.board := by
  unfold discard at h
  cases hindex : s.outside[index]? with
  | none => simp [hindex] at h
  | some bytes =>
      have hle : bytes ≤ s.used := by
        have hmem : bytes ≤ s.outside.sum := List.le_sum_of_mem (List.mem_of_getElem? hindex)
        have hused := hx.used
        omega
      have hrelease := ByteBudget.release_of_le (b := s.budget) hle
      simp only [hindex, hrelease, Option.bind_eq_bind, Option.bind_some, Option.some.injEq] at h
      subst h
      have hmove : s.Move _ := .shared (.discarded hindex hle)
      have hnotify : (decide (bytes ≠ 0) && s.budget.subscribed) = true ↔
          bytes ≠ 0 ∧ s.subscribed = true := by simp [budget]
      refine ⟨?_, rfl⟩
      simp only [hnotify]
      exact hmove

theorem copyOutside_move {s s' : Engine} {bytes : ℕ} (hx : s.Exact)
    (h : s.copyOutside bytes = some s') : s.Move s' ∧ s'.board = s.board := by
  have hused : s.budget.used ≤ s.budget.capacity.val := hx.le_capacity
  unfold copyOutside ByteBudget.tryReserve at h
  by_cases hlarge : s.budget.capacity.val < bytes
  · simp only [if_pos hlarge, Option.some.injEq] at h
    subst h
    exact ⟨.shared .unchanged, rfl⟩
  · rw [if_neg hlarge] at h
    by_cases hroom : bytes ≤ s.budget.capacity.val - s.budget.used
    · simp only [ByteBudget.reserve_of_le hused hroom, Option.some.injEq] at h
      subst h
      exact ⟨.shared (.copied hroom), rfl⟩
    · simp only [ByteBudget.reserve_of_lt hused (Nat.lt_of_not_le hroom), Option.some.injEq] at h
      subst h
      exact ⟨.shared .unchanged, rfl⟩

theorem disconnect_move {s s' : Engine} (h : s.disconnect = some s') :
    s.Move s' ∧ s'.board = s.board := by
  unfold disconnect at h
  split_ifs at h with hconnected
  cases h
  exact ⟨.shared (.disconnected hconnected), rfl⟩

/-- On a coherent board with an exact account every action is a move to a
coherent board. -/
theorem move_of_step {s s' : Engine} {a : Action} (h : s.board.Coherent) (hx : s.Exact)
    (hstep : s.step a = some s') : s.Move s' ∧ s'.board.Coherent := by
  have hspec {o : Option Engine} (hspec : ∃ t, o = some t ∧ s.Move t ∧ t.board.Coherent)
      (ho : o = some s') : s.Move s' ∧ s'.board.Coherent := by
    obtain ⟨t, ht, hmove, hcoherent⟩ := hspec
    rw [ho, Option.some.injEq] at ht
    exact ht ▸ ⟨hmove, hcoherent⟩
  have hpoll {o : Option Engine} {token : Token}
      (hpoll : ∃ t, o = some t ∧ s.Polled token t ∧ t.board.Coherent) (ho : o = some s') :
      s.Move s' ∧ s'.board.Coherent := by
    obtain ⟨t, ht, hpolled, hcoherent⟩ := hpoll
    exact hspec ⟨t, ht, .polled hpolled, hcoherent⟩ ho
  have hshared (hmove : s.Move s' ∧ s'.board = s.board) : s.Move s' ∧ s'.board.Coherent :=
    ⟨hmove.1, hmove.2 ▸ h⟩
  cases a with
  | insert token peer =>
      simp only [step] at hstep
      split_ifs at hstep with hguard
      obtain ⟨hdeparted, hsubscribed⟩ := hguard
      have hinsert := hstep
      unfold onBoard Board.insert at hinsert
      cases hready : s.board.ready.insert token with
      | none => simp [hready] at hinsert
      | some ready =>
          by_cases hfresh : s.board.live[token]? = none
          · have hroom : s.board.live.size < s.board.settings.limits.maxConnections.val := by
              rw [← h.size_eq, ← h.capacity]
              unfold Ready.insert at hready
              split_ifs at hready with hroom
              exact hroom.1
            obtain ⟨ready', hboard, hmove, hcoherent⟩ :=
              insert_spec peer h hfresh hdeparted hsubscribed hroom
            rw [hstep, Option.some.injEq] at hboard
            subst hboard
            exact ⟨hmove, hcoherent⟩
          · have hsome := Option.isSome_iff_ne_none.mpr hfresh
            simp [hready, hsome] at hinsert
  | take =>
      simp only [step] at hstep
      split_ifs at hstep with hphase
      exact hspec (take_spec h hphase) hstep
  | poll input =>
      cases hphase : s.board.phase with
      | polling token => exact hpoll (poll_spec input h hx hphase) hstep
      | _ => simp [step, poll, hphase] at hstep
  | attempt now =>
      cases hphase : s.board.phase with
      | attempting token k => exact hpoll (attempt_spec now h hx hphase) hstep
      | _ => simp [step, attempt, hphase] at hstep
  | parkFull =>
      cases hphase : s.board.phase with
      | full token k => exact hpoll (parkFull_spec h hphase) hstep
      | _ => simp [step, parkFull, hphase] at hstep
  | retire token =>
      simp only [step] at hstep
      split_ifs at hstep with hphase
      cases hlive : s.board.live[token]? with
      | none => simp [retire, hlive] at hstep
      | some entry =>
          obtain ⟨ready, hretire, hmove, hcoherent⟩ := retire_spec h hx hphase hlive
          rw [hstep, Option.some.injEq] at hretire
          subst hretire
          exact ⟨hmove, hcoherent⟩
  | takeCredit k => exact hspec (takeCredit_spec k h) hstep
  | ioReady token => exact hspec (ioReady_spec token h) hstep
  | wake token => exact hspec (wake_spec token h) hstep
  | subscribe subscribed =>
      simp only [step] at hstep
      split_ifs at hstep with hempty
      cases hstep
      exact ⟨.shared (.subscribed hempty), h⟩
  | takeControl =>
      cases hstep
      exact hshared (shared_of_step (fun signal hne hdue ↦ (Signals.due_clear hne).mpr hdue) rfl)
  | takeFailure =>
      cases hstep
      refine hshared (shared_of_step ?_ rfl)
      exact fun _ _ hdue ↦ hdue
  | receive => exact hshared (receive_move hstep)
  | discard index => exact hshared (discard_move hx hstep)
  | copyOutside bytes => exact hshared (copyOutside_move hx hstep)
  | disconnect => exact hshared (disconnect_move hstep)
  | owe =>
      cases hstep
      exact hshared (shared_of_step (fun _ _ hdue ↦ Signals.due_owe.mpr (Or.inr hdue)) rfl)
  | publish signal =>
      simp only [step, Option.map_eq_some_iff] at hstep
      obtain ⟨signals, hpublish, rfl⟩ := hstep
      exact hshared (shared_of_step (fun _ _ hdue ↦ Signals.due_publish hpublish hdue) rfl)
  | stop =>
      cases hstep
      exact hshared (shared_of_step (fun _ _ hdue ↦ Signals.due_set.mpr (Or.inr hdue)) rfl)
  | wakeFailed error =>
      cases hstep
      refine hshared (shared_of_step ?_ rfl)
      exact fun _ _ hdue ↦ hdue

end Engine

end Phonowire.Receiver
