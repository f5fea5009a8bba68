import Phonowire.Receiver.Alone
import Phonowire.Receiver.Course
import Phonowire.Receiver.Transcript

/-!
# What the channel holds of each connection

A connection of a receiver is a run of its task, whatever the other tasks, the
consumer and the scheduler do between its steps. Its records in the channel are
those that its task handed off, so they are a beginning of what it would hand
off alone, and the reference transcript of its stream once it has completed.
-/

namespace Phonowire.Receiver

open AudioSocket

namespace Connection

variable {capacity : ℕ} {c d : Connection} {e : Event}

/-- The task returned, and not because its consumer was gone. -/
def Completed (c : Connection) : Prop :=
  ∃ failure, c.task.await = .returned failure ∧
    ∀ record, failure ≠ some (record, .disconnected)

theorem move_failed {t u : Task} {effect : Effect} (h : t.Move capacity effect u)
    {record : Record} {failure : SendFailure}
    (hat : u.await = .returned (some (record, failure))) :
    effect = .silent ∧ (∃ after, t.await = .send record after) ∧
      (failure = .counterOverflow ∧ u.progress.counterOverflow = true ∨
        failure = .disconnected ∧ t.nextCount ≠ none) := by
  cases h with
  | begin now _ => cases hat
  | readStop now _ hfinal hreason => cases hat
  | readChunk now _ hne hlength hfits => cases hat
  | readOverflow now _ hne hlength hover => cases hat
  | feedNeed _ hopen hneed hcap hnext => cases hat
  | feedOversize now next _ hopen hoversize hcap hconsumed hrest => cases hat
  | feedFrame _ hopen hframe hcap hnext hconsumed hrest => cases hat
  | invalid now _ htyped => cases hat
  | rejected now _ htyped hreceive => cases hat
  | @observed now raw offset input message session event _ htyped hreceive =>
      cases event with
      | ended uuid reason => cases reason <;> cases hat
      | _ => cases hat
  | @copied now bytes after _ hfits => cases after <;> cases hat
  | @refused now bytes after _ hover => cases after <;> cases hat
  | @exhausted record after hsend hover =>
      cases hat
      exact ⟨rfl, ⟨after, hsend⟩, Or.inl ⟨rfl, rfl⟩⟩
  | @disconnected record after hsend hfits =>
      cases hat
      refine ⟨rfl, ⟨after, hsend⟩, Or.inr ⟨rfl, ?_⟩⟩
      rw [Task.nextCount, Ne, checkedAdd_eq_none_iff]
      omega
  | @accepted record after hsend hfits =>
      have hhold := congrArg Await.holding hat
      rw [Task.holding_afterSent] at hhold
      cases hhold

/-- Only a send without its consumer ends a task as disconnected. -/
theorem step_disconnected {record : Record} (hplaced : c.task.Placed)
    (h : c.step capacity e = some d)
    (hat : d.task.await = .returned (some (record, .disconnected))) :
    e = .send false ∧ c.task.nextCount ≠ none := by
  obtain ⟨effect, hmove, hreads, hsent⟩ := move_of_step hplaced h
  obtain ⟨rfl, ⟨after, hsend⟩, hcause⟩ := move_failed hmove hat
  have hcount : c.task.nextCount ≠ none := by
    rcases hcause with ⟨hfailure, _⟩ | ⟨_, hcount⟩
    · cases hfailure
    · exact hcount
  refine ⟨?_, hcount⟩
  cases e with
  | send connected =>
      cases connected with
      | false => rfl
      | true =>
          have hmore := step_sent_send hsend hcount h
          rw [hmore] at hsent
          simp [Effect.records] at hsent
  | _ => simp [step, hsend] at h

/-- A task that gave up on a counter says so. -/
theorem counterOverflow_of_reachable {id : ConnectionId} {peer : SocketAddr} {payloadCapacity : ℕ}
    {profile : IncomingProfile} {record : Record}
    (h : Machine.Reachable (step capacity) (new id peer payloadCapacity profile) c)
    (hat : c.task.await = .returned (some (record, .counterOverflow))) :
    c.task.progress.counterOverflow = true := by
  have hinv := reachable_induction (I := fun c ↦ ∀ record,
    c.task.await = .returned (some (record, .counterOverflow)) →
      c.task.progress.counterOverflow = true) h nofun ?_
  · exact hinv.2 record hat
  · intro c d effect _ _ hmove _ _ record hd
    rcases (move_failed hmove hd).2.2 with ⟨_, hover⟩ | ⟨hfailure, _⟩
    · exact hover
    · cases hfailure

theorem Completed.returned_none {id : ConnectionId} {peer : SocketAddr} {payloadCapacity : ℕ}
    {profile : IncomingProfile} (hc : c.Completed)
    (hreachable : Machine.Reachable (step capacity) (new id peer payloadCapacity profile) c)
    (hover : c.task.progress.counterOverflow = false) : c.task.await = .returned none := by
  obtain ⟨failure, hat, hne⟩ := hc
  rcases failure with _ | ⟨record, failure⟩
  · exact hat
  · cases failure with
    | disconnected => exact absurd rfl (hne record)
    | counterOverflow =>
        rw [counterOverflow_of_reachable hreachable hat] at hover
        cases hover

end Connection

/-! ## The connection under a token -/

namespace Board

/-- The connection under `token`, live or retired. -/
def connection (b : Board) (token : Token) : Option Connection :=
  (b.live[token]?.map (·.connection)).or b.departed[token]?

variable {b b' : Board} {token : Token} {c : Connection}

theorem history_eq (b : Board) (token : Token) :
    b.history token = (b.connection token).map (·.sent) := by
  unfold history connection
  cases b.live[token]? <;> simp

theorem Coherent.connection_runs (h : b.Coherent) (hc : b.connection token = some c) :
    Runs b.settings token c := by
  unfold connection at hc
  cases hlive : b.live[token]? with
  | none =>
      rw [hlive] at hc
      exact h.departed token c hc
  | some entry =>
      rw [hlive] at hc
      cases hc
      exact (h.holds token entry hlive).runs

/-- A connection runs under the peer address that its task keeps. -/
theorem Runs.reachable {settings : Settings} (h : Runs settings token c) :
    Machine.Reachable (Connection.step settings.capacity.val)
      (.new ⟨settings.instanceId, token⟩ c.task.peer settings.limits.payload settings.profile) c := by
  obtain ⟨peer, hreachable⟩ := h
  have hpeer : c.task.peer = peer := by
    refine (Connection.reachable_induction (I := fun c ↦ c.task.peer = peer) hreachable rfl ?_).2
    intro c d effect _ hc hmove _ _
    exact hmove.identity_eq.2.trans hc
  rw [hpeer]
  exact hreachable

/-- The connection under `u` afterwards: the same, a new one, or one step on. -/
inductive Grew (b : Board) (connected : Bool) (u : Token) (d : Connection) : Prop
  | same (h : b.connection u = some d)
  | admitted (peer : SocketAddr) (h : b.connection u = none) (hd : d = b.admitted u peer)
  | stepped (c : Connection) (event : Event) (h : b.connection u = some c)
      (hstep : c.step b.settings.capacity.val event = some d)
      (hsend : event = .send false → connected = false ∨ c.task.nextCount = none)

theorem connection_of_live {entry : Entry} (hlive : b.live[token]? = some entry) :
    b.connection token = some entry.connection := by
  simp [connection, hlive]

theorem Swapped.connection_eq {entry e : Entry} (h : b.Swapped token entry e b') (u : Token) :
    b'.connection u = if token = u then some e.connection else b.connection u := by
  unfold connection
  rw [h.live, h.departed]
  split_ifs <;> simp

theorem grew_same {entry e : Entry} {connected : Bool} {u : Token} {d : Connection}
    (hd : b'.connection u = some d) (h : b.Swapped token entry e b')
    (hsame : e.connection = entry.connection) : b.Grew connected u d := by
  rw [h.connection_eq] at hd
  split_ifs at hd with hu
  · cases hd
    subst hu
    rw [hsame]
    exact .same (connection_of_live h.before)
  · exact .same hd

theorem grew_step {entry e : Entry} {connected : Bool} {u : Token} {d : Connection}
    {event : Event} (hd : b'.connection u = some d) (h : b.Swapped token entry e b')
    (hstep : entry.connection.step b.settings.capacity.val event = some e.connection)
    (hsend : event = .send false → connected = false ∨ entry.connection.task.nextCount = none) :
    b.Grew connected u d := by
  rw [h.connection_eq] at hd
  split_ifs at hd with hu
  · cases hd
    subst hu
    exact .stepped entry.connection event (connection_of_live h.before) hstep hsend
  · exact .same hd

end Board

namespace Engine

variable {s s' : Engine} {token u : Token} {d : Connection}

theorem Polled.grew (h : s.Polled token s') (hd : s'.board.connection u = some d) :
    s.board.Grew s.channel.connected u d := by
  cases h with
  | yielded hphase hlive hsame hm hwoke =>
      exact Board.grew_same hd ⟨rfl, hlive, hm, rfl⟩ hsame.connection
  | parked hphase hlive hsame hm htokens hstate hturn hstates =>
      exact Board.grew_same hd ⟨rfl, hlive, hm, rfl⟩ hsame.connection
  | requested hphase hlive hsame hwants hhead =>
      exact Board.grew_same hd (Board.swapped_insert rfl hlive rfl rfl) hsame.connection
  | lined hphase hlive hsame hwants hhead htokens hstates =>
      exact Board.grew_same hd (Board.swapped_insert rfl hlive rfl rfl) hsame.connection
  | blocked hphase hlive hblocked => exact .same hd
  | advanced hphase hlive hsame hstep hrequest hsent hcharge hcharge' hreleased hevent =>
      refine Board.grew_step hd (Board.swapped_insert rfl hlive rfl rfl)
        (hsame.connection ▸ hstep) ?_
      exact fun heq ↦ absurd heq (hevent false)
  | copied hphase hlive hat hstep hrequest hsent hfits hcharge hreleased =>
      exact Board.grew_step hd (Board.swapped_insert rfl hlive rfl rfl) hstep nofun
  | sent hphase hlive hat hstep hrequest hsent hcharge hconnected hslots hbuffer hstill hreleased =>
      exact Board.grew_step hd (Board.swapped_insert rfl hlive rfl rfl) hstep nofun
  | refused hphase hlive hat hstep hrequest hsent hcharge hconnected hle hreleased =>
      exact Board.grew_step hd (Board.swapped_insert rfl hlive rfl rfl) hstep
        fun _ ↦ Or.inl hconnected
  | exhausted hphase hlive hsame hat hcount hstep hsent hcharge hle hreleased =>
      refine Board.grew_step hd (Board.swapped_insert rfl hlive rfl rfl)
        (hsame.connection ▸ hstep) ?_
      exact fun _ ↦ Or.inr (hsame.connection ▸ hcount)

theorem Move.grew (h : s.Move s') (hd : s'.board.connection u = some d) :
    s.board.Grew s.channel.connected u d := by
  cases h with
  | shared hshared =>
      have hboard : s'.board = s.board := by cases hshared <;> rfl
      exact .same (hboard ▸ hd)
  | woke hwoke => exact .same hd
  | credited hwoke => exact .same hd
  | @inserted token peer ready hfresh hdeparted hsubscribed hwaiters hstates =>
      unfold Board.connection at hd
      dsimp only at hd
      rw [Std.TreeMap.getElem?_insert_ite] at hd
      split_ifs at hd with hu
      · subst hu
        cases hd
        exact .admitted peer (by simp [Board.connection, hfresh, hdeparted]) rfl
      · exact .same hd
  | took hphase hlive hhead hwaiters hstates =>
      exact Board.grew_same hd (Board.swapped_insert rfl hlive rfl rfl) rfl
  | polled hpolled => exact hpolled.grew hd
  | @retired token entry ready hphase hlive hle hretired =>
      unfold Board.connection at hd
      dsimp only [Board.without] at hd
      rw [Std.TreeMap.getElem?_erase_ite, Std.TreeMap.getElem?_insert_ite] at hd
      split_ifs at hd with hu
      · subst hu
        cases hd
        exact .same (Board.connection_of_live hlive)
      · exact .same hd

theorem Move.settings_eq (h : s.Move s') : s'.board.settings = s.board.settings := by
  cases h with
  | shared hshared => cases hshared <;> rfl
  | polled hpolled => exact hpolled.keeps.1.settings
  | _ => rfl

/-- A disconnected consumer never comes back. -/
theorem Move.closed (h : s.Move s') (hclosed : s.channel.connected = false) :
    s'.channel.connected = false := by
  cases h with
  | shared hshared =>
      cases hshared with
      | received hbuffer hslots hconnected => exact hconnected.trans hclosed
      | disconnected hconnected => rfl
      | _ => exact hclosed
  | polled hpolled =>
      cases hpolled with
      | sent hphase hlive hat hstep hrequest hsent hcharge hconnected =>
          rw [hconnected] at hclosed
          cases hclosed
      | _ => exact hclosed
  | _ => exact hclosed

/-- While the consumer is there, no task has stopped for want of it. -/
def Uncut (s : Engine) : Prop :=
  s.channel.connected = true → ∀ token c record, s.board.connection token = some c →
    c.task.await ≠ .returned (some (record, .disconnected))

theorem uncut_new (settings : Settings) (outside : List ℕ) : (new settings outside).Uncut := by
  intro _ token c record hc
  simp [new, Board.new, Board.connection] at hc

theorem Uncut.move (h : s.Uncut) (hcoherent : s.board.Coherent) (hmove : s.Move s') :
    s'.Uncut := by
  intro hconnected u d record hd hat
  have hbefore : s.channel.connected = true := by
    cases hc : s.channel.connected with
    | true => rfl
    | false =>
        rw [hmove.closed hc] at hconnected
        cases hconnected
  cases hmove.grew hd with
  | same hsame => exact h hbefore u d record hsame hat
  | admitted peer hnone hnew =>
      subst hnew
      cases hat
  | stepped c event hc hstep hsend =>
      have hplaced := (hcoherent.connection_runs hc).placed
      obtain ⟨hevent, hcount⟩ := Connection.step_disconnected hplaced hstep hat
      rcases hsend hevent with hgone | hover
      · rw [hbefore] at hgone
        cases hgone
      · exact hcount hover

end Engine

/-! ## Whole runs -/

namespace World

variable {w : World}

/-- The connection under `token`, live or retired. -/
def connection (w : World) (token : Token) : Option Connection :=
  w.engine.board.connection token

/-- The records of one connection that the channel accepted. -/
def accepted (w : World) (token : Token) : List Record :=
  w.engine.accepted.filter (·.connection = w.engine.board.id token)

theorem uncut_of_reachable {settings : Settings} {outside : List ℕ}
    (hfits : outside.sum ≤ settings.capacity.val)
    (h : Machine.Reachable World.step (new settings outside) w) : w.engine.Uncut := by
  refine (h.invariant (I := fun w ↦ w.Steady ∧ w.engine.Uncut)
    ⟨steady_new settings hfits, Engine.uncut_new settings outside⟩ ?_).2
  rintro u a v ⟨hu, huncut⟩ hstep
  exact ⟨hu.step hstep, huncut.move hu.sound.coherent (move_of_step hu hstep)⟩

theorem settings_of_reachable {settings : Settings} {outside : List ℕ}
    (hfits : outside.sum ≤ settings.capacity.val)
    (h : Machine.Reachable World.step (new settings outside) w) :
    w.engine.board.settings = settings := by
  refine (h.invariant (I := fun w ↦ w.Steady ∧ w.engine.board.settings = settings)
    ⟨steady_new settings hfits, rfl⟩ ?_).2
  rintro u a v ⟨hu, hsettings⟩ hstep
  exact ⟨hu.step hstep, (move_of_step hu hstep).settings_eq.trans hsettings⟩

theorem accepted_eq {token : Token} {c : Connection} (h : w.Steady)
    (hc : w.connection token = some c) : w.accepted token = c.sent := by
  refine h.sound.handed.history token c.sent ?_
  rw [Board.history_eq]
  exact congrArg (Option.map (·.sent)) hc

/-- The transcript of a connection is a function of its byte stream: whatever
the chunks, the other connections and the schedule, the records of a completed
connection are the reference of its stream. The first part is about one task
over any budget that holds a chunk and a payload, the second about the
connections of a bound receiver with all that suspends them. -/
theorem transcript_of_stream :
    (∀ (capacity payloadCapacity : ℕ) (id : ConnectionId) (peer : SocketAddr)
      (profile : IncomingProfile) (c : Connection),
      max readBytes payloadCapacity ≤ capacity →
      Machine.Reachable (Connection.step capacity) (.new id peer payloadCapacity profile) c →
      c.Completed → c.task.progress.counterOverflow = false →
      ∀ (chunks : List (List UInt8)) (ending : ReadResult), (∀ chunk ∈ chunks, chunk ≠ []) →
        ending.data = [] → c.reads <+: chunks.map .ok ++ [ending] →
        c.Transcribes payloadCapacity profile chunks.flatten ending) ∧
    (∀ (settings : Settings) (outside : List ℕ) (w : World),
      outside.sum ≤ settings.capacity.val →
      Machine.Reachable World.step (new settings outside) w →
      ∀ token c, w.connection token = some c →
        (w.engine.channel.connected = true →
          (∃ failure, c.task.await = .returned failure) → c.Completed) ∧
        (c.Completed → c.task.progress.counterOverflow = false →
          ∀ (chunks : List (List UInt8)) (ending : ReadResult), (∀ chunk ∈ chunks, chunk ≠ []) →
            ending.data = [] → c.reads <+: chunks.map .ok ++ [ending] →
            w.accepted token = c.sent ∧
            c.Transcribes settings.limits.payload settings.profile chunks.flatten ending)) := by
  refine ⟨?_, ?_⟩
  · intro capacity payloadCapacity id peer profile c hcapacity hrun hcompleted hover chunks ending
      hne hending hreads
    have hfaithful := (Connection.faithful_of_reachable hcapacity hrun).2
    exact hfaithful.transcribes (hcompleted.returned_none hrun hover) hover hne hending hreads
  · intro settings outside w hfits hreachable token c hc
    have hsteady := steady_of_reachable hfits hreachable
    have hruns := (hsteady.sound.coherent.connection_runs hc).reachable
    rw [settings_of_reachable hfits hreachable] at hruns
    refine ⟨?_, ?_⟩
    · rintro hconnected ⟨failure, hat⟩
      refine ⟨failure, hat, ?_⟩
      rintro record rfl
      exact uncut_of_reachable hfits hreachable hconnected token c record hc hat
    · intro hcompleted hover chunks ending hne hending hreads
      have hnone := hcompleted.returned_none hruns hover
      have hfaithful := (Connection.faithful_of_reachable settings.fits hruns).2
      exact ⟨accepted_eq hsteady hc, hfaithful.transcribes hnone hover hne hending hreads⟩

theorem transcript_of_stream_hangup :
    ∃ w c, Machine.run World.step (new eightSlots []) (Step.admission ++ Step.works 26 .hangup) =
        some w ∧ w.connection 2 = some c ∧ w.accepted 2 = c.sent ∧
      c.Transcribes 16 .allKnownRates [0, 0, 0] (.ok []) := by
  obtain ⟨w, hw, hfinal⟩ := Machine.exists_of_run World.step (new eightSlots [])
    (Step.admission ++ Step.works 26 .hangup)
    (fun w ↦ (w.connection 2).any (fun c ↦ decide (c.task.await = .returned none ∧
      c.task.progress.counterOverflow = false ∧ c.reads = [.ok [0, 0, 0]])) = true)
    (by decide +kernel)
  rw [Option.any_eq_true] at hfinal
  obtain ⟨c, hc, hstate⟩ := hfinal
  obtain ⟨hat, hover, hreads⟩ := of_decide_eq_true hstate
  have htranscript := (transcript_of_stream.2 eightSlots [] w (by decide) ⟨_, hw⟩ 2 c hc).2
    ⟨none, hat, nofun⟩ hover [[0, 0, 0]] (.ok []) (by simp) rfl (by simp [hreads])
  exact ⟨w, c, hw, hc, htranscript⟩

/-- Connections never mix: what the channel accepted from one of them is a
beginning of what it hands off alone on the same reads, and all of it once it
has completed. -/
theorem connections_never_mix (settings : Settings) (outside : List ℕ)
    (hfits : outside.sum ≤ settings.capacity.val) (w : World)
    (hreachable : Machine.Reachable World.step (new settings outside) w) :
    (w.engine.received <+: w.engine.accepted) ∧
    (w.engine.channel.connected = true →
      w.engine.received ++ w.engine.channel.buffer = w.engine.accepted) ∧
    (∀ record ∈ w.engine.accepted, ∃ token c, record.connection = w.engine.board.id token ∧
      w.connection token = some c) ∧
    (∀ token c, w.connection token = some c →
      (w.accepted token).map Record.untimed <+:
        (Connection.alone settings.capacity.val settings.limits.payload settings.profile
          (w.engine.board.id token) c.task.peer c.reads).sent ∧
      (c.Completed → (w.accepted token).map Record.untimed =
        (Connection.alone settings.capacity.val settings.limits.payload settings.profile
          (w.engine.board.id token) c.task.peer c.reads).sent) ∧
      (w.engine.channel.connected = true →
        (∃ failure, c.task.await = .returned failure) → c.Completed)) := by
  have hsteady := steady_of_reachable hfits hreachable
  have hsettings := settings_of_reachable hfits hreachable
  have hhanded := hsteady.sound.handed
  refine ⟨hhanded.taken, hhanded.queued, ?_, ?_⟩
  · intro record hrecord
    obtain ⟨token, hid, hhistory⟩ := hhanded.known record hrecord
    rw [Board.history_eq, Option.isSome_map, Option.isSome_iff_exists] at hhistory
    obtain ⟨c, hc⟩ := hhistory
    exact ⟨token, c, hid, hc⟩
  · intro token c hc
    have hruns := hsteady.sound.coherent.connection_runs hc
    have hshares : c.Shares settings.capacity.val settings.limits.payload settings.profile
        (w.engine.board.id token) c.task.peer := by
      rw [← hsettings]
      exact (Connection.shares_of_reachable hruns.reachable).2
    rw [accepted_eq hsteady hc]
    refine ⟨hshares.records, ?_, ?_⟩
    · rintro ⟨failure, hat, hne⟩
      refine hshares.whole (Or.inr ⟨failure, hat⟩) ?_
      intro record hcut
      rw [hat] at hcut
      exact hne record (Await.returned.inj hcut)
    · rintro hconnected ⟨failure, hat⟩
      refine ⟨failure, hat, ?_⟩
      rintro record rfl
      exact uncut_of_reachable hfits hreachable hconnected token c record hc hat

theorem connections_never_mix_two_callers :
    ∃ w c d, Machine.run World.step (new eightSlots [])
        (Step.works 13 .quiet ++ Step.works 2 .caller ++ Step.works 40 .hangup) = some w ∧
      w.connection 2 = some c ∧ w.connection 3 = some d ∧
      (w.accepted 2).map Record.untimed =
        (Connection.alone 4096 16 .allKnownRates ⟨1, 2⟩ c.task.peer c.reads).sent ∧
      (w.accepted 3).map Record.untimed <+:
        (Connection.alone 4096 16 .allKnownRates ⟨1, 3⟩ d.task.peer d.reads).sent := by
  obtain ⟨w, hw, htwo, hthree, hfirst, hsecond⟩ :=
    Machine.exists_of_run World.step (new eightSlots [])
      (Step.works 13 .quiet ++ Step.works 2 .caller ++ Step.works 40 .hangup)
      (fun w ↦ w.engine.board.id 2 = ⟨1, 2⟩ ∧ w.engine.board.id 3 = ⟨1, 3⟩ ∧
        (w.connection 2).any (fun c ↦ decide (c.task.await = .returned none)) = true ∧
        (w.connection 3).any (fun d ↦ decide (d.sent.length = 2)) = true) (by decide +kernel)
  rw [Option.any_eq_true] at hfirst hsecond
  obtain ⟨c, hc, hreturned⟩ := hfirst
  obtain ⟨d, hd, _⟩ := hsecond
  obtain ⟨_, _, _, hmix⟩ := connections_never_mix eightSlots [] (by decide) w ⟨_, hw⟩
  have hwhole := (hmix 2 c hc).2.1 ⟨none, of_decide_eq_true hreturned, nofun⟩
  have hpart := (hmix 3 d hd).1
  rw [htwo] at hwhole
  rw [hthree] at hpart
  exact ⟨w, c, d, hw, hc, hd, hwhole, hpart⟩

end World

end Phonowire.Receiver
