import Phonowire.Receiver.Tracking
import Phonowire.Receiver.Process

/-!
# The retained output of one connection

A close ticket reports what the tracker counts for its connection. In every run
this is what records of the connection own with its task, in the channel and with
the consumer, and it only falls once the ticket holds a result.
-/

namespace Phonowire.Receiver

open AudioSocket

/-! ## The poll of a task -/

/-- The change is for `own` alone, and it is what the budget is charged. -/
structure Change.Books (c : Change) (own : ConnectionId) (used used' : ℕ) : Prop where
  others : ∀ id, id ≠ own → c.gain id = 0 ∧ c.loss id = 0
  charged : used' + c.loss own = used + c.gain own

theorem books_keep {own : ConnectionId} {used used' : ℕ} (h : used' = used) :
    Change.keep.Books own used used' :=
  ⟨fun _ _ ↦ ⟨rfl, rfl⟩, by rw [h]; rfl⟩

theorem books_add {own : ConnectionId} {used used' bytes : ℕ} (h : used' = used + bytes) :
    (Change.add own bytes).Books own used used' := by
  refine ⟨fun id hid ↦ ⟨if_neg hid, rfl⟩, ?_⟩
  simp only [Change.loss, Change.gain, if_true]
  omega

theorem books_release {own : ConnectionId} {used used' bytes : ℕ} (h : used' + bytes = used) :
    (Change.release own bytes).Books own used used' := by
  refine ⟨fun id hid ↦ ⟨rfl, if_neg hid⟩, ?_⟩
  simp only [Change.loss, Change.gain, if_true]
  omega

theorem ByteBudget.used_of_tryReserve {b next : ByteBudget} {required : ℕ}
    (h : b.tryReserve required = some (.ok next)) : next.used = b.used + required := by
  unfold tryReserve reserve at h
  split_ifs at h <;> cases h
  rfl

namespace Engine

variable {s s' : Engine} {token : Token} {entry : Entry}

theorem used_onBoard {board : Option Board} (h : s.onBoard board = some s') :
    s'.used = s.used := by
  simp only [onBoard, Option.map_eq_some_iff] at h
  obtain ⟨b, _, rfl⟩ := h
  rfl

theorem released_spec {bytes : ℕ} (h : s.release bytes = some s') :
    s'.used + bytes = s.used ∧ s'.board = s.board ∧ s'.channel = s.channel ∧
      s'.outside = s.outside := by
  simp only [release, ByteBudget.release, Option.bind_eq_bind, Option.bind_eq_some_iff] at h
  obtain ⟨⟨budget, notify⟩, hbudget, hs⟩ := h
  cases hs
  split_ifs at hbudget with hzero hover
  · cases hbudget
    exact ⟨by rw [hzero]; rfl, rfl, rfl, rfl⟩
  · cases hbudget
    exact ⟨Nat.sub_add_cancel (Nat.le_of_not_lt hover), rfl, rfl, rfl⟩

theorem books_poll {input : PollInput} (hphase : s.board.phase = .polling token)
    (hlive : s.board.live[token]? = some entry) (h : s.poll input = some s') :
    s.pollChange.Books entry.connection.task.id s.used s'.used := by
  simp only [poll, hphase, hlive, Option.bind_eq_bind, Option.bind_some] at h
  simp only [pollChange, hphase, hlive]
  split_ifs at h with hstart hremaining
  · rw [hstart]
    exact books_keep (used_onBoard h)
  · have hused := used_onBoard h
    cases entry.await with
    | send record after =>
        dsimp only
        rw [if_neg (by simp [hremaining])]
        exact books_keep hused
    | _ => exact books_keep hused
  · unfold permitted at h
    have hsame : Entry.await { entry with remaining := entry.remaining - 1 } = entry.await := rfl
    rw [hsame] at h
    cases hat : entry.await with
    | start => exact absurd hat hstart
    | send record after =>
        rw [hat] at h
        simp only [pollSend] at h
        dsimp only
        cases hcount : entry.connection.task.nextCount with
        | none =>
            rw [if_pos ⟨hremaining, rfl⟩]
            simp only [hcount, Option.bind_eq_bind, Option.bind_eq_some_iff] at h
            obtain ⟨t, ht, hs⟩ := h
            apply books_release
            rw [used_onBoard hs]
            exact (released_spec ht).1
        | some next =>
            rw [if_neg (by simp)]
            simp only [hcount] at h
            exact books_keep (used_onBoard h)
    | read =>
        rw [hat] at h
        simp only [pollRead] at h
        apply books_keep
        split at h
        · split_ifs at h <;> exact used_onBoard h
        · exact used_onBoard h
    | copy bytes after =>
        rw [hat] at h
        simp only [pollCopy] at h
        apply books_keep
        split_ifs at h <;> exact used_onBoard h
    | feed input =>
        rw [hat] at h
        exact books_keep (used_onBoard h)
    | typed raw offset input =>
        rw [hat] at h
        exact books_keep (used_onBoard h)
    | returned failure =>
        rw [hat] at h
        cases h
    | panicked =>
        rw [hat] at h
        cases h

theorem books_attempt {k : Resource} {now : Instant}
    (hphase : s.board.phase = .attempting token k)
    (hlive : s.board.live[token]? = some entry) (h : s.attempt now = some s') :
    s.pollChange.Books entry.connection.task.id s.used s'.used := by
  simp only [attempt, hphase, hlive, Option.bind_eq_bind, Option.bind_some] at h
  simp only [pollChange, hphase, hlive]
  have hbudget : Engine.budget { s with board := s.board.attempted token k } = s.budget := rfl
  cases k with
  | bytes =>
      cases hat : entry.await with
      | copy bytes after =>
          rw [hat] at h
          simp only [attemptCopy, hbudget] at h
          dsimp only
          cases hreserve : s.budget.tryReserve bytes.length with
          | none =>
              rw [hreserve] at h
              cases h
          | some answer =>
              rw [hreserve] at h
              cases answer with
              | ok budget =>
                  apply books_add
                  rw [used_onBoard h]
                  exact ByteBudget.used_of_tryReserve hreserve
              | error e =>
                  apply books_keep
                  cases e with
                  | full required available =>
                      cases h
                      rfl
                  | tooLarge required capacity => exact used_onBoard h
      | _ =>
          rw [hat] at h
          cases h
  | queue =>
      cases hat : entry.await with
      | send record after =>
          rw [hat] at h
          simp only [attemptSend] at h
          dsimp only
          cases hsend : s.channel.trySend record with
          | ok channel =>
              rw [hsend] at h
              have hused := used_onBoard h
              exact books_keep hused
          | error failure =>
              rw [hsend] at h
              cases failure with
              | full dropped =>
                  cases h
                  exact books_keep rfl
              | disconnected dropped =>
                  simp only [Option.bind_eq_bind, Option.bind_eq_some_iff] at h
                  obtain ⟨t, ht, hs⟩ := h
                  apply books_release
                  rw [used_onBoard hs]
                  exact (released_spec ht).1
      | _ =>
          rw [hat] at h
          cases h

/-- The poll of a task changes its own charge, and hands at most one record over. -/
theorem Polled.parts (h : s.Polled token s') :
    s'.outside = s.outside ∧ ∃ entry e, s.board.Swapped token entry e s'.board ∧
      (s'.channel = s.channel ∨ ∃ record after, entry.await = .send record after ∧
        s'.channel.buffer = s.channel.buffer ++ [record] ∧ e.await.charge = 0 ∧
        s'.used = s.used) := by
  cases h with
  | yielded hphase hlive hsame hm hwoke =>
      exact ⟨rfl, _, _, ⟨rfl, hlive, hm, rfl⟩, Or.inl rfl⟩
  | parked hphase hlive hsame hm htokens hstate hturn hstates =>
      exact ⟨rfl, _, _, ⟨rfl, hlive, hm, rfl⟩, Or.inl rfl⟩
  | requested hphase hlive hsame hwants hhead =>
      exact ⟨rfl, _, _, Board.swapped_insert rfl hlive rfl rfl, Or.inl rfl⟩
  | lined hphase hlive hsame hwants hhead htokens hstates =>
      exact ⟨rfl, _, _, Board.swapped_insert rfl hlive rfl rfl, Or.inl rfl⟩
  | @blocked entry k hphase hlive hblocked =>
      refine ⟨rfl, entry, entry, ⟨rfl, hlive, fun u ↦ ?_, rfl⟩, Or.inl rfl⟩
      split_ifs with hu
      · exact hu ▸ hlive
      · rfl
  | advanced hphase hlive hsame hstep hrequest hsent hcharge hcharge' hreleased =>
      exact ⟨rfl, _, _, Board.swapped_insert rfl hlive rfl rfl, Or.inl rfl⟩
  | copied hphase hlive hat hstep hrequest hsent hfits hcharge hreleased =>
      exact ⟨rfl, _, _, Board.swapped_insert rfl hlive rfl rfl, Or.inl rfl⟩
  | sent hphase hlive hat hstep hrequest hsent hcharge hconnected hslots hbuffer hstill
      hreleased =>
      exact ⟨rfl, _, _, Board.swapped_insert rfl hlive rfl rfl,
        Or.inr ⟨_, _, hat, hbuffer, hcharge, rfl⟩⟩
  | refused hphase hlive hat hstep hrequest hsent hcharge hconnected hle hreleased =>
      exact ⟨rfl, _, _, Board.swapped_insert rfl hlive rfl rfl, Or.inl rfl⟩
  | exhausted hphase hlive hsame hat hcount hstep hsent hcharge hle hreleased =>
      exact ⟨rfl, _, _, Board.swapped_insert rfl hlive rfl rfl, Or.inl rfl⟩

end Engine

/-! ## The balance of the worker -/

theorem Channel.heldBy_snoc {c c' : Channel} {record : Record} (id : ConnectionId)
    (h : c'.buffer = c.buffer ++ [record]) :
    c'.heldBy id = c.heldBy id + Holding.of id record.holding := by
  simp [heldBy, h]

theorem Channel.charged_snoc {c c' : Channel} {record : Record}
    (h : c'.buffer = c.buffer ++ [record]) :
    c'.charged = c.charged + record.kind.charged := by
  simp [charged, h]

namespace Engine

variable {s s' : Engine} {token : Token} {entry : Entry} {id : ConnectionId} {c : Change}

/-- What the worker gains and loses is what the tracker is told. -/
def Balances (s : Engine) (c : Change) (s' : Engine) : Prop :=
  ∀ id, s'.keptBy id + c.loss id = s.keptBy id + c.gain id

theorem Rests.balances (h : s.Rests s') : s.Balances .keep s' := by
  intro id
  unfold keptBy heldBy
  rw [h.settings, h.channel, h.charges]
  rfl

theorem heldBy_id (s : Engine) (token : Token) : s.heldBy (s.board.id token) = s.chargeOf token :=
  if_pos rfl

theorem heldBy_id_of_settings (hsettings : s'.board.settings = s.board.settings) :
    s'.heldBy (s.board.id token) = s'.chargeOf token := by
  have hid : s.board.id token = s'.board.id token := by rw [Board.id, Board.id, hsettings]
  rw [hid, heldBy_id]

theorem heldBy_of_ne (hsettings : s'.board.settings = s.board.settings)
    (hother : ∀ u : Token, u ≠ token → s'.chargeOf u = s.chargeOf u)
    (hid : id ≠ s.board.id token) : s'.heldBy id = s.heldBy id := by
  unfold heldBy
  rw [hsettings]
  split_ifs with hinstance
  · refine hother _ fun htoken ↦ hid ?_
    rw [Board.id, ← hinstance, ← htoken]
  · rfl

theorem chargeOf_of_live (hlive : s.board.live[token]? = some entry) :
    s.chargeOf token = entry.await.charge := by
  rw [chargeOf, hlive]
  rfl

/-- A task sends records of its own connection. -/
theorem connection_of_send {record : Record} {after : AfterSend} (hcoherent : s.board.Coherent)
    (hlive : s.board.live[token]? = some entry) (hat : entry.await = .send record after) :
    record.connection = s.board.id token := by
  have hruns := (hcoherent.holds token entry hlive).runs
  have hplaced := hruns.placed
  have hawait : entry.connection.task.await = .send record after := hat
  simp only [Task.Placed, hawait] at hplaced
  exact hplaced.2.1.trans hruns.id_eq

theorem balances_polled (hcoherent : s.board.Coherent) (hx : s.Exact) (h : s.Polled token s')
    (hlive : s.board.live[token]? = some entry)
    (hbooks : c.Books entry.connection.task.id s.used s'.used) : s.Balances c s' := by
  obtain ⟨houtside, entry', e, hswapped, hchannel⟩ := h.parts
  obtain rfl : entry = entry' := Option.some.inj (hlive.symm.trans hswapped.before)
  have hid : entry.connection.task.id = s.board.id token :=
    (hcoherent.holds token entry hlive).runs.id_eq
  have hcharge := chargeOf_of_live hlive
  have hcharge' : s'.chargeOf token = e.await.charge :=
    chargeOf_of_live ((hswapped.live token).trans (if_pos rfl))
  have hother (u : Token) (hu : u ≠ token) : s'.chargeOf u = s.chargeOf u := by
    rw [chargeOf, hswapped.live, if_neg hu.symm, chargeOf]
  have hheld := hswapped.held_eq
  have hused := hx.used
  have hused' := (hx.polled h).used
  rw [houtside] at hused'
  rw [hid] at hbooks
  intro id
  unfold keptBy
  by_cases hown : id = s.board.id token
  · subst hown
    have hcharged := hbooks.charged
    rw [heldBy_id_of_settings hswapped.settings, heldBy_id, hcharge, hcharge']
    rcases hchannel with hchannel | ⟨record, after, hat, hbuffer, hzero, hsame⟩
    · rw [hchannel] at hused' ⊢
      omega
    · have hrecord : entry.await.charge = record.kind.charged := by rw [hat]; rfl
      have hof : Holding.of (s.board.id token) record.holding = record.kind.charged :=
        if_pos (congrArg some (connection_of_send hcoherent hlive hat))
      rw [Channel.charged_snoc hbuffer] at hused'
      rw [Channel.heldBy_snoc _ hbuffer, hof]
      omega
  · obtain ⟨hgain, hloss⟩ := hbooks.others id hown
    rw [hgain, hloss, heldBy_of_ne hswapped.settings hother hown]
    rcases hchannel with hchannel | ⟨record, after, hat, hbuffer, hzero, hsame⟩
    · rw [hchannel]
    · have hof : Holding.of id record.holding = 0 := if_neg fun hrecord ↦
        hown ((Option.some.inj hrecord).symm.trans (connection_of_send hcoherent hlive hat))
      rw [Channel.heldBy_snoc _ hbuffer, hof]
      rfl

theorem balances_erased (hcoherent : s.board.Coherent)
    (hlive : s.board.live[token]? = some entry)
    (hsettings : s'.board.settings = s.board.settings)
    (herased : s'.board.live = s.board.live.erase token) (hchannel : s'.channel = s.channel) :
    s.Balances (.release entry.connection.task.id entry.await.charge) s' := by
  have hid : entry.connection.task.id = s.board.id token :=
    (hcoherent.holds token entry hlive).runs.id_eq
  have hcharge := chargeOf_of_live hlive
  have hcharge' : s'.chargeOf token = 0 := by
    rw [chargeOf, herased, Std.TreeMap.getElem?_erase_ite, if_pos rfl]
    rfl
  have hother (u : Token) (hu : u ≠ token) : s'.chargeOf u = s.chargeOf u := by
    rw [chargeOf, herased, Std.TreeMap.getElem?_erase_ite, if_neg hu.symm, chargeOf]
  intro id
  simp only [keptBy, Change.loss, Change.gain, hchannel, hid]
  by_cases hown : id = s.board.id token
  · subst hown
    rw [heldBy_id_of_settings hsettings, heldBy_id, hcharge, hcharge', if_pos rfl]
    omega
  · rw [heldBy_of_ne hsettings hother hown, if_neg hown]

theorem pollChange_gain (hcoherent : s.board.Coherent)
    (hnone : s.board.live[id.sequence]? = none) : s.pollChange.gain id = 0 := by
  unfold pollChange
  split
  · split
    · rfl
    · split
      · split_ifs <;> rfl
      · rfl
  · split
    · rfl
    · rename_i entry hlive
      split
      · split
        · refine if_neg fun hown ↦ ?_
          rw [hown, (hcoherent.holds _ entry hlive).runs.id_eq, hlive] at hnone
          cases hnone
        · rfl
      · split <;> rfl
      · rfl
  · rfl

theorem retireChange_gain (s : Engine) (token : Token) (id : ConnectionId) :
    (s.retireChange token).gain id = 0 := by
  unfold retireChange
  split <;> rfl

theorem keptBy_le (s : Engine) (id : ConnectionId) :
    s.keptBy id ≤ s.board.held + s.channel.charged := by
  refine Nat.add_le_add ?_ (List.sum_le_sum fun record _ ↦ Holding.of_le record.holding)
  unfold heldBy chargeOf
  split_ifs
  · cases hlive : s.board.live[id.sequence]? with
    | none => exact Nat.zero_le _
    | some entry => exact Std.TreeMap.le_total (f := fun _ e ↦ e.await.charge) hlive
  · exact Nat.zero_le _

end Engine

namespace World

variable {w w' : World} {input : Input} {token : Token}

/-- The worker moves no charge outside, and tells the tracker the others. -/
structure Accounts (w w' : World) (c : Change) : Prop where
  outside : w'.engine.outside = w.engine.outside
  balances : w.engine.Balances c w'.engine

theorem Accounts.of_rests (h : w.engine.Rests w'.engine) : w.Accounts w' .keep :=
  ⟨h.outside, h.balances⟩

theorem accounts_polling {left : ℕ} (h : w.Steady) :
    w.Accounts (w.stepPolling input left token) w.engine.pollChange := by
  have hcoherent := h.sound.coherent
  have hx := h.sound.exact
  cases hphase : w.engine.board.phase with
  | polling t =>
      obtain ⟨s, hpoll, hpolled, _⟩ := Engine.poll_spec input.poll hcoherent hx hphase
      have hstep : w.stepPolling input left token = { w with engine := s } := by
        rw [stepPolling, hphase]
        exact act_eq id hpoll
      obtain ⟨houtside, entry, e, hswapped, _⟩ := hpolled.parts
      rw [hstep]
      exact ⟨houtside, Engine.balances_polled hcoherent hx hpolled hswapped.before
        (Engine.books_poll hphase hswapped.before hpoll)⟩
  | attempting t k =>
      obtain ⟨s, hattempt, hpolled, _⟩ := Engine.attempt_spec input.now hcoherent hx hphase
      have hstep : w.stepPolling input left token = { w with engine := s } := by
        rw [stepPolling, hphase]
        exact act_eq id hattempt
      obtain ⟨houtside, entry, e, hswapped, _⟩ := hpolled.parts
      rw [hstep]
      exact ⟨houtside, Engine.balances_polled hcoherent hx hpolled hswapped.before
        (Engine.books_attempt hphase hswapped.before hattempt)⟩
  | full t k =>
      have hchange : w.engine.pollChange = .keep := by rw [Engine.pollChange, hphase]
      rw [hchange, stepPolling, hphase]
      exact .of_rests (rests_act rfl (fun s ↦ Engine.rests_parkFull) fun _ ↦ rfl)
  | ended t =>
      have hchange : w.engine.pollChange = .keep := by rw [Engine.pollChange, hphase]
      rw [hchange, stepPolling, hphase]
      exact .of_rests (by rw [engine_afterPoll]; exact .refl _)
  | idle =>
      have hchange : w.engine.pollChange = .keep := by rw [Engine.pollChange, hphase]
      rw [hchange, stepPolling, hphase]
      exact .of_rests (by rw [engine_afterPoll]; exact .refl _)

theorem accounts_retire {caller : Caller} (h : w.Steady) (hpc : w.pc = .retire caller token) :
    w.Accounts (w.stepRetire caller token) (w.engine.retireChange token) := by
  have hbetween : w.engine.board.phase.betweenPolls = true := by
    have hplace := h.place
    rw [hpc] at hplace
    cases caller with
    | turn left =>
        rw [hplace.1]
        rfl
    | requested site tokens =>
        rw [hplace.1]
        rfl
    | cleanup result failure => exact hplace.1
  cases hlive : w.engine.board.live[token]? with
  | none =>
      have hchange : w.engine.retireChange token = .keep := by rw [Engine.retireChange, hlive]
      rw [hchange, stepRetire, hlive]
      exact .of_rests (.refl _)
  | some entry =>
      obtain ⟨ready, hretire, _, _⟩ :=
        Engine.retire_spec h.sound.coherent h.sound.exact hbetween hlive
      have hstep : w.engine.step (.retire token) = _ := (if_pos hbetween).trans hretire
      have hchange : w.engine.retireChange token =
          .release entry.connection.task.id entry.await.charge := by
        rw [Engine.retireChange, hlive]
      have hworld : w.stepRetire caller token =
          w.act (.retire token) (·.goto (.finish caller token entry.connection.task.progress)) := by
        rw [stepRetire, hlive]
      rw [hchange, hworld, act_eq _ hstep]
      exact ⟨rfl, Engine.balances_erased h.sound.coherent hlive rfl rfl rfl⟩

theorem accounts_close (w : World) (id : ConnectionId) : w.Accounts (w.close id).1 .keep := by
  unfold World.close
  split_ifs
  · exact .of_rests (.refl _)
  · exact .of_rests (.refl _)
  · split
    · exact .of_rests (.refl _)
    · exact .of_rests ⟨rfl, rfl, rfl, fun _ ↦ rfl⟩

/-! ## Tickets with a result -/

theorem Grows.observe {ticket : CloseTicket} {result : ConnectionCloseResult}
    (h : w.Grows w') (hresult : w.observe ticket = some result) :
    w'.observe ticket = some result := by
  unfold World.observe at hresult ⊢
  rw [Option.join_eq_some_iff] at hresult ⊢
  exact h.cells _ result hresult

/-- A ticket holds a result only when the task is destroyed. -/
theorem Registry.live_eq_none {ticket : CloseTicket} {result : ConnectionCloseResult}
    (h : w.Registry) (hticket : ticket ∈ w.tickets) (hresult : w.observe ticket = some result) :
    w.engine.board.live[ticket.id.sequence]? = none := by
  have howner := (h.tickets ticket hticket).2
  have hcell : w.cells[ticket.cell]? = some (some result) := Option.join_eq_some_iff.mp hresult
  rw [← Option.not_isSome_iff_eq_none]
  intro hlive
  have hentry := (h.kept _).mpr (Or.inl hlive)
  have hnone := (h.unresolved _ _ howner).mpr (Or.inl hentry)
  rw [hcell] at hnone
  cases hnone

end World

namespace Metered

variable {m m' : Metered} {w' : World} {a : World.Step} {id : ConnectionId}

/-! ## The balance of a step -/

/-- A step moves charges as the tracker is told. -/
structure Moves (m : Metered) (a : World.Step) (w' : World) : Prop where
  holdings : (m.held a).map Prod.snd = w'.engine.outside
  balance : ∀ id, w'.engine.keptBy id + ((m.held a).map (Holding.of id)).sum +
    (m.change a).loss id = m.owned id + (m.change a).gain id

theorem Moves.of_accounts (hx : m.Exact) (hheld : m.held a = m.holdings)
    (h : m.world.Accounts w' (m.change a)) : m.Moves a w' := by
  refine ⟨by rw [hheld, h.outside, hx.holdings], fun id ↦ ?_⟩
  have hbalance := h.balances id
  rw [hheld]
  unfold owned
  omega

theorem moves_work {input : Input} (hx : m.Exact) (h : m.world.Steady)
    (hstep : m.world.work input = some w') : m.Moves (.work input) w' := by
  refine .of_accounts hx rfl ?_
  cases hpc : m.world.pc with
  | polling left token =>
      have hchange : m.change (.work input) = m.world.engine.pollChange := by
        simp only [change, hpc]
      rw [World.work, hpc] at hstep
      cases hstep
      rw [hchange]
      exact World.accounts_polling h
  | retire caller token =>
      have hchange : m.change (.work input) = m.world.engine.retireChange token := by
        simp only [change, hpc]
      rw [World.work, hpc] at hstep
      cases hstep
      rw [hchange]
      exact World.accounts_retire h hpc
  | _ =>
      have hchange : m.change (.work input) = .keep := by simp only [change, hpc]
      rw [hchange]
      exact .of_rests (World.rests_of_work hstep (by simp [hpc]) (by simp [hpc]))

/-- Other threads leave the tasks alone. -/
theorem Moves.of_board {engine : Engine} (hboard : engine.board = m.world.engine.board)
    (hholdings : (m.held a).map Prod.snd = engine.outside)
    (hbalance : ∀ id, engine.channel.heldBy id + ((m.held a).map (Holding.of id)).sum +
      (m.change a).loss id = m.world.engine.channel.heldBy id +
        (m.holdings.map (Holding.of id)).sum + (m.change a).gain id) :
    m.Moves a { m.world with engine } := by
  refine ⟨hholdings, fun id ↦ ?_⟩
  have hheld : engine.heldBy id = m.world.engine.heldBy id := by
    unfold Engine.heldBy Engine.chargeOf
    rw [hboard]
  have hchannel := hbalance id
  unfold owned Engine.keptBy
  dsimp only
  omega

theorem moves_receive {engine : Engine} (hx : m.Exact)
    (hstep : m.world.engine.receive = some engine) :
    m.Moves (.outside .receive) { m.world with engine } := by
  unfold Engine.receive at hstep
  split at hstep
  · cases hstep
  · rename_i record channel hrecv
    obtain ⟨hbuffer, _, _⟩ := Channel.tryRecv_eq_some hrecv
    have hheld : m.held (.outside .receive) = record.holding :: m.holdings := by
      simp [held, hbuffer]
    cases hstep
    refine .of_board rfl ?_ fun id ↦ ?_
    · rw [hheld, List.map_cons, hx.holdings]
      rfl
    · have hchannel : m.world.engine.channel.heldBy id =
          Holding.of id record.holding + channel.heldBy id := by
        simp [Channel.heldBy, hbuffer]
      rw [hheld, List.map_cons, List.sum_cons, hchannel]
      simp only [change, Change.loss, Change.gain]
      omega

theorem moves_discard {engine : Engine} {index : ℕ} (hx : m.Exact)
    (hstep : m.world.engine.discard index = some engine) :
    m.Moves (.outside (.discard index)) { m.world with engine } := by
  simp only [Engine.discard, Option.bind_eq_bind, Option.bind_eq_some_iff] at hstep
  obtain ⟨bytes, hbytes, ⟨budget, notify⟩, _, hengine⟩ := hstep
  cases hengine
  rw [← hx.holdings, List.getElem?_map, Option.map_eq_some_iff] at hbytes
  obtain ⟨⟨owner, charge⟩, hholding, rfl⟩ := hbytes
  refine .of_board rfl ?_ fun id ↦ ?_
  · rw [held, ← List.eraseIdx_map, hx.holdings]
  · have hsum := List.sum_map_eraseIdx (f := Holding.of id) hholding
    simp only [held, change, hholding]
    cases owner with
    | none =>
        rw [Holding.of_none] at hsum
        simp only [Change.loss, Change.gain]
        omega
    | some other =>
        rw [Holding.of_owner] at hsum
        simp only [Change.gain]
        omega

theorem moves_copyOutside {engine : Engine} {bytes : ℕ} (hx : m.Exact)
    (hstep : m.world.engine.copyOutside bytes = some engine) :
    m.Moves (.outside (.copyOutside bytes)) { m.world with engine } := by
  unfold Engine.copyOutside at hstep
  cases hreserve : m.world.engine.budget.tryReserve bytes with
  | none =>
      rw [hreserve] at hstep
      cases hstep
  | some answer =>
      rw [hreserve] at hstep
      cases answer with
      | error e =>
          cases hstep
          have hheld : m.held (.outside (.copyOutside bytes)) = m.holdings := by
            simp only [held, hreserve]
          exact .of_accounts hx hheld (.of_rests (.refl _))
      | ok budget =>
          cases hstep
          have hheld : m.held (.outside (.copyOutside bytes)) = (none, bytes) :: m.holdings := by
            simp only [held, hreserve]
          refine .of_board rfl ?_ fun id ↦ ?_
          · rw [hheld, List.map_cons, hx.holdings]
          · rw [hheld, List.map_cons, List.sum_cons, Holding.of_none, Nat.zero_add]
            rfl

theorem moves_disconnect {engine : Engine} (hx : m.Exact)
    (hstep : m.world.engine.disconnect = some engine) :
    m.Moves (.outside .disconnect) { m.world with engine } := by
  unfold Engine.disconnect at hstep
  split_ifs at hstep
  cases hstep
  have hheld : m.held (.outside .disconnect) =
      m.world.engine.channel.buffer.map Record.holding ++ m.holdings := rfl
  refine .of_board rfl ?_ fun id ↦ ?_
  · rw [hheld, List.map_append, List.map_map, hx.holdings]
    rfl
  · have hchannel : m.world.engine.channel.heldBy id =
        ((m.world.engine.channel.buffer.map Record.holding).map (Holding.of id)).sum := by
      rw [List.map_map]
      rfl
    have hclosed : m.world.engine.channel.close.heldBy id = 0 := rfl
    rw [hheld, List.map_append, List.sum_append, ← hchannel, hclosed, Nat.zero_add]
    rfl

theorem moves_of_step (hx : m.Exact) (h : m.world.Steady) (hstep : m.world.step a = some w') :
    m.Moves a w' := by
  cases a with
  | work input => exact moves_work hx h hstep
  | close id =>
      cases hstep
      exact .of_accounts hx rfl (World.accounts_close m.world id)
  | outside o =>
      simp only [World.step, Option.map_eq_some_iff] at hstep
      obtain ⟨engine, hengine, rfl⟩ := hstep
      cases o with
      | receive => exact moves_receive hx hengine
      | discard index => exact moves_discard hx hengine
      | copyOutside bytes => exact moves_copyOutside hx hengine
      | disconnect => exact moves_disconnect hx hengine
      | _ =>
          exact .of_accounts hx rfl (.of_rests
            (Engine.rests_outside hengine (by simp) (by simp) (by simp) (by simp)))

/-! ## Whole runs -/

theorem owned_le {s : Engine} {holdings : List Holding} (hx : s.Exact)
    (hholdings : holdings.map Prod.snd = s.outside) (id : ConnectionId) :
    s.keptBy id + (holdings.map (Holding.of id)).sum ≤ usizeMax := by
  have hkept := s.keptBy_le id
  have hsum : (holdings.map (Holding.of id)).sum ≤ s.outside.sum := by
    rw [← hholdings]
    exact List.sum_le_sum fun holding _ ↦ holding.of_le
  have hused := hx.used
  have hle := hx.le_capacity
  have hmax := s.board.settings.capacity.le_max
  unfold Engine.capacity at hle
  omega

/-- The tracker follows each step of the receiver and stays exact. -/
theorem Exact.step (hx : m.Exact) (h : m.world.Steady) (hstep : m.world.step a = some w') :
    ∃ m', m.step a = some m' ∧ m'.world = w' ∧ m'.Exact ∧
      ∀ id, m'.tracker.used id + (m.change a).loss id =
        m.tracker.used id + (m.change a).gain id := by
  have hmoves := moves_of_step hx h hstep
  have hmax := owned_le h.sound.exact hx.holdings
  have hmax' := owned_le (h.step hstep).sound.exact hmoves.holdings
  have happly : ∃ next, (m.change a).apply m.tracker = some next ∧ next.Tight ∧
      ∀ id, next.used id + (m.change a).loss id = m.tracker.used id + (m.change a).gain id := by
    refine Change.apply_spec hx.tight (fun id ↦ ?_) fun id ↦ ?_
    · have hbalance := hmoves.balance id
      have hkinds := (m.change a).gain_or_loss id
      rw [hx.used]
      omega
    · have hbalance := hmoves.balance id
      have hkinds := (m.change a).gain_or_loss id
      have hle : m.owned id ≤ usizeMax := hmax id
      have hle' := hmax' id
      rw [hx.used]
      omega
  obtain ⟨next, hnext, htight, hused⟩ := happly
  refine ⟨⟨w', m.held a, next⟩, ?_, rfl, ⟨hmoves.holdings, htight, fun id ↦ ?_⟩, hused⟩
  · simp [Metered.step, hstep, hnext]
  · have hbalance := hmoves.balance id
    have hnow := hused id
    have hbefore := hx.used id
    unfold owned at *
    dsimp only
    omega

theorem exact_new (settings : Settings) (outside : List ℕ) : (new settings outside).Exact := by
  refine ⟨?_, fun id ↦ by simp [new, RetentionTracker.new], fun id ↦ ?_⟩
  · simp [new, World.new, Engine.new, Function.comp_def]
  · simp [owned, new, World.new, Engine.new, Board.new, Channel.new, RetentionTracker.new,
      RetentionTracker.used, Engine.keptBy, Engine.heldBy, Engine.chargeOf, Channel.heldBy,
      Function.comp_def, Holding.of_none]

theorem change_gain (h : m.world.Steady)
    (hnone : m.world.engine.board.live[id.sequence]? = none) : (m.change a).gain id = 0 := by
  unfold change
  split
  · split
    · exact Engine.pollChange_gain h.sound.coherent hnone
    · exact Engine.retireChange_gain _ _ _
    · rfl
  · split <;> rfl
  · rfl

theorem world_of_step (h : m.step a = some m') : m.world.step a = some m'.world := by
  simp only [step, Option.bind_eq_bind, Option.bind_eq_some_iff] at h
  obtain ⟨world, hworld, tracker, _, hm⟩ := h
  cases hm
  exact hworld

/-- The registry beside an exact tracker. -/
structure Sound (m : Metered) : Prop where
  exact : m.Exact
  controlled : m.world.Controlled

theorem Sound.step (h : m.Sound) (hstep : m.step a = some m') : m'.Sound := by
  have hworld := world_of_step hstep
  obtain ⟨v, hv, _, hexact, _⟩ := h.exact.step h.controlled.steady hworld
  obtain rfl := Option.some.inj (hstep.symm.trans hv)
  exact ⟨hexact, h.controlled.step hworld⟩

theorem sound_of_reachable {settings : Settings} {outside : List ℕ}
    (hfits : outside.sum ≤ settings.capacity.val)
    (h : Machine.Reachable step (new settings outside) m) : m.Sound :=
  h.invariant ⟨exact_new settings outside, World.controlled_new settings hfits⟩
    fun _ _ _ hm hstep ↦ hm.step hstep

theorem Sound.retained_le (h : m.Sound) (hstep : m.step a = some m') {ticket : CloseTicket}
    {result : ConnectionCloseResult} (hticket : ticket ∈ m.world.tickets)
    (hresult : m.world.observe ticket = some result) :
    m'.retainedOutputBytes ticket ≤ m.retainedOutputBytes ticket := by
  have hsteady := h.controlled.steady
  obtain ⟨v, hv, _, _, hused⟩ := h.exact.step hsteady (world_of_step hstep)
  obtain rfl := Option.some.inj (hstep.symm.trans hv)
  have hbalance := hused ticket.id
  rw [change_gain hsteady (h.controlled.registry.live_eq_none hticket hresult)] at hbalance
  exact (Nat.le_add_right _ _).trans hbalance.le

theorem Sound.retained_le_of_run {steps : List World.Step} (h : m.Sound)
    (hrun : Machine.run Metered.step m steps = some m') {ticket : CloseTicket}
    {result : ConnectionCloseResult} (hticket : ticket ∈ m.world.tickets)
    (hresult : m.world.observe ticket = some result) :
    m'.retainedOutputBytes ticket ≤ m.retainedOutputBytes ticket := by
  induction steps generalizing m with
  | nil =>
      cases hrun
      exact le_rfl
  | cons a steps ih =>
      obtain ⟨u, hu, hrest⟩ := Machine.run_cons.mp hrun
      have hgrows := World.grows_of_step h.controlled.registry h.controlled.steady (world_of_step hu)
      have hlater := ih (h.step hu) hrest (hgrows.tickets.mem hticket)
        (hgrows.observe hresult)
      exact hlater.trans (h.retained_le hu hticket hresult)

/-- In every run a ticket reports the bytes that records of its connection own,
wherever they are, and never more of them once it holds a result. No assertion of
the tracker fails. -/
theorem retained_output_bytes_exact {settings : Settings} {outside : List ℕ}
    (hfits : outside.sum ≤ settings.capacity.val)
    (h : Machine.Reachable step (new settings outside) m) :
    (∀ ticket, m.retainedOutputBytes ticket = m.owned ticket.id) ∧
    (∀ a w', m.world.step a = some w' → ∃ m', m.step a = some m' ∧ m'.world = w') ∧
    ∀ ticket ∈ m.world.tickets, ∀ result, m.world.observe ticket = some result →
      ∀ steps m', Machine.run step m steps = some m' →
        m'.retainedOutputBytes ticket ≤ m.retainedOutputBytes ticket := by
  have hm := sound_of_reachable hfits h
  refine ⟨fun ticket ↦ hm.exact.used ticket.id, fun a w' hstep ↦ ?_, ?_⟩
  · obtain ⟨m', hm', hworld, _, _⟩ := hm.exact.step hm.controlled.steady hstep
    exact ⟨m', hm', hworld⟩
  · intro ticket hticket result hresult steps m' hrun
    exact hm.retained_le_of_run hrun hticket hresult

/-- A call that hangs up, a ticket for it, and its retirement. Its chunk stays
in the channel. -/
def hungUp : List World.Step :=
  World.Step.admission ++ World.Step.works 22 .hangup ++ [.close ⟨1, 2⟩] ++
    World.Step.works 5 .quiet

theorem retained_output_bytes_exact_one_call :
    ∃ m, Machine.run step (new eightSlots []) hungUp = some m ∧
      m.retainedOutputBytes ⟨⟨1, 2⟩, 0⟩ = 3 ∧
      ∀ steps m', Machine.run step m steps = some m' →
        m'.retainedOutputBytes ⟨⟨1, 2⟩, 0⟩ ≤ 3 := by
  obtain ⟨m, hm, howned, hticket, hresult⟩ :=
    Machine.exists_of_run step (new eightSlots []) hungUp
      (fun m ↦ m.owned ⟨1, 2⟩ = 3 ∧ ⟨⟨1, 2⟩, 0⟩ ∈ m.world.tickets ∧
        m.world.observe ⟨⟨1, 2⟩, 0⟩ = some .connectionEnded) (by decide +kernel)
  obtain ⟨hexact, _, hfalls⟩ := retained_output_bytes_exact (by decide) ⟨_, hm⟩
  have hthree : m.retainedOutputBytes ⟨⟨1, 2⟩, 0⟩ = 3 := (hexact _).trans howned
  refine ⟨m, hm, hthree, fun steps m' hrun ↦ ?_⟩
  exact hthree ▸ hfalls _ hticket _ hresult steps m' hrun

end Metered

end Phonowire.Receiver
