import Phonowire.Receiver.Transitions

/-!
# Who owns the bytes and the records

Every charged byte is outside the worker, in the channel or owned by one live
task, and every record that the channel accepted is in the history of exactly
one connection, in its order. Both hold after every action.
-/

namespace Phonowire.Receiver

open AudioSocket

namespace Board

variable {b b' : Board} {token : Token} {entry e : Entry}

/-- The live entry under `token` is replaced. -/
structure Swapped (b : Board) (token : Token) (entry e : Entry) (b' : Board) : Prop where
  settings : b'.settings = b.settings
  before : b.live[token]? = some entry
  live : ∀ u : Token, b'.live[u]? = if token = u then some e else b.live[u]?
  departed : b'.departed = b.departed

theorem swapped_insert (hsettings : b'.settings = b.settings)
    (hlive : b.live[token]? = some entry) (hinsert : b'.live = b.live.insert token e)
    (hdeparted : b'.departed = b.departed) : b.Swapped token entry e b' := by
  refine ⟨hsettings, hlive, ?_, hdeparted⟩
  rw [hinsert]
  exact Std.TreeMap.getElem?_insert_ite _ _ _

theorem Swapped.total_eq (h : b.Swapped token entry e b') (f : Token → Entry → ℕ) :
    Std.TreeMap.total f b'.live + f token entry = Std.TreeMap.total f b.live + f token e :=
  Std.TreeMap.total_of_lookup h.before h.live

theorem Swapped.held_eq (h : b.Swapped token entry e b') :
    b'.held + entry.await.charge = b.held + e.await.charge := h.total_eq fun _ e ↦ e.await.charge

end Board

namespace Engine

variable {s s' : Engine} {token : Token} {entry e : Entry}

/-! ## Bytes -/

theorem Exact.of_swapped (hx : s.Exact)
    (h : s.board.Swapped token entry e s'.board) (hcharge : entry.await.charge = e.await.charge)
    (hused : s'.used = s.used) (houtside : s'.outside = s.outside)
    (hchannel : s'.channel = s.channel) : s'.Exact := by
  have hheld := h.held_eq
  have hbefore := hx.used
  refine ⟨?_, ?_⟩
  · rw [hused, houtside, hchannel]
    omega
  · have hle := hx.le_capacity
    rw [hused]
    unfold capacity at *
    rw [h.settings]
    exact hle

theorem SameTask.charge_eq (h : Board.SameTask entry e) : entry.await.charge = e.await.charge := by
  rw [h.await_eq]

theorem Exact.shared (hx : s.Exact) (h : s.Shared s') : s'.Exact := by
  obtain ⟨hused, hle⟩ := hx
  unfold capacity at hle
  cases h with
  | @received record channel hbuffer hslots hconnected =>
      have hcharged : s.channel.charged = record.kind.charged + channel.charged := by
        simp [Channel.charged, hbuffer]
      refine ⟨?_, hle⟩
      simp only [List.sum_cons]
      omega
  | discarded hindex hbytes =>
      have hsum := List.sum_map_eraseIdx (f := id) hindex
      simp only [List.map_id, id_eq] at hsum
      refine ⟨?_, (Nat.sub_le _ _).trans hle⟩
      dsimp only
      omega
  | copied hfits =>
      unfold capacity at hfits
      refine ⟨?_, ?_⟩
      · simp only [List.sum_cons]
        omega
      · unfold capacity
        dsimp only
        omega
  | unchanged => exact ⟨hused, hle⟩
  | disconnected hconnected =>
      refine ⟨?_, hle⟩
      simp only [List.sum_append, Channel.close, Channel.charged, List.map_nil, List.sum_nil]
      unfold Channel.charged at hused
      omega
  | signalled hdue => exact ⟨hused, hle⟩
  | subscribed hempty => exact ⟨hused, hle⟩

/-- Released bytes leave the account together with their owner. -/
theorem Exact.of_released {board : Board} {bytes : ℕ} (hx : s.Exact) (hle : bytes ≤ s.used)
    (hsettings : board.settings = s.board.settings)
    (hheld : board.held + bytes = s.board.held) :
    Exact { s.released bytes with board } := by
  have hused := hx.used
  have hcapacity := hx.le_capacity
  unfold capacity at hcapacity
  refine ⟨?_, ?_⟩
  · simp only [released]
    omega
  · simp only [released, capacity, hsettings]
    omega

theorem Exact.polled (hx : s.Exact) (h : s.Polled token s') : s'.Exact := by
  cases h with
  | yielded hphase hlive hsame hm hwoke =>
      exact hx.of_swapped ⟨rfl, hlive, hm, rfl⟩ (SameTask.charge_eq hsame) rfl rfl rfl
  | parked hphase hlive hsame hm htokens hstate hturn hstates =>
      exact hx.of_swapped ⟨rfl, hlive, hm, rfl⟩ (SameTask.charge_eq hsame) rfl rfl rfl
  | requested hphase hlive hsame hwants hhead =>
      have hcharge := SameTask.charge_eq hsame
      exact hx.of_swapped (Board.swapped_insert rfl hlive rfl rfl) hcharge rfl rfl rfl
  | lined hphase hlive hsame hwants hhead htokens hstates =>
      have hcharge := SameTask.charge_eq hsame
      exact hx.of_swapped (Board.swapped_insert rfl hlive rfl rfl) hcharge rfl rfl rfl
  | blocked hphase hlive hblocked => exact ⟨hx.used, hx.le_capacity⟩
  | @advanced entry e event connection ready hphase hlive hsame hstep hrequest hsent hcharge
      hcharge' hreleased =>
      refine hx.of_swapped (Board.swapped_insert rfl hlive rfl rfl) ?_ rfl rfl rfl
      rw [SameTask.charge_eq hsame, hcharge]
      exact hcharge'.symm
  | @copied entry bytes after now connection ready hphase hlive hat hstep hrequest hsent hfits
      hcharge hreleased =>
      have hheld := (@Board.swapped_insert s.board
        ((s.board.attempted token .bytes).advanced token entry connection ready) token entry
        _ rfl hlive rfl rfl).held_eq
      have hcharge' : Await.charge connection.task.await = bytes.length := hcharge
      simp only [Entry.await, hcharge'] at hheld
      have hzero : entry.connection.task.await.charge = 0 := by
        have hawait : entry.connection.task.await = .copy bytes after := hat
        rw [hawait]
        rfl
      have hused := hx.used
      have hle := hx.le_capacity
      refine ⟨?_, ?_⟩
      · dsimp only
        omega
      · unfold capacity at *
        dsimp only [Board.advanced, Board.attempted]
        omega
  | @sent entry record after channel connection ready hphase hlive hat hstep hrequest hsent
      hcharge hconnected hslots hbuffer hstill hreleased =>
      have hheld := (@Board.swapped_insert s.board
        ((s.board.attempted token .queue).advanced token entry connection ready) token entry
        _ rfl hlive rfl rfl).held_eq
      have hcharge' : Await.charge connection.task.await = 0 := hcharge
      have hrecord : entry.connection.task.await.charge = record.kind.charged := by
        have hawait : entry.connection.task.await = .send record after := hat
        rw [hawait]
        rfl
      simp only [Entry.await, hcharge', hrecord] at hheld
      have hcharged : channel.charged = s.channel.charged + record.kind.charged := by
        simp [Channel.charged, hbuffer]
      have hused := hx.used
      refine ⟨?_, hx.le_capacity⟩
      dsimp only
      omega
  | @refused entry record after connection ready hphase hlive hat hstep hrequest hsent hcharge
      hconnected hle hreleased =>
      have hheld := (@Board.swapped_insert s.board
        ((s.board.attempted token .queue).advanced token entry connection ready) token entry
        _ rfl hlive rfl rfl).held_eq
      have hcharge' : Await.charge connection.task.await = 0 := hcharge
      have hrecord : entry.connection.task.await.charge = record.kind.charged := by
        have hawait : entry.connection.task.await = .send record after := hat
        rw [hawait]
        rfl
      simp only [Entry.await, hcharge', hrecord] at hheld
      exact hx.of_released hle rfl hheld
  | @exhausted entry e record after connection ready hphase hlive hsame hat hcount hstep hsent
      hcharge hle hreleased =>
      have hheld := (@Board.swapped_insert s.board
        (s.board.advanced token e connection ready) token entry _ rfl hlive rfl rfl).held_eq
      have hcharge' : Await.charge connection.task.await = 0 := hcharge
      have hrecord : entry.await.charge = record.kind.charged := by
        rw [SameTask.charge_eq hsame, hat]
        rfl
      rw [hrecord] at hheld
      simp only [Entry.await, hcharge'] at hheld
      exact hx.of_released hle rfl hheld

theorem Exact.move (hx : s.Exact) (h : s.Move s') : s'.Exact := by
  cases h with
  | shared hshared => exact hx.shared hshared
  | woke hwoke => exact ⟨hx.used, hx.le_capacity⟩
  | credited hwoke => exact ⟨hx.used, hx.le_capacity⟩
  | @inserted token peer ready hfresh hdeparted hsubscribed hwaiters hstates =>
      refine ⟨?_, hx.le_capacity⟩
      have hheld := Std.TreeMap.total_insert_of_none (f := fun _ e ↦ e.await.charge) hfresh
        ⟨s.board.admitted token peer, 0, false⟩
      have hused := hx.used
      unfold Board.held at *
      dsimp only at *
      rw [hheld]
      exact hused
  | took hphase hlive hhead hwaiters hstates =>
      exact hx.of_swapped (Board.swapped_insert rfl hlive rfl rfl) rfl rfl rfl rfl
  | polled hpolled => exact hx.polled hpolled
  | @retired token entry ready hphase hlive hle hretired =>
      exact hx.of_released hle rfl
        (Std.TreeMap.total_erase (f := fun _ e ↦ e.await.charge) hlive)

/-! ## Records -/

end Engine

namespace Board

theorem Runs.id_eq {settings : Settings} {token : Token} {c : Connection}
    (h : Runs settings token c) : c.task.id = ⟨settings.instanceId, token⟩ := by
  obtain ⟨peer, hreachable⟩ := h
  refine (Connection.reachable_induction
    (I := fun c ↦ c.task.id = ⟨settings.instanceId, token⟩) hreachable rfl ?_).2
  intro c d effect _ hc hmove _ _
  exact hmove.identity_eq.1.trans hc

/-- The records handed off by the connection that was admitted under `token`. -/
def history (b : Board) (token : Token) : Option (List Record) :=
  (b.live[token]?.map (·.connection.sent)).or (b.departed[token]?.map (·.sent))

/-- A weight of the handed-off records, over all connections ever admitted. -/
def recordTotal (f : Record → ℕ) (b : Board) : ℕ :=
  Std.TreeMap.total (fun _ e ↦ (e.connection.sent.map f).sum) b.live +
    Std.TreeMap.total (fun _ c ↦ (c.sent.map f).sum) b.departed

variable {b b' : Board} {token : Token} {entry e : Entry}

theorem history_of_live (hlive : b.live[token]? = some entry) :
    b.history token = some entry.connection.sent := by
  simp [history, hlive]

theorem Swapped.history_eq (h : b.Swapped token entry e b')
    (hsent : e.connection.sent = entry.connection.sent) (u : Token) :
    b'.history u = b.history u := by
  unfold history
  rw [h.live, h.departed]
  by_cases hu : token = u
  · subst hu
    simp [h.before, hsent]
  · rw [if_neg hu]

theorem Swapped.recordTotal_eq (h : b.Swapped token entry e b') (f : Record → ℕ)
    (hsent : e.connection.sent = entry.connection.sent) :
    b'.recordTotal f = b.recordTotal f := by
  have htotal := h.total_eq fun _ e ↦ (e.connection.sent.map f).sum
  rw [hsent] at htotal
  unfold recordTotal
  rw [h.departed]
  omega

end Board

namespace Engine

/-- The accepted records are those of the connections' histories, each in its
order, and the consumer has taken a beginning of them. -/
structure Handed (s : Engine) : Prop where
  slots : s.channel.slots = s.board.settings.limits.queueSlots
  queued : s.channel.connected = true → s.received ++ s.channel.buffer = s.accepted
  closed : s.channel.connected = false → s.channel.buffer = [] ∧ s.signals.Due .disconnected
  taken : s.received <+: s.accepted
  history : ∀ token records, s.board.history token = some records →
    s.accepted.filter (·.connection = s.board.id token) = records
  known : ∀ record ∈ s.accepted, ∃ token, record.connection = s.board.id token ∧
    (s.board.history token).isSome = true
  total : ∀ f : Record → ℕ, (s.accepted.map f).sum = s.board.recordTotal f

theorem handed_new (settings : Settings) (outside : List ℕ) :
    (new settings outside).Handed where
  slots := rfl
  queued _ := rfl
  closed := nofun
  taken := List.prefix_refl _
  history := by simp [new, Board.new, Board.history]
  known := by simp [new]
  total := by simp [new, Board.new, Board.recordTotal]

theorem exact_new (settings : Settings) {outside : List ℕ}
    (hfits : outside.sum ≤ settings.capacity.val) : (new settings outside).Exact where
  used := by simp [new, Channel.charged, Channel.new, Board.held, Board.new]
  le_capacity := hfits

section Records

variable {s s' : Engine} {token : Token} {entry e : Entry}

theorem Handed.shared (h : s.Handed) (hshared : s.Shared s') : s'.Handed := by
  cases hshared with
  | @received record channel hbuffer hslots hconnected =>
      have hopen : s.channel.connected = true := by
        cases hc : s.channel.connected with
        | true => rfl
        | false => simp [(h.closed hc).1] at hbuffer
      have hqueued := h.queued hopen
      rw [hbuffer] at hqueued
      refine ⟨hslots.trans h.slots, fun _ ↦ ?_, fun hclosed ↦ ?_, ?_, h.history, h.known, h.total⟩
      · simpa using hqueued
      · dsimp only at hclosed
        rw [hconnected, hopen] at hclosed
        cases hclosed
      · exact ⟨channel.buffer, by simpa using hqueued⟩
  | @discarded index bytes hindex hle =>
      refine ⟨h.slots, h.queued, fun hclosed ↦ ⟨(h.closed hclosed).1, ?_⟩, h.taken, h.history,
        h.known, h.total⟩
      dsimp only
      split_ifs
      · exact Signals.due_owe.mpr (Or.inr (h.closed hclosed).2)
      · exact (h.closed hclosed).2
  | copied hfits => exact ⟨h.slots, h.queued, h.closed, h.taken, h.history, h.known, h.total⟩
  | unchanged => exact h
  | disconnected hconnected =>
      exact ⟨h.slots, nofun, fun _ ↦ ⟨rfl, Signals.due_owe.mpr (Or.inl rfl)⟩, h.taken, h.history,
        h.known, h.total⟩
  | signalled hdue =>
      exact ⟨h.slots, h.queued, fun hclosed ↦ ⟨(h.closed hclosed).1,
        hdue _ nofun (h.closed hclosed).2⟩, h.taken, h.history, h.known, h.total⟩
  | subscribed hempty =>
      exact ⟨h.slots, h.queued, h.closed, h.taken, h.history, h.known, h.total⟩

/-- A change of the board that keeps every history. -/
theorem Handed.of_board (h : s.Handed) (hsettings : s'.board.settings = s.board.settings)
    (hhistory : ∀ u, s'.board.history u = s.board.history u)
    (htotal : ∀ f, s'.board.recordTotal f = s.board.recordTotal f)
    (hchannel : s'.channel = s.channel) (haccepted : s'.accepted = s.accepted)
    (hreceived : s'.received = s.received)
    (hdue : s.signals.Due .disconnected → s'.signals.Due .disconnected) : s'.Handed := by
  have hid (u : Token) : s'.board.id u = s.board.id u := by simp [Board.id, hsettings]
  refine ⟨?_, ?_, ?_, ?_, ?_, ?_, ?_⟩
  · rw [hchannel, hsettings]
    exact h.slots
  · rw [hchannel, hreceived, haccepted]
    exact h.queued
  · intro hclosed
    rw [hchannel] at hclosed ⊢
    exact ⟨(h.closed hclosed).1, hdue (h.closed hclosed).2⟩
  · rw [hreceived, haccepted]
    exact h.taken
  · intro u records hrecords
    rw [hhistory] at hrecords
    rw [haccepted, hid]
    exact h.history u records hrecords
  · intro record hrecord
    rw [haccepted] at hrecord
    obtain ⟨u, hu, hsome⟩ := h.known record hrecord
    exact ⟨u, by rw [hid]; exact hu, by rw [hhistory]; exact hsome⟩
  · intro f
    rw [haccepted, htotal]
    exact h.total f

theorem Handed.of_swapped (h : s.Handed) (hswapped : s.board.Swapped token entry e s'.board)
    (hsent : e.connection.sent = entry.connection.sent)
    (hchannel : s'.channel = s.channel) (haccepted : s'.accepted = s.accepted)
    (hreceived : s'.received = s.received)
    (hdue : s.signals.Due .disconnected → s'.signals.Due .disconnected) : s'.Handed :=
  h.of_board hswapped.settings (hswapped.history_eq hsent)
    (fun f ↦ hswapped.recordTotal_eq f hsent) hchannel haccepted hreceived hdue

theorem due_released {signal : Signal} {bytes : ℕ} (h : s.signals.Due signal) :
    (s.released bytes).signals.Due signal := by
  unfold released
  dsimp only
  split_ifs
  · exact Signals.due_set.mpr (Or.inr h)
  · exact h

theorem due_cleared {k : Resource} (h : s.signals.Due .disconnected) :
    (s.signals.clear k.signal).Due .disconnected := by
  refine (Signals.due_clear ?_).mpr h
  cases k <;> nofun

theorem SameTask.sent_eq (h : Board.SameTask entry e) :
    e.connection.sent = entry.connection.sent := by rw [h.connection]

/-- An admitted connection has handed nothing off yet. -/
theorem Handed.inserted {board : Board} {peer : SocketAddr} (h : s.Handed)
    (hsettings : board.settings = s.board.settings) (hfresh : s.board.live[token]? = none)
    (hdeparted : s.board.departed[token]? = none)
    (hlive : board.live = s.board.live.insert token ⟨s.board.admitted token peer, 0, false⟩)
    (hsame : board.departed = s.board.departed) : Handed { s with board } := by
  have hid (u : Token) : board.id u = s.board.id u := by simp [Board.id, hsettings]
  have hnone : s.board.history token = none := by simp [Board.history, hfresh, hdeparted]
  have hhistory (u : Token) :
      board.history u = if token = u then some [] else s.board.history u := by
    unfold Board.history
    rw [hlive, hsame, Std.TreeMap.getElem?_insert_ite]
    split_ifs
    · rfl
    · rfl
  refine ⟨?_, h.queued, h.closed, h.taken, ?_, ?_, ?_⟩
  · dsimp only
    rw [hsettings]
    exact h.slots
  · intro u records hrecords
    dsimp only at hrecords ⊢
    rw [hhistory] at hrecords
    rw [hid]
    split_ifs at hrecords with hu
    · cases hrecords
      subst hu
      rw [List.filter_eq_nil_iff]
      intro record hrecord
      obtain ⟨u, hu, hsome⟩ := h.known record hrecord
      simp only [decide_eq_true_eq]
      intro hsame
      rw [hu] at hsame
      have htoken : u = token := by simpa [Board.id] using hsame
      rw [htoken, hnone] at hsome
      cases hsome
    · exact h.history u records hrecords
  · intro record hrecord
    obtain ⟨u, hu, hsome⟩ := h.known record hrecord
    refine ⟨u, by dsimp only; rw [hid]; exact hu, ?_⟩
    dsimp only
    rw [hhistory]
    split_ifs
    · rfl
    · exact hsome
  · intro f
    dsimp only
    unfold Board.recordTotal
    rw [hlive, hsame, Std.TreeMap.total_insert_of_none hfresh]
    exact h.total f

/-- A destroyed task keeps its history. -/
theorem Handed.retired {ready : Ready} {bytes : ℕ} (h : s.Handed) (hcoherent : s.board.Coherent)
    (hlive : s.board.live[token]? = some entry) :
    Handed { s.released bytes with board := s.board.without token entry ready } := by
  have hdeparted : s.board.departed[token]? = none := by
    cases hd : s.board.departed[token]? with
    | none => rfl
    | some c =>
        have hnone := hcoherent.disjoint token (by simp [hd])
        rw [hlive] at hnone
        cases hnone
  refine h.of_board rfl ?_ ?_ rfl rfl rfl due_released
  · intro u
    unfold Board.history Board.without
    dsimp only
    rw [Std.TreeMap.getElem?_erase_ite, Std.TreeMap.getElem?_insert_ite]
    split_ifs with hu
    · subst hu
      simp [hlive]
    · rfl
  · intro f
    unfold Board.recordTotal Board.without
    dsimp only
    rw [Std.TreeMap.total_insert_of_none hdeparted]
    have herase := Std.TreeMap.total_erase
      (f := fun _ (e : Entry) ↦ (e.connection.sent.map f).sum) hlive
    omega

/-- An accepted record extends the history of its own connection. -/
theorem Handed.sent {board : Board} {channel : Channel} {record : Record} (h : s.Handed)
    (hswapped : s.board.Swapped token entry e board)
    (hsent : e.connection.sent = entry.connection.sent ++ [record])
    (hid : record.connection = s.board.id token) (hconnected : s.channel.connected = true)
    (hslots : channel.slots = s.channel.slots)
    (hbuffer : channel.buffer = s.channel.buffer ++ [record])
    (hstill : channel.connected = true) :
    Handed { s with channel, accepted := s.accepted ++ [record], board } := by
  have hid' (u : Token) : board.id u = s.board.id u := by simp [Board.id, hswapped.settings]
  have hhistory (u : Token) : board.history u =
      if token = u then some (entry.connection.sent ++ [record]) else s.board.history u := by
    unfold Board.history
    rw [hswapped.live, hswapped.departed]
    split_ifs
    · simp [hsent]
    · rfl
  have hold := h.history token _ (Board.history_of_live hswapped.before)
  refine ⟨?_, ?_, ?_, ?_, ?_, ?_, ?_⟩
  · dsimp only
    rw [hslots, hswapped.settings]
    exact h.slots
  · intro _
    dsimp only
    rw [hbuffer, ← List.append_assoc, h.queued hconnected]
  · intro hclosed
    dsimp only at hclosed
    rw [hstill] at hclosed
    cases hclosed
  · exact h.taken.trans (List.prefix_append _ _)
  · intro u records hrecords
    dsimp only at hrecords ⊢
    rw [hhistory] at hrecords
    rw [hid', List.filter_append]
    split_ifs at hrecords with hu
    · cases hrecords
      subst hu
      rw [hold]
      simp [hid]
    · rw [h.history u records hrecords]
      have hne : record.connection ≠ s.board.id u := by
        rw [hid]
        simpa [Board.id] using hu
      simp [hne]
  · intro other hother
    rw [List.mem_append, List.mem_singleton] at hother
    dsimp only
    rcases hother with hmem | rfl
    · obtain ⟨u, hu, hsome⟩ := h.known other hmem
      refine ⟨u, by rw [hid']; exact hu, ?_⟩
      rw [hhistory]
      split_ifs
      · rfl
      · exact hsome
    · exact ⟨token, by rw [hid']; exact hid, by simp [hhistory]⟩
  · intro f
    have htotal := hswapped.total_eq fun _ e ↦ (e.connection.sent.map f).sum
    have hall := h.total f
    unfold Board.recordTotal at *
    dsimp only at *
    rw [hsent] at htotal
    simp only [List.map_append, List.sum_append, List.map_singleton, List.sum_singleton] at *
    rw [hswapped.departed]
    omega

theorem Handed.polled (h : s.Handed) (hcoherent : s.board.Coherent)
    (hpolled : s.Polled token s') : s'.Handed := by
  cases hpolled with
  | yielded hphase hlive hsame hm hwoke =>
      exact h.of_swapped ⟨rfl, hlive, hm, rfl⟩ (SameTask.sent_eq hsame) rfl rfl rfl id
  | parked hphase hlive hsame hm htokens hstate hturn hstates =>
      exact h.of_swapped ⟨rfl, hlive, hm, rfl⟩ (SameTask.sent_eq hsame) rfl rfl rfl id
  | requested hphase hlive hsame hwants hhead =>
      have hsent := SameTask.sent_eq hsame
      exact h.of_swapped (Board.swapped_insert rfl hlive rfl rfl) hsent rfl rfl rfl id
  | lined hphase hlive hsame hwants hhead htokens hstates =>
      have hsent := SameTask.sent_eq hsame
      exact h.of_swapped (Board.swapped_insert rfl hlive rfl rfl) hsent rfl rfl rfl id
  | blocked hphase hlive hblocked =>
      exact h.of_board rfl (fun _ ↦ rfl) (fun _ ↦ rfl) rfl rfl rfl id
  | advanced hphase hlive hsame hstep hrequest hsent hcharge hcharge' hreleased =>
      have hsent' := hsent.trans (SameTask.sent_eq hsame)
      exact h.of_swapped (Board.swapped_insert rfl hlive rfl rfl) hsent' rfl rfl rfl id
  | copied hphase hlive hat hstep hrequest hsent hfits hcharge hreleased =>
      exact h.of_swapped (Board.swapped_insert rfl hlive rfl rfl) hsent rfl rfl rfl id
  | @sent entry record after channel connection ready hphase hlive hat hstep hrequest hsent
      hcharge hconnected hslots hbuffer hstill hreleased =>
      have hruns := (hcoherent.holds token entry hlive).runs
      have hplaced := hruns.placed
      have hawait : entry.connection.task.await = .send record after := hat
      simp only [Task.Placed, hawait] at hplaced
      exact h.sent (Board.swapped_insert rfl hlive rfl rfl) hsent
        (hplaced.2.1.trans hruns.id_eq) hconnected hslots hbuffer hstill
  | refused hphase hlive hat hstep hrequest hsent hcharge hconnected hle hreleased =>
      exact h.of_swapped (Board.swapped_insert rfl hlive rfl rfl) hsent rfl rfl rfl due_released
  | exhausted hphase hlive hsame hat hcount hstep hsent hcharge hle hreleased =>
      have hsent' := hsent.trans (SameTask.sent_eq hsame)
      exact h.of_swapped (Board.swapped_insert rfl hlive rfl rfl) hsent' rfl rfl rfl due_released

theorem Handed.move (h : s.Handed) (hcoherent : s.board.Coherent) (hmove : s.Move s') :
    s'.Handed := by
  cases hmove with
  | shared hshared => exact h.shared hshared
  | woke hwoke => exact h.of_board rfl (fun _ ↦ rfl) (fun _ ↦ rfl) rfl rfl rfl id
  | credited hwoke => exact h.of_board rfl (fun _ ↦ rfl) (fun _ ↦ rfl) rfl rfl rfl due_cleared
  | inserted hfresh hdeparted hsubscribed hwaiters hstates =>
      exact h.inserted rfl hfresh hdeparted rfl rfl
  | took hphase hlive hhead hwaiters hstates =>
      exact h.of_swapped (Board.swapped_insert rfl hlive rfl rfl) rfl rfl rfl rfl id
  | polled hpolled => exact h.polled hcoherent hpolled
  | retired hphase hlive hle hretired => exact h.retired hcoherent hlive

end Records

end Engine

end Phonowire.Receiver
