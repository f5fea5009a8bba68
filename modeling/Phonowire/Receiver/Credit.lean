import Phonowire.Receiver.Ownership

/-!
# No resource credit is lost

Only the first request of each order is ever resumed, and other threads return
capacity through flags that coalesce. The first request is nevertheless always
attended to: its task has a turn or is at it, a signal for its resource is due,
or the resource is still too full for it.
-/

namespace Phonowire.Receiver

namespace Engine

variable {s s' : Engine} {k : Resource} {token u : Token} {entry e : Entry}

/-- The request of `token` for `k` will be tried, or cannot be granted. -/
inductive Attended (s : Engine) (k : Resource) (token : Token) : Prop
  | runnable (h : s.board.ready.Runnable token)
  | polled (h : s.board.phase = .polling token ∨ s.board.phase = .attempting token k)
  | due (h : s.signals.Due k.signal)
  | blocked (e : Entry) (hlive : s.board.live[token]? = some e) (h : s.Blocked k e)
  | closed (hk : k = .queue) (h : s.channel.connected = false)

structure Credited (s : Engine) : Prop where
  subscribed : ∀ (token : Token) e, s.board.live[token]? = some e → s.subscribed = true
  first : ∀ k token, (s.board.ready.waiters k).tokens.head? = some token → s.Attended k token

theorem credited_new (settings : Settings) (outside : List ℕ) :
    (new settings outside).Credited where
  subscribed := by simp [new, Board.new]
  first := by
    intro k token
    cases k <;> simp [new, Board.new, Ready.new, Ready.waiters]

/-! ## Requests of other tasks -/

theorem runnable_of_aside {r r' : Ready} (h : Board.Aside r r' token) (hu : token ≠ u)
    (hrunnable : r.Runnable u) : r'.Runnable u := by
  unfold Ready.Runnable at *
  rcases h u hu with heq | heq
  · rwa [heq]
  · rw [heq]
    rcases hrunnable with hs | hs <;> rw [hs]
    · exact Or.inl rfl
    · exact Or.inr rfl

theorem runnable_of_woke {head : Option Token} {r r' : Ready} (h : Ready.Woke head r r')
    (hrunnable : r.Runnable u) : r'.Runnable u := by
  unfold Ready.Runnable at *
  rw [h.states]
  split_ifs
  · rcases hrunnable with hs | hs <;> rw [hs]
    · exact Or.inl rfl
    · exact Or.inr rfl
  · exact hrunnable

/-- What a step must keep for a request that it does not concern. -/
theorem Attended.keep (h : s.Attended k u) (hphase : s.board.phase.token ≠ some u)
    (hrunnable : s.board.ready.Runnable u → s'.board.ready.Runnable u)
    (hlive : s'.board.live[u]? = s.board.live[u]?)
    (hdue : s.signals.Due k.signal → s'.signals.Due k.signal)
    (hblocked : ∀ e, s.Blocked k e → s'.Attended k u ∨ s'.Blocked k e)
    (hclosed : s.channel.connected = false → s'.channel.connected = false) :
    s'.Attended k u := by
  cases h with
  | runnable h => exact .runnable (hrunnable h)
  | polled h => rcases h with h | h <;> rw [h] at hphase <;> exact absurd rfl hphase
  | due h => exact .due (hdue h)
  | blocked e he h =>
      rcases hblocked e h with hattended | hstill
      · exact hattended
      · exact .blocked e (hlive.trans he) hstill
  | closed hk h => exact .closed hk (hclosed h)

/-- `Blocked` reads the account and the channel only. -/
theorem Blocked.congr (h : s.Blocked k e) (hcapacity : s'.capacity = s.capacity)
    (hused : s'.used = s.used) (hchannel : s'.channel = s.channel) : s'.Blocked k e := by
  unfold Blocked at *
  rw [hcapacity, hused, hchannel]
  exact h

theorem Attended.of_board (h : s.Attended k u) (hphase : s.board.phase.token ≠ some u)
    (hsettings : s'.board.settings = s.board.settings)
    (hrunnable : s.board.ready.Runnable u → s'.board.ready.Runnable u)
    (hlive : s'.board.live[u]? = s.board.live[u]?) (hsignals : s'.signals = s.signals)
    (hused : s'.used = s.used) (hchannel : s'.channel = s.channel) : s'.Attended k u := by
  refine h.keep hphase hrunnable hlive (by rw [hsignals]; exact fun h ↦ h) ?_
    (by rw [hchannel]; exact fun h ↦ h)
  intro e hblocked
  refine Or.inr (hblocked.congr ?_ hused hchannel)
  unfold capacity
  rw [hsettings]

theorem Credited.swapped (h : s.Credited) (hswapped : s.board.Swapped token entry e s'.board)
    (hsubscribed : s'.subscribed = s.subscribed) :
    ∀ (u : Token) e', s'.board.live[u]? = some e' → s'.subscribed = true := by
  intro u e' hu
  rw [hsubscribed]
  exact h.subscribed token entry hswapped.before

/-! ## Released bytes and dropped requests -/

/-- Bytes that the worker releases are credited to the worker itself. -/
theorem blocked_released {bytes : ℕ} {board : Board} (hsubscribed : s.subscribed = true)
    (hsettings : board.settings = s.board.settings) (h : s.Blocked k e) :
    Attended { s.released bytes with board } k u ∨ Blocked { s.released bytes with board } k e := by
  cases k with
  | queue => exact Or.inr h
  | bytes =>
      by_cases hzero : bytes = 0
      · right
        subst hzero
        obtain ⟨data, after, hat, hlt⟩ := h
        refine ⟨data, after, hat, ?_⟩
        unfold capacity at *
        simp only [released, hsettings]
        omega
      · left
        refine .due ?_
        simp only [released, hsubscribed, and_true, if_pos hzero]
        exact Signals.due_set.mpr (Or.inl rfl)

theorem head_erase {tokens : List Token} (h : (tokens.erase token).head? = some u) :
    tokens.head? = some u ∨ tokens.head? = some token := by
  cases tokens with
  | nil => simp at h
  | cons t tokens =>
      by_cases ht : t = token
      · subst ht
        exact Or.inr rfl
      · rw [List.erase_cons_tail (by simpa using ht)] at h
        exact Or.inl h

/-- The first request behind a drop was first before, or is woken by the drop. -/
theorem first_of_released {r r' : Ready} {request : Option Resource}
    (h : Board.Released r token request r') (hr : r.Consistent)
    (hfirst : (r'.waiters k).tokens.head? = some u) :
    (r.waiters k).tokens.head? = some u ∨ r'.Runnable u := by
  rw [h.waiters] at hfirst
  split_ifs at hfirst with hk
  · rcases head_erase hfirst with hsame | htoken
    · exact Or.inl hsame
    · right
      have hsuccessor : r.successor token k = some u := by
        unfold Ready.successor
        rw [if_pos htoken, hfirst]
      have hlive : r.Live u := hr.waiters k u (List.mem_of_mem_erase (List.mem_of_head? hfirst))
      obtain ⟨state, hstate⟩ := Option.isSome_iff_exists.mp hlive
      have hwoken := h.states u
      rw [hk, Option.bind_some, if_pos hsuccessor, hstate, Option.map_some] at hwoken
      unfold Ready.Runnable
      rw [hwoken]
      rcases Ready.woken_runnable state with hs | hs <;> rw [hs]
      · exact Or.inl rfl
      · exact Or.inr rfl
  · exact Or.inl hfirst

/-- A task that goes on has no request left. -/
theorem first_ne_of_released {r' : Ready} {e : Entry} (h : s.board.Coherent)
    (hlive : s.board.live[token]? = some entry) (hsame : Board.SameTask entry e)
    (hreleased : Board.Released s.board.ready token e.request r')
    (hfirst : (r'.waiters k).tokens.head? = some u) : token ≠ u := by
  rintro rfl
  have hmem := List.mem_of_head? hfirst
  rw [hreleased.waiters] at hmem
  split_ifs at hmem with hk
  · rw [(s.board.ready.waiters k).nodup.mem_erase_iff] at hmem
    exact hmem.1 rfl
  · rw [h.mem_requests hlive, ← hsame.request_eq] at hmem
    exact hk hmem

/-- After an answer the first request is attended to as before, or was just
woken. -/
theorem Attended.advanced {ready : Ready} (h : s.Credited) (hcoherent : s.board.Coherent)
    (hphase : s.board.phase.token = some token) (hlive : s.board.live[token]? = some entry)
    (hsame : Board.SameTask entry e)
    (hreleased : Board.Released s.board.ready token e.request ready)
    (hready : s'.board.ready = ready)
    (hat : ∀ u : Token, token ≠ u → s'.board.live[u]? = s.board.live[u]?)
    (hdue : ∀ k : Resource, s.signals.Due k.signal → s'.signals.Due k.signal)
    (hblocked : ∀ k u e, s.Blocked k e → s'.Attended k u ∨ s'.Blocked k e)
    (hclosed : s.channel.connected = false → s'.channel.connected = false) :
    ∀ k u, (s'.board.ready.waiters k).tokens.head? = some u → s'.Attended k u := by
  intro k u hfirst
  rw [hready] at hfirst
  have hu := first_ne_of_released hcoherent hlive hsame hreleased hfirst
  rcases first_of_released hreleased hcoherent.consistent hfirst with hbefore | hrunnable
  · refine (h.first k u hbefore).keep ?_ ?_ (hat u hu) (hdue k) (hblocked k u) hclosed
    · rw [hphase]
      simpa using hu
    · rw [hready]
      exact runnable_of_aside hreleased.aside hu
  · refine .runnable ?_
    rw [hready]
    exact hrunnable

/-! ## Every move -/

theorem Credited.shared (h : s.Credited) (hshared : s.Shared s') : s'.Credited := by
  have hkeep {t : Engine} (hboard : t.board = s.board)
      (hsubscribed : s.subscribed = true → t.subscribed = true)
      (hdue : ∀ k : Resource, s.signals.Due k.signal → t.signals.Due k.signal)
      (hblocked : ∀ k u e, (s.board.ready.waiters k).tokens.head? = some u →
        s.Blocked k e → t.Attended k u ∨ t.Blocked k e)
      (hclosed : s.channel.connected = false → t.channel.connected = false) : t.Credited := by
    constructor
    · intro u e he
      rw [hboard] at he
      exact hsubscribed (h.subscribed u e he)
    · intro k u hfirst
      rw [hboard] at hfirst
      cases h.first k u hfirst with
      | runnable hrun => exact .runnable (hboard ▸ hrun)
      | polled hpolled => exact .polled (hboard ▸ hpolled)
      | due hsignal => exact .due (hdue k hsignal)
      | blocked e he hb =>
          rcases hblocked k u e hfirst hb with hattended | hstill
          · exact hattended
          · exact .blocked e (hboard ▸ he) hstill
      | closed hk hc => exact .closed hk (hclosed hc)
  cases hshared with
  | received hbuffer hslots hconnected =>
      refine hkeep rfl id (fun k hdue ↦ Signals.due_owe.mpr (Or.inr hdue)) ?_
        (fun hclosed ↦ hconnected.trans hclosed)
      intro k u e _ hblocked
      cases k with
      | queue => exact Or.inl (.due (Signals.due_owe.mpr (Or.inl rfl)))
      | bytes => exact Or.inr hblocked
  | @discarded index bytes hindex hle =>
      refine hkeep rfl id ?_ ?_ id
      · intro k hdue
        dsimp only
        split_ifs
        · exact Signals.due_owe.mpr (Or.inr hdue)
        · exact hdue
      · intro k u e hfirst hblocked
        cases k with
        | queue => exact Or.inr hblocked
        | bytes =>
            by_cases hzero : bytes = 0
            · subst hzero
              exact Or.inr hblocked
            · left
              by_cases hsubscribed : s.subscribed = true
              · refine .due ?_
                dsimp only
                rw [if_pos ⟨hzero, hsubscribed⟩]
                exact Signals.due_owe.mpr (Or.inl rfl)
              · cases h.first .bytes u hfirst with
                | runnable hrun => exact .runnable hrun
                | polled hpolled => exact .polled hpolled
                | due hdue =>
                    refine .due ?_
                    dsimp only
                    split_ifs
                    · exact Signals.due_owe.mpr (Or.inr hdue)
                    · exact hdue
                | blocked e' he' _ => exact absurd (h.subscribed u e' he') hsubscribed
                | closed hk _ => cases hk
  | @copied bytes hfits =>
      refine hkeep rfl id (fun _ hdue ↦ hdue) ?_ id
      intro k u e _ hblocked
      cases k with
      | queue => exact Or.inr hblocked
      | bytes =>
          obtain ⟨data, after, hat, hlt⟩ := hblocked
          refine Or.inr ⟨data, after, hat, ?_⟩
          unfold capacity at *
          dsimp only
          omega
  | unchanged => exact h
  | disconnected hconnected =>
      refine hkeep rfl id (fun k hdue ↦ Signals.due_owe.mpr (Or.inr hdue)) ?_ (fun _ ↦ rfl)
      intro k u e _ hblocked
      cases k with
      | queue => exact Or.inl (.closed rfl rfl)
      | bytes => exact Or.inr hblocked
  | signalled hdue =>
      refine hkeep rfl id (fun k ↦ hdue _ (by cases k <;> nofun)) ?_ id
      exact fun k u e _ hblocked ↦ Or.inr hblocked
  | @subscribed subscribed hempty =>
      refine ⟨?_, ?_⟩
      · intro u e he
        rcases hempty with hsubscribed | hzero
        · exact hsubscribed
        · have hle := Std.TreeMap.le_total (f := fun _ (_ : Entry) ↦ 1) he
          rw [Std.TreeMap.total_one] at hle
          dsimp only at hle
          omega
      · intro k u hfirst
        cases h.first k u hfirst with
        | runnable hrun => exact .runnable hrun
        | polled hpolled => exact .polled hpolled
        | due hdue => exact .due hdue
        | blocked e he hb => exact .blocked e he hb
        | closed hk hc => exact .closed hk hc

theorem requests_other {j : Resource} (hcoherent : s.board.Coherent)
    (hlive : s.board.live[token]? = some entry) (hwants : entry.await.wants = some j)
    (hk : k ≠ j) (hfirst : (s.board.ready.waiters k).tokens.head? = some u) : token ≠ u := by
  rintro rfl
  have hrequest := (hcoherent.mem_requests hlive k).mp (List.mem_of_head? hfirst)
  have hwants' := (request_eq_some hrequest).2
  rw [hwants, Option.some.injEq] at hwants'
  exact hk hwants'.symm

theorem phase_ne_of_token (hphase : s.board.phase.token = some token) (hu : token ≠ u) :
    s.board.phase.token ≠ some u := by
  rw [hphase]
  simpa using hu

theorem head_pushBack {f : Fifo} (h : (f.pushBack token).tokens.head? = some u) :
    token = u ∨ f.tokens.head? = some u := by
  rw [Fifo.tokens_pushBack] at h
  split_ifs at h
  · exact Or.inr h
  · cases htokens : f.tokens with
    | nil =>
        rw [htokens] at h
        exact Or.inl (Option.some.inj h)
    | cons t tokens =>
        rw [htokens] at h
        exact Or.inr h

/-- Registration changes no other order and no other task. -/
theorem Credited.registered {ready : Ready} {phase : Phase} (h : s.Credited)
    (hcoherent : s.board.Coherent) (hphase : s.board.phase = .polling token)
    (hlive : s.board.live[token]? = some entry) (hsame : Board.SameTask entry e)
    (hwants : e.await.wants = some k)
    (htokens : ∀ j, (ready.waiters j).tokens =
      ((s.board.registered token e k .idle).ready.waiters j).tokens)
    (hstates : ∀ u : Token, token ≠ u → ready.states[u]? = s.board.ready.states[u]?)
    (hfirst : (ready.waiters k).tokens.head? = some token → phase = .attempting token k) :
    Credited { s with board := { s.board.registered token e k phase with ready } } := by
  have htoken : s.board.phase.token = some token := by rw [hphase]; rfl
  have hother {j : Resource} {u : Token} (hu : token ≠ u)
      (hbefore : (s.board.ready.waiters j).tokens.head? = some u) :
      Attended { s with board := { s.board.registered token e k phase with ready } } j u := by
    refine (h.first j u hbefore).of_board (phase_ne_of_token htoken hu) rfl ?_ ?_ rfl rfl rfl
    · exact runnable_of_aside (fun v hv ↦ Or.inl (hstates v hv)) hu
    · exact Std.TreeMap.getElem?_insert_of_ne hu _
  refine ⟨fun _ _ _ ↦ h.subscribed token entry hlive, ?_⟩
  intro j u hu
  have hu' := hu
  dsimp only at hu
  rw [htokens] at hu
  simp only [Board.registered, Ready.waiters_setWaiters] at hu
  split_ifs at hu with hj
  · subst hj
    by_cases htu : token = u
    · subst htu
      exact .polled (Or.inr (hfirst hu'))
    · rcases head_pushBack hu with heq | hbefore
      · exact absurd heq htu
      · exact hother htu hbefore
  · have hne := requests_other hcoherent hlive (hsame.await_eq ▸ hwants) hj hu
    exact hother hne hu

/-- A parked task is attended to through its resource or its queued turn. -/
theorem Credited.parked {ready : Ready} {live : Std.TreeMap Token Entry} {reason : WaitReason}
    {state : TaskState} (h : s.Credited) (hcoherent : s.board.Coherent)
    (hphase : s.board.phase = .polling token ∧ entry.await = .read ∨
      ∃ k, s.board.phase = .full token k)
    (hlive : s.board.live[token]? = some entry) (hsame : Board.SameTask entry e)
    (hm : ∀ u : Token, live[u]? = if token = u then some e else s.board.live[u]?)
    (htokens : ∀ k, (ready.waiters k).tokens = (s.board.ready.waiters k).tokens)
    (hstate : s.board.ready.states[token]? = some state)
    (hstates : ∀ u : Token, ready.states[u]? =
      if token = u then some (Ready.parked reason state) else s.board.ready.states[u]?) :
    Credited { s with board := { s.board with ready, live, phase := .idle } } := by
  refine ⟨fun _ _ _ ↦ h.subscribed token entry hlive, ?_⟩
  intro k u hfirst
  dsimp only at hfirst
  rw [htokens] at hfirst
  have htoken : s.board.phase.token = some token := by
    rcases hphase with ⟨hphase, _⟩ | ⟨j, hphase⟩ <;> rw [hphase] <;> rfl
  by_cases hu : token = u
  · subst hu
    have hrequest := (hcoherent.mem_requests hlive k).mp (List.mem_of_head? hfirst)
    have hfull : ∃ j, s.board.phase = .full token j := by
      rcases hphase with ⟨_, hread⟩ | hfull
      · have hwants := (request_eq_some hrequest).2
        rw [hread] at hwants
        cases hwants
      · exact hfull
    obtain ⟨j, hfull⟩ := hfull
    cases h.first k token hfirst with
    | runnable hrun =>
        refine .runnable (Or.inl ?_)
        dsimp only
        rw [hstates, if_pos rfl]
        rcases hrun with hs | hs
        · rcases hcoherent.turn token htoken with hs' | hs' <;> rw [hs] at hs' <;> cases hs'
        · rw [hstate] at hs
          cases hs
          rfl
    | polled hpolled => rcases hpolled with hp | hp <;> rw [hp] at hfull <;> cases hfull
    | due hdue => exact .due hdue
    | blocked e' he' hb =>
        rw [hlive] at he'
        cases he'
        refine .blocked e ?_ ?_
        · dsimp only
          rw [hm, if_pos rfl]
        · cases k with
          | queue => exact hb
          | bytes =>
              obtain ⟨data, after, hat, hlt⟩ := hb
              exact ⟨data, after, hsame.await_eq.trans hat, hlt⟩
    | closed hk hc => exact .closed hk hc
  · refine (h.first k u hfirst).of_board (phase_ne_of_token htoken hu) rfl ?_ ?_ rfl rfl rfl
    · exact runnable_of_aside (fun v hv ↦ Or.inl (by dsimp only; rw [hstates, if_neg hv])) hu
    · dsimp only
      rw [hm, if_neg hu]

/-- A retired task hands its first positions to the next requests. -/
theorem Credited.retired {ready : Ready} (h : s.Credited) (hcoherent : s.board.Coherent)
    (hphase : s.board.phase.betweenPolls = true) (hlive : s.board.live[token]? = some entry)
    (hretired : s.board.ready.Retired token ready) :
    Credited { s.released entry.await.charge with
      board := s.board.without token entry ready } := by
  have hsubscribed := h.subscribed token entry hlive
  refine ⟨fun _ _ _ ↦ hsubscribed, ?_⟩
  intro k u hfirst
  have hfirst' : ((s.board.ready.waiters k).tokens.erase token).head? = some u := by
    rw [← hretired.waiters]
    exact hfirst
  have hmem : u ∈ (s.board.ready.waiters k).tokens.erase token := List.mem_of_head? hfirst'
  rw [(s.board.ready.waiters k).nodup.mem_erase_iff] at hmem
  have hu : token ≠ u := fun heq ↦ hmem.1 heq.symm
  have hrunnable : s.board.ready.Runnable u → ready.Runnable u := by
    refine runnable_of_aside (fun v hv ↦ ?_) hu
    rw [hretired.states, if_neg hv]
    split_ifs
    · exact Or.inr rfl
    · exact Or.inl rfl
  rcases head_erase hfirst' with hbefore | htoken
  · have hpolled : s.board.phase ≠ .polling u ∧ s.board.phase ≠ .attempting u k := by
      constructor <;> intro heq <;> rw [heq] at hphase <;> cases hphase
    cases h.first k u hbefore with
    | runnable hrun => exact .runnable (hrunnable hrun)
    | polled hp => exact absurd hp (by simp [hpolled])
    | due hdue => exact .due (due_released hdue)
    | blocked e he hb =>
        have hsettings : (s.board.without token entry ready).settings = s.board.settings := rfl
        rcases blocked_released hsubscribed hsettings hb with hattended | hstill
        · exact hattended
        · refine .blocked e ?_ hstill
          dsimp only [Board.without]
          rw [Std.TreeMap.getElem?_erase_of_ne hu]
          exact he
    | closed hk hc => exact .closed hk hc
  · have hsuccessor : s.board.ready.successor token k = some u := by
      unfold Ready.successor
      rw [if_pos htoken, hfirst']
    have hlive' := hcoherent.consistent.waiters k u hmem.2
    obtain ⟨state, hstate⟩ := Option.isSome_iff_exists.mp hlive'
    have hwoken := hretired.states u
    rw [if_neg hu, if_pos (by cases k <;> simp [hsuccessor]), hstate, Option.map_some] at hwoken
    refine .runnable ?_
    unfold Ready.Runnable
    dsimp only [Board.without]
    rw [hwoken]
    rcases Ready.woken_runnable state with hs | hs <;> rw [hs]
    · exact Or.inl rfl
    · exact Or.inr rfl

theorem Credited.polled (h : s.Credited) (hcoherent : s.board.Coherent)
    (hpolled : s.Polled token s') : s'.Credited := by
  cases hpolled with
  | @yielded entry e live ready hphase hlive hsame hm hwoke =>
      refine ⟨fun _ _ _ ↦ h.subscribed token entry hlive, ?_⟩
      intro k u hfirst
      dsimp only at hfirst
      rw [hwoke.waiters] at hfirst
      by_cases hu : token = u
      · subst hu
        exact .runnable (hwoke.runnable
          (hcoherent.consistent.waiters k token (List.mem_of_head? hfirst)))
      · refine (h.first k u hfirst).of_board ?_ rfl (runnable_of_woke hwoke) ?_ rfl rfl rfl
        · exact phase_ne_of_token (by rw [hphase]; rfl) hu
        · dsimp only
          rw [hm, if_neg hu]
  | parked hphase hlive hsame hm htokens hstate hturn hstates =>
      exact h.parked hcoherent hphase hlive hsame hm htokens hstate hstates
  | requested hphase hlive hsame hwants hhead =>
      exact h.registered hcoherent hphase hlive hsame hwants (fun _ ↦ rfl)
        (fun u _ ↦ congrArg (·[u]?) (Ready.states_setWaiters _ _ _)) (fun _ ↦ rfl)
  | @lined entry e k ready hphase hlive hsame hwants hhead htokens hstates =>
      refine h.registered hcoherent hphase hlive hsame hwants htokens hstates ?_
      intro hfirst
      rw [htokens] at hfirst
      simp only [Board.registered, Ready.waiters_setWaiters, if_pos] at hfirst
      exact absurd hfirst hhead
  | @blocked entry k hphase hlive hblocked =>
      refine ⟨h.subscribed, ?_⟩
      intro j u hfirst
      by_cases hu : token = u
      · subst hu
        have hrequest := (hcoherent.mem_requests hlive j).mp (List.mem_of_head? hfirst)
        rw [attempting_request hcoherent hphase hlive, Option.some.injEq] at hrequest
        subst hrequest
        exact .blocked entry hlive hblocked
      · refine (h.first j u hfirst).of_board ?_ rfl id rfl rfl rfl rfl
        exact phase_ne_of_token (by rw [hphase]; rfl) hu
  | @advanced entry e event connection ready hphase hlive hsame hstep hrequest hsent hcharge
      hcharge' hreleased =>
      refine ⟨fun _ _ _ ↦ h.subscribed token entry hlive, ?_⟩
      refine Attended.advanced h hcoherent (by rw [hphase]; rfl) hlive hsame hreleased rfl ?_
        (fun _ hdue ↦ hdue) (fun _ _ _ hb ↦ Or.inr hb) id
      exact fun u hu ↦ Std.TreeMap.getElem?_insert_of_ne hu _
  | @copied entry bytes after now connection ready hphase hlive hat hstep hrequest hsent hfits
      hcharge hreleased =>
      refine ⟨fun _ _ _ ↦ h.subscribed token entry hlive, ?_⟩
      refine Attended.advanced h hcoherent (by rw [hphase]; rfl) hlive ⟨rfl, rfl⟩ hreleased rfl ?_
        (fun _ hdue ↦ hdue) ?_ id
      · exact fun u hu ↦ Std.TreeMap.getElem?_insert_of_ne hu _
      · intro k u e hb
        cases k with
        | queue => exact Or.inr hb
        | bytes =>
            obtain ⟨data, after', hat', hlt⟩ := hb
            refine Or.inr ⟨data, after', hat', ?_⟩
            unfold capacity at *
            dsimp only [Board.advanced, Board.attempted]
            omega
  | @sent entry record after channel connection ready hphase hlive hat hstep hrequest hsent
      hcharge hconnected hslots hbuffer hstill hreleased =>
      refine ⟨fun _ _ _ ↦ h.subscribed token entry hlive, ?_⟩
      intro k u hfirst
      have hu := first_ne_of_released hcoherent hlive ⟨rfl, rfl⟩ hreleased hfirst
      rcases first_of_released hreleased hcoherent.consistent hfirst with hbefore | hrunnable
      · cases k with
        | queue =>
            have htoken := hcoherent.first token .queue (Or.inl hphase)
            rw [hbefore, Option.some.injEq] at htoken
            exact absurd htoken.symm hu
        | bytes =>
            refine (h.first .bytes u hbefore).keep ?_ (runnable_of_aside hreleased.aside hu)
              (Std.TreeMap.getElem?_insert_of_ne hu _) id (fun _ hb ↦ Or.inr hb) ?_
            · exact phase_ne_of_token (by rw [hphase]; rfl) hu
            · intro hclosed
              rw [hconnected] at hclosed
              cases hclosed
      · exact .runnable hrunnable
  | @refused entry record after connection ready hphase hlive hat hstep hrequest hsent hcharge
      hconnected hle hreleased =>
      have hsubscribed := h.subscribed token entry hlive
      refine ⟨fun _ _ _ ↦ hsubscribed, ?_⟩
      refine Attended.advanced h hcoherent (by rw [hphase]; rfl) hlive ⟨rfl, rfl⟩ hreleased rfl ?_
        (fun _ hdue ↦ due_released hdue) (fun _ _ _ hb ↦ blocked_released hsubscribed rfl hb) id
      exact fun u hu ↦ Std.TreeMap.getElem?_insert_of_ne hu _
  | @exhausted entry e record after connection ready hphase hlive hsame hat hcount hstep hsent
      hcharge hle hreleased =>
      have hsubscribed := h.subscribed token entry hlive
      refine ⟨fun _ _ _ ↦ hsubscribed, ?_⟩
      refine Attended.advanced h hcoherent (by rw [hphase]; rfl) hlive hsame hreleased rfl ?_
        (fun _ hdue ↦ due_released hdue) (fun _ _ _ hb ↦ blocked_released hsubscribed rfl hb) id
      exact fun u hu ↦ Std.TreeMap.getElem?_insert_of_ne hu _

theorem Credited.move (h : s.Credited) (hcoherent : s.board.Coherent) (hmove : s.Move s') :
    s'.Credited := by
  cases hmove with
  | shared hshared => exact h.shared hshared
  | woke hwoke =>
      refine ⟨h.subscribed, ?_⟩
      intro k u hfirst
      dsimp only at hfirst
      rw [hwoke.waiters] at hfirst
      cases h.first k u hfirst with
      | runnable hrun => exact .runnable (runnable_of_woke hwoke hrun)
      | polled hpolled => exact .polled hpolled
      | due hdue => exact .due hdue
      | blocked e he hb => exact .blocked e he hb
      | closed hk hc => exact .closed hk hc
  | @credited j ready hwoke =>
      refine ⟨h.subscribed, ?_⟩
      intro k u hfirst
      dsimp only at hfirst
      rw [hwoke.waiters] at hfirst
      by_cases hk : k = j
      · subst hk
        rw [hfirst] at hwoke
        exact .runnable (hwoke.runnable
          (hcoherent.consistent.waiters k u (List.mem_of_head? hfirst)))
      · cases h.first k u hfirst with
        | runnable hrun => exact .runnable (runnable_of_woke hwoke hrun)
        | polled hpolled => exact .polled hpolled
        | due hdue =>
            refine .due ((Signals.due_clear ?_).mpr hdue)
            cases k <;> cases j <;> first | exact absurd rfl hk | nofun
        | blocked e he hb => exact .blocked e he hb
        | closed hk hc => exact .closed hk hc
  | @inserted token peer ready hfresh hdeparted hsubscribed hwaiters hstates =>
      refine ⟨fun _ _ _ ↦ hsubscribed, ?_⟩
      intro k u hfirst
      dsimp only at hfirst
      rw [hwaiters] at hfirst
      have hu : token ≠ u := by
        rintro rfl
        have hmem := (hcoherent.requests k token).mp (List.mem_of_head? hfirst)
        rw [hfresh] at hmem
        cases hmem
      cases h.first k u hfirst with
      | runnable hrun =>
          exact .runnable (runnable_of_aside
            (fun v hv ↦ Or.inl (by dsimp only; rw [hstates, if_neg hv])) hu hrun)
      | polled hpolled => exact .polled hpolled
      | due hdue => exact .due hdue
      | blocked e he hb =>
          refine .blocked e ?_ hb
          dsimp only
          rw [Std.TreeMap.getElem?_insert_of_ne hu]
          exact he
      | closed hk hc => exact .closed hk hc
  | @took token entry ready hphase hlive hhead hwaiters hstates =>
      refine ⟨fun _ _ _ ↦ h.subscribed token entry hlive, ?_⟩
      intro k u hfirst
      dsimp only at hfirst
      rw [hwaiters] at hfirst
      by_cases hu : token = u
      · subst hu
        exact .polled (Or.inl rfl)
      · refine (h.first k u hfirst).of_board (by rw [hphase]; nofun) rfl ?_ ?_ rfl rfl rfl
        · exact runnable_of_aside (fun v hv ↦ Or.inl (by dsimp only; rw [hstates, if_neg hv])) hu
        · exact Std.TreeMap.getElem?_insert_of_ne hu _
  | polled hpolled => exact h.polled hcoherent hpolled
  | retired hphase hlive hle hretired => exact h.retired hcoherent hphase hlive hretired

end Engine

end Phonowire.Receiver
