import Phonowire.Receiver.Course

/-!
# Requests are served in the order in which they registered

The request log only grows, a request leaves its line when it is answered or
when its connection is retired, and each order of waiters is the line of the
log. From this follow the admission rules for whole runs of a receiver.
-/

namespace Phonowire.Receiver

open Turns

namespace Engine

variable {s s' : Engine} {token : Token} {k : Resource}

/-- The registered request of `token` for `k` is answered in this step, or
cancelled with its connection. -/
inductive Decided (s : Engine) (k : Resource) (token : Token) (s' : Engine) : Prop
  | answered (entry next : Entry) (event : Event) (hlive : s.board.live[token]? = some entry)
      (hrequest : entry.request = some k) (hlive' : s'.board.live[token]? = some next)
      (hstep : entry.connection.step s.capacity event = some next.connection)
  | cancelled (entry : Entry) (hlive : s.board.live[token]? = some entry)
      (hrequest : entry.request = some k) (hlive' : s'.board.live[token]? = none)

/-- The log grows by `events`, and whoever leaves is decided. -/
structure Logged (s : Engine) (events : List RequestEvent) (s' : Engine) : Prop where
  log : s'.board.log = s.board.log ++ events
  decided : ∀ token k, .dropped token k ∈ events → s.Decided k token s'

theorem logged_nil (h : s'.board.log = s.board.log) : s.Logged [] s' :=
  ⟨by simpa using h, nofun⟩

theorem dropped_mem {entry : Entry} {token u : Token}
    (h : .dropped u k ∈ Board.droppedEvents token entry) : u = token ∧ entry.request = some k := by
  unfold Board.droppedEvents at h
  cases hrequest : entry.request with
  | none => simp [hrequest] at h
  | some j =>
      simp only [hrequest, Option.map_some, Option.toList_some, List.mem_singleton,
        RequestEvent.dropped.injEq] at h
      exact ⟨h.1, by rw [h.2]⟩

/-- A request that its task's answer drops. -/
theorem logged_advanced {entry e : Entry} {event : Event} {connection : Connection}
    (events : List RequestEvent) (hlive : s.board.live[token]? = some entry)
    (hsame : Board.SameTask entry e)
    (hstep : e.connection.step s.capacity event = some connection)
    (hboard : s'.board.live = s.board.live.insert token { e with connection, registered := false })
    (hlog : s'.board.log = s.board.log ++ (events ++ Board.droppedEvents token e))
    (hevents : ∀ u j, .dropped u j ∉ events) :
    s.Logged (events ++ Board.droppedEvents token e) s' := by
  refine ⟨hlog, ?_⟩
  intro u j hdropped
  rcases List.mem_append.mp hdropped with hmem | hmem
  · exact absurd hmem (hevents u j)
  · obtain ⟨rfl, hrequest⟩ := dropped_mem hmem
    refine .answered entry { e with connection, registered := false } event hlive
      (hsame.request_eq ▸ hrequest) ?_ ?_
    · rw [hboard]
      simp
    · rw [← hsame.connection]
      exact hstep

theorem logged_registered {e : Entry} {ready : Ready} {phase : Phase}
    (hboard : s'.board = { s.board.registered token e k phase with ready }) :
    ∃ events, s.Logged events s' := by
  cases hregistered : e.registered with
  | true => exact ⟨[], logged_nil (by simp [hboard, Board.registered, hregistered])⟩
  | false =>
      refine ⟨[.registered token k], by simp [hboard, Board.registered, hregistered], ?_⟩
      intro u j hdropped
      simp at hdropped

theorem Polled.logged (h : s.Polled token s') : ∃ events, s.Logged events s' := by
  have hattempted {u : Token} {j : Resource} (v : Token) (i : Resource) :
      RequestEvent.dropped v i ∉ [RequestEvent.attempted u j] := by simp
  cases h with
  | yielded hphase hlive hsame hm hwoke => exact ⟨[], logged_nil rfl⟩
  | parked hphase hlive hsame hm htokens hstate hturn hstates => exact ⟨[], logged_nil rfl⟩
  | requested hphase hlive hsame hwants hhead => exact logged_registered rfl
  | lined hphase hlive hsame hwants hhead htokens hstates => exact logged_registered rfl
  | @blocked entry k hphase hlive hblocked =>
      exact ⟨[.attempted token k], rfl, fun u j hdropped ↦ absurd hdropped (hattempted u j)⟩
  | advanced hphase hlive hsame hstep hrequest hsent hcharge hcharge' hreleased =>
      exact ⟨_, logged_advanced [] hlive hsame hstep rfl rfl nofun⟩
  | copied hphase hlive hat hstep hrequest hsent hfits hcharge hreleased =>
      exact ⟨_, logged_advanced _ hlive ⟨rfl, rfl⟩ hstep rfl (List.append_assoc ..) hattempted⟩
  | sent hphase hlive hat hstep hrequest hsent hcharge hconnected hslots hbuffer hstill hreleased =>
      exact ⟨_, logged_advanced _ hlive ⟨rfl, rfl⟩ hstep rfl (List.append_assoc ..) hattempted⟩
  | refused hphase hlive hat hstep hrequest hsent hcharge hconnected hle hreleased =>
      exact ⟨_, logged_advanced _ hlive ⟨rfl, rfl⟩ hstep rfl (List.append_assoc ..) hattempted⟩
  | exhausted hphase hlive hsame hat hcount hstep hsent hcharge hle hreleased =>
      exact ⟨_, logged_advanced [] hlive hsame hstep rfl rfl nofun⟩

theorem Move.logged (h : s.Move s') : ∃ events, s.Logged events s' := by
  cases h with
  | shared hshared =>
      have hboard : s'.board = s.board := by cases hshared <;> rfl
      exact ⟨[], logged_nil (by rw [hboard])⟩
  | woke hwoke => exact ⟨[], logged_nil rfl⟩
  | credited hwoke => exact ⟨[], logged_nil rfl⟩
  | inserted hfresh hdeparted hsubscribed hwaiters hstates => exact ⟨[], logged_nil rfl⟩
  | took hphase hlive hhead hwaiters hstates => exact ⟨[], logged_nil rfl⟩
  | polled hpolled => exact hpolled.logged
  | @retired token entry ready hphase hlive hle hretired =>
      refine ⟨Board.droppedEvents token entry, rfl, ?_⟩
      intro u j hdropped
      obtain ⟨rfl, hrequest⟩ := dropped_mem hdropped
      refine .cancelled entry hlive hrequest ?_
      simp [Board.without]

/-- A copy beyond the whole budget is refused, and its request never registers. -/
theorem poll_oversize {entry : Entry} {bytes : List UInt8} {after : AfterCopy} (input : PollInput)
    (hphase : s.board.phase = .polling token) (hlive : s.board.live[token]? = some entry)
    (hat : entry.await = .copy bytes after) (hlarge : s.capacity < bytes.length)
    (hremaining : entry.remaining ≠ 0) (hregistered : entry.registered = false) :
    ∃ s' next, s.step (.poll input) = some s' ∧ s'.board.log = s.board.log ∧
      s'.board.ready = s.board.ready ∧ s'.used = s.used ∧
      s'.board.live[token]? = some next ∧ next.registered = false ∧
      next.connection.task = entry.connection.task.onCopy input.now
        (.error (.tooLarge bytes.length s.capacity)) after := by
  have hstep : ({ entry with remaining := entry.remaining - 1 } : Entry).connection.step
      s.board.settings.capacity.val (.copy input.now) = _ := Connection.step_copy input.now hat
  have hresult : copyResult s.board.settings.capacity.val bytes =
      .error (.tooLarge bytes.length s.capacity) := if_pos hlarge
  rw [hresult] at hstep
  have hrequest : ({ entry with remaining := entry.remaining - 1 } : Entry).request = none := by
    simp [Entry.request, hregistered]
  have hpoll : s.step (.poll input) = s.permitted input token
      { entry with remaining := entry.remaining - 1 } := by
    simp [step, poll, hphase, hlive, hat, hremaining]
  have hcopy : s.permitted input token { entry with remaining := entry.remaining - 1 } =
      s.onBoard (s.board.advance token { entry with remaining := entry.remaining - 1 }
        (.copy input.now)) := by
    have hawait : ({ entry with remaining := entry.remaining - 1 } : Entry).await =
        .copy bytes after := hat
    simp [permitted, hawait, pollCopy, hlarge]
  rw [hpoll, hcopy]
  simp only [onBoard, Board.advance, hstep, Board.dropRequest, hrequest, Option.bind_eq_bind,
    Option.bind_some, Option.map_some, Option.some.injEq]
  exact ⟨_, _, rfl, rfl, rfl, rfl, Std.TreeMap.getElem?_insert_self, rfl, rfl⟩

end Engine

namespace World

/-- The line for `k`: entries, attempts and departures in order. -/
def lineLog (w : World) (k : Resource) : List (Turns.Event Token) := w.engine.board.requestLog k

/-- The order of waiters for `k`. -/
def waiting (w : World) (k : Resource) : List Token := (w.engine.board.ready.waiters k).tokens

variable {w w' : World} {k : Resource}

theorem lineLog_step {a : Step} (h : w.Steady) (hstep : w.step a = some w') (k : Resource) :
    ∃ since, w'.lineLog k = w.lineLog k ++ since ∧
      ∀ token, .leave token ∈ since → w.engine.Decided k token w'.engine := by
  obtain ⟨events, hlogged⟩ := (move_of_step h hstep).logged
  refine ⟨events.filterMap (·.at k), ?_, ?_⟩
  · unfold lineLog Board.requestLog
    rw [hlogged.log, List.filterMap_append]
  · intro token hleave
    obtain ⟨event, hmem, hat⟩ := List.mem_filterMap.mp hleave
    cases event with
    | registered u j =>
        simp only [RequestEvent.at] at hat
        split_ifs at hat
        cases hat
    | attempted u j =>
        simp only [RequestEvent.at] at hat
        split_ifs at hat
        cases hat
    | dropped u j =>
        simp only [RequestEvent.at] at hat
        split_ifs at hat with hj
        cases hat
        exact hlogged.decided token k (hj ▸ hmem)

/-- The log at a later state extends the log at an earlier one. -/
theorem lineLog_run (h : w.Steady) (hrun : Machine.Reachable World.step w w') (k : Resource) :
    w'.Steady ∧ ∃ since, w'.lineLog k = w.lineLog k ++ since := by
  refine hrun.invariant (I := fun u ↦ u.Steady ∧ ∃ since, u.lineLog k = w.lineLog k ++ since)
    ⟨h, [], by simp⟩ ?_
  rintro u a v ⟨hu, since, hsince⟩ hstep
  obtain ⟨more, hmore, _⟩ := lineLog_step hu hstep k
  exact ⟨hu.step hstep, since ++ more, by rw [hmore, hsince, List.append_assoc]⟩

theorem Steady.line_eq (h : w.Steady) (k : Resource) : line (w.lineLog k) = w.waiting k :=
  h.sound.ordered.line k

theorem Steady.orderly (h : w.Steady) (k : Resource) : Orderly (w.lineLog k) :=
  h.sound.ordered.orderly k

/-- A waiter keeps its place until its request is dropped. -/
theorem Steady.keeps_place (h : w.Steady) (hrun : Machine.Reachable World.step w w')
    (k : Resource) :
    ∃ since, w'.lineLog k = w.lineLog k ++ since ∧
      (∀ a ∈ w.waiting k, .leave a ∉ since → a ∈ w'.waiting k ∧ .enter a ∉ since) ∧
      (∀ a b, Ahead a b (w.waiting k) → .leave a ∉ since → .leave b ∉ since →
        Ahead a b (w'.waiting k)) := by
  obtain ⟨hsteady, since, hsince⟩ := lineLog_run h hrun k
  have hline := hsteady.line_eq k
  rw [hsince] at hline
  refine ⟨since, hsince, ?_, ?_⟩
  · intro a ha hleave
    rw [← h.line_eq] at ha
    refine ⟨?_, ?_⟩
    · rw [← hline]
      exact mem_line_append ha hleave
    · intro henter
      obtain ⟨before, after, rfl⟩ := List.append_of_mem henter
      have horderly := hsteady.orderly k
      rw [hsince, ← List.append_assoc] at horderly
      refine horderly.allowed (mem_line_append ha ?_)
      exact fun hmem ↦ hleave (List.mem_append_left _ hmem)
  · intro a b hahead ha hb
    rw [← h.line_eq] at hahead
    rw [← hline]
    exact ahead_append hahead ha hb

/-- Admission to the queue and to the byte budget is strictly first come, first
served. -/
theorem admission_in_order (settings : Settings) (outside : List ℕ)
    (hfits : outside.sum ≤ settings.capacity.val) (w : World)
    (hreachable : Machine.Reachable World.step (new settings outside) w) :
    (∀ k a b before between rest after,
      w.lineLog k = before ++ .enter a :: between ++ .enter b :: rest ++ .serve b :: after →
      .leave b ∉ rest → .leave a ∈ between ++ rest) ∧
    (∀ k a before between after,
      w.lineLog k = before ++ .enter a :: between ++ .enter a :: after → .leave a ∈ between) ∧
    (∀ w', Machine.Reachable World.step w w' → ∀ k, ∃ since,
      w'.lineLog k = w.lineLog k ++ since ∧
      (∀ a ∈ w.waiting k, .leave a ∉ since → a ∈ w'.waiting k ∧ .enter a ∉ since) ∧
      (∀ a b, Ahead a b (w.waiting k) → .leave a ∉ since → .leave b ∉ since →
        Ahead a b (w'.waiting k))) ∧
    (∀ action w', w.step action = some w' → ∀ k, ∃ since,
      w'.lineLog k = w.lineLog k ++ since ∧
      ∀ token, .leave token ∈ since → w.engine.Decided k token w'.engine) ∧
    (∀ (s : Engine) input token entry bytes after, s.board.phase = .polling token →
      s.board.live[token]? = some entry → entry.await = .copy bytes after →
      s.capacity < bytes.length → entry.remaining ≠ 0 → entry.registered = false →
      ∃ s' next, s.step (.poll input) = some s' ∧ s'.board.log = s.board.log ∧
        s'.board.ready = s.board.ready ∧ s'.used = s.used ∧
        s'.board.live[token]? = some next ∧ next.registered = false ∧
        next.connection.task = entry.connection.task.onCopy input.now
          (.error (.tooLarge bytes.length s.capacity)) after) ∧
    (∀ (token : Token) entry bytes after k, w.engine.board.live[token]? = some entry →
      entry.await = .copy bytes after → w.engine.capacity < bytes.length →
      token ∉ w.waiting k) ∧
    (∀ token j k, token ∈ w.waiting j → token ∈ w.waiting k → j = k) := by
  have hsteady := steady_of_reachable hfits hreachable
  have hcoherent := hsteady.sound.coherent
  refine ⟨?_, ?_, fun w' hrun k ↦ hsteady.keeps_place hrun k,
    fun action w' hstep k ↦ lineLog_step hsteady hstep k, ?_, ?_, ?_⟩
  · intro k a b before between rest after hlog hb
    have horderly := hsteady.orderly k
    rw [hlog] at horderly
    by_cases hab : a = b
    · subst hab
      have htwice : Orderly (before ++ .enter a :: between ++ .enter a ::
          (rest ++ .serve a :: after)) := by simpa using horderly
      exact List.mem_append_left _ htwice.leaves_between
    · exact horderly.no_bypass hab hb
  · intro k a before between after hlog
    have horderly := hsteady.orderly k
    rw [hlog] at horderly
    exact horderly.leaves_between
  · intro s input token entry bytes after hphase hlive hat hlarge hremaining hregistered
    exact Engine.poll_oversize input hphase hlive hat hlarge hremaining hregistered
  · intro token entry bytes after k hlive hat hlarge hmem
    have hrequest := (hcoherent.mem_requests hlive k).mp hmem
    have hsize := (hcoherent.holds token entry hlive).fits bytes after
      (Engine.request_eq_some hrequest).1 hat
    exact absurd hlarge (Nat.not_lt.mpr hsize)
  · intro token j k hj hk
    rw [waiting, hcoherent.requests] at hj hk
    exact Option.some.inj (hj.symm.trans hk)

/-- The second caller's request stood behind the first caller's, which was
granted before the second was tried. -/
theorem admission_in_order_two_callers :
    ∃ w, Machine.run World.step (new oneSlot [])
        (Step.works 13 .quiet ++ Step.works 2 .caller ++ Step.works 36 .hangup ++ Step.taken ++
          Step.works 30 .hangup) = some w ∧
      w.waiting .queue = [3, 2] ∧
      w.lineLog .queue = [.enter 2, .serve 2, .leave 2, .enter 2, .serve 2, .enter 3, .serve 2,
        .leave 2, .enter 2, .serve 3] ∧
      Turns.Event.leave 2 ∈ [.serve 2] ++ [.serve 2, .leave 2, .enter (2 : Token)] := by
  obtain ⟨w, hw, hwaiting, hlog⟩ :=
    Machine.exists_of_run World.step (new oneSlot [])
      (Step.works 13 .quiet ++ Step.works 2 .caller ++ Step.works 36 .hangup ++ Step.taken ++
        Step.works 30 .hangup)
      (fun w ↦ w.waiting .queue = [3, 2] ∧
        w.lineLog .queue = [.enter 2, .serve 2, .leave 2, .enter 2, .serve 2, .enter 3, .serve 2,
          .leave 2, .enter 2, .serve 3]) (by decide +kernel)
  have hinorder := admission_in_order oneSlot [] (by decide) w ⟨_, hw⟩
  exact ⟨w, hw, hwaiting, hlog, hinorder.1 .queue 2 3 [.enter 2, .serve 2, .leave 2] [.serve 2]
    [.serve 2, .leave 2, .enter 2] [] hlog (by decide)⟩

end World

end Phonowire.Receiver
