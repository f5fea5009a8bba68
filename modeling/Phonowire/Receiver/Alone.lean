import Phonowire.Receiver.Moves

/-!
# A connection that runs alone

Without other connections every copy and every send is granted at once, and the
task is a function of its reads. `Connection.alone` runs it so, with the clock
stopped. A connection that shares the worker hands off, timestamps aside, a
beginning of the records it would hand off alone on the same reads.
-/

namespace Phonowire.Receiver

open AudioSocket

def epoch : Instant := ⟨0, 0⟩

/-! ## Erasing the clock -/

def Record.untimed (record : Record) : Record := { record with observedAt := epoch }

def AfterCopy.untimed : AfterCopy → AfterCopy
  | .wire start _ chunk => .wire start epoch chunk
  | .audio offset _ uuid rate input => .audio offset epoch uuid rate input
  | .peerError offset _ uuid input => .peerError offset epoch uuid input

def Await.untimed : Await → Await
  | .send record after => .send record.untimed after
  | .copy bytes after => .copy bytes after.untimed
  | .returned (some (record, failure)) => .returned (some (record.untimed, failure))
  | other => other

def Task.untimed (t : Task) : Task := { t with await := t.await.untimed }

def Event.untimed : Event → Event
  | .poll _ => .poll epoch
  | .read _ result => .read epoch result
  | .step _ => .step epoch
  | .copy _ => .copy epoch
  | .send connected => .send connected

def Connection.untimed (c : Connection) : Connection :=
  { c with task := c.task.untimed, sent := c.sent.map Record.untimed }

namespace Task

variable (t : Task) (now : Instant)

theorem untimed_endOfInput : (t.endOfInput now).untimed = t.untimed.endOfInput epoch := by
  unfold endOfInput
  cases hfinish : t.decoder.finish with
  | error e => simp [untimed, hfinish, endAt, sendAt, Await.untimed, Record.untimed, offset]
  | ok _ =>
      cases hreply : t.session.endOfInput with
      | mk session reply =>
          rcases reply with e | event
          · simp [untimed, hfinish, hreply, endAt, sendAt, Await.untimed, Record.untimed, offset]
          · cases event <;>
              simp [untimed, hfinish, hreply, endAt, sendAt, panic, Await.untimed, Record.untimed,
                offset]

theorem untimed_onRead (result : ReadResult) :
    (t.onRead now result).untimed = t.untimed.onRead epoch result := by
  match result with
  | .error e => rfl
  | .ok [] => exact untimed_endOfInput t now
  | .ok (b :: bytes) =>
      rcases hobserve : t.progress.observeRead (b :: bytes).length with ⟨progress, _ | start⟩ <;>
        simp only [onRead, untimed, hobserve, endAt, sendAt, Await.untimed, Record.untimed,
          AfterCopy.untimed, offset]

theorem untimed_onFeed (input : List UInt8) :
    (t.onFeed now input).untimed = t.untimed.onFeed epoch input := by
  unfold onFeed
  cases hfed : t.decoder.feed input with
  | none => simp [untimed, hfed, panic, Await.untimed]
  | some fed =>
      cases hconsume : t.progress.consume (input.length - fed.rest.length) with
      | none => simp [untimed, hfed, hconsume, panic, Await.untimed]
      | some result =>
          rcases result with ⟨progress, _ | offset⟩
          · simp [untimed, hfed, hconsume, endAt, sendAt, Await.untimed, Record.untimed, Task.offset]
          · rcases hresult : fed.result with e | outcome
            · simp [untimed, hfed, hconsume, hresult, endAt, sendAt, Await.untimed, Record.untimed]
            · cases outcome <;> simp [untimed, hfed, hconsume, hresult, Await.untimed]

theorem untimed_observe (offset : ℕ) (input : List UInt8) (event : IncomingEvent) :
    (t.observe offset now input event).untimed = t.untimed.observe offset epoch input event := by
  cases event with
  | ended uuid reason => cases reason <;> rfl
  | _ => rfl

theorem untimed_onTyped (raw : RawEnvelope) (offset : ℕ) (input : List UInt8) :
    (t.onTyped now raw offset input).untimed = t.untimed.onTyped epoch raw offset input := by
  unfold onTyped
  rcases raw.typed with _ | e | message
  · rfl
  · rfl
  · rcases hreply : t.session.receive message with ⟨session, e | event⟩
    · simp [untimed, hreply, endAt, sendAt, Await.untimed, Record.untimed]
    · have hobserve := untimed_observe { t with session } now offset input event
      simpa [untimed, hreply] using hobserve

theorem untimed_onCopy (result : Except BudgetError OwnedBytes) (after : AfterCopy) :
    (t.onCopy now result after).untimed = t.untimed.onCopy epoch result after.untimed := by
  cases after <;> cases result <;> rfl

theorem untimed_decodeRest (input : List UInt8) :
    (t.decodeRest input).untimed = t.untimed.decodeRest input := by
  unfold decodeRest untimed
  dsimp only
  split_ifs <;> rfl

theorem untimed_afterSent (after : AfterSend) :
    (t.afterSent after).untimed = t.untimed.afterSent after := by
  cases after with
  | read => rfl
  | decode chunk => exact untimed_decodeRest t chunk
  | stop => rfl
  | observed input =>
      by_cases hidentity : t.session.identity = none
      · simp [afterSent, untimed, hidentity, Await.untimed]
      · have hrest := untimed_decodeRest t input
        simpa [afterSent, untimed, hidentity] using hrest

theorem untimed_onSent (record : Record) (next : ℕ) (after : AfterSend) :
    (t.onSent record next after).untimed = t.untimed.onSent record.untimed next after := by
  unfold onSent
  cases haccept : t.progress.accept record.kind next with
  | none => simp [untimed, Record.untimed, haccept, panic, Await.untimed]
  | some progress =>
      have hafter := untimed_afterSent { t with progress } after
      simpa [untimed, Record.untimed, haccept] using hafter

end Task

namespace Connection

theorem untimed_send (c : Connection) (record : Record) (after : AfterSend) (connected : Bool) :
    (c.send record after connected).untimed = c.untimed.send record.untimed after connected := by
  have hcount : c.untimed.task.nextCount = c.task.nextCount := rfl
  unfold send
  rw [hcount]
  cases c.task.nextCount with
  | none => rfl
  | some next =>
      cases connected with
      | false => rfl
      | true =>
          have hsent := Task.untimed_onSent c.task record next after
          simp [untimed, hsent]

theorem untimed_await {c : Connection} {await : Await} (hat : c.task.await = await) :
    c.untimed.task.await = await.untimed :=
  congrArg Await.untimed hat

theorem step_untimed {capacity : ℕ} {c d : Connection} {e : Event}
    (h : c.step capacity e = some d) :
    c.untimed.step capacity e.untimed = some d.untimed := by
  unfold step at h
  split at h
  · next now hat =>
      cases h
      exact step_start epoch (untimed_await hat)
  · next now result hat =>
      split_ifs at h with hfinal
      cases h
      refine (step_read epoch (untimed_await hat) hfinal).trans ?_
      simp only [untimed, Task.untimed_onRead]
  · next input now hat =>
      cases h
      refine (step_feed epoch (untimed_await hat)).trans ?_
      simp only [untimed, Task.untimed_onFeed]
  · next raw offset input now hat =>
      cases h
      refine (step_typed epoch (untimed_await hat)).trans ?_
      simp only [untimed, Task.untimed_onTyped]
  · next bytes after now hat =>
      cases h
      refine (step_copy epoch (untimed_await hat)).trans ?_
      simp only [untimed, Task.untimed_onCopy]
  · next record after connected hat =>
      cases h
      rw [untimed_send]
      exact step_send connected (untimed_await hat)
  · cases h

end Connection

/-! ## Running without waiting -/

/-- The answer that an unshared worker gives to the awaited operation; a read and
a return give none. -/
def Await.answer : Await → Option Event
  | .start => some (.poll epoch)
  | .send _ _ => some (.send true)
  | .copy _ _ => some (.copy epoch)
  | .feed _ => some (.step epoch)
  | .typed _ _ _ => some (.step epoch)
  | .read => none
  | .returned _ => none
  | .panicked => none

namespace Connection

def advance (capacity : ℕ) (c : Connection) : Connection :=
  (c.task.await.answer.bind (c.step capacity)).getD c

/-- One read and all that follows from it. The turn count is an upper bound:
each byte costs at most a feed, a conversion, a copy and a send. -/
def deliver (capacity : ℕ) (c : Connection) (result : ReadResult) : Connection :=
  match c.step capacity (.read epoch result) with
  | some d => (advance capacity)^[4 * result.data.length + 2] d
  | none => c

/-- The connection after these reads, with every copy and send granted at
once. -/
def alone (capacity payloadCapacity : ℕ) (profile : IncomingProfile) (id : ConnectionId)
    (peer : SocketAddr) (reads : List ReadResult) : Connection :=
  reads.foldl (deliver capacity) ((advance capacity)^[2] (new id peer payloadCapacity profile))

end Connection

/-! ## Enough turns -/

namespace Task

/-- An upper bound of the steps up to the next read. -/
def cost (t : Task) : ℕ :=
  match t.await with
  | .start => 2
  | .read => 0
  | .feed input => 4 * input.length
  | .typed _ _ input => 4 * input.length + 3
  | .copy _ (.wire _ _ chunk) => 4 * chunk.length + 2
  | .copy _ (.audio _ _ _ _ input) => 4 * input.length + 2
  | .copy _ (.peerError _ _ _ input) => 4 * input.length + 2
  | .send _ .read => 1
  | .send _ (.decode chunk) => 4 * chunk.length + 1
  | .send _ (.observed input) => 4 * input.length + 1
  | .send _ .stop => 1
  | .returned _ => 0
  | .panicked => 0

/-- The task waits for its socket or has returned. -/
def Quiet (t : Task) : Prop := t.await = .read ∨ ∃ failure, t.await = .returned failure

variable {t u : Task} {capacity : ℕ} {effect : Effect}

theorem Placed.quiet_of_cost (ht : t.Placed) (hcost : t.cost = 0) : t.Quiet := by
  unfold cost at hcost
  split at hcost
  all_goals simp_all [Placed, Quiet]

theorem cost_decodeRest (t : Task) (input : List UInt8) :
    (t.decodeRest input).cost ≤ 4 * input.length := by
  by_cases hnil : input = [] <;> simp [decodeRest, hnil, cost]

theorem cost_afterSent (t : Task) (after : AfterSend) (record : Record) :
    (t.afterSent after).cost < { t with await := .send record after }.cost := by
  cases after with
  | read => simp [afterSent, cost]
  | decode chunk =>
      have hrest := cost_decodeRest t chunk
      simp only [afterSent, cost] at hrest ⊢
      omega
  | stop => simp [afterSent, cost]
  | observed input =>
      have hrest := cost_decodeRest t input
      unfold afterSent
      dsimp only
      split_ifs
      · simp [cost]
      · simp only [cost] at hrest ⊢
        omega

theorem cost_observe (t : Task) (offset : ℕ) (now : Instant) (input : List UInt8)
    (event : IncomingEvent) : (t.observe offset now input event).cost ≤ 4 * input.length + 2 := by
  cases event with
  | ended uuid reason => cases reason <;> simp [observe, endAt, sendAt, cost]
  | _ => simp [observe, sendAt, cost]

/-- Every move that is not a read brings the task nearer to its next read. -/
theorem Move.cost_lt (h : t.Move capacity effect u) (ht : t.Placed)
    (heffect : effect.reads = []) : u.cost < t.cost := by
  cases h with
  | begin now hat => simp [cost, hat, Task.begin, sendAt]
  | readStop now hat hfinal hreason => simp [Effect.reads] at heffect
  | readChunk now hat hne hlength hfits => simp [Effect.reads] at heffect
  | readOverflow now hat hne hlength hover => simp [Effect.reads] at heffect
  | feedNeed hat hopen hneed hcap hnext =>
      simp only [Placed, hat] at ht
      have hpos := List.length_pos_of_ne_nil ht.2.1
      simp [cost, hat, hpos]
  | feedOversize now next hat hopen hoversize hcap hconsumed hrest =>
      simp only [Placed, hat] at ht
      have hpos := List.length_pos_of_ne_nil ht.2.1
      simp only [cost, hat, endAt, sendAt]
      omega
  | feedFrame hat hopen hframe hcap hnext hconsumed hrest =>
      have hless := nextFrame_need_length hopen.1.need hframe
      simp only [cost, hat]
      omega
  | invalid now hat htyped => simp [cost, hat, endAt, sendAt]
  | rejected now hat htyped hreceive => simp [cost, hat, endAt, sendAt]
  | @observed now raw offset input message session event hat htyped hreceive =>
      have hcost := cost_observe { t with session } offset now input event
      simp only [cost, hat] at hcost ⊢
      omega
  | @copied now bytes after hat hfits =>
      cases after <;> simp [cost, hat, onCopy, endAt, sendAt]
  | @refused now bytes after hat hover =>
      cases after <;> simp [cost, hat, onCopy, endAt, sendAt]
  | @exhausted record after hat hover =>
      cases after <;> simp [cost, hat, countExhausted, sendFailed]
  | @disconnected record after hat hfits => cases after <;> simp [cost, hat, sendFailed]
  | @accepted record after hat hfits =>
      have hcost := cost_afterSent { t with
        progress := { t.progress with
          pendingRecord := false
          terminalQueued := t.progress.terminalQueued || record.kind.isEnded
          wireQueued := t.progress.wireQueued + record.kind.wireLength
          recordsQueued := t.progress.recordsQueued + 1 } } after record
      refine hcost.trans_le ?_
      simp [cost, hat]

end Task

namespace Connection

variable {capacity payloadCapacity : ℕ} {id : ConnectionId} {peer : SocketAddr}
  {profile : IncomingProfile} {c d : Connection}

theorem answer_of_quiet (h : c.task.Quiet) : c.task.await.answer = none := by
  rcases h with hat | ⟨failure, hat⟩ <;> simp [hat, Await.answer]

theorem advance_of_quiet (h : c.task.Quiet) : c.advance capacity = c := by
  simp [advance, answer_of_quiet h]

theorem iterate_of_quiet (h : c.task.Quiet) (n : ℕ) : (advance capacity)^[n] c = c :=
  Function.iterate_fixed (advance_of_quiet h) n

/-- An operation that answers can always answer without waiting. -/
theorem advance_eq (capacity : ℕ) {e : Event} (h : c.task.await.answer = some e) :
    c.step capacity e = some (c.advance capacity) := by
  have hsome : ∃ d, c.step capacity e = some d := by
    cases hat : c.task.await with
    | start =>
        obtain rfl : Event.poll epoch = e := by simpa [hat, Await.answer] using h
        exact ⟨_, step_start epoch hat⟩
    | send record after =>
        obtain rfl : Event.send true = e := by simpa [hat, Await.answer] using h
        exact ⟨_, step_send true hat⟩
    | copy bytes after =>
        obtain rfl : Event.copy epoch = e := by simpa [hat, Await.answer] using h
        exact ⟨_, step_copy epoch hat⟩
    | feed input =>
        obtain rfl : Event.step epoch = e := by simpa [hat, Await.answer] using h
        exact ⟨_, step_feed epoch hat⟩
    | typed raw offset input =>
        obtain rfl : Event.step epoch = e := by simpa [hat, Await.answer] using h
        exact ⟨_, step_typed epoch hat⟩
    | read => simp [hat, Await.answer] at h
    | returned failure => simp [hat, Await.answer] at h
    | panicked => simp [hat, Await.answer] at h
  obtain ⟨d, hd⟩ := hsome
  rw [hd, advance, h, Option.bind_some, hd, Option.getD_some]

theorem answer_isSome (hplaced : c.task.Placed) (hquiet : ¬ c.task.Quiet) :
    ∃ e, c.task.await.answer = some e ∧ ∀ now result, e ≠ .read now result := by
  cases hat : c.task.await with
  | read => exact absurd (Or.inl hat) hquiet
  | returned failure => exact absurd (Or.inr ⟨failure, hat⟩) hquiet
  | panicked => simp [Task.Placed, hat] at hplaced
  | _ =>
      refine ⟨_, rfl, ?_⟩
      intro now result hread
      cases hread

end Connection

/-! ## The shared run is a beginning of the unshared one -/

namespace Connection

variable {capacity payloadCapacity : ℕ} {id : ConnectionId} {peer : SocketAddr}
  {profile : IncomingProfile} {c d : Connection} {e : Event}

theorem send_reads (c : Connection) (record : Record) (after : AfterSend) (connected : Bool) :
    (c.send record after connected).reads = c.reads := by
  unfold send
  cases c.task.nextCount with
  | none => rfl
  | some next => cases connected <;> rfl

theorem step_reads (h : c.step capacity e = some d) (he : ∀ now result, e ≠ .read now result) :
    d.reads = c.reads := by
  unfold step at h
  split at h
  · cases h
    rfl
  · exact absurd rfl (he _ _)
  · cases h
    rfl
  · cases h
    rfl
  · cases h
    rfl
  · cases h
    exact send_reads _ _ _ _
  · cases h

theorem advance_move (capacity : ℕ) (hplaced : c.task.Placed) (hquiet : ¬ c.task.Quiet) :
    (c.advance capacity).task.Placed ∧ (c.advance capacity).task.cost < c.task.cost ∧
      (c.advance capacity).reads = c.reads ∧ c.sent <+: (c.advance capacity).sent := by
  obtain ⟨e, hanswer, hread⟩ := answer_isSome hplaced hquiet
  have hstep := advance_eq capacity hanswer
  obtain ⟨effect, hmove, hreads, hsent⟩ := move_of_step hplaced hstep
  have hsame := step_reads hstep hread
  have heffect : effect.reads = [] := by simpa [hsame] using hreads.symm
  exact ⟨hmove.placed hplaced, hmove.cost_lt hplaced heffect, hsame, ⟨_, hsent.symm⟩⟩

/-- Turns without a read keep the reads, only add records and, when there are
enough of them, lead to a quiet task. -/
theorem iterate_advance (capacity n : ℕ) (hplaced : c.task.Placed) :
    ((advance capacity)^[n] c).task.Placed ∧ ((advance capacity)^[n] c).reads = c.reads ∧
      c.sent <+: ((advance capacity)^[n] c).sent ∧
      (c.task.cost ≤ n → ((advance capacity)^[n] c).task.Quiet) := by
  induction n generalizing c with
  | zero =>
      refine ⟨hplaced, rfl, List.prefix_rfl, fun hcost ↦ ?_⟩
      exact hplaced.quiet_of_cost (Nat.le_zero.mp hcost)
  | succ n ih =>
      by_cases hquiet : c.task.Quiet
      · rw [iterate_of_quiet hquiet]
        exact ⟨hplaced, rfl, List.prefix_rfl, fun _ ↦ hquiet⟩
      · obtain ⟨hnext, hcost, hreads, hsent⟩ := advance_move capacity hplaced hquiet
        obtain ⟨hplaced', hreads', hsent', hquiet'⟩ := ih hnext
        rw [Function.iterate_succ_apply]
        exact ⟨hplaced', hreads'.trans hreads, hsent.trans hsent', fun h ↦ hquiet' (by omega)⟩

theorem deliver_spec (capacity : ℕ) (result : ReadResult) (hplaced : c.task.Placed)
    (hquiet : c.task.Quiet) :
    (c.deliver capacity result).task.Placed ∧ (c.deliver capacity result).task.Quiet ∧
      c.sent <+: (c.deliver capacity result).sent := by
  unfold deliver
  cases hstep : c.step capacity (.read epoch result) with
  | none => exact ⟨hplaced, hquiet, List.prefix_rfl⟩
  | some d =>
      obtain ⟨effect, hmove, hreads, hsent⟩ := move_of_step hplaced hstep
      obtain ⟨hat, hfinal⟩ : c.task.await = .read ∧ result.Final := by
        unfold step at hstep
        split at hstep
        all_goals simp_all
      rw [step_read epoch hat hfinal, Option.some.injEq] at hstep
      have hcost : d.task.cost ≤ 4 * result.data.length + 2 := by
        have hread : c.task.Move capacity _ (c.task.onRead epoch result) :=
          Task.move_onRead hplaced hat hfinal
        rw [← hstep]
        dsimp only
        generalize c.task.onRead epoch result = u at hread
        cases hread with
        | readStop now hat hfinal hreason => simp [Task.cost, Task.endAt, Task.sendAt]
        | readChunk now hat hne hlength hfits => simp [Task.cost, ReadResult.data]
        | readOverflow now hat hne hlength hover => simp [Task.cost, Task.endAt, Task.sendAt]
      obtain ⟨hplaced', _, hsent', hquiet'⟩ := iterate_advance capacity
        (4 * result.data.length + 2) (hmove.placed hplaced)
      exact ⟨hplaced', hquiet' hcost, (hsent ▸ List.prefix_append _ _ : c.sent <+: d.sent).trans
        hsent'⟩

theorem alone_append (reads more : List ReadResult) :
    alone capacity payloadCapacity profile id peer (reads ++ more) =
      more.foldl (deliver capacity) (alone capacity payloadCapacity profile id peer reads) :=
  List.foldl_append

theorem alone_placed (capacity payloadCapacity : ℕ) (profile : IncomingProfile)
    (id : ConnectionId) (peer : SocketAddr) (reads : List ReadResult) :
    (alone capacity payloadCapacity profile id peer reads).task.Placed ∧
      (alone capacity payloadCapacity profile id peer reads).task.Quiet := by
  induction reads using List.reverseRecOn with
  | nil =>
      obtain ⟨hplaced, _, _, hquiet⟩ := iterate_advance (c := new id peer payloadCapacity profile)
        capacity 2 (Task.placed_new id peer payloadCapacity profile)
      exact ⟨hplaced, hquiet le_rfl⟩
  | append_singleton reads result ih =>
      rw [alone_append]
      obtain ⟨hplaced, hquiet, _⟩ := deliver_spec capacity result ih.1 ih.2
      exact ⟨hplaced, hquiet⟩

/-- More reads only add records. -/
theorem alone_prefix {reads later : List ReadResult} (h : reads <+: later) :
    (alone capacity payloadCapacity profile id peer reads).sent <+:
      (alone capacity payloadCapacity profile id peer later).sent := by
  obtain ⟨more, rfl⟩ := h
  induction more using List.reverseRecOn with
  | nil => simp
  | append_singleton more result ih =>
      rw [← List.append_assoc, alone_append]
      obtain ⟨hplaced, hquiet⟩ := alone_placed capacity payloadCapacity profile id peer (reads ++ more)
      exact ih.trans (deliver_spec capacity result hplaced hquiet).2.2

/-- A step is a read, a failed send, or the turn that the unshared task takes. -/
theorem step_kinds (h : c.step capacity e = some d) :
    (∃ now result, e = .read now result) ∨
      (d.sent = c.sent ∧ d.reads = c.reads ∧
        ∃ record, d.task.await = .returned (some (record, .disconnected))) ∨
      (d.reads = c.reads ∧ ¬ c.untimed.task.Quiet ∧
        c.untimed.advance capacity = d.untimed) := by
  have hanswered : ∀ e', c.step capacity e' = some d →
      c.untimed.task.await.answer = some e'.untimed → (∀ now result, e' ≠ .read now result) →
      d.reads = c.reads ∧ ¬ c.untimed.task.Quiet ∧ c.untimed.advance capacity = d.untimed := by
    intro e' hstep hanswer hread
    refine ⟨step_reads hstep hread, fun hquiet ↦ ?_, ?_⟩
    · simp [answer_of_quiet hquiet] at hanswer
    · have hadvance := advance_eq capacity hanswer
      rw [step_untimed hstep, Option.some.injEq] at hadvance
      exact hadvance.symm
  have hcopy := h
  unfold step at h
  split at h
  · next now hat => exact Or.inr (Or.inr (hanswered _ hcopy (by rw [untimed_await hat]; rfl) nofun))
  · next now result hat => exact Or.inl ⟨now, result, rfl⟩
  · next input now hat =>
      exact Or.inr (Or.inr (hanswered _ hcopy (by rw [untimed_await hat]; rfl) nofun))
  · next raw offset input now hat =>
      exact Or.inr (Or.inr (hanswered _ hcopy (by rw [untimed_await hat]; rfl) nofun))
  · next bytes after now hat =>
      exact Or.inr (Or.inr (hanswered _ hcopy (by rw [untimed_await hat]; rfl) nofun))
  · next record after connected hat =>
      have htrue : c.step capacity (.send true) = _ := step_send true hat
      cases connected with
      | true => exact Or.inr (Or.inr (hanswered _ hcopy (by rw [untimed_await hat]; rfl) nofun))
      | false =>
          cases h
          cases hcount : c.task.nextCount with
          | none =>
              have hsame : c.send record after true = c.send record after false := by
                simp [send, hcount]
              rw [hsame] at htrue
              exact Or.inr (Or.inr (hanswered _ htrue (by rw [untimed_await hat]; rfl) nofun))
          | some next =>
              refine Or.inr (Or.inl ?_)
              simp [send, hcount, Task.sendFailed]
  · cases h

/-- The records so far are a beginning of the unshared ones; unless the consumer
disappeared, the unshared task gets from here to its next read by itself. -/
structure Shares (capacity payloadCapacity : ℕ) (profile : IncomingProfile) (id : ConnectionId)
    (peer : SocketAddr) (c : Connection) : Prop where
  records : c.sent.map Record.untimed <+:
    (alone capacity payloadCapacity profile id peer c.reads).sent
  ahead : (∀ record, c.task.await ≠ .returned (some (record, .disconnected))) →
    ∃ n, (advance capacity)^[n] c.untimed =
      alone capacity payloadCapacity profile id peer c.reads

theorem quiet_untimed : c.untimed.task.Quiet ↔ c.task.Quiet := by
  unfold Task.Quiet
  cases hat : c.task.await with
  | returned failure =>
      rw [untimed_await hat]
      rcases failure with _ | ⟨record, failure⟩ <;> simp [Await.untimed]
  | _ =>
      rw [untimed_await hat]
      simp [Await.untimed]

theorem placed_untimed {t : Task} (ht : t.Placed) : t.untimed.Placed := by
  unfold Task.Placed at ht ⊢
  cases hat : t.await with
  | send record after =>
      rw [hat] at ht
      simp only [Task.untimed, hat, Await.untimed]
      cases after <;> exact ht
  | copy bytes after =>
      rw [hat] at ht
      simp only [Task.untimed, hat, Await.untimed]
      cases after <;> exact ht
  | returned failure =>
      rw [hat] at ht
      rcases failure with _ | ⟨record, failure⟩ <;> simpa [Task.untimed, hat, Await.untimed] using ht
  | _ =>
      rw [hat] at ht
      simp only [Task.untimed, hat, Await.untimed]
      exact ht

theorem Shares.of_ahead (hplaced : c.task.Placed) (n : ℕ)
    (h : (advance capacity)^[n] c.untimed =
      alone capacity payloadCapacity profile id peer c.reads) :
    c.Shares capacity payloadCapacity profile id peer := by
  refine ⟨?_, fun _ ↦ ⟨n, h⟩⟩
  rw [← h]
  exact (iterate_advance capacity n (c := c.untimed) (placed_untimed hplaced)).2.2.1

theorem Shares.step (hplaced : c.task.Placed)
    (hc : c.Shares capacity payloadCapacity profile id peer) (h : c.step capacity e = some d) :
    d.Shares capacity payloadCapacity profile id peer := by
  obtain ⟨effect, hmove, _, _⟩ := move_of_step hplaced h
  have hplaced' := hmove.placed hplaced
  obtain ⟨n, hn⟩ := hc.ahead fun record ↦ hmove.await_ne_returned_before _
  rcases step_kinds h with ⟨now, result, rfl⟩ | ⟨hsent, hreads, record, hat⟩ |
    ⟨hreads, hquiet, hadvance⟩
  · obtain ⟨hat, hfinal⟩ : c.task.await = .read ∧ result.Final := by
      unfold Connection.step at h
      split at h
      all_goals simp_all
    have hquiet : c.untimed.task.Quiet := quiet_untimed.mpr (Or.inl hat)
    rw [iterate_of_quiet hquiet] at hn
    have huntimed : c.untimed.step capacity (.read epoch result) = some d.untimed := step_untimed h
    rw [step_read now hat hfinal, Option.some.injEq] at h
    refine Shares.of_ahead hplaced' (4 * result.data.length + 2) ?_
    have hreads : d.reads = c.reads ++ [result] := by rw [← h]
    rw [hreads, alone_append, ← hn, List.foldl_cons, List.foldl_nil, deliver, huntimed]
  · refine ⟨?_, fun hconnected ↦ absurd hat (hconnected record)⟩
    rw [hsent, hreads]
    exact hc.records
  · rcases n with _ | n
    · rw [Function.iterate_zero, id_eq] at hn
      rw [hn] at hquiet
      exact absurd (alone_placed capacity payloadCapacity profile id peer c.reads).2 hquiet
    · rw [Function.iterate_succ_apply, hadvance] at hn
      exact Shares.of_ahead hplaced' n (hreads ▸ hn)

theorem shares_new (capacity payloadCapacity : ℕ) (profile : IncomingProfile)
    (id : ConnectionId) (peer : SocketAddr) :
    (new id peer payloadCapacity profile).Shares capacity payloadCapacity profile id peer :=
  Shares.of_ahead (Task.placed_new id peer payloadCapacity profile) 2 rfl

theorem shares_of_reachable
    (h : Machine.Reachable (step capacity) (new id peer payloadCapacity profile) c) :
    c.task.Placed ∧ c.Shares capacity payloadCapacity profile id peer := by
  refine h.invariant (I := fun c ↦ c.task.Placed ∧
    c.Shares capacity payloadCapacity profile id peer)
    ⟨Task.placed_new id peer payloadCapacity profile, shares_new _ _ _ _ _⟩ ?_
  rintro c e d ⟨hplaced, hc⟩ hstep
  obtain ⟨effect, hmove, _, _⟩ := move_of_step hplaced hstep
  exact ⟨hmove.placed hplaced, hc.step hplaced hstep⟩

/-- A task that returned without losing its consumer has handed off the whole
unshared transcript. -/
theorem Shares.whole (hc : c.Shares capacity payloadCapacity profile id peer)
    (hquiet : c.task.Quiet)
    (hconnected : ∀ record, c.task.await ≠ .returned (some (record, .disconnected))) :
    c.sent.map Record.untimed = (alone capacity payloadCapacity profile id peer c.reads).sent := by
  obtain ⟨n, hn⟩ := hc.ahead hconnected
  rw [iterate_of_quiet (quiet_untimed.mpr hquiet)] at hn
  rw [← hn]
  rfl

end Connection

end Phonowire.Receiver
