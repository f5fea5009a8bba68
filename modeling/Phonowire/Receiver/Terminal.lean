import Phonowire.Receiver.Moves

/-!
# The history of a connection

The progress counters of a task account for its reads and for the records that
the channel accepted. The terminal record is the last one, provided that every
audio payload that reaches the byte budget fits it: `observe` reports the
terminal record of a refused audio copy like an ordinary record, and the session
is still active then.
-/

namespace Phonowire.Receiver

open AudioSocket

/-- The task owns a record that the channel has not accepted, or stopped on
one. -/
def Await.holding : Await → Bool
  | .send _ _ => true
  | .returned (some _) => true
  | _ => false

namespace Connection

variable {capacity payloadCapacity : ℕ} {id : ConnectionId} {peer : SocketAddr}
  {profile : IncomingProfile} {c d : Connection}

/-- The counters agree with the history. -/
structure Accounted (c : Connection) : Prop where
  wire : c.task.progress.wireQueued = (c.sent.map (·.kind.wireLength)).sum
  records : c.task.progress.recordsQueued = c.sent.length
  terminal : c.task.progress.terminalQueued = c.sent.any (·.kind.isEnded)
  pending : c.task.progress.pendingRecord = c.task.await.holding
  read : c.task.progress.counterOverflow = false →
    c.task.progress.read = (c.reads.map (·.data.length)).sum

theorem accounted_new (id : ConnectionId) (peer : SocketAddr) (payloadCapacity : ℕ)
    (profile : IncomingProfile) : (new id peer payloadCapacity profile).Accounted :=
  ⟨rfl, rfl, rfl, rfl, fun _ ↦ rfl⟩

end Connection

/-! ## What moves do to the counters -/

namespace Task

variable {t u : Task} {capacity : ℕ} {effect : Effect}

/-- One move adds its effect to the counters. -/
structure Counts (t : Task) (effect : Effect) (u : Task) : Prop where
  wire : u.progress.wireQueued =
    t.progress.wireQueued + (effect.records.map (·.kind.wireLength)).sum
  records : u.progress.recordsQueued = t.progress.recordsQueued + effect.records.length
  terminal : u.progress.terminalQueued =
    (t.progress.terminalQueued || effect.records.any (·.kind.isEnded))
  pending : t.progress.pendingRecord = t.await.holding →
    u.progress.pendingRecord = u.await.holding
  read : u.progress.counterOverflow = false → t.progress.counterOverflow = false ∧
    u.progress.read = t.progress.read + (effect.reads.map (·.data.length)).sum

theorem Counts.of_sendAt {s : Task} {offset : ℕ} {now : Instant} {kind : RecordKind}
    {after : AfterSend} (h : t.Counts effect s) :
    t.Counts effect (s.sendAt offset now kind after) :=
  ⟨h.wire, h.records, h.terminal, fun _ ↦ rfl, h.read⟩

theorem Counts.of_silent {s : Task} (hprogress : s.progress = t.progress)
    (hhold : s.await.holding = t.await.holding) : t.Counts .silent s where
  wire := by simp [hprogress, Effect.records]
  records := by simp [hprogress, Effect.records]
  terminal := by simp [hprogress, Effect.records]
  pending h := by rw [hprogress, h, hhold]
  read h := by simpa [hprogress, Effect.reads] using h

theorem counts_observe {s : Task} {offset : ℕ} {now : Instant} {input : List UInt8}
    (event : IncomingEvent) (hprogress : s.progress = t.progress)
    (hs : s.await.holding = t.await.holding) (hhold : t.await.holding = false) :
    t.Counts .silent (s.observe offset now input event) := by
  have hself := Counts.of_silent hprogress hs
  cases event with
  | started uuid => exact hself.of_sendAt
  | dtmf uuid digit => exact hself.of_sendAt
  | audio uuid rate payload => exact Counts.of_silent hprogress hhold.symm
  | ended uuid reason =>
      cases reason with
      | terminate => exact hself.of_sendAt
      | peerError payload => exact Counts.of_silent hprogress hhold.symm
      | endOfInput => exact hself.of_sendAt

theorem counts_onCopy (now : Instant) (result : Except BudgetError OwnedBytes)
    (after : AfterCopy) : t.Counts .silent (t.onCopy now result after) := by
  have hself : t.Counts .silent t := Counts.of_silent rfl rfl
  cases after <;> cases result <;> exact hself.of_sendAt

theorem holding_decodeRest (t : Task) (input : List UInt8) :
    (t.decodeRest input).await.holding = false := by
  unfold decodeRest
  dsimp only
  split_ifs <;> rfl

theorem holding_afterSent (t : Task) (after : AfterSend) :
    (t.afterSent after).await.holding = false := by
  cases after with
  | read => rfl
  | decode chunk => exact holding_decodeRest t chunk
  | stop => rfl
  | observed input =>
      unfold afterSent
      dsimp only
      split_ifs
      · rfl
      · exact holding_decodeRest t input

theorem progress_afterSent (t : Task) (after : AfterSend) :
    (t.afterSent after).progress = t.progress := by
  cases after with
  | observed input =>
      unfold afterSent
      split_ifs <;> rfl
  | _ => rfl

theorem Move.counts (h : t.Move capacity effect u) : t.Counts effect u := by
  have hself : t.Counts .silent t := Counts.of_silent rfl rfl
  cases h with
  | begin now hat => exact hself.of_sendAt
  | readStop now hat hfinal hreason =>
      refine Counts.of_sendAt ⟨rfl, rfl, by simp [Effect.records], fun h ↦ h, fun h ↦ ⟨h, ?_⟩⟩
      unfold stopReason at hreason
      split at hreason <;> simp_all [Effect.reads, ReadResult.data]
  | readChunk now hat hne hlength hfits =>
      refine ⟨rfl, rfl, by simp [Effect.records], ?_, fun h ↦ ⟨h, by simp [Effect.reads,
        ReadResult.data]⟩⟩
      simp [hat, Await.holding]
  | readOverflow now hat hne hlength hover =>
      exact Counts.of_sendAt ⟨rfl, rfl, by simp [Effect.records], fun h ↦ h, (by rintro ⟨⟩)⟩
  | feedNeed hat hopen hneed hcap hnext =>
      refine ⟨rfl, rfl, by simp [Effect.records], ?_, fun h ↦ ⟨h, rfl⟩⟩
      simp [hat, Await.holding]
  | feedOversize now next hat hopen hoversize hcap hconsumed hrest =>
      exact Counts.of_sendAt ⟨rfl, rfl, by simp [Effect.records], fun h ↦ h, fun h ↦ ⟨h, rfl⟩⟩
  | feedFrame hat hopen hframe hcap hnext hconsumed hrest =>
      refine ⟨rfl, rfl, by simp [Effect.records], ?_, fun h ↦ ⟨h, rfl⟩⟩
      simp [hat, Await.holding]
  | invalid now hat htyped => exact hself.of_sendAt
  | rejected now hat htyped hreceive =>
      exact Counts.of_sendAt (s := { t with session := _ }) (Counts.of_silent rfl rfl)
  | observed now hat htyped hreceive =>
      exact counts_observe _ rfl rfl (by simp [hat, Await.holding])
  | copied now hat hfits => exact counts_onCopy _ _ _
  | refused now hat hover => exact counts_onCopy _ _ _
  | exhausted hat hover =>
      refine ⟨rfl, rfl, by simp [Effect.records, countExhausted, sendFailed], ?_, (by rintro ⟨⟩)⟩
      simp [hat, Await.holding, countExhausted, sendFailed]
  | disconnected hat hfits =>
      refine ⟨rfl, rfl, by simp [Effect.records, sendFailed], ?_, fun h ↦ ⟨h, rfl⟩⟩
      simp [hat, Await.holding, sendFailed]
  | accepted hat hfits =>
      refine ⟨?_, ?_, ?_, ?_, ?_⟩
      · simp [progress_afterSent, Effect.records]
      · simp [progress_afterSent, Effect.records]
      · simp [progress_afterSent, Effect.records]
      · simp [progress_afterSent, holding_afterSent]
      · simp [progress_afterSent, Effect.reads]

end Task

namespace Connection

variable {capacity payloadCapacity : ℕ} {id : ConnectionId} {peer : SocketAddr}
  {profile : IncomingProfile} {c d : Connection}

theorem Accounted.move {effect : Effect} (hc : c.Accounted)
    (hcounts : c.task.Counts effect d.task) (hreads : d.reads = c.reads ++ effect.reads)
    (hsent : d.sent = c.sent ++ effect.records) : d.Accounted where
  wire := by rw [hcounts.wire, hc.wire, hsent, List.map_append, List.sum_append]
  records := by rw [hcounts.records, hc.records, hsent, List.length_append]
  terminal := by rw [hcounts.terminal, hc.terminal, hsent, List.any_append]
  pending := hcounts.pending hc.pending
  read h := by
    obtain ⟨hbefore, hread⟩ := hcounts.read h
    rw [hread, hc.read hbefore, hreads, List.map_append, List.sum_append]

theorem accounted_of_reachable
    (h : Machine.Reachable (step capacity) (new id peer payloadCapacity profile) c) :
    c.task.Placed ∧ c.Accounted :=
  reachable_induction h (accounted_new id peer payloadCapacity profile)
    fun _ _ _ _ hc hmove hreads hsent ↦ hc.move hmove.counts hreads hsent

end Connection

/-! ## The terminal record -/

namespace Task

/-- An audio payload that waits for the budget is no larger than the whole
budget. -/
def AudioFits (capacity : ℕ) (t : Task) : Prop :=
  match t.await with
  | .copy bytes (.audio _ _ _ _ _) => bytes.length ≤ capacity
  | _ => True

instance (capacity : ℕ) : DecidablePred (AudioFits capacity) := fun t ↦ by
  unfold AudioFits
  split <;> infer_instance

/-- A terminal record in front of the identity check of `decode_chunk` belongs
to a session that has ended. -/
def Concludes (t : Task) : Prop :=
  ∀ record input, t.await = .send record (.observed input) → record.kind.isEnded = true →
    t.session.state = .ended

variable {t u : Task} {capacity : ℕ} {effect : Effect}

theorem concludes_of_stop {offset : ℕ} {now : Instant} {kind : RecordKind} :
    (t.sendAt offset now kind .stop).Concludes := by
  intro record input hat
  simp [sendAt] at hat

theorem concludes_of_kind {offset : ℕ} {now : Instant} {kind : RecordKind} {after : AfterSend}
    (hkind : kind.isEnded = false) : (t.sendAt offset now kind after).Concludes := by
  intro record input hat hended
  simp only [sendAt, Await.send.injEq] at hat
  rw [← hat.1] at hended
  exact absurd hended (by simp [hkind])

theorem concludes_of_state {offset : ℕ} {now : Instant} {kind : RecordKind} {after : AfterSend}
    (hstate : t.session.state = .ended) : (t.sendAt offset now kind after).Concludes :=
  fun _ _ _ _ ↦ hstate

theorem concludes_of_await (hat : ∀ record after, t.await ≠ .send record after) :
    t.Concludes :=
  fun record input h ↦ absurd h (hat record (.observed input))

theorem afterSent_ne_send (t : Task) (after : AfterSend) (record : Record)
    (later : AfterSend) : (t.afterSent after).await ≠ .send record later := by
  intro hat
  have hhold := holding_afterSent t after
  simp [hat, Await.holding] at hhold

theorem Move.concludes (h : t.Move capacity effect u) (ht : t.Placed)
    (hfits : t.AudioFits capacity) : u.Concludes := by
  cases h with
  | begin now hat => exact concludes_of_kind rfl
  | readStop now hat hfinal hreason => exact concludes_of_stop
  | readChunk now hat hne hlength hfits => exact concludes_of_await (by simp)
  | readOverflow now hat hne hlength hover => exact concludes_of_stop
  | feedNeed hat hopen hneed hcap hnext => exact concludes_of_await (by simp)
  | feedOversize now next hat hopen hoversize hcap hconsumed hrest => exact concludes_of_stop
  | feedFrame hat hopen hframe hcap hnext hconsumed hrest => exact concludes_of_await (by simp)
  | invalid now hat htyped => exact concludes_of_stop
  | rejected now hat htyped hreceive => exact concludes_of_stop
  | @observed _ _ _ _ message session event hat htyped hreceive =>
      have hreceived := t.session.receive_received message
      rw [hreceive] at hreceived
      cases hreceived with
      | started hmessage hstate => exact concludes_of_kind rfl
      | dtmf hmessage hstate hdigit => exact concludes_of_kind rfl
      | audio hmessage hstate hrate => exact concludes_of_await (by simp [observe])
      | terminated hmessage => exact concludes_of_state rfl
      | peerError hmessage => exact concludes_of_await (by simp [observe])
  | @copied _ bytes after hat hcopied =>
      simp only [Placed, hat] at ht
      cases after with
      | wire start observedAt chunk => exact concludes_of_kind rfl
      | audio offset observedAt uuid rate input => exact concludes_of_kind rfl
      | peerError offset observedAt uuid input => exact concludes_of_state ht.2.2.2.2.2
  | @refused _ bytes after hat hover =>
      simp only [Placed, hat] at ht
      cases after with
      | wire start observedAt chunk => exact concludes_of_stop
      | audio offset observedAt uuid rate input =>
          simp only [AudioFits, hat] at hfits
          omega
      | peerError offset observedAt uuid input => exact concludes_of_state ht.2.2.2.2.2
  | exhausted hat hover => exact concludes_of_await (by simp [countExhausted, sendFailed])
  | disconnected hat hfits => exact concludes_of_await (by simp [sendFailed])
  | accepted hat hfits => exact concludes_of_await (afterSent_ne_send _ _)

theorem sendAt_ne_returned {offset : ℕ} {now : Instant} {kind : RecordKind} {after : AfterSend} :
    (t.sendAt offset now kind after).await ≠ .returned none :=
  nofun

/-- Only an accepted record can end a task without a failure. -/
theorem Move.await_ne_returned (h : t.Move capacity effect u) (heffect : effect.records = []) :
    u.await ≠ .returned none := by
  cases h with
  | begin now hat => exact sendAt_ne_returned
  | readStop now hat hfinal hreason => exact sendAt_ne_returned
  | readChunk now hat hne hlength hfits => exact nofun
  | readOverflow now hat hne hlength hover => exact sendAt_ne_returned
  | feedNeed hat hopen hneed hcap hnext => exact nofun
  | feedOversize now next hat hopen hoversize hcap hconsumed hrest => exact sendAt_ne_returned
  | feedFrame hat hopen hframe hcap hnext hconsumed hrest => exact nofun
  | invalid now hat htyped => exact sendAt_ne_returned
  | rejected now hat htyped hreceive => exact sendAt_ne_returned
  | @observed _ _ _ _ message session event hat htyped hreceive =>
      cases event with
      | audio uuid rate payload => exact nofun
      | ended uuid reason =>
          cases reason with
          | peerError payload => exact nofun
          | _ => exact sendAt_ne_returned
      | _ => exact sendAt_ne_returned
  | @copied _ bytes after hat hcopied => cases after <;> exact sendAt_ne_returned
  | @refused _ bytes after hat hover => cases after <;> exact sendAt_ne_returned
  | exhausted hat hover => exact nofun
  | disconnected hat hfits => exact nofun
  | accepted hat hfits => exact absurd heffect (by simp [Effect.records])

theorem decodeRest_ne_returned (t : Task) (input : List UInt8) :
    (t.decodeRest input).await ≠ .returned none := by
  unfold decodeRest
  dsimp only
  split_ifs <;> exact nofun

/-- The task returns after an accepted record exactly when the record is
terminal. -/
theorem Placed.afterSent_returned {record : Record} {after : AfterSend} {p : Progress}
    (ht : t.Placed) (hconcludes : t.Concludes) (hat : t.await = .send record after) :
    ({ t with progress := p }.afterSent after).await = .returned none ↔
      record.kind.isEnded = true := by
  have hended := hconcludes record
  simp only [Placed, hat] at ht
  obtain ⟨_, _, _, hsending⟩ := ht
  cases after with
  | read =>
      obtain ⟨hkind, _⟩ := hsending
      simp [Task.afterSent, hkind, RecordKind.isEnded]
  | decode chunk =>
      obtain ⟨hkind, _⟩ := hsending
      simp [Task.afterSent, decodeRest_ne_returned, hkind, RecordKind.isEnded]
  | stop =>
      obtain ⟨_, hkind, _⟩ := hsending
      simp [Task.afterSent, hkind]
  | observed input =>
      obtain ⟨_, _, _, hgoes⟩ := hsending
      unfold Task.afterSent
      dsimp only
      split_ifs with hidentity
      · refine iff_of_true rfl (hgoes.resolve_right ?_)
        rintro ⟨uuid, hstate⟩
        simp [IncomingSession.identity_of_active hstate] at hidentity
      · refine iff_of_false (decodeRest_ne_returned _ _) fun hkind ↦ hidentity ?_
        exact IncomingSession.identity_of_ended (hended input hat hkind)

end Task

namespace Connection

variable {capacity payloadCapacity : ℕ} {id : ConnectionId} {peer : SocketAddr}
  {profile : IncomingProfile} {c d : Connection}

/-- Every terminal record that the channel accepted is the last accepted record,
and the task has returned. -/
def EndsOnce (c : Connection) : Prop :=
  ∀ before record after, c.sent = before ++ record :: after → record.kind.isEnded = true →
    after = [] ∧ c.task.await = .returned none

/-- The task has returned without a failure exactly when its last accepted
record is terminal; no record before that is. -/
structure Concluded (c : Connection) : Prop where
  concludes : c.task.Concludes
  quiet : c.task.await ≠ .returned none → ∀ record ∈ c.sent, record.kind.isEnded = false
  last : c.task.await = .returned none → ∃ before record,
    c.sent = before ++ [record] ∧ record.kind.isEnded = true ∧
      ∀ earlier ∈ before, earlier.kind.isEnded = false

theorem concluded_new (id : ConnectionId) (peer : SocketAddr) (payloadCapacity : ℕ)
    (profile : IncomingProfile) : (new id peer payloadCapacity profile).Concluded :=
  ⟨Task.concludes_of_await (by simp [new, Task.new]), fun _ ↦ nofun, nofun⟩

theorem Concluded.move {effect : Effect} (hc : c.Concluded) (hplaced : c.task.Placed)
    (hfits : c.task.AudioFits capacity) (hmove : c.task.Move capacity effect d.task)
    (hsent : d.sent = c.sent ++ effect.records) : d.Concluded := by
  have hconcludes := hmove.concludes hplaced hfits
  have hquiet := hc.quiet (hmove.await_ne_returned_before none)
  by_cases heffect : effect.records = []
  · have hne := hmove.await_ne_returned heffect
    rw [heffect, List.append_nil] at hsent
    exact ⟨hconcludes, fun _ ↦ hsent ▸ hquiet, fun hat ↦ absurd hat hne⟩
  · rcases effect with _ | result | record
    · exact absurd rfl heffect
    · exact absurd rfl heffect
    · have hsent' : d.sent = c.sent ++ [record] := hsent
      have hreturned : d.task.await = .returned none ↔ record.kind.isEnded = true := by
        generalize d.task = u at hmove
        cases hmove with
        | accepted hat hcount => exact hplaced.afterSent_returned hc.concludes hat
      refine ⟨hconcludes, ?_, ?_⟩
      · intro hne earlier hmem
        rw [hsent', List.mem_append, List.mem_singleton] at hmem
        rcases hmem with hmem | rfl
        · exact hquiet earlier hmem
        · simpa [hreturned] using hne
      · intro hat
        exact ⟨c.sent, record, hsent', hreturned.mp hat, hquiet⟩

theorem Concluded.endsOnce (hc : c.Concluded) : c.EndsOnce := by
  intro before record after hsent hended
  by_cases hat : c.task.await = .returned none
  · obtain ⟨init, last, hlast, _, hinit⟩ := hc.last hat
    rw [hsent] at hlast
    rcases List.append_eq_append_iff.mp hlast with ⟨rest, hinit', hrest⟩ | ⟨rest, hbefore, hrest⟩
    · rcases rest with _ | ⟨r, rest⟩
      · simp at hrest
        exact ⟨hrest.2, hat⟩
      · simp only [List.cons_append, List.cons.injEq] at hrest
        have := hinit record (by simp [hinit', hrest.1])
        simp [hended] at this
    · rcases rest with _ | ⟨r, rest⟩
      · simp at hrest
        exact ⟨hrest.2, hat⟩
      · simp at hrest
  · have := hc.quiet hat record (by simp [hsent])
    simp [hended] at this

theorem audioFits_of_placed {t : Task} (ht : t.Placed)
    (hcapacity : t.decoder.capacity ≤ capacity) : t.AudioFits capacity := by
  unfold Task.AudioFits
  split
  · next bytes offset observedAt uuid rate input hat =>
      simp only [Task.Placed, hat] at ht
      exact ht.2.2.1.trans hcapacity
  · trivial

/-- A budget that holds one maximum payload makes every audio payload fit. -/
theorem concluded_of_reachable (hcapacity : payloadCapacity ≤ capacity)
    (h : Machine.Reachable (step capacity) (new id peer payloadCapacity profile) c) :
    c.task.decoder.capacity = payloadCapacity ∧ c.Concluded :=
  (reachable_induction (I := fun c ↦ c.task.decoder.capacity = payloadCapacity ∧ c.Concluded) h
    ⟨by simp [new, Task.new, RawDecoder.new, RawDecoder.capacity, Framer.new],
      concluded_new id peer payloadCapacity profile⟩
    fun _ _ _ hplaced hc hmove _ hsent ↦ ⟨hmove.capacity_eq.trans hc.1,
      hc.2.move hplaced (audioFits_of_placed hplaced (hc.1.trans_le hcapacity)) hmove hsent⟩).2

/-- In a run that never meets an audio payload larger than the whole budget,
whatever the budget, every terminal record that the channel accepted is the last
record, and the task has returned: it decodes nothing after it. -/
theorem endsOnce_of_audioFits (capacity payloadCapacity : ℕ) (id : ConnectionId)
    (peer : SocketAddr) (profile : IncomingProfile) (c : Connection)
    (h : Machine.Reachable
      (Machine.guarded (fun c ↦ c.task.AudioFits capacity) (step capacity))
      (new id peer payloadCapacity profile) c) :
    c.EndsOnce := by
  have hinv := h.invariant (I := fun c ↦ c.task.Placed ∧ c.Concluded)
    ⟨Task.placed_new id peer payloadCapacity profile, concluded_new id peer payloadCapacity profile⟩
    fun c e d hc hstep ↦ by
      obtain ⟨hfits, hstep⟩ := Machine.guarded_eq_some_iff.mp hstep
      obtain ⟨effect, hmove, _, hsent⟩ := move_of_step hc.1 hstep
      exact ⟨hmove.placed hc.1, hc.2.move hc.1 hfits hmove hsent⟩
  exact hinv.2.endsOnce

theorem EndsOnce.countP_le (hc : c.EndsOnce) : c.sent.countP (·.kind.isEnded) ≤ 1 := by
  by_cases hnone : ∀ record ∈ c.sent, record.kind.isEnded = false
  · rw [List.countP_eq_zero.mpr (by simpa using hnone)]
    exact Nat.zero_le 1
  · push Not at hnone
    obtain ⟨record, hmem, hended⟩ := hnone
    obtain ⟨before, after, hsent⟩ := List.append_of_mem hmem
    obtain ⟨rfl, _⟩ := hc before record after hsent (by simpa using hended)
    have hbefore : ∀ earlier ∈ before, ¬ earlier.kind.isEnded = true := by
      intro earlier hearlier hkind
      obtain ⟨front, back, rfl⟩ := List.append_of_mem hearlier
      have hlast := (hc front earlier (back ++ [record]) (by simp [hsent]) hkind).1
      simp at hlast
    rw [hsent, List.countP_append, List.countP_eq_zero.mpr hbefore, Nat.zero_add]
    exact List.countP_le_length

/-- Two chunks with an identity frame, then an audio frame of twelve bytes and a
termination frame in two chunks of at most ten bytes. -/
def shortCall : List Event :=
  let chunk (bytes : List UInt8) : List Event :=
    [.read ⟨0, 0⟩ (.ok bytes), .copy ⟨0, 0⟩, .send true, .step ⟨0, 0⟩]
  [.poll ⟨0, 0⟩, .send true] ++
    chunk [0x01, 0, 16, 0, 0, 0, 0, 0, 0, 0] ++
    chunk [0, 0, 0, 0, 0, 0, 0, 0, 0] ++ [.step ⟨0, 0⟩, .send true] ++
    chunk [0x10, 0, 12, 0, 0, 0, 0, 0, 0, 0] ++
    chunk [0, 0, 0, 0, 0, 0x00, 0, 0] ++ [.step ⟨0, 0⟩, .copy ⟨0, 0⟩, .send true] ++
    [.step ⟨0, 0⟩, .step ⟨0, 0⟩, .send true]

theorem endsOnce_of_audioFits_shortCall :
    ∃ c, Machine.run (Machine.guarded (fun c ↦ c.task.AudioFits 12) (step 12))
        (new ⟨1, 2⟩ ⟨"127.0.0.1:9"⟩ 16 .allKnownRates) shortCall = some c ∧
      c.sent.countP (·.kind.isEnded) = 1 ∧ c.EndsOnce := by
  have hrun : ((Machine.run (Machine.guarded (fun c ↦ c.task.AudioFits 12) (step 12))
      (new ⟨1, 2⟩ ⟨"127.0.0.1:9"⟩ 16 .allKnownRates) shortCall).map
        fun c ↦ c.sent.countP (·.kind.isEnded)) = some 1 := by
    decide +kernel
  obtain ⟨c, hc, hcount⟩ := Option.map_eq_some_iff.mp hrun
  exact ⟨c, hc, hcount, endsOnce_of_audioFits 12 16 _ _ _ c ⟨_, hc⟩⟩

/-- Over a budget of ten bytes the refused audio frame ends the call, and the
termination frame after it ends the call again. -/
theorem shortCall_ends_twice :
    ¬ ∀ (capacity payloadCapacity : ℕ) (id : ConnectionId) (peer : SocketAddr)
      (profile : IncomingProfile) (c : Connection), 1 ≤ capacity →
      Machine.Reachable (step capacity) (new id peer payloadCapacity profile) c →
      c.EndsOnce := by
  intro hall
  have hrun : ((Machine.run (step 10) (new ⟨1, 2⟩ ⟨"127.0.0.1:9"⟩ 16 .allKnownRates)
      shortCall).map fun c ↦ c.sent.countP (·.kind.isEnded)) = some 2 := by
    decide +kernel
  obtain ⟨c, hc, hcount⟩ := Option.map_eq_some_iff.mp hrun
  have honce := (hall 10 16 _ _ _ c (by decide) ⟨_, hc⟩).countP_le
  omega

end Connection

end Phonowire.Receiver
