import Phonowire.Receiver.Moves
import Phonowire.Receiver.Recording

/-!
# The order of a call's records

A recorder checks the records of one call against the identity, the order and
the offsets it has seen. A ledger is what it needs for that, sizes aside. The
records that a connection hands off always keep the order of a ledger.
-/

namespace Phonowire.Receiver

open AudioSocket

/-- The state of a recorder with the last event offset and the raw bytes so
far. -/
structure Ledger where
  state : RecordingState
  last : ℕ
  wire : ℕ

def Ledger.empty : Ledger := ⟨.awaitingConnection, 0, 0⟩

/-- What an event does to the state, for calls of one sample rate. -/
inductive RecordingState.Advances (rate : SampleRate) :
    RecordingState → RecordKind → RecordingState → Prop
  | connected (peer : SocketAddr) : Advances rate .awaitingConnection (.connected peer) .awaitingUuid
  | started (uuid : Uuid) : Advances rate .awaitingUuid (.started uuid) (.active uuid)
  | audio (uuid : Uuid) {bytes : OwnedBytes} (heven : bytes.bytes.length % sampleBytes = 0) :
      Advances rate (.active uuid) (.audio uuid rate bytes) (.active uuid)
  | dtmf (uuid : Uuid) (digit : Dtmf) :
      Advances rate (.active uuid) (.dtmf uuid digit) (.active uuid)
  | unnamed (reason : EndReason) : Advances rate .awaitingUuid (.ended none reason) .ended
  | named (uuid : Uuid) (reason : EndReason) :
      Advances rate (.active uuid) (.ended (some uuid) reason) .ended

/-- The state of a call between its first and its last record. -/
def RecordingState.Underway : RecordingState → Prop
  | .awaitingUuid | .active _ => True
  | _ => False

theorem RecordingState.advances_ended {rate : SampleRate} {state : RecordingState}
    {uuid : Option Uuid} (hunderway : state.Underway) (hidentity : state.identity = uuid)
    (reason : EndReason) : state.Advances rate (.ended uuid reason) .ended := by
  subst hidentity
  cases state with
  | awaitingUuid => exact .unnamed reason
  | active uuid => exact .named uuid reason
  | _ => exact absurd hunderway id

namespace Ledger

inductive Takes (id : ConnectionId) (rate : SampleRate) (l : Ledger) (record : Record) :
    Ledger → Prop
  | wire {bytes : OwnedBytes} (hid : record.connection = id) (hkind : record.kind = .wire bytes)
      (hstate : l.state.Underway) (hoffset : record.offset = l.wire)
      (hmax : l.wire + bytes.bytes.length ≤ u64Max) :
      Takes id rate l record { l with wire := l.wire + bytes.bytes.length }
  | event {state : RecordingState} (hid : record.connection = id)
      (hafter : l.last ≤ record.offset) (hwithin : record.offset ≤ l.wire)
      (hadvances : l.state.Advances rate record.kind state) :
      Takes id rate l record ⟨state, record.offset, l.wire⟩

section Taking

variable {id : ConnectionId} {rate : SampleRate} {l m : Ledger} {record : Record}

theorem Takes.wire_eq (h : l.Takes id rate record m) :
    m.wire = l.wire + record.kind.wireLength := by
  cases h with
  | wire hid hkind hstate hoffset hmax => rw [hkind]; rfl
  | event hid hafter hwithin hadvances =>
      generalize record.kind = kind, l.state = state at hadvances
      cases hadvances <;> rfl

theorem Takes.last_le {n : ℕ} (h : l.Takes id rate record m) (hlast : l.last ≤ n)
    (hoffset : record.offset ≤ n) : m.last ≤ n := by
  cases h with
  | wire hid hkind hstate hoffset hmax => exact hlast
  | event hid hafter hwithin hadvances => exact hoffset

end Taking

/-- The records lead from the empty ledger to this one. -/
inductive Admits (id : ConnectionId) (rate : SampleRate) : List Record → Ledger → Prop
  | nil : Admits id rate [] .empty
  | snoc {past : List Record} {l m : Ledger} {record : Record} (hpast : Admits id rate past l)
      (htakes : l.Takes id rate record m) : Admits id rate (past ++ [record]) m

variable {id : ConnectionId} {rate : SampleRate}

theorem Admits.of_snoc {past : List Record} {record : Record} {m : Ledger}
    (h : Admits id rate (past ++ [record]) m) :
    ∃ l, Admits id rate past l ∧ l.Takes id rate record m := by
  generalize hwhole : past ++ [record] = whole at h
  cases h with
  | nil => simp at hwhole
  | snoc hpast htakes =>
      obtain ⟨rfl, hrecord⟩ := List.append_inj' hwhole rfl
      cases hrecord
      exact ⟨_, hpast, htakes⟩

/-- A beginning of admitted records is admitted. -/
theorem Admits.of_append {past future : List Record} {m : Ledger}
    (h : Admits id rate (past ++ future) m) : ∃ l, Admits id rate past l := by
  induction future using List.reverseRecOn generalizing m with
  | nil => exact ⟨m, by simpa using h⟩
  | append_singleton future record ih =>
      rw [← List.append_assoc] at h
      obtain ⟨l, hl, _⟩ := h.of_snoc
      exact ih hl

end Ledger

/-! ## A connection keeps a ledger -/

/-- The state of a recorder that has seen as much as the session. -/
def recordingState : SessionState → RecordingState
  | .awaitingUuid => .awaitingUuid
  | .active uuid => .active uuid
  | .ended => .ended

theorem underway_recordingState {s : IncomingSession} (h : s.state ≠ .ended) :
    (recordingState s.state).Underway ∧ (recordingState s.state).identity = s.identity := by
  unfold IncomingSession.identity
  cases hstate : s.state with
  | awaitingUuid => exact ⟨trivial, rfl⟩
  | active uuid => exact ⟨trivial, rfl⟩
  | ended => exact absurd hstate h

namespace Task

/-- What the ledger of the records handed off says at each suspension point. -/
def Expects (rate : SampleRate) (t : Task) (l : Ledger) : Prop :=
  match t.await with
  | .start => l.state = .awaitingConnection ∧ t.session.state = .awaitingUuid
  | .send record after =>
      ∃ m, l.Takes t.id rate record m ∧
        (after = .stop ∨ m.state = recordingState t.session.state)
  | .copy bytes (.audio _ _ uuid r _) =>
      l.state = .active uuid ∧ r = rate ∧ bytes.length % sampleBytes = 0
  | .copy _ (.peerError _ _ uuid _) => l.state.Underway ∧ l.state.identity = uuid
  | .returned _ => True
  | .panicked => True
  | _ => l.state = recordingState t.session.state

structure Keeps (rate : SampleRate) (t : Task) (l : Ledger) : Prop where
  wire : l.wire = t.progress.wireQueued
  last : l.last ≤ t.progress.consumed
  rates : ∀ q, t.session.profile.accepts q = true → q = rate
  expects : t.Expects rate l

section Keeping

variable {t : Task} {l : Ledger} {rate : SampleRate} {capacity : ℕ}

/-- An event at the current position of a call under way. -/
theorem takes_event {offset : ℕ} {now : Instant} {kind : RecordKind} {state : RecordingState}
    (hwire : l.wire = t.progress.wireQueued) (hlast : l.last ≤ t.progress.consumed)
    (hoffset : offset = t.progress.consumed)
    (hwithin : t.progress.consumed ≤ t.progress.wireQueued)
    (hadvances : l.state.Advances rate kind state) :
    l.Takes t.id rate ⟨t.id, offset, now, kind⟩ ⟨state, offset, l.wire⟩ :=
  .event rfl (hlast.trans_eq hoffset.symm) (by rw [hwire, hoffset]; exact hwithin) hadvances

theorem keeps_stop {offset : ℕ} {now : Instant} {uuid : Option Uuid} {reason : EndReason}
    (hwire : l.wire = t.progress.wireQueued) (hlast : l.last ≤ t.progress.consumed)
    (hrates : ∀ q, t.session.profile.accepts q = true → q = rate)
    (hoffset : offset = t.progress.consumed)
    (hwithin : t.progress.consumed ≤ t.progress.wireQueued)
    (hstate : l.state.Underway ∧ l.state.identity = uuid) :
    (t.endAt offset now uuid reason .stop).Keeps rate l :=
  ⟨hwire, hlast, hrates, _, takes_event hwire hlast hoffset hwithin
    (RecordingState.advances_ended hstate.1 hstate.2 reason), Or.inl rfl⟩

theorem keeps_observed {offset : ℕ} {now : Instant} {kind : RecordKind} {input : List UInt8}
    {state : RecordingState} (hwire : l.wire = t.progress.wireQueued)
    (hlast : l.last ≤ t.progress.consumed)
    (hrates : ∀ q, t.session.profile.accepts q = true → q = rate)
    (hoffset : offset = t.progress.consumed)
    (hwithin : t.progress.consumed ≤ t.progress.wireQueued)
    (hadvances : l.state.Advances rate kind state)
    (hstate : state = recordingState t.session.state) :
    (t.sendAt offset now kind (.observed input)).Keeps rate l :=
  ⟨hwire, hlast, hrates, _, takes_event hwire hlast hoffset hwithin hadvances, Or.inr hstate⟩

theorem stopReason_profile {result : ReadResult} {reason : EndReason} {session : IncomingSession}
    (h : t.stopReason result = some (reason, session)) :
    session.profile = t.session.profile := by
  unfold stopReason at h
  split at h
  · cases h
    rfl
  · split at h
    · cases h
      rfl
    · cases h
      rfl
  · cases h

theorem keeps_decodeRest {input : List UInt8} (hwire : l.wire = t.progress.wireQueued)
    (hlast : l.last ≤ t.progress.consumed)
    (hrates : ∀ q, t.session.profile.accepts q = true → q = rate)
    (hstate : l.state = recordingState t.session.state) : (t.decodeRest input).Keeps rate l := by
  refine ⟨hwire, hlast, hrates, ?_⟩
  unfold Expects decodeRest
  by_cases hnil : input = []
  · simpa [hnil] using hstate
  · simpa [hnil] using hstate

theorem Keeps.observe {raw : RawEnvelope} {offset : ℕ} {input : List UInt8}
    {message : TypedMessage} {session : IncomingSession} {event : IncomingEvent} {now : Instant}
    (ht : t.Placed) (hl : t.Keeps rate l) (hat : t.await = .typed raw offset input)
    (htyped : raw.typed = some (.ok message))
    (hreceive : t.session.receive message = (session, .ok event)) :
    ({ t with session }.observe offset now input event).Keeps rate l := by
  obtain ⟨hwire, hlast, hrates, hexpects⟩ := hl
  simp only [Expects, hat] at hexpects
  simp only [Placed, hat] at ht
  obtain ⟨hmax, hoffset, hpayload, ⟨hread, hqueued⟩, hopen⟩ := ht
  obtain ⟨hunderway, hidentity⟩ := underway_recordingState hopen.2
  rw [← hexpects] at hunderway hidentity
  have hwithin : t.progress.consumed ≤ t.progress.wireQueued := by omega
  have hreceived := t.session.receive_received message
  rw [hreceive] at hreceived
  cases hreceived with
  | @started uuid hmessage hstate =>
      rw [hstate] at hexpects
      exact keeps_observed hwire hlast hrates hoffset hwithin (by rw [hexpects]; exact .started _) rfl
  | @dtmf uuid digit hmessage hstate hdigit =>
      rw [hstate] at hexpects
      refine keeps_observed hwire hlast hrates hoffset hwithin (by rw [hexpects]; exact .dtmf _ _) ?_
      rw [hstate]
      rfl
  | @audio uuid q payload hmessage hstate hrate =>
      subst hmessage
      rw [hstate] at hexpects
      obtain ⟨hbytes, heven⟩ := RawEnvelope.typed_audio htyped
      rw [← hbytes] at heven
      exact ⟨hwire, hlast, hrates, hexpects, hrates _ hrate, heven⟩
  | terminated hmessage =>
      exact keeps_observed hwire hlast hrates hoffset hwithin
        (RecordingState.advances_ended hunderway hidentity _) rfl
  | peerError hmessage => exact ⟨hwire, hlast, hrates, hunderway, hidentity⟩

/-- A copy within the budget makes the record it was for. -/
theorem Keeps.copied {bytes : List UInt8} {after : AfterCopy} {now : Instant}
    (ht : t.Placed) (hl : t.Keeps rate l) (hat : t.await = .copy bytes after) :
    (t.onCopy now (.ok ⟨bytes⟩) after).Keeps rate l := by
  obtain ⟨hwire, hlast, hrates, hexpects⟩ := hl
  simp only [Placed, hat] at ht
  obtain ⟨hmax, hcopying⟩ := ht
  cases after with
  | wire start observedAt chunk =>
      simp only [Expects, hat] at hexpects
      obtain ⟨hstart, rfl, hne, hlength, ⟨hread, hqueued⟩, tail, hopen⟩ := hcopying
      have hstate := (underway_recordingState hopen.2).1
      rw [← hexpects] at hstate
      refine ⟨hwire, hlast, hrates, _, .wire rfl rfl hstate ?_ ?_, Or.inr hexpects⟩
      · rw [hwire, hqueued]
        exact hstart
      · rw [hwire, hqueued, hread]
        exact hmax
  | audio offset observedAt uuid q input =>
      simp only [Expects, hat] at hexpects
      obtain ⟨hstate, rfl, heven⟩ := hexpects
      obtain ⟨hoffset, _, ⟨hread, hqueued⟩, _, hactive⟩ := hcopying
      refine keeps_observed hwire hlast hrates hoffset (by omega)
        (by rw [hstate]; exact .audio uuid heven) ?_
      rw [hactive]
      rfl
  | peerError offset observedAt uuid input =>
      simp only [Expects, hat] at hexpects
      obtain ⟨hoffset, _, ⟨hread, hqueued⟩, _, hended⟩ := hcopying
      refine keeps_observed hwire hlast hrates hoffset (by omega)
        (RecordingState.advances_ended hexpects.1 hexpects.2 _) ?_
      rw [hended]
      rfl

/-- Neither a chunk nor a payload exceeds a budget that holds both. -/
theorem Placed.copy_le {bytes : List UInt8} {after : AfterCopy} (ht : t.Placed)
    (hat : t.await = .copy bytes after) (hcapacity : max readBytes t.decoder.capacity ≤ capacity) :
    bytes.length ≤ capacity := by
  simp only [Placed, hat] at ht
  obtain ⟨_, hcopying⟩ := ht
  obtain ⟨hread, hpayload⟩ := max_le_iff.mp hcapacity
  cases after with
  | wire start observedAt chunk =>
      obtain ⟨_, rfl, _, hlength, _⟩ := hcopying
      exact hlength.trans hread
  | audio offset observedAt uuid q input => exact hcopying.2.1.trans hpayload
  | peerError offset observedAt uuid input => exact hcopying.2.1.trans hpayload

theorem Keeps.accepted {record : Record} {after : AfterSend} {progress : Progress}
    (ht : t.Placed) (hl : t.Keeps rate l) (hat : t.await = .send record after)
    (hqueued : progress.wireQueued = t.progress.wireQueued + record.kind.wireLength)
    (hconsumed : progress.consumed = t.progress.consumed) :
    ∃ m, l.Takes t.id rate record m ∧ ({ t with progress }.afterSent after).Keeps rate m := by
  obtain ⟨hwire, hlast, hrates, hexpects⟩ := hl
  simp only [Expects, hat] at hexpects
  obtain ⟨m, htakes, hstate⟩ := hexpects
  simp only [Placed, hat] at ht
  obtain ⟨_, _, hoffset, _⟩ := ht
  have hmwire : m.wire = progress.wireQueued := by
    rw [hqueued, ← hwire, htakes.wire_eq]
  have hmlast : m.last ≤ progress.consumed := by
    rw [hconsumed]
    exact htakes.last_le hlast hoffset.le
  refine ⟨m, htakes, ?_⟩
  cases after with
  | stop => exact ⟨hmwire, hmlast, hrates, trivial⟩
  | read => exact ⟨hmwire, hmlast, hrates, hstate.resolve_left (by simp)⟩
  | decode chunk => exact keeps_decodeRest hmwire hmlast hrates (hstate.resolve_left (by simp))
  | observed input =>
      unfold Task.afterSent
      dsimp only
      split_ifs
      · exact ⟨hmwire, hmlast, hrates, trivial⟩
      · exact keeps_decodeRest hmwire hmlast hrates (hstate.resolve_left (by simp))

/-- Every move keeps the order: a record that the channel accepts is the one the
ledger takes. -/
theorem Move.keeps {effect : Effect} {u : Task} (h : t.Move capacity effect u) (ht : t.Placed)
    (hcapacity : max readBytes t.decoder.capacity ≤ capacity) (hl : t.Keeps rate l) :
    (effect.records = [] ∧ u.Keeps rate l) ∨
      ∃ record m, effect.records = [record] ∧ l.Takes t.id rate record m ∧ u.Keeps rate m := by
  cases h with
  | @accepted record after hat hfits =>
      refine Or.inr ⟨record, Exists.imp (fun m h ↦ ⟨rfl, h⟩) (hl.accepted ht hat ?_ ?_)⟩
      · rfl
      · rfl
  | observed now hat htyped hreceive => exact Or.inl ⟨rfl, hl.observe ht hat htyped hreceive⟩
  | copied now hat hfits => exact Or.inl ⟨rfl, hl.copied ht hat⟩
  | refused now hat hover =>
      have hle := ht.copy_le hat hcapacity
      omega
  | exhausted hat hover => exact Or.inl ⟨rfl, hl.wire, hl.last, hl.rates, trivial⟩
  | disconnected hat hfits => exact Or.inl ⟨rfl, hl.wire, hl.last, hl.rates, trivial⟩
  | begin now hat =>
      obtain ⟨hwire, hlast, hrates, hexpects⟩ := hl
      simp only [Expects, hat] at hexpects
      simp only [Placed, hat] at ht
      obtain ⟨_, hdefault, _⟩ := ht
      have hconsumed : t.progress.consumed = 0 := by rw [hdefault]; rfl
      have htakes : l.Takes t.id rate ⟨t.id, 0, now, .connected t.peer⟩ ⟨.awaitingUuid, 0, l.wire⟩ :=
        takes_event hwire hlast hconsumed.symm (by rw [hconsumed]; exact Nat.zero_le _)
          (by rw [hexpects.1]; exact .connected _)
      have hstate : RecordingState.awaitingUuid = recordingState t.session.state := by
        rw [hexpects.2]
        rfl
      exact Or.inl ⟨rfl, hwire, hlast, hrates, _, htakes, Or.inr hstate⟩
  | readStop now hat hfinal hreason =>
      obtain ⟨hwire, hlast, hrates, hexpects⟩ := hl
      simp only [Expects, hat] at hexpects
      simp only [Placed, hat] at ht
      obtain ⟨hmax, ⟨hread, hqueued⟩, tail, hopen⟩ := ht
      have hstate := underway_recordingState hopen.2
      rw [← hexpects] at hstate
      refine Or.inl ⟨rfl, keeps_stop hwire hlast ?_ rfl (by simp at hread ⊢; omega) hstate⟩
      rw [stopReason_profile hreason]
      exact hrates
  | readChunk now hat hne hlength hfits =>
      have hexpects := hl.expects
      simp only [Expects, hat] at hexpects
      exact Or.inl ⟨rfl, hl.wire, hl.last, hl.rates, hexpects⟩
  | readOverflow now hat hne hlength hover =>
      obtain ⟨hwire, hlast, hrates, hexpects⟩ := hl
      simp only [Expects, hat] at hexpects
      simp only [Placed, hat] at ht
      obtain ⟨hmax, ⟨hread, hqueued⟩, tail, hopen⟩ := ht
      have hstate := underway_recordingState hopen.2
      rw [← hexpects] at hstate
      exact Or.inl ⟨rfl, keeps_stop hwire hlast hrates rfl (by simp at hread ⊢; omega) hstate⟩
  | feedNeed hat hopen hneed hcap hnext =>
      have hexpects := hl.expects
      simp only [Expects, hat] at hexpects
      exact Or.inl ⟨rfl, hl.wire, hl.last.trans (Nat.le_add_right _ _), hl.rates, hexpects⟩
  | feedOversize now next hat hopen hoversize hcap hconsumed hrest =>
      obtain ⟨hwire, hlast, hrates, hexpects⟩ := hl
      simp only [Expects, hat] at hexpects
      simp only [Placed, hat] at ht
      obtain ⟨hmax, _, ⟨hread, hqueued⟩, _⟩ := ht
      have hstate := underway_recordingState hopen.2
      rw [← hexpects] at hstate
      refine Or.inl ⟨rfl, keeps_stop hwire ?_ hrates rfl ?_ hstate⟩
      · dsimp only
        omega
      · dsimp only
        omega
  | feedFrame hat hopen hframe hcap hnext hconsumed hrest =>
      obtain ⟨hwire, hlast, hrates, hexpects⟩ := hl
      simp only [Expects, hat] at hexpects
      refine Or.inl ⟨rfl, hwire, ?_, hrates, hexpects⟩
      dsimp only
      omega
  | invalid now hat htyped =>
      obtain ⟨hwire, hlast, hrates, hexpects⟩ := hl
      simp only [Expects, hat] at hexpects
      simp only [Placed, hat] at ht
      obtain ⟨hmax, hoffset, _, ⟨hread, hqueued⟩, hopen⟩ := ht
      have hstate := underway_recordingState hopen.2
      rw [← hexpects] at hstate
      exact Or.inl ⟨rfl, keeps_stop hwire hlast hrates hoffset (by omega) hstate⟩
  | @rejected _ raw offset input message session error hat htyped hreceive =>
      obtain ⟨hwire, hlast, hrates, hexpects⟩ := hl
      simp only [Expects, hat] at hexpects
      simp only [Placed, hat] at ht
      obtain ⟨hmax, hoffset, _, ⟨hread, hqueued⟩, hopen⟩ := ht
      have hstate := underway_recordingState hopen.2
      rw [← hexpects] at hstate
      have hreceived := t.session.receive_received message
      rw [hreceive] at hreceived
      refine Or.inl ⟨rfl, keeps_stop hwire hlast ?_ hoffset ?_ hstate⟩
      · cases hreceived
        exact hrates
      · dsimp only
        omega

end Keeping

end Task

/-- The records that a connection hands off are admitted in their order, when the
budget holds a chunk and a payload and the profile has one rate. -/
theorem Connection.admits_of_reachable {capacity payloadCapacity : ℕ} {id : ConnectionId}
    {peer : SocketAddr} {profile : IncomingProfile} {rate : SampleRate} {c : Connection}
    (hcapacity : max readBytes payloadCapacity ≤ capacity)
    (hprofile : ∀ q, profile.accepts q = true → q = rate)
    (h : Machine.Reachable (step capacity) (new id peer payloadCapacity profile) c) :
    ∃ l, Ledger.Admits id rate c.sent l := by
  have hinv := reachable_induction (I := fun c ↦ c.task.id = id ∧
    c.task.decoder.capacity = payloadCapacity ∧
    ∃ l, Ledger.Admits id rate c.sent l ∧ c.task.Keeps rate l) h ?_ ?_
  · obtain ⟨_, _, _, l, hl, _⟩ := hinv
    exact ⟨l, hl⟩
  · refine ⟨rfl, ?_, .empty, .nil, rfl, Nat.zero_le _, hprofile, rfl, rfl⟩
    simp [new, Task.new, RawDecoder.new, RawDecoder.capacity, Framer.new]
  · rintro c d effect hplaced ⟨rfl, hcap, l, hl, hkeeps⟩ hmove _ hsent
    refine ⟨hmove.identity_eq.1, hmove.capacity_eq.trans hcap, ?_⟩
    rw [← hcap] at hcapacity
    rcases hmove.keeps hplaced hcapacity hkeeps with ⟨hnone, hnext⟩ | ⟨record, m, hone, htakes, hnext⟩
    · rw [hsent, hnone, List.append_nil]
      exact ⟨l, hl, hnext⟩
    · rw [hsent, hone]
      exact ⟨m, .snoc hl htakes, hnext⟩

end Phonowire.Receiver
