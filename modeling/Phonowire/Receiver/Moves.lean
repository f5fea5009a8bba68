import Phonowire.AudioSocket.Framing
import Phonowire.Receiver.Connection

/-!
# The moves of a connection's task

`Task.Placed` ties the progress counters, the decoder and the session to each
suspension point. In a placed task no assertion of the source can fail, and
`Task.Move` lists everything a step can do. Every later invariant of a
connection is proved by cases on a move.
-/

namespace Phonowire.Receiver

open AudioSocket

namespace Progress

/-- Everything read has been handed off, and all but `input` is decoded. -/
def Decoding (p : Progress) (input : List UInt8) : Prop :=
  p.consumed + input.length = p.read ∧ p.wireQueued = p.read

/-- All but the last chunk has been handed off and decoded. -/
def Observing (p : Progress) (chunk : List UInt8) : Prop :=
  p.consumed + chunk.length = p.read ∧ p.wireQueued = p.consumed

end Progress

namespace Task

/-- The decoder holds `tail` of an unfinished frame and the session has not
ended. -/
def Open (t : Task) (tail : List UInt8) : Prop :=
  t.decoder.Pending tail ∧ t.session.state ≠ .ended

/-- What the counters, the decoder and the session are at a record that waits
for the queue. -/
def Sending (t : Task) (kind : RecordKind) : AfterSend → Prop
  | .read =>
      kind = .connected t.peer ∧ t.progress.read = 0 ∧ t.progress.Decoding [] ∧ t.Open []
  | .decode chunk =>
      kind = .wire ⟨chunk⟩ ∧ chunk ≠ [] ∧ t.progress.Observing chunk ∧ ∃ tail, t.Open tail
  | .observed input =>
      kind.isProtocol = true ∧ t.progress.Decoding input ∧ t.decoder.Pending [] ∧
        (kind.isEnded = true ∨ ∃ uuid, t.session.state = .active uuid)
  | .stop =>
      kind.isProtocol = true ∧ kind.isEnded = true ∧ t.progress.consumed ≤ t.progress.wireQueued ∧
        t.progress.wireQueued ≤ t.progress.read

def Copying (t : Task) (bytes : List UInt8) : AfterCopy → Prop
  | .wire start _ chunk =>
      start = t.progress.consumed ∧ bytes = chunk ∧ chunk ≠ [] ∧ chunk.length ≤ readBytes ∧
        t.progress.Observing chunk ∧ ∃ tail, t.Open tail
  | .audio offset _ uuid _ input =>
      offset = t.progress.consumed ∧ bytes.length ≤ t.decoder.capacity ∧
        t.progress.Decoding input ∧ t.decoder.Pending [] ∧ t.session.state = .active uuid
  | .peerError offset _ _ input =>
      offset = t.progress.consumed ∧ bytes.length ≤ t.decoder.capacity ∧
        t.progress.Decoding input ∧ t.decoder.Pending [] ∧ t.session.state = .ended

def Placed (t : Task) : Prop :=
  t.progress.read ≤ u64Max ∧
    match t.await with
    | .start => t.progress = .default ∧ t.Open []
    | .send record after =>
        record.connection = t.id ∧ record.offset = t.progress.consumed ∧
          t.Sending record.kind after
    | .read => t.progress.Decoding [] ∧ ∃ tail, t.Open tail
    | .copy bytes after => t.Copying bytes after
    | .feed input => input ≠ [] ∧ t.progress.Decoding input ∧ ∃ tail, t.Open tail
    | .typed raw offset input =>
        offset = t.progress.consumed ∧ raw.payload.length ≤ t.decoder.capacity ∧
          t.progress.Decoding input ∧ t.Open []
    | .returned _ => t.progress.wireQueued ≤ t.progress.read
    | .panicked => False

/-- The reason and the session of the terminal record after a read that
returned no bytes. -/
def stopReason (t : Task) : ReadResult → Option (EndReason × IncomingSession)
  | .error e => some (.transport e, t.session)
  | .ok [] =>
      match t.decoder.finish with
      | .error e => some (.truncated e, t.session)
      | .ok () => some (.cleanEof, { t.session with state := .ended })
  | .ok _ => none

end Task

/-- What a move adds to the history of its connection. -/
inductive Effect where
  | silent
  | read (result : ReadResult)
  | sent (record : Record)

def Effect.reads : Effect → List ReadResult
  | .read result => [result]
  | _ => []

def Effect.records : Effect → List Record
  | .sent record => [record]
  | _ => []

namespace Task

/-- The steps of a placed task over a budget of `capacity` bytes. -/
inductive Move (capacity : ℕ) (t : Task) : Effect → Task → Prop
  | begin (now : Instant) (hat : t.await = .start) : Move capacity t .silent (t.begin now)
  | readStop (now : Instant) {result : ReadResult} {reason : EndReason}
      {session : IncomingSession} (hat : t.await = .read) (hfinal : result.Final)
      (hreason : t.stopReason result = some (reason, session)) :
      Move capacity t (.read result)
        ({ t with session }.endAt t.offset now t.session.identity reason .stop)
  | readChunk (now : Instant) {bytes : List UInt8} (hat : t.await = .read) (hne : bytes ≠ [])
      (hlength : bytes.length ≤ readBytes)
      (hfits : t.progress.read + bytes.length ≤ u64Max) :
      Move capacity t (.read (.ok bytes))
        { t with
          progress := { t.progress with read := t.progress.read + bytes.length }
          await := .copy bytes (.wire t.progress.read now bytes) }
  | readOverflow (now : Instant) {bytes : List UInt8} (hat : t.await = .read) (hne : bytes ≠ [])
      (hlength : bytes.length ≤ readBytes)
      (hover : u64Max < t.progress.read + bytes.length) :
      Move capacity t (.read (.ok bytes))
        ({ t with progress := { t.progress with counterOverflow := true } }.endAt t.offset now
          t.session.identity .offsetExhausted .stop)
  | feedNeed {tail input : List UInt8} {next : RawDecoder} (hat : t.await = .feed input)
      (hopen : t.Open tail)
      (hneed : nextFrame RawDecoder.anyLength t.decoder.capacity (tail ++ input) = .need)
      (hcap : next.capacity = t.decoder.capacity) (hnext : next.Pending (tail ++ input)) :
      Move capacity t .silent
        { t with
          decoder := next
          progress := { t.progress with consumed := t.progress.consumed + input.length }
          await := .read }
  | feedOversize (now : Instant) (next : RawDecoder) {tail input rest : List UInt8}
      {required consumed : ℕ} (hat : t.await = .feed input) (hopen : t.Open tail)
      (hoversize : nextFrame RawDecoder.anyLength t.decoder.capacity (tail ++ input) =
        .oversize required rest)
      (hcap : next.capacity = t.decoder.capacity)
      (hconsumed : consumed + rest.length = t.progress.consumed + input.length)
      (hrest : rest.length ≤ input.length) :
      Move capacity t .silent
        ({ t with
          decoder := next
          progress := { t.progress with consumed } }.endAt consumed now t.session.identity
            (.decode (.resourceLimit required t.decoder.capacity)) .stop)
  | feedFrame {tail input rest : List UInt8} {raw : RawEnvelope} {consumed : ℕ}
      {next : RawDecoder} (hat : t.await = .feed input) (hopen : t.Open tail)
      (hframe : nextFrame RawDecoder.anyLength t.decoder.capacity (tail ++ input) =
        .frame raw rest)
      (hcap : next.capacity = t.decoder.capacity) (hnext : next.Pending [])
      (hconsumed : consumed + rest.length = t.progress.consumed + input.length)
      (hrest : rest.length ≤ input.length) :
      Move capacity t .silent
        { t with
          decoder := next
          progress := { t.progress with consumed }
          await := .typed raw consumed rest }
  | invalid (now : Instant) {raw : RawEnvelope} {offset : ℕ} {input : List UInt8}
      {error : TypedMessageError} (hat : t.await = .typed raw offset input)
      (htyped : raw.typed = some (.error error)) :
      Move capacity t .silent
        (t.endAt offset now t.session.identity (.invalidMessage error) .stop)
  | rejected (now : Instant) {raw : RawEnvelope} {offset : ℕ} {input : List UInt8}
      {message : TypedMessage} {session : IncomingSession} {error : IncomingSessionError}
      (hat : t.await = .typed raw offset input) (htyped : raw.typed = some (.ok message))
      (hreceive : t.session.receive message = (session, .error error)) :
      Move capacity t .silent
        ({ t with session }.endAt offset now t.session.identity (.policy error) .stop)
  | observed (now : Instant) {raw : RawEnvelope} {offset : ℕ} {input : List UInt8}
      {message : TypedMessage} {session : IncomingSession} {event : IncomingEvent}
      (hat : t.await = .typed raw offset input) (htyped : raw.typed = some (.ok message))
      (hreceive : t.session.receive message = (session, .ok event)) :
      Move capacity t .silent ({ t with session }.observe offset now input event)
  | copied (now : Instant) {bytes : List UInt8} {after : AfterCopy}
      (hat : t.await = .copy bytes after) (hfits : bytes.length ≤ capacity) :
      Move capacity t .silent (t.onCopy now (.ok ⟨bytes⟩) after)
  | refused (now : Instant) {bytes : List UInt8} {after : AfterCopy}
      (hat : t.await = .copy bytes after) (hover : capacity < bytes.length) :
      Move capacity t .silent
        (t.onCopy now (.error (.tooLarge bytes.length capacity)) after)
  | exhausted {record : Record} {after : AfterSend} (hat : t.await = .send record after)
      (hover : u64Max < t.progress.recordsQueued + 1) :
      Move capacity t .silent (t.countExhausted record)
  | disconnected {record : Record} {after : AfterSend} (hat : t.await = .send record after)
      (hfits : t.progress.recordsQueued + 1 ≤ u64Max) :
      Move capacity t .silent (t.sendFailed record .disconnected)
  | accepted {record : Record} {after : AfterSend} (hat : t.await = .send record after)
      (hfits : t.progress.recordsQueued + 1 ≤ u64Max) :
      Move capacity t (.sent record)
        ({ t with
          progress := { t.progress with
            pendingRecord := false
            terminalQueued := t.progress.terminalQueued || record.kind.isEnded
            wireQueued := t.progress.wireQueued + record.kind.wireLength
            recordsQueued := t.progress.recordsQueued + 1 } }.afterSent after)

/-! ## A step of a placed task is a move -/

section Steps

variable {t : Task} {capacity : ℕ} {now : Instant}

theorem endOfInput_eq (now : Instant) {tail : List UInt8} (hopen : t.Open tail) :
    ∃ reason session, t.stopReason (.ok []) = some (reason, session) ∧
      t.endOfInput now =
        { t with session }.endAt t.offset now t.session.identity reason .stop := by
  cases hfinish : t.decoder.finish with
  | error e =>
      exact ⟨.truncated e, t.session, by simp [stopReason, hfinish], by simp [endOfInput, hfinish]⟩
  | ok _ =>
      refine ⟨.cleanEof, { t.session with state := .ended }, by simp [stopReason, hfinish], ?_⟩
      simp [endOfInput, hfinish, IncomingSession.endOfInput, IncomingSession.endWith, hopen.2,
        offset]

theorem move_onRead {result : ReadResult} (ht : t.Placed) (hat : t.await = .read)
    (hfinal : result.Final) : Move capacity t (.read result) (t.onRead now result) := by
  simp only [Placed, hat] at ht
  obtain ⟨hmax, hdecoding, tail, hopen⟩ := ht
  match result, hfinal with
  | .error e, hfinal => exact .readStop now hat hfinal rfl
  | .ok [], hfinal =>
      obtain ⟨reason, session, hreason, heq⟩ := endOfInput_eq now hopen
      have hread : t.onRead now (.ok []) = t.endOfInput now := rfl
      rw [hread, heq]
      exact .readStop now hat hfinal hreason
  | .ok (b :: bytes), hfinal =>
      cases hadd : checkedAdd t.progress.read (b :: bytes).length with
      | some next =>
          obtain ⟨hfits, rfl⟩ := checkedAdd_eq_some_iff.mp hadd
          have hmove : Move capacity t _ _ := .readChunk now hat
            (List.cons_ne_nil b bytes) hfinal hfits
          simpa only [onRead, Progress.observeRead, hadd] using hmove
      | none =>
          have hover := checkedAdd_eq_none_iff.mp hadd
          have hmove : Move capacity t _ _ := .readOverflow now hat
            (List.cons_ne_nil b bytes) hfinal hover
          simpa only [onRead, Progress.observeRead, hadd, offset] using hmove

/-- Bytes that the decoder takes from its input keep the position within the
bytes read. -/
theorem consume_eq {p : Progress} {input : List UInt8} (rest : List UInt8)
    (hmax : p.read ≤ u64Max) (hp : p.Decoding input) (hrest : rest.length ≤ input.length) :
    ∃ consumed, consumed + rest.length = p.consumed + input.length ∧
      p.consume (input.length - rest.length) = some ({ p with consumed }, some consumed) := by
  obtain ⟨hread, _⟩ := hp
  refine ⟨p.consumed + (input.length - rest.length), by omega, ?_⟩
  have hadd : checkedAdd p.consumed (input.length - rest.length) =
      some (p.consumed + (input.length - rest.length)) :=
    checkedAdd_eq_some_iff.mpr ⟨by omega, rfl⟩
  have hle : p.consumed + (input.length - rest.length) ≤ p.read := by omega
  simp only [Progress.consume, hadd, if_pos hle]

theorem move_onFeed {input : List UInt8} (ht : t.Placed) (hat : t.await = .feed input) :
    Move capacity t .silent (t.onFeed now input) := by
  simp only [Placed, hat] at ht
  obtain ⟨hmax, hne, hdecoding, tail, hopen⟩ := ht
  have hspec := RawDecoder.feed_spec hopen.1 input
  cases hnext : nextFrame RawDecoder.anyLength t.decoder.capacity (tail ++ input) with
  | invalid e rest => simp [hnext, RawDecoder.Answers] at hspec
  | need =>
      rw [hnext] at hspec
      obtain ⟨next, hfed, hcap, hpending⟩ := hspec
      obtain ⟨consumed, hconsumed, heq⟩ := consume_eq [] hmax hdecoding (by simp)
      obtain rfl : consumed = t.progress.consumed + input.length := by simpa using hconsumed
      have hmove : Move capacity t _ _ := .feedNeed hat hopen hnext hcap hpending
      simpa only [onFeed, hfed, heq] using hmove
  | oversize required rest =>
      rw [hnext] at hspec
      obtain ⟨next, hfed, hcap, hfailed⟩ := hspec
      have hrest := nextFrame_need_oversize hopen.1.need hnext
      obtain ⟨consumed, hconsumed, heq⟩ := consume_eq rest hmax hdecoding hrest
      have hmove : Move capacity t _ _ := .feedOversize now next hat hopen
        hnext hcap hconsumed hrest
      simpa only [onFeed, hfed, heq] using hmove
  | frame raw rest =>
      rw [hnext] at hspec
      obtain ⟨next, hfed, hcap, hpending⟩ := hspec
      have hrest := (nextFrame_need_length hopen.1.need hnext).le
      obtain ⟨consumed, hconsumed, heq⟩ := consume_eq rest hmax hdecoding hrest
      have hmove : Move capacity t _ _ := .feedFrame hat hopen hnext hcap hpending hconsumed
        hrest
      simpa only [onFeed, hfed, heq] using hmove

theorem move_onTyped {raw : RawEnvelope} {offset : ℕ} {input : List UInt8}
    (hat : t.await = .typed raw offset input) :
    Move capacity t .silent (t.onTyped now raw offset input) := by
  obtain ⟨result, htyped⟩ := raw.typed_isSome
  cases result with
  | error e =>
      have hmove : Move capacity t _ _ := .invalid now hat htyped
      simpa only [onTyped, htyped] using hmove
  | ok message =>
      rcases hreceive : t.session.receive message with ⟨session, error | event⟩
      · have hmove : Move capacity t _ _ := .rejected now hat htyped hreceive
        simpa only [onTyped, htyped, hreceive] using hmove
      · have hmove : Move capacity t _ _ := .observed now hat htyped hreceive
        simpa only [onTyped, htyped, hreceive] using hmove

theorem move_onCopy {bytes : List UInt8} {after : AfterCopy} (hat : t.await = .copy bytes after) :
    Move capacity t .silent (t.onCopy now (copyResult capacity bytes) after) := by
  unfold copyResult
  by_cases hover : capacity < bytes.length
  · rw [if_pos hover]
    exact .refused now hat hover
  · rw [if_neg hover]
    exact .copied now hat (by omega)

/-- The bytes handed off stay within the bytes read. -/
theorem Placed.wire_le {record : Record} {after : AfterSend} (ht : t.Placed)
    (hat : t.await = .send record after) :
    t.progress.wireQueued + record.kind.wireLength ≤ t.progress.read := by
  simp only [Placed, hat] at ht
  obtain ⟨_, _, _, hsending⟩ := ht
  cases after with
  | read =>
      obtain ⟨hkind, _, hdecoding, _⟩ := hsending
      rw [hkind, hdecoding.2]
      exact le_rfl
  | decode chunk =>
      obtain ⟨hkind, _, hobserving, _⟩ := hsending
      rw [hkind, hobserving.2]
      exact hobserving.1.le
  | observed input =>
      obtain ⟨hkind, hdecoding, _⟩ := hsending
      rw [RecordKind.wireLength_of_isProtocol hkind, hdecoding.2]
      exact le_rfl
  | stop =>
      obtain ⟨hkind, _, _, hle⟩ := hsending
      rw [RecordKind.wireLength_of_isProtocol hkind]
      exact hle

theorem Placed.wireQueued_le (ht : t.Placed) : t.progress.wireQueued ≤ t.progress.read := by
  have hplaced := ht
  unfold Placed at hplaced
  cases hat : t.await with
  | start =>
      simp only [hat] at hplaced
      rw [hplaced.2.1]
      exact le_rfl
  | send record after => exact (Nat.le_add_right _ _).trans (ht.wire_le hat)
  | read =>
      simp only [hat] at hplaced
      exact hplaced.2.1.2.le
  | copy bytes after =>
      simp only [hat] at hplaced
      obtain ⟨_, hcopying⟩ := hplaced
      cases after with
      | wire start observedAt chunk =>
          obtain ⟨hconsumed, hwire⟩ := hcopying.2.2.2.2.1
          omega
      | audio offset observedAt uuid rate input => exact hcopying.2.2.1.2.le
      | peerError offset observedAt uuid input => exact hcopying.2.2.1.2.le
  | feed input =>
      simp only [hat] at hplaced
      exact hplaced.2.2.1.2.le
  | typed raw offset input =>
      simp only [hat] at hplaced
      exact hplaced.2.2.2.1.2.le
  | returned failure =>
      simp only [hat] at hplaced
      exact hplaced.2
  | panicked => simp [hat] at hplaced

theorem onSent_eq {record : Record} {after : AfterSend} (ht : t.Placed)
    (hat : t.await = .send record after) (next : ℕ) :
    t.onSent record next after =
      { t with
        progress := { t.progress with
          pendingRecord := false
          terminalQueued := t.progress.terminalQueued || record.kind.isEnded
          wireQueued := t.progress.wireQueued + record.kind.wireLength
          recordsQueued := next } }.afterSent after := by
  have hadd : checkedAdd t.progress.wireQueued record.kind.wireLength =
      some (t.progress.wireQueued + record.kind.wireLength) :=
    checkedAdd_eq_some_iff.mpr ⟨(ht.wire_le hat).trans ht.1, rfl⟩
  simp [onSent, Progress.accept, hadd]

end Steps

end Task

/-- Every step of a placed connection is a move, and its history grows by the
effect of the move. -/
theorem Connection.move_of_step {capacity : ℕ} {c d : Connection} {e : Event}
    (hc : c.task.Placed) (h : c.step capacity e = some d) :
    ∃ effect, c.task.Move capacity effect d.task ∧ d.reads = c.reads ++ effect.reads ∧
      d.sent = c.sent ++ effect.records := by
  unfold step at h
  split at h
  · next now hat =>
      cases h
      exact ⟨.silent, .begin now hat, by simp [Effect.reads], by simp [Effect.records]⟩
  · next now result hat =>
      split_ifs at h with hfinal
      cases h
      exact ⟨.read result, Task.move_onRead hc hat hfinal, rfl, by simp [Effect.records]⟩
  · next input now hat =>
      cases h
      exact ⟨.silent, Task.move_onFeed hc hat, by simp [Effect.reads], by simp [Effect.records]⟩
  · next raw offset input now hat =>
      cases h
      exact ⟨.silent, Task.move_onTyped hat, by simp [Effect.reads], by simp [Effect.records]⟩
  · next bytes after now hat =>
      cases h
      exact ⟨.silent, Task.move_onCopy hat, by simp [Effect.reads], by simp [Effect.records]⟩
  · next record after connected hat =>
      cases h
      unfold Connection.send Task.nextCount
      cases hadd : checkedAdd c.task.progress.recordsQueued 1 with
      | none =>
          exact ⟨.silent, .exhausted hat (checkedAdd_eq_none_iff.mp hadd),
            by simp [Effect.reads], by simp [Effect.records]⟩
      | some next =>
          obtain ⟨hfits, rfl⟩ := checkedAdd_eq_some_iff.mp hadd
          cases connected with
          | false =>
              exact ⟨.silent, .disconnected hat hfits, by simp [Effect.reads],
                by simp [Effect.records]⟩
          | true =>
              refine ⟨.sent record, ?_, by simp [Effect.reads], rfl⟩
              have hmove : c.task.Move capacity _ _ := .accepted hat hfits
              simpa only [if_true, Task.onSent_eq hc hat] using hmove
  · cases h

/-! ## Moves keep a task placed -/

namespace Task

theorem placed_new (id : ConnectionId) (peer : SocketAddr) (payloadCapacity : ℕ)
    (profile : IncomingProfile) : (new id peer payloadCapacity profile).Placed :=
  ⟨Nat.zero_le _, rfl, RawDecoder.pending_new _, by simp [new, IncomingSession.withProfile]⟩

section Placing

variable {t : Task} {capacity : ℕ}

theorem placed_stop {offset : ℕ} {now : Instant} {uuid : Option Uuid} {reason : EndReason}
    (hmax : t.progress.read ≤ u64Max) (hoffset : offset = t.progress.consumed)
    (hconsumed : t.progress.consumed ≤ t.progress.wireQueued)
    (hwire : t.progress.wireQueued ≤ t.progress.read) :
    (t.endAt offset now uuid reason .stop).Placed :=
  ⟨hmax, rfl, hoffset, rfl, rfl, hconsumed, hwire⟩

theorem placed_observed {offset : ℕ} {now : Instant} {kind : RecordKind} {input : List UInt8}
    (hmax : t.progress.read ≤ u64Max) (hoffset : offset = t.progress.consumed)
    (hdecoding : t.progress.Decoding input) (hpending : t.decoder.Pending [])
    (hkind : kind.isProtocol = true)
    (hgoes : kind.isEnded = true ∨ ∃ uuid, t.session.state = .active uuid) :
    (t.sendAt offset now kind (.observed input)).Placed :=
  ⟨hmax, rfl, hoffset, hkind, hdecoding, hpending, hgoes⟩

theorem placed_decodeRest {input tail : List UInt8} (hmax : t.progress.read ≤ u64Max)
    (hdecoding : t.progress.Decoding input) (hopen : t.Open tail) :
    (t.decodeRest input).Placed := by
  by_cases hnil : input = []
  · subst hnil
    simpa [decodeRest, Placed] using ⟨hmax, hdecoding, tail, hopen⟩
  · simpa [decodeRest, Placed, hnil] using ⟨hmax, hdecoding, tail, hopen⟩

theorem Placed.onRead_data {bytes : List UInt8} {now : Instant} (ht : t.Placed)
    (hat : t.await = .read) (hne : bytes ≠ []) (hlength : bytes.length ≤ readBytes)
    (hfits : t.progress.read + bytes.length ≤ u64Max) :
    { t with
      progress := { t.progress with read := t.progress.read + bytes.length }
      await := .copy bytes (.wire t.progress.read now bytes) }.Placed := by
  simp only [Placed, hat] at ht
  obtain ⟨_, ⟨hread, hwire⟩, tail, hopen⟩ := ht
  simp only [List.length_nil, Nat.add_zero] at hread
  refine ⟨hfits, hread.symm, rfl, hne, hlength, ⟨?_, ?_⟩, tail, hopen⟩
  · simp [hread]
  · simp [hread, hwire]

/-- The observation of an event that the session accepted. -/
theorem Placed.observe {raw : RawEnvelope} {offset : ℕ} {input : List UInt8}
    {message : TypedMessage} {session : IncomingSession} {event : IncomingEvent} {now : Instant}
    (ht : t.Placed) (hat : t.await = .typed raw offset input)
    (htyped : raw.typed = some (.ok message))
    (hreceive : t.session.receive message = (session, .ok event)) :
    ({ t with session }.observe offset now input event).Placed := by
  simp only [Placed, hat] at ht
  obtain ⟨hmax, hoffset, hpayload, hdecoding, hopen⟩ := ht
  have hreceived := t.session.receive_received message
  rw [hreceive] at hreceived
  cases hreceived with
  | started hmessage hstate =>
      exact placed_observed hmax hoffset hdecoding hopen.1 rfl (Or.inr ⟨_, rfl⟩)
  | dtmf hmessage hstate hdigit =>
      exact placed_observed hmax hoffset hdecoding hopen.1 rfl (Or.inr ⟨_, hstate⟩)
  | audio hmessage hstate hrate =>
      subst hmessage
      refine ⟨hmax, hoffset, ?_, hdecoding, hopen.1, hstate⟩
      rw [(RawEnvelope.typed_audio htyped).1]
      exact hpayload
  | terminated hmessage =>
      exact placed_observed hmax hoffset hdecoding hopen.1 rfl (Or.inl rfl)
  | peerError hmessage =>
      subst hmessage
      refine ⟨hmax, hoffset, ?_, hdecoding, hopen.1, rfl⟩
      rw [RawEnvelope.typed_error htyped]
      exact hpayload

theorem Placed.onCopy {bytes : List UInt8} {after : AfterCopy} {now : Instant}
    {result : Except BudgetError OwnedBytes} (ht : t.Placed) (hat : t.await = .copy bytes after)
    (hresult : ∀ owned, result = .ok owned → owned = ⟨bytes⟩) :
    (t.onCopy now result after).Placed := by
  simp only [Placed, hat] at ht
  obtain ⟨hmax, hcopying⟩ := ht
  cases after with
  | wire start observedAt chunk =>
      obtain ⟨hstart, rfl, hne, hlength, ⟨hread, hwire⟩, tail, hopen⟩ := hcopying
      cases result with
      | ok owned =>
          obtain rfl := hresult owned rfl
          exact ⟨hmax, rfl, hstart, rfl, hne, ⟨hread, hwire⟩, tail, hopen⟩
      | error e => exact placed_stop hmax hstart hwire.ge (by omega)
  | audio offset observedAt uuid rate input =>
      obtain ⟨hoffset, _, hdecoding, hpending, hstate⟩ := hcopying
      cases result with
      | ok owned => exact placed_observed hmax hoffset hdecoding hpending rfl (Or.inr ⟨_, hstate⟩)
      | error e => exact placed_observed hmax hoffset hdecoding hpending rfl (Or.inl rfl)
  | peerError offset observedAt uuid input =>
      obtain ⟨hoffset, _, hdecoding, hpending, hstate⟩ := hcopying
      cases result with
      | ok owned => exact placed_observed hmax hoffset hdecoding hpending rfl (Or.inl rfl)
      | error e => exact placed_observed hmax hoffset hdecoding hpending rfl (Or.inl rfl)

theorem Placed.afterSent {record : Record} {after : AfterSend} {pending terminal : Bool}
    {count : ℕ} (ht : t.Placed) (hat : t.await = .send record after) :
    ({ t with
      progress := { t.progress with
        pendingRecord := pending
        terminalQueued := terminal
        wireQueued := t.progress.wireQueued + record.kind.wireLength
        recordsQueued := count } }.afterSent after).Placed := by
  have hwire := ht.wire_le hat
  simp only [Placed, hat] at ht
  obtain ⟨hmax, _, _, hsending⟩ := ht
  cases after with
  | read =>
      obtain ⟨hkind, _, ⟨hread, hqueued⟩, hopen⟩ := hsending
      refine ⟨hmax, ⟨hread, ?_⟩, [], hopen⟩
      simp [Task.afterSent, hkind, RecordKind.wireLength, hqueued]
  | decode chunk =>
      obtain ⟨hkind, hne, ⟨hread, hqueued⟩, tail, hopen⟩ := hsending
      refine placed_decodeRest hmax ⟨hread, ?_⟩ hopen
      simp [hkind, RecordKind.wireLength, hqueued, hread]
  | observed input =>
      obtain ⟨hkind, ⟨hread, hqueued⟩, hpending, hgoes⟩ := hsending
      unfold Task.afterSent
      dsimp only
      split_ifs with hidentity
      · exact ⟨hmax, hwire⟩
      · refine placed_decodeRest hmax ⟨hread, ?_⟩ ⟨hpending, ?_⟩
        · simp [RecordKind.wireLength_of_isProtocol hkind, hqueued]
        · intro hended
          exact hidentity (IncomingSession.identity_of_ended hended)
  | stop => exact ⟨hmax, hwire⟩

theorem Move.await_ne_returned_before {effect : Effect} {u : Task}
    (h : t.Move capacity effect u) (failure : Option (Record × SendFailure)) :
    t.await ≠ .returned failure := by
  intro hat
  cases h <;> simp_all

theorem decoder_observe (t : Task) (offset : ℕ) (now : Instant) (input : List UInt8)
    (event : IncomingEvent) :
    (t.observe offset now input event).decoder = t.decoder := by
  cases event with
  | ended uuid reason => cases reason <;> rfl
  | _ => rfl

theorem decoder_afterSent (t : Task) (after : AfterSend) :
    (t.afterSent after).decoder = t.decoder := by
  cases after with
  | observed input =>
      unfold Task.afterSent
      dsimp only
      split_ifs <;> rfl
  | _ => rfl

theorem identity_observe (t : Task) (offset : ℕ) (now : Instant) (input : List UInt8)
    (event : IncomingEvent) :
    (t.observe offset now input event).id = t.id ∧
      (t.observe offset now input event).peer = t.peer := by
  cases event with
  | ended uuid reason => cases reason <;> exact ⟨rfl, rfl⟩
  | _ => exact ⟨rfl, rfl⟩

theorem identity_afterSent (t : Task) (after : AfterSend) :
    (t.afterSent after).id = t.id ∧ (t.afterSent after).peer = t.peer := by
  cases after with
  | observed input =>
      unfold Task.afterSent
      dsimp only
      split_ifs <;> exact ⟨rfl, rfl⟩
  | _ => exact ⟨rfl, rfl⟩

theorem Move.identity_eq {effect : Effect} {u : Task} (h : t.Move capacity effect u) :
    u.id = t.id ∧ u.peer = t.peer := by
  cases h with
  | observed now hat htyped hreceive => exact identity_observe _ _ _ _ _
  | @copied _ bytes after hat hfits => cases after <;> exact ⟨rfl, rfl⟩
  | @refused _ bytes after hat hover => cases after <;> exact ⟨rfl, rfl⟩
  | accepted hat hfits => exact identity_afterSent _ _
  | _ => exact ⟨rfl, rfl⟩

theorem Move.capacity_eq {effect : Effect} {u : Task} (h : t.Move capacity effect u) :
    u.decoder.capacity = t.decoder.capacity := by
  cases h with
  | feedNeed hat hopen hneed hcap hnext => exact hcap
  | feedOversize now next hat hopen hoversize hcap hconsumed hrest => exact hcap
  | feedFrame hat hopen hframe hcap hnext hconsumed hrest => exact hcap
  | observed now hat htyped hreceive => rw [decoder_observe]
  | @copied _ bytes after hat hfits => cases after <;> rfl
  | @refused _ bytes after hat hover => cases after <;> rfl
  | accepted hat hfits => rw [decoder_afterSent]
  | _ => rfl

/-- Every move leads to a placed task: in particular none panics. -/
theorem Move.placed {effect : Effect} {u : Task} (h : t.Move capacity effect u)
    (ht : t.Placed) : u.Placed := by
  cases h with
  | begin now hat =>
      simp only [Placed, hat] at ht
      obtain ⟨hmax, hdefault, hopen⟩ := ht
      refine ⟨hmax, rfl, ?_, rfl, ?_, ?_, hopen⟩
      · simp [Task.begin, sendAt, hdefault, Progress.default]
      · simp [Task.begin, sendAt, hdefault, Progress.default]
      · simp [Task.begin, sendAt, hdefault, Progress.default, Progress.Decoding]
  | readStop now hat hfinal hreason =>
      simp only [Placed, hat] at ht
      obtain ⟨hmax, ⟨hread, hqueued⟩, _⟩ := ht
      simp only [List.length_nil, Nat.add_zero] at hread
      exact placed_stop hmax rfl (hread.trans hqueued.symm).le hqueued.le
  | readChunk now hat hne hlength hfits => exact ht.onRead_data hat hne hlength hfits
  | readOverflow now hat hne hlength hover =>
      simp only [Placed, hat] at ht
      obtain ⟨hmax, ⟨hread, hqueued⟩, _⟩ := ht
      simp only [List.length_nil, Nat.add_zero] at hread
      exact placed_stop hmax rfl (hread.trans hqueued.symm).le hqueued.le
  | feedNeed hat hopen hneed hcap hnext =>
      simp only [Placed, hat] at ht
      obtain ⟨hmax, _, ⟨hread, hqueued⟩, _⟩ := ht
      exact ⟨hmax, ⟨hread, hqueued⟩, _, hnext, hopen.2⟩
  | feedOversize now next hat hopen hoversize hcap hconsumed hrest =>
      simp only [Placed, hat] at ht
      obtain ⟨hmax, _, ⟨hread, hqueued⟩, _⟩ := ht
      refine placed_stop hmax rfl ?_ hqueued.le
      dsimp only
      omega
  | feedFrame hat hopen hframe hcap hnext hconsumed hrest =>
      simp only [Placed, hat] at ht
      obtain ⟨hmax, _, ⟨hread, hqueued⟩, _⟩ := ht
      refine ⟨hmax, rfl, ?_, ⟨?_, hqueued⟩, hnext, hopen.2⟩
      · dsimp only
        rw [hcap]
        exact nextFrame_payload_le hframe
      · dsimp only
        omega
  | invalid now hat htyped =>
      simp only [Placed, hat] at ht
      obtain ⟨hmax, hoffset, _, ⟨hread, hqueued⟩, _⟩ := ht
      exact placed_stop hmax hoffset (by omega) hqueued.le
  | rejected now hat htyped hreceive =>
      simp only [Placed, hat] at ht
      obtain ⟨hmax, hoffset, _, ⟨hread, hqueued⟩, _⟩ := ht
      refine placed_stop hmax hoffset ?_ hqueued.le
      dsimp only
      omega
  | observed now hat htyped hreceive => exact ht.observe hat htyped hreceive
  | copied now hat hfits =>
      refine ht.onCopy hat ?_
      rintro owned ⟨⟩
      rfl
  | refused now hat hover => exact ht.onCopy hat nofun
  | exhausted hat hover =>
      have hwire := ht.wire_le hat
      exact ⟨ht.1, (Nat.le_add_right _ _).trans hwire⟩
  | disconnected hat hfits =>
      have hwire := ht.wire_le hat
      exact ⟨ht.1, (Nat.le_add_right _ _).trans hwire⟩
  | accepted hat hfits => exact ht.afterSent hat

end Placing

end Task

/-- A property of a new connection that every move of a placed task keeps holds
of every connection a run reaches, and so does being placed. -/
theorem Connection.reachable_induction {capacity payloadCapacity : ℕ} {id : ConnectionId}
    {peer : SocketAddr} {profile : IncomingProfile} {I : Connection → Prop} {c : Connection}
    (h : Machine.Reachable (step capacity) (new id peer payloadCapacity profile) c)
    (hnew : I (new id peer payloadCapacity profile))
    (hmove : ∀ (c d : Connection) effect, c.task.Placed → I c →
      c.task.Move capacity effect d.task → d.reads = c.reads ++ effect.reads →
      d.sent = c.sent ++ effect.records → I d) :
    c.task.Placed ∧ I c := by
  refine h.invariant (I := fun c ↦ c.task.Placed ∧ I c)
    ⟨Task.placed_new id peer payloadCapacity profile, hnew⟩ ?_
  rintro c e d ⟨hplaced, hc⟩ hstep
  obtain ⟨effect, hm, hreads, hsent⟩ := move_of_step hplaced hstep
  exact ⟨hm.placed hplaced, hmove c d effect hplaced hc hm hreads hsent⟩

end Phonowire.Receiver
