import Phonowire.Receiver.Terminal

/-!
# The transcript of one connection

`reference` reads a complete stream in one pass: it parses the frames, converts
each with `RawEnvelope.typed`, folds the session over them and appends the
terminal observation. The records of a connection's task are this reference
interleaved with the raw chunks, whatever the chunks are.
-/

namespace Phonowire.Receiver

open AudioSocket

/-! ## The one-pass reference -/

abbrev Observation := ℕ × RecordKind

def terminalReason : SessionEnd → EndReason
  | .terminate => .terminate
  | .peerError payload => .peerError ⟨payload.bytes⟩
  | .endOfInput => .cleanEof

def eventKind : IncomingEvent → RecordKind
  | .started uuid => .started uuid
  | .audio uuid rate payload => .audio uuid rate ⟨payload.bytes⟩
  | .dtmf uuid digit => .dtmf uuid digit
  | .ended uuid reason => .ended uuid (terminalReason reason)

/-- The session after one frame and the observation it gives. A rejected frame
gives a terminal observation under the identity before it. -/
def observeFrame (s : IncomingSession) (raw : RawEnvelope) :
    Option (IncomingSession × RecordKind) :=
  raw.typed.map fun
    | .error e => (s, .ended s.identity (.invalidMessage e))
    | .ok message =>
        match s.receive message with
        | (next, .ok event) => (next, eventKind event)
        | (next, .error e) => (next, .ended s.identity (.policy e))

/-- The observations of a sequence of frames from `position` on, up to the first
terminal one; `finale` is the observation when there is none. -/
def replay (finale : IncomingSession → ℕ → Observation) :
    IncomingSession → ℕ → List RawEnvelope → List Observation
  | s, position, [] => [finale s position]
  | s, position, raw :: frames =>
      match observeFrame s raw with
      | none => []
      | some (next, kind) =>
          let offset := position + headerBytes + raw.payload.length
          (offset, kind) :: if kind.isEnded then [] else replay finale next offset frames

/-- Why the stream ends after its last complete frame, when the transport ends
with `ending`. -/
def endingReason (s : IncomingSession) (tail : List UInt8) : ReadResult → EndReason
  | .error e => .transport e
  | .ok _ =>
      match (Stop.tail tail).finish with
      | .error e => .truncated e
      | .ok () =>
          match s.endOfInput.2 with
          | .ok _ => .cleanEof
          | .error e => .policy e

def finale (capacity : ℕ) (stop : Stop) (ending : ReadResult) (s : IncomingSession)
    (position : ℕ) : Observation :=
  match stop with
  | .oversize start required =>
      (start + headerBytes, .ended s.identity (.decode (.resourceLimit required capacity)))
  | .tail bytes => (position + bytes.length, .ended s.identity (endingReason s bytes ending))

/-- The observations of the bytes from a frame boundary at `position` on. -/
def residual (capacity : ℕ) (s : IncomingSession) (position : ℕ) (bytes : List UInt8)
    (ending : ReadResult) : List Observation :=
  let parse := parseFrames capacity position bytes
  replay (finale capacity parse.stop ending) s position parse.frames

/-- The protocol observations of a stream: frame-parse it, type the frames and
fold the session over them. -/
def reference (capacity : ℕ) (profile : IncomingProfile) (stream : List UInt8)
    (ending : ReadResult) : List Observation :=
  residual capacity (.withProfile profile) 0 stream ending

/-- What the frame just completed and the bytes after it still give. -/
def residualFrom (capacity : ℕ) (s : IncomingSession) (raw : RawEnvelope) (offset : ℕ)
    (bytes : List UInt8) (ending : ReadResult) : List Observation :=
  match observeFrame s raw with
  | none => []
  | some (next, kind) =>
      (offset, kind) :: if kind.isEnded then [] else residual capacity next offset bytes ending

section Residual

variable {capacity position : ℕ} {s : IncomingSession} {bytes rest : List UInt8}
  {ending : ReadResult}

theorem residual_frame {raw : RawEnvelope}
    (h : nextFrame RawDecoder.anyLength capacity bytes = .frame raw rest) :
    residual capacity s position bytes ending =
      residualFrom capacity s raw (position + headerBytes + raw.payload.length) rest ending := by
  unfold residual residualFrom
  rw [parseFrames_frame h]
  simp only [Parse.prepend, List.singleton_append, replay]
  rfl

theorem residual_oversize {required : ℕ}
    (h : nextFrame RawDecoder.anyLength capacity bytes = .oversize required rest) :
    residual capacity s position bytes ending =
      [(position + headerBytes,
        .ended s.identity (.decode (.resourceLimit required capacity)))] := by
  unfold residual
  rw [parseFrames_oversize h]
  rfl

theorem residual_need (h : nextFrame RawDecoder.anyLength capacity bytes = .need) :
    residual capacity s position bytes ending =
      [(position + bytes.length, .ended s.identity (endingReason s bytes ending))] := by
  unfold residual
  rw [parseFrames_need h]
  rfl

end Residual


/-! ## What a task has still to observe -/

namespace Task

/-- The observations of `input` and of the bytes that later reads bring, behind
the unfinished frame of the decoder. -/
def Continues (t : Task) (input more : List UInt8) (ending : ReadResult)
    (obs : List Observation) : Prop :=
  ∃ tail position, t.decoder.Pending tail ∧ position + tail.length = t.progress.consumed ∧
    obs = residual t.decoder.capacity t.session position (tail ++ input ++ more) ending

/-- `obs` is what the task observes from here on, when `more` is what later
reads bring and `ending` is the last of them. -/
def Foresees (t : Task) (more : List UInt8) (ending : ReadResult) (obs : List Observation) : Prop :=
  match t.await with
  | .start => t.Continues [] more ending obs
  | .read => t.Continues [] more ending obs
  | .feed input => t.Continues input more ending obs
  | .typed raw offset input =>
      obs = residualFrom t.decoder.capacity t.session raw offset (input ++ more) ending
  | .copy _ (.wire _ _ chunk) => t.Continues chunk more ending obs
  | .copy bytes (.audio offset _ uuid rate input) =>
      obs = (offset, .audio uuid rate ⟨bytes⟩) ::
        residual t.decoder.capacity t.session offset (input ++ more) ending
  | .copy bytes (.peerError offset _ uuid _) => obs = [(offset, .ended uuid (.peerError ⟨bytes⟩))]
  | .send _ .read => t.Continues [] more ending obs
  | .send _ (.decode chunk) => t.Continues chunk more ending obs
  | .send record (.observed input) =>
      obs = (record.offset, record.kind) :: if record.kind.isEnded then [] else
        residual t.decoder.capacity t.session record.offset (input ++ more) ending
  | .send record .stop => obs = [(record.offset, record.kind)]
  | .returned none => obs = []
  | .returned (some _) => True
  | .panicked => True

end Task

/-- The protocol observation of a record; the peer address and the raw chunks
give none. -/
def Record.observation (record : Record) : Option Observation :=
  match record.kind with
  | .connected _ => none
  | .wire _ => none
  | kind => some (record.offset, kind)

theorem Record.observation_of_isProtocol {record : Record} (h : record.kind.isProtocol = true) :
    record.observation = some (record.offset, record.kind) := by
  unfold observation
  cases hkind : record.kind <;> simp_all [RecordKind.isProtocol]

/-- Bytes that a move read. -/
def Effect.data (effect : Effect) : List UInt8 := (effect.reads.map (·.data)).flatten

/-- A read without bytes is the last one, and nothing follows. -/
def Effect.Precedes (effect : Effect) (more : List UInt8) (ending : ReadResult) : Prop :=
  ∀ result ∈ effect.reads, result.data = [] → more = [] ∧ result = ending

namespace Task

variable {t u : Task} {capacity : ℕ} {effect : Effect} {more : List UInt8} {ending : ReadResult}
  {obs : List Observation}

theorem Continues.congr {input : List UInt8} (h : t.Continues input more ending obs)
    (hdecoder : u.decoder = t.decoder) (hsession : u.session = t.session)
    (hconsumed : u.progress.consumed = t.progress.consumed) : u.Continues input more ending obs := by
  obtain ⟨tail, position, hpending, hposition, hobs⟩ := h
  refine ⟨tail, position, hdecoder ▸ hpending, hposition.trans hconsumed.symm, ?_⟩
  rw [hobs, hdecoder, hsession]

theorem stopReason_eq {tail : List UInt8} {result : ReadResult} {reason : EndReason}
    {session : IncomingSession} (hopen : t.Open tail)
    (hreason : t.stopReason result = some (reason, session)) :
    reason = endingReason t.session tail result := by
  obtain ⟨hpending, hstate⟩ := hopen
  match result, hreason with
  | .error e, hreason =>
      simp only [stopReason, Option.some.injEq, Prod.mk.injEq] at hreason
      exact hreason.1.symm
  | .ok [], hreason =>
      rw [stopReason, hpending.finish] at hreason
      cases hfinish : (Stop.tail tail).finish with
      | error e => simp_all [endingReason]
      | ok _ => simp_all [endingReason, IncomingSession.endOfInput, IncomingSession.endWith]

theorem foresees_decodeRest {input : List UInt8}
    (h : t.Continues input more ending obs) : (t.decodeRest input).Foresees more ending obs := by
  by_cases hnil : input = []
  · subst hnil
    simpa [decodeRest, Foresees] using h.congr (u := t.decodeRest []) rfl rfl rfl
  · simpa [decodeRest, Foresees, hnil] using h.congr (u := t.decodeRest input) rfl rfl rfl

section Moves

theorem Continues.readStop {tail : List UInt8} {result : ReadResult} {reason : EndReason}
    {session : IncomingSession} (h : t.Continues [] [] result obs) (hopen : t.Open tail)
    (hreason : t.stopReason result = some (reason, session)) :
    obs = [(t.offset, .ended t.session.identity reason)] := by
  obtain ⟨tail', position, hpending, hposition, hobs⟩ := h
  obtain rfl := hpending.unique hopen.1
  rw [hobs, List.append_nil, List.append_nil, residual_need hpending.need, hposition,
    stopReason_eq hopen hreason]
  rfl

theorem Continues.feedOversize {tail input rest : List UInt8} {required consumed : ℕ}
    (h : t.Continues input more ending obs) (hopen : t.Open tail)
    (hoversize : nextFrame RawDecoder.anyLength t.decoder.capacity (tail ++ input) =
      .oversize required rest)
    (hconsumed : consumed + rest.length = t.progress.consumed + input.length) :
    obs = [(consumed, .ended t.session.identity
      (.decode (.resourceLimit required t.decoder.capacity)))] := by
  obtain ⟨tail', position, hpending, hposition, hobs⟩ := h
  obtain rfl := hpending.unique hopen.1
  have hlength := nextFrame_oversize_length hoversize
  rw [List.length_append] at hlength
  obtain rfl : consumed = position + headerBytes := by omega
  rw [hobs, residual_oversize (nextFrame_oversize_append hoversize more)]

theorem Continues.feedFrame {tail input rest : List UInt8} {raw : RawEnvelope} {consumed : ℕ}
    (h : t.Continues input more ending obs) (hopen : t.Open tail)
    (hframe : nextFrame RawDecoder.anyLength t.decoder.capacity (tail ++ input) =
      .frame raw rest)
    (hconsumed : consumed + rest.length = t.progress.consumed + input.length) :
    obs = residualFrom t.decoder.capacity t.session raw consumed (rest ++ more) ending := by
  obtain ⟨tail', position, hpending, hposition, hobs⟩ := h
  obtain rfl := hpending.unique hopen.1
  have hlength := nextFrame_rest_length hframe
  rw [List.length_append] at hlength
  obtain rfl : consumed = position + headerBytes + raw.payload.length := by omega
  rw [hobs, residual_frame (nextFrame_frame_append hframe more)]

theorem foresees_observe {raw : RawEnvelope} {offset : ℕ} {input : List UInt8}
    {message : TypedMessage} {session : IncomingSession} {event : IncomingEvent} (now : Instant)
    (hobs : obs = residualFrom t.decoder.capacity t.session raw offset (input ++ more) ending)
    (htyped : raw.typed = some (.ok message))
    (hreceive : t.session.receive message = (session, .ok event)) :
    ({ t with session }.observe offset now input event).Foresees more ending obs := by
  have hframe : observeFrame t.session raw = some (session, eventKind event) := by
    simp [observeFrame, htyped, hreceive]
  rw [residualFrom, hframe] at hobs
  cases event with
  | ended uuid reason => cases reason <;> exact hobs
  | _ => exact hobs

theorem foresees_onCopy {bytes : List UInt8} {after : AfterCopy} (now : Instant)
    (hat : t.await = .copy bytes after) (h : t.Foresees more ending obs) :
    (t.onCopy now (.ok ⟨bytes⟩) after).Foresees more ending obs := by
  simp only [Foresees, hat] at h
  cases after with
  | wire start observedAt chunk => exact h.congr rfl rfl rfl
  | audio offset observedAt uuid rate input => exact h
  | peerError offset observedAt uuid input => exact h

/-- An accepted record is the next observation, or none. -/
theorem foresees_afterSent {record : Record} {after : AfterSend} (p : Progress)
    (ht : t.Placed) (hconcludes : t.Concludes) (hat : t.await = .send record after)
    (hp : p.consumed = t.progress.consumed) (h : t.Foresees more ending obs) :
    ∃ later, obs = record.observation.toList ++ later ∧
      ({ t with progress := p }.afterSent after).Foresees more ending later := by
  have hreturned := ht.afterSent_returned (p := p) hconcludes hat
  simp only [Placed, hat] at ht
  simp only [Foresees, hat] at h
  obtain ⟨_, _, hoffset, hsending⟩ := ht
  cases after with
  | read =>
      obtain ⟨hkind, _⟩ := hsending
      exact ⟨obs, by simp [Record.observation, hkind], h.congr rfl rfl hp⟩
  | decode chunk =>
      obtain ⟨hkind, _⟩ := hsending
      exact ⟨obs, by simp [Record.observation, hkind],
        foresees_decodeRest (h.congr (u := { t with progress := p }) rfl rfl hp)⟩
  | stop =>
      obtain ⟨hkind, _⟩ := hsending
      exact ⟨[], by simpa [Record.observation_of_isProtocol hkind] using h, rfl⟩
  | observed input =>
      obtain ⟨hkind, _, hpending, _⟩ := hsending
      have hnext : obs = (record.offset, record.kind) :: if record.kind.isEnded then [] else
        residual t.decoder.capacity t.session record.offset (input ++ more) ending := h
      rw [Record.observation_of_isProtocol hkind]
      unfold Task.afterSent at hreturned ⊢
      dsimp only at hreturned ⊢
      by_cases hidentity : t.session.identity = none
      · simp only [if_pos hidentity, true_iff] at hreturned
        rw [if_pos hreturned] at hnext
        exact ⟨[], hnext, by simp [hidentity, Foresees]⟩
      · have hended : ¬ record.kind.isEnded = true := by
          simpa [if_neg hidentity, decodeRest_ne_returned] using hreturned
        rw [if_neg hended] at hnext
        rw [if_neg hidentity]
        refine ⟨residual t.decoder.capacity t.session record.offset (input ++ more) ending, hnext,
          foresees_decodeRest ⟨[], record.offset, hpending, ?_, by simp⟩⟩
        rw [List.length_nil, Nat.add_zero, hoffset]
        exact hp.symm

/-- A move takes its own observation from those the task foresees. -/
theorem Move.foresees (h : t.Move capacity effect u) (ht : t.Placed) (hconcludes : t.Concludes)
    (hread : readBytes ≤ capacity) (hpayload : t.decoder.capacity ≤ capacity)
    (hover : u.progress.counterOverflow = false) (hprecedes : effect.Precedes more ending)
    (hobs : t.Foresees (effect.data ++ more) ending obs) :
    ∃ later, obs = effect.records.filterMap Record.observation ++ later ∧
      u.Foresees more ending later := by
  cases h with
  | begin now hat =>
      simp only [Foresees, hat] at hobs
      exact ⟨obs, rfl, hobs.congr rfl rfl rfl⟩
  | @readStop now result reason session hat hfinal hreason =>
      simp only [Foresees, hat] at hobs
      simp only [Placed, hat] at ht
      obtain ⟨_, _, tail, hopen⟩ := ht
      have hdata : result.data = [] := by
        unfold stopReason at hreason
        split at hreason <;> simp_all [ReadResult.data]
      obtain ⟨rfl, rfl⟩ := hprecedes result (by simp [Effect.reads]) hdata
      simp only [Effect.data, Effect.reads, List.map_cons, List.map_nil, hdata,
        List.flatten_cons, List.flatten_nil, List.append_nil] at hobs
      exact ⟨obs, rfl, hobs.readStop hopen hreason⟩
  | @readChunk now bytes hat hne hlength hfits =>
      simp only [Foresees, hat] at hobs
      obtain ⟨tail, position, hpending, hposition, heq⟩ := hobs
      refine ⟨obs, rfl, tail, position, hpending, hposition, ?_⟩
      simpa [Effect.data, Effect.reads, ReadResult.data] using heq
  | readOverflow now hat hne hlength hover' => cases hover
  | @feedNeed tail input next hat hopen hneed hcap hnext =>
      simp only [Foresees, hat] at hobs
      obtain ⟨tail', position, hpending, hposition, heq⟩ := hobs
      obtain rfl := hpending.unique hopen.1
      refine ⟨obs, rfl, tail' ++ input, position, hnext, ?_, ?_⟩
      · simp only [List.length_append]
        omega
      · dsimp only
        rw [heq, hcap]
        simp [Effect.data, Effect.reads]
  | feedOversize now next hat hopen hoversize hcap hconsumed hrest =>
      simp only [Foresees, hat] at hobs
      exact ⟨obs, rfl, hobs.feedOversize hopen hoversize hconsumed⟩
  | feedFrame hat hopen hframe hcap hnext hconsumed hrest =>
      simp only [Foresees, hat] at hobs
      refine ⟨obs, rfl, ?_⟩
      simp only [Foresees, hcap]
      exact hobs.feedFrame hopen hframe hconsumed
  | @invalid now raw offset input error hat htyped =>
      simp only [Foresees, hat] at hobs
      have hframe : observeFrame t.session raw =
          some (t.session, .ended t.session.identity (.invalidMessage error)) := by
        simp [observeFrame, htyped]
      rw [residualFrom, hframe] at hobs
      exact ⟨obs, rfl, hobs⟩
  | @rejected now raw offset input message session error hat htyped hreceive =>
      simp only [Foresees, hat] at hobs
      have hframe : observeFrame t.session raw =
          some (session, .ended t.session.identity (.policy error)) := by
        simp [observeFrame, htyped, hreceive]
      rw [residualFrom, hframe] at hobs
      exact ⟨obs, rfl, hobs⟩
  | observed now hat htyped hreceive =>
      simp only [Foresees, hat] at hobs
      exact ⟨obs, rfl, foresees_observe now hobs htyped hreceive⟩
  | copied now hat hfits => exact ⟨obs, rfl, foresees_onCopy now hat hobs⟩
  | @refused now bytes after hat hover' =>
      simp only [Placed, hat] at ht
      cases after with
      | wire start observedAt chunk =>
          obtain ⟨_, _, rfl, _, hlength, _⟩ := ht
          omega
      | audio offset observedAt uuid rate input =>
          have hlength := ht.2.2.1
          omega
      | peerError offset observedAt uuid input =>
          have hlength := ht.2.2.1
          omega
  | exhausted hat hover' => cases hover
  | disconnected hat hfits => exact ⟨obs, rfl, trivial⟩
  | @accepted record after hat hfits =>
      obtain ⟨later, hlater, hforesees⟩ :=
        foresees_afterSent { t.progress with
          pendingRecord := false
          terminalQueued := t.progress.terminalQueued || record.kind.isEnded
          wireQueued := t.progress.wireQueued + record.kind.wireLength
          recordsQueued := t.progress.recordsQueued + 1 } ht hconcludes hat rfl hobs
      refine ⟨later, ?_, hforesees⟩
      rw [hlater, Effect.records, List.filterMap_cons, List.filterMap_nil]
      cases record.observation <;> rfl

end Moves

end Task

namespace Connection

/-- All bytes that the socket reads returned. -/
def bytesRead (c : Connection) : List UInt8 := (c.reads.map (·.data)).flatten

/-- The reads are the beginning of a delivery of `bytesRead` and then `more`,
which ends with `ending`: a read without bytes is `ending` itself. -/
def Delivers (c : Connection) (more : List UInt8) (ending : ReadResult) : Prop :=
  ending.data = [] ∧
    ((∀ result ∈ c.reads, result.data ≠ []) ∨
      (more = [] ∧ ∃ before, c.reads = before ++ [ending] ∧ ∀ result ∈ before, result.data ≠ []))

/-- The accepted observations, followed by those the task foresees, are the
reference. -/
def Follows (capacity : ℕ) (profile : IncomingProfile) (c : Connection) : Prop :=
  c.task.progress.counterOverflow = false → ∀ more ending, c.Delivers more ending →
    ∃ later, reference capacity profile (c.bytesRead ++ more) ending =
        c.sent.filterMap Record.observation ++ later ∧ c.task.Foresees more ending later

variable {capacity payloadCapacity : ℕ} {id : ConnectionId} {peer : SocketAddr}
  {profile : IncomingProfile} {c d : Connection} {effect : Effect}

theorem Delivers.before {more : List UInt8} {ending : ReadResult}
    (hd : d.Delivers more ending) (hreads : d.reads = c.reads ++ effect.reads) :
    c.Delivers (effect.data ++ more) ending ∧ effect.Precedes more ending := by
  obtain ⟨hending, hd⟩ := hd
  rw [hreads] at hd
  rcases hd with hall | ⟨rfl, before, hlast, hbefore⟩
  · refine ⟨⟨hending, Or.inl fun result hmem ↦ hall result (by simp [hmem])⟩, ?_⟩
    intro result hmem hdata
    exact absurd hdata (hall result (by simp [hmem]))
  · rcases effect with _ | result | record
    · simp only [Effect.reads, List.append_nil] at hlast
      refine ⟨⟨hending, Or.inr ⟨by simp [Effect.data, Effect.reads], before, hlast, hbefore⟩⟩, ?_⟩
      simp [Effect.Precedes, Effect.reads]
    · obtain ⟨rfl, hresult⟩ := List.append_inj' hlast rfl
      obtain rfl : result = ending := by simpa [Effect.reads] using hresult
      refine ⟨⟨hending, Or.inl hbefore⟩, ?_⟩
      simp [Effect.Precedes, Effect.reads]
    · simp only [Effect.reads, List.append_nil] at hlast
      refine ⟨⟨hending, Or.inr ⟨by simp [Effect.data, Effect.reads], before, hlast, hbefore⟩⟩, ?_⟩
      simp [Effect.Precedes, Effect.reads]

theorem follows_new (id : ConnectionId) (peer : SocketAddr) (payloadCapacity : ℕ)
    (profile : IncomingProfile) :
    (new id peer payloadCapacity profile).Follows payloadCapacity profile := by
  intro _ more ending _
  refine ⟨reference payloadCapacity profile more ending, rfl, [], 0, RawDecoder.pending_new _, rfl,
    ?_⟩
  simp [reference, new, Task.new, RawDecoder.new, RawDecoder.capacity, Framer.new]

theorem Follows.move (hc : c.Follows payloadCapacity profile) (hplaced : c.task.Placed)
    (hconcludes : c.task.Concludes) (hread : readBytes ≤ capacity)
    (hpayload : c.task.decoder.capacity ≤ capacity)
    (hmove : c.task.Move capacity effect d.task) (hreads : d.reads = c.reads ++ effect.reads)
    (hsent : d.sent = c.sent ++ effect.records) : d.Follows payloadCapacity profile := by
  intro hover more ending hdelivers
  obtain ⟨hbefore, hprecedes⟩ := hdelivers.before hreads
  obtain ⟨obs, hreference, hforesees⟩ := hc (hmove.counts.read hover).1 _ _ hbefore
  obtain ⟨later, hobs, hlater⟩ :=
    hmove.foresees hplaced hconcludes hread hpayload hover hprecedes hforesees
  refine ⟨later, ?_, hlater⟩
  rw [hsent, List.filterMap_append, List.append_assoc, ← hobs, ← hreference]
  simp [bytesRead, hreads, Effect.data]

end Connection

/-! ## The raw chunks -/

/-- Bytes read that no accepted record carries. -/
def Await.unsent : Await → List UInt8
  | .send record _ => record.wireBytes
  | .copy bytes (.wire _ _ _) => bytes
  | .returned (some (record, _)) => record.wireBytes
  | _ => []

namespace Task

variable {t u : Task} {capacity : ℕ} {effect : Effect}

theorem unsent_sendAt {offset : ℕ} {now : Instant} {kind : RecordKind} {after : AfterSend}
    (h : kind.isProtocol = true) : (t.sendAt offset now kind after).await.unsent = [] :=
  Record.wireBytes_of_isProtocol h

theorem unsent_afterSent (t : Task) (after : AfterSend) :
    (t.afterSent after).await.unsent = [] := by
  have hrest : ∀ input, (t.decodeRest input).await.unsent = [] := by
    intro input
    unfold decodeRest
    dsimp only
    split_ifs <;> rfl
  cases after with
  | read => rfl
  | decode chunk => exact hrest chunk
  | stop => rfl
  | observed input =>
      unfold Task.afterSent
      dsimp only
      split_ifs
      · rfl
      · exact hrest input

theorem unsent_observe (t : Task) (offset : ℕ) (now : Instant) (input : List UInt8)
    (event : IncomingEvent) : (t.observe offset now input event).await.unsent = [] := by
  cases event with
  | audio uuid rate payload => rfl
  | ended uuid reason =>
      cases reason with
      | peerError payload => rfl
      | _ => exact unsent_sendAt rfl
  | _ => exact unsent_sendAt rfl

/-- The bytes that a move reads or leaves pending are those it hands off or
leaves pending afterwards. -/
theorem Move.unsent (h : t.Move capacity effect u) (ht : t.Placed)
    (hread : readBytes ≤ capacity) (hover : u.progress.counterOverflow = false) :
    t.await.unsent ++ effect.data =
      (effect.records.map Record.wireBytes).flatten ++ u.await.unsent := by
  cases h with
  | begin now hat => simp [hat, Await.unsent, Effect.data, Effect.reads, Effect.records,
      Task.begin, sendAt, Record.wireBytes]
  | @readStop now result reason session hat hfinal hreason =>
      have hdata : result.data = [] := by
        unfold stopReason at hreason
        split at hreason <;> simp_all [ReadResult.data]
      simp [hat, Await.unsent, Effect.data, Effect.reads, Effect.records, endAt, sendAt,
        Record.wireBytes, hdata]
  | readChunk now hat hne hlength hfits =>
      simp [hat, Await.unsent, Effect.data, Effect.reads, Effect.records, ReadResult.data]
  | readOverflow now hat hne hlength hover' => cases hover
  | feedNeed hat hopen hneed hcap hnext =>
      simp [hat, Await.unsent, Effect.data, Effect.reads, Effect.records]
  | feedOversize now next hat hopen hoversize hcap hconsumed hrest =>
      simp [hat, Await.unsent, Effect.data, Effect.reads, Effect.records, endAt, sendAt,
        Record.wireBytes]
  | feedFrame hat hopen hframe hcap hnext hconsumed hrest =>
      simp [hat, Await.unsent, Effect.data, Effect.reads, Effect.records]
  | invalid now hat htyped =>
      simp [hat, Await.unsent, Effect.data, Effect.reads, Effect.records, endAt, sendAt,
        Record.wireBytes]
  | rejected now hat htyped hreceive =>
      simp [hat, Await.unsent, Effect.data, Effect.reads, Effect.records, endAt, sendAt,
        Record.wireBytes]
  | observed now hat htyped hreceive =>
      rw [unsent_observe, hat]
      rfl
  | @copied now bytes after hat hfits =>
      cases after <;>
        simp [hat, Await.unsent, Effect.data, Effect.reads, Effect.records, onCopy, endAt, sendAt,
          Record.wireBytes]
  | @refused now bytes after hat hover' =>
      simp only [Placed, hat] at ht
      cases after with
      | wire start observedAt chunk =>
          obtain ⟨_, _, rfl, _, hlength, _⟩ := ht
          omega
      | _ => simp [hat, Await.unsent, Effect.data, Effect.reads, Effect.records, onCopy, endAt,
          sendAt, Record.wireBytes]
  | exhausted hat hover' => cases hover
  | disconnected hat hfits =>
      simp [hat, Await.unsent, Effect.data, Effect.reads, Effect.records, sendFailed]
  | accepted hat hfits =>
      rw [unsent_afterSent, hat]
      simp [Await.unsent, Effect.data, Effect.reads, Effect.records]

end Task

namespace Connection

variable {capacity payloadCapacity : ℕ} {id : ConnectionId} {peer : SocketAddr}
  {profile : IncomingProfile} {c d : Connection} {effect : Effect}

/-- Every byte read is in an accepted chunk or in the one at hand. -/
def Delivered (c : Connection) : Prop :=
  c.task.progress.counterOverflow = false →
    c.bytesRead = wireOutput c.sent ++ c.task.await.unsent

theorem Delivered.move (hc : c.Delivered) (hplaced : c.task.Placed)
    (hread : readBytes ≤ capacity) (hmove : c.task.Move capacity effect d.task)
    (hreads : d.reads = c.reads ++ effect.reads) (hsent : d.sent = c.sent ++ effect.records) :
    d.Delivered := by
  intro hover
  have hunsent := hmove.unsent hplaced hread hover
  have hbefore := hc (hmove.counts.read hover).1
  calc
    d.bytesRead = c.bytesRead ++ effect.data := by simp [bytesRead, hreads, Effect.data]
    _ = wireOutput c.sent ++ (c.task.await.unsent ++ effect.data) := by
      rw [hbefore, List.append_assoc]
    _ = wireOutput d.sent ++ d.task.await.unsent := by
      rw [hunsent, hsent]
      simp [wireOutput]

/-- Each accepted record belongs to the connection and lies within the raw bytes
accepted before it; a raw chunk starts where those end. -/
def Covered (c : Connection) : Prop :=
  ∀ before record after, c.sent = before ++ record :: after →
    record.connection = c.task.id ∧
      record.offset ≤ (before.map (·.kind.wireLength)).sum ∧
      (record.kind.isWire = true → record.offset = (before.map (·.kind.wireLength)).sum)

theorem covered_of_accepted {record : Record} {after : AfterSend} (hplaced : c.task.Placed)
    (haccounted : c.Accounted) (hat : c.task.await = .send record after) :
    record.connection = c.task.id ∧ record.offset ≤ (c.sent.map (·.kind.wireLength)).sum ∧
      (record.kind.isWire = true → record.offset = (c.sent.map (·.kind.wireLength)).sum) := by
  rw [← haccounted.wire]
  simp only [Task.Placed, hat] at hplaced
  obtain ⟨_, hid, hoffset, hsending⟩ := hplaced
  refine ⟨hid, ?_⟩
  rw [hoffset]
  cases after with
  | read =>
      obtain ⟨hkind, _, hdecoding, _⟩ := hsending
      refine ⟨?_, by simp [hkind, RecordKind.isWire]⟩
      rw [hdecoding.2, ← hdecoding.1]
      exact Nat.le_add_right _ _
  | decode chunk =>
      obtain ⟨_, _, hobserving, _⟩ := hsending
      exact ⟨hobserving.2.ge, fun _ ↦ hobserving.2.symm⟩
  | observed input =>
      obtain ⟨hkind, hdecoding, _⟩ := hsending
      refine ⟨?_, ?_⟩
      · rw [hdecoding.2, ← hdecoding.1]
        exact Nat.le_add_right _ _
      · cases h : record.kind <;> simp_all [RecordKind.isProtocol, RecordKind.isWire]
  | stop =>
      obtain ⟨hkind, _, hconsumed, _⟩ := hsending
      refine ⟨hconsumed, ?_⟩
      cases h : record.kind <;> simp_all [RecordKind.isProtocol, RecordKind.isWire]

theorem Covered.move (hc : c.Covered) (hplaced : c.task.Placed) (haccounted : c.Accounted)
    (hmove : c.task.Move capacity effect d.task) (hsent : d.sent = c.sent ++ effect.records) :
    d.Covered := by
  intro before record after hsplit
  rw [(hmove.identity_eq).1]
  rw [hsent] at hsplit
  rcases effect with _ | result | latest
  · exact hc before record after (by simpa [Effect.records] using hsplit)
  · exact hc before record after (by simpa [Effect.records] using hsplit)
  · have hlatest : ∃ next, c.task.await = .send latest next := by
      generalize d.task = u at hmove
      cases hmove with
      | accepted hat hfits => exact ⟨_, hat⟩
    obtain ⟨next, hat⟩ := hlatest
    rcases List.append_eq_append_iff.mp hsplit with ⟨rest, hbefore, hrest⟩ | ⟨rest, hbefore, hrest⟩
    · rcases rest with _ | ⟨r, rest⟩
      · simp only [Effect.records, List.nil_append, List.cons.injEq] at hrest
        obtain ⟨rfl, _⟩ := hrest
        rw [hbefore, List.append_nil]
        exact covered_of_accepted hplaced haccounted hat
      · simp [Effect.records] at hrest
    · rcases rest with _ | ⟨r, rest⟩
      · simp only [Effect.records, List.nil_append, List.cons.injEq] at hrest
        obtain ⟨rfl, _⟩ := hrest
        rw [List.append_nil] at hbefore
        rw [← hbefore]
        exact covered_of_accepted hplaced haccounted hat
      · simp only [Effect.records, List.cons_append, List.cons.injEq] at hrest
        obtain ⟨rfl, _⟩ := hrest
        exact hc before record rest hbefore

end Connection

/-! ## The first record -/

namespace Task

variable {t u : Task} {capacity : ℕ} {effect : Effect}

/-- Nothing has been handed off yet. -/
def Fresh (t : Task) : Prop := t.await = .start ∨ ∃ record, t.await = .send record .read

theorem sendAt_not_fresh {offset : ℕ} {now : Instant} {kind : RecordKind} {after : AfterSend}
    (h : after ≠ .read) : ¬ (t.sendAt offset now kind after).Fresh := by
  rintro (hat | ⟨record, hat⟩)
  · cases hat
  · simp only [sendAt, Await.send.injEq] at hat
    exact h hat.2

theorem not_fresh_of_await (hstart : t.await ≠ .start)
    (hsend : ∀ record after, t.await ≠ .send record after) : ¬ t.Fresh := by
  rintro (hat | ⟨record, hat⟩)
  · exact hstart hat
  · exact hsend record _ hat

theorem afterSent_ne_start (t : Task) (after : AfterSend) : (t.afterSent after).await ≠ .start := by
  have hrest : ∀ input, (t.decodeRest input).await ≠ .start := by
    intro input
    unfold decodeRest
    dsimp only
    split_ifs <;> simp
  cases after with
  | read => simp [afterSent]
  | decode chunk => exact hrest chunk
  | stop => simp [afterSent]
  | observed input =>
      unfold afterSent
      dsimp only
      split_ifs
      · simp
      · exact hrest input

theorem Move.fresh (h : t.Move capacity effect u) (hu : u.Fresh) :
    t.await = .start ∧ effect = .silent := by
  cases h with
  | begin now hat => exact ⟨hat, rfl⟩
  | readStop now hat hfinal hreason => exact absurd hu (sendAt_not_fresh (by rintro ⟨⟩))
  | readChunk now hat hne hlength hfits =>
      exact absurd hu (not_fresh_of_await (by simp) (by simp))
  | readOverflow now hat hne hlength hover => exact absurd hu (sendAt_not_fresh (by rintro ⟨⟩))
  | feedNeed hat hopen hneed hcap hnext =>
      exact absurd hu (not_fresh_of_await (by simp) (by simp))
  | feedOversize now next hat hopen hoversize hcap hconsumed hrest =>
      exact absurd hu (sendAt_not_fresh (by rintro ⟨⟩))
  | feedFrame hat hopen hframe hcap hnext hconsumed hrest =>
      exact absurd hu (not_fresh_of_await (by simp) (by simp))
  | invalid now hat htyped => exact absurd hu (sendAt_not_fresh (by rintro ⟨⟩))
  | rejected now hat htyped hreceive => exact absurd hu (sendAt_not_fresh (by rintro ⟨⟩))
  | @observed _ _ _ _ message session event hat htyped hreceive =>
      cases event with
      | audio uuid rate payload =>
          exact absurd hu (not_fresh_of_await (by simp [observe]) (by simp [observe]))
      | ended uuid reason =>
          cases reason with
          | peerError payload =>
              exact absurd hu (not_fresh_of_await (by simp [observe]) (by simp [observe]))
          | _ => exact absurd hu (sendAt_not_fresh (by rintro ⟨⟩))
      | _ => exact absurd hu (sendAt_not_fresh (by rintro ⟨⟩))
  | @copied _ bytes after hat hfits => cases after <;> exact absurd hu (sendAt_not_fresh (by rintro ⟨⟩))
  | @refused _ bytes after hat hover => cases after <;> exact absurd hu (sendAt_not_fresh (by rintro ⟨⟩))
  | exhausted hat hover =>
      exact absurd hu (not_fresh_of_await (by simp [countExhausted, sendFailed])
        (by simp [countExhausted, sendFailed]))
  | disconnected hat hfits =>
      exact absurd hu (not_fresh_of_await (by simp [sendFailed]) (by simp [sendFailed]))
  | accepted hat hfits =>
      exact absurd hu (not_fresh_of_await (afterSent_ne_start _ _) (afterSent_ne_send _ _))

/-- A fresh task leaves that state by an accepted record or by a failure. -/
theorem Move.of_fresh (h : t.Move capacity effect u) (ht : t.Fresh)
    (heffect : effect.records = []) : u.Fresh ∨ ∃ failure, u.await = .returned (some failure) := by
  cases h with
  | begin now hat => exact Or.inl (Or.inr ⟨_, rfl⟩)
  | exhausted hat hover => exact Or.inr ⟨_, rfl⟩
  | disconnected hat hfits => exact Or.inr ⟨_, rfl⟩
  | accepted hat hfits => simp [Effect.records] at heffect
  | _ => rcases ht with ht | ⟨record, ht⟩ <;> simp_all

end Task

namespace Connection

variable {capacity payloadCapacity : ℕ} {id : ConnectionId} {peer : SocketAddr}
  {profile : IncomingProfile} {c d : Connection} {effect : Effect}

/-- The first accepted record is the peer address at offset zero, and no other
record is a peer address. -/
structure Opened (c : Connection) : Prop where
  fresh : c.task.Fresh → c.sent = []
  begun : c.sent = [] → c.task.Fresh ∨ ∃ failure, c.task.await = .returned (some failure)
  first : ∀ first rest, c.sent = first :: rest →
    first.offset = 0 ∧ first.kind = .connected c.task.peer ∧
      ∀ later ∈ rest, later.kind.isProtocol = true ∨ later.kind.isWire = true

theorem opened_new (id : ConnectionId) (peer : SocketAddr) (payloadCapacity : ℕ)
    (profile : IncomingProfile) : (new id peer payloadCapacity profile).Opened :=
  ⟨fun _ ↦ rfl, fun _ ↦ Or.inl (Or.inl rfl), nofun⟩

theorem Opened.accepted {record : Record} {after : AfterSend} (hc : c.Opened)
    (hplaced : c.task.Placed) (hat : c.task.await = .send record after)
    (hpeer : d.task.peer = c.task.peer) (hsent : d.sent = c.sent ++ [record]) :
    ∀ first rest, d.sent = first :: rest →
      first.offset = 0 ∧ first.kind = .connected d.task.peer ∧
        ∀ later ∈ rest, later.kind.isProtocol = true ∨ later.kind.isWire = true := by
  intro first rest hfirst
  rw [hpeer]
  rw [hsent] at hfirst
  simp only [Task.Placed, hat] at hplaced
  obtain ⟨_, _, hoffset, hsending⟩ := hplaced
  by_cases hread : after = .read
  · subst hread
    obtain ⟨hkind, hzero, hdecoding, _⟩ := hsending
    rw [hc.fresh (Or.inr ⟨record, hat⟩), List.nil_append, List.cons.injEq] at hfirst
    obtain ⟨rfl, rfl⟩ := hfirst
    refine ⟨?_, hkind, (by rintro _ ⟨⟩)⟩
    rw [hoffset]
    have := hdecoding.1
    omega
  · have hne : c.sent ≠ [] := by
      intro hnil
      rcases hc.begun hnil with (hstart | ⟨r, hsend⟩) | ⟨failure, hfailed⟩
      · simp [hat] at hstart
      · simp only [hat, Await.send.injEq] at hsend
        exact hread hsend.2
      · simp [hat] at hfailed
    have hkind : record.kind.isProtocol = true ∨ record.kind.isWire = true := by
      cases after with
      | read => exact absurd rfl hread
      | decode chunk => exact Or.inr (by rw [hsending.1]; rfl)
      | observed input => exact Or.inl hsending.1
      | stop => exact Or.inl hsending.1
    obtain ⟨head, tail, hcons⟩ := List.exists_cons_of_ne_nil hne
    rw [hcons, List.cons_append, List.cons.injEq] at hfirst
    obtain ⟨rfl, rfl⟩ := hfirst
    obtain ⟨hzero, hconnected, hlater⟩ := hc.first head tail hcons
    refine ⟨hzero, hconnected, ?_⟩
    intro later hmem
    rcases List.mem_append.mp hmem with hmem | hmem
    · exact hlater later hmem
    · rw [List.mem_singleton.mp hmem]
      exact hkind

theorem Opened.move (hc : c.Opened) (hplaced : c.task.Placed)
    (hmove : c.task.Move capacity effect d.task) (hsent : d.sent = c.sent ++ effect.records) :
    d.Opened := by
  have hpeer := hmove.identity_eq.2
  by_cases heffect : effect.records = []
  · rw [heffect, List.append_nil] at hsent
    refine ⟨?_, ?_, ?_⟩
    · intro hfresh
      exact hsent.trans (hc.fresh (Or.inl (hmove.fresh hfresh).1))
    · intro hnil
      rcases hc.begun (hsent ▸ hnil) with hfresh | ⟨failure, hfailed⟩
      · exact hmove.of_fresh hfresh heffect
      · exact absurd hfailed (hmove.await_ne_returned_before _)
    · rw [hsent, hpeer]
      exact hc.first
  · rcases effect with _ | result | record
    · exact absurd rfl heffect
    · exact absurd rfl heffect
    · have hat : ∃ after, c.task.await = .send record after := by
        generalize d.task = u at hmove
        cases hmove with
        | accepted hat hfits => exact ⟨_, hat⟩
      obtain ⟨after, hat⟩ := hat
      refine ⟨?_, ?_, hc.accepted hplaced hat hpeer hsent⟩
      · intro hfresh
        exact absurd (hmove.fresh hfresh).2 nofun
      · intro hnil
        simp [hsent, Effect.records] at hnil

/-! ## The whole transcript -/

/-- What the records of a completed connection are, for the complete delivery of
`stream` with its last read `ending`. -/
structure Transcribes (c : Connection) (payloadCapacity : ℕ) (profile : IncomingProfile)
    (stream : List UInt8) (ending : ReadResult) : Prop where
  opened : ∃ first rest, c.sent = first :: rest ∧ first.offset = 0 ∧
    first.kind = .connected c.task.peer ∧
    ∀ later ∈ rest, later.kind.isProtocol = true ∨ later.kind.isWire = true
  wire : wireOutput c.sent = c.bytesRead
  covered : c.Covered
  protocol : c.sent.filterMap Record.observation =
    reference payloadCapacity profile stream ending
  ended : ∃ before last, c.sent = before ++ [last] ∧ last.kind.isEnded = true ∧
    ∀ earlier ∈ before, earlier.kind.isEnded = false

/-- The facts that every move of a connection keeps, over a budget that holds
one read chunk and one maximum payload. -/
structure Faithful (payloadCapacity : ℕ) (profile : IncomingProfile) (c : Connection) : Prop where
  capacity : c.task.decoder.capacity = payloadCapacity
  accounted : c.Accounted
  concluded : c.Concluded
  follows : c.Follows payloadCapacity profile
  delivered : c.Delivered
  covered : c.Covered
  opened : c.Opened

theorem faithful_of_reachable (hcapacity : max readBytes payloadCapacity ≤ capacity)
    (h : Machine.Reachable (step capacity) (new id peer payloadCapacity profile) c) :
    c.task.Placed ∧ c.Faithful payloadCapacity profile := by
  refine reachable_induction (I := Faithful payloadCapacity profile) h ?_ ?_
  · refine ⟨?_, accounted_new _ _ _ _, concluded_new _ _ _ _, follows_new _ _ _ _, fun _ ↦ rfl,
      ?_, opened_new _ _ _ _⟩
    · simp [new, Task.new, RawDecoder.new, RawDecoder.capacity, Framer.new]
    · intro before record after hsplit
      simp [new] at hsplit
  · intro c d effect hplaced hc hmove hreads hsent
    have hread : readBytes ≤ capacity := (le_max_left _ _).trans hcapacity
    have hpayload : c.task.decoder.capacity ≤ capacity :=
      hc.capacity.trans_le ((le_max_right _ _).trans hcapacity)
    exact {
      capacity := hmove.capacity_eq.trans hc.capacity
      accounted := hc.accounted.move hmove.counts hreads hsent
      concluded := hc.concluded.move hplaced (audioFits_of_placed hplaced hpayload) hmove hsent
      follows := hc.follows.move hplaced hc.concluded.concludes hread hpayload hmove hreads hsent
      delivered := hc.delivered.move hplaced hread hmove hreads hsent
      covered := hc.covered.move hplaced hc.accounted hmove hsent
      opened := hc.opened.move hplaced hmove hsent }

/-- Reads that begin a delivery of the chunks and their end. -/
theorem delivers_of_prefix {chunks : List (List UInt8)} {ending : ReadResult}
    (hne : ∀ chunk ∈ chunks, chunk ≠ []) (hending : ending.data = [])
    (hreads : c.reads <+: chunks.map .ok ++ [ending]) :
    ∃ more, chunks.flatten = c.bytesRead ++ more ∧ c.Delivers more ending := by
  obtain ⟨rest, hrest⟩ := hreads
  rcases List.append_eq_append_iff.mp hrest with ⟨front, hfront, hback⟩ | ⟨front, hfront, hback⟩
  · obtain ⟨xs, ys, rfl, hxs, hys⟩ := List.map_eq_append_iff.mp hfront
    refine ⟨ys.flatten, ?_, hending, Or.inl ?_⟩
    · rw [bytesRead, ← hxs, List.flatten_append, List.map_map]
      congr 2
      exact (List.map_id xs).symm
    · intro result hmem
      rw [← hxs, List.mem_map] at hmem
      obtain ⟨chunk, hchunk, rfl⟩ := hmem
      exact hne chunk (by simp [hchunk])
  · have hall : ∀ result ∈ (chunks.map .ok : List ReadResult), result.data ≠ [] := by
      intro result hmem
      obtain ⟨chunk, hchunk, rfl⟩ := List.mem_map.mp hmem
      exact hne chunk hchunk
    have hflat : chunks.flatten = ((chunks.map Except.ok).map ReadResult.data).flatten := by
      rw [List.map_map]
      congr 1
      exact (List.map_id chunks).symm
    rcases front with _ | ⟨r, front⟩
    · rw [List.append_nil] at hfront
      refine ⟨[], ?_, hending, Or.inl (hfront ▸ hall)⟩
      rw [bytesRead, hfront, List.append_nil, hflat]
    · simp only [List.cons_append, List.cons.injEq, List.nil_eq, List.append_eq_nil_iff] at hback
      obtain ⟨rfl, rfl, rfl⟩ := hback
      refine ⟨[], ?_, hending, Or.inr ⟨rfl, _, hfront, hall⟩⟩
      simp [bytesRead, hfront, hending, hflat]

theorem Faithful.transcribes {chunks : List (List UInt8)} {ending : ReadResult}
    (hc : c.Faithful payloadCapacity profile) (hreturned : c.task.await = .returned none)
    (hover : c.task.progress.counterOverflow = false) (hne : ∀ chunk ∈ chunks, chunk ≠ [])
    (hending : ending.data = []) (hreads : c.reads <+: chunks.map .ok ++ [ending]) :
    c.Transcribes payloadCapacity profile chunks.flatten ending := by
  obtain ⟨more, hmore, hdelivers⟩ := delivers_of_prefix hne hending hreads
  obtain ⟨later, hreference, hforesees⟩ := hc.follows hover more ending hdelivers
  have hlater : later = [] := by simpa [Task.Foresees, hreturned] using hforesees
  obtain ⟨before, last, hlast, hended, hquiet⟩ := hc.concluded.last hreturned
  refine ⟨?_, ?_, hc.covered, ?_, before, last, hlast, hended, hquiet⟩
  · have hsent : c.sent ≠ [] := by simp [hlast]
    obtain ⟨first, rest, hfirst⟩ := List.exists_cons_of_ne_nil hsent
    exact ⟨first, rest, hfirst, hc.opened.first first rest hfirst⟩
  · simpa [Await.unsent, hreturned] using (hc.delivered hover).symm
  · rw [hmore, hreference, hlater, List.append_nil]

end Connection

end Phonowire.Receiver
