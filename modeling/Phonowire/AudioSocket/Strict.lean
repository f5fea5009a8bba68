import Phonowire.AudioSocket.Encoder
import Phonowire.AudioSocket.Framing
import Phonowire.Library.Streaming

/-!
# The strict decoder

`Decoder` checks the declared length of a known type as soon as its header is
complete, and the content when the body is. It and the raw decoder followed by
the typed conversion are two decoders of the same stream; each is an instance
of the streaming rules, over the format that `nextFrame` and the conversion
give.
-/

namespace Phonowire.AudioSocket

structure Decoder where
  framer : Framer
  deriving DecidableEq, Repr

namespace Decoder

def new (scratch : List UInt8) : Decoder := ⟨.new scratch⟩

def feed (d : Decoder) (input : List UInt8) :
    Option (Fed Decoder (DecodeOutcome TypedMessage)) := do
  let fed ← d.framer.feed input validateTypedLength
  match fed.result with
  | .error e => return ⟨⟨fed.next⟩, fed.rest, .error e⟩
  | .ok none => return ⟨⟨fed.next⟩, fed.rest, .ok .needInput⟩
  | .ok (some frame) =>
      let raw ← Framer.raw fed.next.scratch frame
      match ← raw.typed with
      | .error e => return ⟨⟨{ fed.next with state := .failed }⟩, fed.rest,
          .error (.invalidContent e)⟩
      | .ok message => return ⟨⟨fed.next⟩, fed.rest, .ok (.frame message)⟩

def finish (d : Decoder) : Except FinishError Unit := d.framer.finish

end Decoder

/-! ## The strict format -/

def DecodeOutcome.toOption {α : Type} : DecodeOutcome α → Option α
  | .needInput => none
  | .frame message => some message

/-- A `feed` result as the streaming rules read it. -/
def Fed.toCall {σ α : Type} (fed : Fed σ (DecodeOutcome α)) :
    Streaming.Call σ UInt8 DecodeError α :=
  ⟨fed.next, fed.rest, fed.result.map DecodeOutcome.toOption⟩

/-- The decision of a stream decoder that frames with a header check and then
converts. An envelope on which the conversion would panic decides nothing;
there is none. -/
def typedNext {ε : Type} (validateHeader : WireType → ℕ → Except TypedMessageError Unit)
    (capacity : ℕ) (framing : DecodeError → ε) (content : RawEnvelope → TypedMessageError → ε)
    (bytes : List UInt8) : Streaming.Decision UInt8 ε TypedMessage :=
  match nextFrame validateHeader capacity bytes with
  | .frame raw rest =>
      match raw.typed with
      | some (.ok message) => .message message rest
      | some (.error e) => .stop (content raw e) rest
      | none => .need
  | .invalid e rest => .stop (framing (.invalidLength e)) rest
  | .oversize required rest => .stop (framing (.resourceLimit required capacity)) rest
  | .need => .need

section TypedNext

variable {ε : Type} {validateHeader : WireType → ℕ → Except TypedMessageError Unit}
  {capacity : ℕ} {framing : DecodeError → ε} {content : RawEnvelope → TypedMessageError → ε}
  {bytes rest : List UInt8}

variable (framing content) in
theorem typedNext_frame {raw : RawEnvelope}
    (h : nextFrame validateHeader capacity bytes = .frame raw rest) :
    (∃ message, raw.typed = some (.ok message) ∧
      typedNext validateHeader capacity framing content bytes = .message message rest) ∨
    ∃ e, raw.typed = some (.error e) ∧
      typedNext validateHeader capacity framing content bytes = .stop (content raw e) rest := by
  obtain ⟨result, htyped⟩ := raw.typed_isSome
  cases result with
  | ok message => exact Or.inl ⟨message, htyped, by simp [typedNext, h, htyped]⟩
  | error e => exact Or.inr ⟨e, htyped, by simp [typedNext, h, htyped]⟩

theorem typedNext_need_iff : typedNext validateHeader capacity framing content bytes = .need ↔
    nextFrame validateHeader capacity bytes = .need := by
  cases h : nextFrame validateHeader capacity bytes with
  | frame raw rest =>
      rcases typedNext_frame framing content h with
        ⟨message, _, hnext⟩ | ⟨e, _, hnext⟩ <;> simp [hnext]
  | _ => simp [typedNext, h]

theorem typedNext_message {message : TypedMessage} :
    typedNext validateHeader capacity framing content bytes = .message message rest ↔
      ∃ raw, nextFrame validateHeader capacity bytes = .frame raw rest ∧
        raw.typed = some (.ok message) := by
  cases h : nextFrame validateHeader capacity bytes with
  | frame raw rest =>
      rcases typedNext_frame framing content h with
        ⟨value, htyped, hnext⟩ | ⟨e, htyped, hnext⟩
      · rw [hnext]
        constructor
        · intro heq
          cases heq
          exact ⟨raw, rfl, htyped⟩
        · rintro ⟨raw', heq, htyped'⟩
          cases heq
          rw [htyped] at htyped'
          cases htyped'
          rfl
      · rw [hnext]
        simp only [reduceCtorEq, false_iff, not_exists, not_and]
        rintro raw' heq
        cases heq
        simp [htyped]
  | _ => simp [typedNext, h]

/-- Framing and conversion form a streaming format. -/
def typedFormat (validateHeader : WireType → ℕ → Except TypedMessageError Unit) (capacity : ℕ)
    (framing : DecodeError → ε) (content : RawEnvelope → TypedMessageError → ε) :
    Streaming.Format UInt8 ε TypedMessage where
  next := typedNext validateHeader capacity framing content
  next_nil := rfl
  message_append := by
    intro bytes value rest h more
    obtain ⟨raw, hnext, htyped⟩ := typedNext_message.mp h
    exact typedNext_message.mpr ⟨raw, nextFrame_frame_append hnext more, htyped⟩
  stop_append := by
    intro bytes error rest h more
    cases hnext : nextFrame validateHeader capacity bytes with
    | need => simp [typedNext, hnext] at h
    | invalid e after =>
        simp only [typedNext, hnext, nextFrame_invalid_append hnext more] at h ⊢
        cases h
        rfl
    | oversize required after =>
        simp only [typedNext, hnext, nextFrame_oversize_append hnext more] at h ⊢
        cases h
        rfl
    | frame raw after =>
        simp only [typedNext, hnext, nextFrame_frame_append hnext more] at h ⊢
        cases htyped : raw.typed with
        | none => simp [htyped] at h
        | some result =>
            cases result with
            | ok message => simp [htyped] at h
            | error e =>
                simp only [htyped] at h ⊢
                cases h
                rfl
  message_length := by
    intro bytes input value rest hneed h
    obtain ⟨raw, hnext, _⟩ := typedNext_message.mp h
    exact nextFrame_need_length (typedNext_need_iff.mp hneed) hnext
  stop_length := by
    intro bytes input error rest hneed h
    have hneed' := typedNext_need_iff.mp hneed
    cases hnext : nextFrame validateHeader capacity (bytes ++ input) with
    | need => simp [typedNext, hnext] at h
    | invalid e after =>
        simp only [typedNext, hnext] at h
        cases h
        exact nextFrame_need_invalid hneed' hnext
    | oversize required after =>
        simp only [typedNext, hnext] at h
        cases h
        exact nextFrame_need_oversize hneed' hnext
    | frame raw after =>
        rcases typedNext_frame framing content hnext with
          ⟨value, _, heq⟩ | ⟨e, _, heq⟩
        · rw [heq] at h
          cases h
        · rw [heq] at h
          cases h
          exact (nextFrame_need_length hneed' hnext).le

end TypedNext

namespace Decoder

def strictFormat (capacity : ℕ) : Streaming.Format UInt8 DecodeError TypedMessage :=
  typedFormat validateTypedLength capacity id fun _ e ↦ .invalidContent e

def call (d : Decoder) (input : List UInt8) :
    Option (Streaming.Call Decoder UInt8 DecodeError TypedMessage) :=
  (d.feed input).map Fed.toCall

/-- The run of the strict decoder over the chunks of a stream. -/
def run (d : Decoder) (chunks : List (List UInt8)) :
    Option (Streaming.Run Decoder DecodeError TypedMessage) :=
  Streaming.drive call d chunks

def Holds (capacity : ℕ) (d : Decoder) (bytes : List UInt8) : Prop :=
  d.framer.scratch.length = capacity ∧ d.framer.Pending validateTypedLength bytes

def Failed (d : Decoder) : Prop := d.framer.state = .failed

theorem holds_new (scratch : List UInt8) : (new scratch).Holds scratch.length [] :=
  ⟨rfl, Framer.pending_new scratch⟩

theorem refines (capacity : ℕ) :
    Streaming.Refines (strictFormat capacity) call (Holds capacity) Failed where
  need := by
    rintro d bytes ⟨rfl, hpending⟩
    exact typedNext_need_iff.mpr hpending.need
  answers := by
    rintro d bytes ⟨rfl, hpending⟩ input
    have hspec := Framer.feed_spec hpending input
    cases hnext : nextFrame validateTypedLength d.framer.scratch.length (bytes ++ input) with
    | need =>
        rw [hnext] at hspec
        obtain ⟨g, hfed, hscratch, hg⟩ := hspec
        have hdecision : (strictFormat d.framer.scratch.length).next (bytes ++ input) = .need :=
          typedNext_need_iff.mpr hnext
        rw [hdecision]
        refine ⟨⟨g⟩, ?_, hscratch, hg⟩
        simp [call, feed, hfed, Fed.toCall, Except.map, DecodeOutcome.toOption]
    | invalid e rest =>
        rw [hnext] at hspec
        obtain ⟨g, hfed⟩ := hspec
        simp only [strictFormat, typedFormat, typedNext, hnext]
        refine ⟨⟨g.fail⟩, ?_, rfl⟩
        simp [call, feed, hfed, Fed.toCall, Except.map]
    | oversize required rest =>
        rw [hnext] at hspec
        obtain ⟨g, hfed, _⟩ := hspec
        simp only [strictFormat, typedFormat, typedNext, hnext]
        refine ⟨⟨g.fail⟩, ?_, rfl⟩
        simp [call, feed, hfed, Fed.toCall, Except.map]
    | frame raw rest =>
        rw [hnext] at hspec
        obtain ⟨g, frame, hfed, hscratch, hg, hraw⟩ := hspec
        rcases typedNext_frame id (fun _ e ↦ DecodeError.invalidContent e) hnext with
          ⟨message, htyped, hdecision⟩ | ⟨e, htyped, hdecision⟩
        · simp only [strictFormat, typedFormat, hdecision]
          refine ⟨⟨g⟩, ?_, hscratch, hg⟩
          simp [call, feed, hfed, hraw, htyped, Fed.toCall, Except.map, DecodeOutcome.toOption]
        · simp only [strictFormat, typedFormat, hdecision]
          refine ⟨⟨{ g with state := .failed }⟩, ?_, rfl⟩
          simp [call, feed, hfed, hraw, htyped, Fed.toCall, Except.map]

/-- Failure is absorbing: a later call reports it and consumes nothing. -/
theorem feed_of_failed {d : Decoder} (hd : d.Failed) (input : List UInt8) :
    d.feed input = some ⟨d, input, .error .failed⟩ := by
  have hstate : d.framer.state = .failed := hd
  simp [feed, Framer.feed, hstate]

theorem finish_of_failed {d : Decoder} (hd : d.Failed) : d.finish = .error .failed := by
  have hstate : d.framer.state = .failed := hd
  simp [finish, Framer.finish, hstate]

theorem finish_of_holds {capacity : ℕ} {d : Decoder} {bytes : List UInt8}
    (hd : d.Holds capacity bytes) : d.finish = (Stop.tail bytes).finish :=
  Framer.Pending.finish hd.2

end Decoder

/-! ## Framing first, conversion after -/

/-- Why the receiver's pipeline stops: the raw decoder fails, or the conversion
of a complete envelope does. -/
inductive PipelineError where
  | decode (error : DecodeError)
  | typed (raw : RawEnvelope) (error : TypedMessageError)
  deriving DecidableEq, Repr

namespace RawDecoder

def typedFormat (capacity : ℕ) : Streaming.Format UInt8 PipelineError TypedMessage :=
  AudioSocket.typedFormat anyLength capacity .decode .typed

/-- One raw `feed` whose envelope is converted. -/
def typedCall (d : RawDecoder) (input : List UInt8) :
    Option (Streaming.Call RawDecoder UInt8 PipelineError TypedMessage) := do
  let fed ← d.feed input
  match fed.result with
  | .error e => return ⟨fed.next, fed.rest, .error (.decode e)⟩
  | .ok .needInput => return ⟨fed.next, fed.rest, .ok none⟩
  | .ok (.frame raw) =>
      match ← raw.typed with
      | .error e => return ⟨fed.next, fed.rest, .error (.typed raw e)⟩
      | .ok message => return ⟨fed.next, fed.rest, .ok (some message)⟩

/-- The run of the raw decoder over the chunks of a stream, converting each
envelope and stopping at the first error of either. -/
def typedRun (d : RawDecoder) (chunks : List (List UInt8)) :
    Option (Streaming.Run RawDecoder PipelineError TypedMessage) :=
  Streaming.drive typedCall d chunks

def Holds (capacity : ℕ) (d : RawDecoder) (bytes : List UInt8) : Prop :=
  d.capacity = capacity ∧ d.Pending bytes

theorem holds_new (scratch : List UInt8) : Holds scratch.length (new scratch) [] :=
  ⟨rfl, pending_new scratch⟩

theorem typed_refines (capacity : ℕ) :
    Streaming.Refines (typedFormat capacity) typedCall (Holds capacity) fun _ ↦ True where
  need := by
    rintro d bytes ⟨rfl, hpending⟩
    exact typedNext_need_iff.mpr hpending.need
  answers := by
    rintro d bytes ⟨rfl, hpending⟩ input
    have hspec := feed_spec hpending input
    cases hnext : nextFrame anyLength d.capacity (bytes ++ input) with
    | need =>
        rw [hnext] at hspec
        obtain ⟨next, hfed, hcap, hholds⟩ := hspec
        have hdecision : (typedFormat d.capacity).next (bytes ++ input) = .need :=
          typedNext_need_iff.mpr hnext
        rw [hdecision]
        exact ⟨next, by simp [typedCall, hfed], hcap, hholds⟩
    | invalid e rest => simp [hnext, Answers] at hspec
    | oversize required rest =>
        rw [hnext] at hspec
        obtain ⟨next, hfed, _⟩ := hspec
        simp only [typedFormat, AudioSocket.typedFormat, typedNext, hnext]
        exact ⟨next, by simp [typedCall, hfed], trivial⟩
    | frame raw rest =>
        rw [hnext] at hspec
        obtain ⟨next, hfed, hcap, hholds⟩ := hspec
        rcases typedNext_frame PipelineError.decode .typed hnext with
          ⟨message, htyped, hdecision⟩ | ⟨e, htyped, hdecision⟩
        · simp only [typedFormat, AudioSocket.typedFormat, hdecision]
          exact ⟨next, by simp [typedCall, hfed, htyped], hcap, hholds⟩
        · simp only [typedFormat, AudioSocket.typedFormat, hdecision]
          exact ⟨next, by simp [typedCall, hfed, htyped], trivial⟩

end RawDecoder

end Phonowire.AudioSocket
