import Phonowire.AudioSocket.RoundTrip

/-!
# The strict decoder against framing first

The strict decoder checks a declared length at the header, before the capacity;
the pipeline of the receiver frames first and converts the complete envelope.
Both read the same messages up to one frame. `Verdict` lists what the two can
say about that frame.
-/

namespace Phonowire.AudioSocket

theorem RawEnvelope.typed_of_invalid {raw : RawEnvelope} {e : TypedMessageError}
    (h : validateTypedLength raw.wireType raw.payload.length = .error e) :
    raw.typed = some (.error e) := by
  simp [RawEnvelope.typed, h]

/-- The only content rule beyond the length is that a digit is ASCII. -/
theorem RawEnvelope.typed_error_of_valid {raw : RawEnvelope} {e : TypedMessageError}
    (hvalid : validateTypedLength raw.wireType raw.payload.length = .ok ())
    (h : raw.typed = some (.error e)) : e = .dtmfNotAscii := by
  unfold RawEnvelope.typed at h
  simp only [hvalid] at h
  cases hknown : raw.wireType.known with
  | none => simp [hknown] at h
  | some known =>
      have hok := (validateTypedLength_known hknown _).mp hvalid
      simp only [hknown] at h
      cases known with
      | dtmf =>
          obtain ⟨byte, hbyte⟩ := List.length_eq_one_iff.mp hok
          by_cases hascii : byte < 0x80
          · simp [RawEnvelope.dtmf, hbyte, Dtmf.new, hascii, Except.map] at h
          · simpa [RawEnvelope.dtmf, hbyte, Dtmf.new, hascii, Except.map, eq_comm] using h
      | uuid => simp [RawEnvelope.uuid] at h
      | _ => simp at h

namespace Decoder

/-- What the two decoders say about the bytes at the frame where one of them
stops or both wait. -/
inductive Verdict (capacity : ℕ) : List UInt8 →
    Streaming.Parsed UInt8 DecodeError TypedMessage →
    Streaming.Parsed UInt8 PipelineError TypedMessage → Prop
  | waiting (bytes : List UInt8) : Verdict capacity bytes ⟨[], none, bytes⟩ ⟨[], none, bytes⟩
  | content {raw : RawEnvelope} {e : TypedMessageError} (rest : List UInt8)
      (hvalid : validateTypedLength raw.wireType raw.payload.length = .ok ())
      (htyped : raw.typed = some (.error e)) :
      Verdict capacity (raw.wire ++ rest) ⟨[], some (.invalidContent e), rest⟩
        ⟨[], some (.typed raw e), rest⟩
  | oversize (type hi lo : UInt8) (body : List UInt8)
      (hvalid : validateTypedLength ⟨type⟩ (be16 hi lo) = .ok ()) :
      Verdict capacity (type :: hi :: lo :: body)
        ⟨[], some (.resourceLimit (be16 hi lo) capacity), body⟩
        ⟨[], some (.decode (.resourceLimit (be16 hi lo) capacity)), body⟩
  | lengthTyped {type hi lo : UInt8} {body : List UInt8} {e : TypedMessageError}
      (hinvalid : validateTypedLength ⟨type⟩ (be16 hi lo) = .error e)
      (hbody : be16 hi lo ≤ body.length) :
      Verdict capacity (type :: hi :: lo :: body) ⟨[], some (.invalidLength e), body⟩
        ⟨[], some (.typed ⟨⟨type⟩, body.take (be16 hi lo)⟩ e), body.drop (be16 hi lo)⟩
  | lengthOversize {type hi lo : UInt8} {body : List UInt8} {e : TypedMessageError}
      (hinvalid : validateTypedLength ⟨type⟩ (be16 hi lo) = .error e) :
      Verdict capacity (type :: hi :: lo :: body) ⟨[], some (.invalidLength e), body⟩
        ⟨[], some (.decode (.resourceLimit (be16 hi lo) capacity)), body⟩
  | lengthWaiting {type hi lo : UInt8} {body : List UInt8} {e : TypedMessageError}
      (hinvalid : validateTypedLength ⟨type⟩ (be16 hi lo) = .error e)
      (hbody : body.length < be16 hi lo) :
      Verdict capacity (type :: hi :: lo :: body) ⟨[], some (.invalidLength e), body⟩
        ⟨[], none, type :: hi :: lo :: body⟩

variable {capacity : ℕ}

theorem nextFrame_any_of_valid (capacity : ℕ) {type hi lo : UInt8} (body : List UInt8)
    (h : validateTypedLength ⟨type⟩ (be16 hi lo) = .ok ()) :
    nextFrame RawDecoder.anyLength capacity (type :: hi :: lo :: body) =
      nextFrame validateTypedLength capacity (type :: hi :: lo :: body) := by
  simp [nextFrame, h, RawDecoder.anyLength]

/-- At a header whose length is refused. -/
theorem verdict_of_invalid {type hi lo : UInt8} {body : List UInt8} {e : TypedMessageError}
    (h : validateTypedLength ⟨type⟩ (be16 hi lo) = .error e) :
    Verdict capacity (type :: hi :: lo :: body)
      ((strictFormat capacity).parse (type :: hi :: lo :: body))
      ((RawDecoder.typedFormat capacity).parse (type :: hi :: lo :: body)) := by
  have hstrict : (strictFormat capacity).next (type :: hi :: lo :: body) =
      .stop (.invalidLength e) body := by
    simp [strictFormat, typedFormat, typedNext, nextFrame, h]
  rw [Streaming.Format.parse_stop hstrict]
  by_cases hcap : capacity < be16 hi lo
  · have hraw : (RawDecoder.typedFormat capacity).next (type :: hi :: lo :: body) =
        .stop (.decode (.resourceLimit (be16 hi lo) capacity)) body := by
      simp [RawDecoder.typedFormat, typedFormat, typedNext, nextFrame, RawDecoder.anyLength, hcap]
    rw [Streaming.Format.parse_stop hraw]
    exact .lengthOversize h
  · by_cases hbody : body.length < be16 hi lo
    · have hraw : (RawDecoder.typedFormat capacity).next (type :: hi :: lo :: body) = .need := by
        simp [RawDecoder.typedFormat, typedFormat, typedNext, nextFrame, RawDecoder.anyLength,
          hcap, hbody]
      rw [Streaming.Format.parse_need hraw]
      exact .lengthWaiting h hbody
    · have htake : (body.take (be16 hi lo)).length = be16 hi lo := by
        rw [List.length_take]
        omega
      have htyped : RawEnvelope.typed ⟨⟨type⟩, body.take (be16 hi lo)⟩ = some (.error e) :=
        RawEnvelope.typed_of_invalid (by rw [htake]; exact h)
      have hraw : (RawDecoder.typedFormat capacity).next (type :: hi :: lo :: body) =
          .stop (.typed ⟨⟨type⟩, body.take (be16 hi lo)⟩ e) (body.drop (be16 hi lo)) := by
        simp [RawDecoder.typedFormat, typedFormat, typedNext, nextFrame, RawDecoder.anyLength,
          hcap, hbody, htyped]
      rw [Streaming.Format.parse_stop hraw]
      exact .lengthTyped h (Nat.le_of_not_lt hbody)

/-- At a header whose length is admitted, when no message can be read. -/
theorem verdict_of_valid {type hi lo : UInt8} {body : List UInt8}
    (h : validateTypedLength ⟨type⟩ (be16 hi lo) = .ok ())
    (hlast : ∀ message rest,
      (strictFormat capacity).next (type :: hi :: lo :: body) ≠ .message message rest) :
    Verdict capacity (type :: hi :: lo :: body)
      ((strictFormat capacity).parse (type :: hi :: lo :: body))
      ((RawDecoder.typedFormat capacity).parse (type :: hi :: lo :: body)) := by
  have hany := nextFrame_any_of_valid capacity body h
  cases hnext : nextFrame validateTypedLength capacity (type :: hi :: lo :: body) with
  | need =>
      have hstrict : (strictFormat capacity).next (type :: hi :: lo :: body) = .need :=
        typedNext_need_iff.mpr hnext
      have hraw : (RawDecoder.typedFormat capacity).next (type :: hi :: lo :: body) = .need :=
        typedNext_need_iff.mpr (hany.trans hnext)
      rw [Streaming.Format.parse_need hstrict, Streaming.Format.parse_need hraw]
      exact .waiting _
  | invalid e rest =>
      simp only [nextFrame, h] at hnext
      split_ifs at hnext
  | oversize required rest =>
      have hstrict : (strictFormat capacity).next (type :: hi :: lo :: body) =
          .stop (.resourceLimit required capacity) rest := by
        simp [strictFormat, typedFormat, typedNext, hnext]
      have hraw : (RawDecoder.typedFormat capacity).next (type :: hi :: lo :: body) =
          .stop (.decode (.resourceLimit required capacity)) rest := by
        simp [RawDecoder.typedFormat, typedFormat, typedNext, hany, hnext]
      rw [Streaming.Format.parse_stop hstrict, Streaming.Format.parse_stop hraw]
      simp only [nextFrame, h] at hnext
      split_ifs at hnext
      cases hnext
      exact .oversize type hi lo body h
  | frame raw rest =>
      obtain ⟨hwire, _⟩ := nextFrame_eq_wire hnext
      rcases typedNext_frame id (fun _ e ↦ DecodeError.invalidContent e) hnext with
        ⟨message, _, hstrict⟩ | ⟨e, htyped, hstrict⟩
      · exact absurd hstrict (hlast message rest)
      · have hraw : (RawDecoder.typedFormat capacity).next (type :: hi :: lo :: body) =
            .stop (.typed raw e) rest := by
          simp [RawDecoder.typedFormat, typedFormat, typedNext, hany, hnext, htyped]
        have hvalid : validateTypedLength raw.wireType raw.payload.length = .ok () := by
          simp only [nextFrame, h] at hnext
          split_ifs at hnext with hcap hbody
          cases hnext
          have htake : (body.take (be16 hi lo)).length = be16 hi lo := by
            rw [List.length_take]
            omega
          rw [htake]
          exact h
        rw [Streaming.Format.parse_stop hraw,
          Streaming.Format.parse_stop (F := strictFormat capacity) hstrict, hwire]
        exact .content rest hvalid htyped

theorem verdict_of_last {bytes : List UInt8}
    (hlast : ∀ message rest, (strictFormat capacity).next bytes ≠ .message message rest) :
    Verdict capacity bytes ((strictFormat capacity).parse bytes)
      ((RawDecoder.typedFormat capacity).parse bytes) := by
  match bytes, hlast with
  | [], _ | [_], _ | [_, _], _ =>
      rw [Streaming.Format.parse_need rfl, Streaming.Format.parse_need rfl]
      exact .waiting _
  | type :: hi :: lo :: body, hlast =>
      cases hvalid : validateTypedLength ⟨type⟩ (be16 hi lo) with
      | error e => exact verdict_of_invalid hvalid
      | ok _ => exact verdict_of_valid hvalid hlast

theorem typedFormat_message {bytes rest : List UInt8} {message : TypedMessage}
    (h : (strictFormat capacity).next bytes = .message message rest) :
    (RawDecoder.typedFormat capacity).next bytes = .message message rest := by
  obtain ⟨raw, hnext, htyped⟩ := typedNext_message.mp h
  refine typedNext_message.mpr ⟨raw, ?_, htyped⟩
  obtain ⟨rfl, hmax⟩ := nextFrame_eq_wire hnext
  exact nextFrame_wire hmax rfl (nextFrame_payload_le hnext) rest

/-- The bytes that the frames of `messages` occupy. -/
def wires (messages : List TypedMessage) : List UInt8 :=
  (messages.map fun message ↦ message.raw.wire).flatten

/-- Both decoders read the same messages up to the frame of the verdict. -/
theorem parse_verdict (capacity : ℕ) (bytes : List UInt8) :
    ∃ messages last strict pipeline, bytes = wires messages ++ last ∧
      (strictFormat capacity).parse bytes = strict.prepend messages ∧
      (RawDecoder.typedFormat capacity).parse bytes = pipeline.prepend messages ∧
      Verdict capacity last strict pipeline := by
  induction bytes using Streaming.Format.parse_induction (F := strictFormat capacity) with
  | message bytes message after hnext ih =>
      obtain ⟨messages, last, strict, pipeline, rfl, hstrict, hpipeline, hverdict⟩ := ih
      refine ⟨message :: messages, last, strict, pipeline, ?_, ?_, ?_, hverdict⟩
      · rw [(strictFormat_message hnext).1]
        simp [wires]
      · rw [Streaming.Format.parse_message hnext, hstrict, Streaming.Parsed.prepend_prepend]
        rfl
      · rw [Streaming.Format.parse_message (typedFormat_message hnext), hpipeline,
          Streaming.Parsed.prepend_prepend]
        rfl
  | stop bytes error after hnext =>
      exact ⟨[], bytes, _, _, rfl, rfl, rfl, verdict_of_last (by simp [hnext])⟩
  | need bytes hnext =>
      exact ⟨[], bytes, _, _, rfl, rfl, rfl, verdict_of_last (by simp [hnext])⟩

/-- How the run `D` of the strict decoder and the run `R` of the pipeline agree
on a stream. The frame at which either stops starts where the frames of the
emitted messages end. -/
structure AgreesWith (D : Streaming.Run Decoder DecodeError TypedMessage)
    (R : Streaming.Run RawDecoder PipelineError TypedMessage) (capacity : ℕ)
    (stream : List UInt8) : Prop where
  messages : D.messages = R.messages
  content : ∀ e, D.error = some (.invalidContent e) ↔
    ∃ raw, R.error = some (.typed raw e) ∧
      validateTypedLength raw.wireType raw.payload.length = .ok ()
  contentConsumed : ∀ e, D.error = some (.invalidContent e) →
    D.consumed = R.consumed ∧ e = .dtmfNotAscii
  length : ∀ e, D.error = some (.invalidLength e) →
    D.consumed = (wires D.messages).length + 3 ∧
      ((∃ raw, R.error = some (.typed raw e) ∧
          R.consumed = (wires D.messages).length + 3 + raw.payload.length) ∨
        (∃ required, R.error = some (.decode (.resourceLimit required capacity)) ∧
          R.consumed = (wires D.messages).length + 3) ∨
        R.error = none ∧ ∃ expected received, received < expected ∧
          R.state.finish = .error (.truncatedPayload expected received) ∧
          (wires D.messages).length + 3 + received = stream.length)
  resource : ∀ required available, D.error = some (.resourceLimit required available) ↔
    R.error = some (.decode (.resourceLimit required available)) ∧
      ∃ type, stream[(wires D.messages).length]? = some type ∧
        validateTypedLength ⟨type⟩ required = .ok ()
  finish : D.error = none → R.error = none → D.state.finish = R.state.finish
  failed : D.error ≠ none →
    (∀ input, D.state.feed input = some ⟨D.state, input, .error .failed⟩) ∧
      D.state.finish = .error .failed

section Runs

variable {D : Streaming.Run Decoder DecodeError TypedMessage}
  {R : Streaming.Run RawDecoder PipelineError TypedMessage}
  {messages : List TypedMessage} {last : List UInt8}
  {strict : Streaming.Parsed UInt8 DecodeError TypedMessage}
  {pipeline : Streaming.Parsed UInt8 PipelineError TypedMessage}

theorem failed_of_agrees {total : ℕ}
    (h : D.Agrees (Holds capacity) Failed total strict) (herror : D.error ≠ none) :
    (∀ input, D.state.feed input = some ⟨D.state, input, .error .failed⟩) ∧
      D.state.finish = .error .failed := by
  obtain ⟨_, hsame, hstate⟩ := h
  cases hstrict : strict.error with
  | none => exact absurd (hsame.trans hstrict) herror
  | some e =>
      rw [hstrict] at hstate
      exact ⟨feed_of_failed hstate.1, finish_of_failed hstate.1⟩

/-- Each verdict on the last frame makes the runs agree. -/
theorem Verdict.agreesWith (h : Verdict capacity last strict pipeline)
    (hD : D.Agrees (Holds capacity) Failed (wires messages ++ last).length
      (strict.prepend messages))
    (hR : R.Agrees (RawDecoder.Holds capacity) (fun _ ↦ True) (wires messages ++ last).length
      (pipeline.prepend messages)) :
    AgreesWith D R capacity (wires messages ++ last) := by
  have hfailed := failed_of_agrees hD
  obtain ⟨hDmessages, hDerror, hDstate⟩ := hD
  obtain ⟨hRmessages, hRerror, hRstate⟩ := hR
  rw [List.length_append] at hDstate hRstate
  cases h with
  | waiting =>
      simp only [Streaming.Parsed.prepend, List.append_nil] at *
      refine ⟨hDmessages.trans hRmessages.symm, by simp [hDerror, hRerror], by simp [hDerror],
        by simp [hDerror], by simp [hDerror, hRerror], ?_, hfailed⟩
      intro _ _
      rw [finish_of_holds hDstate.1, hRstate.1.2.finish]
  | content rest hvalid htyped =>
      simp only [Streaming.Parsed.prepend, List.append_nil] at *
      refine ⟨hDmessages.trans hRmessages.symm, ?_, ?_, by simp [hDerror],
        by simp [hDerror, hRerror], by simp [hDerror], hfailed⟩
      · intro e
        rw [hDerror, hRerror]
        constructor
        · intro heq
          cases heq
          exact ⟨_, rfl, hvalid⟩
        · rintro ⟨raw, heq, _⟩
          cases heq
          rfl
      · intro e heq
        rw [hDerror] at heq
        cases heq
        exact ⟨by omega, RawEnvelope.typed_error_of_valid hvalid htyped⟩
  | oversize type hi lo body hvalid =>
      simp only [Streaming.Parsed.prepend, List.append_nil] at *
      refine ⟨hDmessages.trans hRmessages.symm, by simp [hDerror, hRerror], by simp [hDerror],
        by simp [hDerror], ?_, by simp [hDerror], hfailed⟩
      intro required available
      rw [hDerror, hRerror, hDmessages]
      constructor
      · intro heq
        cases heq
        exact ⟨rfl, type, by simp, hvalid⟩
      · rintro ⟨heq, _⟩
        cases heq
        rfl
  | @lengthTyped type hi lo body e hinvalid hbody =>
      simp only [Streaming.Parsed.prepend, List.append_nil, List.length_cons,
        List.length_drop] at *
      have htake : (body.take (be16 hi lo)).length = be16 hi lo := by
        rw [List.length_take]
        omega
      refine ⟨hDmessages.trans hRmessages.symm, ?_, by simp [hDerror], ?_,
        by simp [hDerror, hRerror], by simp [hDerror], hfailed⟩
      · intro e'
        rw [hDerror, hRerror]
        simp only [Option.some.injEq, reduceCtorEq, false_iff, not_exists, not_and]
        intro raw heq
        cases heq
        rw [htake, hinvalid]
        simp
      · intro e' heq
        rw [hDerror] at heq
        cases heq
        rw [hDmessages]
        refine ⟨by omega, Or.inl ⟨_, hRerror, ?_⟩⟩
        rw [htake]
        omega
  | @lengthOversize type hi lo body e hinvalid =>
      simp only [Streaming.Parsed.prepend, List.append_nil, List.length_cons] at *
      refine ⟨hDmessages.trans hRmessages.symm, by simp [hDerror, hRerror], by simp [hDerror], ?_,
        ?_, by simp [hDerror], hfailed⟩
      · intro e' heq
        rw [hDerror] at heq
        cases heq
        rw [hDmessages]
        exact ⟨by omega, Or.inr (Or.inl ⟨_, hRerror, by omega⟩)⟩
      · intro required available
        rw [hDerror, hRerror, hDmessages]
        simp only [Option.some.injEq, reduceCtorEq, false_iff, not_and, not_exists]
        intro heq type' htype
        cases heq
        obtain rfl : type = type' := by simpa using htype
        rw [hinvalid]
        simp
  | @lengthWaiting type hi lo body e hinvalid hbody =>
      simp only [Streaming.Parsed.prepend, List.append_nil, List.length_cons] at *
      refine ⟨hDmessages.trans hRmessages.symm, by simp [hDerror, hRerror], by simp [hDerror], ?_,
        by simp [hDerror, hRerror], by simp [hDerror], hfailed⟩
      intro e' heq
      rw [hDerror] at heq
      cases heq
      rw [hDmessages]
      refine ⟨by omega, Or.inr (Or.inr ⟨hRerror, be16 hi lo, body.length, hbody, ?_, ?_⟩)⟩
      · rw [hRstate.1.2.finish]
        rfl
      · simp only [List.length_append, List.length_cons]
        omega

end Runs

/-- The strict decoder and the raw decoder followed by the typed conversion
agree, for every scratch, byte string and chunking. -/
theorem run_agrees_typedRun (scratch : List UInt8) (chunks : List (List UInt8)) :
    ∃ D R, (new scratch).run chunks = some D ∧
      (RawDecoder.new scratch).typedRun chunks = some R ∧
      AgreesWith D R scratch.length chunks.flatten := by
  obtain ⟨D, hD, hDagrees⟩ :=
    Streaming.drive_agrees (refines scratch.length) chunks (holds_new scratch)
  obtain ⟨R, hR, hRagrees⟩ := Streaming.drive_agrees (RawDecoder.typed_refines scratch.length)
    chunks (RawDecoder.holds_new scratch)
  obtain ⟨messages, last, strict, pipeline, hbytes, hstrict, hpipeline, hverdict⟩ :=
    parse_verdict scratch.length chunks.flatten
  rw [List.nil_append, hstrict, hbytes] at hDagrees
  rw [List.nil_append, hpipeline, hbytes] at hRagrees
  rw [hbytes]
  exact ⟨D, R, hD, hR, hverdict.agreesWith hDagrees hRagrees⟩

end Decoder

end Phonowire.AudioSocket
