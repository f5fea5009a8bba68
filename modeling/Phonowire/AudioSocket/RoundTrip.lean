import Phonowire.AudioSocket.Strict

/-!
# Encoding and decoding undo each other

Both directions hold for whole streams, every cutting of them and every
scratch. They rest on one frame: `nextFrame` reads an envelope off its wire
bytes and off no others.
-/

namespace Phonowire.AudioSocket

section OneFrame

variable {validateHeader : WireType → ℕ → Except TypedMessageError Unit} {capacity : ℕ}
  {raw : RawEnvelope}

theorem nextFrame_wire (hmax : raw.payload.length ≤ maxBodyBytes)
    (hvalid : validateHeader raw.wireType raw.payload.length = .ok ())
    (hcap : raw.payload.length ≤ capacity) (rest : List UInt8) :
    nextFrame validateHeader capacity (raw.wire ++ rest) = .frame raw rest := by
  have hbe := be16_of_toBeBytes hmax
  have hshort : ¬ (raw.payload ++ rest).length < raw.payload.length := by
    rw [List.length_append]
    omega
  simp only [RawEnvelope.wire, toBeBytes, List.cons_append, List.nil_append, nextFrame, hbe,
    hvalid, if_neg (Nat.not_lt.mpr hcap), if_neg hshort, List.take_left, List.drop_left]

theorem nextFrame_eq_wire {bytes rest : List UInt8}
    (h : nextFrame validateHeader capacity bytes = .frame raw rest) :
    bytes = raw.wire ++ rest ∧ raw.payload.length ≤ maxBodyBytes := by
  match bytes, h with
  | type :: hi :: lo :: body, h =>
      simp only [nextFrame] at h
      split at h
      · cases h
      · split_ifs at h with hcap hlen
        cases h
        have htake : (body.take (be16 hi lo)).length = be16 hi lo := by
          rw [List.length_take]
          omega
        refine ⟨?_, htake.le.trans (be16_le hi lo)⟩
        rw [RawEnvelope.wire, htake, toBeBytes_be16]
        simp

end OneFrame

/-! ## Decoding undoes encoding -/

theorem parseFrames_wires (capacity : ℕ) (envelopes : List RawEnvelope)
    (h : ∀ raw ∈ envelopes, raw.payload.length ≤ maxBodyBytes ∧ raw.payload.length ≤ capacity)
    (position : ℕ) :
    parseFrames capacity position (envelopes.map RawEnvelope.wire).flatten =
      ⟨envelopes, .tail []⟩ := by
  induction envelopes generalizing position with
  | nil => exact parseFrames_need rfl
  | cons raw envelopes ih =>
      obtain ⟨hmax, hcap⟩ := h raw List.mem_cons_self
      rw [List.map_cons, List.flatten_cons, parseFrames_frame (nextFrame_wire hmax rfl hcap _),
        ih fun other hother ↦ h other (List.mem_cons_of_mem _ hother)]
      rfl

theorem strictFormat_wire {capacity : ℕ} {message : TypedMessage} (h : message.Built)
    (hcap : message.raw.payload.length ≤ capacity) (rest : List UInt8) :
    (Decoder.strictFormat capacity).next (message.raw.wire ++ rest) = .message message rest := by
  obtain ⟨htyped, hmax⟩ := h.typed_raw
  exact typedNext_message.mpr
    ⟨message.raw, nextFrame_wire hmax (RawEnvelope.typed_length htyped) hcap rest, htyped⟩

theorem strictFormat_parse_wires {capacity : ℕ} (messages : List TypedMessage)
    (h : ∀ message ∈ messages, message.Built ∧ message.raw.payload.length ≤ capacity) :
    (Decoder.strictFormat capacity).parse
      (messages.map fun message ↦ message.raw.wire).flatten = ⟨messages, none, []⟩ := by
  induction messages with
  | nil => exact Streaming.Format.parse_need rfl
  | cons message messages ih =>
      obtain ⟨hbuilt, hcap⟩ := h message List.mem_cons_self
      rw [List.map_cons, List.flatten_cons,
        Streaming.Format.parse_message (strictFormat_wire hbuilt hcap _),
        ih fun other hother ↦ h other (List.mem_cons_of_mem _ hother)]
      rfl

theorem encode_writes {message : TypedMessage}
    (h : message.raw.payload.length ≤ maxBodyBytes) : Writes (encode message) message.raw.wire := by
  rw [encode_eq_encodeRaw]
  exact writeFrame_writes h

theorem forall₂_map_right {α β : Type} {R : α → β → Prop} {f : α → β} (l : List α)
    (h : ∀ a ∈ l, R a (f a)) : List.Forall₂ R l (l.map f) := by
  rw [List.forall₂_map_right_iff, List.forall₂_same]
  exact h

/-- Decoding undoes encoding on whole streams. The outputs of `encode` on
messages built by the checked constructors, however they are cut into chunks,
come back as those messages from every scratch that can hold their payloads,
and the stream is consumed and finished. The same holds of `encode_raw` and the
raw decoder on every envelope the constructor accepts. -/
theorem decoding_undoes_encoding (scratch : List UInt8) :
    (∀ messages : List TypedMessage,
      (∀ message ∈ messages, message.Built ∧
        message.raw.payload.length ≤ scratch.length) →
      ∃ frames, List.Forall₂ (fun message ↦ Writes (encode message)) messages frames ∧
        ∀ chunks : List (List UInt8), chunks.flatten = frames.flatten →
          ∃ run, (Decoder.new scratch).run chunks = some run ∧ run.messages = messages ∧
            run.consumed = chunks.flatten.length ∧ run.error = none ∧
            run.state.finish = .ok ()) ∧
    ∀ envelopes : List RawEnvelope,
      (∀ raw ∈ envelopes, RawEnvelope.new raw.wireType raw.payload = .ok raw ∧
        raw.payload.length ≤ scratch.length) →
      ∃ frames, List.Forall₂ (fun raw ↦ Writes (encodeRaw raw)) envelopes frames ∧
        ∀ chunks : List (List UInt8), chunks.flatten = frames.flatten →
          ∃ run, feedChunks (RawDecoder.new scratch) chunks = some run ∧
            run.frames = envelopes ∧ run.consumed = chunks.flatten.length ∧
            run.error = none ∧ run.decoder.finish = .ok () := by
  constructor
  · intro messages hmessages
    refine ⟨messages.map fun message ↦ message.raw.wire,
      forall₂_map_right messages fun message hmem ↦
        encode_writes (hmessages message hmem).1.typed_raw.2, ?_⟩
    intro chunks hchunks
    obtain ⟨run, hrun, hfound, herror, hstate⟩ :=
      Streaming.drive_agrees (Decoder.refines scratch.length) chunks (Decoder.holds_new scratch)
    rw [List.nil_append, hchunks, strictFormat_parse_wires messages hmessages] at hfound herror hstate
    obtain ⟨hholds, hconsumed⟩ := hstate
    exact ⟨run, hrun, hfound, hchunks ▸ hconsumed, herror, Decoder.finish_of_holds hholds⟩
  · intro envelopes henvelopes
    have hmax : ∀ raw ∈ envelopes, raw.payload.length ≤ maxBodyBytes := by
      intro raw hraw
      have hnew := (henvelopes raw hraw).1
      unfold RawEnvelope.new at hnew
      split_ifs at hnew with hlong
      exact Nat.le_of_not_lt hlong
    refine ⟨envelopes.map RawEnvelope.wire,
      forall₂_map_right envelopes fun raw hmem ↦ writeFrame_writes (hmax raw hmem), ?_⟩
    intro chunks hchunks
    obtain ⟨run, hrun, hframes, hfinish, hstop⟩ :=
      feedChunks_agrees chunks (RawDecoder.pending_new scratch) 0
    have hparse := parseFrames_wires scratch.length envelopes
      (fun raw hraw ↦ ⟨hmax raw hraw, (henvelopes raw hraw).2⟩) 0
    have hcap : (RawDecoder.new scratch).capacity = scratch.length := rfl
    rw [List.nil_append, hchunks, hcap, hparse] at hframes hfinish hstop
    exact ⟨run, hrun, hframes, hchunks ▸ hstop.2, hstop.1, hfinish⟩

theorem decoding_undoes_encoding_call :
    (∃ frames, List.Forall₂ (fun message ↦ Writes (encode message))
        [.uuid (.new (Vector.replicate 16 7)), .dtmf ⟨0x35⟩, .audio .khz16 ⟨[1, 2, 3, 4]⟩,
          .unknown ⟨0x42⟩ ⟨[9]⟩, .terminate] frames ∧
      ∀ chunks : List (List UInt8), chunks.flatten = frames.flatten →
        ∃ run, (Decoder.new (List.replicate 16 0)).run chunks = some run ∧
          run.messages = [.uuid (.new (Vector.replicate 16 7)), .dtmf ⟨0x35⟩,
            .audio .khz16 ⟨[1, 2, 3, 4]⟩, .unknown ⟨0x42⟩ ⟨[9]⟩, .terminate] ∧
          run.consumed = chunks.flatten.length ∧ run.error = none ∧
          run.state.finish = .ok ()) ∧
    ∃ frames, List.Forall₂ (fun raw ↦ Writes (encodeRaw raw)) [⟨.dtmf, [0xff, 0]⟩] frames ∧
      ∀ chunks : List (List UInt8), chunks.flatten = frames.flatten →
        ∃ run, feedChunks (RawDecoder.new (List.replicate 16 0)) chunks = some run ∧
          run.frames = [⟨.dtmf, [0xff, 0]⟩] ∧ run.consumed = chunks.flatten.length ∧
          run.error = none ∧ run.decoder.finish = .ok () := by
  obtain ⟨htyped, hraw⟩ := decoding_undoes_encoding (List.replicate 16 0)
  constructor
  · apply htyped
    intro message hmem
    simp only [List.mem_cons, List.not_mem_nil, or_false] at hmem
    rcases hmem with rfl | rfl | rfl | rfl | rfl
    · exact ⟨.uuid _, by decide⟩
    · exact ⟨@TypedMessage.Built.dtmf 0x35 _ rfl, by decide⟩
    · exact ⟨@TypedMessage.Built.audio _ [1, 2, 3, 4] _ rfl, by decide⟩
    · exact ⟨@TypedMessage.Built.unknown 0x42 [9] _ _ rfl rfl, by decide⟩
    · exact ⟨.terminate, by decide⟩
  · apply hraw
    intro raw hmem
    rw [List.mem_singleton.mp hmem]
    exact ⟨rfl, by decide⟩

/-! ## Encoding undoes decoding -/

theorem strictFormat_message {capacity : ℕ} {bytes rest : List UInt8} {message : TypedMessage}
    (h : (Decoder.strictFormat capacity).next bytes = .message message rest) :
    bytes = message.raw.wire ++ rest ∧ message.raw.payload.length ≤ maxBodyBytes := by
  obtain ⟨raw, hnext, htyped⟩ := typedNext_message.mp h
  rw [RawEnvelope.raw_of_typed htyped]
  exact nextFrame_eq_wire hnext

/-- The messages of a parse are written as a prefix of the stream, up to bytes
that start no further message. -/
theorem strictFormat_parse_eq_wires (capacity : ℕ) (bytes : List UInt8) :
    ∃ rest, bytes =
        (((Decoder.strictFormat capacity).parse bytes).messages.map
          fun message ↦ message.raw.wire).flatten ++ rest ∧
      (∀ message ∈ ((Decoder.strictFormat capacity).parse bytes).messages,
        message.raw.payload.length ≤ maxBodyBytes) ∧
      (∀ message after, (Decoder.strictFormat capacity).next rest ≠ .message message after) ∧
      (((Decoder.strictFormat capacity).parse bytes).error = none →
        ((Decoder.strictFormat capacity).parse bytes).rest = rest) := by
  induction bytes using Streaming.Format.parse_induction (F := Decoder.strictFormat capacity) with
  | message bytes message after hnext ih =>
      obtain ⟨rest, hbytes, hmax, hlast, hrest⟩ := ih
      obtain ⟨hwire, hle⟩ := strictFormat_message hnext
      rw [Streaming.Format.parse_message hnext]
      refine ⟨rest, ?_, ?_, hlast, hrest⟩
      · simp only [Streaming.Parsed.prepend, List.cons_append, List.nil_append, List.map_cons,
          List.flatten_cons, List.append_assoc]
        rw [← hbytes]
        exact hwire
      · intro other hother
        rcases List.mem_cons.mp hother with rfl | hmem
        · exact hle
        · exact hmax other hmem
  | stop bytes error after hnext =>
      rw [Streaming.Format.parse_stop hnext]
      exact ⟨bytes, rfl, by simp, by simp [hnext], by simp⟩
  | need bytes hnext =>
      rw [Streaming.Format.parse_need hnext]
      exact ⟨bytes, rfl, by simp, by simp [hnext], by simp⟩

theorem Stop.tail_of_finish {bytes : List UInt8} (h : (Stop.tail bytes).finish = .ok ()) :
    bytes = [] := by
  match bytes, h with
  | [], _ => rfl
  | [_], h | [_, _], h => simp [Stop.finish] at h
  | _ :: _ :: _ :: _, h => simp [Stop.finish] at h

/-- What the messages of a finished run are written as is the whole stream. -/
theorem flatten_of_finished {scratch : List UInt8} {chunks : List (List UInt8)}
    {run : Streaming.Run Decoder DecodeError TypedMessage}
    (hrun : (Decoder.new scratch).run chunks = some run) (herror : run.error = none)
    (hfinish : run.state.finish = .ok ()) :
    chunks.flatten = (run.messages.map fun message ↦ message.raw.wire).flatten := by
  obtain ⟨run', hrun', hmessages, herror', hstate⟩ :=
    Streaming.drive_agrees (Decoder.refines scratch.length) chunks (Decoder.holds_new scratch)
  obtain rfl : run' = run := Option.some.inj (hrun'.symm.trans hrun)
  rw [List.nil_append] at hmessages herror' hstate
  obtain ⟨rest, hbytes, _, _, hrest⟩ := strictFormat_parse_eq_wires scratch.length chunks.flatten
  have hnone := herror'.symm.trans herror
  rw [hnone] at hstate
  have hholds := hstate.1
  rw [hrest hnone] at hholds
  have htail := Stop.tail_of_finish ((Decoder.finish_of_holds hholds).symm.trans hfinish)
  rw [htail, List.append_nil] at hbytes
  rw [hmessages]
  exact hbytes

/-- Encoding undoes decoding on every accepted stream. For every byte string,
scratch and chunking, `encode` panics on no emitted message, and its outputs on
the emitted messages are exactly the bytes of their frames: a prefix of the
stream, after which no further message starts. If the run met no error and
finishes, they are the whole stream, so that two streams decoded to the same
complete sequence are the same. -/
theorem encoding_undoes_decoding (scratch : List UInt8) (chunks : List (List UInt8)) :
    ∃ run, (Decoder.new scratch).run chunks = some run ∧
      (∃ frames rest, List.Forall₂ (fun message ↦ Writes (encode message)) run.messages frames ∧
        chunks.flatten = frames.flatten ++ rest ∧
        (∀ message after,
          (Decoder.strictFormat scratch.length).next rest ≠ .message message after) ∧
        (run.error = none → run.state.finish = .ok () → chunks.flatten = frames.flatten)) ∧
      ∀ scratch' chunks' run', (Decoder.new scratch').run chunks' = some run' →
        run.error = none → run.state.finish = .ok () →
        run'.error = none → run'.state.finish = .ok () →
        run'.messages = run.messages → chunks'.flatten = chunks.flatten := by
  obtain ⟨run, hrun, hmessages, _, _⟩ :=
    Streaming.drive_agrees (Decoder.refines scratch.length) chunks (Decoder.holds_new scratch)
  rw [List.nil_append] at hmessages
  refine ⟨run, hrun, ?_, ?_⟩
  · obtain ⟨rest, hbytes, hmax, hlast, _⟩ :=
      strictFormat_parse_eq_wires scratch.length chunks.flatten
    rw [← hmessages] at hbytes hmax
    refine ⟨run.messages.map fun message ↦ message.raw.wire, rest,
      forall₂_map_right _ fun message hmem ↦ encode_writes (hmax message hmem), hbytes, hlast, ?_⟩
    intro herror hfinish
    exact flatten_of_finished hrun herror hfinish
  · intro scratch' chunks' run' hrun' herror hfinish herror' hfinish' hsame
    rw [flatten_of_finished hrun' herror' hfinish', flatten_of_finished hrun herror hfinish, hsame]

end Phonowire.AudioSocket
