import Phonowire.AudioSocket.Encoder

/-!
# The documented grammar of a frame

The length rules, the table of documented types and the constructors of the
decoder are written apart from each other. Together they accept exactly one
grammar, and every value that they build is one that the checked constructors
build from the same bytes. So an encoding never meets a body that is too long.
-/

namespace Phonowire.AudioSocket

/-- A type byte that the protocol does not assign. -/
def Unassigned (type : UInt8) : Prop :=
  type ≠ 0x00 ∧ type ≠ 0x01 ∧ type ≠ 0x03 ∧ ¬ (0x10 ≤ type ∧ type ≤ 0x18) ∧ type ≠ 0xff

/-- The bodies that each type byte admits. -/
def Grammar (type : UInt8) (payload : List UInt8) : Prop :=
  type = 0x00 ∧ payload = [] ∨
    type = 0x01 ∧ payload.length = 16 ∨
    type = 0x03 ∧ (∃ byte, payload = [byte] ∧ byte < 0x80) ∨
    (0x10 ≤ type ∧ type ≤ 0x18) ∧ payload.length % 2 = 0 ∨
    type = 0xff ∨
    Unassigned type

/-- The error of a body outside the grammar. -/
def violation (type : UInt8) (payload : List UInt8) : TypedMessageError :=
  if type = 0x00 then .terminatePayload
  else if type = 0x01 then .uuidLength
  else if type = 0x03 then if payload.length = 1 then .dtmfNotAscii else .dtmfLength
  else .oddPcmLength

/-- Every value in the message is what its checked constructor makes of the
value's own bytes. -/
def TypedMessage.Accepted : TypedMessage → Prop
  | .terminate => True
  | .uuid u => Uuid.new u.bytes = u
  | .dtmf digit => Dtmf.new digit.value = .ok digit
  | .audio _ payload => AudioPayload.new payload.bytes = .ok payload
  | .error payload => OpaquePayload.new payload.bytes = .ok payload
  | .unknown wireType payload =>
      UnknownWireType.new wireType.value = .ok wireType ∧
        OpaquePayload.new payload.bytes = .ok payload

theorem TypedMessage.Accepted.built {message : TypedMessage} (h : message.Accepted) :
    message.Built := by
  cases message with
  | terminate => exact .terminate
  | uuid u => exact .uuid u.bytes
  | dtmf digit => exact .dtmf h
  | audio rate payload => exact .audio rate h
  | error payload => exact .error h
  | unknown wireType payload => exact .unknown h.1 h.2

/-! ## The table of types -/

theorem WireType.known_of_value (k : KnownWireType) : (WireType.mk k.value).known = some k := by
  cases k <;> rfl

theorem unassigned_iff (type : UInt8) : Unassigned type ↔ (WireType.mk type).known = none := by
  have hbyte : ∀ value : Fin 256,
      (UInt8.ofFin value ≠ 0x00 ∧ UInt8.ofFin value ≠ 0x01 ∧ UInt8.ofFin value ≠ 0x03 ∧
        ¬ (0x10 ≤ UInt8.ofFin value ∧ UInt8.ofFin value ≤ 0x18) ∧ UInt8.ofFin value ≠ 0xff) ↔
        (WireType.mk (.ofFin value)).known = none := by
    decide +kernel
  obtain ⟨⟨value⟩⟩ := type
  exact hbyte value

/-- The grammar of a documented type. -/
def KnownWireType.Admits (payload : List UInt8) : KnownWireType → Prop
  | .terminate => payload = []
  | .uuid => payload.length = 16
  | .dtmf => ∃ byte, payload = [byte] ∧ byte < 0x80
  | .error => True
  | _ => payload.length % 2 = 0

theorem grammar_known (k : KnownWireType) (payload : List UInt8) :
    Grammar k.value payload ↔ k.Admits payload := by
  cases k <;> simp [Grammar, Unassigned, KnownWireType.value, KnownWireType.Admits]

theorem grammar_unassigned {type : UInt8} (h : Unassigned type) (payload : List UInt8) :
    Grammar type payload :=
  Or.inr (Or.inr (Or.inr (Or.inr (Or.inr h))))

/-! ## The conversion -/

theorem typed_unassigned {type : UInt8} {payload : List UInt8} (h : Unassigned type) :
    RawEnvelope.typed ⟨⟨type⟩, payload⟩ = some (.ok (.unknown ⟨type⟩ ⟨payload⟩)) := by
  have hknown := (unassigned_iff type).mp h
  simp [RawEnvelope.typed, validateTypedLength_unknown hknown, hknown, RawEnvelope.unknown]

theorem validateTypedLength_value (k : KnownWireType) (length : ℕ) :
    validateTypedLength ⟨k.value⟩ length = .ok () ↔ k.LengthOk length :=
  validateTypedLength_known (WireType.known_of_value k) length

/-- A documented type converts its admitted bodies to accepted messages. -/
theorem typed_admitted {k : KnownWireType} {payload : List UInt8}
    (hlength : payload.length ≤ maxBodyBytes) (h : k.Admits payload) :
    ∃ message, RawEnvelope.typed ⟨⟨k.value⟩, payload⟩ = some (.ok message) ∧
      message.Accepted := by
  have hlong : ¬ maxBodyBytes < payload.length := hlength.not_gt
  have hopaque : OpaquePayload.new payload = .ok ⟨payload⟩ := if_neg hlong
  have hvalid := validateTypedLength_value k payload.length
  cases k with
  | terminate =>
      have hempty : payload = [] := h
      subst hempty
      exact ⟨.terminate, rfl, trivial⟩
  | uuid =>
      have hsize : payload.length = 16 := h
      have hok := (validateTypedLength_value .uuid 16).mpr rfl
      refine ⟨.uuid ⟨⟨payload.toArray, by simpa using hsize⟩⟩, ?_, rfl⟩
      unfold RawEnvelope.typed
      simp only [hok, WireType.known_of_value, RawEnvelope.uuid, hsize, dite_true, Option.map_some]
  | dtmf =>
      obtain ⟨byte, rfl, hascii⟩ := h
      have hnew : Dtmf.new byte = .ok ⟨byte⟩ := if_pos hascii
      refine ⟨.dtmf ⟨byte⟩, ?_, hnew⟩
      have hok := (validateTypedLength_value .dtmf 1).mpr rfl
      unfold RawEnvelope.typed
      simp only [List.length_singleton, hok, WireType.known_of_value, RawEnvelope.dtmf,
        List.head?_cons, Option.map_some, hnew]
      rfl
  | error =>
      refine ⟨.error ⟨payload⟩, ?_, hopaque⟩
      have hok := hvalid.mpr trivial
      unfold RawEnvelope.typed
      simp only [hok, WireType.known_of_value]
  | _ =>
      have heven : payload.length % 2 = 0 := h
      have haudio : AudioPayload.new payload = .ok ⟨payload⟩ := by
        simp [AudioPayload.new, hlong, heven]
      have hok := hvalid.mpr heven
      unfold RawEnvelope.typed
      simp only [hok, WireType.known_of_value]
      exact ⟨_, rfl, haudio⟩

/-- Any other body of a documented type is refused with the type's error. -/
theorem typed_refused {k : KnownWireType} {payload : List UInt8} (h : ¬ k.Admits payload) :
    RawEnvelope.typed ⟨⟨k.value⟩, payload⟩ = some (.error (violation k.value payload)) := by
  cases k with
  | terminate =>
      have hne : payload.length ≠ 0 := fun hzero ↦ h (List.length_eq_zero_iff.mp hzero)
      simp [RawEnvelope.typed, validateTypedLength, violation, KnownWireType.value, hne]
  | uuid =>
      have hne : payload.length ≠ 16 := h
      simp [RawEnvelope.typed, validateTypedLength, violation, KnownWireType.value, hne]
  | dtmf =>
      by_cases hone : payload.length = 1
      · obtain ⟨byte, rfl⟩ := List.length_eq_one_iff.mp hone
        have hascii : ¬ byte < 0x80 := fun hlt ↦ h ⟨byte, rfl, hlt⟩
        have hnew : Dtmf.new byte = .error .dtmfNotAscii := if_neg hascii
        have hok := (validateTypedLength_value .dtmf 1).mpr rfl
        unfold RawEnvelope.typed
        simp only [List.length_singleton, hok, WireType.known_of_value, RawEnvelope.dtmf,
          List.head?_cons, Option.map_some, hnew]
        rfl
      · simp [RawEnvelope.typed, validateTypedLength, violation, KnownWireType.value, hone]
  | error => exact absurd trivial h
  | _ =>
      have hodd : ¬ payload.length % 2 = 0 := h
      simp [RawEnvelope.typed, validateTypedLength, violation, KnownWireType.value, hodd]

/-- An envelope converts exactly when it is in the grammar. -/
theorem typed_of_grammar {type : UInt8} {payload : List UInt8}
    (hlength : payload.length ≤ maxBodyBytes) (h : Grammar type payload) :
    ∃ message, RawEnvelope.typed ⟨⟨type⟩, payload⟩ = some (.ok message) ∧
      message.Accepted := by
  cases hknown : (WireType.mk type).known with
  | none =>
      have hunassigned := (unassigned_iff type).mpr hknown
      refine ⟨_, typed_unassigned hunassigned, ?_, if_neg hlength.not_gt⟩
      simp [UnknownWireType.new, hknown]
  | some k =>
      obtain rfl : type = k.value := WireType.known_value hknown
      exact typed_admitted hlength ((grammar_known k payload).mp h)

theorem typed_of_not_grammar {type : UInt8} {payload : List UInt8} (h : ¬ Grammar type payload) :
    RawEnvelope.typed ⟨⟨type⟩, payload⟩ = some (.error (violation type payload)) := by
  cases hknown : (WireType.mk type).known with
  | none => exact absurd (grammar_unassigned ((unassigned_iff type).mpr hknown) payload) h
  | some k =>
      obtain rfl : type = k.value := WireType.known_value hknown
      exact typed_refused fun hadmits ↦ h ((grammar_known k payload).mpr hadmits)

/-- The message comes out of the decoder or out of the checked constructors. -/
def TypedMessage.Occurs (message : TypedMessage) : Prop :=
  message.Built ∨ ∃ type payload, payload.length ≤ maxBodyBytes ∧
    RawEnvelope.typed ⟨⟨type⟩, payload⟩ = some (.ok message)

theorem TypedMessage.Occurs.length_le {message : TypedMessage} (h : message.Occurs) :
    message.raw.payload.length ≤ maxBodyBytes := by
  rcases h with hbuilt | ⟨type, payload, hlength, htyped⟩
  · exact hbuilt.typed_raw.2
  · rw [RawEnvelope.raw_of_typed htyped]
    exact hlength

/-- The conversion accepts exactly the documented grammar, with values that the
checked constructors accept for the same bytes, and gives the matching error
otherwise. An encoding writes one frame of the body's length behind three bytes,
or leaves a destination that is too short as it is. -/
theorem typed_conversion_exact :
    (∀ (type : UInt8) (payload : List UInt8), payload.length ≤ maxBodyBytes →
      (Grammar type payload → ∃ message,
        RawEnvelope.typed ⟨⟨type⟩, payload⟩ = some (.ok message) ∧ message.Accepted ∧
          message.raw = ⟨⟨type⟩, payload⟩) ∧
      (¬ Grammar type payload →
        RawEnvelope.typed ⟨⟨type⟩, payload⟩ = some (.error (violation type payload)))) ∧
    ∀ message : TypedMessage, message.Occurs → ∃ frame : List UInt8,
      frame.length = 3 + message.raw.payload.length ∧
        ∀ destination : List UInt8, encode message destination =
          if destination.length < 3 + message.raw.payload.length then
            some ⟨destination,
              .error (.outputTooShort (3 + message.raw.payload.length) destination.length)⟩
          else
            some ⟨frame ++ destination.drop (3 + message.raw.payload.length),
              .ok (3 + message.raw.payload.length)⟩ := by
  refine ⟨?_, ?_⟩
  · intro type payload hlength
    refine ⟨fun h ↦ ?_, typed_of_not_grammar⟩
    obtain ⟨message, htyped, haccepted⟩ := typed_of_grammar hlength h
    exact ⟨message, htyped, haccepted, RawEnvelope.raw_of_typed htyped⟩
  · intro message hoccurs
    refine ⟨message.raw.wire, message.raw.wire_length, ?_⟩
    intro destination
    rw [encode_eq_encodeRaw, writeFrame_writes hoccurs.length_le, RawEnvelope.wire_length]
    rfl

/-- A digit outside ASCII is refused, and a frame of an unassigned type leaves the
rest of its destination alone. -/
theorem typed_conversion_exact_cases :
    RawEnvelope.typed ⟨⟨0x03⟩, [0x80]⟩ = some (.error .dtmfNotAscii) ∧
      ∃ frame : List UInt8, frame.length = 4 ∧
        encode (.unknown ⟨0x42⟩ ⟨[9]⟩) [1, 1, 1, 1, 7] = some ⟨frame ++ [7], .ok 4⟩ := by
  obtain ⟨hconverts, hencodes⟩ := typed_conversion_exact
  refine ⟨(hconverts 0x03 [0x80] (by decide)).2 ?_, ?_⟩
  · rw [show (0x03 : UInt8) = KnownWireType.dtmf.value from rfl, grammar_known]
    rintro ⟨byte, hbyte, hascii⟩
    cases hbyte
    exact absurd hascii (by decide)
  · obtain ⟨frame, hframe, hwrites⟩ := hencodes (.unknown ⟨0x42⟩ ⟨[9]⟩)
      (Or.inl (@TypedMessage.Built.unknown 0x42 [9] _ _ rfl rfl))
    exact ⟨frame, hframe, hwrites [1, 1, 1, 1, 7]⟩

end Phonowire.AudioSocket
