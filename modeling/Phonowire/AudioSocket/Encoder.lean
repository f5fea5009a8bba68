import Phonowire.AudioSocket.Message

/-!
# Bounded encoding

The encoder writes one frame into a caller-owned destination. Typed messages
reach it through the checked constructors, or through the decoder, whose
internal constructors check nothing. The envelope a message is written as,
`TypedMessage.raw`, converts back to a message built by the constructors, and
an envelope that converts to a message is the one that message is written as.
-/

namespace Phonowire.AudioSocket

/-! ## Checked constructors -/

inductive RawEnvelopeError where
  | payloadTooLong
  deriving DecidableEq, Repr

inductive AudioPayloadError where
  | oddLength
  | payloadTooLong
  deriving DecidableEq, Repr

inductive UnknownWireTypeError where
  | knownType
  deriving DecidableEq, Repr

def Uuid.new (bytes : Vector UInt8 16) : Uuid := ⟨bytes⟩

def AudioPayload.new (bytes : List UInt8) : Except AudioPayloadError AudioPayload :=
  if maxBodyBytes < bytes.length then .error .payloadTooLong
  else if bytes.length % 2 ≠ 0 then .error .oddLength
  else .ok ⟨bytes⟩

def OpaquePayload.new (bytes : List UInt8) : Except RawEnvelopeError OpaquePayload :=
  if maxBodyBytes < bytes.length then .error .payloadTooLong else .ok ⟨bytes⟩

def UnknownWireType.new (value : UInt8) : Except UnknownWireTypeError UnknownWireType :=
  if (WireType.mk value).known.isSome then .error .knownType else .ok ⟨value⟩

def RawEnvelope.new (wireType : WireType) (payload : List UInt8) :
    Except RawEnvelopeError RawEnvelope :=
  if maxBodyBytes < payload.length then .error .payloadTooLong else .ok ⟨wireType, payload⟩

/-- Every part of the message is a result of its checked constructor. -/
inductive TypedMessage.Built : TypedMessage → Prop
  | terminate : Built .terminate
  | uuid (bytes : Vector UInt8 16) : Built (.uuid (.new bytes))
  | dtmf {value : UInt8} {digit : Dtmf} (h : Dtmf.new value = .ok digit) : Built (.dtmf digit)
  | audio (rate : SampleRate) {bytes : List UInt8} {payload : AudioPayload}
      (h : AudioPayload.new bytes = .ok payload) : Built (.audio rate payload)
  | error {bytes : List UInt8} {payload : OpaquePayload}
      (h : OpaquePayload.new bytes = .ok payload) : Built (.error payload)
  | unknown {value : UInt8} {bytes : List UInt8} {wireType : UnknownWireType}
      {payload : OpaquePayload} (htype : UnknownWireType.new value = .ok wireType)
      (hpayload : OpaquePayload.new bytes = .ok payload) : Built (.unknown wireType payload)

/-! ## Writing a frame -/

inductive EncodeError where
  | outputTooShort (required available : ℕ)
  deriving DecidableEq, Repr

/-- What an encoding leaves behind. -/
structure Encoded where
  destination : List UInt8
  result : Except EncodeError ℕ

/-- `destination[lo..hi].copy_from_slice(bytes)`, which panics on an invalid
range and on a length that differs. -/
def copyFromSlice (destination : List UInt8) (lo hi : ℕ) (bytes : List UInt8) :
    Option (List UInt8) :=
  if lo ≤ hi ∧ hi ≤ destination.length ∧ bytes.length = hi - lo then
    some (destination.take lo ++ bytes ++ destination.drop hi)
  else none

/-- `u16::to_be_bytes`. -/
def toBeBytes (n : ℕ) : List UInt8 := [UInt8.ofNat (n / 256), UInt8.ofNat (n % 256)]

/-- The conversion of the payload length to `u16` panics above its range. -/
def writeFrame (wireType : WireType) (payload destination : List UInt8) : Option Encoded := do
  if maxBodyBytes < payload.length then none
  let required := headerBytes + payload.length
  if destination.length < required then
    return ⟨destination, .error (.outputTooShort required destination.length)⟩
  let destination ← copyFromSlice destination 0 1 [wireType.value]
  let destination ← copyFromSlice destination 1 headerBytes (toBeBytes payload.length)
  let destination ← copyFromSlice destination headerBytes required payload
  return ⟨destination, .ok required⟩

def SampleRate.wireType : SampleRate → WireType
  | .khz8 => ⟨0x10⟩
  | .khz12 => ⟨0x11⟩
  | .khz16 => ⟨0x12⟩
  | .khz24 => ⟨0x13⟩
  | .khz32 => ⟨0x14⟩
  | .khz44_1 => ⟨0x15⟩
  | .khz48 => ⟨0x16⟩
  | .khz96 => ⟨0x17⟩
  | .khz192 => ⟨0x18⟩

def encode (message : TypedMessage) (destination : List UInt8) : Option Encoded :=
  match message with
  | .terminate => writeFrame .terminate [] destination
  | .uuid uuid => writeFrame .uuid uuid.bytes.toList destination
  | .dtmf dtmf => writeFrame .dtmf [dtmf.value] destination
  | .audio rate payload => writeFrame rate.wireType payload.bytes destination
  | .error payload => writeFrame .error payload.bytes destination
  | .unknown wireType payload => writeFrame ⟨wireType.value⟩ payload.bytes destination

def encodeRaw (raw : RawEnvelope) (destination : List UInt8) : Option Encoded :=
  writeFrame raw.wireType raw.payload destination

/-! ## One frame -/

/-- The bytes of the frame that carries an envelope. -/
def RawEnvelope.wire (raw : RawEnvelope) : List UInt8 :=
  raw.wireType.value :: toBeBytes raw.payload.length ++ raw.payload

/-- An encoder writes `bytes` at the start of every destination that can hold
them and leaves a shorter one as it is. -/
def Writes (encoder : List UInt8 → Option Encoded) (bytes : List UInt8) : Prop :=
  ∀ destination, encoder destination =
    if destination.length < bytes.length then
      some ⟨destination, .error (.outputTooShort bytes.length destination.length)⟩
    else some ⟨bytes ++ destination.drop bytes.length, .ok bytes.length⟩

theorem RawEnvelope.wire_length (raw : RawEnvelope) :
    raw.wire.length = headerBytes + raw.payload.length := by
  simp only [wire, toBeBytes, List.cons_append, List.nil_append, List.length_cons, headerBytes]
  omega

theorem writeFrame_writes {raw : RawEnvelope} (h : raw.payload.length ≤ maxBodyBytes) :
    Writes (encodeRaw raw) raw.wire := by
  intro destination
  rw [RawEnvelope.wire_length]
  have hlong : ¬ maxBodyBytes < raw.payload.length := by omega
  by_cases hshort : destination.length < headerBytes + raw.payload.length
  · simp [encodeRaw, writeFrame, hlong, hshort]
  · rw [if_neg hshort]
    match destination, hshort with
    | [], hshort | [_], hshort | [_, _], hshort =>
        simp only [List.length_cons, List.length_nil, headerBytes] at hshort
        omega
    | a :: b :: c :: rest, hshort =>
        have hrest : raw.payload.length ≤ rest.length := by
          simp only [List.length_cons, headerBytes] at hshort
          omega
        have hhigh : 3 + raw.payload.length ≤ rest.length + 1 + 1 + 1 := by omega
        have hdrop (x y z : UInt8) : (x :: y :: z :: rest).drop (3 + raw.payload.length) =
            rest.drop raw.payload.length := by
          rw [Nat.add_comm]
          rfl
        simp [encodeRaw, writeFrame, copyFromSlice, RawEnvelope.wire, toBeBytes, headerBytes,
          hlong, hhigh, hdrop]

theorem toBeBytes_be16 (hi lo : UInt8) : toBeBytes (be16 hi lo) = [hi, lo] := by
  have hhi := hi.toNat_lt
  have hlo := lo.toNat_lt
  have hdiv : be16 hi lo / 256 = hi.toNat := by
    unfold be16
    omega
  have hmod : be16 hi lo % 256 = lo.toNat := by
    unfold be16
    omega
  simp [toBeBytes, hdiv, hmod]

theorem be16_of_toBeBytes {n : ℕ} (h : n ≤ maxBodyBytes) :
    be16 (UInt8.ofNat (n / 256)) (UInt8.ofNat (n % 256)) = n := by
  unfold maxBodyBytes at h
  unfold be16
  rw [UInt8.toNat_ofNat_of_lt' (by simp [UInt8.size]; omega),
    UInt8.toNat_ofNat_of_lt' (by simp [UInt8.size]; omega)]
  omega

/-! ## Messages and their envelopes -/

/-- The envelope a message is written as. -/
def TypedMessage.raw : TypedMessage → RawEnvelope
  | .terminate => ⟨.terminate, []⟩
  | .uuid u => ⟨.uuid, u.bytes.toList⟩
  | .dtmf digit => ⟨.dtmf, [digit.value]⟩
  | .audio rate payload => ⟨rate.wireType, payload.bytes⟩
  | .error payload => ⟨.error, payload.bytes⟩
  | .unknown wireType payload => ⟨⟨wireType.value⟩, payload.bytes⟩

theorem encode_eq_encodeRaw (message : TypedMessage) :
    encode message = encodeRaw message.raw := by
  cases message <;> rfl

/-- The length rule of the documented types. -/
def KnownWireType.LengthOk (length : ℕ) : KnownWireType → Prop
  | .terminate => length = 0
  | .uuid => length = 16
  | .dtmf => length = 1
  | .error => True
  | _ => length % 2 = 0

theorem validateTypedLength_known {t : WireType} {k : KnownWireType} (h : t.known = some k)
    (length : ℕ) : validateTypedLength t length = .ok () ↔ k.LengthOk length := by
  have hvalue := WireType.known_value h
  cases k <;>
    simp [validateTypedLength, hvalue, KnownWireType.value, KnownWireType.LengthOk]

theorem validateTypedLength_unknown {t : WireType} (h : t.known = none) (length : ℕ) :
    validateTypedLength t length = .ok () := by
  have hbyte : ∀ value : Fin 256, (WireType.mk (.ofFin value)).known = none →
      UInt8.ofFin value ≠ 0x00 ∧ UInt8.ofFin value ≠ 0x01 ∧ UInt8.ofFin value ≠ 0x03 ∧
        ¬ (0x10 ≤ UInt8.ofFin value ∧ UInt8.ofFin value ≤ 0x18) := by
    decide +kernel
  obtain ⟨⟨⟨value⟩⟩⟩ := t
  obtain ⟨h0, h1, h3, hpcm⟩ := hbyte value h
  simp only [validateTypedLength]
  rw [if_neg fun hc ↦ h0 hc.1, if_neg fun hc ↦ h1 hc.1, if_neg fun hc ↦ h3 hc.1,
    if_neg fun hc ↦ hpcm hc.1]

/-- A conversion that succeeds passed the length check. -/
theorem RawEnvelope.typed_length {raw : RawEnvelope} {message : TypedMessage}
    (h : raw.typed = some (.ok message)) :
    validateTypedLength raw.wireType raw.payload.length = .ok () := by
  unfold RawEnvelope.typed at h
  cases hlength : validateTypedLength raw.wireType raw.payload.length with
  | error e => simp [hlength] at h
  | ok _ => rfl

/-- An envelope that converts to a message is the one the message is written
as. -/
theorem RawEnvelope.raw_of_typed {raw : RawEnvelope} {message : TypedMessage}
    (h : raw.typed = some (.ok message)) : message.raw = raw := by
  have hlength := typed_length h
  obtain ⟨⟨value⟩, payload⟩ := raw
  unfold RawEnvelope.typed at h
  simp only [hlength] at h
  cases hknown : (WireType.mk value).known with
  | none =>
      simp only [hknown, Option.some.injEq, Except.ok.injEq] at h
      rw [← h]
      rfl
  | some known =>
      have hvalue : value = known.value := WireType.known_value hknown
      have hok := (validateTypedLength_known hknown _).mp hlength
      subst hvalue
      simp only [hknown] at h
      cases known with
      | terminate =>
          cases h
          obtain rfl : payload = [] := List.length_eq_zero_iff.mp hok
          rfl
      | uuid =>
          have hsize : payload.length = 16 := hok
          simp only [RawEnvelope.uuid, hsize, dite_true, Option.map_some, Option.some.injEq,
            Except.ok.injEq] at h
          rw [← h]
          rfl
      | dtmf =>
          obtain ⟨byte, rfl⟩ := List.length_eq_one_iff.mp hok
          by_cases hascii : byte < 0x80
          · simp only [RawEnvelope.dtmf, List.head?_cons, Option.map_some, Dtmf.new, hascii,
              if_true, Except.map, Option.some.injEq, Except.ok.injEq] at h
            rw [← h]
            rfl
          · simp [RawEnvelope.dtmf, Dtmf.new, hascii, Except.map] at h
      | _ =>
          cases h
          rfl

theorem SampleRate.wireType_known (rate : SampleRate) : ∃ k, rate.wireType.known = some k ∧
    (∀ length, k.LengthOk length ↔ length % 2 = 0) ∧
    ∀ payload, validateTypedLength rate.wireType payload.length = .ok () →
      RawEnvelope.typed ⟨rate.wireType, payload⟩ = some (.ok (.audio rate ⟨payload⟩)) := by
  cases rate <;>
    exact ⟨_, rfl, fun _ ↦ Iff.rfl, fun payload h ↦ by
      simp only [RawEnvelope.typed, h]
      rfl⟩

/-- A built message is what its envelope converts to. -/
theorem TypedMessage.Built.typed_raw {message : TypedMessage} (h : message.Built) :
    message.raw.typed = some (.ok message) ∧
      message.raw.payload.length ≤ maxBodyBytes := by
  cases h with
  | terminate => exact ⟨rfl, Nat.zero_le _⟩
  | uuid bytes =>
      refine ⟨?_, by simp [TypedMessage.raw, maxBodyBytes]⟩
      simp [TypedMessage.raw, RawEnvelope.typed, validateTypedLength, WireType.uuid,
        WireType.known, RawEnvelope.uuid, Uuid.new]
      rfl
  | @dtmf value digit h =>
      unfold Dtmf.new at h
      split_ifs at h with hascii
      cases h
      refine ⟨?_, by simp [TypedMessage.raw, maxBodyBytes]⟩
      simp [TypedMessage.raw, RawEnvelope.typed, validateTypedLength, WireType.dtmf,
        WireType.known, RawEnvelope.dtmf, Dtmf.new, hascii, Except.map]
  | @audio rate bytes payload h =>
      unfold AudioPayload.new at h
      split_ifs at h with hlong hodd
      cases h
      obtain ⟨k, hknown, hok, htyped⟩ := rate.wireType_known
      refine ⟨htyped bytes ?_, Nat.le_of_not_lt hlong⟩
      exact (validateTypedLength_known hknown _).mpr ((hok _).mpr (not_not.mp hodd))
  | @error bytes payload h =>
      unfold OpaquePayload.new at h
      split_ifs at h with hlong
      cases h
      exact ⟨rfl, Nat.le_of_not_lt hlong⟩
  | @unknown value bytes wireType payload htype hpayload =>
      unfold UnknownWireType.new at htype
      unfold OpaquePayload.new at hpayload
      split_ifs at htype hpayload with hsome hlong
      cases htype
      cases hpayload
      have hknown : (WireType.mk value).known = none := by simpa using hsome
      refine ⟨?_, Nat.le_of_not_lt hlong⟩
      simp [TypedMessage.raw, RawEnvelope.typed, validateTypedLength_unknown hknown, hknown,
        RawEnvelope.unknown]

end Phonowire.AudioSocket
