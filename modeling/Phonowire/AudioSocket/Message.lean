import Mathlib.Algebra.Order.BigOperators.Group.List
import Mathlib.Tactic

/-!
# Wire values of the AudioSocket protocol

A frame is one type byte, a big-endian 16-bit length and that many body bytes.
This module holds the values both directions of the codec exchange: raw type
bytes with their documented classification, declared sample rates, typed
messages, and the strict conversion of a raw envelope.

A slice index out of range and a `copy_from_slice` of the wrong length panic in
the source. Functions that contain one return `Option`, with `none` for the
panic, so that its absence is a theorem about the caller.
-/

namespace Phonowire.AudioSocket

def headerBytes : ℕ := 3

def maxBodyBytes : ℕ := 65535

/-- `u16::from_be_bytes`. -/
def be16 (hi lo : UInt8) : ℕ := hi.toNat * 256 + lo.toNat

theorem be16_le (hi lo : UInt8) : be16 hi lo ≤ maxBodyBytes := by
  have hhi := hi.toNat_lt
  have hlo := lo.toNat_lt
  unfold be16 maxBodyBytes
  omega

theorem be16_injective {a b c d : UInt8} (h : be16 a b = be16 c d) : a = c ∧ b = d := by
  have hb := b.toNat_lt
  have hd := d.toNat_lt
  unfold be16 at h
  exact ⟨UInt8.toNat_inj.mp (by omega), UInt8.toNat_inj.mp (by omega)⟩

inductive TypedMessageError where
  | terminatePayload
  | uuidLength
  | dtmfLength
  | dtmfNotAscii
  | oddPcmLength
  | unknownTypeClassification
  deriving DecidableEq, Repr

inductive KnownWireType where
  | terminate
  | uuid
  | dtmf
  | pcm8Khz
  | pcm12Khz
  | pcm16Khz
  | pcm24Khz
  | pcm32Khz
  | pcm44Khz
  | pcm48Khz
  | pcm96Khz
  | pcm192Khz
  | error
  deriving DecidableEq, Repr

structure WireType where
  value : UInt8
  deriving DecidableEq, Repr

namespace WireType

def terminate : WireType := ⟨0x00⟩

def uuid : WireType := ⟨0x01⟩

def dtmf : WireType := ⟨0x03⟩

def error : WireType := ⟨0xff⟩

def known (t : WireType) : Option KnownWireType :=
  match t.value with
  | 0x00 => some .terminate
  | 0x01 => some .uuid
  | 0x03 => some .dtmf
  | 0x10 => some .pcm8Khz
  | 0x11 => some .pcm12Khz
  | 0x12 => some .pcm16Khz
  | 0x13 => some .pcm24Khz
  | 0x14 => some .pcm32Khz
  | 0x15 => some .pcm44Khz
  | 0x16 => some .pcm48Khz
  | 0x17 => some .pcm96Khz
  | 0x18 => some .pcm192Khz
  | 0xff => some .error
  | _ => none

end WireType

inductive SampleRate where
  | khz8
  | khz12
  | khz16
  | khz24
  | khz32
  | khz44_1
  | khz48
  | khz96
  | khz192
  deriving DecidableEq, Repr

def SampleRate.hertz : SampleRate → ℕ
  | .khz8 => 8000
  | .khz12 => 12000
  | .khz16 => 16000
  | .khz24 => 24000
  | .khz32 => 32000
  | .khz44_1 => 44100
  | .khz48 => 48000
  | .khz96 => 96000
  | .khz192 => 192000

/-- Sixteen protocol bytes. -/
structure Uuid where
  bytes : Vector UInt8 16
  deriving DecidableEq, Repr

structure Dtmf where
  value : UInt8
  deriving DecidableEq, Repr

def Dtmf.new (value : UInt8) : Except TypedMessageError Dtmf :=
  if value < 0x80 then .ok ⟨value⟩ else .error .dtmfNotAscii

/-- A PCM view. `AudioPayload::from_validated` builds it without a check, so
evenness and the length bound are facts about the values that occur. -/
structure AudioPayload where
  bytes : List UInt8
  deriving DecidableEq, Repr

structure OpaquePayload where
  bytes : List UInt8
  deriving DecidableEq, Repr

structure UnknownWireType where
  value : UInt8
  deriving DecidableEq, Repr

inductive TypedMessage where
  | terminate
  | uuid (uuid : Uuid)
  | dtmf (dtmf : Dtmf)
  | audio (rate : SampleRate) (payload : AudioPayload)
  | error (payload : OpaquePayload)
  | unknown (wireType : UnknownWireType) (payload : OpaquePayload)
  deriving DecidableEq, Repr

structure RawEnvelope where
  wireType : WireType
  payload : List UInt8
  deriving DecidableEq, Repr

def validateTypedLength (wireType : WireType) (length : ℕ) :
    Except TypedMessageError Unit :=
  if wireType.value = 0x00 ∧ length ≠ 0 then .error .terminatePayload
  else if wireType.value = 0x01 ∧ length ≠ 16 then .error .uuidLength
  else if wireType.value = 0x03 ∧ length ≠ 1 then .error .dtmfLength
  else if (0x10 ≤ wireType.value ∧ wireType.value ≤ 0x18) ∧ length % 2 ≠ 0 then
    .error .oddPcmLength
  else .ok ()

namespace RawEnvelope

/-- `copy_from_slice` into a sixteen-byte array. -/
def uuid (raw : RawEnvelope) : Option TypedMessage :=
  if h : raw.payload.length = 16 then
    some (.uuid ⟨⟨raw.payload.toArray, by simpa using h⟩⟩)
  else none

/-- The payload index `0` panics on an empty body. -/
def dtmf (raw : RawEnvelope) : Option (Except TypedMessageError TypedMessage) :=
  raw.payload.head?.map fun byte ↦ (Dtmf.new byte).map .dtmf

def audio (raw : RawEnvelope) (rate : SampleRate) : TypedMessage :=
  .audio rate ⟨raw.payload⟩

def unknown (raw : RawEnvelope) : TypedMessage :=
  .unknown ⟨raw.wireType.value⟩ ⟨raw.payload⟩

def typed (raw : RawEnvelope) : Option (Except TypedMessageError TypedMessage) :=
  match validateTypedLength raw.wireType raw.payload.length with
  | .error e => some (.error e)
  | .ok () =>
      match raw.wireType.known with
      | some .terminate => some (.ok .terminate)
      | some .uuid => raw.uuid.map .ok
      | some .dtmf => raw.dtmf
      | some .pcm8Khz => some (.ok (raw.audio .khz8))
      | some .pcm12Khz => some (.ok (raw.audio .khz12))
      | some .pcm16Khz => some (.ok (raw.audio .khz16))
      | some .pcm24Khz => some (.ok (raw.audio .khz24))
      | some .pcm32Khz => some (.ok (raw.audio .khz32))
      | some .pcm44Khz => some (.ok (raw.audio .khz44_1))
      | some .pcm48Khz => some (.ok (raw.audio .khz48))
      | some .pcm96Khz => some (.ok (raw.audio .khz96))
      | some .pcm192Khz => some (.ok (raw.audio .khz192))
      | some .error => some (.ok (.error ⟨raw.payload⟩))
      | none => some (.ok raw.unknown)

end RawEnvelope

/-- The assigned type byte. -/
def KnownWireType.value : KnownWireType → UInt8
  | .terminate => 0x00
  | .uuid => 0x01
  | .dtmf => 0x03
  | .pcm8Khz => 0x10
  | .pcm12Khz => 0x11
  | .pcm16Khz => 0x12
  | .pcm24Khz => 0x13
  | .pcm32Khz => 0x14
  | .pcm44Khz => 0x15
  | .pcm48Khz => 0x16
  | .pcm96Khz => 0x17
  | .pcm192Khz => 0x18
  | .error => 0xff

theorem WireType.known_value {t : WireType} {k : KnownWireType} (h : t.known = some k) :
    t.value = k.value := by
  unfold WireType.known at h
  split at h
  all_goals first | cases h; assumption | cases h

/-- The length check leaves no body on which a typed conversion would panic. -/
theorem RawEnvelope.typed_isSome (raw : RawEnvelope) : ∃ result, raw.typed = some result := by
  unfold RawEnvelope.typed
  cases hlength : validateTypedLength raw.wireType raw.payload.length with
  | error e => exact ⟨_, rfl⟩
  | ok _ =>
      cases hknown : raw.wireType.known with
      | none => exact ⟨_, rfl⟩
      | some known =>
          have hvalue := WireType.known_value hknown
          cases known with
          | uuid =>
              have hsize : raw.payload.length = 16 := by
                by_contra hne
                simp [validateTypedLength, hvalue, KnownWireType.value, hne] at hlength
              exact ⟨_, by simp [RawEnvelope.uuid, hsize]; rfl⟩
          | dtmf =>
              have hsize : raw.payload.length = 1 := by
                by_contra hne
                simp [validateTypedLength, hvalue, KnownWireType.value, hne] at hlength
              obtain ⟨byte, hbyte⟩ := List.length_eq_one_iff.mp hsize
              exact ⟨_, by simp [RawEnvelope.dtmf, hbyte]; rfl⟩
          | _ => exact ⟨_, rfl⟩

theorem validateTypedLength_pcm {t : WireType} {length : ℕ}
    (h : validateTypedLength t length = .ok ()) (hlow : 0x10 ≤ t.value) (hhigh : t.value ≤ 0x18) :
    length % 2 = 0 := by
  unfold validateTypedLength at h
  split_ifs at h with h1 h2 h3 h4
  by_contra hodd
  exact h4 ⟨⟨hlow, hhigh⟩, hodd⟩

theorem RawEnvelope.typed_audio {raw : RawEnvelope} {rate : SampleRate} {payload : AudioPayload}
    (h : raw.typed = some (.ok (.audio rate payload))) :
    payload.bytes = raw.payload ∧ raw.payload.length % 2 = 0 := by
  unfold RawEnvelope.typed at h
  cases hlength : validateTypedLength raw.wireType raw.payload.length with
  | error e => simp [hlength] at h
  | ok _ =>
      cases hknown : raw.wireType.known with
      | none => simp [hlength, hknown, RawEnvelope.unknown] at h
      | some known =>
          have hvalue := WireType.known_value hknown
          have heven := validateTypedLength_pcm hlength
          rw [hvalue] at heven
          simp only [hlength, hknown] at h
          cases known with
          | terminate | error => simp at h
          | uuid => simp [RawEnvelope.uuid] at h
          | dtmf =>
              cases hhead : raw.payload.head? with
              | none => simp [RawEnvelope.dtmf, hhead] at h
              | some byte =>
                  cases hnew : Dtmf.new byte <;>
                    simp [RawEnvelope.dtmf, hhead, hnew, Except.map] at h
          | _ =>
              simp only [RawEnvelope.audio, Option.some.injEq, Except.ok.injEq,
                TypedMessage.audio.injEq] at h
              exact ⟨by rw [← h.2], heven (by decide) (by decide)⟩

theorem RawEnvelope.typed_error {raw : RawEnvelope} {payload : OpaquePayload}
    (h : raw.typed = some (.ok (.error payload))) : payload.bytes = raw.payload := by
  unfold RawEnvelope.typed at h
  cases hlength : validateTypedLength raw.wireType raw.payload.length with
  | error e => simp [hlength] at h
  | ok _ =>
      cases hknown : raw.wireType.known with
      | none => simp [hlength, hknown, RawEnvelope.unknown] at h
      | some known =>
          simp only [hlength, hknown] at h
          cases known with
          | error =>
              simp only [Option.some.injEq, Except.ok.injEq, TypedMessage.error.injEq] at h
              rw [← h]
          | uuid => simp [RawEnvelope.uuid] at h
          | dtmf =>
              cases hhead : raw.payload.head? with
              | none => simp [RawEnvelope.dtmf, hhead] at h
              | some byte =>
                  cases hnew : Dtmf.new byte <;>
                    simp [RawEnvelope.dtmf, hhead, hnew, Except.map] at h
          | _ => simp [RawEnvelope.audio] at h

end Phonowire.AudioSocket
