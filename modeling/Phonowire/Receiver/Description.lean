import Phonowire.Receiver.Record

/-!
# The diagnostic line of a record

The recorder writes one line for every record it accepts. The texts are those of
the format strings and of the derived debug output in the source. The text of an
operating system error stands in the record as it is printed, with its quotes.
-/

namespace Phonowire.Receiver

open AudioSocket

/-- A record value in debug output: its name and its fields. -/
def debugFields (name : String) (fields : List (String × ℕ)) : String :=
  name ++ " \x7b " ++ ", ".intercalate (fields.map fun f ↦ f.1 ++ ": " ++ toString f.2) ++ " \x7d"

def debugBytes (byte : UInt8 → String) (bytes : List UInt8) : String :=
  "[" ++ ", ".intercalate (bytes.map byte) ++ "]"

def hexByte (byte : UInt8) : String :=
  String.ofList [(byte.toNat / 16).digitChar, (byte.toNat % 16).digitChar]

def debugInstant (at_ : Instant) : String :=
  debugFields "Instant" [("tv_sec", at_.seconds), ("tv_nsec", at_.nanoseconds)]

def debugRate : SampleRate → String
  | .khz8 => "Khz8"
  | .khz12 => "Khz12"
  | .khz16 => "Khz16"
  | .khz24 => "Khz24"
  | .khz32 => "Khz32"
  | .khz44_1 => "Khz44_1"
  | .khz48 => "Khz48"
  | .khz96 => "Khz96"
  | .khz192 => "Khz192"

def debugTyped : TypedMessageError → String
  | .terminatePayload => "TerminatePayload"
  | .uuidLength => "UuidLength"
  | .dtmfLength => "DtmfLength"
  | .dtmfNotAscii => "DtmfNotAscii"
  | .oddPcmLength => "OddPcmLength"
  | .unknownTypeClassification => "UnknownTypeClassification"

def debugDecode : DecodeError → String
  | .invalidLength e => "InvalidLength(" ++ debugTyped e ++ ")"
  | .resourceLimit required capacity =>
      debugFields "ResourceLimit" [("required", required), ("capacity", capacity)]
  | .invalidContent e => "InvalidContent(" ++ debugTyped e ++ ")"
  | .failed => "Failed"

def debugFinish : FinishError → String
  | .truncatedHeader expected received =>
      debugFields "TruncatedHeader" [("expected", expected), ("received", received)]
  | .truncatedPayload expected received =>
      debugFields "TruncatedPayload" [("expected", expected), ("received", received)]
  | .failed => "Failed"

def debugSession : IncomingSessionError → String
  | .missingUuid => "MissingUuid"
  | .duplicateUuid => "DuplicateUuid"
  | .unsupportedRate rate => "UnsupportedRate(" ++ debugRate rate ++ ")"
  | .unsupportedDigit digit => "UnsupportedDigit(Dtmf(" ++ toString digit.value.toNat ++ "))"
  | .unsupportedType wireType =>
      "UnsupportedType(UnknownWireType(" ++ toString wireType.value.toNat ++ "))"
  | .afterEnd => "AfterEnd"

def debugBudget : BudgetError → String
  | .tooLarge required capacity =>
      debugFields "TooLarge" [("required", required), ("capacity", capacity)]
  | .full required available =>
      debugFields "Full" [("required", required), ("available", available)]

def debugIdentity : Option Uuid → String
  | none => "None"
  | some uuid =>
      "Some(Uuid(" ++ debugBytes (fun byte ↦ toString byte.toNat) uuid.bytes.toList ++ "))"

/-- The debug form of an ASCII character. -/
def debugChar (byte : UInt8) : String :=
  let text :=
    if byte = 0x00 then "\\0"
    else if byte = 0x09 then "\\t"
    else if byte = 0x0a then "\\n"
    else if byte = 0x0d then "\\r"
    else if byte = 0x27 then "\\'"
    else if byte = 0x5c then "\\\\"
    else if byte < 0x20 ∨ byte = 0x7f then
      "\\u\x7b" ++ String.ofList (Nat.toDigits 16 byte.toNat) ++ "\x7d"
    else String.singleton (Char.ofNat byte.toNat)
  "'" ++ text ++ "'"

def endDescription : EndReason → String
  | .cleanEof => "clean-eof"
  | .terminate => "terminate"
  | .peerError bytes => "peer-error bytes=" ++ toString bytes.bytes.length
  | .invalidMessage e => "invalid-message detail=" ++ debugTyped e
  | .decode e => "decode detail=" ++ debugDecode e
  | .truncated e => "truncated detail=" ++ debugFinish e
  | .policy e => "policy detail=" ++ debugSession e
  | .transport e => "transport detail=" ++ e.text
  | .resourceRefused e => "resource-refused detail=" ++ debugBudget e
  | .offsetExhausted => "offset-exhausted"

def RecordKind.description : RecordKind → String
  | .connected peer => "connected peer=" ++ peer.text
  | .wire bytes => "wire bytes=" ++ toString bytes.bytes.length
  | .started uuid => "started uuid=" ++ debugBytes hexByte uuid.bytes.toList
  | .audio uuid rate bytes =>
      "audio uuid=" ++ debugBytes hexByte uuid.bytes.toList ++ " rate=" ++ debugRate rate ++
        " bytes=" ++ toString bytes.bytes.length
  | .dtmf uuid digit =>
      "dtmf uuid=" ++ debugBytes hexByte uuid.bytes.toList ++ " digit=" ++ debugChar digit.value
  | .ended uuid reason =>
      "ended uuid=" ++ debugIdentity uuid ++ " reason=" ++ endDescription reason

def Record.description (id : ConnectionId) (record : Record) : String :=
  "instance=" ++ toString id.instanceId ++ " connection=" ++ toString id.sequence ++
    " offset=" ++ toString record.offset ++ " observed=" ++ debugInstant record.observedAt ++ " " ++
    record.kind.description ++ "\n"

/-- The bytes of the line. -/
def Record.line (id : ConnectionId) (record : Record) : List UInt8 :=
  (record.description id).toUTF8.data.toList

theorem length_toUTF8 (s : String) : s.toUTF8.data.toList.length = s.utf8ByteSize := rfl

theorem utf8ByteSize_le_append (s t : String) : s.utf8ByteSize ≤ (s ++ t).utf8ByteSize := by
  rw [String.utf8ByteSize_append]
  exact Nat.le_add_right _ _

theorem Record.description_size (id : ConnectionId) (record : Record) :
    16 ≤ (record.description id).utf8ByteSize := by
  have hwords : 16 ≤ ("instance=" ++ toString id.instanceId ++ " connection=").utf8ByteSize := by
    rw [String.utf8ByteSize_append, String.utf8ByteSize_append]
    have hfirst : "instance=".utf8ByteSize = 9 := by decide
    have hsecond : " connection=".utf8ByteSize = 12 := by decide
    omega
  refine hwords.trans ?_
  unfold description
  generalize "instance=" ++ toString id.instanceId ++ " connection=" = words
  iterate 7 refine le_trans ?_ (utf8ByteSize_le_append _ _)
  exact utf8ByteSize_le_append _ _

/-- Every line is longer than the words it starts with. -/
theorem Record.line_length (id : ConnectionId) (record : Record) :
    16 ≤ (record.line id).length :=
  (record.description_size id).trans_eq (length_toUTF8 _).symm

attribute [irreducible] Record.line

end Phonowire.Receiver
