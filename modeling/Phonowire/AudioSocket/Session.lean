import Phonowire.AudioSocket.Message

/-!
# Incoming session policy

The policy takes already typed messages. It has one identity, established by
the first UUID, and one end; every branch that rejects moves to the absorbing
state itself.
-/

namespace Phonowire.AudioSocket

inductive SessionEnd where
  | terminate
  | peerError (payload : OpaquePayload)
  | endOfInput
  deriving DecidableEq, Repr

def rateBit : SampleRate → UInt16
  | .khz8 => (1 : UInt16) <<< 0
  | .khz12 => (1 : UInt16) <<< 1
  | .khz16 => (1 : UInt16) <<< 2
  | .khz24 => (1 : UInt16) <<< 3
  | .khz32 => (1 : UInt16) <<< 4
  | .khz44_1 => (1 : UInt16) <<< 5
  | .khz48 => (1 : UInt16) <<< 6
  | .khz96 => (1 : UInt16) <<< 7
  | .khz192 => (1 : UInt16) <<< 8

structure IncomingProfile where
  acceptedRates : UInt16
  deriving DecidableEq, Repr

namespace IncomingProfile

def allKnownRates : IncomingProfile := ⟨((1 : UInt16) <<< 9) - 1⟩

def fromRates (rates : List SampleRate) : IncomingProfile :=
  ⟨rates.foldl (fun accepted rate ↦ accepted ||| rateBit rate) 0⟩

def accepts (profile : IncomingProfile) (rate : SampleRate) : Bool :=
  profile.acceptedRates &&& rateBit rate != 0

theorem accepts_fromRates_singleton (selected rate : SampleRate) :
    (fromRates [selected]).accepts rate = true ↔ rate = selected := by
  cases selected <;> cases rate <;> decide

end IncomingProfile

inductive IncomingEvent where
  | started (uuid : Uuid)
  | audio (uuid : Uuid) (rate : SampleRate) (payload : AudioPayload)
  | dtmf (uuid : Uuid) (digit : Dtmf)
  | ended (uuid : Option Uuid) (reason : SessionEnd)
  deriving DecidableEq, Repr

inductive IncomingSessionError where
  | missingUuid
  | duplicateUuid
  | unsupportedRate (rate : SampleRate)
  | unsupportedDigit (digit : Dtmf)
  | unsupportedType (wireType : UnknownWireType)
  | afterEnd
  deriving DecidableEq, Repr

inductive SessionState where
  | awaitingUuid
  | active (uuid : Uuid)
  | ended
  deriving DecidableEq, Repr

structure IncomingSession where
  state : SessionState
  profile : IncomingProfile
  deriving DecidableEq, Repr

/-- The byte is one of `0`–`9`, `*`, `#`, `A`–`D`. -/
def supportedDigit (digit : Dtmf) : Bool :=
  (0x30 ≤ digit.value && digit.value ≤ 0x39) || digit.value == 0x2a ||
    digit.value == 0x23 || (0x41 ≤ digit.value && digit.value ≤ 0x44)

namespace IncomingSession

abbrev Reply := Except IncomingSessionError IncomingEvent

def withProfile (profile : IncomingProfile) : IncomingSession := ⟨.awaitingUuid, profile⟩

def identity (s : IncomingSession) : Option Uuid :=
  match s.state with
  | .awaitingUuid | .ended => none
  | .active uuid => some uuid

theorem identity_of_ended {s : IncomingSession} (h : s.state = .ended) : s.identity = none := by
  simp [identity, h]

theorem identity_of_active {s : IncomingSession} {u : Uuid} (h : s.state = .active u) :
    s.identity = some u := by
  simp [identity, h]

def endWith (s : IncomingSession) (reason : SessionEnd) : IncomingSession × IncomingEvent :=
  ({ s with state := .ended }, .ended s.identity reason)

def reject (s : IncomingSession) (error : IncomingSessionError) : IncomingSession × Reply :=
  ({ s with state := .ended }, .error error)

def uuid (s : IncomingSession) (uuid : Uuid) : IncomingSession × Reply :=
  match s.state with
  | .awaitingUuid => ({ s with state := .active uuid }, .ok (.started uuid))
  | .active _ => s.reject .duplicateUuid
  | .ended => (s, .error .afterEnd)

def audio (s : IncomingSession) (rate : SampleRate) (payload : AudioPayload) :
    IncomingSession × Reply :=
  match s.state with
  | .awaitingUuid => s.reject .missingUuid
  | .ended => (s, .error .afterEnd)
  | .active uuid =>
      if s.profile.accepts rate then (s, .ok (.audio uuid rate payload))
      else s.reject (.unsupportedRate rate)

def dtmf (s : IncomingSession) (digit : Dtmf) : IncomingSession × Reply :=
  match s.state with
  | .awaitingUuid => s.reject .missingUuid
  | .ended => (s, .error .afterEnd)
  | .active uuid =>
      if supportedDigit digit then (s, .ok (.dtmf uuid digit))
      else s.reject (.unsupportedDigit digit)

def receive (s : IncomingSession) (message : TypedMessage) : IncomingSession × Reply :=
  if s.state = .ended then (s, .error .afterEnd)
  else
    match message with
    | .terminate => (s.endWith .terminate).map id .ok
    | .error payload => (s.endWith (.peerError payload)).map id .ok
    | .uuid u => s.uuid u
    | .audio rate payload => s.audio rate payload
    | .dtmf digit => s.dtmf digit
    | .unknown wireType _ => s.reject (.unsupportedType wireType)

def endOfInput (s : IncomingSession) : IncomingSession × Reply :=
  if s.state = .ended then (s, .error .afterEnd)
  else (s.endWith .endOfInput).map id .ok

/-- What one message can do to a session. -/
inductive Received (s : IncomingSession) (message : TypedMessage) :
    IncomingSession → Reply → Prop
  | rejected (error : IncomingSessionError) :
      Received s message { s with state := .ended } (.error error)
  | started {u : Uuid} (hmessage : message = .uuid u) (hstate : s.state = .awaitingUuid) :
      Received s message { s with state := .active u } (.ok (.started u))
  | audio {u : Uuid} {rate : SampleRate} {payload : AudioPayload}
      (hmessage : message = .audio rate payload) (hstate : s.state = .active u)
      (hrate : s.profile.accepts rate = true) : Received s message s (.ok (.audio u rate payload))
  | dtmf {u : Uuid} {digit : Dtmf} (hmessage : message = .dtmf digit)
      (hstate : s.state = .active u) (hdigit : supportedDigit digit = true) :
      Received s message s (.ok (.dtmf u digit))
  | terminated (hmessage : message = .terminate) :
      Received s message { s with state := .ended } (.ok (.ended s.identity .terminate))
  | peerError {payload : OpaquePayload} (hmessage : message = .error payload) :
      Received s message { s with state := .ended } (.ok (.ended s.identity (.peerError payload)))

theorem received_afterEnd {s : IncomingSession} (message : TypedMessage)
    (hstate : s.state = .ended) : Received s message s (.error .afterEnd) := by
  have hself : s = { s with state := .ended } := by
    cases s
    simp_all
  conv =>
    arg 3
    rw [hself]
  exact .rejected _

theorem receive_received (s : IncomingSession) (message : TypedMessage) :
    Received s message (s.receive message).1 (s.receive message).2 := by
  unfold receive
  by_cases hended : s.state = .ended
  · rw [if_pos hended]
    exact received_afterEnd message hended
  · rw [if_neg hended]
    cases message with
    | terminate => exact .terminated rfl
    | error payload => exact .peerError rfl
    | unknown wireType payload => exact .rejected _
    | uuid u =>
        cases hstate : s.state with
        | awaitingUuid => simpa [uuid, hstate] using Received.started rfl hstate
        | active v => simpa [uuid, reject, hstate] using Received.rejected _
        | ended => exact absurd hstate hended
    | audio rate payload =>
        cases hstate : s.state with
        | awaitingUuid => simpa [audio, reject, hstate] using Received.rejected _
        | ended => exact absurd hstate hended
        | active u =>
            by_cases hrate : s.profile.accepts rate = true
            · simpa [audio, hstate, hrate] using Received.audio rfl hstate hrate
            · simpa [audio, reject, hstate, hrate] using Received.rejected _
    | dtmf digit =>
        cases hstate : s.state with
        | awaitingUuid => simpa [dtmf, reject, hstate] using Received.rejected _
        | ended => exact absurd hstate hended
        | active u =>
            by_cases hdigit : supportedDigit digit = true
            · simpa [dtmf, hstate, hdigit] using Received.dtmf rfl hstate hdigit
            · simpa [dtmf, reject, hstate, hdigit] using Received.rejected _

end IncomingSession

end Phonowire.AudioSocket
