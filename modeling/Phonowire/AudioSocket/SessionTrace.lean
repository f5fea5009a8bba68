import Phonowire.AudioSocket.Session

/-!
# Traces of an incoming session

The law of a session constrains every reply of an unbounded sequence of calls
at once. `Traced` ties the state to the calls made so far and to their replies;
one call keeps it, so every sequence of calls does.
-/

namespace Phonowire.AudioSocket

/-! ## The accepted rates -/

namespace IncomingProfile

theorem rateBit_and (rate other : SampleRate) :
    rateBit rate &&& rateBit other ≠ 0 ↔ rate = other := by
  cases rate <;> cases other <;> decide

theorem and_foldl_or_ne_zero (rates : List SampleRate) (accepted : UInt16) (rate : SampleRate) :
    rates.foldl (fun accepted rate ↦ accepted ||| rateBit rate) accepted &&& rateBit rate ≠ 0 ↔
      accepted &&& rateBit rate ≠ 0 ∨ rate ∈ rates := by
  induction rates generalizing accepted with
  | nil => simp
  | cons first rates ih =>
      have hor : (accepted ||| rateBit first) &&& rateBit rate ≠ 0 ↔
          accepted &&& rateBit rate ≠ 0 ∨ rate = first := by
        have hdistrib : (accepted ||| rateBit first) &&& rateBit rate =
            accepted &&& rateBit rate ||| rateBit first &&& rateBit rate := by
          apply UInt16.eq_of_toBitVec_eq
          exact BitVec.and_or_distrib_right
        rw [hdistrib, Ne, UInt16.or_eq_zero_iff, not_and_or, ← Ne, ← Ne, rateBit_and,
          eq_comm (a := first)]
      rw [List.foldl_cons, ih, hor, List.mem_cons, or_assoc]

theorem accepts_fromRates (rates : List SampleRate) (rate : SampleRate) :
    (fromRates rates).accepts rate = true ↔ rate ∈ rates := by
  have h := and_foldl_or_ne_zero rates 0 rate
  simpa [accepts, fromRates] using h

end IncomingProfile

/-- The sixteen keys of a telephone keypad. -/
def keypad : List Char := ['0', '1', '2', '3', '4', '5', '6', '7', '8', '9', '*', '#',
  'A', 'B', 'C', 'D']

theorem supportedDigit_iff (digit : Dtmf) :
    supportedDigit digit = true ↔ ∃ key ∈ keypad, digit.value.toNat = key.toNat := by
  have hkeys : (∃ key ∈ keypad, digit.value.toNat = key.toNat) ↔
      digit.value.toNat ∈ keypad.map Char.toNat := by
    simp only [List.mem_map, eq_comm]
  rw [hkeys, show keypad.map Char.toNat =
    [48, 49, 50, 51, 52, 53, 54, 55, 56, 57, 42, 35, 65, 66, 67, 68] from rfl]
  clear hkeys
  simp only [supportedDigit, Bool.or_eq_true, Bool.and_eq_true, decide_eq_true_eq, beq_iff_eq,
    UInt8.le_iff_toNat_le, ← UInt8.toNat_inj, UInt8.reduceToNat, List.mem_cons, List.not_mem_nil,
    or_false]
  constructor
  · intro hdigit
    omega
  · intro hkey
    omega

/-! ## Sequences of calls -/

inductive SessionCall where
  | receive (message : TypedMessage)
  | endOfInput
  deriving DecidableEq, Repr

namespace IncomingSession

def call (s : IncomingSession) : SessionCall → IncomingSession × Reply
  | .receive message => s.receive message
  | .endOfInput => s.endOfInput

/-- The session after a sequence of calls. -/
def after (s : IncomingSession) : List SessionCall → IncomingSession
  | [] => s
  | c :: calls => (s.call c).1.after calls

/-- The replies to a sequence of calls. -/
def replies (s : IncomingSession) : List SessionCall → List Reply
  | [] => []
  | c :: calls => (s.call c).2 :: (s.call c).1.replies calls

theorem after_append (s : IncomingSession) (xs ys : List SessionCall) :
    s.after (xs ++ ys) = (s.after xs).after ys := by
  induction xs generalizing s with
  | nil => rfl
  | cons c xs ih => exact ih _

theorem replies_append (s : IncomingSession) (xs ys : List SessionCall) :
    s.replies (xs ++ ys) = s.replies xs ++ (s.after xs).replies ys := by
  induction xs generalizing s with
  | nil => rfl
  | cons c xs ih => exact congrArg _ (ih _)

end IncomingSession

/-- A media event of the session with identity `u`. -/
def IncomingEvent.MediaOf (u : Uuid) : IncomingEvent → Prop
  | .audio v _ _ => v = u
  | .dtmf v _ => v = u
  | .started _ => False
  | .ended _ _ => False

/-- A reply that ends the session: an `ended` event, or a policy error that is
not the answer of a session already over. -/
def IncomingSession.Terminal : IncomingSession.Reply → Prop
  | .ok (.ended _ _) => True
  | .ok _ => False
  | .error e => e ≠ .afterEnd

/-- The identity and the media a trace has before its end. -/
structure Spoken where
  uuid : Uuid
  media : List IncomingEvent
  carried : ∀ event ∈ media, event.MediaOf uuid

namespace Spoken

def replies (spoken : Spoken) : List IncomingSession.Reply :=
  .ok (.started spoken.uuid) :: spoken.media.map .ok

def snoc (spoken : Spoken) (event : IncomingEvent) (h : event.MediaOf spoken.uuid) : Spoken where
  uuid := spoken.uuid
  media := spoken.media ++ [event]
  carried := by
    intro e he
    rcases List.mem_append.mp he with hmem | hlast
    · exact spoken.carried e hmem
    · rw [List.mem_singleton.mp hlast]
      exact h

theorem replies_snoc (spoken : Spoken) {event : IncomingEvent}
    (h : event.MediaOf spoken.uuid) :
    (spoken.snoc event h).replies = spoken.replies ++ [.ok event] := by
  simp [replies, snoc]

end Spoken

namespace IncomingSession

/-- The replies of a session that has not ended. -/
def spokenReplies : Option Spoken → List Reply
  | none => []
  | some spoken => spoken.replies

/-- What the calls so far and their replies say about the state. -/
def Traced (calls : List SessionCall) (outputs : List Reply) : SessionState → Prop
  | .awaitingUuid => calls = [] ∧ outputs = []
  | .active u => ∃ spoken : Spoken, spoken.uuid = u ∧ outputs = spoken.replies ∧
      calls.head? = some (.receive (.uuid u))
  | .ended => ∃ (spoken : Option Spoken) (terminal : Reply) (n : ℕ), Terminal terminal ∧
      outputs = spokenReplies spoken ++ terminal :: List.replicate n (.error .afterEnd) ∧
      (∀ known ∈ spoken, calls.head? = some (.receive (.uuid known.uuid))) ∧
      ∀ id reason, terminal = .ok (.ended id reason) → id = spoken.map Spoken.uuid

/-! ## What one call does -/

variable {s : IncomingSession}

theorem call_of_ended (hstate : s.state = .ended) (c : SessionCall) :
    s.call c = (s, .error .afterEnd) := by
  cases c <;> simp [call, receive, endOfInput, hstate]

/-- A reply that ends a session whose identity is `id`. -/
def Ends (s : IncomingSession) (id : Option Uuid) (result : IncomingSession × Reply) : Prop :=
  result.1 = { s with state := .ended } ∧ Terminal result.2 ∧
    ∀ v reason, result.2 = .ok (.ended v reason) → v = id

theorem endWith_ends (s : IncomingSession) (reason : SessionEnd) :
    s.Ends s.identity ((s.endWith reason).map id .ok) := by
  refine ⟨rfl, trivial, ?_⟩
  intro v other h
  cases h
  rfl

theorem reject_ends (id : Option Uuid) {e : IncomingSessionError} (he : e ≠ .afterEnd) :
    s.Ends id (s.reject e) := by
  refine ⟨rfl, he, ?_⟩
  intro v reason h
  cases h

theorem call_of_awaiting (hstate : s.state = .awaitingUuid) (c : SessionCall) :
    (∃ u, c = .receive (.uuid u) ∧ s.call c = ({ s with state := .active u }, .ok (.started u))) ∨
      s.Ends none (s.call c) := by
  have hidentity : s.identity = none := by simp [identity, hstate]
  have hends (reason : SessionEnd) : s.Ends none ((s.endWith reason).map id .ok) :=
    hidentity ▸ endWith_ends s reason
  cases c with
  | endOfInput =>
      right
      simpa [call, endOfInput, hstate] using hends .endOfInput
  | receive message =>
      cases message with
      | uuid u =>
          left
          exact ⟨u, rfl, by simp [call, receive, uuid, hstate]⟩
      | terminate =>
          right
          simpa [call, receive, hstate] using hends .terminate
      | error payload =>
          right
          simpa [call, receive, hstate] using hends (.peerError payload)
      | audio rate payload =>
          right
          simpa [call, receive, audio, hstate] using reject_ends none (by decide)
      | dtmf digit =>
          right
          simpa [call, receive, dtmf, hstate] using reject_ends none (by decide)
      | unknown wireType payload =>
          right
          simpa [call, receive, hstate] using
            reject_ends (e := .unsupportedType wireType) none (by simp)

theorem call_of_active {u : Uuid} (hstate : s.state = .active u) (c : SessionCall) :
    (∃ event, IncomingEvent.MediaOf u event ∧ s.call c = (s, .ok event)) ∨
      s.Ends (some u) (s.call c) := by
  have hidentity : s.identity = some u := identity_of_active hstate
  have hends (reason : SessionEnd) : s.Ends (some u) ((s.endWith reason).map id .ok) :=
    hidentity ▸ endWith_ends s reason
  cases c with
  | endOfInput =>
      right
      simpa [call, endOfInput, hstate] using hends .endOfInput
  | receive message =>
      cases message with
      | uuid v =>
          right
          simpa [call, receive, uuid, hstate] using reject_ends _ (by decide)
      | terminate =>
          right
          simpa [call, receive, hstate] using hends .terminate
      | error payload =>
          right
          simpa [call, receive, hstate] using hends (.peerError payload)
      | audio rate payload =>
          by_cases hrate : s.profile.accepts rate = true
          · left
            exact ⟨.audio u rate payload, rfl, by simp [call, receive, audio, hstate, hrate]⟩
          · right
            simpa [call, receive, audio, hstate, hrate] using
              reject_ends (e := .unsupportedRate rate) _ (by simp)
      | dtmf digit =>
          by_cases hdigit : supportedDigit digit = true
          · left
            exact ⟨.dtmf u digit, rfl, by simp [call, receive, dtmf, hstate, hdigit]⟩
          · right
            simpa [call, receive, dtmf, hstate, hdigit] using
              reject_ends (e := .unsupportedDigit digit) _ (by simp)
      | unknown wireType payload =>
          right
          simpa [call, receive, hstate] using
            reject_ends (e := .unsupportedType wireType) _ (by simp)

/-! ## What a sequence of calls does -/

theorem Traced.ends {calls : List SessionCall} {c : SessionCall} (spoken : Option Spoken)
    (h : s.Ends (spoken.map Spoken.uuid) (s.call c))
    (hhead : ∀ known ∈ spoken, calls.head? = some (.receive (.uuid known.uuid))) :
    Traced (calls ++ [c]) (spokenReplies spoken ++ [(s.call c).2]) (s.call c).1.state := by
  obtain ⟨hnext, hterminal, hended⟩ := h
  rw [hnext]
  refine ⟨spoken, (s.call c).2, 0, hterminal, rfl, ?_, hended⟩
  intro known hknown
  rw [List.head?_append, hhead known hknown]
  rfl

theorem Traced.step {calls : List SessionCall} {outputs : List Reply}
    (h : Traced calls outputs s.state) (c : SessionCall) :
    Traced (calls ++ [c]) (outputs ++ [(s.call c).2]) (s.call c).1.state := by
  cases hstate : s.state with
  | awaitingUuid =>
      rw [hstate] at h
      obtain ⟨rfl, rfl⟩ := h
      rcases call_of_awaiting hstate c with ⟨u, rfl, hcall⟩ | hends
      · rw [hcall]
        exact ⟨⟨u, [], by simp⟩, rfl, rfl, rfl⟩
      · exact Traced.ends none hends (by simp)
  | active u =>
      rw [hstate] at h
      obtain ⟨spoken, rfl, rfl, hhead⟩ := h
      rcases call_of_active hstate c with ⟨event, hmedia, hcall⟩ | hends
      · rw [hcall, hstate]
        refine ⟨spoken.snoc event hmedia, rfl, (spoken.replies_snoc hmedia).symm, ?_⟩
        rw [List.head?_append, hhead]
        rfl
      · refine Traced.ends (some spoken) hends ?_
        intro known hknown
        cases hknown
        exact hhead
  | ended =>
      rw [hstate] at h
      obtain ⟨spoken, terminal, n, hterminal, rfl, hhead, hended⟩ := h
      rw [call_of_ended hstate, hstate]
      refine ⟨spoken, terminal, n + 1, hterminal, ?_, ?_, hended⟩
      · simp [List.replicate_succ']
      · intro known hknown
        rw [List.head?_append, hhead known hknown]
        rfl

theorem traced_calls (profile : IncomingProfile) (calls : List SessionCall) :
    Traced calls ((withProfile profile).replies calls) ((withProfile profile).after calls).state := by
  induction calls using List.reverseRecOn with
  | nil => exact ⟨rfl, rfl⟩
  | append_singleton calls c ih =>
      rw [replies_append, after_append]
      exact ih.step c

theorem profile_call (s : IncomingSession) (c : SessionCall) :
    (s.call c).1.profile = s.profile := by
  cases hstate : s.state with
  | awaitingUuid =>
      rcases call_of_awaiting hstate c with ⟨u, _, hcall⟩ | ⟨hnext, _⟩
      · rw [hcall]
      · rw [hnext]
  | active u =>
      rcases call_of_active hstate c with ⟨event, _, hcall⟩ | ⟨hnext, _⟩
      · rw [hcall]
      · rw [hnext]
  | ended => rw [call_of_ended hstate]

theorem profile_after (s : IncomingSession) (calls : List SessionCall) :
    (s.after calls).profile = s.profile := by
  induction calls generalizing s with
  | nil => rfl
  | cons c calls ih => exact (ih _).trans (profile_call s c)

/-! ## The law of a session -/

theorem Spoken.not_terminal {spoken : Spoken} {reply : Reply} (h : reply ∈ spoken.replies) :
    ¬ Terminal reply := by
  rcases List.mem_cons.mp h with rfl | hmedia
  · exact id
  · obtain ⟨event, hevent, rfl⟩ := List.mem_map.mp hmedia
    have hcarried := spoken.carried event hevent
    cases event with
    | ended v reason => exact hcarried.elim
    | _ => exact id

theorem Spoken.started_mem {spoken : Spoken} {u : Uuid} :
    .ok (.started u) ∈ spoken.replies ↔ spoken.uuid = u := by
  constructor
  · intro h
    rcases List.mem_cons.mp h with hfirst | hmedia
    · cases hfirst
      rfl
    · obtain ⟨event, hevent, heq⟩ := List.mem_map.mp hmedia
      cases heq
      exact (spoken.carried _ hevent).elim
  · rintro rfl
    exact List.mem_cons_self

/-- The session is over: one of the replies was terminal. -/
def Over (outputs : List Reply) : Prop := ∃ reply ∈ outputs, Terminal reply

section Outputs

variable {calls : List SessionCall} {outputs : List Reply} {state : SessionState}

theorem Traced.over_iff (h : Traced calls outputs state) : Over outputs ↔ state = .ended := by
  cases state with
  | awaitingUuid =>
      obtain ⟨_, rfl⟩ := h
      simp [Over]
  | active u =>
      obtain ⟨spoken, _, rfl, _⟩ := h
      simp only [reduceCtorEq, iff_false]
      rintro ⟨reply, hmem, hterminal⟩
      exact Spoken.not_terminal hmem hterminal
  | ended =>
      obtain ⟨spoken, terminal, n, hterminal, rfl, _⟩ := h
      simp only [iff_true]
      exact ⟨terminal, by simp, hterminal⟩

theorem Traced.active_iff (h : Traced calls outputs state) (u : Uuid) :
    state = .active u ↔ .ok (.started u) ∈ outputs ∧ ¬ Over outputs := by
  rw [h.over_iff]
  cases state with
  | awaitingUuid =>
      obtain ⟨_, rfl⟩ := h
      simp
  | active v =>
      obtain ⟨spoken, rfl, rfl, _⟩ := h
      rw [Spoken.started_mem]
      simp
  | ended => simp

end Outputs

/-- The form of the replies: an identity established by the first call and its
media, then at most one terminal reply, then nothing but refusals. An `ended`
event carries the identity that was established. -/
def Formed (calls : List SessionCall) (outputs : List Reply) : Prop :=
  ∃ (spoken : Option Spoken) (terminal : Option Reply) (n : ℕ),
    outputs = spokenReplies spoken ++ terminal.toList ++ List.replicate n (.error .afterEnd) ∧
      (∀ known ∈ spoken, calls.head? = some (.receive (.uuid known.uuid))) ∧
      (∀ reply ∈ terminal, Terminal reply) ∧ (terminal = none → n = 0) ∧
      ∀ id reason, terminal = some (.ok (.ended id reason)) → id = spoken.map Spoken.uuid

/-- The law of the calls `calls` on a fresh session that accepts `rates`, and of
the reply to any call that follows them. -/
structure Law (rates : List SampleRate) (calls : List SessionCall) (outputs : List Reply)
    (s : IncomingSession) : Prop where
  form : Formed calls outputs
  afterEnd : Over outputs → ∀ c, (s.call c).2 = .error .afterEnd
  identity : ∀ u, s.identity = some u ↔ .ok (.started u) ∈ outputs ∧ ¬ Over outputs
  audio : ∀ rate payload event, (s.call (.receive (.audio rate payload))).2 = .ok event ↔
    ∃ u, s.identity = some u ∧ rate ∈ rates ∧ event = .audio u rate payload
  dtmf : ∀ digit event, (s.call (.receive (.dtmf digit))).2 = .ok event ↔
    ∃ u, s.identity = some u ∧ (∃ key ∈ keypad, digit.value.toNat = key.toNat) ∧
      event = .dtmf u digit
  missing : (∀ u, .ok (.started u) ∉ outputs) → ¬ Over outputs →
    (∀ rate payload, (s.call (.receive (.audio rate payload))).2 = .error .missingUuid) ∧
      ∀ digit, (s.call (.receive (.dtmf digit))).2 = .error .missingUuid
  duplicate : ∀ u, s.identity = some u → ∀ v,
    (s.call (.receive (.uuid v))).2 = .error .duplicateUuid
  unsupported : ¬ Over outputs → ∀ wireType payload,
    (s.call (.receive (.unknown wireType payload))).2 = .error (.unsupportedType wireType)

theorem Traced.form {calls : List SessionCall} {outputs : List Reply} {state : SessionState}
    (h : Traced calls outputs state) :
    Formed calls outputs := by
  cases state with
  | awaitingUuid =>
      obtain ⟨rfl, rfl⟩ := h
      exact ⟨none, none, 0, by simp [spokenReplies]⟩
  | active u =>
      obtain ⟨spoken, rfl, rfl, hhead⟩ := h
      exact ⟨some spoken, none, 0, by simp [spokenReplies, hhead]⟩
  | ended =>
      obtain ⟨spoken, terminal, n, hterminal, rfl, hhead, hended⟩ := h
      refine ⟨spoken, some terminal, n, by simp, hhead, ?_, by simp, ?_⟩
      · intro reply hreply
        cases hreply
        exact hterminal
      · intro id reason heq
        exact hended id reason (Option.some.inj heq)

theorem audio_ok_iff (rate : SampleRate) (payload : AudioPayload) (event : IncomingEvent) :
    (s.call (.receive (.audio rate payload))).2 = .ok event ↔
      ∃ u, s.identity = some u ∧ s.profile.accepts rate = true ∧
        event = .audio u rate payload := by
  cases hstate : s.state with
  | active u =>
      by_cases hrate : s.profile.accepts rate = true <;>
        simp [call, receive, IncomingSession.audio, reject, IncomingSession.identity, hstate,
          hrate, eq_comm]
  | _ => simp [call, receive, IncomingSession.audio, reject, IncomingSession.identity, hstate]

theorem dtmf_ok_iff (digit : Dtmf) (event : IncomingEvent) :
    (s.call (.receive (.dtmf digit))).2 = .ok event ↔
      ∃ u, s.identity = some u ∧ supportedDigit digit = true ∧ event = .dtmf u digit := by
  cases hstate : s.state with
  | active u =>
      by_cases hdigit : supportedDigit digit = true <;>
        simp [call, receive, IncomingSession.dtmf, reject, IncomingSession.identity, hstate,
          hdigit, eq_comm]
  | _ => simp [call, receive, IncomingSession.dtmf, reject, IncomingSession.identity, hstate]

theorem identity_eq_some_iff (u : Uuid) : s.identity = some u ↔ s.state = .active u := by
  cases hstate : s.state <;> simp [IncomingSession.identity, hstate]

/-- One identity and one end: every sequence of calls on a session that accepts
`rates` obeys the law, and so does the reply to every call after it. -/
theorem calls_obey_law (rates : List SampleRate) (calls : List SessionCall) :
    Law rates calls ((withProfile (.fromRates rates)).replies calls)
      ((withProfile (.fromRates rates)).after calls) := by
  have htraced := traced_calls (.fromRates rates) calls
  have hprofile := profile_after (withProfile (.fromRates rates)) calls
  refine ⟨htraced.form, ?_, ?_, ?_, ?_, ?_, ?_, ?_⟩
  · intro hover c
    rw [call_of_ended (htraced.over_iff.mp hover)]
  · intro u
    rw [identity_eq_some_iff, htraced.active_iff]
  · intro rate payload event
    rw [audio_ok_iff, hprofile]
    simp only [withProfile, IncomingProfile.accepts_fromRates]
  · intro digit event
    simp only [dtmf_ok_iff, supportedDigit_iff]
  · intro hstarted hover
    have hawaiting : ((withProfile (.fromRates rates)).after calls).state = .awaitingUuid := by
      cases hstate : ((withProfile (.fromRates rates)).after calls).state with
      | awaitingUuid => rfl
      | active u => exact absurd ((htraced.active_iff u).mp hstate).1 (hstarted u)
      | ended => exact absurd (htraced.over_iff.mpr hstate) hover
    refine ⟨?_, ?_⟩
    · intro rate payload
      simp [call, receive, IncomingSession.audio, reject, hawaiting]
    · intro digit
      simp [call, receive, IncomingSession.dtmf, reject, hawaiting]
  · intro u hidentity v
    have hactive := (identity_eq_some_iff u).mp hidentity
    simp [call, receive, IncomingSession.uuid, reject, hactive]
  · intro hover wireType payload
    have hended := mt htraced.over_iff.mpr hover
    simp [call, receive, reject, hended]

end IncomingSession

end Phonowire.AudioSocket
