import Mathlib.Tactic

/-!
# Stream decoders driven over chunks

A prefix format decides on the bytes at a message boundary: one message, a
stop, or the need for more input. A decoder with memory answers one call at a
time. If each call answers for the bytes held so far followed by its input,
then driving the decoder over any cutting of a stream gives the one-pass parse
of the stream.
-/

namespace Streaming

variable {σ β ε α : Type*}

/-- The first decision on a byte string that starts at a message boundary. -/
inductive Decision (β ε α : Type*) where
  | message (value : α) (rest : List β)
  | stop (error : ε) (rest : List β)
  | need

/-- A decision function that later input can only complete, never revise. -/
structure Format (β ε α : Type*) where
  next : List β → Decision β ε α
  next_nil : next [] = .need
  message_append : ∀ {bytes value rest}, next bytes = .message value rest →
    ∀ more, next (bytes ++ more) = .message value (rest ++ more)
  stop_append : ∀ {bytes error rest}, next bytes = .stop error rest →
    ∀ more, next (bytes ++ more) = .stop error (rest ++ more)
  message_length : ∀ {bytes input value rest}, next bytes = .need →
    next (bytes ++ input) = .message value rest → rest.length < input.length
  stop_length : ∀ {bytes input error rest}, next bytes = .need →
    next (bytes ++ input) = .stop error rest → rest.length ≤ input.length

/-- What a whole stream holds: its messages, the error that stops it if there
is one, and the bytes after the last decision. -/
structure Parsed (β ε α : Type*) where
  messages : List α
  error : Option ε
  rest : List β

def Parsed.prepend (values : List α) (p : Parsed β ε α) : Parsed β ε α :=
  { p with messages := values ++ p.messages }

namespace Format

variable (F : Format β ε α)

theorem length_of_message {bytes rest : List β} {value : α}
    (h : F.next bytes = .message value rest) : rest.length < bytes.length :=
  F.message_length F.next_nil (by simpa using h)

/-- The one-pass parse. -/
def parse (bytes : List β) : Parsed β ε α :=
  match _h : F.next bytes with
  | .message value rest => (parse rest).prepend [value]
  | .stop error rest => ⟨[], some error, rest⟩
  | .need => ⟨[], none, bytes⟩
  termination_by bytes.length
  decreasing_by exact F.length_of_message _h

variable {F} {bytes rest : List β}

theorem parse_message {value : α} (h : F.next bytes = .message value rest) :
    F.parse bytes = (F.parse rest).prepend [value] := by
  rw [parse]
  split
  · next h' =>
      rw [h] at h'
      cases h'
      rfl
  all_goals simp_all

theorem parse_stop {error : ε} (h : F.next bytes = .stop error rest) :
    F.parse bytes = ⟨[], some error, rest⟩ := by
  rw [parse]
  split <;> simp_all

theorem parse_need (h : F.next bytes = .need) : F.parse bytes = ⟨[], none, bytes⟩ := by
  rw [parse]
  split <;> simp_all

/-- Induction along the decisions of a parse. -/
theorem parse_induction {P : List β → Prop}
    (message : ∀ bytes value rest, F.next bytes = .message value rest → P rest → P bytes)
    (stop : ∀ bytes error rest, F.next bytes = .stop error rest → P bytes)
    (need : ∀ bytes, F.next bytes = .need → P bytes) (bytes : List β) : P bytes := by
  induction hlength : bytes.length using Nat.strong_induction_on generalizing bytes with
  | _ n ih =>
      cases hnext : F.next bytes with
      | message value rest =>
          have hless := F.length_of_message hnext
          exact message bytes value rest hnext (ih rest.length (hlength ▸ hless) rest rfl)
      | stop error rest => exact stop bytes error rest hnext
      | need => exact need bytes hnext

end Format

/-! ## Driving -/

/-- What one call leaves behind: the decoder, the unread input, and an error or
at most one message. -/
structure Call (σ β ε α : Type*) where
  next : σ
  rest : List β
  result : Except ε (Option α)

structure Run (σ ε α : Type*) where
  state : σ
  messages : List α
  consumed : ℕ
  error : Option ε

def Run.prepend (values : List α) (consumed : ℕ) (run : Run σ ε α) : Run σ ε α :=
  ⟨run.state, values ++ run.messages, consumed + run.consumed, run.error⟩

/-- Call until the chunk is empty, at least once, stopping at the first error.
The fuel bounds the number of further calls. -/
def driveChunk (feed : σ → List β → Option (Call σ β ε α)) :
    ℕ → σ → List β → Option (Run σ ε α)
  | fuel, s, input =>
      (feed s input).bind fun call ↦
        let consumed := input.length - call.rest.length
        match call.result with
        | .error e => some ⟨call.next, [], consumed, some e⟩
        | .ok found =>
            if call.rest.isEmpty then some ⟨call.next, found.toList, consumed, none⟩
            else
              match fuel with
              | 0 => none
              | fuel + 1 =>
                  (driveChunk feed fuel call.next call.rest).map
                    (Run.prepend found.toList consumed)

/-- Drive over the chunks of a stream up to the first error. -/
def drive (feed : σ → List β → Option (Call σ β ε α)) :
    σ → List (List β) → Option (Run σ ε α)
  | s, [] => some ⟨s, [], 0, none⟩
  | s, chunk :: chunks =>
      (driveChunk feed chunk.length s chunk).bind fun run ↦
        match run.error with
        | some _ => some run
        | none => (drive feed run.state chunks).map (Run.prepend run.messages run.consumed)

section Refinement

variable {F : Format β ε α} {feed : σ → List β → Option (Call σ β ε α)}
  {Holds : σ → List β → Prop} {Stopped : σ → Prop}

/-- What a call must answer to the decision on the bytes held followed by its
input. -/
def Answers (Holds : σ → List β → Prop) (Stopped : σ → Prop) (bytes : List β)
    (call : Option (Call σ β ε α)) : Decision β ε α → Prop
  | .message value rest => ∃ next, call = some ⟨next, rest, .ok (some value)⟩ ∧ Holds next []
  | .stop error rest => ∃ next, call = some ⟨next, rest, .error error⟩ ∧ Stopped next
  | .need => ∃ next, call = some ⟨next, [], .ok none⟩ ∧ Holds next bytes

/-- The decoder holds the bytes of an unfinished message and each call answers
for them followed by its input. -/
structure Refines (F : Format β ε α) (feed : σ → List β → Option (Call σ β ε α))
    (Holds : σ → List β → Prop) (Stopped : σ → Prop) : Prop where
  need : ∀ {s bytes}, Holds s bytes → F.next bytes = .need
  answers : ∀ {s bytes}, Holds s bytes → ∀ input,
    Answers Holds Stopped (bytes ++ input) (feed s input) (F.next (bytes ++ input))

/-- A run over `input` agrees with the parse of every continuation of the bytes
held. Either it stopped, or the bytes it now holds start what is still to be
parsed. -/
def Run.Follows (F : Format β ε α) (Holds : σ → List β → Prop) (Stopped : σ → Prop)
    (bytes input : List β) (run : Run σ ε α) : Prop :=
  match run.error with
  | some e => Stopped run.state ∧ ∃ rest, run.consumed + rest.length = input.length ∧
      ∀ more, F.parse (bytes ++ input ++ more) = ⟨run.messages, some e, rest ++ more⟩
  | none => run.consumed = input.length ∧ ∃ tail, Holds run.state tail ∧
      ∀ more, F.parse (bytes ++ input ++ more) = (F.parse (tail ++ more)).prepend run.messages

theorem Parsed.prepend_prepend (xs ys : List α) (p : Parsed β ε α) :
    (p.prepend ys).prepend xs = p.prepend (xs ++ ys) := by
  simp [prepend]

@[simp] theorem Parsed.prepend_nil (p : Parsed β ε α) : p.prepend [] = p := rfl

variable (F Stopped) in
theorem Run.follows_nil {s : σ} {bytes : List β} (h : Holds s bytes) :
    (⟨s, [], 0, none⟩ : Run σ ε α).Follows F Holds Stopped bytes [] :=
  ⟨rfl, bytes, h, fun more ↦ by simp⟩

/-- A run over the rest of the input, after the call that read a message. -/
theorem Run.Follows.message {run : Run σ ε α} {bytes input rest : List β} {value : α}
    (h : run.Follows F Holds Stopped [] rest) (hneed : F.next bytes = .need)
    (hnext : F.next (bytes ++ input) = .message value rest) :
    (run.prepend [value] (input.length - rest.length)).Follows F Holds Stopped bytes input := by
  have hless := F.message_length hneed hnext
  have hparse (more : List β) :
      F.parse (bytes ++ input ++ more) = (F.parse ([] ++ rest ++ more)).prepend [value] := by
    simpa using Format.parse_message (F.message_append hnext more)
  obtain ⟨state, messages, consumed, error⟩ := run
  cases error with
  | some e =>
      obtain ⟨hstopped, last, hlast, hall⟩ := h
      refine ⟨hstopped, last, ?_, ?_⟩
      · simp only [Run.prepend] at hlast ⊢
        omega
      · intro more
        rw [hparse, hall]
        rfl
  | none =>
      obtain ⟨hconsumed, tail, htail, hall⟩ := h
      refine ⟨?_, tail, htail, ?_⟩
      · simp only [Run.prepend] at hconsumed ⊢
        omega
      · intro more
        rw [hparse, hall, Parsed.prepend_prepend]
        rfl

theorem driveChunk_error {fuel : ℕ} {s next : σ} {input rest : List β} {e : ε}
    (hcall : feed s input = some ⟨next, rest, .error e⟩) :
    driveChunk feed fuel s input = some ⟨next, [], input.length - rest.length, some e⟩ := by
  rw [driveChunk]
  simp [hcall]

theorem driveChunk_last {fuel : ℕ} {s next : σ} {input : List β} {found : Option α}
    (hcall : feed s input = some ⟨next, [], .ok found⟩) :
    driveChunk feed fuel s input = some ⟨next, found.toList, input.length, none⟩ := by
  rw [driveChunk]
  simp [hcall]

theorem driveChunk_more {fuel : ℕ} {s next : σ} {input rest : List β} {found : Option α}
    {run : Run σ ε α} (hcall : feed s input = some ⟨next, rest, .ok found⟩) (hrest : rest ≠ [])
    (hrun : driveChunk feed fuel next rest = some run) :
    driveChunk feed (fuel + 1) s input =
      some (run.prepend found.toList (input.length - rest.length)) := by
  rw [driveChunk]
  simp [hcall, hrest, hrun]

theorem driveChunk_follows (h : Refines F feed Holds Stopped) (fuel : ℕ) {s : σ}
    {bytes input : List β} (hs : Holds s bytes) (hfuel : input.length ≤ fuel) :
    ∃ run, driveChunk feed fuel s input = some run ∧
      run.Follows F Holds Stopped bytes input := by
  induction fuel generalizing s bytes input with
  | zero =>
      obtain rfl : input = [] := List.length_eq_zero_iff.mp (Nat.le_zero.mp hfuel)
      have hanswer := h.answers hs []
      rw [List.append_nil, h.need hs] at hanswer
      obtain ⟨next, hcall, hnext⟩ := hanswer
      exact ⟨⟨next, [], 0, none⟩, driveChunk_last hcall, Run.follows_nil F Stopped hnext⟩
  | succ fuel ih =>
      have hanswer := h.answers hs input
      cases hnext : F.next (bytes ++ input) with
      | need =>
          rw [hnext] at hanswer
          obtain ⟨next, hcall, hholds⟩ := hanswer
          refine ⟨⟨next, [], input.length, none⟩, driveChunk_last hcall, rfl, _, hholds, ?_⟩
          intro more
          simp
      | stop error rest =>
          rw [hnext] at hanswer
          obtain ⟨next, hcall, hstopped⟩ := hanswer
          have hle := F.stop_length (h.need hs) hnext
          refine ⟨⟨next, [], input.length - rest.length, some error⟩,
            driveChunk_error hcall, hstopped, rest, Nat.sub_add_cancel hle, ?_⟩
          intro more
          exact Format.parse_stop (F.stop_append hnext more)
      | message value rest =>
          rw [hnext] at hanswer
          obtain ⟨next, hcall, hholds⟩ := hanswer
          have hless := F.message_length (h.need hs) hnext
          by_cases hrest : rest = []
          · subst hrest
            have hdone := (Run.follows_nil F Stopped hholds).message
              (h.need hs) hnext
            exact ⟨_, driveChunk_last hcall, hdone⟩
          · obtain ⟨run, hrun, hfollows⟩ := ih hholds (by omega : rest.length ≤ fuel)
            exact ⟨_, driveChunk_more hcall hrest hrun, hfollows.message (h.need hs) hnext⟩

/-- A run agrees with the parse of the bytes held followed by the `total` bytes
of the stream. -/
def Run.Agrees (Holds : σ → List β → Prop) (Stopped : σ → Prop) (total : ℕ)
    (run : Run σ ε α) (p : Parsed β ε α) : Prop :=
  run.messages = p.messages ∧ run.error = p.error ∧
    match p.error with
    | some _ => Stopped run.state ∧ run.consumed + p.rest.length = total
    | none => Holds run.state p.rest ∧ run.consumed = total

/-- Driving a decoder over any cutting of a stream gives the parse of the
stream. -/
theorem drive_agrees (h : Refines F feed Holds Stopped) (chunks : List (List β)) {s : σ}
    {bytes : List β} (hs : Holds s bytes) :
    ∃ run, drive feed s chunks = some run ∧
      run.Agrees Holds Stopped chunks.flatten.length (F.parse (bytes ++ chunks.flatten)) := by
  induction chunks generalizing s bytes with
  | nil =>
      refine ⟨⟨s, [], 0, none⟩, rfl, ?_⟩
      rw [List.flatten_nil, List.append_nil, Format.parse_need (h.need hs)]
      exact ⟨rfl, rfl, hs, rfl⟩
  | cons chunk chunks ih =>
      obtain ⟨⟨state, messages, consumed, error⟩, hrun, hfollows⟩ :=
        driveChunk_follows h chunk.length hs le_rfl
      rw [List.flatten_cons, ← List.append_assoc, List.length_append]
      cases error with
      | some e =>
          obtain ⟨hstopped, rest, hrest, hall⟩ := hfollows
          refine ⟨⟨state, messages, consumed, some e⟩, by simp [drive, hrun], ?_⟩
          rw [hall]
          refine ⟨rfl, rfl, hstopped, ?_⟩
          simp only [List.length_append] at hrest ⊢
          omega
      | none =>
          obtain ⟨hconsumed, tail, htail, hall⟩ := hfollows
          obtain ⟨later, hlater, hmessages, herror, hstate⟩ := ih htail
          refine ⟨later.prepend messages consumed, by simp [drive, hrun, hlater], ?_⟩
          rw [hall]
          refine ⟨?_, herror, ?_⟩
          · simp only [Run.prepend, Parsed.prepend, hmessages]
          · simp only [Parsed.prepend, Run.prepend] at hconsumed ⊢
            cases hend : (F.parse (tail ++ chunks.flatten)).error with
            | some e =>
                rw [hend] at hstate
                exact ⟨hstate.1, by omega⟩
            | none =>
                rw [hend] at hstate
                exact ⟨hstate.1, by omega⟩

end Refinement

end Streaming
