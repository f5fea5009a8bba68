import Phonowire.AudioSocket.Message

/-!
# Incremental bounded decoding

`Framer` owns the caller's body scratch and a three-byte header buffer and
survives across arbitrarily many `feed` calls. One call completes at most one
frame. Its source loop runs at most twice: a completed header either returns or
falls through to the body branch, which always returns.

The specification of one call is `Framer.feed_spec`. It names no counter and no
buffer: a framer that is not failed stands for the bytes of the unfinished
frame (`Framer.Pending`), and a call answers for the concatenation of those
bytes with its input.
-/

namespace Phonowire.AudioSocket

inductive DecodeOutcome (α : Type) where
  | needInput
  | frame (message : α)
  deriving DecidableEq, Repr

inductive DecodeError where
  | invalidLength (error : TypedMessageError)
  | resourceLimit (required capacity : ℕ)
  | invalidContent (error : TypedMessageError)
  | failed
  deriving DecidableEq, Repr

inductive FinishError where
  | truncatedHeader (expected received : ℕ)
  | truncatedPayload (expected received : ℕ)
  | failed
  deriving DecidableEq, Repr

/-- Copy into `buffer[lo..hi]` as much of `input` as both sides allow. The
result is the new buffer, the unread input and the count; an invalid slice
range panics. -/
def copyPrefix (buffer : List UInt8) (lo hi : ℕ) (input : List UInt8) :
    Option (List UInt8 × List UInt8 × ℕ) :=
  if lo ≤ hi ∧ hi ≤ buffer.length then
    let count := min (hi - lo) input.length
    some (buffer.take lo ++ input.take count ++ buffer.drop (lo + count),
      input.drop count, count)
  else none

structure CompletedFrame where
  wireType : WireType
  length : ℕ
  deriving DecidableEq, Repr

inductive FramerState where
  | header (received : ℕ)
  | body (wireType : WireType) (length received : ℕ)
  | failed
  deriving DecidableEq, Repr

structure Framer where
  scratch : List UInt8
  header : List UInt8
  state : FramerState
  deriving DecidableEq, Repr

/-- What one `feed` leaves behind: the framer, the unread input and the
result. -/
structure Fed (σ α : Type) where
  next : σ
  rest : List UInt8
  result : Except DecodeError α

namespace Framer

def new (scratch : List UInt8) : Framer :=
  ⟨scratch, List.replicate headerBytes 0, .header 0⟩

def fail (f : Framer) : Framer := { f with state := .failed }

/-- The body branch of the loop. -/
def feedBody (f : Framer) (wireType : WireType) (length received : ℕ)
    (input : List UInt8) : Option (Fed Framer (Option CompletedFrame)) := do
  let (scratch, rest, copied) ← copyPrefix f.scratch received length input
  let received := received + copied
  if received < length then
    return ⟨{ f with scratch, state := .body wireType length received }, rest, .ok none⟩
  return ⟨{ f with scratch, state := .header 0 }, rest, .ok (some ⟨wireType, length⟩)⟩

/-- The header branch of the loop, continuing into the body branch. The header
indices `0`, `1` and `2` panic on a shorter buffer. -/
def feedHeader (f : Framer) (received : ℕ) (input : List UInt8)
    (validateHeader : WireType → ℕ → Except TypedMessageError Unit) :
    Option (Fed Framer (Option CompletedFrame)) := do
  let (header, rest, copied) ← copyPrefix f.header received f.header.length input
  let f := { f with header }
  let received := received + copied
  if received < headerBytes then
    return ⟨{ f with state := .header received }, rest, .ok none⟩
  let type ← header[0]?
  let hi ← header[1]?
  let lo ← header[2]?
  let wireType : WireType := ⟨type⟩
  let length := be16 hi lo
  match validateHeader wireType length with
  | .error e => return ⟨f.fail, rest, .error (.invalidLength e)⟩
  | .ok () =>
      if f.scratch.length < length then
        return ⟨f.fail, rest, .error (.resourceLimit length f.scratch.length)⟩
      if length = 0 then
        return ⟨{ f with state := .header 0 }, rest, .ok (some ⟨wireType, length⟩)⟩
      { f with state := .body wireType length 0 }.feedBody wireType length 0 rest

def feed (f : Framer) (input : List UInt8)
    (validateHeader : WireType → ℕ → Except TypedMessageError Unit) :
    Option (Fed Framer (Option CompletedFrame)) :=
  match f.state with
  | .failed => some ⟨f, input, .error .failed⟩
  | .header received => f.feedHeader received input validateHeader
  | .body wireType length received => f.feedBody wireType length received input

/-- The borrowed view `scratch[..length]` of a completed frame. -/
def raw (scratch : List UInt8) (frame : CompletedFrame) : Option RawEnvelope :=
  if frame.length ≤ scratch.length then some ⟨frame.wireType, scratch.take frame.length⟩
  else none

def finish (f : Framer) : Except FinishError Unit :=
  match f.state with
  | .header 0 => .ok ()
  | .header received => .error (.truncatedHeader headerBytes received)
  | .body _ length received => .error (.truncatedPayload length received)
  | .failed => .error .failed

end Framer

structure RawDecoder where
  framer : Framer
  deriving DecidableEq, Repr

namespace RawDecoder

def new (scratch : List UInt8) : RawDecoder := ⟨.new scratch⟩

/-- The header check of the raw decoder, which admits every length. -/
def anyLength : WireType → ℕ → Except TypedMessageError Unit := fun _ _ ↦ .ok ()

def feed (d : RawDecoder) (input : List UInt8) :
    Option (Fed RawDecoder (DecodeOutcome RawEnvelope)) := do
  let fed ← d.framer.feed input anyLength
  match fed.result with
  | .error e => return ⟨⟨fed.next⟩, fed.rest, .error e⟩
  | .ok none => return ⟨⟨fed.next⟩, fed.rest, .ok .needInput⟩
  | .ok (some frame) =>
      let raw ← Framer.raw fed.next.scratch frame
      return ⟨⟨fed.next⟩, fed.rest, .ok (.frame raw)⟩

def finish (d : RawDecoder) : Except FinishError Unit := d.framer.finish

def capacity (d : RawDecoder) : ℕ := d.framer.scratch.length

end RawDecoder

/-! ## One call, stated on the unfinished frame -/

/-- The first decision a capacity-`capacity` framer can take on `bytes` when
they start at a frame boundary. -/
inductive Next where
  | frame (raw : RawEnvelope) (rest : List UInt8)
  | invalid (error : TypedMessageError) (rest : List UInt8)
  | oversize (required : ℕ) (rest : List UInt8)
  | need
  deriving DecidableEq, Repr

def nextFrame (validateHeader : WireType → ℕ → Except TypedMessageError Unit)
    (capacity : ℕ) : List UInt8 → Next
  | type :: hi :: lo :: body =>
      match validateHeader ⟨type⟩ (be16 hi lo) with
      | .error e => .invalid e body
      | .ok () =>
          if capacity < be16 hi lo then .oversize (be16 hi lo) body
          else if body.length < be16 hi lo then .need
          else .frame ⟨⟨type⟩, body.take (be16 hi lo)⟩ (body.drop (be16 hi lo))
  | _ => .need

theorem nextFrame_rest_length {validateHeader capacity bytes raw rest}
    (h : nextFrame validateHeader capacity bytes = .frame raw rest) :
    rest.length + headerBytes + raw.payload.length = bytes.length := by
  match bytes, h with
  | type :: hi :: lo :: body, h =>
      simp only [nextFrame] at h
      split at h
      · cases h
      · split_ifs at h with hcap hlen
        cases h
        simp only [List.length_drop, List.length_take, List.length_cons, headerBytes]
        omega

theorem nextFrame_payload_le {validateHeader capacity bytes raw rest}
    (h : nextFrame validateHeader capacity bytes = .frame raw rest) :
    raw.payload.length ≤ capacity := by
  match bytes, h with
  | type :: hi :: lo :: body, h =>
      simp only [nextFrame] at h
      split at h
      · cases h
      · split_ifs at h with hcap hlen
        cases h
        simp only [List.length_take]
        omega

theorem nextFrame_frame_append {validateHeader capacity bytes raw rest}
    (h : nextFrame validateHeader capacity bytes = .frame raw rest) (more : List UInt8) :
    nextFrame validateHeader capacity (bytes ++ more) = .frame raw (rest ++ more) := by
  match bytes, h with
  | type :: hi :: lo :: body, h =>
      simp only [List.cons_append, nextFrame] at h ⊢
      cases hvalid : validateHeader ⟨type⟩ (be16 hi lo) with
      | error e => simp [hvalid] at h
      | ok _ =>
          simp only [hvalid] at h ⊢
          split_ifs at h with hcap hlen
          cases h
          have hle : be16 hi lo ≤ body.length := by omega
          have hmore : ¬ (body ++ more).length < be16 hi lo := by
            rw [List.length_append]
            omega
          rw [if_neg hcap, if_neg hmore, List.take_append_of_le_length hle,
            List.drop_append_of_le_length hle]

theorem nextFrame_oversize_append {validateHeader capacity bytes required rest}
    (h : nextFrame validateHeader capacity bytes = .oversize required rest)
    (more : List UInt8) :
    nextFrame validateHeader capacity (bytes ++ more) = .oversize required (rest ++ more) := by
  match bytes, h with
  | type :: hi :: lo :: body, h =>
      simp only [List.cons_append, nextFrame] at h ⊢
      cases hvalid : validateHeader ⟨type⟩ (be16 hi lo) with
      | error e => simp [hvalid] at h
      | ok _ =>
          simp only [hvalid] at h ⊢
          split_ifs at h with hcap hlen
          cases h
          rw [if_pos hcap]

/-- A frame completed by more input takes at least one byte of it. -/
theorem nextFrame_need_length {validateHeader capacity bytes input raw rest}
    (hneed : nextFrame validateHeader capacity bytes = .need)
    (h : nextFrame validateHeader capacity (bytes ++ input) = .frame raw rest) :
    rest.length < input.length := by
  have hlen := nextFrame_rest_length h
  rw [List.length_append] at hlen
  match bytes, hneed, h, hlen with
  | [], _, _, hlen | [_], _, _, hlen | [_, _], _, _, hlen =>
      simp only [List.length_cons, List.length_nil, headerBytes] at hlen
      omega
  | type :: hi :: lo :: body, hneed, h, hlen =>
      simp only [List.cons_append, nextFrame] at hneed h
      cases hvalid : validateHeader ⟨type⟩ (be16 hi lo) with
      | error e => simp [hvalid] at h
      | ok _ =>
          simp only [hvalid] at hneed h
          split_ifs at hneed h with hcap hshort hlong
          cases h
          rw [List.length_append] at hlong
          rw [List.length_drop, List.length_append]
          omega

theorem nextFrame_oversize_length {validateHeader capacity bytes required rest}
    (h : nextFrame validateHeader capacity bytes = .oversize required rest) :
    rest.length + headerBytes = bytes.length := by
  match bytes, h with
  | type :: hi :: lo :: body, h =>
      simp only [nextFrame] at h
      cases hvalid : validateHeader ⟨type⟩ (be16 hi lo) with
      | error e => simp [hvalid] at h
      | ok _ =>
          simp only [hvalid] at h
          split_ifs at h
          cases h
          rfl

/-- A header completed by more input leaves no more than that input unread. -/
theorem nextFrame_need_oversize {validateHeader capacity bytes input required rest}
    (hneed : nextFrame validateHeader capacity bytes = .need)
    (h : nextFrame validateHeader capacity (bytes ++ input) = .oversize required rest) :
    rest.length ≤ input.length := by
  match bytes, hneed, h with
  | [], _, h | [_], _, h | [_, _], _, h =>
      have hlen := nextFrame_oversize_length h
      simp only [List.length_append, List.length_cons, List.length_nil, headerBytes] at hlen
      omega
  | type :: hi :: lo :: body, hneed, h =>
      simp only [List.cons_append, nextFrame] at hneed h
      cases hvalid : validateHeader ⟨type⟩ (be16 hi lo) with
      | error e => simp [hvalid] at h
      | ok _ =>
          simp only [hvalid] at hneed h
          split_ifs at hneed h

theorem nextFrame_invalid_append {validateHeader capacity bytes e rest}
    (h : nextFrame validateHeader capacity bytes = .invalid e rest) (more : List UInt8) :
    nextFrame validateHeader capacity (bytes ++ more) = .invalid e (rest ++ more) := by
  match bytes, h with
  | type :: hi :: lo :: body, h =>
      simp only [List.cons_append, nextFrame] at h ⊢
      cases hvalid : validateHeader ⟨type⟩ (be16 hi lo) with
      | error e' =>
          simp only [hvalid] at h ⊢
          cases h
          rfl
      | ok _ =>
          simp only [hvalid] at h
          split_ifs at h

theorem nextFrame_invalid_length {validateHeader capacity bytes e rest}
    (h : nextFrame validateHeader capacity bytes = .invalid e rest) :
    rest.length + headerBytes = bytes.length := by
  match bytes, h with
  | type :: hi :: lo :: body, h =>
      simp only [nextFrame] at h
      cases hvalid : validateHeader ⟨type⟩ (be16 hi lo) with
      | error e' =>
          simp only [hvalid] at h
          cases h
          rfl
      | ok _ =>
          simp only [hvalid] at h
          split_ifs at h

theorem nextFrame_need_invalid {validateHeader capacity bytes input e rest}
    (hneed : nextFrame validateHeader capacity bytes = .need)
    (h : nextFrame validateHeader capacity (bytes ++ input) = .invalid e rest) :
    rest.length ≤ input.length := by
  match bytes, hneed, h with
  | [], _, h | [_], _, h | [_, _], _, h =>
      have hlen := nextFrame_invalid_length h
      simp only [List.length_append, List.length_cons, List.length_nil, headerBytes] at hlen
      omega
  | type :: hi :: lo :: body, hneed, h =>
      simp only [List.cons_append, nextFrame] at hneed h
      cases hvalid : validateHeader ⟨type⟩ (be16 hi lo) with
      | error e' => simp [hvalid] at hneed
      | ok _ =>
          simp only [hvalid] at h
          split_ifs at h

namespace Framer

variable {validateHeader : WireType → ℕ → Except TypedMessageError Unit}

/-- The framer has received exactly `bytes` of a frame it has not finished:
`header` and `scratch` hold them, whatever the rest of either buffer holds. -/
def Pending (validateHeader : WireType → ℕ → Except TypedMessageError Unit)
    (f : Framer) (bytes : List UInt8) : Prop :=
  f.header.length = headerBytes ∧
    match f.state with
    | .failed => False
    | .header received =>
        received < headerBytes ∧ bytes = f.header.take received
    | .body wireType length received =>
        received < length ∧ length ≤ f.scratch.length ∧
          validateHeader wireType length = .ok () ∧
          ∃ hi lo, be16 hi lo = length ∧
            bytes = wireType.value :: hi :: lo :: f.scratch.take received

theorem pending_new (scratch : List UInt8) : (new scratch).Pending validateHeader [] := by
  simp [Pending, new, headerBytes]

theorem copyPrefix_take {buffer : List UInt8} {lo hi : ℕ} (input : List UInt8)
    (hlo : lo ≤ hi) (hhi : hi ≤ buffer.length) :
    ∃ next, copyPrefix buffer lo hi input =
        some (next, input.drop (hi - lo), min (hi - lo) input.length) ∧
      next.length = buffer.length ∧
      next.take (lo + min (hi - lo) input.length) =
        buffer.take lo ++ input.take (hi - lo) := by
  have hcount : input.take (min (hi - lo) input.length) = input.take (hi - lo) := by
    simp
  have hdrop : input.drop (min (hi - lo) input.length) = input.drop (hi - lo) := by
    rcases Nat.le_total (hi - lo) input.length with h | h
    · rw [Nat.min_eq_left h]
    · rw [Nat.min_eq_right h, List.drop_length, List.drop_of_length_le h]
  refine ⟨buffer.take lo ++ input.take (min (hi - lo) input.length) ++
    buffer.drop (lo + min (hi - lo) input.length), ?_, ?_, ?_⟩
  · simp only [copyPrefix, hlo, hhi, and_self, if_true, hdrop]
  · simp only [List.length_append, List.length_take, List.length_drop]
    omega
  · rw [hcount]
    apply List.take_left'
    simp only [List.length_append, List.length_take]
    omega

/-- The body branch keeps every byte of an input that does not finish the
frame. -/
theorem feedBody_short {f : Framer} {wireType : WireType} {length received : ℕ}
    {hi lo : UInt8} (input : List UInt8) (hheader : f.header.length = headerBytes)
    (hlength : length ≤ f.scratch.length) (hbe : be16 hi lo = length)
    (hvalid : validateHeader wireType length = .ok ())
    (hshort : received + input.length < length) :
    ∃ g : Framer, f.feedBody wireType length received input = some ⟨g, [], .ok none⟩ ∧
      g.scratch.length = f.scratch.length ∧
      g.Pending validateHeader (wireType.value :: hi :: lo :: (f.scratch.take received ++ input)) := by
  obtain ⟨next, hcopy, hnext, htake⟩ :=
    copyPrefix_take input (by omega : received ≤ length) hlength
  have hmin : min (length - received) input.length = input.length := by omega
  rw [hmin, List.take_of_length_le (by omega : input.length ≤ length - received)] at htake
  rw [hmin, List.drop_of_length_le (by omega : input.length ≤ length - received)] at hcopy
  refine ⟨{ f with scratch := next, state := .body wireType length (received + input.length) },
    ?_, hnext, hheader, hshort, hnext ▸ hlength, hvalid, hi, lo, hbe, ?_⟩
  · simp [feedBody, hcopy, hshort]
  · simp [htake]

/-- The body branch finishes the frame when the input holds the missing
bytes, and reads nothing beyond them. -/
theorem feedBody_done (validateHeader : WireType → ℕ → Except TypedMessageError Unit)
    {f : Framer} (wireType : WireType) {length received : ℕ} (input : List UInt8)
    (hheader : f.header.length = headerBytes)
    (hreceived : received ≤ length) (hlength : length ≤ f.scratch.length)
    (hdone : length ≤ received + input.length) :
    ∃ g : Framer, f.feedBody wireType length received input =
        some ⟨g, input.drop (length - received), .ok (some ⟨wireType, length⟩)⟩ ∧
      g.scratch.length = f.scratch.length ∧ g.Pending validateHeader [] ∧
      raw g.scratch ⟨wireType, length⟩ =
        some ⟨wireType, f.scratch.take received ++ input.take (length - received)⟩ := by
  obtain ⟨next, hcopy, hnext, htake⟩ := copyPrefix_take input hreceived hlength
  have hmin : min (length - received) input.length = length - received := by omega
  have hsum : received + (length - received) = length := by omega
  rw [hmin, hsum] at htake
  rw [hmin] at hcopy
  refine ⟨{ f with scratch := next, state := .header 0 }, ?_, hnext,
    ⟨hheader, by simp [headerBytes]⟩, ?_⟩
  · simp [feedBody, hcopy, hsum]
  · simp [raw, hnext, hlength, htake]

/-- What a call answers to the next decision on the pending bytes followed by
its input. A completed frame carries exactly its own body, whatever an earlier
frame left in the scratch. -/
def Answers (validateHeader : WireType → ℕ → Except TypedMessageError Unit)
    (f : Framer) (bytes : List UInt8) (fed : Option (Fed Framer (Option CompletedFrame))) :
    Next → Prop
  | .frame e rest => ∃ g frame, fed = some ⟨g, rest, .ok (some frame)⟩ ∧
      g.scratch.length = f.scratch.length ∧ g.Pending validateHeader [] ∧
      raw g.scratch frame = some e
  | .invalid e rest => ∃ g : Framer, fed = some ⟨g.fail, rest, .error (.invalidLength e)⟩
  | .oversize required rest => ∃ g : Framer,
      fed = some ⟨g.fail, rest, .error (.resourceLimit required f.scratch.length)⟩ ∧
        g.scratch.length = f.scratch.length
  | .need => ∃ g, fed = some ⟨g, [], .ok none⟩ ∧
      g.scratch.length = f.scratch.length ∧ g.Pending validateHeader bytes

theorem feedBody_answers {f : Framer} {wireType : WireType} {length received : ℕ}
    {hi lo : UInt8} (input : List UInt8) (hheader : f.header.length = headerBytes)
    (hreceived : received ≤ length) (hlength : length ≤ f.scratch.length)
    (hbe : be16 hi lo = length) (hvalid : validateHeader wireType length = .ok ()) :
    f.Answers validateHeader
      (wireType.value :: hi :: lo :: (f.scratch.take received ++ input))
      (f.feedBody wireType length received input)
      (nextFrame validateHeader f.scratch.length
        (wireType.value :: hi :: lo :: (f.scratch.take received ++ input))) := by
  have hpre : (f.scratch.take received).length = received := by
    simp only [List.length_take]
    omega
  have hlen : (f.scratch.take received ++ input).length = received + input.length := by
    rw [List.length_append, hpre]
  have hcap : ¬ f.scratch.length < length := by omega
  simp only [nextFrame, hbe, hvalid, if_neg hcap, hlen]
  by_cases hshort : received + input.length < length
  · rw [if_pos hshort]
    exact feedBody_short input hheader hlength hbe hvalid hshort
  · rw [if_neg hshort]
    obtain ⟨g, hfed, hscratch, hpending, hraw⟩ := feedBody_done validateHeader wireType
      input hheader hreceived hlength (by omega)
    refine ⟨g, ⟨wireType, length⟩, ?_, hscratch, hpending, ?_⟩
    · have hdrop : (f.scratch.take received).drop length = [] :=
        List.drop_of_length_le (by omega)
      rw [hfed, List.drop_append, hpre, hdrop, List.nil_append]
    · have htake : (f.scratch.take received).take length = f.scratch.take received :=
        List.take_of_length_le (by omega)
      rw [hraw, List.take_append, hpre, htake]

/-- A header completed by the input decides as the reference does on the three
header bytes followed by what the input still holds. -/
theorem feedHeader_full {f : Framer} {received : ℕ} {input rest : List UInt8}
    {type hi lo : UInt8} (hfull : ¬ received + (headerBytes - received) < headerBytes)
    (hcopy : copyPrefix f.header received f.header.length input =
      some ([type, hi, lo], rest, headerBytes - received)) :
    f.Answers validateHeader (type :: hi :: lo :: rest)
      (f.feedHeader received input validateHeader)
      (nextFrame validateHeader f.scratch.length (type :: hi :: lo :: rest)) := by
  simp only [feedHeader, hcopy, Option.bind_eq_bind, Option.bind_some, hfull, if_false,
    List.getElem?_cons_zero, List.getElem?_cons_succ, Option.pure_def]
  cases hvalid : validateHeader ⟨type⟩ (be16 hi lo) with
  | error e =>
      simp only [nextFrame, hvalid]
      exact ⟨_, rfl⟩
  | ok _ =>
      by_cases hcap : f.scratch.length < be16 hi lo
      · simp only [nextFrame, hvalid, if_pos hcap]
        exact ⟨_, rfl, rfl⟩
      · simp only [if_neg hcap]
        by_cases hzero : be16 hi lo = 0
        · simp only [if_pos hzero, nextFrame, hvalid, if_neg hcap]
          have hbody : ¬ rest.length < be16 hi lo := by omega
          rw [if_neg hbody]
          refine ⟨⟨f.scratch, [type, hi, lo], .header 0⟩, ⟨⟨type⟩, be16 hi lo⟩, ?_, rfl,
            ⟨rfl, by simp [headerBytes]⟩, ?_⟩
          · rw [hzero, List.drop_zero]
          · simp [raw, hzero]
        · simp only [if_neg hzero]
          exact feedBody_answers
            (f := ⟨f.scratch, [type, hi, lo], .body ⟨type⟩ (be16 hi lo) 0⟩) rest rfl
            (Nat.zero_le _) (Nat.le_of_not_lt hcap) rfl hvalid

theorem feedHeader_answers {f : Framer} {received : ℕ} (input : List UInt8)
    (hheader : f.header.length = headerBytes) (hreceived : received < headerBytes) :
    f.Answers validateHeader (f.header.take received ++ input)
      (f.feedHeader received input validateHeader)
      (nextFrame validateHeader f.scratch.length (f.header.take received ++ input)) := by
  obtain ⟨next, hcopy, hnext, htake⟩ :=
    copyPrefix_take input (hheader ▸ hreceived.le : received ≤ f.header.length) le_rfl
  have hpre : (f.header.take received).length = received := by
    simp only [List.length_take]
    omega
  by_cases hshort : received + input.length < headerBytes
  · have hlen : input.length ≤ f.header.length - received := by omega
    have hneed : nextFrame validateHeader f.scratch.length
        (f.header.take received ++ input) = .need := by
      have hthree : (f.header.take received ++ input).length < 3 := by
        rw [List.length_append, hpre]
        exact hshort
      match f.header.take received ++ input, hthree with
      | [], _ | [_], _ | [_, _], _ => rfl
    rw [Nat.min_eq_right hlen, List.take_of_length_le hlen] at htake
    rw [Nat.min_eq_right hlen, List.drop_of_length_le hlen] at hcopy
    rw [hneed]
    refine ⟨{ f with header := next, state := .header (received + input.length) }, ?_, rfl,
      hnext.trans hheader, hshort, htake.symm⟩
    simp [feedHeader, hcopy, hshort]
  · have hlen : f.header.length - received ≤ input.length := by omega
    have hsum : received + (f.header.length - received) = f.header.length := by omega
    rw [Nat.min_eq_left hlen, hsum, List.take_of_length_le hnext.le] at htake
    rw [Nat.min_eq_left hlen] at hcopy
    obtain ⟨type, hi, lo, rfl⟩ := List.length_eq_three.mp (hnext.trans hheader)
    have hbytes : f.header.take received ++ input =
        type :: hi :: lo :: input.drop (f.header.length - received) := by
      calc
        _ = (f.header.take received ++ input.take (f.header.length - received)) ++
            input.drop (f.header.length - received) := by
          rw [List.append_assoc, List.take_append_drop]
        _ = _ := by
          rw [← htake]
          rfl
    rw [hbytes]
    exact feedHeader_full (by omega) (by rw [hcopy, hheader])

/-- One call on a framer that holds `bytes` of an unfinished frame answers for
`bytes ++ input`. No slice range in it is out of bounds. -/
theorem feed_spec {f : Framer} {bytes : List UInt8} (hf : f.Pending validateHeader bytes)
    (input : List UInt8) :
    f.Answers validateHeader (bytes ++ input) (f.feed input validateHeader)
      (nextFrame validateHeader f.scratch.length (bytes ++ input)) := by
  obtain ⟨hheader, hstate⟩ := hf
  cases hs : f.state with
  | failed => simp [hs] at hstate
  | header received =>
      rw [hs] at hstate
      obtain ⟨hreceived, rfl⟩ := hstate
      simpa only [feed, hs] using feedHeader_answers input hheader hreceived
  | body wireType length received =>
      rw [hs] at hstate
      obtain ⟨hreceived, hlength, hvalid, hi, lo, hbe, rfl⟩ := hstate
      simpa only [feed, hs, List.cons_append] using
        feedBody_answers input hheader hreceived.le hlength hbe hvalid

theorem Pending.need {f : Framer} {bytes : List UInt8} (hf : f.Pending validateHeader bytes) :
    nextFrame validateHeader f.scratch.length bytes = .need := by
  obtain ⟨hheader, hstate⟩ := hf
  cases hs : f.state with
  | failed => simp [hs] at hstate
  | header received =>
      rw [hs] at hstate
      obtain ⟨hreceived, rfl⟩ := hstate
      have hthree : (f.header.take received).length < 3 := by
        rw [List.length_take]
        exact (Nat.min_le_left _ _).trans_lt hreceived
      match f.header.take received, hthree with
      | [], _ | [_], _ | [_, _], _ => rfl
  | body wireType length received =>
      rw [hs] at hstate
      obtain ⟨hreceived, hlength, hvalid, hi, lo, hbe, rfl⟩ := hstate
      have hcap : ¬ f.scratch.length < length := by omega
      have hshort : (f.scratch.take received).length < length := by
        rw [List.length_take]
        omega
      simp only [nextFrame, hbe, hvalid, if_neg hcap, if_pos hshort]

end Framer

namespace RawDecoder

/-- The decoder has received exactly `bytes` of an unfinished frame. -/
def Pending (d : RawDecoder) (bytes : List UInt8) : Prop := d.framer.Pending anyLength bytes

def Failed (d : RawDecoder) : Prop := d.framer.state = .failed

theorem pending_new (scratch : List UInt8) : (new scratch).Pending [] :=
  Framer.pending_new scratch

theorem Pending.need {d : RawDecoder} {bytes : List UInt8} (hd : d.Pending bytes) :
    nextFrame anyLength d.capacity bytes = .need :=
  Framer.Pending.need hd

/-- The bytes of the unfinished frame are determined by the decoder. -/
theorem Pending.unique {d : RawDecoder} {xs ys : List UInt8} (hx : d.Pending xs)
    (hy : d.Pending ys) : xs = ys := by
  obtain ⟨_, hx⟩ := hx
  obtain ⟨_, hy⟩ := hy
  cases hs : d.framer.state with
  | failed => simp [hs] at hx
  | header received =>
      rw [hs] at hx hy
      exact hx.2.trans hy.2.symm
  | body wireType length received =>
      rw [hs] at hx hy
      obtain ⟨_, _, _, hi, lo, hbe, rfl⟩ := hx
      obtain ⟨_, _, _, hi', lo', hbe', rfl⟩ := hy
      obtain ⟨rfl, rfl⟩ := be16_injective (hbe.trans hbe'.symm)
      rfl

/-- What one raw `feed` answers to the next decision on the pending bytes
followed by its input. -/
def Answers (d : RawDecoder) (bytes : List UInt8)
    (fed : Option (Fed RawDecoder (DecodeOutcome RawEnvelope))) : Next → Prop
  | .frame raw rest => ∃ next, fed = some ⟨next, rest, .ok (.frame raw)⟩ ∧
      next.capacity = d.capacity ∧ next.Pending []
  | .invalid _ _ => False
  | .oversize required rest => ∃ next,
      fed = some ⟨next, rest, .error (.resourceLimit required d.capacity)⟩ ∧
        next.capacity = d.capacity ∧ next.Failed
  | .need => ∃ next, fed = some ⟨next, [], .ok .needInput⟩ ∧
      next.capacity = d.capacity ∧ next.Pending bytes

theorem feed_spec {d : RawDecoder} {bytes : List UInt8} (hd : d.Pending bytes)
    (input : List UInt8) :
    d.Answers (bytes ++ input) (d.feed input)
      (nextFrame anyLength d.capacity (bytes ++ input)) := by
  have hspec := Framer.feed_spec hd input
  unfold capacity
  cases hnext : nextFrame anyLength d.framer.scratch.length (bytes ++ input) with
  | frame raw rest =>
      rw [hnext] at hspec
      obtain ⟨g, frame, hfed, hscratch, hpending, hraw⟩ := hspec
      exact ⟨⟨g⟩, by simp [feed, hfed, hraw], hscratch, hpending⟩
  | invalid e rest =>
      match bytes ++ input, hnext with
      | type :: hi :: lo :: body, h =>
          simp only [nextFrame, anyLength] at h
          split_ifs at h
  | oversize required rest =>
      rw [hnext] at hspec
      obtain ⟨g, hfed, hscratch⟩ := hspec
      exact ⟨⟨g.fail⟩, by simp [feed, hfed, capacity], hscratch, rfl⟩
  | need =>
      rw [hnext] at hspec
      obtain ⟨g, hfed, hscratch, hpending⟩ := hspec
      exact ⟨⟨g⟩, by simp [feed, hfed], hscratch, hpending⟩

/-- Failure is absorbing: a later call reports it and consumes nothing. -/
theorem feed_of_failed {d : RawDecoder} (hd : d.Failed) (input : List UInt8) :
    d.feed input = some ⟨d, input, .error .failed⟩ := by
  have hstate : d.framer.state = .failed := hd
  simp [feed, Framer.feed, hstate]

theorem finish_of_failed {d : RawDecoder} (hd : d.Failed) : d.finish = .error .failed := by
  have hstate : d.framer.state = .failed := hd
  simp [finish, Framer.finish, hstate]

end RawDecoder

end Phonowire.AudioSocket
