import Phonowire.AudioSocket.Decoder

/-!
# Streaming framing equals the whole-stream parse

`parseFrames` reads a complete byte string in one pass. `feedChunks` drives a
`RawDecoder` over an arbitrary cutting of the same string. The two agree on the
frames, on the error with the number of bytes consumed, and on `finish`.
-/

namespace Phonowire.AudioSocket

/-- Where the whole-stream parse ends: at the header of a frame whose body
exceeds the capacity, or with the bytes of an unfinished frame. -/
inductive Stop where
  | oversize (position required : ℕ)
  | tail (bytes : List UInt8)
  deriving DecidableEq, Repr

/-- The result `finish` must give at a stop. -/
def Stop.finish : Stop → Except FinishError Unit
  | .oversize _ _ => .error .failed
  | .tail (_ :: hi :: lo :: body) => .error (.truncatedPayload (be16 hi lo) body.length)
  | .tail [] => .ok ()
  | .tail bytes => .error (.truncatedHeader headerBytes bytes.length)

structure Parse where
  frames : List RawEnvelope
  stop : Stop
  deriving DecidableEq, Repr

def Parse.prepend (frames : List RawEnvelope) (p : Parse) : Parse := ⟨frames ++ p.frames, p.stop⟩

@[simp] theorem Parse.prepend_nil (p : Parse) : p.prepend [] = p := rfl

theorem Parse.prepend_prepend (xs ys : List RawEnvelope) (p : Parse) :
    (p.prepend ys).prepend xs = p.prepend (xs ++ ys) := by
  simp [prepend]

/-- The complete frames of `bytes`, which start at stream position `position`,
that precede the first header declaring more than `capacity` body bytes. -/
def parseFrames (capacity position : ℕ) (bytes : List UInt8) : Parse :=
  match _h : nextFrame RawDecoder.anyLength capacity bytes with
  | .frame raw rest =>
      (parseFrames capacity (position + headerBytes + raw.payload.length) rest).prepend [raw]
  | .oversize required _ => ⟨[], .oversize position required⟩
  | _ => ⟨[], .tail bytes⟩
  termination_by bytes.length
  decreasing_by
    have := nextFrame_rest_length _h
    simp only [headerBytes] at this
    omega

theorem parseFrames_frame {capacity position : ℕ} {bytes rest : List UInt8}
    {raw : RawEnvelope} (h : nextFrame RawDecoder.anyLength capacity bytes = .frame raw rest) :
    parseFrames capacity position bytes =
      (parseFrames capacity (position + headerBytes + raw.payload.length) rest).prepend [raw] := by
  rw [parseFrames]
  split
  · next raw' rest' h' =>
      rw [h] at h'
      cases h'
      rfl
  all_goals simp_all

theorem parseFrames_oversize {capacity position required : ℕ} {bytes rest : List UInt8}
    (h : nextFrame RawDecoder.anyLength capacity bytes = .oversize required rest) :
    parseFrames capacity position bytes = ⟨[], .oversize position required⟩ := by
  rw [parseFrames]
  split <;> simp_all

theorem parseFrames_need {capacity position : ℕ} {bytes : List UInt8}
    (h : nextFrame RawDecoder.anyLength capacity bytes = .need) :
    parseFrames capacity position bytes = ⟨[], .tail bytes⟩ := by
  rw [parseFrames]
  split <;> simp_all

/-! ## Driving a decoder over chunks -/

/-- What one chunk leaves behind: the decoder, the emitted envelopes, the
unread part of the chunk and the first error. -/
structure ChunkRun where
  decoder : RawDecoder
  frames : List RawEnvelope
  rest : List UInt8
  error : Option DecodeError
  deriving DecidableEq, Repr

def DecodeOutcome.toList {α : Type} : DecodeOutcome α → List α
  | .needInput => []
  | .frame message => [message]

/-- Feed until the chunk is empty, at least once, stopping at the first error.
The fuel bounds the number of further calls. -/
def feedChunk : ℕ → RawDecoder → List UInt8 → Option ChunkRun
  | fuel, d, input => do
      let fed ← d.feed input
      match fed.result with
      | .error e => some ⟨fed.next, [], fed.rest, some e⟩
      | .ok outcome =>
          if fed.rest = [] then some ⟨fed.next, outcome.toList, [], none⟩
          else
            match fuel with
            | 0 => none
            | fuel + 1 =>
                let later ← feedChunk fuel fed.next fed.rest
                some { later with frames := outcome.toList ++ later.frames }

structure StreamRun where
  decoder : RawDecoder
  frames : List RawEnvelope
  consumed : ℕ
  error : Option DecodeError
  deriving DecidableEq, Repr

def feedChunks : RawDecoder → List (List UInt8) → Option StreamRun
  | d, [] => some ⟨d, [], 0, none⟩
  | d, chunk :: chunks => do
      let run ← feedChunk chunk.length d chunk
      let consumed := chunk.length - run.rest.length
      match run.error with
      | some e => some ⟨run.decoder, run.frames, consumed, some e⟩
      | none =>
          let later ← feedChunks run.decoder chunks
          some ⟨later.decoder, run.frames ++ later.frames, consumed + later.consumed,
            later.error⟩

/-- A chunk run that met no error: the decoder holds the unfinished `tail`, and
the parse of any continuation starts with the emitted frames. -/
def ChunkRun.Continues (run : ChunkRun) (d : RawDecoder) (bytes input : List UInt8) : Prop :=
  run.error = none ∧ run.rest = [] ∧ run.decoder.capacity = d.capacity ∧
    ∃ tail, run.decoder.Pending tail ∧ ∀ position more, ∃ next,
      next + tail.length = position + bytes.length + input.length ∧
      parseFrames d.capacity position (bytes ++ input ++ more) =
        (parseFrames d.capacity next (tail ++ more)).prepend run.frames

/-- A chunk run that met an error: the parse of any continuation stops at the
same oversized header, three bytes before the unread input. -/
def ChunkRun.Stops (run : ChunkRun) (d : RawDecoder) (bytes input : List UInt8) : Prop :=
  run.decoder.Failed ∧ run.rest.length ≤ input.length ∧
    ∃ required, run.error = some (.resourceLimit required d.capacity) ∧
      ∀ position more, ∃ start,
        start + headerBytes + run.rest.length = position + bytes.length + input.length ∧
        parseFrames d.capacity position (bytes ++ input ++ more) =
          ⟨run.frames, .oversize start required⟩

theorem parseFrames_after_frame {d : RawDecoder} {bytes input rest : List UInt8}
    {raw : RawEnvelope}
    (hnext : nextFrame RawDecoder.anyLength d.capacity (bytes ++ input) = .frame raw rest)
    (position : ℕ) (more : List UInt8) :
    parseFrames d.capacity position (bytes ++ input ++ more) =
      (parseFrames d.capacity (position + headerBytes + raw.payload.length)
        ([] ++ rest ++ more)).prepend [raw] := by
  simpa using parseFrames_frame (nextFrame_frame_append hnext more)

section AfterFrame

variable {run : ChunkRun} {d next : RawDecoder} {bytes input rest : List UInt8}
  {raw : RawEnvelope}

theorem ChunkRun.Continues.cons (h : run.Continues next [] rest)
    (hnext : nextFrame RawDecoder.anyLength d.capacity (bytes ++ input) = .frame raw rest)
    (hcap : next.capacity = d.capacity) :
    { run with frames := [raw] ++ run.frames }.Continues d bytes input := by
  obtain ⟨herror, hread, hcap', tail, htail, hlater⟩ := h
  have hlen := nextFrame_rest_length hnext
  rw [List.length_append] at hlen
  refine ⟨herror, hread, hcap'.trans hcap, tail, htail, ?_⟩
  intro position more
  obtain ⟨start, hstart, heq⟩ := hlater (position + headerBytes + raw.payload.length) more
  refine ⟨start, ?_, ?_⟩
  · rw [hstart, List.length_nil]
    omega
  · rw [parseFrames_after_frame hnext, ← hcap, heq, Parse.prepend_prepend]

theorem ChunkRun.Stops.cons (h : run.Stops next [] rest)
    (hnext : nextFrame RawDecoder.anyLength d.capacity (bytes ++ input) = .frame raw rest)
    (hless : rest.length < input.length) (hcap : next.capacity = d.capacity) :
    { run with frames := [raw] ++ run.frames }.Stops d bytes input := by
  obtain ⟨hfailed, hread, required, herror, hlater⟩ := h
  have hlen := nextFrame_rest_length hnext
  rw [List.length_append] at hlen
  refine ⟨hfailed, hread.trans hless.le, required, hcap ▸ herror, ?_⟩
  intro position more
  obtain ⟨start, hstart, heq⟩ := hlater (position + headerBytes + raw.payload.length) more
  refine ⟨start, ?_, ?_⟩
  · dsimp only
    rw [hstart, List.length_nil]
    omega
  · rw [parseFrames_after_frame hnext, ← hcap, heq]
    rfl

end AfterFrame

theorem feedChunk_error {fuel : ℕ} {d next : RawDecoder} {input rest : List UInt8}
    {e : DecodeError} (hfed : d.feed input = some ⟨next, rest, .error e⟩) :
    feedChunk fuel d input = some ⟨next, [], rest, some e⟩ := by
  rw [feedChunk]
  simp [hfed]

theorem feedChunk_last {fuel : ℕ} {d next : RawDecoder} {input : List UInt8}
    {outcome : DecodeOutcome RawEnvelope} (hfed : d.feed input = some ⟨next, [], .ok outcome⟩) :
    feedChunk fuel d input = some ⟨next, outcome.toList, [], none⟩ := by
  rw [feedChunk]
  simp [hfed]

theorem feedChunk_more {fuel : ℕ} {d next : RawDecoder} {input rest : List UInt8}
    {outcome : DecodeOutcome RawEnvelope} {run : ChunkRun}
    (hfed : d.feed input = some ⟨next, rest, .ok outcome⟩) (hrest : rest ≠ [])
    (hrun : feedChunk fuel next rest = some run) :
    feedChunk (fuel + 1) d input =
      some { run with frames := outcome.toList ++ run.frames } := by
  rw [feedChunk]
  simp [hfed, hrest, hrun]

theorem feedChunk_spec (fuel : ℕ) {d : RawDecoder} {bytes input : List UInt8}
    (hd : d.Pending bytes) (hfuel : input.length ≤ fuel) :
    ∃ run, feedChunk fuel d input = some run ∧
      (run.Continues d bytes input ∨ run.Stops d bytes input) := by
  induction fuel generalizing d bytes input with
  | zero =>
      obtain rfl : input = [] := List.length_eq_zero_iff.mp (Nat.le_zero.mp hfuel)
      have hspec := RawDecoder.feed_spec hd []
      rw [List.append_nil, hd.need] at hspec
      obtain ⟨next, hfed, hcap, hpending⟩ := hspec
      refine ⟨⟨next, [], [], none⟩, feedChunk_last hfed,
        Or.inl ⟨rfl, rfl, hcap, bytes, hpending, ?_⟩⟩
      intro position more
      exact ⟨position, by simp, by simp⟩
  | succ fuel ih =>
      have hspec := RawDecoder.feed_spec hd input
      cases hnext : nextFrame RawDecoder.anyLength d.capacity (bytes ++ input) with
      | invalid e rest => simp [hnext, RawDecoder.Answers] at hspec
      | need =>
          rw [hnext] at hspec
          obtain ⟨next, hfed, hcap, hpending⟩ := hspec
          refine ⟨⟨next, [], [], none⟩, feedChunk_last hfed,
            Or.inl ⟨rfl, rfl, hcap, bytes ++ input, hpending, ?_⟩⟩
          intro position more
          exact ⟨position, by simp [Nat.add_assoc], by simp⟩
      | oversize required rest =>
          rw [hnext] at hspec
          obtain ⟨next, hfed, _, hfailed⟩ := hspec
          have hlen := nextFrame_oversize_length hnext
          rw [List.length_append] at hlen
          refine ⟨⟨next, [], rest, some (.resourceLimit required d.capacity)⟩,
            feedChunk_error hfed,
            Or.inr ⟨hfailed, nextFrame_need_oversize hd.need hnext, required, rfl, ?_⟩⟩
          intro position more
          refine ⟨position, ?_, parseFrames_oversize (nextFrame_oversize_append hnext more)⟩
          dsimp only
          omega
      | frame raw rest =>
          rw [hnext] at hspec
          obtain ⟨next, hfed, hcap, hpending⟩ := hspec
          have hless := nextFrame_need_length hd.need hnext
          by_cases hrest : rest = []
          · subst hrest
            have hdone : (⟨next, [], [], none⟩ : ChunkRun).Continues next [] [] := by
              refine ⟨rfl, rfl, rfl, [], hpending, ?_⟩
              intro position more
              exact ⟨position, by simp, by simp⟩
            exact ⟨⟨next, [raw] ++ [], [], none⟩, feedChunk_last hfed,
              Or.inl (hdone.cons hnext hcap)⟩
          · obtain ⟨run, hrun, hcase⟩ := ih hpending (by omega : rest.length ≤ fuel)
            refine ⟨{ run with frames := [raw] ++ run.frames },
              feedChunk_more hfed hrest hrun, ?_⟩
            rcases hcase with hcontinues | hstops
            · exact Or.inl (hcontinues.cons hnext hcap)
            · exact Or.inr (hstops.cons hnext hless hcap)

/-! ## The whole stream -/

theorem Framer.Pending.finish {validateHeader : WireType → ℕ → Except TypedMessageError Unit}
    {f : Framer} {bytes : List UInt8} (hf : f.Pending validateHeader bytes) :
    f.finish = (Stop.tail bytes).finish := by
  obtain ⟨hheader, hstate⟩ := hf
  unfold Framer.finish
  cases hs : f.state with
  | failed => simp [hs] at hstate
  | header received =>
      rw [hs] at hstate
      obtain ⟨hreceived, rfl⟩ := hstate
      obtain ⟨a, b, c, habc⟩ := List.length_eq_three.mp hheader
      have hthree : received = 0 ∨ received = 1 ∨ received = 2 := by
        simp only [headerBytes] at hreceived
        omega
      rcases hthree with rfl | rfl | rfl <;> simp [Stop.finish, habc]
  | body wireType length received =>
      rw [hs] at hstate
      obtain ⟨hreceived, hlength, _, hi, lo, hbe, rfl⟩ := hstate
      simp only [Stop.finish, hbe, List.length_take]
      rw [Nat.min_eq_left (by omega)]

theorem RawDecoder.Pending.finish {d : RawDecoder} {bytes : List UInt8}
    (hd : d.Pending bytes) : d.finish = (Stop.tail bytes).finish :=
  Framer.Pending.finish hd

/-- The run of a decoder agrees with the parse of the bytes it was given, when
`before` bytes of the stream precede them. -/
def StreamRun.Agrees (run : StreamRun) (capacity before total : ℕ) (parse : Parse) : Prop :=
  run.frames = parse.frames ∧ run.decoder.finish = parse.stop.finish ∧
    match parse.stop with
    | .oversize start required =>
        run.error = some (.resourceLimit required capacity) ∧
          before + run.consumed = start + headerBytes ∧
          ∀ input, run.decoder.feed input = some ⟨run.decoder, input, .error .failed⟩
    | .tail _ => run.error = none ∧ run.consumed = total

theorem feedChunks_agrees (chunks : List (List UInt8)) {d : RawDecoder} {bytes : List UInt8}
    (hd : d.Pending bytes) (position : ℕ) :
    ∃ run, feedChunks d chunks = some run ∧
      run.Agrees d.capacity (position + bytes.length) chunks.flatten.length
        (parseFrames d.capacity position (bytes ++ chunks.flatten)) := by
  induction chunks generalizing d bytes position with
  | nil =>
      refine ⟨⟨d, [], 0, none⟩, rfl, ?_⟩
      rw [List.flatten_nil, List.append_nil, parseFrames_need hd.need]
      exact ⟨rfl, hd.finish, rfl, rfl⟩
  | cons chunk chunks ih =>
      obtain ⟨run, hrun, hcase⟩ := feedChunk_spec chunk.length hd le_rfl
      rw [List.flatten_cons, ← List.append_assoc]
      rcases hcase with ⟨herror, hread, hcap, tail, htail, hlater⟩ |
        ⟨hfailed, hread, required, herror, hlater⟩
      · obtain ⟨next, hnext, hparse⟩ := hlater position chunks.flatten
        obtain ⟨later, hfeed, hframes, hfinish, hstop⟩ := ih htail next
        rw [hcap] at hframes hfinish hstop
        refine ⟨⟨later.decoder, run.frames ++ later.frames,
          chunk.length - run.rest.length + later.consumed, later.error⟩, ?_, ?_⟩
        · simp [feedChunks, hrun, herror, hfeed]
        · rw [hparse]
          refine ⟨by simp [Parse.prepend, hframes], hfinish, ?_⟩
          simp only [Parse.prepend, hread, List.length_nil, Nat.sub_zero, List.length_append]
          cases hend : (parseFrames d.capacity next (tail ++ chunks.flatten)).stop with
          | oversize start required =>
              rw [hend] at hstop
              exact ⟨hstop.1, by omega, hstop.2.2⟩
          | tail rest =>
              rw [hend] at hstop
              exact ⟨hstop.1, by omega⟩
      · obtain ⟨start, hstart, hparse⟩ := hlater position chunks.flatten
        refine ⟨⟨run.decoder, run.frames, chunk.length - run.rest.length,
          some (.resourceLimit required d.capacity)⟩, ?_, ?_⟩
        · simp [feedChunks, hrun, herror]
        · rw [hparse]
          refine ⟨rfl, RawDecoder.finish_of_failed hfailed, rfl, ?_,
            fun input ↦ RawDecoder.feed_of_failed hfailed input⟩
          dsimp only
          omega

/-- Streaming framing equals the whole-stream parse, for every scratch content
and every cutting of the stream, empty chunks included. The emitted envelopes
are the complete frames before the first oversized header. At such a header the
run has consumed exactly its three bytes, and failure is absorbing; otherwise
everything is consumed and `finish` names the truncation. The run is not `none`:
no slice range is out of bounds and the drive ends. -/
theorem feedChunks_eq_parseFrames (scratch : List UInt8) (chunks : List (List UInt8)) :
    ∃ run, feedChunks (RawDecoder.new scratch) chunks = some run ∧
      run.frames = (parseFrames scratch.length 0 chunks.flatten).frames ∧
      run.decoder.finish = (parseFrames scratch.length 0 chunks.flatten).stop.finish ∧
      match (parseFrames scratch.length 0 chunks.flatten).stop with
      | .oversize start required =>
          run.error = some (.resourceLimit required scratch.length) ∧
            run.consumed = start + headerBytes ∧
            ∀ input, run.decoder.feed input = some ⟨run.decoder, input, .error .failed⟩
      | .tail _ => run.error = none ∧ run.consumed = chunks.flatten.length := by
  obtain ⟨run, hrun, hframes, hfinish, hstop⟩ :=
    feedChunks_agrees chunks (RawDecoder.pending_new scratch) 0
  have hcap : (RawDecoder.new scratch).capacity = scratch.length := rfl
  simp only [hcap, List.nil_append, List.length_nil, Nat.add_zero, Nat.zero_add] at *
  exact ⟨run, hrun, hframes, hfinish, hstop⟩

end Phonowire.AudioSocket
