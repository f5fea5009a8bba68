import Phonowire.Receiver.Alone
import Phonowire.Receiver.Ledger
import Phonowire.Receiver.RecordingExact

/-!
# A receiver and a recorder

The records that a connection hands off, fed in order to a recorder of its rate
over writers that do not fail, are accepted one by one. A recorder refuses only
by size: the audio of a WAVE file is below 2³² bytes, and the diagnostic output
is counted in 64 bits.
-/

namespace Phonowire.Receiver

open AudioSocket

/-! ## Writers that do not fail -/

/-- The call takes a byte or is to be repeated. -/
def WriteOutcome.Works : WriteOutcome → Prop
  | .accept count => 0 < count
  | .fail e => e.kind = .interrupted

instance : DecidablePred WriteOutcome.Works
  | .accept count => inferInstanceAs (Decidable (0 < count))
  | .fail e => inferInstanceAs (Decidable (e.kind = .interrupted))

structure Writer.Steady (w : Writer) : Prop where
  script : ∀ outcome ∈ w.script, outcome.Works
  seek : w.seekError = none
  flush : w.flushError = none

theorem writeLoop_steady (script : List WriteOutcome) (sink : Sink) (bytes : List UInt8)
    (count : ℕ) (h : ∀ outcome ∈ script, outcome.Works) :
    (writeLoop script sink bytes count).result = .ok () ∧
      ∀ outcome ∈ (writeLoop script sink bytes count).script, outcome.Works := by
  fun_induction writeLoop script sink bytes count with
  | case1 script sink count => exact ⟨rfl, h⟩
  | case2 sink bytes count hne => exact ⟨rfl, h⟩
  | case3 e script sink bytes count hne hkind ih =>
      exact ih fun outcome hmem ↦ h outcome (List.mem_cons_of_mem _ hmem)
  | case4 e script sink bytes count hne hkind => exact absurd (h _ List.mem_cons_self) hkind
  | case5 k script sink bytes count hne written hzero =>
      have hpos : 0 < k := h _ List.mem_cons_self
      have hlength : 0 < bytes.length := List.length_pos_of_ne_nil hne
      simp only [written] at hzero
      omega
  | case6 k script sink bytes count hne written hpos ih =>
      exact ih fun outcome hmem ↦ h outcome (List.mem_cons_of_mem _ hmem)

theorem Writer.Steady.write {w : Writer} (h : w.Steady) (bytes : List UInt8) (count : ℕ) :
    (w.after (writeCount w bytes count)).Steady ∧
      (writeCount w bytes count).result =
        if u64Max < count + bytes.length then .error countOverflow else .ok () := by
  unfold writeCount
  cases hadd : checkedAdd count bytes.length with
  | none =>
      rw [if_pos (checkedAdd_eq_none_iff.mp hadd)]
      exact ⟨h, rfl⟩
  | some next =>
      obtain ⟨hfits, _⟩ := checkedAdd_eq_some_iff.mp hadd
      obtain ⟨hok, hscript⟩ := writeLoop_steady w.script w.sink bytes count h.script
      rw [if_neg (by omega)]
      exact ⟨⟨hscript, h.seek, h.flush⟩, hok⟩

namespace Recording

structure Steady (r : Recording) : Prop where
  wire : r.wire.Steady
  wave : r.wave.Steady
  events : r.events.Steady

/-- The recorder has accepted the records of this ledger. -/
structure Matches (r : Recording) (l : Ledger) : Prop where
  state : r.state = l.state
  last : r.lastEventOffset = l.last
  wire : r.summary.wireBytes = l.wire

section Validation

variable {r : Recording} {l m : Ledger} {record : Record}

theorem validate_event (hid : record.connection = r.id) (hwire : record.kind.isWire = false)
    (hafter : r.lastEventOffset ≤ record.offset) (hwithin : record.offset ≤ r.summary.wireBytes)
    (hstate : r.state = .awaitingConnection ∧ record.kind.isConnected = true ∨ r.state.Underway) :
    r.validate record = r.validateKind record.offset record.kind := by
  have hwindow : ¬ (record.offset < r.lastEventOffset ∨ r.summary.wireBytes < record.offset) := by
    omega
  unfold validate
  rcases hstate with ⟨hstate, hconnected⟩ | hunderway
  · simp [hid, hstate, hconnected, hwindow]
  · cases hstate : r.state <;> simp_all [RecordingState.Underway]

/-- The size of the audio after a frame decides whether it is taken. -/
theorem validateKind_audio {uuid : Uuid} {bytes : OwnedBytes} (offset : ℕ)
    (hidentity : r.identity = some uuid) (heven : bytes.bytes.length % sampleBytes = 0) :
    r.validateKind offset (.audio uuid r.sampleRate bytes) =
      if u32Max < r.summary.audioBytes + bytes.bytes.length + riffOverhead then .error .waveSize
      else .ok r.state := by
  have hmax : u32Max ≤ u64Max := by decide
  simp only [validateKind, hidentity, heven, ne_eq, not_true_eq_false, or_self, if_false]
  cases hadd : checkedAdd r.summary.audioBytes bytes.bytes.length with
  | none =>
      have hover := checkedAdd_eq_none_iff.mp hadd
      rw [if_pos (by omega)]
  | some next =>
      obtain ⟨_, rfl⟩ := checkedAdd_eq_some_iff.mp hadd
      simp only [waveHeader]
      split_ifs
      · rfl
      · omega
      · rfl
      · rfl

/-- Only the size of the audio can make a recorder refuse a record that the
ledger takes. -/
theorem validate_takes (hmatches : r.Matches l) (htakes : l.Takes r.id r.sampleRate record m)
    (hsize : r.summary.audioBytes + riffOverhead ≤ u32Max) :
    r.validate record =
      if u32Max < r.summary.audioBytes + record.audioBytes.length + riffOverhead then
        .error .waveSize
      else .ok m.state := by
  obtain ⟨hstate, hlast, hwire⟩ := hmatches
  have hnone : ¬ u32Max < r.summary.audioBytes + ([] : List UInt8).length + riffOverhead := by
    rw [List.length_nil]
    omega
  cases htakes with
  | wire hid hkind hunderway hoffset hmax =>
      have hbytes : record.audioBytes = [] := by simp [Record.audioBytes, hkind]
      rw [hbytes, if_neg hnone]
      cases hl : l.state <;>
        simp_all [validate, validateKind, RecordKind.isWire, RecordKind.isConnected,
          RecordingState.Underway]
  | @event state hid hafter hwithin hadvances =>
      rw [← hlast] at hafter
      rw [← hwire] at hwithin
      rw [← hstate] at hadvances
      dsimp only
      unfold Record.audioBytes
      generalize hkind : record.kind = kind at hadvances
      generalize hfrom : r.state = source at hadvances
      have hkinds : record.kind.isWire = false ∧ (r.state = .awaitingConnection ∧
          record.kind.isConnected = true ∨ r.state.Underway) := by
        rw [hkind, hfrom]
        cases hadvances <;> simp [RecordKind.isWire, RecordKind.isConnected, RecordingState.Underway]
      rw [validate_event hid hkinds.1 hafter hwithin hkinds.2, hkind]
      cases hadvances with
      | audio uuid heven =>
          rw [validateKind_audio _ (by rw [identity, hfrom]; rfl) heven, hfrom]
      | _ =>
          rw [if_neg hnone]
          simp [validateKind, identity, hfrom, RecordingState.identity]

theorem takes_ne_failed {id : ConnectionId} {rate : SampleRate}
    (htakes : l.Takes id rate record m) : l.state ≠ .failed ∧ m.state ≠ .failed := by
  cases htakes with
  | wire hid hkind hunderway hoffset hmax =>
      have hne : l.state ≠ .failed := by
        intro hfailed
        rw [hfailed] at hunderway
        exact hunderway
      exact ⟨hne, hne⟩
  | event hid hafter hwithin hadvances =>
      generalize record.kind = kind, l.state = source at hadvances
      cases hadvances <;> simp

theorem takes_wire_le {id : ConnectionId} {rate : SampleRate} (htakes : l.Takes id rate record m)
    (hmax : l.wire ≤ u64Max) : l.wire + record.wireBytes.length ≤ u64Max := by
  unfold Record.wireBytes
  cases htakes with
  | wire hid hkind hunderway hoffset hfits => simpa [hkind] using hfits
  | event hid hafter hwithin hadvances =>
      generalize record.kind = kind, l.state = source at hadvances
      cases hadvances <;> simpa using hmax

theorem length_wireBytes (record : Record) : record.wireBytes.length = record.kind.wireLength := by
  unfold Record.wireBytes
  cases record.kind <;> rfl

/-- The payload of a record that fits is written in full. -/
theorem writePayload_steady (hsteady : r.Steady)
    (hwire : r.summary.wireBytes + record.wireBytes.length ≤ u64Max)
    (haudio : r.summary.audioBytes + record.audioBytes.length ≤ u64Max) :
    ∃ s stage, r.writePayload record.kind = (s, stage, .ok ()) ∧ s.Steady ∧ s.id = r.id ∧
      s.lastEventOffset = r.lastEventOffset ∧ s.summary.eventBytes = r.summary.eventBytes ∧
      s.summary.ending = r.summary.ending := by
  unfold Record.wireBytes at hwire
  unfold Record.audioBytes at haudio
  generalize record.kind = kind at *
  cases kind with
  | wire bytes =>
      obtain ⟨hnext, hresult⟩ := hsteady.wire.write bytes.bytes r.summary.wireBytes
      rw [if_neg hwire.not_gt] at hresult
      exact ⟨(r.writeWire bytes.bytes).1, .wire, Prod.ext rfl (Prod.ext rfl hresult),
        ⟨hnext, hsteady.wave, hsteady.events⟩, rfl, rfl, rfl, rfl⟩
  | audio uuid rate bytes =>
      obtain ⟨hnext, hresult⟩ := hsteady.wave.write bytes.bytes r.summary.audioBytes
      rw [if_neg haudio.not_gt] at hresult
      exact ⟨(r.writeAudio bytes.bytes).1, .audio, Prod.ext rfl (Prod.ext rfl hresult),
        ⟨hsteady.wire, hnext, hsteady.events⟩, rfl, rfl, rfl, rfl⟩
  | _ => exact ⟨r, .events, rfl, hsteady, rfl, rfl, rfl, rfl⟩

/-- The end that a record reports. -/
def recordEnding (record : Record) (before : RecordingEnd) : RecordingEnd :=
  match record.kind with
  | .ended _ reason => .observed reason.terminalKind
  | _ => before

theorem accept_ending (t : Recording) (record : Record) (next : RecordingState) :
    (t.accept record next).summary.ending = recordEnding record t.summary.ending := by
  unfold accept recordEnding
  cases record.kind <;> rfl

theorem accept_last (t : Recording) (record : Record) (next : RecordingState) {n : ℕ}
    (hlast : t.lastEventOffset = n) :
    (t.accept record next).lastEventOffset = if record.kind.isWire then n else record.offset := by
  rw [← hlast]
  rfl

theorem takes_last {id : ConnectionId} {rate : SampleRate} (htakes : l.Takes id rate record m) :
    m.last = if record.kind.isWire then l.last else record.offset := by
  cases htakes with
  | wire hid hkind hunderway hoffset hmax => simp [hkind, RecordKind.isWire]
  | event hid hafter hwithin hadvances =>
      generalize record.kind = kind, l.state = source at hadvances
      cases hadvances <;> rfl

/-- A recorder over steady writers takes a record of its ledger, unless one of
the two sizes is exceeded. -/
theorem record_takes {past : List Record} (hsound : r.Sound past) (hsteady : r.Steady)
    (hmatches : r.Matches l) (htakes : l.Takes r.id r.sampleRate record m)
    (hmax : l.wire ≤ u64Max) (hsize : r.summary.audioBytes + riffOverhead ≤ u32Max) :
    if u32Max < r.summary.audioBytes + record.audioBytes.length + riffOverhead then
      (r.record record).2 = .error ⟨.validate, .invalid .waveSize, r.summary⟩
    else if u64Max < r.summary.eventBytes + (record.line r.id).length then
      ∃ summary, (r.record record).2 = .error ⟨.events, .io countOverflow, summary⟩
    else (r.record record).2 = .ok () ∧ (r.record record).1.Steady ∧
      (r.record record).1.Matches m ∧
      (r.record record).1.summary.ending = recordEnding record r.summary.ending := by
  have hvalidate := validate_takes hmatches htakes hsize
  split_ifs with hwave hevents
  · rw [if_pos hwave] at hvalidate
    rw [record_refused hvalidate]
  all_goals
    rw [if_neg hwave] at hvalidate
    have hu : u32Max ≤ u64Max := by decide
    have hfull := hmatches.wire ▸ takes_wire_le htakes hmax
    have haudio : r.summary.audioBytes + record.audioBytes.length ≤ u64Max := by omega
    obtain ⟨s, stage, hpayload, hnext, hid, hlast, hcount, hending⟩ :=
      writePayload_steady hsteady hfull haudio
    obtain ⟨hdone, hresult⟩ := hnext.events.write (record.line s.id) s.summary.eventBytes
  · rw [if_pos (by rw [hcount, hid]; exact hevents)] at hresult
    have hwrite : s.writeEvents (record.line s.id) =
        ((s.writeEvents (record.line s.id)).1, .error countOverflow) := Prod.ext rfl hresult
    rw [record_eventsFailed hvalidate hpayload hwrite]
    exact ⟨_, rfl⟩
  · rw [if_neg (by rw [hcount, hid]; exact hevents)] at hresult
    have hwrite : s.writeEvents (record.line s.id) =
        ((s.writeEvents (record.line s.id)).1, .ok ()) := Prod.ext rfl hresult
    have hrecorded := hsound.record_valid hvalidate
    have haccepted := record_accepted hvalidate hpayload hwrite
    have hstate : (r.record record).1.state = m.state := by
      rw [haccepted]
      rfl
    have hwire : (r.record record).1.summary.wireBytes = m.wire := by
      obtain ⟨hl, hm⟩ := takes_ne_failed htakes
      rw [((hrecorded.sound).full (by rw [hstate]; exact hm)).wire, wireOutput_append,
        List.length_append, htakes.wire_eq, length_wireBytes, ← hmatches.wire,
        (hsound.full (by rw [hmatches.state]; exact hl)).wire]
    refine ⟨by rw [haccepted], ?_, ⟨hstate, ?_, hwire⟩, ?_⟩
    · rw [haccepted]
      exact ⟨hnext.wire, hnext.wave, hdone⟩
    · rw [haccepted]
      exact (accept_last _ record m.state (hlast.trans hmatches.last)).trans (takes_last htakes).symm
    · rw [haccepted, accept_ending, ← hending]
      rfl

end Validation

/-! ## Feeding a transcript -/

/-- The sizes that a recorder allows. -/
def Fits (id : ConnectionId) (records : List Record) : Prop :=
  (audioOutput records).length + riffOverhead ≤ u32Max ∧ (eventOutput id records).length ≤ u64Max

theorem Fits.of_append {id : ConnectionId} {past future : List Record}
    (h : Fits id (past ++ future)) : Fits id past := by
  obtain ⟨haudio, hevents⟩ := h
  simp only [audioOutput, eventOutput, List.map_append, List.flatten_append, List.length_append]
    at haudio hevents
  exact ⟨by unfold audioOutput; omega, by unfold eventOutput; omega⟩

theorem run_concat (r : Recording) (past : List Record) (record : Record) :
    r.run (past ++ [record]) = ((r.run past).record record).1 :=
  List.foldl_append

theorem results_append (r : Recording) (past future : List Record) :
    r.results (past ++ future) = r.results past ++ (r.run past).results future := by
  induction past generalizing r with
  | nil => rfl
  | cons first past ih => simp [results, run_cons, ih]

theorem results_concat (r : Recording) (past : List Record) (record : Record) :
    r.results (past ++ [record]) = r.results past ++ [((r.run past).record record).2] :=
  results_append r past [record]

/-- The reported end is that of the last record, once the ledger is closed. -/
def Reported (past : List Record) (l : Ledger) (ending : RecordingEnd) : Prop :=
  (l.state ≠ .ended ∧ ending = .incomplete ∧ ∀ record ∈ past, record.kind.isEnded = false) ∨
    ∃ init record uuid reason, past = init ++ [record] ∧ record.kind = .ended uuid reason ∧
      ending = .observed reason.terminalKind ∧ l.state = .ended ∧
      ∀ record ∈ init, record.kind.isEnded = false

theorem Reported.snoc {id : ConnectionId} {rate : SampleRate} {past : List Record} {l m : Ledger}
    {record : Record} {ending : RecordingEnd} (h : Reported past l ending)
    (htakes : l.Takes id rate record m) :
    Reported (past ++ [record]) m (recordEnding record ending) := by
  have hopen : l.state ≠ .ended := by
    intro hended
    cases htakes with
    | wire hid hkind hunderway hoffset hmax =>
        rw [hended] at hunderway
        exact hunderway
    | event hid hafter hwithin hadvances =>
        rw [hended] at hadvances
        cases hadvances
  rcases h with ⟨_, rfl, hnone⟩ | ⟨_, _, _, _, _, _, _, hended, _⟩
  · cases hkind : record.kind with
    | ended uuid reason =>
        refine Or.inr ⟨past, record, uuid, reason, rfl, hkind, by simp [recordEnding, hkind], ?_,
          hnone⟩
        cases htakes with
        | wire hid hwire hunderway hoffset hmax =>
            rw [hkind] at hwire
            cases hwire
        | event hid hafter hwithin hadvances =>
            rw [hkind] at hadvances
            generalize l.state = source at hadvances
            cases hadvances <;> rfl
    | _ =>
        refine Or.inl ⟨?_, by simp [recordEnding, hkind], ?_⟩
        · cases htakes with
          | wire hid hwire hunderway hoffset hmax => exact hopen
          | event hid hafter hwithin hadvances =>
              rw [hkind] at hadvances
              generalize l.state = source at hadvances
              cases hadvances <;> simp
        · intro earlier hmem
          rcases List.mem_append.mp hmem with hmem | hmem
          · exact hnone earlier hmem
          · obtain rfl := List.mem_singleton.mp hmem
            simp [hkind, RecordKind.isEnded]
  · exact absurd hended hopen

section Feeding

variable (id : ConnectionId) (rate : SampleRate) (wire wave events : List WriteOutcome)

/-- A recorder over steady writers. -/
def steadily : Recording × Except RecordingError Unit :=
  opened id rate wire wave events none none none none

variable {wire wave events}

theorem steadily_ready (hwire : ∀ outcome ∈ wire, outcome.Works)
    (hwave : ∀ outcome ∈ wave, outcome.Works) (hevents : ∀ outcome ∈ events, outcome.Works) :
    let start := steadily id rate wire wave events
    start.2 = .ok () ∧ start.1.Steady ∧ start.1.Matches .empty ∧
      start.1.summary.ending = .incomplete := by
  have hsteady : (Writer.fresh wave none none).Steady := ⟨hwave, rfl, rfl⟩
  obtain ⟨hnext, hresult⟩ := hsteady.write (headerContent 0 rate) 0
  rw [headerContent_length, if_neg (by decide)] at hresult
  have hstart : steadily id rate wire wave events =
      (((blank id rate (.fresh wire none none) (.fresh wave none none)
        (.fresh events none none)).writeHeader (headerContent 0 rate)).1, .ok ()) := by
    have hwrite : (blank id rate (.fresh wire none none) (.fresh wave none none)
        (.fresh events none none)).writeHeader (headerContent 0 rate) =
        (((blank id rate (.fresh wire none none) (.fresh wave none none)
          (.fresh events none none)).writeHeader (headerContent 0 rate)).1, .ok ()) :=
      Prod.ext rfl hresult
    have hheader : waveHeader 0 rate = .ok (headerContent 0 rate) := rfl
    rw [steadily, opened, withSampleRate, hheader]
    dsimp only
    rw [hwrite]
  intro start
  simp only [start, hstart]
  exact ⟨trivial, ⟨⟨hwire, rfl, rfl⟩, hnext, ⟨hevents, rfl, rfl⟩⟩, ⟨rfl, rfl, rfl⟩, rfl⟩

variable {id rate}

theorem wire_le_of_admits {past : List Record} {l : Ledger}
    (hadmits : Ledger.Admits id rate past l) : l.wire ≤ u64Max := by
  induction hadmits with
  | nil => exact Nat.zero_le _
  | snoc hpast htakes ih =>
      cases htakes with
      | wire hid hkind hunderway hoffset hmax => exact hmax
      | event hid hafter hwithin hadvances => exact ih

/-- The recorder has taken all of these records. -/
structure Taken (start : Recording) (past : List Record) (l : Ledger) : Prop where
  id : (start.run past).id = start.id
  rate : (start.run past).sampleRate = start.sampleRate
  steady : (start.run past).Steady
  sound : (start.run past).Sound past
  ledger : (start.run past).Matches l
  results : ∀ result ∈ start.results past, result = .ok ()
  ending : Reported past l (start.run past).summary.ending

theorem record_keeps (r : Recording) (record : Record) :
    (r.record record).1.id = r.id ∧ (r.record record).1.sampleRate = r.sampleRate := by
  have hpayload : ∀ s stage result, r.writePayload record.kind = (s, stage, result) →
      s.id = r.id ∧ s.sampleRate = r.sampleRate := by
    intro s stage result hwrite
    have hs : s = (r.writePayload record.kind).1 := by rw [hwrite]
    rw [hs]
    cases record.kind <;> exact ⟨rfl, rfl⟩
  cases hvalidate : r.validate record with
  | error v =>
      rw [record_refused hvalidate]
      exact ⟨rfl, rfl⟩
  | ok next =>
      rcases hwrite : r.writePayload record.kind with ⟨s, stage, e | ⟨⟩⟩
      · rw [record_payloadFailed hvalidate hwrite]
        exact hpayload s stage _ hwrite
      · rcases hevents : s.writeEvents (record.line s.id) with ⟨t, e | ⟨⟩⟩
        · rw [record_eventsFailed hvalidate hwrite hevents]
          have ht : t = (s.writeEvents (record.line s.id)).1 := by rw [hevents]
          rw [ht]
          exact hpayload s stage _ hwrite
        · rw [record_accepted hvalidate hwrite hevents]
          have ht : t = (s.writeEvents (record.line s.id)).1 := by rw [hevents]
          rw [ht]
          exact hpayload s stage _ hwrite

section Steps

variable {start : Recording} {past : List Record} {l m : Ledger} {record : Record}

theorem Taken.counts (h : start.Taken past l) (hne : l.state ≠ .failed) :
    (start.run past).summary.audioBytes = (audioOutput past).length ∧
      (start.run past).summary.eventBytes = (eventOutput start.id past).length := by
  have hfull := h.sound.full (by rw [h.ledger.state]; exact hne)
  exact ⟨hfull.audio, by rw [hfull.events, h.id]⟩

/-- The next record of a ledger after records that fit. -/
theorem Taken.step (h : start.Taken past l) (hmax : l.wire ≤ u64Max)
    (hfits : Fits start.id past)
    (htakes : l.Takes start.id start.sampleRate record m) :
    if u32Max < (audioOutput (past ++ [record])).length + riffOverhead then
      ((start.run past).record record).2 =
        .error ⟨.validate, .invalid .waveSize, (start.run past).summary⟩
    else if u64Max < (eventOutput start.id (past ++ [record])).length then
      ∃ summary, ((start.run past).record record).2 = .error ⟨.events, .io countOverflow, summary⟩
    else ((start.run past).record record).2 = .ok () ∧ start.Taken (past ++ [record]) m := by
  obtain ⟨haudio, hevents⟩ := h.counts (takes_ne_failed htakes).1
  have hnext := record_takes h.sound h.steady h.ledger (by rw [h.id, h.rate]; exact htakes) hmax
    (by rw [haudio]; exact hfits.1)
  rw [audioOutput_append, eventOutput_append, List.length_append, List.length_append, ← haudio,
    ← hevents]
  rw [h.id] at hnext
  split_ifs at hnext ⊢ with hwave hover
  · exact hnext
  · exact hnext
  · obtain ⟨hok, hsteady, hmatches, hending⟩ := hnext
    obtain ⟨hid, hrate⟩ := record_keeps (start.run past) record
    have hvalid : ∃ next, (start.run past).validate record = .ok next := by
      rcases hvalidate : (start.run past).validate record with v | next
      · rw [record_refused hvalidate] at hok
        cases hok
      · exact ⟨next, rfl⟩
    obtain ⟨next, hvalidate⟩ := hvalid
    refine ⟨hok, ?_⟩
    constructor
    · rw [run_concat, hid, h.id]
    · rw [run_concat, hrate, h.rate]
    · rw [run_concat]
      exact hsteady
    · rw [run_concat]
      exact (h.sound.record_valid hvalidate).sound
    · rw [run_concat]
      exact hmatches
    · intro result hmem
      rw [results_concat] at hmem
      rcases List.mem_append.mp hmem with hmem | hmem
      · exact h.results result hmem
      · rw [List.mem_singleton.mp hmem, hok]
    · rw [run_concat, hending]
      exact h.ending.snoc htakes

theorem Taken.of_admits (hstart : start.Taken [] .empty)
    (hadmits : Ledger.Admits start.id start.sampleRate past l) (hfits : Fits start.id past) :
    start.Taken past l := by
  induction hadmits with
  | nil => exact hstart
  | @snoc past l m record hpast htakes ih =>
      have hpastFits := hfits.of_append
      have hnext := (ih hpastFits).step (wire_le_of_admits hpast) hpastFits htakes
      rw [if_neg (by have := hfits.1; omega), if_neg (by have := hfits.2; omega)] at hnext
      exact hnext.2

theorem ne_failed_of_admits (hadmits : Ledger.Admits id rate past l) : l.state ≠ .failed := by
  cases hadmits with
  | nil => simp [Ledger.empty]
  | snoc hpast htakes => exact (takes_ne_failed htakes).2

theorem finish_ok {r : Recording} (hsteady : r.Steady) (hstate : r.state ≠ .failed)
    (hpatch : r.summary.patchBytes = 0) (hsize : r.summary.audioBytes + riffOverhead ≤ u32Max) :
    r.finish.2 = .ok r.finish.1.summary := by
  have hheader : waveHeader r.summary.audioBytes r.sampleRate =
      .ok (headerContent r.summary.audioBytes r.sampleRate) := by
    rw [waveHeader, if_neg (by omega), if_neg (by omega)]
  have hrewound : r.rewound.wave.Steady := ⟨hsteady.wave.script, hsteady.wave.seek, hsteady.wave.flush⟩
  obtain ⟨hnext, hresult⟩ := hrewound.write (headerContent r.summary.audioBytes r.sampleRate)
    r.summary.patchBytes
  rw [hpatch, headerContent_length, if_neg (by decide)] at hresult
  have hwrite : r.rewound.writePatch (headerContent r.summary.audioBytes r.sampleRate) =
      ((r.rewound.writePatch (headerContent r.summary.audioBytes r.sampleRate)).1, .ok ()) := by
    refine Prod.ext rfl ?_
    rw [← hresult, ← hpatch]
    rfl
  have hflush : (r.rewound.writePatch
      (headerContent r.summary.audioBytes r.sampleRate)).1.flush = none := by
    have hwire := hsteady.wire.flush
    have hwave := hnext.flush
    have hevents := hsteady.events.flush
    simp only [flush, writePatch, rewound] at hwave ⊢
    rw [hwire, hwave, hevents]
  have hfinish : r.finish = (r.rewound.writePatch
      (headerContent r.summary.audioBytes r.sampleRate)).1.conclude (.ok ()) := by
    simp only [finish, hstate, hheader, hsteady.wave.seek, if_false]
    rw [hwrite]
  rw [hfinish]
  simp only [conclude, hflush]

/-- What `finish` leaves of records that were all taken. -/
structure Completed (start : Recording) (past : List Record) : Prop where
  ok : (start.run past).finish.2 = .ok (start.run past).finish.1.summary
  wire : (start.run past).finish.1.wire.sink.content = wireOutput past
  wave : (start.run past).finish.1.wave.sink.content =
    headerContent (audioOutput past).length start.sampleRate ++ audioOutput past
  incomplete : (∀ record ∈ past, record.kind.isEnded = false) →
    (start.run past).finish.1.summary.ending = .incomplete
  observed : ∀ record ∈ past, ∀ uuid reason, record.kind = .ended uuid reason →
    (start.run past).finish.1.summary.ending = .observed reason.terminalKind

theorem Taken.completed (h : start.Taken past l) (hne : l.state ≠ .failed)
    (hfits : Fits start.id past) : start.Completed past := by
  have hfull := h.sound.full (by rw [h.ledger.state]; exact hne)
  have hreports := h.sound.reports
  have hfinished := finish_finished hreports.patch
  have hok := finish_ok h.steady (by rw [h.ledger.state]; exact hne) hreports.patch
    (by rw [hfull.audio]; exact hfits.1)
  have hpatched := (hfinished.ok _ hok).2
  have hending : (start.run past).finish.1.summary.ending = (start.run past).summary.ending := by
    rw [hfinished.summary]
  refine ⟨hok, ?_, ?_, ?_, ?_⟩
  · rw [hfinished.wire]
    exact h.sound.wire_whole hfull.wire
  · have hheader : ((headerContent 0 start.sampleRate).take 44).length = 44 := by
      rw [List.length_take, headerContent_length]
      rfl
    rw [hfinished.wave, hpatched, hreports.wave, hfull.header, hfull.audio, h.rate,
      List.take_length, List.drop_left' hheader,
      List.take_of_length_le (headerContent_length _ _).le]
  · intro hnone
    rw [hending]
    rcases h.ending with ⟨_, hincomplete, _⟩ | ⟨init, record, uuid, reason, rfl, hkind, _⟩
    · exact hincomplete
    · have := hnone record (by simp)
      simp [hkind, RecordKind.isEnded] at this
  · intro record hmem uuid reason hkind
    rw [hending]
    rcases h.ending with ⟨_, _, hnone⟩ | ⟨init, last, uuid', reason', rfl, hlast, hobserved, _, hinit⟩
    · have := hnone record hmem
      simp [hkind, RecordKind.isEnded] at this
    · rcases List.mem_append.mp hmem with hmem | hmem
      · have := hinit record hmem
        simp [hkind, RecordKind.isEnded] at this
      · obtain rfl := List.mem_singleton.mp hmem
        rw [hkind] at hlast
        cases hlast
        exact hobserved

end Steps

/-- A recorder and the records it is fed: after records that fit, the next one is
refused for its audio size, or fails on the count of diagnostic bytes, or is
taken; and records that all fit make a complete recording. -/
structure Agrees (start : Recording) (records : List Record) : Prop where
  next : ∀ past record rest, records = past ++ record :: rest → Fits start.id past →
    (∀ result ∈ start.results past, result = .ok ()) ∧
      if u32Max < (audioOutput (past ++ [record])).length + riffOverhead then
        ((start.run past).record record).2 =
          .error ⟨.validate, .invalid .waveSize, (start.run past).summary⟩
      else if u64Max < (eventOutput start.id (past ++ [record])).length then
        ∃ summary,
          ((start.run past).record record).2 = .error ⟨.events, .io countOverflow, summary⟩
      else ((start.run past).record record).2 = .ok ()
  completed : Fits start.id records →
    (∀ result ∈ start.results records, result = .ok ()) ∧ start.Completed records

theorem agrees_of_admits {start : Recording} {records : List Record} {l : Ledger}
    (hstart : start.Taken [] .empty)
    (hadmits : Ledger.Admits start.id start.sampleRate records l) : start.Agrees records := by
  refine ⟨?_, fun hfits ↦ ?_⟩
  · rintro past record rest rfl hfits
    rw [← List.singleton_append, ← List.append_assoc] at hadmits
    obtain ⟨m, hm⟩ := hadmits.of_append
    obtain ⟨k, hk, htakes⟩ := hm.of_snoc
    have htaken := Taken.of_admits hstart hk hfits
    have hnext := htaken.step (wire_le_of_admits hk) hfits htakes
    refine ⟨htaken.results, ?_⟩
    split_ifs at hnext ⊢
    · exact hnext
    · exact hnext
    · exact hnext.1
  · have htaken := Taken.of_admits hstart hadmits hfits
    exact ⟨htaken.results, htaken.completed (ne_failed_of_admits hadmits) hfits⟩

/-- Calls that all succeed stay within both sizes. -/
theorem Agrees.fits_of_ok {start : Recording} {records : List Record}
    (h : start.Agrees records) (hok : ∀ result ∈ start.results records, result = .ok ()) : Fits start.id records := by
  have hall : ∀ past future, records = past ++ future → Fits start.id past := by
    intro past
    induction past using List.reverseRecOn with
    | nil => exact fun _ _ ↦ ⟨by decide, by simp [eventOutput]⟩
    | append_singleton past record ih =>
        intro rest hrecords
        rw [List.append_assoc, List.singleton_append] at hrecords
        obtain ⟨_, hnext⟩ := h.next past record rest hrecords (ih _ hrecords)
        have hresult : ((start.run past).record record).2 = .ok () := by
          refine hok _ ?_
          rw [hrecords, results_append, results]
          exact List.mem_append_right _ List.mem_cons_self
        split_ifs at hnext with hwave hevents
        · rw [hresult] at hnext
          cases hnext
        · obtain ⟨summary, hfailed⟩ := hnext
          rw [hresult] at hfailed
          cases hfailed
        · exact ⟨by omega, by omega⟩
  exact hall records [] (by simp)

end Feeding

end Recording

namespace Connection

open Recording

/-- Every beginning of the records that a connection hands off agrees with a
recorder of its rate, over any writers that do not fail. -/
theorem recording_agrees (capacity payloadCapacity : ℕ) (id : ConnectionId) (peer : SocketAddr)
    (profile : IncomingProfile) (rate : SampleRate) (wire wave events : List WriteOutcome)
    (c : Connection) (records : List Record)
    (hcapacity : max readBytes payloadCapacity ≤ capacity)
    (hprofile : ∀ q, profile.accepts q = true → q = rate)
    (hwire : ∀ outcome ∈ wire, outcome.Works) (hwave : ∀ outcome ∈ wave, outcome.Works)
    (hevents : ∀ outcome ∈ events, outcome.Works)
    (h : Machine.Reachable (step capacity) (new id peer payloadCapacity profile) c)
    (hpre : records <+: c.sent) :
    (steadily id rate wire wave events).2 = .ok () ∧
      (steadily id rate wire wave events).1.Agrees records := by
  obtain ⟨hok, hsteady, hmatches, hending⟩ := steadily_ready id rate hwire hwave hevents
  obtain ⟨hsound, hrate, hid, _⟩ := opened_sound id rate wire wave events none none none none
  have hstart : (steadily id rate wire wave events).1.Taken [] .empty := by
    refine ⟨rfl, rfl, hsteady, hsound, hmatches, ?_, Or.inl ⟨?_, hending, ?_⟩⟩
    · simp [results]
    · simp [Ledger.empty]
    · simp
  obtain ⟨future, hsent⟩ := hpre
  obtain ⟨l, hl⟩ := admits_of_reachable hcapacity hprofile h
  rw [← hsent] at hl
  obtain ⟨m, hm⟩ := hl.of_append
  refine ⟨hok, agrees_of_admits (l := m) hstart ?_⟩
  rw [steadily, hid, hrate]
  exact hm

/-- A call up to the record of its identity. -/
def greeting : List Event :=
  [.poll epoch, .send true,
    .read epoch (.ok [0x01, 0, 16, 0, 0, 0, 0, 0, 0, 0, 0, 0, 0, 0, 0, 0, 0, 0, 0]),
    .copy epoch, .send true, .step epoch, .step epoch]

/-- One audio frame without samples, after the record before it was accepted. -/
def silence : List Event :=
  [.send true, .read epoch (.ok [0x10, 0, 0]), .copy epoch, .send true, .step epoch, .step epoch,
    .copy epoch]

/-- A caller of one rate. -/
def caller : Connection := new ⟨1, 2⟩ ⟨"127.0.0.1:9"⟩ 16 (.fromRates [.khz8])

theorem recording_agrees_greeting :
    ∃ c, Machine.run (step 4096) caller (greeting ++ silence) = some c ∧ c.sent.length = 4 ∧
      (steadily ⟨1, 2⟩ .khz8 [.accept 7] [.fail ⟨.interrupted, none, ""⟩] []).1.Agrees c.sent := by
  have hrun : ((Machine.run (step 4096) caller (greeting ++ silence)).map
      (·.sent.length)) = some 4 := by
    decide +kernel
  obtain ⟨c, hc, hlength⟩ := Option.map_eq_some_iff.mp hrun
  have hagrees := recording_agrees 4096 16 ⟨1, 2⟩ ⟨"127.0.0.1:9"⟩ (.fromRates [.khz8]) .khz8
    [.accept 7] [.fail ⟨.interrupted, none, ""⟩] [] c c.sent (by decide)
    (fun q ↦ (IncomingProfile.accepts_fromRates_singleton .khz8 q).mp) (by decide) (by decide)
    (by decide) ⟨_, hc⟩ List.prefix_rfl
  exact ⟨c, hc, hlength, hagrees.2⟩

theorem nextFrame_silence :
    nextFrame RawDecoder.anyLength 16 ([] ++ [0x10, 0, 0]) = .frame ⟨⟨0x10⟩, []⟩ [] := by
  decide +kernel

theorem typed_silence :
    (⟨⟨0x10⟩, []⟩ : RawEnvelope).typed = some (.ok (.audio .khz8 ⟨[]⟩)) := by
  decide +kernel

/-- The connection is about to hand off the frame that follows `n` empty ones. -/
structure Muted (c : Connection) (uuid : Uuid) (n : ℕ) : Prop where
  await : ∃ record, record.audioBytes = [] ∧ record.kind.wireLength = 0 ∧
    c.task.await = .send record (.observed [])
  capacity : c.task.decoder.capacity = 16
  session : c.task.session = ⟨.active uuid, .fromRates [.khz8]⟩
  counts : c.task.progress.read = 19 + 3 * n ∧ c.task.progress.consumed = 19 + 3 * n ∧
    c.task.progress.wireQueued = 19 + 3 * n ∧ c.task.progress.recordsQueued = 2 + 2 * n
  sent : c.sent.length = 2 + 2 * n
  audio : audioOutput c.sent = []

theorem Muted.silence {c : Connection} {uuid : Uuid} {n : ℕ} (hplaced : c.task.Placed)
    (hc : c.Muted uuid n) (hn : 19 + 3 * (n + 1) ≤ u64Max) :
    ∃ d, Machine.run (step 4096) c silence = some d ∧ d.Muted uuid (n + 1) := by
  obtain ⟨⟨record, haudio, hwire, hat⟩, hcapacity, hsession, ⟨hread, hconsumed, hqueued, hrecords⟩,
    hsent, houtput⟩ := hc
  have hpending : c.task.decoder.Pending [] := by
    simp only [Task.Placed, hat] at hplaced
    exact hplaced.2.2.2.2.2.1
  obtain ⟨⟨id, peer, await, decoder, session, progress⟩, reads, sent⟩ := c
  obtain ⟨read, consumed, queued, records, pendingRecord, terminal, overflow⟩ := progress
  dsimp only at *
  subst hat hsession hread hconsumed hqueued hrecords
  have hspec := RawDecoder.feed_spec hpending [0x10, 0, 0]
  rw [hcapacity, nextFrame_silence] at hspec
  obtain ⟨next, hfeed, hnext, _⟩ := hspec
  have hadd : ∀ a b, a + b ≤ u64Max → checkedAdd a b = some (a + b) :=
    fun a b h ↦ checkedAdd_eq_some_iff.mpr ⟨h, rfl⟩
  have hchunk : (RecordKind.wire ⟨[0x10, 0, 0]⟩).wireLength = 3 := rfl
  have hended : (RecordKind.wire ⟨[0x10, 0, 0]⟩).isEnded = false := rfl
  have h1 := hadd (2 + 2 * n) 1 (by omega)
  have h2 := hadd (2 + 2 * n + 1) 1 (by omega)
  have h3 := hadd (19 + 3 * n) 0 (by omega)
  have h4 := hadd (19 + 3 * n) 3 (by omega)
  refine ⟨⟨⟨id, peer, .send ⟨id, 19 + 3 * n + 3, epoch, .audio uuid .khz8 ⟨[]⟩⟩ (.observed []), next,
      ⟨.active uuid, .fromRates [.khz8]⟩,
      ⟨19 + 3 * n + 3, 19 + 3 * n + 3, 19 + 3 * n + 3, 2 + 2 * n + 1 + 1, true,
        terminal || record.kind.isEnded, overflow⟩⟩, reads ++ [.ok [0x10, 0, 0]],
      sent ++ [record] ++ [⟨id, 19 + 3 * n, epoch, .wire ⟨[0x10, 0, 0]⟩⟩]⟩, ?_, ?_⟩
  · simp [Machine.run, Connection.silence, step, send, Task.nextCount, h1, Task.onSent,
      Progress.accept, hwire, h3, Task.afterSent, Task.decodeRest, ReadResult.Final, readBytes,
      Task.onRead, Progress.observeRead, h4, Task.onCopy, copyResult, Task.sendAt, h2,
      hchunk, hended, Task.onFeed, hfeed, Progress.consume, Task.onTyped,
      typed_silence, IncomingSession.receive, IncomingSession.audio, IncomingSession.identity,
      IncomingProfile.accepts_fromRates_singleton, Task.observe]
  · refine ⟨⟨_, rfl, rfl, rfl⟩, hnext.trans hcapacity, rfl, ⟨?_, ?_, ?_, ?_⟩, ?_, ?_⟩
    · dsimp only
      omega
    · dsimp only
      omega
    · dsimp only
      omega
    · dsimp only
      omega
    · simp [hsent]
      omega
    · rw [audioOutput_append, audioOutput_append, houtput, haudio]
      rfl

theorem greeting_muted : ∃ c uuid, Machine.run (step 4096) caller greeting = some c ∧
    c.Muted uuid 0 := by
  have hrun : ((Machine.run (step 4096) caller greeting).map fun c ↦ decide
      (c.task.await =
          .send ⟨⟨1, 2⟩, 19, epoch, .started ⟨.replicate 16 0⟩⟩ (.observed []) ∧
        c.task.decoder.capacity = 16 ∧
        c.task.session = ⟨.active ⟨.replicate 16 0⟩, .fromRates [.khz8]⟩ ∧
        c.task.progress.read = 19 ∧ c.task.progress.consumed = 19 ∧
        c.task.progress.wireQueued = 19 ∧ c.task.progress.recordsQueued = 2 ∧
        c.sent.length = 2 ∧ audioOutput c.sent = [])) = some true := by
    decide +kernel
  obtain ⟨c, hc, hfacts⟩ := Option.map_eq_some_iff.mp hrun
  obtain ⟨hat, hcapacity, hsession, hread, hconsumed, hqueued, hrecords, hsent, haudio⟩ :=
    of_decide_eq_true hfacts
  exact ⟨c, _, hc, ⟨_, rfl, rfl, hat⟩, hcapacity, hsession, ⟨hread, hconsumed, hqueued, hrecords⟩,
    hsent, haudio⟩

/-- A silent call hands off any number of records, as far as its counters go. -/
theorem exists_muted (n : ℕ) (hn : 19 + 3 * n ≤ u64Max) :
    ∃ c uuid, Machine.Reachable (step 4096) caller c ∧ c.Muted uuid n := by
  induction n with
  | zero =>
      obtain ⟨c, uuid, hrun, hmuted⟩ := greeting_muted
      exact ⟨c, uuid, ⟨_, hrun⟩, hmuted⟩
  | succ n ih =>
      obtain ⟨c, uuid, ⟨actions, hrun⟩, hmuted⟩ := ih (by omega)
      obtain ⟨hplaced, _⟩ := shares_of_reachable ⟨actions, hrun⟩
      obtain ⟨d, hnext, hd⟩ := hmuted.silence hplaced hn
      refine ⟨d, uuid, ⟨actions ++ Connection.silence, ?_⟩, hd⟩
      rw [Machine.run_append, hrun]
      exact hnext

theorem length_eventOutput (id : ConnectionId) (records : List Record) :
    16 * records.length ≤ (eventOutput id records).length := by
  induction records with
  | nil => simp
  | cons record records ih =>
      have hline := record.line_length id
      simp only [eventOutput, List.map_cons, List.flatten_cons, List.length_append,
        List.length_cons] at ih ⊢
      omega

/-- The diagnostic bytes of 2⁶⁰ empty audio frames cannot be counted in 64 bits,
although they hold no audio and no writer fails. -/
theorem silence_exhausts_events :
    ¬ ∀ (capacity payloadCapacity : ℕ) (id : ConnectionId) (peer : SocketAddr)
      (rate : SampleRate) (c : Connection), max readBytes payloadCapacity ≤ capacity →
      Machine.Reachable (step capacity) (new id peer payloadCapacity (.fromRates [rate])) c →
      (audioOutput c.sent).length + riffOverhead ≤ u32Max →
      ∀ result ∈ (steadily id rate [] [] []).1.results c.sent, result = .ok () := by
  intro hall
  obtain ⟨c, uuid, hreach, hmuted⟩ := exists_muted (2 ^ 60) (by decide)
  have hok := hall 4096 16 _ _ _ c (by decide) hreach (by rw [hmuted.audio]; decide)
  have hagrees := (recording_agrees 4096 16 _ _ _ .khz8 [] [] [] c c.sent (by decide)
    (fun q ↦ (IncomingProfile.accepts_fromRates_singleton .khz8 q).mp) (by simp) (by simp) (by simp)
    hreach List.prefix_rfl).2
  have hfits := hagrees.fits_of_ok hok
  have hlength := length_eventOutput (steadily ⟨1, 2⟩ .khz8 [] [] []).1.id c.sent
  rw [hmuted.sent] at hlength
  have hcount := hlength.trans hfits.2
  revert hcount
  decide

end Connection

end Phonowire.Receiver
