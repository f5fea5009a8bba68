import Phonowire.Capture.Arguments
import Phonowire.Receiver.Storage

/-!
# From the command line to a receiver

Before its loops `run` turns the fields of a configuration into the bounds of a
receiver and binds it. What `parse` has accepted leaves few reasons to fail, and
the memory of the receiver stays within the options for good.
-/

namespace Phonowire.AudioSocket

/-- `PCM_8_KHZ`. -/
def IncomingProfile.pcm8Khz : IncomingProfile := ⟨1⟩

theorem IncomingProfile.accepts_pcm8Khz {rate : SampleRate}
    (h : IncomingProfile.pcm8Khz.accepts rate = true) : rate = .khz8 :=
  (accepts_fromRates_singleton .khz8 rate).mp h

end Phonowire.AudioSocket

namespace Phonowire.Receiver

def LimitsError.text : LimitsError → String
  | .payloadBelowUuid => "payload capacity is below 16 UUID bytes"
  | .fixedStorageOverflow => "fixed buffer capacity exceeds usize"

def BudgetError.text : BudgetError → String
  | .tooLarge required capacity =>
      "requested " ++ toString required ++ " bytes exceeds capacity " ++ toString capacity
  | .full required available =>
      "requested " ++ toString required ++ " bytes with only " ++ toString available ++ " available"

def ReceiverFailure.text : ReceiverFailure → String
  | .io error => "receiver I/O failed: " ++ error.text
  | .budgetTooSmall error => "receiver budget is too small: " ++ error.text
  | .instanceExhausted => "receiver instance identities exhausted"
  | .tokenExhausted => "receiver connection tokens exhausted"
  | .budgetAlreadySubscribed => "receiver budget already has an active worker"
  | .counterExhausted => "receiver observation counters exhausted"

end Phonowire.Receiver

namespace Phonowire.Capture

open Receiver AudioSocket

/-! ## The head of `run` -/

/-- `NonZeroUsize::new`. -/
def nonZero (value : ℕ) (zero : String) : Except String NonZeroUsize :=
  if h : 0 < value ∧ value ≤ usizeMax then .ok ⟨value, h.1, h.2⟩ else .error zero

/-- `NonZeroU16::new` of a value that fits. -/
def nonZeroU16 (value : ℕ) (zero : String) : Except String UInt16 :=
  if value = 0 then .error zero else .ok (UInt16.ofNat value)

def Config.limits (c : Config) : Except String Limits := do
  let connections ← nonZero c.connections "max connections is zero"
  let queue ← nonZero c.queue "queue is zero"
  let payload ← nonZeroU16 c.payload "payload is zero"
  let turns ← nonZero c.turns "turn steps is zero"
  match Limits.new connections queue payload turns with
  | .ok limits => .ok limits
  | .error e => .error e.text

theorem sum_nil_le (retained : NonZeroUsize) : ([] : List ℕ).sum ≤ retained.val := Nat.zero_le _

/-- The receiver that `run` binds among those of the process. The system answers
to the listener and to the handler of the signals. -/
def Config.setup (c : Config) (p : Process) (listened signals : Except IoError Unit) :
    Except String Process := do
  let limits ← c.limits
  let retained ← nonZero c.retained "retained bytes is zero"
  match p.bind limits .pcm8Khz ⟨retained, [], sum_nil_le retained⟩ listened, signals with
  | (next, .ok ()), .ok () => .ok next
  | (_, .error e), _ => .error e.text
  | (_, .ok ()), .error e => .error e.text

theorem nonZero_eq_ok_iff {value : ℕ} {zero : String} {n : NonZeroUsize} :
    nonZero value zero = .ok n ↔ n.val = value := by
  unfold nonZero
  split_ifs with h
  · rw [Except.ok.injEq]
    constructor
    · rintro rfl
      rfl
    · intro hval
      cases n
      subst hval
      rfl
  · simp only [false_iff]
    rintro rfl
    exact h ⟨n.pos, n.le_max⟩

theorem nonZeroU16_eq_ok_iff {value : ℕ} {zero : String} {n : UInt16} (h : value ≤ u16Max) :
    nonZeroU16 value zero = .ok n ↔ 0 < value ∧ n.toNat = value := by
  have hbytes : (UInt16.ofNat value).toNat = value := by
    rw [UInt16.toNat_ofNat', Nat.mod_eq_of_lt]
    unfold u16Max at h
    omega
  unfold nonZeroU16
  split_ifs with hzero
  · simp [hzero]
  · rw [Except.ok.injEq]
    constructor
    · rintro rfl
      exact ⟨Nat.pos_of_ne_zero hzero, hbytes⟩
    · rintro ⟨_, hn⟩
      rw [← UInt16.toNat_inj, hbytes, hn]

/-- The bounds that `c` asks for. -/
structure Bounds (c : Config) (l : Limits) : Prop where
  connections : l.maxConnections.val = c.connections
  queue : l.queueSlots.val = c.queue
  payload : l.payload = c.payload
  turns : l.turnSteps.val = c.turns

theorem limits_eq_ok_iff {c : Config} (hpayload : c.payload ≤ u16Max) {l : Limits} :
    c.limits = .ok l ↔ Bounds c l := by
  unfold Config.limits
  simp only [bind_eq_ok, nonZero_eq_ok_iff, nonZeroU16_eq_ok_iff hpayload]
  constructor
  · rintro ⟨connections, hconnections, queue, hqueue, payload, ⟨_, hbytes⟩, turns, hturns, hlimits⟩
    unfold Limits.new at hlimits
    split_ifs at hlimits with huuid hstorage
    cases hlimits
    exact ⟨hconnections, hqueue, hbytes, hturns⟩
  · rintro ⟨hconnections, hqueue, hbytes, hturns⟩
    have hpos : 0 < c.payload := by
      rw [← hbytes]
      exact Nat.lt_of_lt_of_le (by decide) l.uuidFits
    refine ⟨l.maxConnections, hconnections, l.queueSlots, hqueue, l.payloadCapacity,
      ⟨hpos, hbytes⟩, l.turnSteps, hturns, ?_⟩
    unfold Limits.new
    rw [dif_neg (Nat.not_lt.mpr l.uuidFits), dif_neg (Nat.not_lt.mpr l.storageFits)]

/-- The numbers of an accepted configuration fit their types, and are not zero. -/
structure Ranged (c : Config) : Prop where
  connections : 0 < c.connections ∧ c.connections ≤ usizeMax
  queue : 0 < c.queue ∧ c.queue ≤ usizeMax
  payload : 0 < c.payload ∧ c.payload ≤ u16Max
  turns : 0 < c.turns ∧ c.turns ≤ usizeMax
  retained : 0 < c.retained ∧ c.retained ≤ usizeMax

section System

variable {address : String → Option SocketAddr} {isDir : String → Bool} {arguments : List String}
  {c : Config} {p next : Process} {listened signals : Except IoError Unit}

theorem ranged_of_parse (h : Config.parse address isDir arguments = .ok c) : Ranged c := by
  obtain ⟨_, values, _, _, hsays, hvalid⟩ := parse_eq_ok_iff.mp h
  unfold Config.validate at hvalid
  split_ifs at hvalid with hdir hfile hactive hpositive
  push Not at hpositive
  obtain ⟨hconnections, hqueue, hpayload, hturns, hretained, _⟩ := hpositive
  exact ⟨⟨Nat.pos_of_ne_zero hconnections, parseU64_le hsays.connections⟩,
    ⟨Nat.pos_of_ne_zero hqueue, parseU64_le hsays.queue⟩,
    ⟨Nat.pos_of_ne_zero hpayload, hsays.payload_le⟩,
    ⟨Nat.pos_of_ne_zero hturns, parseU64_le hsays.turns⟩,
    ⟨Nat.pos_of_ne_zero hretained, parseU64_le hsays.retained⟩⟩

/-- The bounds of an accepted configuration exist where the payload holds a UUID
and the buffers of all connections fit the address space. -/
theorem exists_limits_iff (h : Ranged c) : (∃ l, c.limits = .ok l) ↔
    uuidBytes ≤ c.payload ∧ c.connections * (readBytes + c.payload) ≤ usizeMax := by
  simp only [limits_eq_ok_iff h.payload.2]
  constructor
  · rintro ⟨l, hconnections, _, hpayload, _⟩
    rw [← hconnections, ← hpayload]
    exact ⟨l.uuidFits, l.storageFits⟩
  · rintro ⟨huuid, hstorage⟩
    have hbytes : (UInt16.ofNat c.payload).toNat = c.payload :=
      ((@nonZeroU16_eq_ok_iff c.payload "" _ h.payload.2).mp (if_neg h.payload.1.ne')).2
    refine ⟨⟨⟨c.connections, h.connections.1, h.connections.2⟩, ⟨c.queue, h.queue.1, h.queue.2⟩,
      UInt16.ofNat c.payload, ⟨c.turns, h.turns.1, h.turns.2⟩, ?_, ?_⟩, rfl, rfl, hbytes, rfl⟩
    · rwa [hbytes]
    · rwa [hbytes]

/-- The receiver that `run` adds to those of the process. -/
structure Added (c : Config) (p next : Process) (settings : Settings) : Prop where
  receivers : next.receivers = p.receivers ++ [.new settings []]
  fresh : settings.instanceId = p.nextInstance ∧ next.nextInstance = p.nextInstance + 1
  bounds : Bounds c settings.limits
  retained : settings.capacity.val = c.retained
  profile : settings.profile = .pcm8Khz

theorem bind_eq_ok_iff {limits : Limits} {profile : IncomingProfile} {budget : Budget} :
    p.bind limits profile budget listened = (next, .ok ()) ↔
      p.nextInstance < u64Max ∧ listened = .ok () ∧
        ∃ hfits : max readBytes limits.payload ≤ budget.capacity.val,
          next = ⟨p.nextInstance + 1, p.receivers ++
            [.new ⟨p.nextInstance, limits, profile, budget.capacity, hfits⟩ budget.outside]⟩ := by
  unfold Process.bind
  dsimp only
  split_ifs with hfits
  · cases hnext : checkedAdd p.nextInstance 1 with
    | none =>
        have hover := checkedAdd_eq_none_iff.mp hnext
        simp only [Prod.mk.injEq, reduceCtorEq, and_false, false_iff, not_and]
        omega
    | some instanceId =>
        obtain ⟨hle, rfl⟩ := checkedAdd_eq_some_iff.mp hnext
        cases listened with
        | error e => simp
        | ok answer =>
            simp only [Prod.mk.injEq, and_true, true_and, exists_prop_of_true hfits]
            constructor
            · rintro rfl
              exact ⟨hle, rfl⟩
            · rintro ⟨_, rfl⟩
              rfl
  · simp [hfits]

theorem setup_eq_ok_iff (h : Ranged c) : c.setup p listened signals = .ok next ↔
    p.nextInstance < u64Max ∧ listened = .ok () ∧ signals = .ok () ∧
      ∃ settings, Added c p next settings := by
  have hmatch (bound : Process × Except ReceiverFailure Unit) :
      (match bound, signals with
        | (q, .ok ()), .ok () => .ok q
        | (_, .error e), _ => .error e.text
        | (_, .ok ()), .error e => .error e.text) = (.ok next : Except String Process) ↔
      bound = (next, .ok ()) ∧ signals = .ok () := by
    obtain ⟨q, answer⟩ := bound
    cases answer <;> cases signals <;> simp
  unfold Config.setup
  simp only [bind_eq_ok, limits_eq_ok_iff h.payload.2, nonZero_eq_ok_iff, hmatch, bind_eq_ok_iff]
  constructor
  · rintro ⟨limits, hbounds, retained, hretained, ⟨hinstance, hlistened, hfits, rfl⟩, hsignals⟩
    exact ⟨hinstance, hlistened, hsignals, _, rfl, ⟨rfl, rfl⟩, hbounds, hretained, rfl⟩
  · rintro ⟨hinstance, hlistened, hsignals, settings, hreceivers, ⟨hown, hnext⟩, hbounds,
      hretained, hprofile⟩
    refine ⟨settings.limits, hbounds, settings.capacity, hretained,
      ⟨hinstance, hlistened, settings.fits, ?_⟩, hsignals⟩
    cases next
    cases settings
    subst hown hnext hprofile hreceivers
    rfl

/-- What still fails for an accepted configuration: a payload below a UUID, more
buffers than the address space, and a budget below one buffer. -/
theorem setup_of_parse (h : Config.parse address isDir arguments = .ok c) :
    (∃ next, c.setup p listened signals = .ok next) ↔
      (uuidBytes ≤ c.payload ∧ c.connections * (readBytes + c.payload) ≤ usizeMax ∧
        max readBytes c.payload ≤ c.retained) ∧
      p.nextInstance < u64Max ∧ listened = .ok () ∧ signals = .ok () := by
  have hranged := ranged_of_parse h
  simp only [setup_eq_ok_iff hranged]
  constructor
  · rintro ⟨next, hinstance, hlistened, hsignals, settings, hadded⟩
    obtain ⟨huuid, hstorage⟩ := (exists_limits_iff hranged).mp
      ⟨_, (limits_eq_ok_iff hranged.payload.2).mpr hadded.bounds⟩
    have hfits := settings.fits
    rw [hadded.bounds.payload, hadded.retained] at hfits
    exact ⟨⟨huuid, hstorage, hfits⟩, hinstance, hlistened, hsignals⟩
  · rintro ⟨⟨huuid, hstorage, hfits⟩, hinstance, hlistened, hsignals⟩
    obtain ⟨limits, hlimits⟩ := (exists_limits_iff hranged).mpr ⟨huuid, hstorage⟩
    have hbounds := (limits_eq_ok_iff hranged.payload.2).mp hlimits
    rw [← hbounds.payload] at hfits
    exact ⟨⟨p.nextInstance + 1, p.receivers ++ [.new ⟨p.nextInstance, limits, .pcm8Khz,
      ⟨c.retained, hranged.retained.1, hranged.retained.2⟩, hfits⟩ []]⟩, hinstance, hlistened,
      hsignals, _, rfl, ⟨rfl, rfl⟩, hbounds, rfl, rfl⟩

/-! ## For good -/

/-- The receiver holds no more than the options of `c` allow. -/
structure Housed (c : Config) (w : World) : Prop where
  live : w.engine.board.live.size ≤ c.connections
  buffers : ∀ (token : Token) entry, w.engine.board.live[token]? = some entry →
    entry.connection.Buffered c.payload
  fixed : w.buffered ≤ c.connections * (readBytes + c.payload)
  addressed : c.connections * (readBytes + c.payload) ≤ usizeMax
  waiting : w.engine.channel.buffer.length ≤ c.queue
  retained : w.engine.channel.charged + w.engine.board.held + w.engine.outside.sum ≤ c.retained

/-- The memory of a receiver that is set up for an accepted configuration stays
within the options, whatever its peers, its consumer, the threads with its
controls and the other receivers of the process do. -/
theorem memory_within_options {steps : List Process.Step} {q : Process}
    (hparse : Config.parse address isDir arguments = .ok c)
    (hsetup : c.setup p listened signals = .ok next)
    (hrun : Machine.run Process.step next steps = some q) :
    ∃ w, q.receivers[p.receivers.length]? = some w ∧ Housed c w := by
  have hranged := ranged_of_parse hparse
  obtain ⟨_, _, _, settings, hadded⟩ := (setup_eq_ok_iff hranged).mp hsetup
  have hfirst : next.receivers[p.receivers.length]? = some (.new settings []) := by
    rw [hadded.receivers]
    exact List.getElem?_concat_length
  obtain ⟨w, hw, hreachable⟩ := Process.reachable_of_run hrun hfirst
  have hstores := World.stores_of_reachable (Nat.zero_le _) hreachable
  have hconnections := hadded.bounds.connections
  have hpayload := hadded.bounds.payload
  have hcapacity : settings.limits.fixedBufferCapacity =
      c.connections * (readBytes + c.payload) := by
    rw [Limits.fixedBufferCapacity, hconnections, hpayload]
  refine ⟨w, hw, ?_, ?_, ?_, ?_, ?_, ?_⟩
  · exact hconnections ▸ hstores.live
  · exact hpayload ▸ hstores.buffers
  · exact hcapacity ▸ hstores.fixed
  · exact hcapacity ▸ settings.limits.storageFits
  · exact hadded.bounds.queue ▸ hstores.waiting
  · exact hadded.retained ▸ hstores.retained

end System

/-- The options of a command line that names only its output and its address. -/
def Config.defaults : Config :=
  ⟨"calls", ⟨"[::1]:9092"⟩, 16, 128, 4096, 64, 1048576, 16, 64, 67108864, 4096, 4096⟩

/-- A process with the receiver of these options. -/
def launched : Process :=
  match Config.defaults.setup .new (.ok ()) (.ok ()) with
  | .ok next => next
  | .error _ => .new

/-- One caller whose bytes are handed off and not yet decoded. -/
theorem memory_within_options_one_caller :
    ∃ q w, Machine.run Process.step launched
        ((World.Step.admission ++ World.Step.works 19 .hangup).map (.within 0)) = some q ∧
      q.receivers[0]? = some w ∧ Housed .defaults w ∧
      w.engine.board.live.size = 1 ∧ w.buffered = 4099 ∧ w.engine.channel.charged = 3 := by
  have hparse : Config.parse loopback (fun _ ↦ true)
      ["capture", "--output", "calls", "--listen", "[::1]:9092"] = .ok .defaults := by
    decide +kernel
  have hsetup : Config.defaults.setup .new (.ok ()) (.ok ()) = .ok launched := rfl
  obtain ⟨q, hq, hresult⟩ := Machine.exists_of_run Process.step launched
    ((World.Step.admission ++ World.Step.works 19 .hangup).map (.within 0))
    (fun q ↦ q.receivers.map
      (fun w ↦ (w.engine.board.live.size, w.buffered, w.engine.channel.charged)) = [(1, 4099, 3)])
    (by decide +kernel)
  obtain ⟨w, hw, hhoused⟩ := memory_within_options hparse hsetup hq
  have hfirst := congrArg (·[0]?) hresult
  have hzero : q.receivers[0]? = some w := hw
  simp only [List.getElem?_map, hzero, Option.map_some, List.getElem?_cons_zero, Option.some.injEq,
    Prod.mk.injEq] at hfirst
  exact ⟨q, w, hq, hzero, hhoused, hfirst⟩

end Phonowire.Capture
