import Phonowire.Capture.Handling

/-!
# The account of a run

Every record that a run takes is recorded, or it breaks its recorder, or one of
the counters of the status counts it. Every directory is open, or it has its
summary, or the status counts the failure to write one.
-/

namespace Phonowire.Capture

open Receiver AudioSocket

namespace Happening

def isRecorded : Happening → Bool
  | .recorded _ => true
  | _ => false

def isSummarized : Happening → Bool
  | .summarized _ _ => true
  | _ => false

/-- The payload that was recorded. -/
def payload : Happening → ℕ
  | .recorded record => bytes record
  | _ => 0

end Happening

theorem bytes_of_connected {record : Record} (h : record.kind.isConnected = true) :
    bytes record = 0 := by
  unfold bytes
  cases hkind : record.kind <;> first | rfl | (rw [hkind] at h; cases h)

theorem saturatingAdd_of_le {a b : ℕ} (h : a + b ≤ u64Max) : saturatingAdd a b = a + b :=
  Nat.min_eq_left h

namespace Run

/-- The entries whose recorder is broken. -/
def broken (w : Run) : ℕ := Std.TreeMap.total (fun _ e ↦ e.isFailed.toNat) w.entries

/-- What is told of the records so far: `lost` of them broke a recorder, with
`lostBytes` of payload. -/
structure Told (records : List Record) (lost lostBytes : ℕ) (w : Run) : Prop where
  count : records.length = w.log.countP (·.isRecorded) + w.counts.admission + w.counts.stopped +
    w.counts.unowned + w.counts.failed + lost
  weight : (records.map bytes).sum = (w.log.map (·.payload)).sum + w.counts.unownedBytes +
    w.counts.failedBytes + lostBytes
  faultless : w.bad = false → lost = 0 ∧ lostBytes = 0
  lost_le : lost ≤ w.dirs.size
  broken : w.phase = .draining → lost ≤ w.broken

structure Accounted (records : List Record) (w : Run) : Prop where
  created : w.log.countP (·.isCreated) = w.dirs.size
  summarized : w.log.countP (·.isSummarized) + w.counts.metadata + w.tracked.length = w.dirs.size
  told : ∃ lost lostBytes, w.Told records lost lostBytes

theorem accounted_new (c : Config) : Accounted [] (new c) :=
  ⟨rfl, rfl, 0, 0, rfl, rfl, fun _ ↦ ⟨rfl, rfl⟩, le_rfl, fun _ ↦ Nat.zero_le _⟩

variable {w v : Run} {id : ConnectionId} {records : List Record} {record : Record} {io : RecordIo}
  {entry : Option Entry} {d : Option Directory} {more : List Happening}

/-! ## One record -/

/-- The sizes of a run that changes at one connection. -/
theorem Changed.sizes (h : Changed id entry d more w v) :
    v.entries.size + w.entries[id]?.isSome.toNat = w.entries.size + entry.isSome.toNat ∧
      v.dirs.size + w.dirs[id]?.isSome.toNat = w.dirs.size + d.isSome.toNat ∧
      v.broken + w.entries[id]?.elim 0 (·.isFailed.toNat) =
        w.broken + entry.elim 0 (·.isFailed.toNat) :=
  ⟨Std.TreeMap.size_of_change h.entries, Std.TreeMap.size_of_change h.dirs,
    Std.TreeMap.total_of_change h.entries⟩

theorem broken_le (w : Run) : w.broken ≤ w.entries.size := by
  have hle : ∀ (id : ConnectionId) e, w.entries[id]? = some e → e.isFailed.toNat ≤ 1 :=
    fun _ e _ ↦ Bool.toNat_le _
  exact (Std.TreeMap.total_le hle).trans_eq (Nat.mul_one _)

theorem tracked_length (hphase : w.phase = .draining) : w.tracked.length = w.entries.size := by
  rw [Run.tracked, hphase]
  exact Std.TreeMap.length_toList

/-- What a record adds to the account, `lost` if it breaks its recorder. -/
structure Added (record : Record) (lost : ℕ) (w v : Run) : Prop where
  created : v.log.countP (·.isCreated) + w.dirs.size = w.log.countP (·.isCreated) + v.dirs.size
  summarized : v.log.countP (·.isSummarized) + v.counts.metadata + v.entries.size + w.dirs.size =
    w.log.countP (·.isSummarized) + w.counts.metadata + w.entries.size + v.dirs.size
  count : v.log.countP (·.isRecorded) + v.counts.admission + v.counts.stopped + v.counts.unowned +
    v.counts.failed + lost = w.log.countP (·.isRecorded) + w.counts.admission + w.counts.stopped +
      w.counts.unowned + w.counts.failed + 1
  weight : (v.log.map (·.payload)).sum + v.counts.unownedBytes + v.counts.failedBytes +
    lost * bytes record = (w.log.map (·.payload)).sum + w.counts.unownedBytes +
      w.counts.failedBytes + bytes record
  faultless : v.bad = false → w.bad = false ∧ lost = 0
  broken : w.broken + lost ≤ v.broken
  dirs : w.dirs.size ≤ v.dirs.size

theorem Opened.counts {cap : ℕ} {entry : Entry} {d : Directory} {io : CreateIo}
    (h : Opened cap record io entry d more) :
    more.countP (·.isCreated) = 1 ∧ more.countP (·.isSummarized) = 0 ∧
      more.countP (·.isRecorded) + entry.isFailed.toNat = 1 ∧
      (more.map (·.payload)).sum + entry.isFailed.toNat * bytes record = bytes record := by
  cases h with
  | failed hcreate => exact ⟨rfl, rfl, rfl, by simp [Happening.payload, Entry.isFailed]⟩
  | broken hcreate hrecord => exact ⟨rfl, rfl, rfl, by simp [Happening.payload, Entry.isFailed]⟩
  | taken hcreate hrecord => exact ⟨rfl, rfl, rfl, by simp [Happening.payload, Entry.isFailed]⟩

/-- No counter of the status is about to saturate. -/
structure Room (record : Record) (w : Run) : Prop where
  admission : w.counts.admission + 1 ≤ u64Max
  stopped : w.counts.stopped + 1 ≤ u64Max
  unowned : w.counts.unowned + 1 ≤ u64Max
  unownedBytes : w.counts.unownedBytes + Capture.bytes record ≤ u64Max
  failed : w.counts.failed + 1 ≤ u64Max
  failedBytes : w.counts.failedBytes + Capture.bytes record ≤ u64Max
  metadata : w.entries[record.connection]?.isSome = true → w.counts.metadata + 1 ≤ u64Max

/-- A refused connection, which is counted once. -/
theorem added_of_refused (hconnected : record.kind.isConnected = true) (hlog : v.log = w.log)
    (hdirs : v.dirs = w.dirs) (hentries : v.entries = w.entries) (hbad : v.bad = false → w.bad = false)
    (hone : v.counts.admission + v.counts.stopped = w.counts.admission + w.counts.stopped + 1)
    (hrest : v.counts.unowned = w.counts.unowned ∧ v.counts.failed = w.counts.failed ∧
      v.counts.unownedBytes = w.counts.unownedBytes ∧
      v.counts.failedBytes = w.counts.failedBytes ∧ v.counts.metadata = w.counts.metadata) :
    Added record 0 w v := by
  obtain ⟨hunowned, hfailed, hunownedBytes, hfailedBytes, hmetadata⟩ := hrest
  have hzero := bytes_of_connected hconnected
  constructor
  · rw [hlog, hdirs]
  · rw [hlog, hdirs, hentries, hmetadata]
  · rw [hlog]
    omega
  · rw [hlog]
    omega
  · exact fun h ↦ ⟨hbad h, rfl⟩
  · unfold broken
    rw [hentries, Nat.add_zero]
  · rw [hdirs]

/-- What a record adds at its own connection, with a summary that could not be
written if `unwritten`. -/
theorem added_of_changed {lost : ℕ} (unwritten : ℕ)
    (hchanged : Changed record.connection entry d more w v)
    (hsame : v.counts.admission = w.counts.admission ∧ v.counts.stopped = w.counts.stopped ∧
      v.counts.unowned = w.counts.unowned ∧ v.counts.failed = w.counts.failed ∧
      v.counts.unownedBytes = w.counts.unownedBytes ∧
      v.counts.failedBytes = w.counts.failedBytes ∧
      v.counts.metadata = w.counts.metadata + unwritten)
    (hcreated : more.countP (·.isCreated) + w.dirs[record.connection]?.isSome.toNat =
      d.isSome.toNat)
    (hsummarized : more.countP (·.isSummarized) + unwritten + entry.isSome.toNat +
      w.dirs[record.connection]?.isSome.toNat =
        w.entries[record.connection]?.isSome.toNat + d.isSome.toNat)
    (hcount : more.countP (·.isRecorded) + lost = 1)
    (hweight : (more.map (·.payload)).sum + lost * bytes record = bytes record)
    (hbad : v.bad = false → w.bad = false ∧ lost = 0)
    (hbroken : w.entries[record.connection]?.elim 0 (·.isFailed.toNat) + lost ≤
      entry.elim 0 (·.isFailed.toNat)) : Added record lost w v := by
  obtain ⟨hentries, hdirs, hsizes⟩ := hchanged.sizes
  obtain ⟨hadmission, hstopped, hunowned, hfailed, hunownedBytes, hfailedBytes, hone⟩ := hsame
  have hlog := hchanged.log
  constructor
  · rw [hlog, List.countP_append]
    omega
  · rw [hlog, List.countP_append]
    omega
  · rw [hlog, List.countP_append]
    omega
  · rw [hlog, List.map_append, List.sum_append]
    omega
  · exact hbad
  · omega
  · have hle : w.dirs[record.connection]?.isSome.toNat ≤ d.isSome.toNat := by omega
    omega

theorem same_of_eq (h : v.counts = w.counts) :
    v.counts.admission = w.counts.admission ∧ v.counts.stopped = w.counts.stopped ∧
      v.counts.unowned = w.counts.unowned ∧ v.counts.failed = w.counts.failed ∧
      v.counts.unownedBytes = w.counts.unownedBytes ∧
      v.counts.failedBytes = w.counts.failedBytes ∧
      v.counts.metadata = w.counts.metadata + 0 := by
  rw [h]
  exact ⟨rfl, rfl, rfl, rfl, rfl, rfl, rfl⟩

theorem Handled.added (h : Handled w record io v) (hroom : Room record w)
    (hdir : ∀ e, w.entries[record.connection]? = some e →
      w.dirs[record.connection]?.isSome = true)
    (hnone : w.dirs[record.connection]? = none → w.entries[record.connection]? = none) :
    ∃ lost ≤ 1, Added record lost w v := by
  cases h with
  | stopped hconnected hwon hv =>
      subst hv
      have hone := saturatingAdd_of_le hroom.stopped
      refine ⟨0, Nat.zero_le _, added_of_refused hconnected rfl rfl rfl (fun h ↦ h) ?_
        ⟨rfl, rfl, rfl, rfl, rfl⟩⟩
      dsimp only
      omega
  | full hconnected hwon hfull hv =>
      subst hv
      have hone := saturatingAdd_of_le hroom.admission
      refine ⟨0, Nat.zero_le _, added_of_refused hconnected rfl rfl rfl (fun h ↦ (by cases h)) ?_
        ⟨rfl, rfl, rfl, rfl, rfl⟩⟩
      dsimp only [refuseAdmission]
      omega
  | uncreated hconnected hwon hlimit hv =>
      subst hv
      have hone := saturatingAdd_of_le hroom.admission
      refine ⟨0, Nat.zero_le _, added_of_refused hconnected rfl rfl rfl (fun h ↦ (by cases h)) ?_
        ⟨rfl, rfl, rfl, rfl, rfl⟩⟩
      dsimp only [refuseAdmission, Run.fail]
      omega
  | @created hconnected hwon hlimit hactive hnew e d more hopened hchanged hreserved hcounts
      hstops =>
      obtain ⟨hcreated, hsummarized, hcount, hweight⟩ := hopened.counts
      have hentry := hnone hnew
      refine ⟨e.isFailed.toNat, Bool.toNat_le _, added_of_changed 0 hchanged (same_of_eq hcounts) ?_ ?_ hcount
        hweight ?_ ?_⟩
      · rw [hnew, hcreated]
        rfl
      · rw [hnew, hentry, hsummarized]
        rfl
      · intro hbad
        cases hfailed : e.isFailed with
        | true =>
            rw [(hstops.failing hfailed).1] at hbad
            cases hbad
        | false =>
            rw [(hstops.quiet hfailed).1] at hbad
            exact ⟨hbad, rfl⟩
      · rw [hentry]
        exact (Nat.zero_add _).le
  | taken hconnected hended hentry hrecord hchanged hreserved hcounts hstops =>
      have hsome := hdir _ hentry
      refine ⟨0, Nat.zero_le _, added_of_changed 0 hchanged (same_of_eq hcounts) ?_ ?_ rfl ?_ ?_ ?_⟩
      · rw [hsome]
        rfl
      · rw [hsome, hentry]
        rfl
      · simp [Happening.payload]
      · intro hbad
        rw [(hstops.quiet rfl).1] at hbad
        exact ⟨hbad, rfl⟩
      · rw [hentry]
        exact le_rfl
  | broken hconnected hentry hrecord hchanged hreserved hcounts hstops =>
      have hsome := hdir _ hentry
      refine ⟨1, le_rfl, added_of_changed 0 hchanged (same_of_eq hcounts) ?_ ?_ rfl ?_ ?_ ?_⟩
      · rw [hsome]
        rfl
      · rw [hsome, hentry]
        rfl
      · simp
      · intro hbad
        rw [(hstops.failing rfl).1] at hbad
        cases hbad
      · rw [hentry]
        exact le_rfl
  | unfinished hconnected hended hentry hrecord hfinish hchanged hreserved hcounts hstops =>
      have hsome := hdir _ hentry
      refine ⟨0, Nat.zero_le _, added_of_changed 0 hchanged (same_of_eq hcounts) ?_ ?_ rfl ?_ ?_ ?_⟩
      · rw [hsome]
        rfl
      · rw [hsome, hentry]
        rfl
      · simp [Happening.payload]
      · intro hbad
        rw [(hstops.failing rfl).1] at hbad
        cases hbad
      · rw [hentry]
        exact Nat.zero_le _
  | @finished hconnected hended r s t summary content ok hentry hrecord hfinish hwrite hchanged
      hreserved hcounts hbad hcontrol =>
      have hsome := hdir _ hentry
      have hmetadata := saturatingAdd_of_le (hroom.metadata (by rw [hentry]; rfl))
      refine ⟨0, Nat.zero_le _, added_of_changed (!ok).toNat hchanged ?_ ?_ ?_ ?_ ?_ ?_ ?_⟩
      · rw [hcounts]
        cases ok with
        | true => exact ⟨rfl, rfl, rfl, rfl, rfl, rfl, rfl⟩
        | false => exact ⟨rfl, rfl, rfl, rfl, rfl, rfl, hmetadata⟩
      · rw [hsome]
        cases ok <;> rfl
      · rw [hsome, hentry]
        cases ok <;> rfl
      · cases ok <;> rfl
      · cases ok <;> simp [Happening.payload, summarized]
      · intro hgood
        rw [hbad, Bool.or_eq_false_iff, Bool.or_eq_false_iff] at hgood
        exact ⟨hgood.1.1, rfl⟩
      · rw [hentry]
        exact le_rfl
  | @failed hconnected receipt hentry hv =>
      subst hv
      have hone := saturatingAdd_of_le hroom.failed
      have hbytes := saturatingAdd_of_le hroom.failedBytes
      have hsize : (w.onFailed record receipt).entries.size = w.entries.size := by
        have hchange := Std.TreeMap.size_of_change (m := w.entries)
          (Std.TreeMap.getElem?_insert_ite w.entries record.connection (Entry.failed { receipt with
            dropped := saturatingAdd receipt.dropped 1
            bytes := saturatingAdd receipt.bytes (bytes record) }))
        rw [hentry] at hchange
        exact Nat.add_right_cancel hchange
      have hsame : (w.onFailed record receipt).broken = w.broken := by
        have hchange := Std.TreeMap.total_of_change (f := fun _ e ↦ e.isFailed.toNat)
          (Std.TreeMap.getElem?_insert_ite w.entries record.connection (Entry.failed { receipt with
            dropped := saturatingAdd receipt.dropped 1
            bytes := saturatingAdd receipt.bytes (bytes record) }))
        rw [hentry] at hchange
        exact Nat.add_right_cancel hchange
      refine ⟨0, Nat.zero_le _, rfl, ?_, ?_, ?_, fun h ↦ ⟨h, rfl⟩, ?_, le_rfl⟩
      · rw [hsize]
        rfl
      · dsimp only [onFailed]
        omega
      · dsimp only [onFailed]
        omega
      · rw [hsame]
        exact le_rfl
  | unowned hconnected hentry hv =>
      subst hv
      have hone := saturatingAdd_of_le hroom.unowned
      have hbytes := saturatingAdd_of_le hroom.unownedBytes
      refine ⟨0, Nat.zero_le _, rfl, rfl, ?_, ?_, fun h ↦ ⟨h, rfl⟩, le_rfl, le_rfl⟩
      · dsimp only [onUnowned]
        omega
      · dsimp only [onUnowned]
        omega

/-! ## Whole runs -/

theorem Accounted.room {c : Config} (h : Accounted records w) (hvalid : c.Valid)
    (hbounded : w.Bounded c) (hphase : w.phase = .draining)
    (hcount : (records ++ [record]).length ≤ u64Max)
    (hbytes : ((records ++ [record]).map bytes).sum ≤ u64Max) : Room record w := by
  obtain ⟨lost, lostBytes, htold⟩ := h.told
  have hlength := htold.count
  have hweight := htold.weight
  simp only [List.length_append, List.length_singleton, List.map_append, List.map_cons,
    List.map_nil, List.sum_append, List.sum_cons, List.sum_nil, Nat.add_zero] at hcount hbytes
  refine ⟨by omega, by omega, by omega, by omega, by omega, by omega, fun hsome ↦ ?_⟩
  obtain ⟨entry, hentry⟩ := Option.isSome_iff_exists.mp hsome
  have hpos := Std.TreeMap.size_erase_add_one hentry
  have htracked := tracked_length hphase
  have hsummarized := h.summarized
  have hdirs := hbounded.kept.dirs
  have hreserved := hbounded.kept.reserved
  have hrun := hvalid.run_le
  omega

theorem Accounted.record_step {c : Config} (h : Accounted records w) (hvalid : c.Valid)
    (hbounded : w.Bounded c) (hphase : w.phase = .draining)
    (hcount : (records ++ [record]).length ≤ u64Max)
    (hbytes : ((records ++ [record]).map bytes).sum ≤ u64Max) :
    Accounted (records ++ [record]) (w.onRecord record io) := by
  have hdir : ∀ e, w.entries[record.connection]? = some e →
      w.dirs[record.connection]?.isSome = true := by
    intro e he
    obtain ⟨d, hd, _⟩ := hbounded.kept.entries _ e he
    rw [hd]
    rfl
  have hnone : w.dirs[record.connection]? = none → w.entries[record.connection]? = none := by
    intro hmissing
    cases hentry : w.entries[record.connection]? with
    | none => rfl
    | some e =>
        have hsome := hdir e hentry
        rw [hmissing] at hsome
        cases hsome
  have hroom := h.room hvalid hbounded hphase hcount hbytes
  obtain ⟨lost, hlost, hadded⟩ := (handled_onRecord w record io).added hroom hdir hnone
  obtain ⟨before, beforeBytes, htold⟩ := h.told
  have hafter : (w.onRecord record io).phase = .draining := (onRecord_phase w record io).trans hphase
  have htracked := tracked_length hphase
  have htracked' := tracked_length hafter
  have hcreated := hadded.created
  have hsummarized := hadded.summarized
  have hbefore := h.summarized
  have hlength := hadded.count
  have hweight := hadded.weight
  have hbroken := hadded.broken
  have hsizes := broken_le (w.onRecord record io)
  have hold := h.created
  have hcounted := htold.count
  have hweighed := htold.weight
  refine ⟨by omega, by omega, before + lost, beforeBytes + lost * bytes record, ?_, ?_, ?_, ?_, ?_⟩
  · rw [List.length_append, List.length_singleton]
    omega
  · rw [List.map_append, List.sum_append, List.map_singleton, List.sum_singleton]
    omega
  · intro hbad
    obtain ⟨hgood, rfl⟩ := hadded.faultless hbad
    obtain ⟨rfl, rfl⟩ := htold.faultless hgood
    exact ⟨rfl, by rw [Nat.zero_mul]⟩
  · have hle := htold.broken hphase
    omega
  · intro _
    have hle := htold.broken hphase
    omega

theorem Accounted.congr (h : Accounted records w) (hlog : v.log = w.log) (hdirs : v.dirs = w.dirs)
    (hcounts : v.counts = w.counts) (htracked : v.tracked.length = w.tracked.length)
    (hbad : v.bad = false → w.bad = false)
    (hbroken : v.phase = .draining → w.phase = .draining ∧ v.broken = w.broken) :
    Accounted records v := by
  obtain ⟨lost, lostBytes, htold⟩ := h.told
  refine ⟨?_, ?_, lost, lostBytes, ?_, ?_, fun hgood ↦ htold.faultless (hbad hgood), ?_, ?_⟩
  · rw [hlog, hdirs]
    exact h.created
  · rw [hlog, hdirs, hcounts, htracked]
    exact h.summarized
  · rw [hlog, hcounts]
    exact htold.count
  · rw [hlog, hcounts]
    exact htold.weight
  · rw [hdirs]
    exact htold.lost_le
  · intro hphase
    obtain ⟨hdraining, hsame⟩ := hbroken hphase
    rw [hsame]
    exact htold.broken hdraining

/-- What a left-over entry adds. -/
structure Summed (w v : Run) : Prop where
  created : v.log.countP (·.isCreated) = w.log.countP (·.isCreated)
  recorded : v.log.countP (·.isRecorded) = w.log.countP (·.isRecorded)
  payload : (v.log.map (·.payload)).sum = (w.log.map (·.payload)).sum
  dirs : v.dirs.size = w.dirs.size
  summarized : v.log.countP (·.isSummarized) + v.counts.metadata =
    w.log.countP (·.isSummarized) + w.counts.metadata + 1
  counts : v.counts = { w.counts with metadata := v.counts.metadata }

theorem summed_of_changed {ok : Bool} {dir : Directory}
    (hchanged : Changed id entry (some dir) more w v)
    (hdir : w.dirs[id]?.isSome = true)
    (hmore : more.countP (·.isCreated) = 0 ∧ more.countP (·.isRecorded) = 0 ∧
      (more.map (·.payload)).sum = 0 ∧ more.countP (·.isSummarized) = ok.toNat)
    (hcounts : v.counts = if ok then w.counts else { w.counts with
      metadata := saturatingAdd w.counts.metadata 1 })
    (hroom : w.counts.metadata + 1 ≤ u64Max) : Summed w v := by
  obtain ⟨_, hdirs, _⟩ := hchanged.sizes
  rw [hdir] at hdirs
  obtain ⟨hcreated, hrecorded, hpayload, hsummarized⟩ := hmore
  have hlog := hchanged.log
  have hmetadata := saturatingAdd_of_le hroom
  refine ⟨?_, ?_, ?_, Nat.add_right_cancel hdirs, ?_, ?_⟩
  · rw [hlog, List.countP_append, hcreated, Nat.add_zero]
  · rw [hlog, List.countP_append, hrecorded, Nat.add_zero]
  · rw [hlog, List.map_append, List.sum_append, hpayload, Nat.add_zero]
  · rw [hlog, List.countP_append, hsummarized, hcounts]
    cases ok with
    | true =>
        simp only [Bool.toNat_true, if_true]
        omega
    | false =>
        simp only [Bool.toNat_false, Bool.false_eq_true, if_false]
        omega
  · rw [hcounts]
    cases ok <;> rfl

theorem Closed.summed {e : Entry} {created : Created} {dir : Directory}
    (h : Closed w id created dir v e) (hdir : w.dirs[id]?.isSome = true)
    (hroom : w.counts.metadata + 1 ≤ u64Max) : Summed w v := by
  cases h with
  | @failed receipt content ok hwrite hchanged hcounts =>
      refine summed_of_changed hchanged hdir ?_ hcounts hroom
      cases ok <;> exact ⟨rfl, rfl, rfl, rfl⟩
  | @finished r t summary content ok hfinish hwrite hchanged hcounts =>
      refine summed_of_changed hchanged hdir ?_ hcounts hroom
      cases ok <;> exact ⟨rfl, rfl, rfl, rfl⟩
  | @unfinished r t x content ok hfinish hwrite hchanged hcounts =>
      refine summed_of_changed hchanged hdir ?_ hcounts hroom
      cases ok <;> exact ⟨rfl, rfl, rfl, rfl⟩

theorem Accounted.step {c : Config} (h : Accounted records w) (hvalid : c.Valid)
    (hbounded : w.Bounded c) {event : Event}
    (hcount : (records ++ event.records).length ≤ u64Max)
    (hbytes : ((records ++ event.records).map bytes).sum ≤ u64Max)
    (hstep : w.step event = some v) : Accounted (records ++ event.records) v := by
  cases event with
  | signal woken =>
      obtain ⟨_, rfl⟩ := step_signal hstep
      have hnil : (Event.signal woken).records = [] := rfl
      rw [hnil, List.append_nil]
      exact h.congr rfl rfl rfl rfl (fun hbad ↦ hbad) fun hphase ↦ ⟨hphase, rfl⟩
  | record record io =>
      obtain ⟨hphase, rfl⟩ := step_record hstep
      exact h.record_step hvalid hbounded hphase hcount hbytes
  | disconnected =>
      obtain ⟨hphase, rfl⟩ := step_disconnected hstep
      have hnil : Event.disconnected.records = [] := rfl
      rw [hnil, List.append_nil]
      refine h.congr rfl rfl rfl ?_ (fun hbad ↦ hbad) (by rintro ⟨⟩)
      rw [Run.tracked, Run.tracked, hphase]
  | finalize created =>
      obtain ⟨id, entry, rest, hphase, rfl⟩ := step_finalize hstep
      have hnil : (Event.finalize created).records = [] := rfl
      rw [hnil, List.append_nil]
      have htracked : w.tracked = (id, entry) :: rest := by rw [Run.tracked, hphase]
      obtain ⟨d, hdir, _⟩ := hbounded.fits (id, entry) (by rw [htracked]; exact List.mem_cons_self)
      have hd : w.dirs[id]? = some d := hdir
      have hbefore := h.summarized
      rw [htracked, List.length_cons] at hbefore
      have hdirs := hbounded.kept.dirs
      have hreserved := hbounded.kept.reserved
      have hrun := hvalid.run_le
      have hsummed := (closed_onFinalize hd entry created).summed (by rw [hd]; rfl) (by omega)
      have hbad := onFinalize_bad w id entry created
      obtain ⟨lost, lostBytes, htold⟩ := h.told
      have hcounts := hsummed.counts
      refine ⟨?_, ?_, lost, lostBytes, ?_, ?_, ?_, ?_, by rintro ⟨⟩⟩
      · exact hsummed.created.trans (h.created.trans hsummed.dirs.symm)
      · have hone := hsummed.summarized
        have hsize := hsummed.dirs
        change _ + (w.onFinalize id entry created).counts.metadata + rest.length =
          (w.onFinalize id entry created).dirs.size
        dsimp only
        omega
      · dsimp only
        rw [hsummed.recorded, hcounts]
        exact htold.count
      · dsimp only
        rw [hsummed.payload, hcounts]
        exact htold.weight
      · intro hgood
        dsimp only at hgood
        rw [hbad] at hgood
        cases hgood
      · exact htold.lost_le.trans hsummed.dirs.ge
  | exit io =>
      obtain ⟨hphase, rfl⟩ := step_exit hstep
      have hnil : (Event.exit io).records = [] := rfl
      rw [hnil, List.append_nil]
      refine h.congr rfl rfl rfl ?_ ?_ (by rintro ⟨⟩)
      · rw [Run.tracked, Run.tracked, hphase]
        rfl
      · intro hbad
        simp only [Run.onExit, Bool.or_eq_false_iff] at hbad
        exact hbad.1.1.1.1.1.1.1.1

end Run

end Phonowire.Capture
