import Phonowire.Capture.Run
import Phonowire.Library.Machine
import Phonowire.Library.Totals

/-!
# The configured output bound holds

Every directory of a run is new and counted by a reservation, each of its files
keeps its cap, and a recorder replaces its header in place. So at any time the
files of a run are not longer than the bound that was checked for its
configuration.
-/

namespace Phonowire.Capture

open Receiver AudioSocket

/-! ## Directories -/

/-- The length of a file that may be missing. -/
def size (content : Option (List UInt8)) : ℕ := content.elim 0 List.length

namespace Directory

def total (d : Directory) : ℕ := size d.wire + size d.wave + size d.events + size d.summary

structure Small (c : Config) (d : Directory) : Prop where
  wire : size d.wire ≤ c.file
  wave : size d.wave ≤ c.file
  events : size d.events ≤ c.file
  summary : size d.summary ≤ c.summary

variable {c : Config} {d : Directory} {r : Recording}

theorem Small.total_le (h : d.Small c) : d.total ≤ 3 * c.file + c.summary := by
  obtain ⟨hwire, hwave, hevents, hsummary⟩ := h
  unfold total
  omega

theorem Small.keep (h : d.Small c) (hwire : Capped c.file r.wire.sink)
    (hwave : Capped c.file r.wave.sink) (hevents : Capped c.file r.events.sink) :
    (d.keep r).Small c :=
  ⟨hwire.length, hwave.length, hevents.length, h.summary⟩

theorem Small.within (h : d.Small c) (hr : Within c.file r) : (d.keep r).Small c :=
  h.keep hr.wire hr.wave hr.events

/-- The final header does not make the audio file longer. -/
theorem Small.finish (h : d.Small c) (hr : Within c.file r) :
    (d.keep (finishWithin c.file r).1).Small c := by
  obtain ⟨hwire, hevents, hwave⟩ := finishWithin_sinks hr
  have hlength := hr.wave.length
  refine ⟨?_, hwave.trans_le hlength, ?_, h.summary⟩
  · exact (congrArg (List.length ·.content) hwire).trans_le hr.wire.length
  · exact (congrArg (List.length ·.content) hevents).trans_le hr.events.length

end Directory

/-- A file written by `write_json` keeps its cap, and a file that was there
stays as it was. -/
theorem writeJson_small (cap : ℕ) {existing : Option (List UInt8)} (h : size existing ≤ cap)
    (created : Created) (text : String) :
    size (writeJson cap existing created text).1 ≤ cap ∧
      (existing.isSome = true → (writeJson cap existing created text).1 = existing) := by
  unfold writeJson
  cases existing with
  | some content => exact ⟨h, fun _ ↦ rfl⟩
  | none =>
      cases created with
      | error e => exact ⟨h, fun _ ↦ rfl⟩
      | ok b =>
          have hempty : Capped cap .empty := ⟨le_rfl, Nat.zero_le _⟩
          refine ⟨?_, fun hsome ↦ (by cases hsome)⟩
          exact (limitedLoop_capped cap b.script .empty (utf8 text) 0 hempty).1.length

theorem create_small (c : Config) (id : ConnectionId) (io : CreateIo) :
    (create c.file id io).1.Small c ∧
      ∀ r, (create c.file id io).2 = .ok r →
        Within c.file r ∧ (create c.file id io).1.wave = some r.wave.sink.content := by
  have hnone {d : Directory} (hwire : size d.wire = 0) (hwave : size d.wave = 0)
      (hevents : size d.events = 0) (hsummary : size d.summary = 0) : d.Small c :=
    ⟨by omega, by omega, by omega, by omega⟩
  unfold create
  cases io.wire with
  | error e => exact ⟨hnone rfl rfl rfl rfl, fun _ h ↦ (by cases h)⟩
  | ok wire =>
      cases io.wave with
      | error e => exact ⟨hnone rfl rfl rfl rfl, fun _ h ↦ (by cases h)⟩
      | ok wave =>
          cases io.events with
          | error e => exact ⟨hnone rfl rfl rfl rfl, fun _ h ↦ (by cases h)⟩
          | ok events =>
              have hfresh (b : Behaviour) : b.file.sink = .empty := rfl
              obtain ⟨hwire, hwave, hevents, hok⟩ :=
                openWithin_capped c.file id (hfresh wire) (hfresh wave) (hfresh events)
              have hcapped : Capped c.file .empty := ⟨le_rfl, Nat.zero_le _⟩
              have hempty : Directory.Small c {} := hnone rfl rfl rfl rfl
              have hsmall := hempty.keep (hwire ▸ hcapped) hwave (hevents ▸ hcapped)
              dsimp only
              rcases hopened : openWithin c.file id wire.file wave.file events.file
                with ⟨r, e | ⟨⟩⟩
              · rw [hopened] at hsmall
                exact ⟨hsmall, fun _ h ↦ (by cases h)⟩
              · rw [hopened] at hsmall hok
                refine ⟨hsmall, ?_⟩
                rintro _ ⟨⟩
                exact ⟨hok rfl, rfl⟩

/-! ## Tracked connections -/

/-- An active recorder keeps the cap, and its files are those of its directory. -/
def Entry.Fits (c : Config) (d : Directory) : Entry → Prop
  | .active r => Within c.file r ∧ d.wave = some r.wave.sink.content
  | .failed _ => True

namespace Run

variable {c : Config} {w v : Run} {id : ConnectionId} {d : Directory} {entry : Entry}
  {r : Recording}

structure Kept (c : Config) (w : Run) : Prop where
  config : w.config = c
  reserved : w.reserved ≤ c.run
  dirs : w.dirs.size ≤ w.reserved
  files : ∀ (id : ConnectionId) d, w.dirs[id]? = some d → d.Small c
  status : size w.status ≤ c.status
  entries : ∀ (id : ConnectionId) e, w.entries[id]? = some e →
    ∃ d, w.dirs[id]? = some d ∧ e.Fits c d
  tracked : w.entries.size ≤ c.active

theorem kept_new (c : Config) : (new c).Kept c where
  config := rfl
  reserved := Nat.zero_le _
  dirs := le_rfl
  files := by simp [new]
  status := Nat.zero_le _
  entries := by simp [new]
  tracked := Nat.zero_le _

theorem Kept.congr (h : w.Kept c) (hconfig : v.config = w.config)
    (hreserved : v.reserved = w.reserved) (hdirs : v.dirs = w.dirs) (hstatus : v.status = w.status)
    (hentries : v.entries = w.entries) : v.Kept c where
  config := hconfig.trans h.config
  reserved := hreserved ▸ h.reserved
  dirs := by
    rw [hdirs, hreserved]
    exact h.dirs
  files := hdirs ▸ h.files
  status := hstatus ▸ h.status
  entries := by
    rw [hdirs, hentries]
    exact h.entries
  tracked := hentries ▸ h.tracked

theorem size_insert_of_some {m : Std.TreeMap ConnectionId Directory} {id : ConnectionId}
    {before : Directory} (hbefore : m[id]? = some before) (d : Directory) :
    (m.insert id d).size = m.size := by
  rw [Std.TreeMap.size_insert, if_pos]
  rw [← Std.TreeMap.isSome_getElem?_eq_contains, hbefore]
  rfl

theorem size_track {m : Std.TreeMap ConnectionId Entry} {limit : ℕ} (h : m.size ≤ limit)
    (hroom : m[id]?.isSome = true ∨ m.size < limit) (entry : Entry) :
    (m.insert id entry).size ≤ limit := by
  rw [Std.TreeMap.size_insert, ← Std.TreeMap.isSome_getElem?_eq_contains]
  split_ifs with hsome
  · exact h
  · exact hroom.resolve_left hsome

/-- A new content of a directory, together with the entry of its connection. -/
theorem Kept.put (h : w.Kept c) (entries : Std.TreeMap ConnectionId Entry)
    (hdirs : (w.dirs.insert id d).size ≤ w.reserved) (hsmall : d.Small c)
    (hat : ∀ e, entries[id]? = some e → e.Fits c d)
    (hother : ∀ other, id ≠ other → entries[other]? = w.entries[other]?)
    (htracked : entries.size ≤ c.active) :
    Kept c { w with dirs := w.dirs.insert id d, entries } where
  config := h.config
  reserved := h.reserved
  dirs := hdirs
  files := by
    intro other e he
    dsimp only at he
    rw [Std.TreeMap.getElem?_insert_ite] at he
    split_ifs at he with hid
    · cases he
      exact hsmall
    · exact h.files other e he
  status := h.status
  entries := by
    intro other e he
    dsimp only at he ⊢
    rw [Std.TreeMap.getElem?_insert_ite]
    split_ifs with hid
    · subst hid
      exact ⟨d, rfl, hat e he⟩
    · exact h.entries other e (hother other hid ▸ he)
  tracked := htracked

theorem keep_eq (hd : w.dirs[id]? = some d) (r : Recording) :
    w.keep id r = { w with dirs := w.dirs.insert id (d.keep r) } := by
  rw [Run.keep, Std.TreeMap.getD_eq_getD_getElem?, hd, Option.getD_some]

/-- The files of a recorder that is not tracked any more. -/
theorem Kept.keep (h : w.Kept c) (hd : w.dirs[id]? = some d) (hsmall : (d.keep r).Small c)
    (hnone : w.entries[id]? = none) : (w.keep id r).Kept c := by
  rw [keep_eq hd]
  refine h.put _ ((size_insert_of_some hd _).trans_le h.dirs) hsmall ?_ (fun _ _ ↦ rfl) h.tracked
  intro e he
  rw [hnone] at he
  cases he

/-- The files of a recorder and the entry of its connection. -/
theorem Kept.track (h : w.Kept c) (entry : Entry) (hd : w.dirs[id]? = some d) (hsmall : (d.keep r).Small c)
    (hfits : entry.Fits c (d.keep r))
    (hroom : w.entries[id]?.isSome = true ∨ w.entries.size < c.active) :
    ((w.keep id r).setEntry id entry).Kept c := by
  rw [keep_eq hd]
  refine h.put _ ((size_insert_of_some hd _).trans_le h.dirs) hsmall ?_ ?_ ?_
  · intro e he
    rw [Std.TreeMap.getElem?_insert_self] at he
    cases he
    exact hfits
  · intro other hne
    exact Std.TreeMap.getElem?_insert_of_ne hne _
  · exact size_track h.tracked hroom entry

theorem Kept.setEntry (h : w.Kept c) (entry : Entry) (hd : w.dirs[id]? = some d) (hfits : entry.Fits c d)
    (hroom : w.entries[id]?.isSome = true ∨ w.entries.size < c.active) :
    (w.setEntry id entry).Kept c where
  config := h.config
  reserved := h.reserved
  dirs := h.dirs
  files := h.files
  status := h.status
  entries := by
    intro other e he
    unfold Run.setEntry at he
    dsimp only at he
    rw [Std.TreeMap.getElem?_insert_ite] at he
    split_ifs at he with hid
    · cases he
      subst hid
      exact ⟨d, hd, hfits⟩
    · exact h.entries other e he
  tracked := size_track h.tracked hroom entry

theorem Kept.erase (h : w.Kept c) (id : ConnectionId) :
    Kept c { w with entries := w.entries.erase id } where
  config := h.config
  reserved := h.reserved
  dirs := h.dirs
  files := h.files
  status := h.status
  entries := by
    intro other e he
    dsimp only at he
    rw [Std.TreeMap.getElem?_erase_ite] at he
    split_ifs at he
    exact h.entries other e he
  tracked := Std.TreeMap.size_erase_le.trans h.tracked

/-! ## The operations of the loops -/

theorem Kept.fail (h : w.Kept c) (woken : Option String) : (w.fail woken).Kept c :=
  h.congr rfl rfl rfl rfl rfl

theorem Kept.note (h : w.Kept c) (happening : Happening) : (w.note happening).Kept c :=
  h.congr rfl rfl rfl rfl rfl

theorem Kept.writeSummary (h : w.Kept c) (id : ConnectionId) (outcome : String)
    (s : RecordingSummary) (receipt : Option Receipt) (created : Created) :
    (w.writeSummary id outcome s receipt created).1.Kept c := by
  unfold Run.writeSummary
  cases hd : w.dirs[id]? with
  | none => exact h
  | some d =>
      have hsmall := h.files id d hd
      obtain ⟨hsummary, _⟩ := writeJson_small w.config.summary (h.config ▸ hsmall.summary) created
        (jsonSummary id outcome s receipt)
      have hnew : Kept c { w with
          dirs := w.dirs.insert id { d with
            summary := (writeJson w.config.summary d.summary created
              (jsonSummary id outcome s receipt)).1 } } := by
        refine h.put _ ((size_insert_of_some hd _).trans_le h.dirs)
          ⟨hsmall.wire, hsmall.wave, hsmall.events, h.config ▸ hsummary⟩ ?_ (fun _ _ ↦ rfl) h.tracked
        intro e he
        obtain ⟨before, hbefore, hfits⟩ := h.entries id e he
        rw [hd] at hbefore
        cases hbefore
        exact hfits
      dsimp only
      split_ifs
      · exact hnew.note _
      · exact hnew

/-- The end of a connection whose recorder keeps the cap. -/
theorem Kept.finish (h : w.Kept c) (hd : w.dirs[id]? = some d) (hr : Within c.file r)
    (hentry : w.entries[id]? = some entry) (io : RecordIo) : (w.finish id r io).Kept c := by
  have herased := h.erase id
  have hnone : (w.entries.erase id)[id]? = none := by simp
  have hsize := Std.TreeMap.size_erase_add_one hentry
  have htracked := h.tracked
  have hsmall := (h.files id d hd).finish hr
  obtain rfl := h.config
  unfold Run.finish
  dsimp only
  revert hsmall
  rcases finishWithin w.config.file r with ⟨s, e | summary⟩ <;> intro hsmall
  · have hroom : (w.entries.erase id).size < w.config.active := by omega
    exact (herased.track (.failed (.fromError e)) hd hsmall trivial
      (.inr hroom)).fail io.woken
  · have hkept := (herased.keep hd hsmall hnone).note (.finished id summary)
    have hwritten := (hkept.congr (v := { (Run.keep { w with entries := w.entries.erase id } id s).note
        (.finished id summary) with bad := w.bad || !successfulTerminal summary.ending })
      rfl rfl rfl rfl rfl).writeSummary id
      (if successfulTerminal summary.ending then "observed" else "failed") summary none io.summary
    dsimp only at hwritten ⊢
    split
    · rename_i hresult
      rwa [hresult] at hwritten
    · rename_i hresult
      rw [hresult] at hwritten
      exact hwritten.congr rfl rfl rfl rfl rfl

theorem Kept.onActive (h : w.Kept c) {record : Record}
    (hentry : w.entries[record.connection]? = some (.active r)) (io : RecordIo) :
    (w.onActive record r io).Kept c := by
  obtain ⟨d, hd, hr, -⟩ := h.entries _ _ hentry
  have hwithin := within_record hr record
  have htracked : w.entries[record.connection]?.isSome = true := by rw [hentry]; rfl
  obtain rfl := h.config
  unfold Run.onActive
  dsimp only
  revert hwithin
  rcases recordWithin w.config.file r record with ⟨s, e | ⟨⟩⟩ <;> intro hwithin
  · have hsmall := (h.files _ d hd).within hwithin
    exact (h.track (.failed (.fromError e)) hd hsmall trivial (.inl htracked)).fail io.woken
  · have hsmall := (h.files _ d hd).within hwithin
    have hnext := (h.track (.active s) hd hsmall ⟨hwithin, rfl⟩ (.inl htracked)).note
      (.recorded record)
    dsimp only
    split_ifs
    · have hdir : (w.keep record.connection s).dirs[record.connection]? = some (d.keep s) := by
        rw [keep_eq hd]
        exact Std.TreeMap.getElem?_insert_self
      have hactive : (w.entries.insert record.connection (.active s))[record.connection]? =
          some (.active s) := Std.TreeMap.getElem?_insert_self
      exact hnext.finish hdir hwithin hactive io
    · exact hnext

theorem Kept.onFailed (h : w.Kept c) {record : Record} {receipt : Receipt}
    (hentry : w.entries[record.connection]? = some (.failed receipt)) :
    (w.onFailed record receipt).Kept c := by
  obtain ⟨d, hd, -⟩ := h.entries _ _ hentry
  have htracked : w.entries[record.connection]?.isSome = true := by rw [hentry]; rfl
  exact (h.setEntry (.failed _) hd trivial (.inl htracked)).congr rfl rfl rfl rfl rfl

/-- An admission reserves before it creates. -/
theorem Kept.createRecorder (h : w.Kept c) {record : Record}
    (hdirs : w.dirs.size < w.reserved) (hnew : w.dirs[record.connection]? = none)
    (hroom : w.entries.size < c.active) (io : RecordIo) : (w.createRecorder record io).Kept c := by
  obtain ⟨hsmall, hok⟩ := create_small c record.connection io.create
  obtain rfl := h.config
  have huntracked : w.entries[record.connection]? = none := by
    cases hentry : w.entries[record.connection]? with
    | none => rfl
    | some e =>
        obtain ⟨d, hd, -⟩ := h.entries _ e hentry
        rw [hnew] at hd
        cases hd
  unfold Run.createRecorder
  dsimp only
  revert hsmall hok
  rcases create w.config.file record.connection io.create with ⟨d, result⟩
  intro hsmall hok
  have hsize : (w.dirs.insert record.connection d).size ≤ w.reserved := by
    refine Std.TreeMap.size_insert_le.trans ?_
    omega
  have hput := (h.put w.entries hsize hsmall
    (fun e he ↦ (by rw [huntracked] at he; cases he)) (fun _ _ ↦ rfl) h.tracked).note
    (.created record.connection)
  have hat : (w.dirs.insert record.connection d)[record.connection]? = some d :=
    Std.TreeMap.getElem?_insert_self
  cases result with
  | error e =>
      exact (hput.setEntry (.failed e.receipt) hat trivial (.inr hroom)).fail io.woken
  | ok recorder =>
      obtain ⟨hr, -⟩ := hok recorder rfl
      have hwithin := within_record hr record
      dsimp only [Run.note]
      revert hwithin
      rcases recordWithin w.config.file recorder record with ⟨s, e | ⟨⟩⟩ <;> intro hwithin
      · exact (hput.track (.failed (.fromError e)) hat (hsmall.within hwithin) trivial
          (.inr hroom)).fail io.woken
      · exact (hput.track (.active s) hat (hsmall.within hwithin) ⟨hwithin, rfl⟩
          (.inr hroom)).note (.recorded record)

theorem Kept.onConnected (hvalid : c.Valid) (h : w.Kept c) (record : Record) (io : RecordIo) :
    (w.onConnected record io).Kept c := by
  have hconfig := h.config
  unfold Run.onConnected
  dsimp only
  split_ifs with hwon hfull hcause
  · exact h.congr rfl rfl rfl rfl rfl
  · exact h.congr rfl rfl rfl rfl rfl
  · exact h.congr rfl rfl rfl rfl rfl
  · rw [hconfig] at hfull
    push Not at hfull
    have hlimit := h.reserved
    have hroom : w.reserved + 1 ≤ u64Max := (Nat.lt_of_le_of_ne hlimit hfull.1).trans_le hvalid.run_le
    have hreserved : saturatingAdd w.reserved 1 = w.reserved + 1 := Nat.min_eq_left hroom
    have hdirs := h.dirs
    rw [hreserved]
    have hkept : Kept c { w with reserved := w.reserved + 1 } :=
      ⟨h.config, Nat.lt_of_le_of_ne hlimit hfull.1, hdirs.trans (Nat.le_succ _), h.files, h.status,
        h.entries, h.tracked⟩
    split
    · rename_i hnew _
      exact hkept.createRecorder (Nat.lt_succ_of_le hdirs) hnew hfull.2 io
    · exact hkept.congr rfl rfl rfl rfl rfl

theorem Kept.onRecord (hvalid : c.Valid) (h : w.Kept c) (record : Record) (io : RecordIo) :
    (w.onRecord record io).Kept c := by
  unfold Run.onRecord
  split_ifs with hconnected
  · exact h.onConnected hvalid record io
  · split
    · rename_i hentry
      exact h.onActive hentry io
    · rename_i hentry
      exact h.onFailed hentry
    · exact h.congr rfl rfl rfl rfl rfl

/-! ## Entries that are left over -/

/-- Only the directory of one connection changes. -/
structure Apart (id : ConnectionId) (w v : Run) : Prop where
  entries : v.entries = w.entries
  dirs : ∀ other, id ≠ other → v.dirs[other]? = w.dirs[other]?

theorem Apart.refl (id : ConnectionId) (w : Run) : Apart id w w := ⟨rfl, fun _ _ ↦ rfl⟩

theorem Apart.trans {u : Run} (h : Apart id w v) (hrest : Apart id v u) : Apart id w u :=
  ⟨hrest.entries.trans h.entries, fun other hne ↦ (hrest.dirs other hne).trans (h.dirs other hne)⟩

theorem apart_keep (id : ConnectionId) (w : Run) (r : Recording) : Apart id w (w.keep id r) :=
  ⟨rfl, fun _ hne ↦ Std.TreeMap.getElem?_insert_of_ne hne _⟩

theorem apart_writeSummary (id : ConnectionId) (w : Run) (outcome : String) (s : RecordingSummary)
    (receipt : Option Receipt) (created : Created) :
    Apart id w (w.writeSummary id outcome s receipt created).1 := by
  unfold Run.writeSummary
  cases w.dirs[id]? with
  | none => exact .refl id w
  | some d =>
      dsimp only
      split_ifs <;> exact ⟨rfl, fun _ hne ↦ Std.TreeMap.getElem?_insert_of_ne hne _⟩

/-- A written or a counted summary. -/
theorem summarize_kept_apart (h : w.Kept c) (id : ConnectionId) (outcome : String)
    (s : RecordingSummary) (receipt : Option Receipt) (created : Created) :
    (w.summarize id outcome s receipt created).Kept c ∧
      Apart id w (w.summarize id outcome s receipt created) := by
  have hbad : Kept c { w with bad := true } := h.congr rfl rfl rfl rfl rfl
  have hkept := hbad.writeSummary id outcome s receipt created
  have hapart := apart_writeSummary id { w with bad := true } outcome s receipt created
  unfold Run.summarize
  revert hkept hapart
  rcases Run.writeSummary { w with bad := true } id outcome s receipt created with ⟨v, _ | _⟩ <;>
    intro hkept hapart
  · exact ⟨hkept.congr rfl rfl rfl rfl rfl, hapart.entries, hapart.dirs⟩
  · exact ⟨hkept, hapart.entries, hapart.dirs⟩

theorem onFinalize_kept_apart (h : w.Kept c) (hd : w.dirs[id]? = some d) (hfits : entry.Fits c d)
    (hnone : w.entries[id]? = none) (created : Created) :
    (w.onFinalize id entry created).Kept c ∧ Apart id w (w.onFinalize id entry created) := by
  obtain rfl := h.config
  cases entry with
  | failed receipt => exact summarize_kept_apart h id _ _ _ created
  | active r =>
      have hsmall := (h.files id d hd).finish hfits.1
      unfold Run.onFinalize
      dsimp only
      revert hsmall
      rcases finishWithin w.config.file r with ⟨s, e | summary⟩ <;> intro hsmall
      · have hkept := h.keep hd hsmall hnone
        obtain ⟨hleft, hapart⟩ := summarize_kept_apart hkept id "failed"
          (Receipt.fromError e).summary (some (.fromError e)) created
        exact ⟨hleft, (apart_keep id w s).trans hapart⟩
      · have hkept := (h.keep hd hsmall hnone).note (.finished id summary)
        obtain ⟨hleft, hapart⟩ := summarize_kept_apart hkept id "incomplete" summary none created
        exact ⟨hleft, (apart_keep id w s).trans ⟨hapart.entries, hapart.dirs⟩⟩

/-- The recordings that are still open. -/
def tracked (w : Run) : List (ConnectionId × Entry) :=
  match w.phase with
  | .draining => w.entries.toList
  | .finalizing rest => rest
  | .exited _ => []

/-- What holds through a whole run. -/
structure Bounded (c : Config) (w : Run) : Prop where
  kept : w.Kept c
  entries : w.phase ≠ .draining → w.entries = ∅
  distinct : (w.tracked.map Prod.fst).Nodup
  fits : ∀ p ∈ w.tracked, ∃ d, w.dirs[p.1]? = some d ∧ p.2.Fits c d
  tracked : w.tracked.length ≤ c.active

section Phase

@[simp] theorem keep_phase (w : Run) (id : ConnectionId) (r : Recording) :
    (w.keep id r).phase = w.phase := rfl

@[simp] theorem setEntry_phase (w : Run) (id : ConnectionId) (entry : Entry) :
    (w.setEntry id entry).phase = w.phase := rfl

@[simp] theorem note_phase (w : Run) (happening : Happening) :
    (w.note happening).phase = w.phase := rfl

@[simp] theorem fail_phase (w : Run) (woken : Option String) : (w.fail woken).phase = w.phase := rfl

@[simp] theorem writeSummary_phase (w : Run) (id : ConnectionId) (outcome : String)
    (s : RecordingSummary) (receipt : Option Receipt) (created : Created) :
    (w.writeSummary id outcome s receipt created).1.phase = w.phase := by
  unfold Run.writeSummary
  cases w.dirs[id]? with
  | none => rfl
  | some d =>
      dsimp only
      split_ifs <;> rfl

@[simp] theorem finish_phase (w : Run) (id : ConnectionId) (r : Recording) (io : RecordIo) :
    (w.finish id r io).phase = w.phase := by
  unfold Run.finish
  dsimp only
  rcases finishWithin w.config.file r with ⟨s, e | summary⟩
  · rfl
  · dsimp only
    split <;> rename_i hresult <;> have hphase := congrArg (Run.phase ·.1) hresult <;>
      simpa using hphase.symm

@[simp] theorem onRecord_phase (w : Run) (record : Record) (io : RecordIo) :
    (w.onRecord record io).phase = w.phase := by
  unfold Run.onRecord
  split_ifs
  · unfold Run.onConnected Run.createRecorder
    dsimp only
    split_ifs <;> try rfl
    split
    · rcases create w.config.file record.connection io.create with ⟨d, e | recorder⟩
      · rfl
      · dsimp only [Run.note]
        rcases recordWithin w.config.file recorder record with ⟨s, e | ⟨⟩⟩ <;> rfl
    · rfl
  · split
    · rename_i r _
      unfold Run.onActive
      dsimp only
      rcases recordWithin w.config.file r record with ⟨s, e | ⟨⟩⟩
      · rfl
      · dsimp only
        split_ifs <;> simp
    · rfl
    · rfl

end Phase

theorem Kept.bounded (h : w.Kept c) (hphase : w.phase = .draining) : w.Bounded c := by
  have htracked : w.tracked = w.entries.toList := by rw [Run.tracked, hphase]
  constructor
  · exact h
  · exact fun hne ↦ absurd hphase hne
  · rw [htracked, Std.TreeMap.map_fst_toList_eq_keys]
    exact Std.TreeMap.nodup_keys
  · rw [htracked]
    exact fun p hp ↦ h.entries p.1 p.2 (Std.TreeMap.mem_toList_iff_getElem?_eq_some.mp hp)
  · rw [htracked, Std.TreeMap.length_toList]
    exact h.tracked

theorem Bounded.step (hvalid : c.Valid) (h : w.Bounded c) {event : Event}
    (hstep : w.step event = some v) : v.Bounded c := by
  cases event with
  | signal woken =>
      obtain ⟨_, rfl⟩ := step_signal hstep
      exact ⟨h.kept.congr rfl rfl rfl rfl rfl, h.entries, h.distinct, h.fits, h.tracked⟩
  | record record io =>
      obtain ⟨hphase, rfl⟩ := step_record hstep
      exact (h.kept.onRecord hvalid record io).bounded ((onRecord_phase w record io).trans hphase)
  | disconnected =>
      obtain ⟨hphase, rfl⟩ := step_disconnected hstep
      have htracked : w.tracked = w.entries.toList := by rw [Run.tracked, hphase]
      have hnone : ∀ (id : ConnectionId) e,
          (∅ : Std.TreeMap ConnectionId Entry)[id]? = some e → False := by simp
      refine ⟨⟨h.kept.config, h.kept.reserved, h.kept.dirs, h.kept.files, h.kept.status,
        fun id e he ↦ (hnone id e he).elim, Nat.zero_le _⟩, fun _ ↦ rfl, ?_, ?_, ?_⟩
      · exact htracked ▸ h.distinct
      · exact htracked ▸ h.fits
      · exact htracked ▸ h.tracked
  | finalize created =>
      obtain ⟨id, entry, rest, hphase, rfl⟩ := step_finalize hstep
      have htracked : w.tracked = (id, entry) :: rest := by rw [Run.tracked, hphase]
      have hfits := h.fits
      have hdistinct := h.distinct
      have hlimit := h.tracked
      rw [htracked] at hfits hdistinct hlimit
      obtain ⟨d, hd, hfit⟩ := hfits (id, entry) List.mem_cons_self
      have hempty := h.entries (by rw [hphase]; rintro ⟨⟩)
      have hnone : w.entries[id]? = none := by
        rw [hempty]
        exact Std.TreeMap.getElem?_emptyc
      obtain ⟨hkept, hapart⟩ := onFinalize_kept_apart h.kept hd hfit hnone created
      rw [List.map_cons, List.nodup_cons] at hdistinct
      refine ⟨hkept.congr rfl rfl rfl rfl rfl, fun _ ↦ ?_, hdistinct.2, ?_, ?_⟩
      · exact hapart.entries.trans hempty
      · intro p hp
        have hrest : p ∈ rest := hp
        have hmem : p.1 ∈ rest.map Prod.fst := List.mem_map_of_mem hrest
        have hne : id ≠ p.1 := fun heq ↦ hdistinct.1 (heq ▸ hmem)
        obtain ⟨e, he, hfit⟩ := hfits p (List.mem_cons_of_mem _ hrest)
        exact ⟨e, (hapart.dirs _ hne).trans he, hfit⟩
      · exact (Nat.le_succ _).trans hlimit
  | exit io =>
      obtain ⟨hphase, rfl⟩ := step_exit hstep
      have hempty := h.entries (by rw [hphase]; rintro ⟨⟩)
      obtain rfl := h.kept.config
      obtain ⟨hstatus, _⟩ := writeJson_small w.config.status h.kept.status io.status
        (w.statusJson io.budgetUsed (workerSummary io.worker))
      exact ⟨⟨rfl, h.kept.reserved, h.kept.dirs, h.kept.files, hstatus, h.kept.entries,
        h.kept.tracked⟩, fun _ ↦ hempty, List.nodup_nil, fun p hp ↦ (by cases hp), Nat.zero_le _⟩

theorem bounded_of_run (hvalid : c.Valid) {events : List Event}
    (hrun : Machine.run Run.step (new c) events = some w) : w.Bounded c :=
  Machine.Reachable.invariant ⟨events, hrun⟩ ((kept_new c).bounded rfl)
    fun _ _ _ h hstep ↦ h.step hvalid hstep

/-! ## Directories stay -/

/-- No directory is removed, and no `summary.json` is written again. -/
def Keeps (w v : Run) : Prop :=
  ∀ (id : ConnectionId) d, w.dirs[id]? = some d →
    ∃ e, v.dirs[id]? = some e ∧ (d.summary.isSome = true → e.summary = d.summary)

theorem keeps_of_eq (h : v.dirs = w.dirs) : w.Keeps v := fun _ d hd ↦ ⟨d, h ▸ hd, fun _ ↦ rfl⟩

theorem Keeps.trans {u : Run} (h : w.Keeps v) (hrest : v.Keeps u) : w.Keeps u := by
  intro id d hd
  obtain ⟨e, he, hsummary⟩ := h id d hd
  obtain ⟨f, hf, hlater⟩ := hrest id e he
  refine ⟨f, hf, fun hsome ↦ ?_⟩
  have hsame := hsummary hsome
  exact (hlater (hsame ▸ hsome)).trans hsame

theorem keeps_insert (hdirs : v.dirs = w.dirs.insert id d)
    (hsame : ∀ before, w.dirs[id]? = some before → before.summary.isSome = true →
      d.summary = before.summary) : w.Keeps v := by
  intro other before hbefore
  rw [hdirs, Std.TreeMap.getElem?_insert_ite]
  split_ifs with hid
  · subst hid
    exact ⟨d, rfl, hsame before hbefore⟩
  · exact ⟨before, hbefore, fun _ ↦ rfl⟩

theorem keeps_keep (w : Run) (id : ConnectionId) (r : Recording) : w.Keeps (w.keep id r) := by
  refine keeps_insert rfl fun before hbefore _ ↦ ?_
  rw [Std.TreeMap.getD_eq_getD_getElem?, hbefore]
  rfl

theorem keeps_writeSummary (w : Run) (id : ConnectionId) (outcome : String)
    (s : RecordingSummary) (receipt : Option Receipt) (created : Created) :
    w.Keeps (w.writeSummary id outcome s receipt created).1 := by
  unfold Run.writeSummary
  cases hd : w.dirs[id]? with
  | none => exact keeps_of_eq rfl
  | some d =>
      have hinsert {u : Run} {content : Option (List UInt8)}
          (hdirs : u.dirs = w.dirs.insert id { d with summary := content })
          (hcontent : content = (writeJson w.config.summary d.summary created
            (jsonSummary id outcome s receipt)).1) : w.Keeps u := by
        refine keeps_insert hdirs fun before hbefore hsome ↦ ?_
        rw [hd] at hbefore
        cases hbefore
        rw [hcontent]
        cases hsummary : d.summary with
        | none =>
            rw [hsummary] at hsome
            cases hsome
        | some content => rfl
      dsimp only
      split_ifs
      · exact hinsert rfl rfl
      · exact hinsert rfl rfl

theorem keeps_finish (w : Run) (id : ConnectionId) (r : Recording) (io : RecordIo) :
    w.Keeps (w.finish id r io) := by
  unfold Run.finish
  dsimp only
  rcases finishWithin w.config.file r with ⟨s, e | summary⟩
  · exact keeps_keep _ id s
  · have hkeep := keeps_keep { w with entries := w.entries.erase id } id s
    have hwritten := keeps_writeSummary
      { (Run.keep { w with entries := w.entries.erase id } id s).note (.finished id summary) with
        bad := w.bad || !successfulTerminal summary.ending } id
      (if successfulTerminal summary.ending then "observed" else "failed") summary none io.summary
    have hboth := hkeep.trans hwritten
    dsimp only at hboth ⊢
    split
    · rename_i hresult
      rwa [hresult] at hboth
    · rename_i hresult
      rwa [hresult] at hboth

theorem keeps_createRecorder (record : Record) (hnew : w.dirs[record.connection]? = none)
    (io : RecordIo) : w.Keeps (w.createRecorder record io) := by
  unfold Run.createRecorder
  dsimp only
  rcases create w.config.file record.connection io.create with ⟨d, result⟩
  have hinsert {u : Run} (hdirs : u.dirs = w.dirs.insert record.connection d) : w.Keeps u := by
    refine keeps_insert hdirs fun before hbefore _ ↦ ?_
    rw [hnew] at hbefore
    cases hbefore
  cases result with
  | error e => exact hinsert rfl
  | ok recorder =>
      dsimp only [Run.note]
      rcases recordWithin w.config.file recorder record with ⟨s, e | ⟨⟩⟩
      · exact (hinsert (u := { w with
            dirs := w.dirs.insert record.connection d
            log := w.log ++ [.created record.connection] }) rfl).trans
          (keeps_keep _ record.connection s)
      · exact (hinsert (u := { w with
            dirs := w.dirs.insert record.connection d
            log := w.log ++ [.created record.connection] }) rfl).trans
          (keeps_keep _ record.connection s)

theorem keeps_onRecord (w : Run) (record : Record) (io : RecordIo) :
    w.Keeps (w.onRecord record io) := by
  unfold Run.onRecord
  split_ifs
  · unfold Run.onConnected
    dsimp only
    split_ifs
    · exact keeps_of_eq rfl
    · exact keeps_of_eq rfl
    · exact keeps_of_eq rfl
    · split
      · rename_i hnew _
        exact keeps_createRecorder (w := { w with reserved := saturatingAdd w.reserved 1 }) record
          hnew io
      · exact keeps_of_eq rfl
  · split
    · rename_i r _
      unfold Run.onActive
      dsimp only
      rcases recordWithin w.config.file r record with ⟨s, e | ⟨⟩⟩
      · exact keeps_keep w record.connection s
      · have hkeep : w.Keeps (((w.keep record.connection s).setEntry record.connection
            (.active s)).note (.recorded record)) := keeps_keep w record.connection s
        dsimp only
        split_ifs
        · exact hkeep.trans (keeps_finish _ record.connection s io)
        · exact hkeep
    · exact keeps_of_eq rfl
    · exact keeps_of_eq rfl

theorem keeps_summarize (w : Run) (id : ConnectionId) (outcome : String) (s : RecordingSummary)
    (receipt : Option Receipt) (created : Created) :
    w.Keeps (w.summarize id outcome s receipt created) := by
  have hwritten := keeps_writeSummary { w with bad := true } id outcome s receipt created
  unfold Run.summarize
  split
  · rename_i hresult
    rwa [hresult] at hwritten
  · rename_i hresult
    rwa [hresult] at hwritten

theorem keeps_onFinalize (w : Run) (id : ConnectionId) (entry : Entry) (created : Created) :
    w.Keeps (w.onFinalize id entry created) := by
  cases entry with
  | failed receipt => exact keeps_summarize w id _ _ _ created
  | active r =>
      unfold Run.onFinalize
      dsimp only
      rcases finishWithin w.config.file r with ⟨s, e | summary⟩
      · exact (keeps_keep w id s).trans (keeps_summarize _ id _ _ _ created)
      · exact (keeps_keep w id s).trans
          (keeps_summarize ((w.keep id s).note (.finished id summary)) id _ _ _ created)

theorem keeps_step {event : Event} (hstep : w.step event = some v) : w.Keeps v := by
  cases event with
  | signal woken =>
      obtain ⟨_, rfl⟩ := step_signal hstep
      exact keeps_of_eq rfl
  | record record io =>
      obtain ⟨_, rfl⟩ := step_record hstep
      exact keeps_onRecord w record io
  | disconnected =>
      obtain ⟨_, rfl⟩ := step_disconnected hstep
      exact keeps_of_eq rfl
  | finalize created =>
      obtain ⟨id, entry, rest, _, rfl⟩ := step_finalize hstep
      exact keeps_onFinalize w id entry created
  | exit io =>
      obtain ⟨_, rfl⟩ := step_exit hstep
      exact keeps_of_eq rfl

/-! ## The total -/

/-- The length of all files of a run. -/
def total (w : Run) : ℕ := Std.TreeMap.total (fun _ d ↦ d.total) w.dirs + size w.status

theorem Kept.total_le (h : w.Kept c) : w.total ≤ c.bound := by
  have hdirs : Std.TreeMap.total (fun _ d ↦ d.total) w.dirs ≤
      w.dirs.size * (3 * c.file + c.summary) :=
    Std.TreeMap.total_le fun id d hd ↦ (h.files id d hd).total_le
  have hreserved := Nat.mul_le_mul_right (3 * c.file + c.summary) (h.dirs.trans h.reserved)
  exact Nat.add_le_add (hdirs.trans hreserved) h.status

/-- The bound that a validated configuration was checked for is the natural
number, and through every run the files stay below it: the directories are
counted by reservations, each file keeps its own cap under every single write,
a final header does not extend its file, and a summary is written once. -/
theorem output_bound_holds {isDir : Bool} (hvalid : c.validate isDir = .ok ())
    {events : List Event} (hrun : Machine.run Run.step (new c) events = some w) :
    checkedOutputBound c.run c.file c.summary c.status =
        .ok (c.run * (3 * c.file + c.summary) + c.status) ∧
      (∀ recordings file summary status, 1 ≤ recordings →
        ((∃ bound, checkedOutputBound recordings file summary status = .ok bound) ↔
          recordings * (3 * file + summary) + status ≤ u64Max)) ∧
      (∀ recordings file summary status bound,
        checkedOutputBound recordings file summary status = .ok bound →
          bound = recordings * (3 * file + summary) + status) ∧
      w.dirs.size ≤ w.reserved ∧ w.reserved ≤ c.run ∧ w.tracked.length ≤ c.active ∧
      (∀ (id : ConnectionId) d, w.dirs[id]? = some d →
        size d.wire ≤ c.file ∧ size d.wave ≤ c.file ∧ size d.events ≤ c.file ∧
          size d.summary ≤ c.summary) ∧
      size w.status ≤ c.status ∧ w.total ≤ c.run * (3 * c.file + c.summary) + c.status ∧
      (∀ p ∈ w.tracked, ∀ r, p.2 = .active r →
        ∃ d, w.dirs[p.1]? = some d ∧ d.wave = some r.wave.sink.content ∧
          size (d.keep (finishWithin c.file r).1).wave = size d.wave) ∧
      (∀ (f : LimitedFile) bytes, f.file.sink.position ≤ f.file.sink.content.length →
        f.file.sink.content.length ≤ f.cap →
          f.file.sink.content.length ≤ (f.write bytes).1.file.sink.content.length ∧
            (f.write bytes).1.file.sink.content.length ≤ f.cap) ∧
      (∀ event v, w.step event = some v → ∀ (id : ConnectionId) d content,
        w.dirs[id]? = some d → d.summary = some content →
          ∃ e, v.dirs[id]? = some e ∧ e.summary = some content) := by
  have hbounded := bounded_of_run (Config.valid_of_validate hvalid) hrun
  have hkept := hbounded.kept
  refine ⟨(Config.valid_of_validate hvalid).fits, ?_, ?_, hkept.dirs, hkept.reserved,
    hbounded.tracked, ?_, hkept.status, hkept.total_le, ?_, ?_, ?_⟩
  · exact fun recordings file summary status hone ↦ checkedOutputBound_ok_iff hone
  · intro recordings file summary status bound hbound
    exact (checkedOutputBound_eq_ok_iff.mp hbound).2.1
  · intro id d hd
    obtain ⟨hwire, hwave, hevents, hsummary⟩ := hkept.files id d hd
    exact ⟨hwire, hwave, hevents, hsummary⟩
  · rintro ⟨id, entry⟩ hp r rfl
    obtain ⟨d, hd, hr, hwave⟩ := hbounded.fits _ hp
    refine ⟨d, hd, hwave, ?_⟩
    obtain ⟨_, _, hlength⟩ := finishWithin_sinks hr
    rw [hwave]
    exact hlength
  · intro f bytes hposition hlength
    obtain ⟨hcap, hcapped, hgrows⟩ := f.write_capped bytes ⟨hposition, hlength⟩
    exact ⟨hgrows, hcapped.length⟩
  · intro event v hstep id d content hd hcontent
    obtain ⟨e, he, hsame⟩ := keeps_step hstep id d hd
    exact ⟨e, he, (hsame (by rw [hcontent]; rfl)).trans hcontent⟩

/-- One recording of at most 200 bytes a file. -/
def smallConfig : Config where
  output := "calls"
  listen := ⟨"127.0.0.1:0"⟩
  connections := 1
  queue := 4
  payload := 320
  turns := 8
  retained := 4096
  active := 1
  run := 1
  file := 200
  summary := 400
  status := 1200

/-- A call whose second line does not fit its `events.log`, over files that take
ten bytes at first and are interrupted then. -/
def refusedLine : List Event :=
  let slow : Created := .ok ⟨[.accept 10, .fail ⟨.interrupted, none, "signal"⟩], none, none⟩
  let io : RecordIo := ⟨.ok (), ⟨slow, slow, slow⟩, slow, none⟩
  [.record ⟨⟨1, 0⟩, 0, ⟨0, 0⟩, .connected ⟨"127.0.0.1:9"⟩⟩ io,
    .record ⟨⟨1, 0⟩, 0, ⟨0, 1⟩, .ended none .cleanEof⟩ io, .disconnected, .finalize slow,
    .exit ⟨true, .panicked, 0, slow⟩]

theorem output_bound_holds_refused_line :
    ∃ w, Machine.run Run.step (new smallConfig) refusedLine = some w ∧
      w.phase = .exited false ∧ w.dirs.size = 1 ∧ w.total = 675 ∧
      w.total ≤ 1 * (3 * 200 + 400) + 1200 := by
  obtain ⟨w, hw, hphase, hsize, htotal⟩ := Machine.exists_of_run Run.step (new smallConfig)
    refusedLine (fun w ↦ w.phase = .exited false ∧ w.dirs.size = 1 ∧ w.total = 675)
    (by decide +kernel)
  have hvalid : smallConfig.validate true = .ok () := by decide
  obtain ⟨_, _, _, _, _, _, _, _, hbound, _⟩ := output_bound_holds hvalid hw
  exact ⟨w, hw, hphase, hsize, htotal, hbound⟩

end Run

end Phonowire.Capture
