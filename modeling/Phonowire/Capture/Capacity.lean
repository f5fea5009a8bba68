import Phonowire.Capture.Evidence
import Phonowire.Capture.Stopping
import Phonowire.Receiver.Occupancy

/-!
# The limit on active recordings

The application may refuse a connection because too many recorders are active.
Over a receiver with no more connections than that it never does: an active
recorder belongs to a connection that is connected and not ended.
-/

namespace Phonowire.Capture

open Receiver AudioSocket

namespace Run

variable {w v : Run} {c : Config} {records : List Record} {record : Record} {io : RecordIo}
  {id : ConnectionId}

/-- A record that connects is the first one of its connection. -/
theorem filter_eq_nil_of_connected (hconnected : record.kind.isConnected = true)
    (hshaped : Shaped ((records ++ [record]).filter (·.connection = record.connection))) :
    records.filter (·.connection = record.connection) = [] := by
  have hsplit : (records ++ [record]).filter (·.connection = record.connection) =
      records.filter (·.connection = record.connection) ++ record :: [] := by
    simp [List.filter_append]
  exact (hshaped.connected _ _ _ hsplit).mp hconnected

/-- While the stop is not claimed, the recorders that a draining run tracks are
those of connections that are not ended. -/
theorem Disk.mem_unended (h : Disk records w) (hclaimed : w.Claimed)
    (hphase : w.phase = .draining) (hwon : w.control.won = false)
    (hshaped : Shaped (records.filter (·.connection = id))) {entry : Entry}
    (hentry : w.entries[id]? = some entry) : id ∈ unended records := by
  have hheld : w.Held id (records.filter (·.connection = id)) entry :=
    h id (some entry) ((tracks_iff hphase).mpr hentry)
  cases entry with
  | failed receipt =>
      rw [hclaimed.failed id receipt hentry] at hwon
      cases hwon
  | active r =>
      obtain ⟨_, _, hne, hopen, _⟩ := hheld
      obtain ⟨first, rest, hfirst⟩ := List.exists_cons_of_ne_nil hne
      have hmem : first ∈ records.filter (·.connection = id) := by
        rw [hfirst]
        exact List.mem_cons_self
      rw [List.mem_filter, decide_eq_true_eq] at hmem
      refine Receiver.mem_unended.mpr ⟨⟨first, hmem.1, ?_, hmem.2⟩, ?_⟩
      · exact (hshaped.connected [] first rest hfirst).mpr rfl
      · intro other hother hown
        apply hopen
        rw [List.mem_filter, decide_eq_true_eq]
        exact ⟨hother, hown⟩

/-- The recorders before an admission, with the connection that is to be
admitted, are not more than the open connections. -/
theorem Disk.size_lt (h : Disk records w) (hclaimed : w.Claimed) (hphase : w.phase = .draining)
    (hwon : w.control.won = false)
    (hshaped : ∀ id, Shaped ((records ++ [record]).filter (·.connection = id)))
    (hconnected : record.kind.isConnected = true) :
    w.entries.size < (unended (records ++ [record])).length := by
  have hfirst := filter_eq_nil_of_connected hconnected (hshaped record.connection)
  have hbefore (id : ConnectionId) : Shaped (records.filter (·.connection = id)) := by
    have hboth := hshaped id
    rw [List.filter_append] at hboth
    exact hboth.of_append
  have hown : ∀ other ∈ records, other.connection ≠ record.connection := by
    intro other hmem hsame
    have hin : other ∈ records.filter (·.connection = record.connection) := by
      rw [List.mem_filter, decide_eq_true_eq]
      exact ⟨hmem, hsame⟩
    rw [hfirst] at hin
    cases hin
  have hsubset : record.connection :: w.entries.keys ⊆ unended (records ++ [record]) := by
    intro id hid
    rw [List.mem_cons, Std.TreeMap.mem_keys, ← Std.TreeMap.isSome_getElem?_iff_mem] at hid
    rw [Receiver.mem_unended]
    rcases hid with rfl | hid
    · refine ⟨⟨record, by simp, hconnected, rfl⟩, ?_⟩
      intro other hmem hsame
      rcases List.mem_append.mp hmem with hmem | hmem
      · exact absurd hsame (hown other hmem)
      · obtain rfl := List.mem_singleton.mp hmem
        exact not_ended_of_connected hconnected
    · obtain ⟨entry, hentry⟩ := Option.isSome_iff_exists.mp hid
      obtain ⟨⟨first, hmem, hkind, hid⟩, hopen⟩ := Receiver.mem_unended.mp
        (h.mem_unended hclaimed hphase hwon (hbefore id) hentry)
      refine ⟨⟨first, List.mem_append_left _ hmem, hkind, hid⟩, ?_⟩
      intro other hmem hsame
      rcases List.mem_append.mp hmem with hmem | hmem
      · exact hopen other hmem hsame
      · obtain rfl := List.mem_singleton.mp hmem
        exact not_ended_of_connected hconnected
  have hnodup : (record.connection :: w.entries.keys).Nodup := by
    rw [List.nodup_cons, Std.TreeMap.mem_keys, ← Std.TreeMap.isSome_getElem?_iff_mem]
    refine ⟨?_, Std.TreeMap.nodup_keys⟩
    intro hsome
    obtain ⟨entry, hentry⟩ := Option.isSome_iff_exists.mp hsome
    obtain ⟨⟨first, hmem, _, hid⟩, _⟩ := Receiver.mem_unended.mp
      (h.mem_unended hclaimed hphase hwon (hbefore _) hentry)
    exact hown first hmem hid
  have hle := (hnodup.subperm hsubset).length_le
  rw [List.length_cons, Std.TreeMap.length_keys] at hle
  exact hle

/-! ## Refused admissions -/

/-- Why an admission was refused. -/
def Refused (events : List Event) (w : Run) : Prop :=
  w.counts.admission ≠ 0 →
    w.reserved = w.config.run ∨
      ∃ record io, Event.record record io ∈ events ∧ io.createDir ≠ .ok ()

theorem Refused.same {events : List Event} {event : Event} (h : Refused events w)
    (hcounts : v.counts.admission = w.counts.admission) (hreserved : w.reserved ≤ v.reserved)
    (hle : v.reserved ≤ v.config.run) (hconfig : v.config = w.config) :
    Refused (events ++ [event]) v := by
  intro hne
  rw [hcounts] at hne
  rcases h hne with hfull | ⟨record, io, hmem, hdir⟩
  · apply Or.inl
    rw [hconfig] at hle ⊢
    exact hle.antisymm (hfull ▸ hreserved)
  · exact .inr ⟨record, io, List.mem_append_left _ hmem, hdir⟩

/-- A directory for a connection that is to be admitted does not exist yet. -/
theorem Disk.dir_eq_none (h : Disk records w) (hphase : w.phase = .draining)
    (hnone : records.filter (·.connection = id) = []) : w.dirs[id]? = none := by
  have hplace := h id w.entries[id]? ((tracks_iff hphase).mpr rfl)
  rw [hnone] at hplace
  cases hentry : w.entries[id]? with
  | some entry =>
      rw [hentry] at hplace
      exact absurd rfl (Held.ne_nil hplace)
  | none =>
      rw [hentry] at hplace
      exact (Settled.absent_of_draining hplace hphase (by simp)).1

theorem Handled.refused {events : List Event} (h : Handled w record io v)
    (hbefore : Refused events w) (hafter : v.Kept c) (hconfig : v.config = w.config)
    (hle : w.reserved ≤ u64Max)
    (hroom : record.kind.isConnected = true → w.control.won = false →
      w.entries.size < w.config.active ∧ w.dirs[record.connection]? = none) :
    Refused (events ++ [.record record io]) v := by
  have hrun : v.reserved ≤ v.config.run := by
    rw [hafter.config]
    exact hafter.reserved
  cases h with
  | stopped hconnected hwon hv =>
      subst hv
      exact hbefore.same rfl le_rfl hrun rfl
  | full hconnected hwon hfull hv =>
      subst hv
      intro _
      rcases hfull with hlimit | hfull
      · exact .inl hlimit
      · exact absurd (hroom hconnected hwon).1 (Nat.not_lt.mpr hfull)
  | uncreated hconnected hwon hlimit hv hfailed =>
      intro _
      exact .inr ⟨record, io, by simp, hfailed (hroom hconnected hwon).2⟩
  | created hconnected hwon hlimit hactive hnew hopened hchanged hreserved hcounts hstops =>
      refine hbefore.same (by rw [hcounts]) ?_ hrun hconfig
      rw [hreserved, saturatingAdd]
      omega
  | taken hconnected hended hentry hrecord hchanged hreserved hcounts hstops =>
      exact hbefore.same (by rw [hcounts]) hreserved.ge hrun hconfig
  | broken hconnected hentry hrecord hchanged hreserved hcounts hstops =>
      exact hbefore.same (by rw [hcounts]) hreserved.ge hrun hconfig
  | unfinished hconnected hended hentry hrecord hfinish hchanged hreserved hcounts hstops =>
      exact hbefore.same (by rw [hcounts]) hreserved.ge hrun hconfig
  | finished hconnected hended hentry hrecord hfinish hwrite hchanged hreserved hcounts =>
      refine hbefore.same ?_ hreserved.ge hrun hconfig
      rw [hcounts]
      split <;> rfl
  | failed hconnected hentry hv =>
      subst hv
      exact hbefore.same rfl le_rfl hrun rfl
  | unowned hconnected hentry hv =>
      subst hv
      exact hbefore.same rfl le_rfl hrun rfl

section Joint

variable {settings : Settings} {outside : List ℕ} {world : World} {isDir : Bool}
  {events : List Event}

/-- Over a receiver without scoped closes there is a recorder for the next
connection. -/
theorem room_of_run (hfits : outside.sum ≤ settings.capacity.val)
    (hreachable : Machine.Reachable World.step (World.new settings outside) world)
    (hasked : world.asked = []) (hvalid : c.Valid)
    (hlimit : settings.limits.maxConnections.val ≤ c.active)
    (hrun : Machine.run Run.step (new c) events = some w)
    (hgiven : given events ++ [record] <+: world.engine.accepted)
    (hconnected : record.kind.isConnected = true) (hphase : w.phase = .draining)
    (hwon : w.control.won = false) :
    w.entries.size < c.active ∧ w.dirs[record.connection]? = none := by
  have hshaped (id : ConnectionId) :
      Shaped ((given events ++ [record]).filter (·.connection = id)) := by
    obtain ⟨later, hlater⟩ := hgiven
    have hall := World.shaped_of_reachable hfits hreachable id
    rw [← hlater, List.filter_append] at hall
    exact hall.of_append
  have hdisk : Disk (given events) w := by
    refine disk_of_run hvalid (fun id ↦ ?_) hrun
    have hboth := hshaped id
    rw [List.filter_append] at hboth
    exact hboth.of_append
  have hlt := hdisk.size_lt (claimed_of_run hvalid hrun) hphase hwon hshaped hconnected
  have hfirst := filter_eq_nil_of_connected hconnected (hshaped record.connection)
  have hle := (World.occupied_of_reachable hfits hreachable).bounded _ hgiven
  rw [World.limits, World.settings_of_reachable hfits hreachable, hasked, List.length_nil,
    Nat.add_zero] at hle
  exact ⟨(hlt.trans_le hle).trans_le hlimit, hdisk.dir_eq_none hphase hfirst⟩

theorem refused_of_run (hfits : outside.sum ≤ settings.capacity.val)
    (hreachable : Machine.Reachable World.step (World.new settings outside) world)
    (hasked : world.asked = []) (hvalid : c.Valid)
    (hlimit : settings.limits.maxConnections.val ≤ c.active)
    (hrun : Machine.run Run.step (new c) events = some w)
    (hgiven : given events <+: world.engine.accepted) : Refused events w := by
  induction events using List.reverseRecOn generalizing w with
  | nil =>
      cases hrun
      exact fun hne ↦ absurd rfl hne
  | append_singleton events event ih =>
      obtain ⟨u, hu, hstep⟩ := Machine.run_snoc.mp hrun
      have hsplit : given (events ++ [event]) = given events ++ event.records := by
        simp [given]
      rw [hsplit] at hgiven
      have hbefore := ih hu ((List.prefix_append _ _).trans hgiven)
      have hkept := (bounded_of_run hvalid hu).kept
      have hafter := (bounded_of_run hvalid hrun).kept
      have hconfig : w.config = u.config := hafter.config.trans hkept.config.symm
      have hle : w.reserved ≤ w.config.run := by
        rw [hafter.config]
        exact hafter.reserved
      cases event with
      | signal woken =>
          obtain ⟨_, rfl⟩ := step_signal hstep
          exact hbefore.same rfl le_rfl hle hconfig
      | record record io =>
          obtain ⟨hphase, rfl⟩ := step_record hstep
          apply (handled_onRecord u record io).refused hbefore hafter hconfig
            (hkept.reserved.trans hvalid.run_le)
          intro hconnected hwon
          rw [hkept.config]
          exact room_of_run hfits hreachable hasked hvalid hlimit hu hgiven hconnected hphase hwon
      | disconnected =>
          obtain ⟨_, rfl⟩ := step_disconnected hstep
          exact hbefore.same rfl le_rfl hle hconfig
      | finalize created =>
          obtain ⟨id, entry, rest, _, rfl⟩ := step_finalize hstep
          have hbeside := beside_onFinalize u id entry created
          refine hbefore.same ?_ hbeside.reserved.ge hle hconfig
          dsimp only
          rw [hbeside.counts]
      | exit io =>
          obtain ⟨_, rfl⟩ := step_exit hstep
          exact hbefore.same rfl le_rfl hle hconfig

/-- The limit on active recordings is never met. Over the records of a receiver
whose limit on connections is not above it, and whose connections are not closed
from outside, an application that has not stopped always has a recorder for the
next connection: it refuses one only when all recordings are reserved, or when
the directory cannot be made. -/
theorem active_limit_unmet (hfits : outside.sum ≤ settings.capacity.val)
    (hreachable : Machine.Reachable World.step (World.new settings outside) world)
    (hasked : world.asked = []) (hvalid : c.validate isDir = .ok ())
    (hlimit : settings.limits.maxConnections.val ≤ c.active)
    (hrun : Machine.run Run.step (new c) events = some w)
    (hgiven : given events <+: world.engine.accepted) :
    (∀ record, given events ++ [record] <+: world.engine.accepted →
      record.kind.isConnected = true → w.phase = .draining → w.control.won = false →
        w.entries.size < c.active) ∧
    (w.counts.admission ≠ 0 → w.reserved = c.run ∨
      ∃ record io, Event.record record io ∈ events ∧ io.createDir ≠ .ok ()) := by
  have hok := Config.valid_of_validate hvalid
  constructor
  · intro record hnext hconnected hphase hwon
    exact (room_of_run hfits hreachable hasked hok hlimit hrun hnext hconnected hphase hwon).1
  · have hrefused := refused_of_run hfits hreachable hasked hok hlimit hrun hgiven
    unfold Refused at hrefused
    rwa [(bounded_of_run hok hrun).kept.config] at hrefused

end Joint

/-- The application in front of the second record that the channel accepted. -/
def firstOf (w : World) : List Event :=
  let quick : Created := .ok ⟨[], none, none⟩
  (w.engine.accepted.take 1).map (.record · ⟨.ok (), ⟨quick, quick, quick⟩, quick, none⟩)

/-- Two callers, and two recorders for them. -/
theorem active_limit_unmet_two_callers :
    ∃ w v, Machine.run World.step (World.new eightSlots [])
        (World.Step.works 13 .quiet ++ World.Step.works 2 .caller ++
          World.Step.works 40 .quiet) = some w ∧
      Machine.run Run.step (new { smallConfig with active := 2, connections := 2 })
        (firstOf w) = some v ∧ v.entries.size = 1 ∧ v.entries.size < 2 := by
  obtain ⟨w, hw, hasked, hfirst, hsecond, hrun⟩ :=
    Machine.exists_of_run World.step (World.new eightSlots [])
      (World.Step.works 13 .quiet ++ World.Step.works 2 .caller ++ World.Step.works 40 .quiet)
      (fun w ↦ w.asked = [] ∧ given (firstOf w) = w.engine.accepted.take 1 ∧
        (w.engine.accepted[1]?).any (·.kind.isConnected) = true ∧
        (Machine.run Run.step (new { smallConfig with active := 2, connections := 2 })
          (firstOf w)).any (fun v ↦ decide (v.phase = .draining ∧ v.control.won = false ∧
            v.entries.size = 1)) = true)
      (by decide +kernel)
  obtain ⟨v, hv, hphase, hwon, hone⟩ := Machine.exists_of_run Run.step _ _ _ hrun
  rw [Option.any_eq_true] at hsecond
  obtain ⟨record, hrecord, hconnected⟩ := hsecond
  have hnext : given (firstOf w) ++ [record] <+: w.engine.accepted := by
    have htake : w.engine.accepted.take 2 = w.engine.accepted.take 1 ++ [record] := by
      rw [List.take_add_one, hrecord, Option.toList_some]
    rw [hfirst, ← htake]
    exact List.take_prefix _ _
  have hvalid : Config.validate { smallConfig with active := 2, connections := 2 } true =
      .ok () := by decide
  obtain ⟨hroom, _⟩ := active_limit_unmet (by decide) ⟨_, hw⟩ hasked hvalid (by decide) hv
    ((List.prefix_append _ _).trans hnext)
  exact ⟨w, v, hw, hv, hone, hroom record hnext hconnected hphase hwon⟩

end Run

end Phonowire.Capture
