import Phonowire.Receiver.Process

/-!
# What a receiver holds in memory

A live connection owns a read buffer and the scratch of its decoder; records
wait in the channel, and their bytes are charged to the budget. In every state of
every run all of it stays within the bounds of the settings.
-/

namespace Phonowire.Receiver

open AudioSocket

/-! ## One task -/

/-- The bytes of the read buffer that a suspended task has still to decode. -/
def Await.unread : Await → List UInt8
  | .send _ (.decode chunk) => chunk
  | .send _ (.observed input) => input
  | .copy _ (.wire _ _ chunk) => chunk
  | .copy _ (.audio _ _ _ _ input) => input
  | .copy _ (.peerError _ _ _ input) => input
  | .feed input => input
  | .typed _ _ input => input
  | _ => []

namespace Task

variable {t u : Task} {capacity : ℕ}

theorem unread_decodeRest (t : Task) (input : List UInt8) :
    (t.decodeRest input).await.unread = input := by
  unfold decodeRest
  dsimp only
  split_ifs with hempty
  · exact hempty.symm
  · rfl

theorem unread_observe (t : Task) (offset : ℕ) (now : Instant) (input : List UInt8)
    (event : IncomingEvent) : (t.observe offset now input event).await.unread = input := by
  cases event with
  | ended uuid reason => cases reason <;> rfl
  | _ => rfl

theorem unread_onCopy (t : Task) (now : Instant) (result : Except BudgetError OwnedBytes)
    (bytes : List UInt8) (after : AfterCopy) :
    (t.onCopy now result after).await.unread.length ≤ (Await.copy bytes after).unread.length := by
  cases after with
  | wire start observedAt chunk =>
      cases result with
      | ok owned => exact le_rfl
      | error e => exact Nat.zero_le _
  | audio offset observedAt uuid rate input => cases result <;> exact le_rfl
  | peerError offset observedAt uuid input => cases result <;> exact le_rfl

theorem unread_afterSent (t : Task) (record : Record) (after : AfterSend) :
    (t.afterSent after).await.unread.length ≤ (Await.send record after).unread.length := by
  cases after with
  | read => exact le_rfl
  | stop => exact le_rfl
  | decode chunk => exact (congrArg List.length (unread_decodeRest t chunk)).le
  | observed input =>
      unfold afterSent
      split_ifs with hidentity
      · exact Nat.zero_le _
      · exact (congrArg List.length (unread_decodeRest t input)).le

/-- Only a read fills the buffer, and it fits. -/
theorem Move.unread_le {effect : Effect} (h : t.Move capacity effect u)
    (ht : t.await.unread.length ≤ readBytes) : u.await.unread.length ≤ readBytes := by
  cases h with
  | readChunk now hat hne hlength hfits => exact hlength
  | feedFrame hat hopen hframe hcap hnext hconsumed hrest =>
      rw [hat] at ht
      exact hrest.trans ht
  | observed now hat htyped hreceive =>
      rw [hat] at ht
      rwa [unread_observe]
  | copied now hat hfits =>
      rw [hat] at ht
      exact (unread_onCopy t now _ _ _).trans ht
  | refused now hat hover =>
      rw [hat] at ht
      exact (unread_onCopy t now _ _ _).trans ht
  | accepted hat hfits =>
      rw [hat] at ht
      exact (unread_afterSent _ _ _).trans ht
  | _ => exact Nat.zero_le _

end Task

/-- A connection keeps within the buffers that were allocated for it. -/
structure Connection.Buffered (payloadCapacity : ℕ) (c : Connection) : Prop where
  unread : c.task.await.unread.length ≤ readBytes
  scratch : c.task.decoder.capacity = payloadCapacity

theorem Connection.buffered_of_reachable {capacity payloadCapacity : ℕ} {id : ConnectionId}
    {peer : SocketAddr} {profile : IncomingProfile} {c : Connection}
    (h : Machine.Reachable (step capacity) (new id peer payloadCapacity profile) c) :
    c.Buffered payloadCapacity := by
  refine (reachable_induction (I := Buffered payloadCapacity) h ?_ ?_).2
  · exact ⟨Nat.zero_le _, List.length_replicate⟩
  · rintro c d effect _ ⟨hunread, hscratch⟩ hmove _ _
    exact ⟨hmove.unread_le hunread, hmove.capacity_eq.trans hscratch⟩

/-! ## The receiver -/

namespace World

variable {w : World} {settings : Settings} {outside : List ℕ}

/-- The bytes in the buffers of all live connections: what is left to decode,
and the scratch of each decoder. -/
def buffered (w : World) : ℕ :=
  Std.TreeMap.total (fun _ entry ↦
    entry.await.unread.length + entry.connection.task.decoder.capacity) w.engine.board.live

/-- What a receiver over `limits` and a budget of `capacity` bytes holds. -/
structure Stores (w : World) (limits : Limits) (capacity : ℕ) : Prop where
  live : w.engine.board.live.size ≤ limits.maxConnections.val
  buffers : ∀ (token : Token) entry, w.engine.board.live[token]? = some entry →
    entry.connection.Buffered limits.payload
  fixed : w.buffered ≤ limits.fixedBufferCapacity
  waiting : w.engine.channel.buffer.length ≤ limits.queueSlots.val
  retained : w.engine.channel.charged + w.engine.board.held + w.engine.outside.sum ≤ capacity

theorem Steady.stores (h : w.Steady) : w.Stores w.limits w.engine.capacity := by
  have hcoherent := h.sound.coherent
  have hlive : w.engine.board.live.size ≤ w.limits.maxConnections.val := by
    have hsize := hcoherent.consistent.size
    rwa [hcoherent.size_eq, hcoherent.capacity] at hsize
  have hbuffers (token : Token) (entry : Entry)
      (hentry : w.engine.board.live[token]? = some entry) :
      entry.connection.Buffered w.limits.payload := by
    obtain ⟨peer, hreachable⟩ := (hcoherent.holds token entry hentry).runs
    exact Connection.buffered_of_reachable hreachable
  have hfixed : w.buffered ≤ w.engine.board.live.size * (readBytes + w.limits.payload) := by
    refine Std.TreeMap.total_le fun token entry hentry ↦ ?_
    obtain ⟨hunread, hscratch⟩ := hbuffers token entry hentry
    exact Nat.add_le_add hunread hscratch.le
  refine ⟨hlive, hbuffers, hfixed.trans (Nat.mul_le_mul_right _ hlive), ?_, ?_⟩
  · have hslots : w.engine.channel.slots = w.limits.queueSlots := h.sound.handed.slots
    rw [← hslots]
    exact w.engine.channel.bounded
  · have hused := h.sound.exact.used
    have hle := h.sound.exact.le_capacity
    omega

theorem stores_of_reachable (hfits : outside.sum ≤ settings.capacity.val)
    (h : Machine.Reachable World.step (new settings outside) w) :
    w.Stores settings.limits settings.capacity.val := by
  have hstores := (steady_of_reachable hfits h).stores
  rwa [limits, Engine.capacity, settings_of_reachable hfits h] at hstores

end World

/-! ## Among the receivers of a process -/

namespace Process

variable {p q : Process} {w : World} {i : ℕ}

/-- A receiver goes its own way among the others. -/
theorem reachable_of_run {steps : List Step} (h : Machine.run step p steps = some q)
    (hw : p.receivers[i]? = some w) :
    ∃ v, q.receivers[i]? = some v ∧ Machine.Reachable World.step w v := by
  induction steps using List.reverseRecOn generalizing q with
  | nil =>
      cases h
      exact ⟨w, hw, .refl w⟩
  | append_singleton steps a ih =>
      obtain ⟨r, hr, hstep⟩ := Machine.run_snoc.mp h
      obtain ⟨v, hv, hreachable⟩ := ih hr
      have hlt : i < r.receivers.length := (List.getElem?_eq_some_iff.mp hv).1
      cases stepped_of_step hstep with
      | same hle => exact ⟨v, hv, hreachable⟩
      | bound hinstance hfits => exact ⟨v, (List.getElem?_append_left hlt).trans hv, hreachable⟩
      | @within index action u u' ha hu hworld =>
          by_cases hi : index = i
          · subst hi
            obtain rfl := Option.some.inj (hu.symm.trans hv)
            exact ⟨u', List.getElem?_set_self hlt, hreachable.tail hworld⟩
          · exact ⟨v, (List.getElem?_set_ne hi).trans hv, hreachable⟩

end Process

end Phonowire.Receiver
