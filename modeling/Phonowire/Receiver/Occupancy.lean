import Phonowire.Receiver.Accounting
import Phonowire.Receiver.Process

/-!
# How many connections are open

The limit on connections is one on live tasks. Seen from the consumer it bounds
the connections that are connected and not ended: a task makes room for another
one only behind its terminal record, and the channel keeps this order. Only a
close by request leaves a connection without an end.
-/

namespace Phonowire.Receiver

/-! ## Open connections of a record list -/

/-- The connections that `records` connect and do not end. -/
def unended (records : List Record) : List ConnectionId :=
  ((records.filter (·.kind.isConnected)).map (·.connection)).filter fun id ↦
    !records.any fun record ↦ decide (record.connection = id) && record.kind.isEnded

theorem mem_unended {records : List Record} {id : ConnectionId} :
    id ∈ unended records ↔
      (∃ record ∈ records, record.kind.isConnected = true ∧ record.connection = id) ∧
        ∀ record ∈ records, record.connection = id → record.kind.isEnded = false := by
  simp [unended, and_assoc]

theorem nodup_unended {records : List Record}
    (h : ∀ id, (records.filter (·.connection = id)).countP (·.kind.isConnected) ≤ 1) :
    (unended records).Nodup := by
  apply List.Nodup.filter
  rw [List.nodup_iff_count_le_one]
  intro id
  have hcount : ((records.filter (·.kind.isConnected)).map (·.connection)).count id =
      (records.filter (·.connection = id)).countP (·.kind.isConnected) := by
    rw [List.count, List.countP_map, List.countP_filter, List.countP_filter]
    apply List.countP_congr
    intro record _
    simp [and_comm]
  rw [hcount]
  exact h id

namespace Connection

variable {c : Connection}

/-- A connection is announced once. -/
theorem Opened.countP_le (h : c.Opened) : c.sent.countP (·.kind.isConnected) ≤ 1 := by
  cases hsent : c.sent with
  | nil => simp
  | cons first rest =>
      obtain ⟨_, _, hlater⟩ := h.first first rest hsent
      have hrest : rest.countP (·.kind.isConnected) = 0 := by
        rw [List.countP_eq_zero]
        intro later hmem hconnected
        rcases hlater later hmem with hkind | hkind
        · cases hk : later.kind <;> simp [hk, RecordKind.isConnected, RecordKind.isProtocol]
            at hconnected hkind
        · cases hk : later.kind <;> simp [hk, RecordKind.isConnected, RecordKind.isWire]
            at hconnected hkind
      rw [List.countP_cons, hrest]
      split <;> omega

end Connection

/-! ## Destroyed tasks -/

/-- The places from which no task is polled before the worker returns. -/
def Pc.leaving : Pc → Bool
  | .retire (.cleanup _ _) _ => true
  | .finish (.cleanup _ _) _ _ => true
  | .finish _ _ progress => progress.counterOverflow
  | .publish (.cleanup _ _) _ _ => true
  | .publish _ _ progress => progress.counterOverflow
  | .driven _ => true
  | .cleanup _ _ => true
  | .stopAll _ _ => true
  | .publishAll _ _ _ => true
  | .outcome _ _ => true
  | .returned _ => true
  | .panicked => true
  | _ => false

theorem Loop.leaving {pc : Pc} (h : World.Loop pc) : pc.leaving = false := by
  cases pc <;> first | exact h.elim | rfl

namespace World

variable {w w' : World} {token : Token} {c : Connection}

/-- While the worker goes on and its consumer is there, every task that was
destroyed has queued its end, or a close was accepted for it. -/
def Tidy (w : World) : Prop :=
  w.pc.leaving = false → w.engine.channel.connected = true →
    ∀ (token : Token) c, w.engine.board.departed[token]? = some c →
      c.task.await = .returned none ∨ token ∈ w.asked

theorem tidy_new (settings : Settings) (outside : List ℕ) : (new settings outside).Tidy := by
  intro _ _ token c hc
  simp [new, Engine.new, Board.new] at hc

/-- A step that destroys no task and comes from a place that goes on. -/
theorem Tidy.frame (h : w.Tidy) (hleaving : w'.pc.leaving = false → w.pc.leaving = false)
    (hconnected : w'.engine.channel.connected = true → w.engine.channel.connected = true)
    (hdeparted : w'.engine.board.departed = w.engine.board.departed)
    (hasked : ∀ token ∈ w.asked, token ∈ w'.asked) : w'.Tidy := by
  intro hgoes hstill token c hc
  rw [hdeparted] at hc
  rcases h (hleaving hgoes) (hconnected hstill) token c hc with hreturned | hmem
  · exact .inl hreturned
  · exact .inr (hasked token hmem)

/-- A task that returned while its consumer was there has queued its end, or it
gave up on a counter. -/
theorem returned_of_ended (hsteady : w.Steady) (huncut : w.engine.Uncut)
    (hconnected : w.engine.channel.connected = true) {entry : Entry}
    (hlive : w.engine.board.live[token]? = some entry)
    (hphase : w.engine.board.phase = .ended token)
    (hover : entry.connection.task.progress.counterOverflow = false) :
    entry.connection.task.await = .returned none := by
  have hcoherent := hsteady.sound.coherent
  have hholds := hcoherent.holds token entry hlive
  have hc := Board.connection_of_live hlive
  obtain ⟨failure, hat⟩ := hholds.returned.mpr hphase
  have hcompleted : entry.connection.Completed := by
    refine ⟨failure, hat, ?_⟩
    intro record hfailure
    apply huncut hconnected token entry.connection record hc
    rw [← hfailure]
    exact hat
  exact hcompleted.returned_none (hcoherent.connection_runs hc).reachable hover

theorem Tidy.retired {caller : Caller} {entry : Entry} {ready : Ready} (h : w.Tidy)
    (hsteady : w.Steady) (hregistry : w.Registry) (huncut : w.engine.Uncut)
    (hpc : w.pc = .retire caller token) (hlive : w.engine.board.live[token]? = some entry) :
    Tidy { w with
      engine := { w.engine.released entry.await.charge with
        board := w.engine.board.without token entry ready }
      pc := .finish caller token entry.connection.task.progress } := by
  intro hgoes hstill u c hc
  have hplace := hsteady.place
  have hconnected : w.engine.channel.connected = true := hstill
  rw [hpc] at hplace
  dsimp only [Board.without] at hc
  rw [Std.TreeMap.getElem?_insert_ite] at hc
  split_ifs at hc with hu
  · subst hu
    obtain rfl := Option.some.inj hc
    cases caller with
    | turn left => exact .inl (returned_of_ended hsteady huncut hconnected hlive hplace.1 hgoes)
    | requested site tokens =>
        apply Or.inr
        apply hregistry.chosen
        rw [hpc]
        exact List.mem_cons_self
    | cleanup drive failure => cases hgoes
  · apply h ?_ hconnected u c hc
    rw [hpc]
    cases caller with
    | cleanup drive failure => cases hgoes
    | _ => rfl

theorem Tidy.published {caller : Caller} {cell : Option ℕ} {p : Progress} {summary : RunSummary}
    {result : Except ReceiverFailure Unit} (h : w.Tidy) (hpc : w.pc = .publish caller cell p)
    (hsettles : Settles w.summary caller p summary result) :
    ({ w.setCell cell caller.closeResult with summary }.resume caller result).Tidy := by
  have hset : (w.setCell cell caller.closeResult).engine = w.engine ∧
      (w.setCell cell caller.closeResult).asked = w.asked := by
    cases cell <;> exact ⟨rfl, rfl⟩
  obtain ⟨pc, hresume, _, _⟩ :=
    resume_eq { w.setCell cell caller.closeResult with summary } caller result
  have hfrom : pc.leaving = false → w.pc.leaving = false := by
    intro hgoes
    have hplace := congrArg World.pc hresume
    rw [hpc]
    cases hsettles with
    | exact hover =>
        cases caller with
        | cleanup drive failure =>
            rw [show pc = .cleanup drive failure from hplace.symm] at hgoes
            cases hgoes
        | _ => exact hover
    | incomplete next hcomplete hhanded hlive =>
        cases caller <;>
          · rw [← show _ = pc from hplace] at hgoes
            cases hgoes
    | exhausted hcaller =>
        cases caller <;>
          · rw [← show _ = pc from hplace] at hgoes
            cases hgoes
  rw [hresume]
  apply h.frame hfrom
  · intro hstill
    rw [← hset.1]
    exact hstill
  · exact congrArg (·.board.departed) hset.1
  · intro token hmem
    rw [← hset.2] at hmem
    exact hmem

theorem Tidy.works (h : w.Tidy) (hsteady : w.Steady) (hregistry : w.Registry)
    (huncut : w.engine.Uncut) (hworks : w.Works w') : w'.Tidy := by
  have hconnected : w'.engine.channel.connected = true →
      w.engine.channel.connected = true := by
    have hmove : w.engine.Move w'.engine := by
      rcases engine_of_works hworks with heq | ⟨action, haction⟩
      · rw [heq]
        exact .shared .unchanged
      · exact (Engine.move_of_step hsteady.sound.coherent hsteady.sound.exact haction).1
    intro hstill
    rw [← Bool.not_eq_false]
    intro hclosed
    rw [hmove.closed hclosed] at hstill
    cases hstill
  cases hworks with
  | refused hpc => exact fun hgoes ↦ nomatch hgoes
  | started hpc => exact h.frame (fun _ ↦ by rw [hpc]; rfl) hconnected rfl fun _ ↦ id
  | looped hpc hpc' haside hsummary =>
      exact h.frame (fun _ ↦ Loop.leaving hpc) hconnected haside.1.keeps.departed fun _ ↦ id
  | listed hpc haside =>
      exact h.frame (fun _ ↦ Loop.leaving hpc) hconnected haside.1.keeps.departed fun _ ↦ id
  | scanned hpc => exact h.frame (fun _ ↦ by rw [hpc]; rfl) hconnected rfl fun _ ↦ id
  | found hpc => exact h.frame (fun _ ↦ by rw [hpc]; rfl) hconnected rfl fun _ ↦ id
  | chosen hpc => exact h.frame (fun _ ↦ by rw [hpc]; rfl) hconnected rfl fun _ ↦ id
  | cleared hpc hpc' => exact h.frame (fun _ ↦ by rw [hpc]; rfl) hconnected rfl fun _ ↦ id
  | took hpc hstep hkeeps hphase =>
      exact h.frame (fun _ ↦ by rw [hpc]; rfl) hconnected hkeeps.departed fun _ ↦ id
  | polled hpc hstep hpolled =>
      exact h.frame (fun _ ↦ by rw [hpc]; rfl) hconnected hpolled.keeps.1.departed fun _ ↦ id
  | parked hpc hphase => exact h.frame (fun _ ↦ by rw [hpc]; rfl) hconnected rfl fun _ ↦ id
  | ended hpc hphase => exact h.frame (fun _ ↦ by rw [hpc]; rfl) hconnected rfl fun _ ↦ id
  | overflowed hpc hphase hlive hoverflow => exact fun hgoes ↦ nomatch hgoes
  | stopped hpc => exact fun hgoes ↦ nomatch hgoes
  | failed hpc haside hnext => exact fun hgoes ↦ nomatch hgoes
  | admitted hpc hstep hentry =>
      exact h.frame (fun _ ↦ by rw [hpc]; rfl) hconnected rfl fun _ ↦ id
  | uncounted hpc hstep hentry => exact fun hgoes ↦ nomatch hgoes
  | retired hpc hlive hstep => exact h.retired hsteady hregistry huncut hpc hlive
  | @finished caller token progress hpc =>
      apply h.frame ?_ hconnected rfl fun _ ↦ id
      rw [hpc]
      cases caller <;> exact id
  | @published caller cell progress summary result hpc hsettles =>
      exact h.published hpc hsettles
  | drove hpc => exact fun hgoes ↦ nomatch hgoes
  | cleaning hpc hlive => exact fun hgoes ↦ nomatch hgoes
  | cleaned hpc hempty => exact fun hgoes ↦ nomatch hgoes
  | stoppedAll hpc => exact fun hgoes ↦ nomatch hgoes
  | resolved hpc => exact fun hgoes ↦ nomatch hgoes
  | resolvedAll hpc => exact fun hgoes ↦ nomatch hgoes
  | returned hpc hstep => exact fun hgoes ↦ nomatch hgoes

/-- What a close leaves alone. -/
structure Closes (w w' : World) : Prop where
  pc : w'.pc = w.pc
  board : w'.engine.board = w.engine.board
  channel : w'.engine.channel = w.engine.channel
  accepted : w'.engine.accepted = w.engine.accepted
  asked : w.asked <:+ w'.asked

theorem closes_close (w : World) (id : ConnectionId) : Closes w (w.close id).1 := by
  by_cases hopen : id.instanceId = w.engine.board.settings.instanceId ∧ w.stopping = false ∧
      w.entries[id.sequence]?.isSome = true
  · obtain ⟨hinstance, hstopping, hentry⟩ := hopen
    obtain ⟨entry, hentry⟩ := Option.isSome_iff_exists.mp hentry
    rw [close_of_entry hinstance hstopping hentry]
    refine ⟨rfl, rfl, rfl, rfl, ?_⟩
    dsimp only
    split
    · exact List.suffix_cons _ _
    · exact List.suffix_refl _
  · obtain ⟨error, hclose⟩ := close_of_not hopen
    rw [hclose]
    exact ⟨rfl, rfl, rfl, rfl, List.suffix_refl _⟩

theorem Tidy.step {a : Step} (h : w.Tidy) (hcontrolled : w.Controlled)
    (huncut : w.engine.Uncut) (hstep : w.step a = some w') : w'.Tidy := by
  have hsteady := hcontrolled.steady
  cases a with
  | work input => exact h.works hsteady hcontrolled.registry huncut (works_of_work hsteady hstep)
  | close id =>
      cases hstep
      have hframe := closes_close w id
      apply h.frame
      · rw [hframe.pc]
        exact fun hgoes ↦ hgoes
      · rw [hframe.channel]
        exact fun hstill ↦ hstill
      · rw [hframe.board]
      · exact fun token hmem ↦ hframe.asked.subset hmem
  | outside o =>
      simp only [World.step, Option.map_eq_some_iff] at hstep
      obtain ⟨engine, hengine, rfl⟩ := hstep
      have hmove := (Engine.move_of_step hsteady.sound.coherent hsteady.sound.exact hengine).1
      have hdeparted := (Engine.outside_undisturbed hengine).keeps.departed
      refine Tidy.frame h (fun hgoes ↦ hgoes) ?_ hdeparted fun _ hmem ↦ hmem
      intro hstill
      rw [← Bool.not_eq_false]
      intro hclosed
      rw [hmove.closed hclosed] at hstill
      cases hstill

/-! ## Counting -/

/-- What is connected and not ended is live, or a close was accepted for it. -/
theorem Tidy.unended_subset (h : w.Tidy) (hsteady : w.Steady) (hgoes : w.pc.leaving = false)
    (hconnected : w.engine.channel.connected = true) :
    unended w.engine.accepted ⊆
      (w.engine.board.live.keys ++ w.asked).map w.engine.board.id := by
  intro id hid
  obtain ⟨⟨record, hmem, _, rfl⟩, hopen⟩ := mem_unended.mp hid
  obtain ⟨token, htoken, hhistory⟩ := hsteady.sound.handed.known record hmem
  rw [Board.history_eq, Option.isSome_map] at hhistory
  obtain ⟨c, hc⟩ := Option.isSome_iff_exists.mp hhistory
  rw [List.mem_map]
  refine ⟨token, ?_, htoken.symm⟩
  rw [List.mem_append, Std.TreeMap.mem_keys, ← Std.TreeMap.isSome_getElem?_iff_mem]
  cases hlive : w.engine.board.live[token]? with
  | some entry => exact .inl rfl
  | none =>
      apply Or.inr
      have hdeparted : w.engine.board.departed[token]? = some c := by
        simpa [Board.connection, hlive] using hc
      rcases h hgoes hconnected token c hdeparted with hreturned | hasked
      · have hruns := hsteady.sound.coherent.connection_runs hc
        obtain ⟨before, last, hsent, hended, _⟩ := hruns.settled.2.last hreturned
        have hlast : last ∈ w.accepted token := by
          rw [accepted_eq hsteady hc, hsent]
          exact List.mem_append_right _ (List.mem_singleton_self last)
        obtain ⟨hin, hown⟩ := List.mem_filter.mp hlast
        rw [decide_eq_true_eq] at hown
        rw [hopen last hin (hown.trans htoken.symm)] at hended
        cases hended
      · exact hasked

/-- The channel accepts one record at a time, from a task that is polled. -/
theorem accepted_of_step {a : Step} (hsteady : w.Steady) (hstep : w.step a = some w') :
    w'.engine.accepted = w.engine.accepted ∨
      ∃ record, w'.engine.accepted = w.engine.accepted ++ [record] ∧
        w'.pc.leaving = false ∧ w'.engine.channel.connected = true := by
  cases a with
  | close id =>
      cases hstep
      exact .inl (closes_close w id).accepted
  | outside o =>
      simp only [World.step, Option.map_eq_some_iff] at hstep
      obtain ⟨engine, hengine, rfl⟩ := hstep
      exact .inl (Engine.outside_undisturbed hengine).accepted
  | work input =>
      cases works_of_work hsteady hstep with
      | looped hpc hpc' haside hsummary => exact .inl haside.1.accepted
      | listed hpc haside => exact .inl haside.1.accepted
      | failed hpc haside hnext => exact .inl haside.1.accepted
      | polled hpc hstep hpolled =>
          cases hpolled with
          | sent hphase hlive hat hstep hrequest hsent hcharge hconnected hslots hbuffer hstill =>
              refine .inr ⟨_, rfl, ?_, hstill⟩
              dsimp only
              rw [hpc]
              rfl
          | _ => exact .inl rfl
      | took hpc htook hkeeps hphase =>
          simp only [Engine.step] at htook
          split_ifs at htook
          obtain ⟨board, _, rfl⟩ := Option.map_eq_some_iff.mp htook
          exact .inl rfl
      | @published caller cell progress summary result hpc hsettles =>
          obtain ⟨pc, hresume, _, _⟩ :=
            resume_eq { w.setCell cell caller.closeResult with summary } caller result
          rw [hresume]
          cases cell <;> exact .inl rfl
      | _ => exact .inl rfl

theorem asked_suffix {a : Step} (hsteady : w.Steady) (hstep : w.step a = some w') :
    w.asked <:+ w'.asked := by
  cases a with
  | close id =>
      cases hstep
      exact (closes_close w id).asked
  | outside o =>
      simp only [World.step, Option.map_eq_some_iff] at hstep
      obtain ⟨engine, _, rfl⟩ := hstep
      exact List.suffix_refl _
  | work input =>
      rw [asked_of_works (works_of_work hsteady hstep)]

/-- The bound for every beginning of the accepted records, and what keeps it. -/
structure Occupied (w : World) : Prop where
  controlled : w.Controlled
  uncut : w.engine.Uncut
  tidy : w.Tidy
  bounded : ∀ records, records <+: w.engine.accepted →
    (unended records).length ≤ w.limits.maxConnections.val + w.asked.length

theorem occupied_new (settings : Settings) {outside : List ℕ}
    (hfits : outside.sum ≤ settings.capacity.val) : (new settings outside).Occupied where
  controlled := controlled_new settings hfits
  uncut := Engine.uncut_new settings outside
  tidy := tidy_new settings outside
  bounded records h := by
    obtain rfl : records = [] := List.prefix_nil.mp h
    exact Nat.zero_le _

theorem nodup_unended_accepted (hsteady : w.Steady) {records : List Record}
    (hrecords : records <+: w.engine.accepted) : (unended records).Nodup := by
  apply nodup_unended
  intro id
  apply (hrecords.filter _).sublist.countP_le.trans
  by_cases hnone : ∃ record ∈ w.engine.accepted, record.connection = id
  · obtain ⟨record, hmem, rfl⟩ := hnone
    obtain ⟨token, htoken, hhistory⟩ := hsteady.sound.handed.known record hmem
    rw [Board.history_eq, Option.isSome_map] at hhistory
    obtain ⟨c, hc⟩ := Option.isSome_iff_exists.mp hhistory
    have hsent := accepted_eq hsteady hc
    have hreached := (hsteady.sound.coherent.connection_runs hc).reachable
    have hfaithful :=
      (Connection.faithful_of_reachable w.engine.board.settings.fits hreached).2
    rw [htoken, show w.engine.accepted.filter _ = c.sent from hsent]
    exact hfaithful.opened.countP_le
  · have hnil : w.engine.accepted.filter (·.connection = id) = [] := by
      rw [List.filter_eq_nil_iff]
      intro record hmem hown
      exact hnone ⟨record, hmem, of_decide_eq_true hown⟩
    rw [hnil]
    exact Nat.zero_le 1

theorem Tidy.unended_le (h : w.Tidy) (hsteady : w.Steady) (hgoes : w.pc.leaving = false)
    (hconnected : w.engine.channel.connected = true) :
    (unended w.engine.accepted).length ≤ w.limits.maxConnections.val + w.asked.length := by
  have hsubset := h.unended_subset hsteady hgoes hconnected
  have hle := ((nodup_unended_accepted hsteady (List.prefix_refl _)).subperm hsubset).length_le
  rw [List.length_map, List.length_append, Std.TreeMap.length_keys] at hle
  have hsize := hsteady.sound.coherent.consistent.size
  rw [hsteady.sound.coherent.size_eq, hsteady.sound.coherent.capacity] at hsize
  exact hle.trans (Nat.add_le_add_right hsize _)

theorem Occupied.step {a : Step} (h : w.Occupied) (hstep : w.step a = some w') :
    w'.Occupied := by
  have hsteady := h.controlled.steady
  have hcontrolled := h.controlled.step hstep
  have htidy := h.tidy.step h.controlled h.uncut hstep
  have hmove := move_of_step hsteady hstep
  refine ⟨hcontrolled, h.uncut.move hsteady.sound.coherent hmove, htidy, ?_⟩
  intro records hrecords
  have hlimits : w'.limits = w.limits := congrArg Settings.limits hmove.settings_eq
  have hasked := (asked_suffix hsteady hstep).length_le
  rcases accepted_of_step hsteady hstep with hsame | ⟨record, hgrown, hgoes, hconnected⟩
  · rw [hsame] at hrecords
    rw [hlimits]
    exact (h.bounded records hrecords).trans (Nat.add_le_add_left hasked _)
  · rw [hgrown, List.prefix_concat_iff] at hrecords
    rcases hrecords with hall | hbefore
    · rw [hall, ← hgrown]
      exact htidy.unended_le hcontrolled.steady hgoes hconnected
    · rw [hlimits]
      exact (h.bounded records hbefore).trans (Nat.add_le_add_left hasked _)

theorem occupied_of_reachable {settings : Settings} {outside : List ℕ}
    (hfits : outside.sum ≤ settings.capacity.val)
    (h : Machine.Reachable World.step (new settings outside) w) : w.Occupied :=
  h.invariant (occupied_new settings hfits) fun _ _ _ hu hstep ↦ hu.step hstep

end World

end Phonowire.Receiver
