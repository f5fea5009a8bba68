import Phonowire.Receiver.Controls

/-!
# The receivers of a process

All receivers of a process draw their instance from one counter, so an identity
names one admission of one receiver for good. Scoped close is a once-only
agreement for every interleaving of the receivers and of the threads that hold
their controls.
-/

namespace Phonowire.Receiver

open AudioSocket

/-- A byte budget at `bind`, with the charges that it already carries. -/
structure Budget where
  capacity : NonZeroUsize
  outside : List ℕ
  fits : outside.sum ≤ capacity.val

structure Process where
  nextInstance : ℕ
  receivers : List World

namespace World

variable {w w' : World}

def instanceId (w : World) : ℕ := w.engine.board.settings.instanceId

/-- The identities of all admissions so far. -/
def ids (w : World) : List ConnectionId := w.owners.map fun token ↦ ⟨w.instanceId, token⟩

/-- What `try_result` and `wait` read. -/
def observe (w : World) (ticket : CloseTicket) : Option ConnectionCloseResult :=
  w.cells[ticket.cell]?.join

def HasEntry (w : World) (id : ConnectionId) : Prop :=
  id.instanceId = w.instanceId ∧ w.entries[id.sequence]?.isSome = true

/-! ## Requests -/

theorem asked_of_works (hworks : w.Works w') : w'.asked = w.asked := by
  have hset (cell : Option ℕ) (result : ConnectionCloseResult) :
      (w.setCell cell result).asked = w.asked := by cases cell <;> rfl
  cases hworks with
  | @published caller cell progress summary result hpc hsettles =>
      cases caller <;> cases result <;> exact hset _ _
  | resolved hpc => exact hset _ _
  | _ => rfl

/-- A close of `id` that is accepted in front of its task's return. -/
structure Asks (w : World) (id : ConnectionId) : Prop where
  accepted : ∃ ticket, (w.close id).2 = .ok ticket
  unfinished : ∃ entry, w.engine.board.live[id.sequence]? = some entry ∧ ¬ entry.await.Returned

theorem asked_of_step {a : Step} {token : Token} (h : w.Steady) (hstep : w.step a = some w')
    (htoken : token ∈ w'.asked) :
    token ∈ w.asked ∨ a = .close ⟨w.instanceId, token⟩ ∧ w.Asks ⟨w.instanceId, token⟩ := by
  cases a with
  | work input =>
      rw [asked_of_works (works_of_work h hstep)] at htoken
      exact Or.inl htoken
  | close id =>
      cases hstep
      by_cases hguard : id.instanceId = w.engine.board.settings.instanceId ∧
          w.stopping = false ∧ w.entries[id.sequence]?.isSome = true
      · obtain ⟨hinstance, hstopping, hsome⟩ := hguard
        obtain ⟨e, he⟩ := Option.isSome_iff_exists.mp hsome
        have hclose := close_of_entry hinstance hstopping he
        rw [hclose] at htoken
        dsimp only at htoken
        split_ifs at htoken with hunfinished
        · rcases List.mem_cons.mp htoken with rfl | htoken
          · have hid : (⟨w.instanceId, id.sequence⟩ : ConnectionId) = id := by
              rw [instanceId, ← hinstance]
            obtain ⟨entry, hlive, hopen⟩ := (Option.any_eq_true _ _).mp hunfinished
            refine Or.inr ⟨by rw [hid], ?_⟩
            rw [hid]
            refine ⟨⟨_, by rw [hclose]⟩, entry, hlive, ?_⟩
            exact isReturned_eq_false_iff.mp (by simpa using hopen)
          · exact Or.inl htoken
        · exact Or.inl htoken
      · obtain ⟨error, hclose⟩ := close_of_not hguard
        rw [hclose] at htoken
        exact Or.inl htoken
  | outside o =>
      simp only [World.step, Option.map_eq_some_iff] at hstep
      obtain ⟨engine, _, rfl⟩ := hstep
      exact Or.inl htoken

/-! ## Closing -/

theorem close_ok_iff {id : ConnectionId} :
    (∃ ticket, (w.close id).2 = .ok ticket) ↔ w.HasEntry id ∧ w.stopping = false := by
  by_cases hguard : id.instanceId = w.engine.board.settings.instanceId ∧
      w.stopping = false ∧ w.entries[id.sequence]?.isSome = true
  · obtain ⟨hinstance, hstopping, hsome⟩ := hguard
    obtain ⟨e, he⟩ := Option.isSome_iff_exists.mp hsome
    rw [close_of_entry hinstance hstopping he]
    exact ⟨fun _ ↦ ⟨⟨hinstance, hsome⟩, hstopping⟩, fun _ ↦ ⟨_, rfl⟩⟩
  · obtain ⟨error, hclose⟩ := close_of_not hguard
    rw [hclose]
    refine ⟨?_, ?_⟩
    · rintro ⟨ticket, hticket⟩
      cases hticket
    · rintro ⟨⟨hinstance, hsome⟩, hstopping⟩
      exact absurd ⟨hinstance, hstopping, hsome⟩ hguard

theorem Registry.hasEntry_iff (h : w.Registry) (id : ConnectionId) :
    w.HasEntry id ↔ id.instanceId = w.instanceId ∧
      (w.engine.board.live[id.sequence]?.isSome = true ∨ w.pc.finishing = some id.sequence) := by
  rw [← h.kept]
  rfl

theorem Registry.ticket_id (h : w.Registry) {ticket : CloseTicket} (hticket : ticket ∈ w.tickets) :
    w.ids[ticket.cell]? = some ticket.id := by
  obtain ⟨hinstance, howner⟩ := h.tickets ticket hticket
  rw [ids, List.getElem?_map, howner, instanceId, ← hinstance]
  rfl

/-- All results are published when no entry is left and none is on its way. -/
theorem Registry.all_published (h : w.Registry) (hinflight : w.pc.inflight = [])
    (hfinishing : w.pc.finishing = none) (hempty : w.engine.board.Empty) {ticket : CloseTicket}
    (hticket : ticket ∈ w.tickets) : (w.observe ticket).isSome = true := by
  obtain ⟨_, howner⟩ := h.tickets ticket hticket
  have hlt : ticket.cell < w.cells.length := by
    rw [← h.lengths]
    exact (List.getElem?_eq_some_iff.mp howner).1
  have hentry : ¬ w.entries[ticket.id.sequence]?.isSome = true := by
    rw [h.kept, hempty, hfinishing]
    simp
  have hcell : w.cells[ticket.cell]? ≠ some none := by
    rw [Ne, h.unresolved _ _ howner, hinflight]
    simpa using hentry
  unfold observe
  rw [List.getElem?_eq_getElem hlt] at hcell ⊢
  cases hresult : w.cells[ticket.cell] with
  | none => exact absurd (congrArg some hresult) hcell
  | some result => rfl

/-- A published result and an entry exclude each other. -/
theorem Registry.stale {cell : ℕ} {id : ConnectionId} {result : ConnectionCloseResult}
    (h : w.Registry) (hid : w.ids[cell]? = some id)
    (hcell : w.cells[cell]? = some (some result)) : ¬ w.HasEntry id := by
  rintro ⟨_, hentry⟩
  rw [ids, List.getElem?_map, Option.map_eq_some_iff] at hid
  obtain ⟨token, howner, rfl⟩ := hid
  have hnone := (h.unresolved cell token howner).mpr (Or.inl hentry)
  rw [hcell] at hnone
  cases hnone

/-- A live connection bears the identity under which it was admitted. -/
theorem Controlled.named (h : w.Controlled) {token : Token} {entry : Entry}
    (hlive : w.engine.board.live[token]? = some entry) :
    entry.connection.task.id = ⟨w.instanceId, token⟩ ∧ entry.connection.task.id ∈ w.ids := by
  have hid : entry.connection.task.id = ⟨w.instanceId, token⟩ := by
    obtain ⟨peer, hreachable⟩ := (h.steady.sound.coherent.holds token entry hlive).runs
    refine (Connection.reachable_induction (I := fun c ↦ c.task.id = ⟨w.instanceId, token⟩)
      hreachable rfl ?_).2
    intro c d effect _ hc hmove _ _
    exact hmove.identity_eq.1.trans hc
  refine ⟨hid, ?_⟩
  obtain ⟨e, he⟩ := Option.isSome_iff_exists.mp
    ((h.registry.kept token).mpr (Or.inl (by rw [hlive]; rfl)))
  rw [hid]
  exact List.mem_map_of_mem (List.mem_of_getElem? (h.registry.entry token e he))

theorem Controlled.ended (h : w.Controlled) {left : ℕ} {token : Token}
    (hpc : w.pc = .retire (.turn left) token) :
    ∃ entry, w.engine.board.live[token]? = some entry ∧ entry.await.Returned := by
  have hplace := h.steady.place
  rw [hpc] at hplace
  obtain ⟨entry, hlive⟩ := Option.isSome_iff_exists.mp hplace.2
  exact ⟨entry, hlive, (h.steady.sound.coherent.holds token entry hlive).returned.mpr hplace.1⟩

/-- A close touches the entry of its identity, the tickets and the control
signal, and a failed close nothing. -/
structure CloseFrame (w : World) (id : ConnectionId) : Prop where
  issued : ∀ ticket, (w.close id).2 = .ok ticket →
    ticket.id = id ∧ ticket ∈ (w.close id).1.tickets
  failed : ∀ error, (w.close id).2 = .error error → (w.close id).1 = w
  entries : ∀ token, token ≠ id.sequence → (w.close id).1.entries[token]? = w.entries[token]?
  cells : (w.close id).1.cells = w.cells
  place : (w.close id).1.pc = w.pc
  board : (w.close id).1.engine.board = w.engine.board
  summary : (w.close id).1.summary = w.summary

theorem closeFrame (w : World) (id : ConnectionId) : w.CloseFrame id := by
  by_cases hguard : id.instanceId = w.engine.board.settings.instanceId ∧
      w.stopping = false ∧ w.entries[id.sequence]?.isSome = true
  · obtain ⟨hinstance, hstopping, hsome⟩ := hguard
    obtain ⟨e, he⟩ := Option.isSome_iff_exists.mp hsome
    have hclose := close_of_entry hinstance hstopping he
    constructor
    case issued =>
      intro ticket hticket
      rw [hclose] at hticket ⊢
      cases hticket
      exact ⟨rfl, List.mem_cons_self⟩
    case failed =>
      intro error herror
      rw [hclose] at herror
      cases herror
    case entries =>
      intro token htoken
      rw [hclose]
      exact (Std.TreeMap.getElem?_insert_ite _ _ _ token).trans (if_neg htoken.symm)
    all_goals rw [hclose]
  · obtain ⟨error, hclose⟩ := close_of_not hguard
    constructor
    case issued =>
      intro ticket hticket
      rw [hclose] at hticket
      cases hticket
    case failed => exact fun _ _ ↦ by rw [hclose]
    case entries => exact fun _ _ ↦ by rw [hclose]
    all_goals rw [hclose]

end World

namespace Process

def new : Process := ⟨1, []⟩

/-- `Receiver::bind_with_profile`, where `listened` is what the system answers to
the listener. -/
def bind (p : Process) (limits : Limits) (profile : IncomingProfile) (budget : Budget)
    (listened : Except IoError Unit) : Process × Except ReceiverFailure Unit :=
  let required := max readBytes limits.payload
  if hfits : required ≤ budget.capacity.val then
    match checkedAdd p.nextInstance 1 with
    | none => (p, .error .instanceExhausted)
    | some nextInstance =>
        match listened with
        | .error error => ({ p with nextInstance }, .error (.io error))
        | .ok () =>
            ({ nextInstance
               receivers := p.receivers ++
                [.new ⟨p.nextInstance, limits, profile, budget.capacity, hfits⟩ budget.outside] },
              .ok ())
  else (p, .error (.budgetTooSmall (.tooLarge required budget.capacity.val)))

inductive Step where
  | bind (limits : Limits) (profile : IncomingProfile) (budget : Budget)
      (listened : Except IoError Unit)
  | within (index : ℕ) (a : World.Step)

def step (p : Process) : Step → Option Process
  | .bind limits profile budget listened => some (p.bind limits profile budget listened).1
  | .within index a =>
      (Machine.within World.step p.receivers index a).map fun receivers ↦ { p with receivers }

/-- The identities of all admissions of all receivers so far. -/
def ids (p : Process) : List ConnectionId := p.receivers.flatMap World.ids

variable {p p' : Process} {w : World} {i : ℕ}

/-- What a step does to the receivers. -/
inductive Stepped (p : Process) (a : Step) : Process → Prop
  | same {nextInstance : ℕ} (hle : p.nextInstance ≤ nextInstance) :
      Stepped p a { p with nextInstance }
  | bound {settings : Settings} {outside : List ℕ} (hinstance : settings.instanceId = p.nextInstance)
      (hfits : outside.sum ≤ settings.capacity.val) :
      Stepped p a ⟨p.nextInstance + 1, p.receivers ++ [.new settings outside]⟩
  | within {index : ℕ} {action : World.Step} {v w : World} (ha : a = .within index action)
      (hv : p.receivers[index]? = some v) (hstep : v.step action = some w) :
      Stepped p a { p with receivers := p.receivers.set index w }

theorem stepped_of_step {a : Step} (h : p.step a = some p') : p.Stepped a p' := by
  cases a with
  | bind limits profile budget listened =>
      cases h
      unfold bind
      dsimp only
      split_ifs with hfits
      · cases hnext : checkedAdd p.nextInstance 1 with
        | none => exact .same le_rfl
        | some next =>
            obtain ⟨_, rfl⟩ := checkedAdd_eq_some_iff.mp hnext
            cases listened with
            | error error => exact .same (Nat.le_succ _)
            | ok _ => exact .bound rfl budget.fits
      · exact .same le_rfl
  | within index action =>
      simp only [step, Option.map_eq_some_iff] at h
      obtain ⟨receivers, hwithin, rfl⟩ := h
      obtain ⟨v, w, hv, hstep, rfl⟩ := Machine.within_eq_some_iff.mp hwithin
      exact .within rfl hv hstep

/-! ## Invariants -/

/-- Every receiver keeps its invariants, and instances ascend. -/
structure Controlled (p : Process) : Prop where
  receivers : ∀ w ∈ p.receivers, w.Controlled
  instances : (p.receivers.map World.instanceId).Pairwise (· < ·)
  below : ∀ w ∈ p.receivers, w.instanceId < p.nextInstance

theorem controlled_new : new.Controlled :=
  ⟨by simp [new], List.Pairwise.nil, by simp [new]⟩

theorem instanceId_of_step {v w : World} {a : World.Step} (h : v.Steady)
    (hstep : v.step a = some w) : w.instanceId = v.instanceId :=
  congrArg Settings.instanceId (World.move_of_step h hstep).settings_eq

theorem Controlled.step {a : Step} (h : p.Controlled) (hstep : p.step a = some p') :
    p'.Controlled := by
  cases stepped_of_step hstep with
  | same hle => exact ⟨h.receivers, h.instances, fun w hw ↦ (h.below w hw).trans_le hle⟩
  | @bound settings outside hinstance hfits =>
      refine ⟨?_, ?_, ?_⟩
      · intro w hw
        rcases List.mem_append.mp hw with hw | hw
        · exact h.receivers w hw
        · rw [List.mem_singleton.mp hw]
          exact World.controlled_new settings hfits
      · dsimp only
        rw [List.map_append, List.pairwise_append]
        refine ⟨h.instances, List.pairwise_singleton _ _, ?_⟩
        intro a ha b hb
        obtain ⟨w, hw, rfl⟩ := List.mem_map.mp ha
        obtain rfl := List.mem_singleton.mp hb
        exact (h.below w hw).trans_eq hinstance.symm
      · intro w hw
        rcases List.mem_append.mp hw with hw | hw
        · exact (h.below w hw).trans (Nat.lt_succ_self _)
        · rw [List.mem_singleton.mp hw]
          exact hinstance.trans_lt (Nat.lt_succ_self _)
  | @within index action v w ha hv hworld =>
      have hcontrolled := h.receivers v (List.mem_of_getElem? hv)
      have hinstance := instanceId_of_step hcontrolled.steady hworld
      refine ⟨?_, ?_, ?_⟩
      · intro u hu
        rcases List.mem_or_eq_of_mem_set hu with hu | rfl
        · exact h.receivers u hu
        · exact hcontrolled.step hworld
      · have hmap : (p.receivers.set index w).map World.instanceId =
            p.receivers.map World.instanceId := by
          rw [List.map_set, hinstance]
          refine List.ext_getElem? fun j ↦ ?_
          rw [List.getElem?_set]
          split_ifs with hj hlt
          · simp [← hj, hv]
          · rw [← hj, List.getElem?_eq_none (not_lt.mp hlt)]
          · rfl
        dsimp only
        rw [hmap]
        exact h.instances
      · intro u hu
        rcases List.mem_or_eq_of_mem_set hu with hu | rfl
        · exact h.below u hu
        · rw [hinstance]
          exact h.below v (List.mem_of_getElem? hv)

theorem controlled_of_run {steps : List Step} (h : Machine.run step new steps = some p) :
    p.Controlled :=
  Machine.Reachable.invariant ⟨steps, h⟩ controlled_new fun _ _ _ hp hstep ↦ hp.step hstep

/-! ## The same receiver later -/

theorem grows_of_step {a : Step} (h : p.Controlled) (hstep : p.step a = some p')
    (hw : p.receivers[i]? = some w) :
    ∃ w', p'.receivers[i]? = some w' ∧ w.Grows w' ∧ w'.instanceId = w.instanceId := by
  cases stepped_of_step hstep with
  | same hle => exact ⟨w, hw, .refl w, rfl⟩
  | bound hinstance hfits =>
      refine ⟨w, ?_, .refl w, rfl⟩
      exact (List.getElem?_append_left (List.getElem?_eq_some_iff.mp hw).1).trans hw
  | @within index action v u ha hv hworld =>
      by_cases hi : index = i
      · subst hi
        obtain rfl := Option.some.inj (hv.symm.trans hw)
        have hcontrolled := h.receivers v (List.mem_of_getElem? hv)
        refine ⟨u, ?_, World.grows_of_step hcontrolled.registry hcontrolled.steady hworld,
          instanceId_of_step hcontrolled.steady hworld⟩
        exact List.getElem?_set_self (List.getElem?_eq_some_iff.mp hv).1
      · exact ⟨w, (List.getElem?_set_ne hi).trans hw, .refl w, rfl⟩

theorem grows_of_run {later : List Step} (h : p.Controlled)
    (hrun : Machine.run step p later = some p') (hw : p.receivers[i]? = some w) :
    ∃ w', p'.receivers[i]? = some w' ∧ w.Grows w' ∧ w'.instanceId = w.instanceId := by
  induction later generalizing p w with
  | nil =>
      cases hrun
      exact ⟨w, hw, .refl w, rfl⟩
  | cons a later ih =>
      obtain ⟨q, hq, hrest⟩ := Machine.run_cons.mp hrun
      obtain ⟨v, hv, hgrows, hinstance⟩ := grows_of_step h hq hw
      obtain ⟨w', hw', hgrows', hinstance'⟩ := ih (h.step hq) hrest hv
      exact ⟨w', hw', hgrows.trans hgrows', hinstance'.trans hinstance⟩

/-- Receivers with one instance are one receiver. -/
theorem Controlled.index_eq {j : ℕ} {v w : World} (h : p.Controlled)
    (hv : p.receivers[i]? = some v) (hw : p.receivers[j]? = some w)
    (hinstance : v.instanceId = w.instanceId) : i = j := by
  have hnodup : (p.receivers.map World.instanceId).Nodup := h.instances.imp ne_of_lt
  have hlt : i < (p.receivers.map World.instanceId).length := by
    rw [List.length_map]
    exact (List.getElem?_eq_some_iff.mp hv).1
  refine (List.getElem?_inj hlt hnodup).mp ?_
  rw [List.getElem?_map, List.getElem?_map, hv, hw]
  exact congrArg some hinstance

/-- No identity is given out twice. -/
theorem Controlled.ids_nodup (h : p.Controlled) : p.ids.Nodup := by
  unfold ids
  rw [List.nodup_flatMap]
  refine ⟨?_, ?_⟩
  · intro w hw
    refine List.Nodup.map ?_ ((h.receivers w hw).registry.sorted.imp ne_of_lt)
    intro a b hab
    cases hab
    rfl
  · refine (List.pairwise_map.mp h.instances).imp ?_
    intro v w hlt
    refine List.disjoint_left.mpr ?_
    intro id hv hw
    obtain ⟨token, _, rfl⟩ := List.mem_map.mp hv
    obtain ⟨other, _, hother⟩ := List.mem_map.mp hw
    have hsame : w.instanceId = v.instanceId := congrArg ConnectionId.instanceId hother
    omega

/-! ## The agreement -/

/-- At some point of the run `steps`, the receiver at `i` accepted a close of
`token` in front of its task's return. -/
def Asked (steps : List Step) (i : ℕ) (token : Token) : Prop :=
  ∃ before after q v, steps = before ++ .within i (.close ⟨v.instanceId, token⟩) :: after ∧
    Machine.run step new before = some q ∧ q.receivers[i]? = some v ∧
      v.Asks ⟨v.instanceId, token⟩

theorem asked_of_run {steps : List Step} {token : Token}
    (h : Machine.run step new steps = some p) (hw : p.receivers[i]? = some w)
    (htoken : token ∈ w.asked) : Asked steps i token := by
  induction steps using List.reverseRecOn generalizing p w with
  | nil =>
      cases h
      cases hw
  | append_singleton steps a ih =>
      obtain ⟨q, hq, hstep⟩ := Machine.run_snoc.mp h
      have hlater (hasked : Asked steps i token) : Asked (steps ++ [a]) i token := by
        obtain ⟨before, after, r, v, rfl, hrun, hv, hasks⟩ := hasked
        exact ⟨before, after ++ [a], r, v, by simp, hrun, hv, hasks⟩
      cases stepped_of_step hstep with
      | same hle => exact hlater (ih hq hw htoken)
      | @bound settings outside hinstance hfits =>
          dsimp only at hw
          rw [List.getElem?_append] at hw
          split_ifs at hw
          · exact hlater (ih hq hw htoken)
          · rw [List.getElem?_singleton] at hw
            split_ifs at hw
            cases hw
            cases htoken
      | @within index action v u ha hv hworld =>
          have hsteady := ((controlled_of_run hq).receivers v (List.mem_of_getElem? hv)).steady
          by_cases hi : index = i
          · subst hi
            dsimp only at hw
            rw [List.getElem?_set_self (List.getElem?_eq_some_iff.mp hv).1] at hw
            obtain rfl := Option.some.inj hw
            rcases World.asked_of_step hsteady hworld htoken with hold | ⟨haction, hasks⟩
            · exact hlater (ih hq hv hold)
            · subst ha haction
              exact ⟨steps, [], q, v, by simp, hq, hv, hasks⟩
          · dsimp only at hw
            rw [List.getElem?_set_ne hi] at hw
            exact hlater (ih hq hw htoken)

/-- What holds of scoped closes after the run `steps`. -/
structure Agreement (steps : List Step) (p : Process) : Prop where
  /-- A published result never changes; tickets and admissions stay. -/
  stays : ∀ later p', Machine.run step p later = some p' →
    ∀ (i : ℕ) w, p.receivers[i]? = some w → ∃ w', p'.receivers[i]? = some w' ∧
      w.ids <+: w'.ids ∧ ∀ ticket ∈ w.tickets, ticket ∈ w'.tickets ∧
        ∀ result, w.observe ticket = some result → w'.observe ticket = some result
  /-- Tickets for one identity are of one receiver and observe one result. -/
  same : ∀ (i j : ℕ) v w, p.receivers[i]? = some v → p.receivers[j]? = some w →
    ∀ s ∈ v.tickets, ∀ t ∈ w.tickets, s.id = t.id → i = j ∧ v.observe s = w.observe t
  /-- A close is accepted for the entries of this receiver in front of `stop_all`. -/
  accepts : ∀ w ∈ p.receivers, ∀ id,
    (∃ ticket, (w.close id).2 = .ok ticket) ↔ w.HasEntry id ∧ w.stopping = false
  /-- An entry lasts from admission to retirement. -/
  entries : ∀ w ∈ p.receivers, ∀ id, w.HasEntry id ↔ id.instanceId = w.instanceId ∧
    (w.engine.board.live[id.sequence]?.isSome = true ∨ w.pc.finishing = some id.sequence)
  /-- A close leaves other connections alone, and a failed one everything. -/
  frame : ∀ w ∈ p.receivers, ∀ id, w.CloseFrame id
  /-- Retirement by request is for a connection that was itself asked to close. -/
  retires : ∀ (i : ℕ) w, p.receivers[i]? = some w → ∀ site tokens token,
    w.pc = .retire (.requested site tokens) token → Asked steps i token
  /-- Retirement after a turn is for a task that returned by itself. -/
  ends : ∀ w ∈ p.receivers, ∀ left token, w.pc = .retire (.turn left) token →
    ∃ entry, w.engine.board.live[token]? = some entry ∧ entry.await.Returned
  reports : ∀ (i : ℕ) w, p.receivers[i]? = some w → ∀ (cell : ℕ) token,
    w.owners[cell]? = some token → w.cells[cell]? = some (some .retiredByRequest) →
      Asked steps i token
  /-- When `run` returns, all tickets hold a result, and the count is exact. -/
  returns : ∀ w ∈ p.receivers, ∀ result, w.pc = .returned result →
    (∀ ticket ∈ w.tickets, (w.observe ticket).isSome = true) ∧
      (w.summary.countersComplete = true → w.summary.closedByRequest = w.granted)
  /-- No identity is given out twice. -/
  distinct : p.ids.Nodup
  /-- The identities are those of the connections. -/
  names : ∀ w ∈ p.receivers, ∀ (token : Token) entry,
    w.engine.board.live[token]? = some entry →
      entry.connection.task.id = ⟨w.instanceId, token⟩ ∧ entry.connection.task.id ∈ w.ids
  /-- A ticket is for the admission that its identity names. -/
  tickets : ∀ w ∈ p.receivers, ∀ ticket ∈ w.tickets, w.ids[ticket.cell]? = some ticket.id
  /-- An identity with a result is stale for every receiver. -/
  stale : ∀ v ∈ p.receivers, ∀ w ∈ p.receivers, ∀ (cell : ℕ) id result,
    v.ids[cell]? = some id → v.cells[cell]? = some (some result) → ¬ w.HasEntry id

theorem Controlled.same_result {j : ℕ} {v w : World} (h : p.Controlled)
    (hv : p.receivers[i]? = some v) (hw : p.receivers[j]? = some w) {s t : CloseTicket}
    (hs : s ∈ v.tickets) (ht : t ∈ w.tickets) (hid : s.id = t.id) :
    i = j ∧ v.observe s = w.observe t := by
  have hv' := (h.receivers v (List.mem_of_getElem? hv)).registry
  have hw' := (h.receivers w (List.mem_of_getElem? hw)).registry
  have hinstance : v.instanceId = w.instanceId := by
    unfold World.instanceId
    rw [← (hv'.tickets s hs).1, ← (hw'.tickets t ht).1, hid]
  obtain rfl := h.index_eq hv hw hinstance
  obtain rfl := Option.some.inj (hv.symm.trans hw)
  have howner := (hv'.tickets s hs).2
  rw [hid] at howner
  refine ⟨rfl, ?_⟩
  rw [World.observe, World.observe, hv'.index_eq howner (hv'.tickets t ht).2]

theorem Controlled.stale {v w : World} {cell : ℕ} {id : ConnectionId}
    {result : ConnectionCloseResult} (h : p.Controlled) (hv : v ∈ p.receivers)
    (hw : w ∈ p.receivers) (hid : v.ids[cell]? = some id)
    (hcell : v.cells[cell]? = some (some result)) : ¬ w.HasEntry id := by
  intro hentry
  have hinstance : v.instanceId = w.instanceId := by
    rw [World.ids, List.getElem?_map, Option.map_eq_some_iff] at hid
    obtain ⟨token, _, rfl⟩ := hid
    exact hentry.1
  obtain ⟨i, hi⟩ := List.mem_iff_getElem?.mp hv
  obtain ⟨j, hj⟩ := List.mem_iff_getElem?.mp hw
  obtain rfl := h.index_eq hi hj hinstance
  obtain rfl := Option.some.inj (hi.symm.trans hj)
  exact (h.receivers v hv).registry.stale hid hcell hentry

/-- Scoped close is a once-only agreement, whatever the receivers, their workers
and the threads with their controls do in whatever order. -/
theorem close_once_only (steps : List Step) (p : Process)
    (hrun : Machine.run step new steps = some p) : Agreement steps p := by
  have hp := controlled_of_run hrun
  have hget {i : ℕ} {w : World} (hw : p.receivers[i]? = some w) : w.Controlled :=
    hp.receivers w (List.mem_of_getElem? hw)
  constructor
  case stays =>
    intro later p' hlater i w hw
    obtain ⟨w', hw', hgrows, hinstance⟩ := grows_of_run hp hlater hw
    refine ⟨w', hw', ?_, ?_⟩
    · rw [World.ids, World.ids, hinstance]
      exact hgrows.owners.map _
    · intro ticket hticket
      refine ⟨hgrows.tickets.mem hticket, ?_⟩
      intro result hresult
      unfold World.observe at hresult ⊢
      rw [Option.join_eq_some_iff] at hresult ⊢
      exact hgrows.cells _ result hresult
  case same =>
    intro i j v w hv hw s hs t ht hid
    exact hp.same_result hv hw hs ht hid
  case accepts => exact fun w _ id ↦ World.close_ok_iff
  case entries => exact fun w hw id ↦ (hp.receivers w hw).registry.hasEntry_iff id
  case frame => exact fun w _ id ↦ w.closeFrame id
  case retires =>
    intro i w hw site tokens token hpc
    refine asked_of_run hrun hw ((hget hw).registry.chosen token ?_)
    rw [hpc]
    exact List.mem_cons_self
  case ends => exact fun w hw left token hpc ↦ (hp.receivers w hw).ended hpc
  case reports =>
    intro i w hw cell token howner hcell
    obtain ⟨asked, hasked, howner'⟩ := (hget hw).registry.reported cell hcell
    obtain rfl := Option.some.inj (howner.symm.trans howner')
    exact asked_of_run hrun hw hasked
  case returns =>
    intro w hw result hpc
    have hw' := hp.receivers w hw
    have hplace := hw'.steady.place
    rw [hpc] at hplace
    refine ⟨fun ticket hticket ↦ ?_, fun hcomplete ↦ ?_⟩
    · exact hw'.registry.all_published (by rw [hpc]; rfl) (by rw [hpc]; rfl) hplace.2 hticket
    · exact hw'.counted.exact hcomplete (by rw [hpc]; rfl)
  case distinct => exact hp.ids_nodup
  case names => exact fun w hw token entry hlive ↦ (hp.receivers w hw).named hlive
  case tickets => exact fun w hw ticket hticket ↦ (hp.receivers w hw).registry.ticket_id hticket
  case stale => exact fun v hv w hw cell id result ↦ hp.stale hv hw

/-- Two receivers; the first closes its only caller on request, which the second
does not know, and is then stopped. -/
def Step.twoReceivers : List Step :=
  List.replicate 2 (.bind oneSlot.limits oneSlot.profile ⟨oneSlot.capacity, [], by decide⟩ (.ok ()))
    ++ World.Step.admission.map (.within 0)
    ++ [.within 0 (.close ⟨1, 2⟩), .within 1 (.close ⟨1, 2⟩)]
    ++ (World.Step.works 16 .quiet).map (.within 0)
    ++ .within 0 (.outside .stop) :: (World.Step.works 7 .quiet).map (.within 0)

theorem close_once_only_two_receivers :
    ∃ p, Machine.run step new Step.twoReceivers = some p ∧ Agreement Step.twoReceivers p ∧
      p.receivers.map (fun w ↦ (w.pc, w.cells, w.summary.closedByRequest, w.tickets.length)) =
        [(.returned (.ok .requested), [some .retiredByRequest], 1, 1), (.setup, [], 0, 0)] := by
  obtain ⟨p, hp, hresult⟩ := Machine.exists_of_run step new Step.twoReceivers
    (fun p ↦ p.receivers.map
      (fun w ↦ (w.pc, w.cells, w.summary.closedByRequest, w.tickets.length)) =
        [(.returned (.ok .requested), [some .retiredByRequest], 1, 1), (.setup, [], 0, 0)])
    (by decide +kernel)
  exact ⟨p, hp, close_once_only Step.twoReceivers p hp, hresult⟩

end Process

end Phonowire.Receiver
