import Phonowire.Receiver.Delivery
import Phonowire.Receiver.Shutdown

/-!
# The registry of connection controls

Each admission has one completion cell, shared by all tickets for its identity.
A cell is unresolved as long as its identity has an entry or the worker is about
to publish its result, so it is resolved exactly once; and it is resolved as
retired by request only for a connection that was asked to close while its task
was unfinished.
-/

namespace Phonowire.Receiver

/-- Cells whose entry is gone and whose result is not yet published. -/
def Pc.inflight : Pc → List ℕ
  | .publish _ (some cell) _ => [cell]
  | .publishAll _ _ cells => cells
  | _ => []

/-- The retired token that still has its entry. -/
def Pc.finishing : Pc → Option Token
  | .finish _ token _ => some token
  | _ => none

/-- Tokens that are to be retired by request. -/
def Pc.chosen : Pc → List Token
  | .scan _ _ found => found
  | .retiring _ tokens => tokens
  | .retire (.requested _ tokens) token => token :: tokens
  | .finish (.requested _ tokens) token _ => token :: tokens
  | .publish (.requested _ tokens) _ _ => tokens
  | _ => []

/-- The cell that is about to be published as retired by request. -/
def Pc.granting : Pc → Option ℕ
  | .publish (.requested _ _) cell _ => cell
  | _ => none

/-- A retirement that found no entry. -/
def Pc.missing : Pc → Bool
  | .publish _ none _ => true
  | _ => false

/-- Where the loop has ended on a counter that the summary does not show yet. -/
def Pc.exhausting : Pc → Bool
  | .driven (.error .counterExhausted) => true
  | _ => false

def Pc.starting : Pc → Bool
  | .setup => true
  | _ => false

/-- A place that is between no two halves of a retirement. -/
structure Pc.Apart (pc : Pc) : Prop where
  inflight : pc.inflight = []
  finishing : pc.finishing = none
  granting : pc.granting = none
  missing : pc.missing = false

namespace World

variable {w w' : World} {token : Token}

structure Registry (w : World) : Prop where
  lengths : w.owners.length = w.cells.length
  sorted : w.owners.Pairwise (· < ·)
  below : ∀ token ∈ w.owners, token < w.next
  entry : ∀ (token : Token) e, w.entries[token]? = some e → w.owners[e.cell]? = some token
  unresolved : ∀ (i : ℕ) (token : Token), w.owners[i]? = some token →
    (w.cells[i]? = some none ↔ w.entries[token]?.isSome = true ∨ i ∈ w.pc.inflight)
  inflight : w.pc.inflight.Nodup ∧
    ∀ i ∈ w.pc.inflight, ∃ token : Token, w.owners[i]? = some token ∧ w.entries[token]? = none
  kept : ∀ token : Token, w.entries[token]?.isSome = true ↔
    w.engine.board.live[token]?.isSome = true ∨ w.pc.finishing = some token
  gone : ∀ token : Token, w.pc.finishing = some token → w.engine.board.live[token]? = none
  present : w.pc.missing = false
  tickets : ∀ ticket ∈ w.tickets, ticket.id.instanceId = w.engine.board.settings.instanceId ∧
    w.owners[ticket.cell]? = some ticket.id.sequence
  wanted : ∀ (token : Token) e entry, w.entries[token]? = some e → e.requested = true →
    w.engine.board.live[token]? = some entry → ¬ entry.await.Returned → token ∈ w.asked
  chosen : ∀ token ∈ w.pc.chosen, token ∈ w.asked
  granting : ∀ cell, w.pc.granting = some cell →
    ∃ token ∈ w.asked, w.owners[cell]? = some token
  reported : ∀ i : ℕ, w.cells[i]? = some (some ConnectionCloseResult.retiredByRequest) →
    ∃ token ∈ w.asked, w.owners[i]? = some token

theorem registry_new (settings : Settings) (outside : List ℕ) :
    (new settings outside).Registry where
  lengths := rfl
  sorted := List.Pairwise.nil
  below := by simp [new]
  entry := by simp [new]
  unresolved := by simp [new]
  inflight := by simp [new, Pc.inflight]
  kept := by simp [new, Engine.new, Board.new, Pc.finishing]
  gone := by simp [new, Pc.finishing]
  present := rfl
  tickets := by simp [new]
  wanted := by simp [new]
  chosen := by simp [new, Pc.chosen]
  granting := by simp [new, Pc.granting]
  reported := by simp [new]

/-- What the registry and its ghosts are. -/
structure SameControls (w w' : World) : Prop where
  entries : ∀ token : Token, w'.entries[token]? = w.entries[token]?
  cells : w'.cells = w.cells
  owners : w'.owners = w.owners
  tickets : w'.tickets = w.tickets
  asked : w'.asked = w.asked

/-- The same live tasks, and none of them became unfinished again. -/
structure SameTasks (s s' : Engine) : Prop where
  instanceId : s'.board.settings.instanceId = s.board.settings.instanceId
  live : ∀ token : Token, s'.board.live[token]?.isSome = s.board.live[token]?.isSome
  unfinished : ∀ (token : Token) entry, s'.board.live[token]? = some entry →
    ¬ entry.await.Returned →
      ∃ before, s.board.live[token]? = some before ∧ ¬ before.await.Returned

theorem SameControls.of_eq (hentries : w'.entries = w.entries) (hcells : w'.cells = w.cells)
    (howners : w'.owners = w.owners) (htickets : w'.tickets = w.tickets)
    (hasked : w'.asked = w.asked) : w.SameControls w' :=
  ⟨fun token ↦ by rw [hentries], hcells, howners, htickets, hasked⟩

theorem SameTasks.refl (s : Engine) : SameTasks s s :=
  ⟨rfl, fun _ ↦ rfl, fun _ entry hlive hopen ↦ ⟨entry, hlive, hopen⟩⟩

theorem sameTasks_of_board {s s' : Engine} {ready : Ready}
    (h : s'.board = { s.board with ready }) : SameTasks s s' := by
  refine ⟨by rw [h], by rw [h]; exact fun _ ↦ rfl, ?_⟩
  rw [h]
  exact fun _ entry hlive hopen ↦ ⟨entry, hlive, hopen⟩

theorem sameTasks_of_eq {s s' : Engine} (h : s'.board = s.board) : SameTasks s s' :=
  @sameTasks_of_board s s' s.board.ready h

/-- A step that leaves the registry alone. -/
theorem Registry.frame (h : w.Registry) (hcontrols : w.SameControls w')
    (htasks : SameTasks w.engine w'.engine) (hnext : w.next ≤ w'.next)
    (hinflight : w'.pc.inflight = w.pc.inflight) (hfinishing : w'.pc.finishing = w.pc.finishing)
    (hgranting : w'.pc.granting = w.pc.granting)
    (hpresent : w'.pc.missing = false)
    (hchosen : ∀ token ∈ w'.pc.chosen, token ∈ w.asked) : w'.Registry := by
  constructor
  case lengths => rw [hcontrols.owners, hcontrols.cells, h.lengths]
  case sorted => rw [hcontrols.owners]; exact h.sorted
  case below =>
    rw [hcontrols.owners]
    exact fun token htoken ↦ (h.below token htoken).trans_le hnext
  case entry =>
    intro token e he
    rw [hcontrols.entries] at he
    rw [hcontrols.owners]
    exact h.entry token e he
  case unresolved =>
    intro i token htoken
    rw [hcontrols.owners] at htoken
    rw [hcontrols.cells, hcontrols.entries, hinflight]
    exact h.unresolved i token htoken
  case inflight =>
    rw [hinflight, hcontrols.owners]
    refine ⟨h.inflight.1, fun i hi ↦ ?_⟩
    obtain ⟨token, howner, hnone⟩ := h.inflight.2 i hi
    exact ⟨token, howner, (hcontrols.entries token).trans hnone⟩
  case kept =>
    intro token
    rw [hcontrols.entries, htasks.live, hfinishing]
    exact h.kept token
  case gone =>
    intro token htoken
    rw [hfinishing] at htoken
    have hnone := h.gone token htoken
    rwa [← Option.isNone_iff_eq_none, ← Option.not_isSome, ← htasks.live token,
      Option.not_isSome, Option.isNone_iff_eq_none] at hnone
  case present => exact hpresent
  case tickets =>
    rw [hcontrols.tickets, hcontrols.owners, htasks.instanceId]
    exact h.tickets
  case wanted =>
    intro token e entry he hrequested hlive hopen
    rw [hcontrols.entries] at he
    rw [hcontrols.asked]
    obtain ⟨before, hbefore, hstill⟩ := htasks.unfinished token entry hlive hopen
    exact h.wanted token e before he hrequested hbefore hstill
  case chosen =>
    rw [hcontrols.asked]
    exact hchosen
  case granting =>
    rw [hgranting, hcontrols.asked, hcontrols.owners]
    exact h.granting
  case reported =>
    rw [hcontrols.cells, hcontrols.asked, hcontrols.owners]
    exact h.reported

/-- A step between places apart from retirements. -/
theorem Registry.apart (h : w.Registry) (hcontrols : w.SameControls w')
    (htasks : SameTasks w.engine w'.engine) (hnext : w.next ≤ w'.next) (hpc : w.pc.Apart)
    (hpc' : w'.pc.Apart) (hchosen : ∀ token ∈ w'.pc.chosen, token ∈ w.asked) : w'.Registry :=
  h.frame hcontrols htasks hnext (hpc'.inflight.trans hpc.inflight.symm)
    (hpc'.finishing.trans hpc.finishing.symm) (hpc'.granting.trans hpc.granting.symm)
    hpc'.missing hchosen

theorem Loop.apart {pc : Pc} (h : Loop pc) : pc.Apart ∧ pc.chosen = [] := by
  cases pc <;> first | exact h.elim | exact ⟨⟨rfl, rfl, rfl, rfl⟩, rfl⟩

/-! ## Other threads -/

theorem Registry.outside {o : Outside} {engine : Engine} (h : w.Registry)
    (hstep : w.engine.step o.action = some engine) : Registry { w with engine } := by
  obtain ⟨⟨ready, hboard⟩, _⟩ := Engine.outside_undisturbed hstep
  exact h.frame (.of_eq rfl rfl rfl rfl rfl) (sameTasks_of_board hboard) le_rfl rfl rfl rfl h.present
    h.chosen

theorem isReturned_eq_false_iff {a : Await} : a.isReturned = false ↔ ¬ a.Returned := by
  cases a <;> simp [Await.isReturned, Await.Returned]

/-- What an accepted close changes. -/
theorem close_of_entry {id : ConnectionId} {entry : ControlEntry}
    (hinstance : id.instanceId = w.engine.board.settings.instanceId) (hstopping : w.stopping = false)
    (hentry : w.entries[id.sequence]? = some entry) :
    w.close id = ({ w with
      entries := w.entries.insert id.sequence { entry with requested := true }
      tickets := ⟨id, entry.cell⟩ :: w.tickets
      asked := if w.engine.board.live[id.sequence]?.any (!·.await.isReturned) then
        id.sequence :: w.asked else w.asked
      engine := { w.engine with signals := w.engine.signals.owe .control } },
      .ok ⟨id, entry.cell⟩) := by
  unfold World.close
  rw [if_neg (not_not.mpr hinstance), if_neg (by simp [hstopping]), hentry]

/-- Every other close changes nothing. -/
theorem close_of_not {id : ConnectionId}
    (h : ¬ (id.instanceId = w.engine.board.settings.instanceId ∧ w.stopping = false ∧
      w.entries[id.sequence]?.isSome = true)) :
    ∃ error, w.close id = (w, .error error) := by
  unfold World.close
  split_ifs with hinstance hstopping
  · exact ⟨_, rfl⟩
  · exact ⟨_, rfl⟩
  · cases hentry : w.entries[id.sequence]? with
    | none => exact ⟨_, rfl⟩
    | some entry =>
        refine absurd ⟨not_not.mp hinstance, by simpa using hstopping, ?_⟩ h
        simp [hentry]

theorem Registry.close (h : w.Registry) (id : ConnectionId) : (w.close id).1.Registry := by
  by_cases hguard : id.instanceId = w.engine.board.settings.instanceId ∧ w.stopping = false ∧
      w.entries[id.sequence]?.isSome = true
  · obtain ⟨hinstance, hstopping, hsome⟩ := hguard
    obtain ⟨entry, hentry⟩ := Option.isSome_iff_exists.mp hsome
    rw [close_of_entry hinstance hstopping hentry]
    have hmem (token : Token) (htoken : token ∈ w.asked) : token ∈
        (if w.engine.board.live[id.sequence]?.any (!·.await.isReturned) then
          id.sequence :: w.asked else w.asked) := by
      split_ifs
      · exact List.mem_cons_of_mem _ htoken
      · exact htoken
    have hat (u : Token) : (w.entries.insert id.sequence { entry with requested := true })[u]? =
        if id.sequence = u then some { entry with requested := true } else w.entries[u]? :=
      Std.TreeMap.getElem?_insert_ite _ _ _ u
    have hisSome (u : Token) :
        (w.entries.insert id.sequence { entry with requested := true })[u]?.isSome =
          w.entries[u]?.isSome := by
      rw [hat]
      split_ifs with hu
      · rw [← hu, hentry]
        rfl
      · rfl
    constructor
    case lengths => exact h.lengths
    case sorted => exact h.sorted
    case below => exact h.below
    case entry =>
      intro u e he
      dsimp only at he
      rw [hat] at he
      split_ifs at he with hu
      · cases he
        rw [← hu]
        exact h.entry id.sequence entry hentry
      · exact h.entry u e he
    case unresolved =>
      intro i u hu
      dsimp only
      rw [hisSome]
      exact h.unresolved i u hu
    case inflight =>
      refine ⟨h.inflight.1, ?_⟩
      intro i hi
      obtain ⟨u, howner, hnone⟩ := h.inflight.2 i hi
      refine ⟨u, howner, ?_⟩
      rw [← Option.isNone_iff_eq_none, ← Option.not_isSome, hisSome, hnone]
      rfl
    case kept =>
      intro u
      dsimp only
      rw [hisSome]
      exact h.kept u
    case gone => exact h.gone
    case present => exact h.present
    case tickets =>
      intro ticket hticket
      rcases List.mem_cons.mp hticket with rfl | hticket
      · exact ⟨hinstance, h.entry id.sequence entry hentry⟩
      · exact h.tickets ticket hticket
    case wanted =>
      intro u e task he hrequested hlive hopen
      dsimp only at he hlive ⊢
      rw [hat] at he
      split_ifs at he with hu
      · subst hu
        rw [if_pos]
        · exact List.mem_cons_self
        · rw [hlive]
          simpa using isReturned_eq_false_iff.mpr hopen
      · exact hmem u (h.wanted u e task he hrequested hlive hopen)
    case chosen => exact fun u hu ↦ hmem u (h.chosen u hu)
    case granting =>
      intro cell hcell
      obtain ⟨u, hu, howner⟩ := h.granting cell hcell
      exact ⟨u, hmem u hu, howner⟩
    case reported =>
      intro i hi
      obtain ⟨u, hu, howner⟩ := h.reported i hi
      exact ⟨u, hmem u hu, howner⟩
  · obtain ⟨error, hclose⟩ := close_of_not hguard
    rw [hclose]
    exact h

/-! ## The worker -/

/-- Each admission has its own cell. -/
theorem Registry.index_eq {i j : ℕ} (h : w.Registry) (hi : w.owners[i]? = some token)
    (hj : w.owners[j]? = some token) : i = j := by
  have hnodup : w.owners.Nodup := h.sorted.imp ne_of_lt
  obtain ⟨hlt, _⟩ := List.getElem?_eq_some_iff.mp hi
  exact (List.getElem?_inj hlt hnodup).mp (hi.trans hj.symm)

/-- Between two polls of a task that has not returned, no task has. -/
theorem sameTasks_of_keeps {s s' : Engine} (h : s.board.Coherent)
    (hphase : ∀ token, s.board.phase ≠ .ended token) (hkeeps : s.Keeps s') : SameTasks s s' := by
  refine ⟨by rw [hkeeps.settings], hkeeps.live, ?_⟩
  intro token entry hlive _
  have hsome : s.board.live[token]?.isSome = true := by
    rw [← hkeeps.live, hlive]
    rfl
  obtain ⟨before, hbefore⟩ := Option.isSome_iff_exists.mp hsome
  exact ⟨before, hbefore, fun hreturned ↦
    hphase token ((h.holds token before hbefore).returned.mp hreturned)⟩

theorem polled_phase_ne {s s' : Engine} (h : s.Polled token s') (u : Token) :
    s.board.phase ≠ .ended u := by
  intro hended
  cases h with
  | yielded hphase => cases hended.symm.trans hphase
  | parked hphase =>
      rcases hphase with ⟨hphase, _⟩ | ⟨k, hphase⟩
      · cases hended.symm.trans hphase
      · cases hended.symm.trans hphase
  | requested hphase => cases hended.symm.trans hphase
  | lined hphase => cases hended.symm.trans hphase
  | blocked hphase => cases hended.symm.trans hphase
  | advanced hphase => cases hended.symm.trans hphase
  | copied hphase => cases hended.symm.trans hphase
  | sent hphase => cases hended.symm.trans hphase
  | refused hphase => cases hended.symm.trans hphase
  | exhausted hphase => cases hended.symm.trans hphase

theorem Registry.admission {peer : SocketAddr} {ready : Ready} {summary : RunSummary} {pc : Pc}
    (h : w.Registry) (hpc : w.pc.Apart) (hpc' : pc.Apart) (hchosen : pc.chosen = []) :
    Registry { w.admission peer ready with summary, pc } := by
  have hat (u : Token) : (w.entries.insert w.next ⟨false, w.cells.length⟩)[u]? =
      if w.next = u then some ⟨false, w.cells.length⟩ else w.entries[u]? :=
    Std.TreeMap.getElem?_insert_ite _ _ _ u
  have hboard (u : Token) : (w.engine.board.live.insert w.next
      ⟨w.engine.board.admitted w.next peer, 0, false⟩)[u]? =
        if w.next = u then some ⟨w.engine.board.admitted w.next peer, 0, false⟩
        else w.engine.board.live[u]? :=
    Std.TreeMap.getElem?_insert_ite _ _ _ u
  have howner {i : ℕ} {u : Token} (hu : (w.owners ++ [w.next])[i]? = some u) :
      w.owners[i]? = some u ∧ u < w.next ∨ i = w.cells.length ∧ u = w.next := by
    rw [List.getElem?_append] at hu
    split_ifs at hu with hi
    · exact Or.inl ⟨hu, h.below u (List.mem_of_getElem? hu)⟩
    · rw [List.getElem?_singleton] at hu
      split_ifs at hu with hzero
      cases hu
      have hlengths := h.lengths
      exact Or.inr ⟨by omega, rfl⟩
  have hkeep {i : ℕ} {u : Token} (hu : w.owners[i]? = some u) :
      (w.owners ++ [w.next])[i]? = some u := by
    rw [List.getElem?_append_left (List.getElem?_eq_some_iff.mp hu).1, hu]
  constructor
  case lengths => simp [World.admission, register, h.lengths]
  case sorted =>
    refine List.pairwise_append.mpr ⟨h.sorted, List.pairwise_singleton _ _, ?_⟩
    intro u hu v hv
    rw [List.mem_singleton.mp hv]
    exact h.below u hu
  case below =>
    intro u hu
    rcases List.mem_append.mp hu with hu | hu
    · exact (h.below u hu).trans (Nat.lt_succ_self _)
    · rw [List.mem_singleton.mp hu]
      exact Nat.lt_succ_self _
  case entry =>
    intro u e he
    dsimp only [World.admission, register] at he ⊢
    rw [hat] at he
    split_ifs at he with hu
    · cases he
      rw [← hu, List.getElem?_append_right h.lengths.le, h.lengths, Nat.sub_self]
      rfl
    · exact hkeep (h.entry u e he)
  case unresolved =>
    intro i u hu
    dsimp only [World.admission, register] at hu ⊢
    rw [hpc'.inflight, hat]
    rcases howner hu with ⟨hold, hlt⟩ | ⟨rfl, rfl⟩
    · have hi : i < w.cells.length := by
        rw [← h.lengths]
        exact (List.getElem?_eq_some_iff.mp hold).1
      rw [if_neg hlt.ne', List.getElem?_append_left hi, h.unresolved i u hold, hpc.inflight]
    · simp
  case inflight => simp [hpc'.inflight]
  case kept =>
    intro u
    dsimp only [World.admission, register]
    rw [hat, hboard, hpc'.finishing]
    split_ifs with hu
    · simp
    · simpa [hpc.finishing] using h.kept u
  case gone => simp [hpc'.finishing]
  case present => exact hpc'.missing
  case tickets =>
    intro ticket hticket
    exact ⟨(h.tickets ticket hticket).1, hkeep (h.tickets ticket hticket).2⟩
  case wanted =>
    intro u e entry he hrequested hentry hopen
    dsimp only [World.admission, register] at he hentry
    rw [hat] at he
    rw [hboard] at hentry
    split_ifs at he hentry with hu
    · cases he
      cases hrequested
    · exact h.wanted u e entry he hrequested hentry hopen
  case chosen => simp [hchosen]
  case granting => simp [hpc'.granting]
  case reported =>
    intro i hi
    dsimp only [World.admission, register] at hi ⊢
    rw [List.getElem?_append] at hi
    split_ifs at hi with hlt
    · obtain ⟨u, hu, howns⟩ := h.reported i hi
      exact ⟨u, hu, hkeep howns⟩
    · rw [List.getElem?_singleton] at hi
      split_ifs at hi
      cases hi

theorem Registry.retired {caller : Caller} {entry : Entry} {ready : Ready} {p : Progress}
    {engine : Engine} (h : w.Registry) (hpc : w.pc = .retire caller token)
    (hlive : w.engine.board.live[token]? = some entry)
    (hengine : engine.board = w.engine.board.without token entry ready) :
    Registry { w with engine, pc := .finish caller token p } := by
  have hboard (u : Token) : engine.board.live[u]? =
      if token = u then none else w.engine.board.live[u]? := by
    rw [hengine]
    exact Std.TreeMap.getElem?_erase_ite _ _ u
  have hsettings : engine.board.settings = w.engine.board.settings := by
    rw [hengine]
    rfl
  have hinflight : w.pc.inflight = [] := by rw [hpc]; rfl
  have hfinishing : w.pc.finishing = none := by rw [hpc]; rfl
  constructor
  case lengths => exact h.lengths
  case sorted => exact h.sorted
  case below => exact h.below
  case entry => exact h.entry
  case unresolved =>
    intro i u hu
    have hbefore := h.unresolved i u hu
    rwa [hinflight] at hbefore
  case inflight => exact ⟨List.nodup_nil, nofun⟩
  case kept =>
    intro u
    dsimp only [Pc.finishing]
    rw [h.kept, hboard, hfinishing]
    split_ifs with hu
    · simp [← hu, hlive]
    · simp [hu]
  case gone =>
    rintro u hu
    cases hu
    dsimp only
    rw [hboard, if_pos rfl]
  case present => rfl
  case tickets =>
    dsimp only
    rw [hsettings]
    exact h.tickets
  case wanted =>
    intro u e task he hrequested htask hopen
    dsimp only at htask
    rw [hboard] at htask
    split_ifs at htask
    exact h.wanted u e task he hrequested htask hopen
  case chosen =>
    have hbefore := h.chosen
    rw [hpc] at hbefore
    cases caller <;> exact hbefore
  case granting => nofun
  case reported => exact h.reported

theorem Registry.finished {caller : Caller} {p : Progress} (h : w.Registry)
    (hpc : w.pc = .finish caller token p) : (w.stepFinish caller token p).Registry := by
  obtain ⟨e, he⟩ := Option.isSome_iff_exists.mp
    ((h.kept token).mpr (Or.inr (by rw [hpc]; rfl)))
  have hgone : w.engine.board.live[token]? = none := h.gone token (by rw [hpc]; rfl)
  have hinflight : w.pc.inflight = [] := by rw [hpc]; rfl
  have hfinishing : w.pc.finishing = some token := by rw [hpc]; rfl
  have howner := h.entry token e he
  have hat (u : Token) : (w.entries.erase token)[u]? =
      if token = u then none else w.entries[u]? :=
    Std.TreeMap.getElem?_erase_ite _ _ u
  have hstep : w.stepFinish caller token p =
      { w with entries := w.entries.erase token, pc := .publish caller (some e.cell) p } := by
    simp [stepFinish, goto, he]
  rw [hstep]
  constructor
  case lengths => exact h.lengths
  case sorted => exact h.sorted
  case below => exact h.below
  case entry =>
    intro u e' he'
    dsimp only at he'
    rw [hat] at he'
    split_ifs at he'
    exact h.entry u e' he'
  case unresolved =>
    intro i u hu
    dsimp only [Pc.inflight]
    rw [h.unresolved i u hu, hinflight, hat, List.mem_singleton]
    split_ifs with htoken
    · subst htoken
      simp [he, h.index_eq hu howner]
    · have hne : i ≠ e.cell := by
        rintro rfl
        exact htoken (Option.some.inj (howner.symm.trans hu))
      simp [hne]
  case inflight =>
    refine ⟨List.nodup_singleton _, fun i hi ↦ ⟨token, ?_, ?_⟩⟩
    · rw [List.mem_singleton.mp hi]
      exact howner
    · dsimp only
      rw [hat, if_pos rfl]
  case kept =>
    intro u
    dsimp only [Pc.finishing]
    rw [hat]
    split_ifs with htoken
    · simp [← htoken, hgone]
    · simpa [hfinishing, htoken] using h.kept u
  case gone => rintro u ⟨⟩
  case present => rfl
  case tickets => exact h.tickets
  case wanted =>
    intro u e' task he' hrequested htask hopen
    dsimp only at he'
    rw [hat] at he'
    split_ifs at he'
    exact h.wanted u e' task he' hrequested htask hopen
  case chosen =>
    have hbefore := h.chosen
    rw [hpc] at hbefore
    cases caller with
    | requested site tokens => exact fun u hu ↦ hbefore u (List.mem_cons_of_mem _ hu)
    | turn left => rintro u ⟨⟩
    | cleanup drive failure => rintro u ⟨⟩
  case granting =>
    intro cell hcell
    have hbefore := h.chosen
    rw [hpc] at hbefore
    cases caller with
    | requested site tokens =>
        cases hcell
        exact ⟨token, hbefore token List.mem_cons_self, howner⟩
    | turn left => cases hcell
    | cleanup drive failure => cases hcell
  case reported => exact h.reported

/-- The publication of the first result that is on its way. -/
theorem Registry.resolved {cell : ℕ} {result : ConnectionCloseResult} {summary : RunSummary}
    {pc : Pc} (h : w.Registry) (hinflight : w.pc.inflight = cell :: pc.inflight)
    (hfinishing : w.pc.finishing = none) (hfinishing' : pc.finishing = none)
    (hgranting : pc.granting = none) (hpresent : pc.missing = false)
    (hchosen : ∀ token ∈ pc.chosen, token ∈ w.asked)
    (hresult : result = .retiredByRequest → w.pc.granting = some cell) :
    Registry { w with cells := w.cells.set cell (some result), summary, pc } := by
  obtain ⟨hnodup, hrows⟩ := h.inflight
  rw [hinflight] at hnodup hrows
  obtain ⟨token, howner, hnone⟩ := hrows cell List.mem_cons_self
  have hlt : cell < w.cells.length := by
    rw [← h.lengths]
    exact (List.getElem?_eq_some_iff.mp howner).1
  constructor
  case lengths => simpa using h.lengths
  case sorted => exact h.sorted
  case below => exact h.below
  case entry => exact h.entry
  case unresolved =>
    intro i u hu
    dsimp only at hu ⊢
    by_cases hi : cell = i
    · subst hi
      have hcell : cell ∉ pc.inflight := (List.nodup_cons.mp hnodup).1
      cases Option.some.inj (howner.symm.trans hu)
      simp [hlt, hnone, hcell]
    · rw [List.getElem?_set_ne hi, h.unresolved i u hu, hinflight]
      simp [Ne.symm hi]
  case inflight =>
    exact ⟨(List.nodup_cons.mp hnodup).2, fun i hi ↦ hrows i (List.mem_cons_of_mem _ hi)⟩
  case kept =>
    intro u
    dsimp only
    rw [h.kept, hfinishing, hfinishing']
  case gone => simp [hfinishing']
  case present => exact hpresent
  case tickets => exact h.tickets
  case wanted => exact h.wanted
  case chosen => exact hchosen
  case granting => simp [hgranting]
  case reported =>
    intro i hi
    dsimp only at hi
    by_cases hcell : cell = i
    · subst hcell
      rw [List.getElem?_set_self hlt] at hi
      cases hi
      exact h.granting cell (hresult rfl)
    · rw [List.getElem?_set_ne hcell] at hi
      exact h.reported i hi

theorem resume_eq (w : World) (caller : Caller) (result : Except ReceiverFailure Unit) :
    ∃ pc, w.resume caller result = w.goto pc ∧ pc.Apart ∧
      ∀ token ∈ pc.chosen, ∃ site tokens, caller = .requested site tokens ∧ token ∈ tokens := by
  cases caller with
  | turn left => cases result <;> exact ⟨_, rfl, ⟨rfl, rfl, rfl, rfl⟩, nofun⟩
  | requested site tokens =>
      cases result with
      | error error => exact ⟨_, rfl, ⟨rfl, rfl, rfl, rfl⟩, nofun⟩
      | ok _ => exact ⟨_, rfl, ⟨rfl, rfl, rfl, rfl⟩, fun token htoken ↦
          ⟨site, tokens, rfl, htoken⟩⟩
  | cleanup drive failure => cases result <;> exact ⟨_, rfl, ⟨rfl, rfl, rfl, rfl⟩, nofun⟩

theorem Registry.published {caller : Caller} {cell : Option ℕ} {p : Progress}
    {summary : RunSummary} {result : Except ReceiverFailure Unit} (h : w.Registry)
    (hpc : w.pc = .publish caller cell p) :
    ({ w.setCell cell caller.closeResult with summary }.resume caller result).Registry := by
  cases cell with
  | none =>
      have hpresent := h.present
      rw [hpc] at hpresent
      cases hpresent
  | some cell =>
      obtain ⟨pc, hresume, hapart, hchosen⟩ := resume_eq
        { w.setCell (some cell) caller.closeResult with summary } caller result
      rw [hresume]
      refine h.resolved ?_ (by rw [hpc]; rfl) hapart.finishing hapart.granting hapart.missing ?_ ?_
      · rw [hpc, hapart.inflight]
        rfl
      · intro token htoken
        obtain ⟨site, tokens, rfl, hmem⟩ := hchosen token htoken
        refine h.chosen token ?_
        rw [hpc]
        exact hmem
      · intro hresult
        rw [hpc]
        cases caller with
        | requested site tokens => rfl
        | turn left => cases hresult
        | cleanup drive failure => cases hresult

/-- After the last retirement no entry is left for `stop_all`. -/
theorem Registry.stoppedAll {result : DriveResult} {failure : Option ReceiverFailure}
    (h : w.Registry) (hpc : w.pc = .stopAll result failure) (hempty : w.engine.board.Empty) :
    (w.stepStopAll result failure).Registry := by
  have hnone (u : Token) : w.entries[u]? = none := by
    have hkept := h.kept u
    rw [hpc, hempty u] at hkept
    simpa [Pc.finishing] using hkept
  have hentries : w.entries.toList = [] := by
    rw [← List.isEmpty_iff, Std.TreeMap.isEmpty_toList, Std.TreeMap.isEmpty_iff_forall_not_mem]
    intro u
    rw [← Std.TreeMap.isSome_getElem?_iff_mem, hnone]
    rintro ⟨⟩
  have hinflight : (w.stepStopAll result failure).pc.inflight = [] := by
    simp [stepStopAll, goto, Pc.inflight, hentries]
  refine h.frame ⟨?_, rfl, rfl, rfl, rfl⟩ (.refl _) le_rfl ?_ ?_ ?_ rfl (by rintro cell ⟨⟩)
  · intro u
    rw [hnone]
    exact Std.TreeMap.getElem?_emptyc
  · rw [hinflight, hpc]
    rfl
  · rw [hpc]
    rfl
  · rw [hpc]
    rfl

theorem Registry.works (h : w.Registry) (hsteady : w.Steady) (hworks : w.Works w') :
    w'.Registry := by
  have hplace := hsteady.place
  have hchosen := h.chosen
  cases hworks with
  | refused hpc =>
      rw [hpc] at hplace
      exact h.apart (.of_eq rfl rfl rfl rfl rfl) (.refl _) le_rfl (hpc ▸ ⟨rfl, rfl, rfl, rfl⟩)
        ⟨rfl, rfl, rfl, rfl⟩ nofun
  | started hpc =>
      exact h.apart (.of_eq rfl rfl rfl rfl rfl) (sameTasks_of_eq rfl) le_rfl
        (hpc ▸ ⟨rfl, rfl, rfl, rfl⟩) ⟨rfl, rfl, rfl, rfl⟩ nofun
  | looped hpc hpc' haside hsummary =>
      obtain ⟨⟨ready, hboard⟩, _⟩ := haside.1
      refine h.apart (.of_eq rfl rfl rfl rfl rfl) (sameTasks_of_board hboard) le_rfl hpc.apart.1
        hpc'.apart.1 ?_
      dsimp only
      rw [hpc'.apart.2]
      nofun
  | listed hpc haside =>
      obtain ⟨⟨ready, hboard⟩, _⟩ := haside.1
      exact h.apart (.of_eq rfl rfl rfl rfl rfl) (sameTasks_of_board hboard) le_rfl hpc.apart.1
        ⟨rfl, rfl, rfl, rfl⟩ nofun
  | @scanned site token rest found hpc =>
      rw [hpc] at hplace hchosen
      refine h.apart (.of_eq rfl rfl rfl rfl rfl) (.refl _) le_rfl
        (hpc ▸ ⟨rfl, rfl, rfl, rfl⟩) ⟨rfl, rfl, rfl, rfl⟩ ?_
      intro u hu
      dsimp only [goto, Pc.chosen] at hu
      split_ifs at hu with hrequested
      · rcases List.mem_append.mp hu with hu | hu
        · exact hchosen u hu
        · rw [List.mem_singleton.mp hu]
          obtain ⟨e, he, hflag⟩ := Option.any_eq_true _ _ |>.mp hrequested
          obtain ⟨entry, hentry⟩ := Option.isSome_iff_exists.mp
            (hplace.2.2 token (List.mem_append_right _ List.mem_cons_self))
          refine h.wanted token e entry he hflag hentry ?_
          rw [(hsteady.sound.coherent.holds token entry hentry).returned, hplace.1]
          exact nofun
      · exact hchosen u hu
  | found hpc =>
      rw [hpc] at hchosen
      exact h.apart (.of_eq rfl rfl rfl rfl rfl) (.refl _) le_rfl
        (hpc ▸ ⟨rfl, rfl, rfl, rfl⟩) ⟨rfl, rfl, rfl, rfl⟩ hchosen
  | chosen hpc =>
      rw [hpc] at hchosen
      exact h.apart (.of_eq rfl rfl rfl rfl rfl) (.refl _) le_rfl
        (hpc ▸ ⟨rfl, rfl, rfl, rfl⟩) ⟨rfl, rfl, rfl, rfl⟩ hchosen
  | cleared hpc hpc' =>
      refine h.apart (.of_eq rfl rfl rfl rfl rfl) (.refl _) le_rfl
        (hpc ▸ ⟨rfl, rfl, rfl, rfl⟩) hpc'.apart.1 ?_
      dsimp only [goto]
      rw [hpc'.apart.2]
      nofun
  | took hpc hstep hkeeps hphase =>
      rw [hpc] at hplace
      refine h.apart (.of_eq rfl rfl rfl rfl rfl)
        (sameTasks_of_keeps hsteady.sound.coherent ?_ hkeeps) le_rfl
        (hpc ▸ ⟨rfl, rfl, rfl, rfl⟩) ⟨rfl, rfl, rfl, rfl⟩ nofun
      intro token
      rw [hplace]
      nofun
  | polled hpc hstep hpolled =>
      rw [hpc] at hchosen
      refine h.apart (.of_eq rfl rfl rfl rfl rfl)
        (sameTasks_of_keeps hsteady.sound.coherent (polled_phase_ne hpolled) hpolled.keeps.1)
        le_rfl (hpc ▸ ⟨rfl, rfl, rfl, rfl⟩) (hpc ▸ ⟨rfl, rfl, rfl, rfl⟩) ?_
      dsimp only
      rw [hpc]
      nofun
  | parked hpc hphase =>
      exact h.apart (.of_eq rfl rfl rfl rfl rfl) (.refl _) le_rfl
        (hpc ▸ ⟨rfl, rfl, rfl, rfl⟩) ⟨rfl, rfl, rfl, rfl⟩ nofun
  | ended hpc hphase =>
      exact h.apart (.of_eq rfl rfl rfl rfl rfl) (.refl _) le_rfl
        (hpc ▸ ⟨rfl, rfl, rfl, rfl⟩) ⟨rfl, rfl, rfl, rfl⟩ nofun
  | overflowed hpc hphase hlive hoverflow =>
      exact h.apart (.of_eq rfl rfl rfl rfl rfl) (.refl _) le_rfl
        (hpc ▸ ⟨rfl, rfl, rfl, rfl⟩) ⟨rfl, rfl, rfl, rfl⟩ nofun
  | stopped hpc =>
      exact h.apart (.of_eq rfl rfl rfl rfl rfl) (.refl _) le_rfl hpc.apart.1
        ⟨rfl, rfl, rfl, rfl⟩ nofun
  | failed hpc haside hnext =>
      obtain ⟨⟨ready, hboard⟩, _⟩ := haside.1
      exact h.apart (.of_eq rfl rfl rfl rfl rfl) (sameTasks_of_board hboard) hnext hpc.apart.1
        ⟨rfl, rfl, rfl, rfl⟩ nofun
  | admitted hpc hstep hentry =>
      exact h.admission (hpc ▸ ⟨rfl, rfl, rfl, rfl⟩) ⟨rfl, rfl, rfl, rfl⟩ rfl
  | uncounted hpc hstep hentry =>
      exact h.admission (hpc ▸ ⟨rfl, rfl, rfl, rfl⟩) ⟨rfl, rfl, rfl, rfl⟩ rfl
  | retired hpc hlive hstep => exact h.retired hpc hlive rfl
  | finished hpc => exact h.finished hpc
  | published hpc hsettles => exact h.published hpc
  | drove hpc =>
      exact h.apart (.of_eq rfl rfl rfl rfl rfl) (.refl _) le_rfl
        (hpc ▸ ⟨rfl, rfl, rfl, rfl⟩) ⟨rfl, rfl, rfl, rfl⟩ nofun
  | cleaning hpc hlive =>
      exact h.apart (.of_eq rfl rfl rfl rfl rfl) (.refl _) le_rfl
        (hpc ▸ ⟨rfl, rfl, rfl, rfl⟩) ⟨rfl, rfl, rfl, rfl⟩ nofun
  | cleaned hpc hempty =>
      exact h.apart (.of_eq rfl rfl rfl rfl rfl) (.refl _) le_rfl
        (hpc ▸ ⟨rfl, rfl, rfl, rfl⟩) ⟨rfl, rfl, rfl, rfl⟩ nofun
  | stoppedAll hpc =>
      rw [hpc] at hplace
      exact h.stoppedAll hpc hplace.2
  | resolved hpc =>
      refine h.resolved ?_ ?_ rfl rfl rfl nofun nofun
      · rw [hpc]
        rfl
      · rw [hpc]
        rfl
  | resolvedAll hpc =>
      exact h.apart (.of_eq rfl rfl rfl rfl rfl) (.refl _) le_rfl
        (hpc ▸ ⟨rfl, rfl, rfl, rfl⟩) ⟨rfl, rfl, rfl, rfl⟩ nofun
  | returned hpc hstep =>
      exact h.apart (.of_eq rfl rfl rfl rfl rfl) (sameTasks_of_eq rfl) le_rfl
        (hpc ▸ ⟨rfl, rfl, rfl, rfl⟩) ⟨rfl, rfl, rfl, rfl⟩ nofun

theorem Registry.step {a : Step} (h : w.Registry) (hsteady : w.Steady)
    (hstep : w.step a = some w') : w'.Registry := by
  cases a with
  | work input => exact h.works hsteady (works_of_work hsteady hstep)
  | close id =>
      cases hstep
      exact h.close id
  | outside o =>
      simp only [World.step, Option.map_eq_some_iff] at hstep
      obtain ⟨engine, hengine, rfl⟩ := hstep
      exact h.outside hengine

/-! ## Results that stay -/

/-- A published result, an admission, a ticket and a request are for good. -/
structure Grows (w w' : World) : Prop where
  cells : ∀ (i : ℕ) r, w.cells[i]? = some (some r) → w'.cells[i]? = some (some r)
  owners : w.owners <+: w'.owners
  tickets : w.tickets <:+ w'.tickets

theorem Grows.refl (w : World) : w.Grows w :=
  ⟨fun _ _ hi ↦ hi, List.prefix_rfl, List.suffix_rfl⟩

theorem Grows.trans {w'' : World} (h : w.Grows w') (h' : w'.Grows w'') : w.Grows w'' :=
  ⟨fun i r hi ↦ h'.cells i r (h.cells i r hi), h.owners.trans h'.owners,
    h.tickets.trans h'.tickets⟩

theorem Grows.of_eq (hcells : w'.cells = w.cells) (howners : w'.owners = w.owners)
    (htickets : w'.tickets = w.tickets) : w.Grows w' :=
  ⟨by rw [hcells]; exact fun _ _ hi ↦ hi, by rw [howners], by rw [htickets]⟩

theorem grows_admission {peer : SocketAddr} {ready : Ready} {summary : RunSummary} {pc : Pc} :
    w.Grows { w.admission peer ready with summary, pc } := by
  refine ⟨?_, List.prefix_append _ _, List.suffix_rfl⟩
  intro i r hi
  exact (List.getElem?_append_left (List.getElem?_eq_some_iff.mp hi).1).trans hi

/-- What is on its way is not yet published. -/
theorem Registry.unpublished {cell : ℕ} (h : w.Registry) (hcell : cell ∈ w.pc.inflight) :
    w.cells[cell]? = some none := by
  obtain ⟨token, howner, _⟩ := h.inflight.2 cell hcell
  exact (h.unresolved cell token howner).mpr (Or.inr hcell)

theorem grows_setCell {cell : ℕ} {result : ConnectionCloseResult} {summary : RunSummary} {pc : Pc}
    (h : w.Registry) (hcell : cell ∈ w.pc.inflight) :
    w.Grows { w.setCell (some cell) result with summary, pc } := by
  refine ⟨?_, List.prefix_rfl, List.suffix_rfl⟩
  intro i r hi
  have hne : cell ≠ i := by
    rintro rfl
    rw [h.unpublished hcell] at hi
    cases hi
  exact (List.getElem?_set_ne hne).trans hi

theorem Registry.publish_cell {caller : Caller} {cell : Option ℕ} {p : Progress} (h : w.Registry)
    (hpc : w.pc = .publish caller cell p) : ∃ i, cell = some i ∧ i ∈ w.pc.inflight := by
  cases cell with
  | none =>
      have hpresent := h.present
      rw [hpc] at hpresent
      cases hpresent
  | some i =>
      refine ⟨i, rfl, ?_⟩
      rw [hpc]
      exact List.mem_singleton_self i

theorem grows_of_works (h : w.Registry) (hworks : w.Works w') : w.Grows w' := by
  cases hworks with
  | admitted hpc hstep hentry => exact grows_admission
  | uncounted hpc hstep hentry => exact grows_admission
  | @published caller cell progress summary result hpc hsettles =>
      obtain ⟨i, rfl, hi⟩ := h.publish_cell hpc
      obtain ⟨pc, hresume, _⟩ := resume_eq { w.setCell (some i) caller.closeResult with summary }
        caller result
      rw [hresume]
      exact grows_setCell h hi
  | resolved hpc =>
      refine grows_setCell h ?_
      rw [hpc]
      exact List.mem_cons_self
  | _ => exact .of_eq rfl rfl rfl

theorem grows_of_step {a : Step} (h : w.Registry) (hsteady : w.Steady)
    (hstep : w.step a = some w') : w.Grows w' := by
  cases a with
  | work input => exact grows_of_works h (works_of_work hsteady hstep)
  | close id =>
      cases hstep
      unfold World.close
      split_ifs
      · exact .refl w
      · exact .refl w
      · split
        · exact .refl w
        · exact ⟨fun _ _ hi ↦ hi, List.prefix_rfl, List.suffix_cons _ _⟩
  | outside o =>
      simp only [World.step, Option.map_eq_some_iff] at hstep
      obtain ⟨engine, _, rfl⟩ := hstep
      exact .of_eq rfl rfl rfl

/-! ## The number of retirements by request -/

/-- Cells resolved as retired by request. -/
def granted (w : World) : ℕ := w.cells.count (some .retiredByRequest)

/-- Unless a counter has overflowed, retirements by request are all counted. -/
structure Counted (w : World) : Prop where
  fresh : w.pc.starting = true → w.cells = []
  exact : w.summary.countersComplete = true → w.pc.exhausting = false →
    w.summary.closedByRequest = w.granted

theorem granted_set {cell : ℕ} (result : ConnectionCloseResult)
    (hcell : w.cells[cell]? = some none) :
    (w.cells.set cell (some result)).count (some .retiredByRequest) =
      w.granted + if result = .retiredByRequest then 1 else 0 := by
  obtain ⟨hlt, hnone⟩ := List.getElem?_eq_some_iff.mp hcell
  rw [List.count_set hlt, hnone]
  cases result <;> rfl

theorem SameAccount.closedByRequest_eq {s s' : RunSummary} (h : SameAccount s s') :
    s'.closedByRequest = s.closedByRequest := by
  obtain ⟨_, _, _, _, rfl⟩ := h
  rfl

theorem Loop.counting {pc : Pc} (h : Loop pc) : pc.exhausting = false ∧ pc.starting = false := by
  cases pc <;> first | exact h.elim | exact ⟨rfl, rfl⟩

theorem Counted.of_eq (h : w.Counted) (hpc : w.pc.exhausting = false)
    (hpc' : w'.pc.starting = false) (hcells : w'.cells = w.cells)
    (hcomplete : w'.summary.countersComplete = w.summary.countersComplete)
    (hclosed : w'.summary.closedByRequest = w.summary.closedByRequest) : w'.Counted := by
  refine ⟨fun hsetup ↦ ?_, fun hc _ ↦ ?_⟩
  · rw [hpc'] at hsetup
    cases hsetup
  · rw [hclosed, granted, hcells]
    exact h.exact (hcomplete ▸ hc) hpc

theorem Counted.admission {peer : SocketAddr} {ready : Ready} {summary : RunSummary} {pc : Pc}
    (h : w.Counted) (hpc : w.pc.exhausting = false) (hpc' : pc.starting = false)
    (hcomplete : summary.countersComplete = w.summary.countersComplete)
    (hclosed : summary.closedByRequest = w.summary.closedByRequest) :
    Counted { w.admission peer ready with summary, pc } := by
  refine ⟨fun hsetup ↦ ?_, fun hc _ ↦ ?_⟩
  · rw [hpc'] at hsetup
    cases hsetup
  · have hcells : (w.cells ++ [none]).count (some ConnectionCloseResult.retiredByRequest) =
        w.granted := by simp [granted]
    exact hclosed.trans ((h.exact (hcomplete ▸ hc) hpc).trans hcells.symm)

theorem Counted.published {caller : Caller} {cell : Option ℕ} {p : Progress}
    {summary : RunSummary} {result : Except ReceiverFailure Unit} (h : w.Counted)
    (hregistry : w.Registry) (hpc : w.pc = .publish caller cell p)
    (hsettles : Settles w.summary caller p summary result) :
    ({ w.setCell cell caller.closeResult with summary }.resume caller result).Counted := by
  obtain ⟨i, rfl, hi⟩ := hregistry.publish_cell hpc
  have hset := granted_set caller.closeResult (hregistry.unpublished hi)
  have hbefore : w.pc.exhausting = false := by rw [hpc]; rfl
  have hstarting : ({ w.setCell (some i) caller.closeResult with summary }.resume
      caller result).pc.starting = false := by
    cases caller <;> cases result <;> rfl
  have hresumed : ({ w.setCell (some i) caller.closeResult with summary }.resume
      caller result).summary = summary ∧ ({ w.setCell (some i) caller.closeResult with
        summary }.resume caller result).cells = w.cells.set i (some caller.closeResult) := by
    cases caller <;> cases result <;> exact ⟨rfl, rfl⟩
  refine ⟨fun hsetup ↦ ?_, fun hc hexhausting ↦ ?_⟩
  · rw [hstarting] at hsetup
    cases hsetup
  · rw [hresumed.1] at hc
    rw [hresumed.1, granted, hresumed.2, hset]
    cases hsettles with
    | exact hover =>
        dsimp only [RunSummary.plus] at hc ⊢
        rw [h.exact hc hbefore]
    | incomplete next hcomplete hhanded hlive =>
        rw [hcomplete] at hc
        cases hc
    | exhausted hcaller =>
        obtain ⟨site, tokens, rfl⟩ := hcaller
        cases hexhausting

theorem Counted.works (h : w.Counted) (hregistry : w.Registry) (hworks : w.Works w') :
    w'.Counted := by
  cases hworks with
  | started hpc =>
      have hcells := h.fresh (by rw [hpc]; rfl)
      refine ⟨(by rintro ⟨⟩), fun _ _ ↦ ?_⟩
      simp [granted, hcells]
  | looped hpc hpc' haside hsummary =>
      exact h.of_eq hpc.counting.1 hpc'.counting.2 rfl hsummary.countersComplete_eq
        hsummary.closedByRequest_eq
  | listed hpc haside => exact h.of_eq hpc.counting.1 rfl rfl rfl rfl
  | cleared hpc hpc' => exact h.of_eq (by rw [hpc]; rfl) hpc'.counting.2 rfl rfl rfl
  | polled hpc hstep hpolled => exact h.of_eq (by rw [hpc]; rfl) (by rw [hpc]; rfl) rfl rfl rfl
  | stopped hpc => exact h.of_eq hpc.counting.1 rfl rfl rfl rfl
  | failed hpc haside hnext => exact h.of_eq hpc.counting.1 rfl rfl rfl rfl
  | admitted hpc hstep hentry => exact h.admission (by rw [hpc]; rfl) rfl rfl rfl
  | uncounted hpc hstep hentry => exact h.admission (by rw [hpc]; rfl) rfl rfl rfl
  | published hpc hsettles => exact h.published hregistry hpc hsettles
  | @drove result hpc =>
      refine ⟨(by rintro ⟨⟩), fun hc _ ↦ ?_⟩
      simp only [stepDriven, goto, Bool.and_eq_true, Bool.not_eq_true'] at hc
      refine h.exact hc.1 ?_
      rw [hpc]
      have hresult := hc.2
      cases result with
      | ok cause => rfl
      | error failure => cases failure <;> first | rfl | cases hresult
  | resolved hpc =>
      refine ⟨(by rintro ⟨⟩), fun hc _ ↦ ?_⟩
      have hcell := hregistry.unpublished (by rw [hpc]; exact List.mem_cons_self)
      exact (h.exact hc (by rw [hpc]; rfl)).trans (granted_set .receiverStopped hcell).symm
  | refused hpc => exact h.of_eq (by rw [hpc]; rfl) rfl rfl rfl rfl
  | scanned hpc => exact h.of_eq (by rw [hpc]; rfl) rfl rfl rfl rfl
  | found hpc => exact h.of_eq (by rw [hpc]; rfl) rfl rfl rfl rfl
  | chosen hpc => exact h.of_eq (by rw [hpc]; rfl) rfl rfl rfl rfl
  | took hpc hstep hkeeps hphase => exact h.of_eq (by rw [hpc]; rfl) rfl rfl rfl rfl
  | parked hpc hphase => exact h.of_eq (by rw [hpc]; rfl) rfl rfl rfl rfl
  | ended hpc hphase => exact h.of_eq (by rw [hpc]; rfl) rfl rfl rfl rfl
  | overflowed hpc hphase hlive hoverflow => exact h.of_eq (by rw [hpc]; rfl) rfl rfl rfl rfl
  | retired hpc hlive hstep => exact h.of_eq (by rw [hpc]; rfl) rfl rfl rfl rfl
  | finished hpc => exact h.of_eq (by rw [hpc]; rfl) rfl rfl rfl rfl
  | cleaning hpc hlive => exact h.of_eq (by rw [hpc]; rfl) rfl rfl rfl rfl
  | cleaned hpc hempty => exact h.of_eq (by rw [hpc]; rfl) rfl rfl rfl rfl
  | stoppedAll hpc => exact h.of_eq (by rw [hpc]; rfl) rfl rfl rfl rfl
  | resolvedAll hpc => exact h.of_eq (by rw [hpc]; rfl) rfl rfl rfl rfl
  | returned hpc hstep => exact h.of_eq (by rw [hpc]; rfl) rfl rfl rfl rfl

theorem Counted.step {a : Step} (h : w.Counted) (hregistry : w.Registry) (hsteady : w.Steady)
    (hstep : w.step a = some w') : w'.Counted := by
  cases a with
  | work input => exact h.works hregistry (works_of_work hsteady hstep)
  | close id =>
      cases hstep
      unfold World.close
      split_ifs
      · exact h
      · exact h
      · split
        · exact h
        · exact ⟨h.fresh, h.exact⟩
  | outside o =>
      simp only [World.step, Option.map_eq_some_iff] at hstep
      obtain ⟨engine, _, rfl⟩ := hstep
      exact ⟨h.fresh, h.exact⟩

/-- All invariants of the controls of a receiver. -/
structure Controlled (w : World) : Prop where
  steady : w.Steady
  registry : w.Registry
  counted : w.Counted

theorem controlled_new (settings : Settings) {outside : List ℕ}
    (hfits : outside.sum ≤ settings.capacity.val) : (new settings outside).Controlled where
  steady := steady_new settings hfits
  registry := registry_new settings outside
  counted := ⟨fun _ ↦ rfl, fun _ _ ↦ rfl⟩

theorem Controlled.step {a : Step} (h : w.Controlled) (hstep : w.step a = some w') :
    w'.Controlled where
  steady := h.steady.step hstep
  registry := h.registry.step h.steady hstep
  counted := h.counted.step h.registry h.steady hstep

end World

end Phonowire.Receiver
