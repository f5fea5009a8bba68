import Phonowire.Receiver.Controls
import Phonowire.Receiver.PollTurn

/-!
# The account of a run

Every task that the worker destroys leaves its history in the ghost state.
While no counter has overflowed, the summary and the progress that is about to
be folded in are the totals of these histories, and every task ever admitted is
among them or live. Behind the end of `drive` the tasks that were live then are
the ones not yet destroyed and the ones abandoned since.
-/

namespace Phonowire.Receiver

open AudioSocket

/-! ## Counters that tasks add to -/

inductive Counter where
  | ended
  | abandoned
  | read
  | handedOff
  | records
  | undelivered
  deriving DecidableEq, Repr

def RunSummary.counter (s : RunSummary) : Counter → ℕ
  | .ended => s.ended
  | .abandoned => s.abandoned
  | .read => s.rawBytesRead
  | .handedOff => s.rawBytesHandedOff
  | .records => s.recordsHandedOff
  | .undelivered => s.undeliveredRecords

/-- What a task adds when it is destroyed. -/
def Progress.counter (p : Progress) : Counter → ℕ
  | .ended => p.terminalQueued.toNat
  | .abandoned => (!p.terminalQueued).toNat
  | .read => p.read
  | .handedOff => p.wireQueued
  | .records => p.recordsQueued
  | .undelivered => p.pendingRecord.toNat

theorem RunSummary.counter_plus (s : RunSummary) (p : Progress) (k : Counter) :
    (s.plus p).counter k = s.counter k + p.counter k := by
  cases k <;> rfl

namespace RunSummary

variable {s next : RunSummary} {p : Progress}

/-- A counter to which the merge of `p` adds cannot represent its next value, or
the task met such a counter itself. -/
def Overflows (s : RunSummary) (p : Progress) : Prop :=
  checkedAdd (if p.terminalQueued then s.ended else s.abandoned) 1 = none ∨
    checkedAdd s.rawBytesRead p.read = none ∨
    checkedAdd s.rawBytesHandedOff p.wireQueued = none ∨
    checkedAdd s.recordsHandedOff p.recordsQueued = none ∨
    checkedAdd s.undeliveredRecords p.pendingRecord.toNat = none ∨
    p.counterOverflow = true

/-- A merge adds the whole progress of a task or nothing of it, and adds it
without an error only where nothing overflows. -/
theorem mergeProgress_spec {result : Except ReceiverFailure Unit}
    (h : s.mergeProgress p = some (next, result)) :
    next = s ∧ result = .error .counterExhausted ∨
      next = { s.plus p with countersComplete := s.countersComplete && !p.counterOverflow } ∧
        (result = .ok () → ¬ s.Overflows p) := by
  unfold mergeProgress at h
  cases hsettled : checkedAdd (if p.terminalQueued then s.ended else s.abandoned) 1 with
  | none =>
      simp only [hsettled, Option.some.injEq, Prod.mk.injEq] at h
      exact Or.inl ⟨h.1.symm, h.2.symm⟩
  | some settled =>
      cases hread : checkedAdd s.rawBytesRead p.read with
      | none =>
          simp only [hsettled, hread, Option.some.injEq, Prod.mk.injEq] at h
          exact Or.inl ⟨h.1.symm, h.2.symm⟩
      | some read =>
          cases hhanded : checkedAdd s.rawBytesHandedOff p.wireQueued with
          | none =>
              simp only [hsettled, hread, hhanded, Option.some.injEq, Prod.mk.injEq] at h
              exact Or.inl ⟨h.1.symm, h.2.symm⟩
          | some handed =>
              simp only [hsettled, hread, hhanded] at h
              by_cases hle : read < handed
              · rw [if_pos hle] at h
                cases h
              rw [if_neg hle] at h
              cases hrecords : checkedAdd s.recordsHandedOff p.recordsQueued with
              | none =>
                  simp only [hrecords, Option.some.injEq, Prod.mk.injEq] at h
                  exact Or.inl ⟨h.1.symm, h.2.symm⟩
              | some records =>
                  cases hpending : checkedAdd s.undeliveredRecords p.pendingRecord.toNat with
                  | none =>
                      simp only [hrecords, hpending, Option.some.injEq, Prod.mk.injEq] at h
                      exact Or.inl ⟨h.1.symm, h.2.symm⟩
                  | some pending =>
                      simp only [hrecords, hpending, Option.some.injEq, Prod.mk.injEq] at h
                      right
                      refine ⟨?_, ?_⟩
                      · obtain ⟨_, rfl⟩ := checkedAdd_eq_some_iff.mp hsettled
                        obtain ⟨_, rfl⟩ := checkedAdd_eq_some_iff.mp hread
                        obtain ⟨_, rfl⟩ := checkedAdd_eq_some_iff.mp hhanded
                        obtain ⟨_, rfl⟩ := checkedAdd_eq_some_iff.mp hrecords
                        obtain ⟨_, rfl⟩ := checkedAdd_eq_some_iff.mp hpending
                        rw [← h.1]
                        cases hterminal : p.terminalQueued <;> simp [plus, hterminal]
                      · intro hok
                        have hover : p.counterOverflow = false := by
                          rw [Bool.eq_false_iff]
                          intro hover
                          rw [hok, if_pos hover] at h
                          cases h.2
                        simp [Overflows, hsettled, hread, hhanded, hrecords, hpending, hover]

/-- The summary takes the whole progress of a task or nothing of it. -/
theorem absorb_whole {result : Except ReceiverFailure Unit}
    (h : s.absorb p = some (next, result)) :
    ∃ complete, next = { s with countersComplete := complete } ∨
      next = { s.plus p with countersComplete := complete } := by
  simp only [absorb, Option.bind_eq_bind, Option.bind_eq_some_iff] at h
  obtain ⟨⟨merged, outcome⟩, hmerge, h⟩ := h
  have hmerged : ∃ complete, next = { merged with countersComplete := complete } := by
    cases outcome with
    | ok _ =>
        cases h
        exact ⟨merged.countersComplete, rfl⟩
    | error failure =>
        cases h
        exact ⟨false, rfl⟩
  obtain ⟨complete, rfl⟩ := hmerged
  rcases mergeProgress_spec hmerge with ⟨rfl, _⟩ | ⟨rfl, _⟩
  · exact ⟨complete, Or.inl rfl⟩
  · exact ⟨complete, Or.inr rfl⟩

/-- A merge that meets an overflow reports it and marks the summary. -/
theorem absorb_of_overflows (hs : s.rawBytesHandedOff ≤ s.rawBytesRead)
    (hp : p.wireQueued ≤ p.read) (hover : s.Overflows p) :
    ∃ next, s.absorb p = some (next, .error .counterExhausted) ∧
      next.countersComplete = false := by
  rcases absorb_spec hs hp with ⟨_, habsorb⟩ | ⟨next, habsorb, hcomplete, _⟩
  · simp only [absorb, Option.bind_eq_bind, Option.bind_eq_some_iff] at habsorb
    obtain ⟨⟨merged, outcome⟩, hmerge, h⟩ := habsorb
    cases outcome with
    | ok _ =>
        rcases mergeProgress_spec hmerge with ⟨_, hresult⟩ | ⟨_, hclear⟩
        · cases hresult
        · exact absurd hover (hclear rfl)
    | error failure => simp at h
  · exact ⟨next, habsorb, hcomplete⟩

end RunSummary

/-! ## What a destroyed task adds -/

/-- The task stopped because the channel was disconnected. -/
def Await.refused : Await → Bool
  | .returned (some (_, .disconnected)) => true
  | _ => false

namespace Board.Runs

variable {settings : Settings} {token : Token} {c : Connection}

theorem settled (h : Runs settings token c) : c.Accounted ∧ c.Concluded := by
  have hreachable := h.reachable
  exact ⟨(Connection.accounted_of_reachable hreachable).2,
    (Connection.concluded_of_reachable ((le_max_right _ _).trans settings.fits) hreachable).2⟩

theorem terminal_eq (h : Runs settings token c) :
    c.sent.countP (·.kind.isEnded) = c.task.progress.terminalQueued.toNat := by
  obtain ⟨haccounted, hconcluded⟩ := h.settled
  have hle := hconcluded.endsOnce.countP_le
  rw [haccounted.terminal]
  cases hany : c.sent.any (·.kind.isEnded) with
  | true =>
      obtain ⟨record, hmem, hended⟩ := List.any_eq_true.mp hany
      have hpos : 0 < c.sent.countP (·.kind.isEnded) :=
        List.countP_pos_iff.mpr ⟨record, hmem, hended⟩
      rw [Bool.toNat_true]
      omega
  | false =>
      rw [Bool.toNat_false, List.countP_eq_zero]
      intro record hmem hended
      rw [List.any_eq_false] at hany
      exact hany record hmem hended

/-- A task is abandoned unless it returned behind its terminal record. -/
theorem terminalQueued_iff (h : Runs settings token c) :
    c.task.progress.terminalQueued = true ↔ c.task.await = .returned none := by
  obtain ⟨haccounted, hconcluded⟩ := h.settled
  rw [haccounted.terminal, List.any_eq_true]
  constructor
  · rintro ⟨record, hmem, hended⟩
    by_contra hopen
    rw [hconcluded.quiet hopen record hmem] at hended
    cases hended
  · intro hreturned
    obtain ⟨before, record, hsent, hended, _⟩ := hconcluded.last hreturned
    exact ⟨record, by simp [hsent], hended⟩

theorem abandoned_of_open (h : Runs settings token c) (hopen : ¬ c.task.await.Returned) :
    c.task.progress.counter .abandoned = 1 ∧ c.task.await.refused = false := by
  have hterminal : c.task.progress.terminalQueued = false := by
    rw [Bool.eq_false_iff]
    exact fun hqueued ↦ hopen ⟨none, h.terminalQueued_iff.mp hqueued⟩
  refine ⟨by simp [Progress.counter, hterminal], ?_⟩
  unfold Await.refused
  split
  · next record hat => exact absurd ⟨_, hat⟩ hopen
  · rfl

/-- A task that returned was refused by the channel unless its terminal record
was accepted. -/
theorem abandoned_of_returned (h : Runs settings token c) (hreturned : c.task.await.Returned)
    (hover : c.task.progress.counterOverflow = false) :
    c.task.progress.counter .abandoned = c.task.await.refused.toNat := by
  obtain ⟨failure, hat⟩ := hreturned
  have hterminal := h.terminalQueued_iff
  rw [hat] at hterminal ⊢
  cases failure with
  | none =>
      rw [Progress.counter, hterminal.mpr rfl]
      rfl
  | some failed =>
      obtain ⟨record, failure⟩ := failed
      cases failure with
      | disconnected =>
          have hqueued : c.task.progress.terminalQueued = false := by
            rw [Bool.eq_false_iff]
            exact fun hqueued ↦ (by cases hterminal.mp hqueued)
          rw [Progress.counter, hqueued]
          rfl
      | counterOverflow =>
          rw [Connection.counterOverflow_of_reachable h.reachable hat] at hover
          cases hover

theorem holding_le (h : Runs settings token c) :
    c.task.progress.counter .undelivered ≤ c.task.progress.counter .abandoned := by
  have hterminal := h.terminalQueued_iff
  simp only [Progress.counter]
  rw [h.settled.1.pending]
  cases hqueued : c.task.progress.terminalQueued with
  | true =>
      rw [hterminal.mp hqueued]
      exact le_rfl
  | false => exact Bool.toNat_le _

end Board.Runs

/-! ## The tasks that the worker has destroyed -/

/-- The tasks destroyed so far. -/
def Board.tasks (b : Board) : List Connection := b.departed.toList.map Prod.snd

theorem Board.sum_tasks (b : Board) (f : Connection → ℕ) :
    (b.tasks.map f).sum = Std.TreeMap.total (fun _ c ↦ f c) b.departed := by
  rw [tasks, List.map_map]
  rfl

theorem Board.length_tasks (b : Board) : b.tasks.length = b.departed.size := by
  rw [tasks, List.length_map, Std.TreeMap.length_toList]

theorem Board.mem_tasks {b : Board} {c : Connection} :
    c ∈ b.tasks ↔ ∃ token : Token, b.departed[token]? = some c := by
  rw [tasks, List.mem_map]
  constructor
  · rintro ⟨⟨token, d⟩, hmem, rfl⟩
    exact ⟨token, Std.TreeMap.mem_toList_iff_getElem?_eq_some.mp hmem⟩
  · rintro ⟨token, hat⟩
    exact ⟨(token, c), Std.TreeMap.mem_toList_iff_getElem?_eq_some.mpr hat, rfl⟩

theorem Engine.Keeps.size_eq {s s' : Engine} (h : s.Keeps s') :
    s'.board.live.size = s.board.live.size :=
  Std.TreeMap.size_congr h.live

/-! ## Places of the loop -/

/-- The progress of a destroyed task that is still to be folded in. -/
def Pc.unmerged : Pc → Option Progress
  | .finish _ _ progress => some progress
  | .publish _ _ progress => some progress
  | _ => none

/-- A requested retirement that is still to be counted. -/
def Pc.requesting : Pc → Bool
  | .finish (.requested _ _) _ _ => true
  | .publish (.requested _ _) _ _ => true
  | _ => false

/-- The cleanup behind `drive`, where the live tasks have been counted. -/
def Pc.closing : Pc → Bool
  | .retire (.cleanup _ _) _ => true
  | .finish (.cleanup _ _) _ _ => true
  | .publish (.cleanup _ _) _ _ => true
  | .cleanup _ _ => true
  | .stopAll _ _ => true
  | .publishAll _ _ _ => true
  | .outcome _ _ => true
  | .returned _ => true
  | _ => false

/-- Behind the last poll. -/
def Pc.over : Pc → Bool
  | .driven _ => true
  | pc => pc.closing

namespace World

variable {w w' : World}

/-- No counter has overflowed so far. -/
structure Intact (w : World) : Prop where
  complete : w.summary.countersComplete = true
  exhausting : w.pc.exhausting = false
  unmerged : ∀ p ∈ w.pc.unmerged, p.counterOverflow = false

/-- The account so far. -/
structure Booked (w : World) : Prop where
  merged : ∀ k, w.summary.counter k + w.pc.unmerged.elim 0 (·.counter k) =
    (w.engine.board.tasks.map (·.task.progress.counter k)).sum
  undelivered : w.summary.undeliveredRawBytes + w.summary.rawBytesHandedOff =
    w.summary.rawBytesRead
  accepted : w.summary.accepted = w.engine.board.tasks.length + w.engine.board.live.size
  flawless : ∀ c ∈ w.engine.board.tasks, c.task.progress.counterOverflow = false
  driving : w.pc.closing = false →
    (w.engine.board.tasks.map (·.task.progress.counter .abandoned)).sum =
      w.summary.closedByRequest + w.pc.requesting.toNat +
        (w.engine.board.tasks.map (·.task.await.refused.toNat)).sum
  closing : w.pc.closing = true →
    (w.engine.board.tasks.map (·.task.progress.counter .abandoned)).sum +
        w.engine.board.live.size =
      w.summary.closedByRequest + (w.engine.board.tasks.map (·.task.await.refused.toNat)).sum +
        w.summary.live
  idle : w.pc.over = true → w.engine.board.phase = .idle

/-- Summaries that agree in all that the account speaks of. -/
structure SameTotals (s s' : RunSummary) : Prop where
  counter : ∀ k, s'.counter k = s.counter k
  undelivered : s'.undeliveredRawBytes = s.undeliveredRawBytes
  accepted : s'.accepted = s.accepted
  closedByRequest : s'.closedByRequest = s.closedByRequest
  live : s'.live = s.live

theorem SameTotals.refl (s : RunSummary) : SameTotals s s := ⟨fun _ ↦ rfl, rfl, rfl, rfl, rfl⟩

theorem SameAccount.sameTotals {s s' : RunSummary} (h : SameAccount s s') : SameTotals s s' := by
  obtain ⟨_, _, _, _, rfl⟩ := h
  exact ⟨fun k ↦ (by cases k <;> rfl), rfl, rfl, rfl, rfl⟩

/-- Places that the account does not tell apart. -/
structure SamePlace (pc pc' : Pc) : Prop where
  unmerged : pc'.unmerged = pc.unmerged
  requesting : pc'.requesting = pc.requesting
  closing : pc'.closing = pc.closing

theorem Loop.samePlace {pc pc' : Pc} (h : Loop pc) (hunmerged : pc'.unmerged = none)
    (hrequesting : pc'.requesting = false) (hclosing : pc'.closing = false) :
    SamePlace pc pc' := by
  cases pc <;> first | exact h.elim | exact ⟨hunmerged, hrequesting, hclosing⟩

theorem Loop.account {pc : Pc} (h : Loop pc) :
    pc.unmerged = none ∧ pc.requesting = false ∧ pc.closing = false ∧ pc.over = false := by
  cases pc <;> first | exact h.elim | exact ⟨rfl, rfl, rfl, rfl⟩

/-- A step that destroys no task and admits none. -/
theorem Booked.same (h : w.Booked) (hdeparted : w'.engine.board.departed = w.engine.board.departed)
    (hsize : w'.engine.board.live.size = w.engine.board.live.size)
    (hsummary : SameTotals w.summary w'.summary) (hplace : SamePlace w.pc w'.pc)
    (hidle : w'.pc.over = true → w'.engine.board.phase = .idle) : w'.Booked := by
  have htasks : w'.engine.board.tasks = w.engine.board.tasks := by
    rw [Board.tasks, Board.tasks, hdeparted]
  have hread : w'.summary.rawBytesRead = w.summary.rawBytesRead := hsummary.counter .read
  have hhanded : w'.summary.rawBytesHandedOff = w.summary.rawBytesHandedOff :=
    hsummary.counter .handedOff
  constructor
  case merged =>
    intro k
    rw [hsummary.counter, hplace.unmerged, htasks]
    exact h.merged k
  case undelivered =>
    rw [hsummary.undelivered, hread, hhanded]
    exact h.undelivered
  case accepted =>
    rw [hsummary.accepted, htasks, hsize]
    exact h.accepted
  case flawless =>
    rw [htasks]
    exact h.flawless
  case driving =>
    rw [hplace.closing, htasks, hsummary.closedByRequest, hplace.requesting]
    exact h.driving
  case closing =>
    rw [hplace.closing, htasks, hsummary.closedByRequest, hsummary.live, hsize]
    exact h.closing
  case idle => exact hidle

theorem Booked.fresh (hdeparted : w.engine.board.departed.size = 0)
    (hlive : w.engine.board.live.size = 0) (hunmerged : w.pc.unmerged = none)
    (hrequesting : w.pc.requesting = false) (hsummary : SameTotals {} w.summary)
    (hphase : w.engine.board.phase = .idle) : w.Booked := by
  have htasks : w.engine.board.tasks = [] := by
    rw [← List.length_eq_zero_iff, Board.length_tasks, hdeparted]
  have hread : w.summary.rawBytesRead = 0 := hsummary.counter .read
  have hhanded : w.summary.rawBytesHandedOff = 0 := hsummary.counter .handedOff
  have hundelivered : w.summary.undeliveredRawBytes = 0 := hsummary.undelivered
  have haccepted : w.summary.accepted = 0 := hsummary.accepted
  have hclosed : w.summary.closedByRequest = 0 := hsummary.closedByRequest
  have hzero : w.summary.live = 0 := hsummary.live
  constructor
  case merged =>
    intro k
    rw [hsummary.counter, hunmerged, htasks]
    cases k <;> rfl
  case undelivered => omega
  case accepted => simp [haccepted, htasks, hlive]
  case flawless => simp [htasks]
  case driving => simp [htasks, hclosed, hrequesting]
  case closing => simp [htasks, hclosed, hlive, hzero]
  case idle => exact fun _ ↦ hphase

theorem Booked.admitted {peer : SocketAddr} {ready : Ready} {left : ℕ} {progressed : Bool}
    (h : w.Booked) (hfirm : w.Firm) (hpc : w.pc = .accepting (left + 1) progressed) :
    ({ w.admission peer ready with summary := { w.summary with
      accepted := w.summary.accepted + 1 } }.goto (.accepting left true)).Booked := by
  have hfresh := (hfirm.fresh le_rfl).1
  have hsize : (w.engine.board.live.insert w.next
      ⟨w.engine.board.admitted w.next peer, 0, false⟩).size = w.engine.board.live.size + 1 := by
    rw [Std.TreeMap.size_insert, if_neg]
    rw [← Std.TreeMap.isSome_getElem?_eq_contains, hfresh]
    simp
  have hmerged := h.merged
  have hdriving := h.driving
  rw [hpc] at hmerged hdriving
  constructor
  case merged =>
    intro k
    refine Eq.trans ?_ (hmerged k)
    cases k <;> rfl
  case undelivered => exact h.undelivered
  case accepted =>
    have haccepted := h.accepted
    have hlength : (w.admission peer ready).engine.board.tasks = w.engine.board.tasks := rfl
    dsimp only [goto, World.admission, register] at hlength ⊢
    rw [hsize, hlength]
    omega
  case flawless => exact h.flawless
  case driving => exact hdriving
  case closing => rintro ⟨⟩
  case idle => rintro ⟨⟩

/-- A task is destroyed: its history joins the others. -/
theorem Booked.retired {caller : Caller} {token : Token} {entry : Entry} {ready : Ready}
    {engine : Engine} (h : w.Booked) (hsteady : w.Steady) (hpc : w.pc = .retire caller token)
    (hlive : w.engine.board.live[token]? = some entry)
    (hboard : engine.board = w.engine.board.without token entry ready)
    (hover : entry.connection.task.progress.counterOverflow = false) :
    Booked { w with
      engine
      pc := .finish caller token entry.connection.task.progress } := by
  have hcoherent := hsteady.sound.coherent
  have hplace := hsteady.place
  have hruns := (hcoherent.holds token entry hlive).runs
  have hreturned := (hcoherent.holds token entry hlive).returned
  have hfresh : w.engine.board.departed[token]? = none := by
    by_contra hdeparted
    have hnone := hcoherent.disjoint token (Option.isSome_iff_ne_none.mpr hdeparted)
    rw [hlive] at hnone
    cases hnone
  have hsum (f : Connection → ℕ) : (engine.board.tasks.map f).sum =
      (w.engine.board.tasks.map f).sum + f entry.connection := by
    rw [Board.sum_tasks, Board.sum_tasks, hboard]
    exact Std.TreeMap.total_insert_of_none hfresh entry.connection
  have hlength : engine.board.tasks.length = w.engine.board.tasks.length + 1 := by
    have hone := hsum fun _ ↦ 1
    simpa using hone
  have hsize : engine.board.live.size + 1 = w.engine.board.live.size := by
    rw [hboard]
    exact Std.TreeMap.size_erase_add_one hlive
  have hmerged := h.merged
  have hdriving := h.driving
  have hclosing := h.closing
  have hidle := h.idle
  rw [hpc] at hplace hmerged hdriving hclosing hidle
  constructor
  case merged =>
    intro k
    rw [hsum, ← hmerged k]
    rfl
  case undelivered => exact h.undelivered
  case accepted =>
    have haccepted := h.accepted
    dsimp only
    omega
  case flawless =>
    intro c hc
    obtain ⟨u, hat⟩ := Board.mem_tasks.mp hc
    dsimp only at hat
    rw [hboard, Board.without, Std.TreeMap.getElem?_insert_ite] at hat
    split_ifs at hat with hu
    · cases hat
      exact hover
    · exact h.flawless c (Board.mem_tasks.mpr ⟨u, hat⟩)
  case driving =>
    intro hdrive
    dsimp only
    rw [hsum, hsum]
    cases caller with
    | turn left =>
        have hbefore := hdriving rfl
        have hadds := hruns.abandoned_of_returned (hreturned.mpr hplace.1) hover
        simp only [Pc.requesting, Bool.toNat_false] at hbefore ⊢
        omega
    | requested site tokens =>
        have hbefore := hdriving rfl
        have hopen : ¬ entry.connection.task.await.Returned := by
          intro hended
          cases hplace.1.symm.trans (hreturned.mp hended)
        obtain ⟨hadds, hrefused⟩ := hruns.abandoned_of_open hopen
        simp only [Pc.requesting, Bool.toNat_false, Bool.toNat_true, hrefused] at hbefore ⊢
        omega
    | cleanup result failure => cases hdrive
  case closing =>
    intro hclose
    dsimp only
    rw [hsum, hsum]
    cases caller with
    | turn left => cases hclose
    | requested site tokens => cases hclose
    | cleanup result failure =>
        have hbefore := hclosing rfl
        have hopen : ¬ entry.connection.task.await.Returned := by
          intro hended
          cases (hidle rfl).symm.trans (hreturned.mp hended)
        obtain ⟨hadds, hrefused⟩ := hruns.abandoned_of_open hopen
        simp only [hrefused, Bool.toNat_false]
        omega
  case idle =>
    intro hbehind
    cases caller with
    | turn left => cases hbehind
    | requested site tokens => cases hbehind
    | cleanup result failure =>
        dsimp only
        rw [hboard, Board.without, hidle rfl]
        rfl

/-- The progress of a destroyed task is folded in. -/
theorem Booked.published {caller : Caller} {cell : Option ℕ} {p : Progress} (h : w.Booked)
    (hsteady : w.Steady) (hpc : w.pc = .publish caller cell p) {v : World}
    (hengine : v.engine = w.engine) (hsummary : v.summary = { w.summary.plus p with
      closedByRequest := w.summary.closedByRequest +
        if caller.closeResult = .retiredByRequest then 1 else 0 })
    (hv : v.pc = (w.resume caller (.ok ())).pc) : v.Booked := by
  have hplace := hsteady.place
  have hmerged := h.merged
  have hdriving := h.driving
  have hclosing := h.closing
  have hidle := h.idle
  rw [hpc] at hplace hmerged hdriving hclosing hidle
  have hunmerged : v.pc.unmerged = none ∧ v.pc.requesting = false := by
    rw [hv]
    cases caller <;> exact ⟨rfl, rfl⟩
  constructor
  case merged =>
    intro k
    have hcounter : v.summary.counter k = w.summary.counter k + p.counter k := by
      rw [hsummary, ← RunSummary.counter_plus]
      cases k <;> rfl
    rw [hengine, hunmerged.1, hcounter]
    exact hmerged k
  case undelivered =>
    rw [hsummary]
    have hhanded := hsteady.handed
    have hle := hplace.2
    dsimp only [RunSummary.plus]
    omega
  case accepted =>
    rw [hsummary, hengine]
    exact h.accepted
  case flawless =>
    rw [hengine]
    exact h.flawless
  case driving =>
    rw [hv, hengine, hsummary]
    intro hdrive
    cases caller with
    | turn left => exact hdriving rfl
    | requested site tokens =>
        have hbefore := hdriving rfl
        simp only [Pc.requesting, Bool.toNat_true] at hbefore
        exact hbefore
    | cleanup result failure => cases hdrive
  case closing =>
    rw [hv, hengine, hsummary]
    intro hclose
    cases caller with
    | turn left => cases hclose
    | requested site tokens => cases hclose
    | cleanup result failure => exact hclosing rfl
  case idle =>
    rw [hv, hengine]
    intro hbehind
    cases caller with
    | turn left => cases hbehind
    | requested site tokens => cases hbehind
    | cleanup result failure => exact hidle rfl

/-- The end of `drive` counts the live tasks. -/
theorem Booked.drove {result : DriveResult} (h : w.Booked) (hpc : w.pc = .driven result) :
    (w.stepDriven result).Booked := by
  have hmerged := h.merged
  have hdriving := h.driving
  have hidle := h.idle
  rw [hpc] at hmerged hdriving hidle
  constructor
  case merged =>
    intro k
    refine Eq.trans ?_ (hmerged k)
    cases k <;> rfl
  case undelivered => exact h.undelivered
  case accepted => exact h.accepted
  case flawless => exact h.flawless
  case driving => rintro ⟨⟩
  case closing =>
    intro _
    have hbefore := hdriving rfl
    simp only [Pc.requesting, Bool.toNat_false] at hbefore
    simp only [stepDriven, goto]
    omega
  case idle => exact fun _ ↦ hidle rfl

/-! ## The account along a run -/

structure Audited (w : World) : Prop where
  fresh : w.pc.starting = true → w.engine.board.departed.size = 0 ∧ w.summary = {}
  booked : w.Intact → w.Booked

theorem audited_new (settings : Settings) (outside : List ℕ) :
    (new settings outside).Audited :=
  ⟨fun _ ↦ ⟨rfl, rfl⟩, fun _ ↦ .fresh rfl rfl rfl rfl (.refl _) rfl⟩

theorem Works.not_starting (h : w.Works w') : w'.pc.starting = false := by
  cases h with
  | looped hpc hpc' haside hsummary => exact hpc'.counting.2
  | cleared hpc hpc' => exact hpc'.counting.2
  | polled hpc hstep hpolled =>
      dsimp only
      rw [hpc]
      rfl
  | @published caller cell progress summary result hpc hsettles =>
      cases caller <;> cases result <;> rfl
  | _ => rfl

/-- What was intact before a step: a place without an unmerged task, or with the
same one. -/
theorem Intact.back (h : w'.Intact)
    (hcomplete : w'.summary.countersComplete = w.summary.countersComplete)
    (hexhausting : w.pc.exhausting = false)
    (hunmerged : w.pc.unmerged = none ∨ w.pc.unmerged = w'.pc.unmerged) : w.Intact := by
  refine ⟨hcomplete.symm.trans h.complete, hexhausting, ?_⟩
  intro p hp
  rcases hunmerged with hnone | hsame
  · rw [hnone] at hp
    cases hp
  · rw [hsame] at hp
    exact h.unmerged p hp

/-- A place between two tasks. -/
theorem Booked.steps {pc : Pc} (h : w.Intact → w.Booked) (hpc : w.pc = pc)
    (hexhausting : pc.exhausting = false) (hplace : SamePlace pc w'.pc)
    (hcomplete : w'.summary.countersComplete = w.summary.countersComplete)
    (hdeparted : w'.engine.board.departed = w.engine.board.departed)
    (hsize : w'.engine.board.live.size = w.engine.board.live.size)
    (hsummary : SameTotals w.summary w'.summary)
    (hidle : w.Booked → w'.pc.over = true → w'.engine.board.phase = .idle) (hintact : w'.Intact) :
    w'.Booked := by
  subst hpc
  have hbooked := h (hintact.back hcomplete hexhausting (Or.inr hplace.unmerged.symm))
  exact hbooked.same hdeparted hsize hsummary hplace (hidle hbooked)

theorem Audited.works (h : w.Audited) (hsteady : w.Steady) (hworks : w.Works w') :
    w'.Audited := by
  have hstarting := hworks.not_starting
  refine ⟨fun hsetup ↦ (by cases hstarting.symm.trans hsetup), fun hintact ↦ ?_⟩
  have hbooked := h.booked
  have hplace := hsteady.place
  have hrefl := SameTotals.refl w.summary
  cases hworks with
  | refused hpc =>
      rw [hpc] at hplace
      obtain ⟨hdeparted, hsummary⟩ := h.fresh (by rw [hpc]; rfl)
      exact .fresh hdeparted hplace.2.size_eq rfl rfl (hsummary ▸ .refl _) hplace.1
  | started hpc =>
      rw [hpc] at hplace
      obtain ⟨hdeparted, _⟩ := h.fresh (by rw [hpc]; rfl)
      exact .fresh hdeparted hplace.2.size_eq rfl rfl
        ⟨fun k ↦ (by cases k <;> rfl), rfl, rfl, rfl, rfl⟩ hplace.1
  | looped hpc hpc' haside hsummary =>
      obtain ⟨hunmerged, hrequesting, hclosing, hover⟩ := hpc'.account
      exact Booked.steps hbooked rfl hpc.counting.1 (hpc.samePlace hunmerged hrequesting hclosing)
        hsummary.countersComplete_eq haside.1.keeps.departed haside.1.keeps.size_eq
        hsummary.sameTotals (fun _ hbehind ↦ (by cases hover.symm.trans hbehind)) hintact
  | listed hpc haside =>
      exact Booked.steps hbooked rfl hpc.counting.1 (hpc.samePlace rfl rfl rfl) rfl
        haside.1.keeps.departed haside.1.keeps.size_eq hrefl (fun _ ↦ (by rintro ⟨⟩)) hintact
  | scanned hpc =>
      exact Booked.steps hbooked hpc rfl ⟨rfl, rfl, rfl⟩ rfl rfl rfl hrefl
        (fun _ ↦ (by rintro ⟨⟩)) hintact
  | found hpc =>
      exact Booked.steps hbooked hpc rfl ⟨rfl, rfl, rfl⟩ rfl rfl rfl hrefl
        (fun _ ↦ (by rintro ⟨⟩)) hintact
  | chosen hpc =>
      exact Booked.steps hbooked hpc rfl ⟨rfl, rfl, rfl⟩ rfl rfl rfl hrefl
        (fun _ ↦ (by rintro ⟨⟩)) hintact
  | cleared hpc hpc' =>
      obtain ⟨hunmerged, hrequesting, hclosing, hover⟩ := hpc'.account
      exact Booked.steps hbooked hpc rfl ⟨hunmerged, hrequesting, hclosing⟩ rfl rfl rfl hrefl
        (fun _ hbehind ↦ (by cases hover.symm.trans hbehind)) hintact
  | took hpc hstep hkeeps hphase =>
      exact Booked.steps hbooked hpc rfl ⟨rfl, rfl, rfl⟩ rfl hkeeps.departed hkeeps.size_eq hrefl
        (fun _ ↦ (by rintro ⟨⟩)) hintact
  | polled hpc hstep hpolled =>
      refine Booked.steps hbooked hpc rfl ?_ rfl hpolled.keeps.1.departed hpolled.keeps.1.size_eq
        hrefl (fun _ ↦ ?_) hintact
      · dsimp only
        rw [hpc]
        exact ⟨rfl, rfl, rfl⟩
      · dsimp only
        rw [hpc]
        rintro ⟨⟩
  | parked hpc hphase =>
      exact Booked.steps hbooked hpc rfl ⟨rfl, rfl, rfl⟩ rfl rfl rfl hrefl
        (fun _ ↦ (by rintro ⟨⟩)) hintact
  | ended hpc hphase =>
      exact Booked.steps hbooked hpc rfl ⟨rfl, rfl, rfl⟩ rfl rfl rfl hrefl
        (fun _ ↦ (by rintro ⟨⟩)) hintact
  | overflowed hpc hphase hlive hoverflow => cases hintact.exhausting
  | stopped hpc =>
      exact Booked.steps hbooked rfl hpc.counting.1 (hpc.samePlace rfl rfl rfl) rfl rfl rfl hrefl
        (fun _ _ ↦ (Loop.fits hpc).mp hplace) hintact
  | failed hpc haside hnext =>
      refine Booked.steps hbooked rfl hpc.counting.1 (hpc.samePlace rfl rfl rfl) rfl
        haside.1.keeps.departed haside.1.keeps.size_eq hrefl (fun _ _ ↦ ?_) hintact
      exact haside.1.phase_eq.trans ((Loop.fits hpc).mp hplace)
  | admitted hpc hstep hentry =>
      have hbefore : w.Intact :=
        hintact.back rfl (by rw [hpc]; rfl) (Or.inl (by rw [hpc]; rfl))
      exact (hbooked hbefore).admitted hsteady.toFirm hpc
  | uncounted hpc hstep hentry => cases hintact.exhausting
  | retired hpc hlive hstep =>
      have hbefore : w.Intact :=
        hintact.back rfl (by rw [hpc]; rfl) (Or.inl (by rw [hpc]; rfl))
      exact (hbooked hbefore).retired hsteady hpc hlive rfl (hintact.unmerged _ rfl)
  | @finished caller token progress hpc =>
      refine Booked.steps hbooked hpc rfl ⟨rfl, ?_, ?_⟩ rfl rfl rfl hrefl
        (fun hbefore hbehind ↦ hbefore.idle ?_) hintact
      · cases caller <;> rfl
      · cases caller <;> rfl
      · rw [hpc]
        cases caller <;> exact hbehind
  | @published caller cell progress summary result hpc hsettles =>
      have hresumed : ({ w.setCell cell caller.closeResult with summary }.resume
            caller result).summary = summary ∧
          ({ w.setCell cell caller.closeResult with summary }.resume caller result).engine =
            w.engine ∧
          ({ w.setCell cell caller.closeResult with summary }.resume caller result).pc =
            (w.resume caller result).pc := by
        cases cell <;> cases caller <;> cases result <;> exact ⟨rfl, rfl, rfl⟩
      have hcomplete := hintact.complete
      have hexhausting := hintact.exhausting
      rw [hresumed.1] at hcomplete
      rw [hresumed.2.2] at hexhausting
      cases hsettles with
      | exact hover =>
          have hbefore : w.Intact := by
            refine ⟨hcomplete, by rw [hpc]; rfl, ?_⟩
            rw [hpc]
            rintro p ⟨⟩
            exact hover
          exact (hbooked hbefore).published hsteady hpc hresumed.2.1 hresumed.1 hresumed.2.2
      | incomplete next hincomplete hhanded hlive => cases hincomplete.symm.trans hcomplete
      | exhausted hcaller =>
          obtain ⟨site, tokens, rfl⟩ := hcaller
          cases hexhausting
  | @drove result hpc =>
      have hcomplete := hintact.complete
      simp only [stepDriven, goto, Bool.and_eq_true, Bool.not_eq_true'] at hcomplete
      have hbefore : w.Intact := by
        refine ⟨hcomplete.1, ?_, ?_⟩
        · rw [hpc]
          have hresult := hcomplete.2
          cases result with
          | ok cause => rfl
          | error failure => cases failure <;> first | rfl | cases hresult
        · rw [hpc]
          rintro p ⟨⟩
      exact (hbooked hbefore).drove hpc
  | cleaning hpc hlive =>
      exact Booked.steps hbooked hpc rfl ⟨rfl, rfl, rfl⟩ rfl rfl rfl hrefl
        (fun hbefore _ ↦ hbefore.idle (by rw [hpc]; rfl)) hintact
  | cleaned hpc hempty =>
      exact Booked.steps hbooked hpc rfl ⟨rfl, rfl, rfl⟩ rfl rfl rfl hrefl
        (fun hbefore _ ↦ hbefore.idle (by rw [hpc]; rfl)) hintact
  | stoppedAll hpc =>
      exact Booked.steps hbooked hpc rfl ⟨rfl, rfl, rfl⟩ rfl rfl rfl hrefl
        (fun hbefore _ ↦ hbefore.idle (by rw [hpc]; rfl)) hintact
  | resolved hpc =>
      exact Booked.steps hbooked hpc rfl ⟨rfl, rfl, rfl⟩ rfl rfl rfl hrefl
        (fun hbefore _ ↦ hbefore.idle (by rw [hpc]; rfl)) hintact
  | resolvedAll hpc =>
      exact Booked.steps hbooked hpc rfl ⟨rfl, rfl, rfl⟩ rfl rfl rfl hrefl
        (fun hbefore _ ↦ hbefore.idle (by rw [hpc]; rfl)) hintact
  | returned hpc hstep =>
      exact Booked.steps hbooked hpc rfl ⟨rfl, rfl, rfl⟩ rfl rfl rfl
        ⟨fun k ↦ (by cases k <;> rfl), rfl, rfl, rfl, rfl⟩
        (fun hbefore _ ↦ hbefore.idle (by rw [hpc]; rfl)) hintact

theorem Audited.step {a : Step} (h : w.Audited) (hsteady : w.Steady) (hstep : w.step a = some w') :
    w'.Audited := by
  by_cases ha : ∃ input, a = .work input
  · obtain ⟨input, rfl⟩ := ha
    exact h.works hsteady (works_of_work hsteady hstep)
  · have hapart := apart_of_step (fun input heq ↦ ha ⟨input, heq⟩) hstep
    have hkeeps := hapart.engine.keeps
    refine ⟨?_, fun hintact ↦ ?_⟩
    · rw [hapart.pc, hkeeps.departed, hapart.summary]
      exact h.fresh
    · obtain ⟨hcomplete, hexhausting, hunmerged⟩ := hintact
      rw [hapart.summary] at hcomplete
      rw [hapart.pc] at hexhausting hunmerged
      have hbooked := h.booked ⟨hcomplete, hexhausting, hunmerged⟩
      refine hbooked.same hkeeps.departed hkeeps.size_eq (hapart.summary ▸ .refl _)
        (hapart.pc ▸ ⟨rfl, rfl, rfl⟩) ?_
      rw [hapart.pc, hapart.engine.phase_eq]
      exact hbooked.idle

theorem audited_of_reachable {settings : Settings} {outside : List ℕ}
    (hfits : outside.sum ≤ settings.capacity.val)
    (h : Machine.Reachable World.step (new settings outside) w) : w.Audited := by
  refine (h.invariant (I := fun w ↦ w.Steady ∧ w.Audited)
    ⟨steady_new settings hfits, audited_new settings outside⟩ ?_).2
  rintro u a v ⟨hu, haudited⟩ hstep
  exact ⟨hu.step hstep, haudited.step hu hstep⟩

end World

end Phonowire.Receiver
