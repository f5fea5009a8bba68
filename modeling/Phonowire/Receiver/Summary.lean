import Phonowire.Receiver.Connection

/-!
# Outcomes of one worker

The summary of a run, and the fold of a retired task's progress into it. A
counter that cannot represent its next value ends the run; `none` is the failed
expectation that handed-off bytes never exceed observed ones.
-/

namespace Phonowire.Receiver

inductive StopCause where
  | requested
  | consumerDisconnected
  deriving DecidableEq, Repr

inductive ReceiverFailure where
  | io (error : IoError)
  | budgetTooSmall (error : BudgetError)
  | instanceExhausted
  | tokenExhausted
  | budgetAlreadySubscribed
  | counterExhausted
  deriving DecidableEq, Repr

inductive ConnectionCloseResult where
  | retiredByRequest
  | connectionEnded
  | receiverStopped
  deriving DecidableEq, Repr

inductive ConnectionCloseError where
  | unknownOrStale
  | receiverStopping
  deriving DecidableEq, Repr

structure RunSummary where
  transientAcceptErrors : ℕ := 0
  resourcePauseEntries : ℕ := 0
  retryQuotaBackoffs : ℕ := 0
  accepted : ℕ := 0
  refused : ℕ := 0
  ended : ℕ := 0
  abandoned : ℕ := 0
  closedByRequest : ℕ := 0
  live : ℕ := 0
  rawBytesRead : ℕ := 0
  rawBytesHandedOff : ℕ := 0
  undeliveredRawBytes : ℕ := 0
  recordsHandedOff : ℕ := 0
  undeliveredRecords : ℕ := 0
  retainedOutputBytes : ℕ := 0
  fixedBufferCapacity : ℕ := 0
  stoppedBy : Option StopCause := none
  countersComplete : Bool := true
  deriving DecidableEq, Repr

namespace RunSummary

def mergeProgress (s : RunSummary) (p : Progress) :
    Option (RunSummary × Except ReceiverFailure Unit) :=
  let exhausted := some (s, .error .counterExhausted)
  match checkedAdd (if p.terminalQueued then s.ended else s.abandoned) 1 with
  | none => exhausted
  | some settled =>
      match checkedAdd s.rawBytesRead p.read with
      | none => exhausted
      | some read =>
          match checkedAdd s.rawBytesHandedOff p.wireQueued with
          | none => exhausted
          | some handed =>
              if read < handed then none
              else
                match checkedAdd s.recordsHandedOff p.recordsQueued with
                | none => exhausted
                | some records =>
                    match checkedAdd s.undeliveredRecords p.pendingRecord.toNat with
                    | none => exhausted
                    | some undelivered =>
                        some ({ s with
                          ended := if p.terminalQueued then settled else s.ended
                          abandoned := if p.terminalQueued then s.abandoned else settled
                          rawBytesRead := read
                          rawBytesHandedOff := handed
                          undeliveredRawBytes := read - handed
                          recordsHandedOff := records
                          undeliveredRecords := undelivered
                          countersComplete := s.countersComplete && !p.counterOverflow },
                          if p.counterOverflow then .error .counterExhausted else .ok ())

def absorb (s : RunSummary) (p : Progress) : Option (RunSummary × Except ReceiverFailure Unit) := do
  let (next, result) ← s.mergeProgress p
  match result with
  | .ok () => some (next, .ok ())
  | .error e => some ({ next with countersComplete := false }, .error e)

/-- The account of one more retired task. -/
def plus (s : RunSummary) (p : Progress) : RunSummary :=
  { s with
    ended := s.ended + p.terminalQueued.toNat
    abandoned := s.abandoned + (!p.terminalQueued).toNat
    rawBytesRead := s.rawBytesRead + p.read
    rawBytesHandedOff := s.rawBytesHandedOff + p.wireQueued
    undeliveredRawBytes := s.rawBytesRead + p.read - (s.rawBytesHandedOff + p.wireQueued)
    recordsHandedOff := s.recordsHandedOff + p.recordsQueued
    undeliveredRecords := s.undeliveredRecords + p.pendingRecord.toNat }

/-- Absorbing a task either adds its progress exactly or reports a counter and
marks the summary incomplete. It never panics. -/
theorem absorb_spec {s : RunSummary} {p : Progress} (hs : s.rawBytesHandedOff ≤ s.rawBytesRead)
    (hp : p.wireQueued ≤ p.read) :
    (p.counterOverflow = false ∧ s.absorb p = some (s.plus p, .ok ())) ∨
      ∃ next, s.absorb p = some (next, .error .counterExhausted) ∧
        next.countersComplete = false ∧ next.rawBytesHandedOff ≤ next.rawBytesRead ∧
        next.live = s.live := by
  have hexhausted (h : s.mergeProgress p = some (s, .error .counterExhausted)) :
      ∃ next, s.absorb p = some (next, .error .counterExhausted) ∧
        next.countersComplete = false ∧ next.rawBytesHandedOff ≤ next.rawBytesRead ∧
        next.live = s.live :=
    ⟨{ s with countersComplete := false }, by simp [absorb, h], rfl, hs, rfl⟩
  cases hsettled : checkedAdd (if p.terminalQueued then s.ended else s.abandoned) 1 with
  | none => exact Or.inr (hexhausted (by simp [mergeProgress, hsettled]))
  | some settled =>
      cases hread : checkedAdd s.rawBytesRead p.read with
      | none => exact Or.inr (hexhausted (by simp [mergeProgress, hsettled, hread]))
      | some read =>
          cases hhanded : checkedAdd s.rawBytesHandedOff p.wireQueued with
          | none => exact Or.inr (hexhausted (by simp [mergeProgress, hsettled, hread, hhanded]))
          | some handed =>
              obtain ⟨_, rfl⟩ := checkedAdd_eq_some_iff.mp hread
              obtain ⟨_, rfl⟩ := checkedAdd_eq_some_iff.mp hhanded
              obtain ⟨_, rfl⟩ := checkedAdd_eq_some_iff.mp hsettled
              have hle : ¬ s.rawBytesRead + p.read < s.rawBytesHandedOff + p.wireQueued := by omega
              cases hrecords : checkedAdd s.recordsHandedOff p.recordsQueued with
              | none =>
                  exact Or.inr (hexhausted
                    (by simp [mergeProgress, hsettled, hread, hhanded, hle, hrecords]))
              | some records =>
                  obtain ⟨_, rfl⟩ := checkedAdd_eq_some_iff.mp hrecords
                  cases hpending : checkedAdd s.undeliveredRecords p.pendingRecord.toNat with
                  | none =>
                      exact Or.inr (hexhausted (by
                        simp [mergeProgress, hsettled, hread, hhanded, hle, hrecords, hpending]))
                  | some undelivered =>
                      obtain ⟨_, rfl⟩ := checkedAdd_eq_some_iff.mp hpending
                      cases hover : p.counterOverflow with
                      | false =>
                          left
                          refine ⟨rfl, ?_⟩
                          have hmerge : s.mergeProgress p = some (s.plus p, .ok ()) := by
                            simp only [mergeProgress, hsettled, hread, hhanded, if_neg hle,
                              hrecords, hpending, hover, plus]
                            cases p.terminalQueued <;> simp
                          simp [absorb, hmerge]
                      | true =>
                          right
                          have hmerge : s.mergeProgress p =
                              some ({ s.plus p with countersComplete := false },
                                .error .counterExhausted) := by
                            simp only [mergeProgress, hsettled, hread, hhanded, if_neg hle,
                              hrecords, hpending, hover, plus]
                            cases p.terminalQueued <;> simp
                          exact ⟨{ s.plus p with countersComplete := false },
                            by simp [absorb, hmerge], rfl, Nat.le_of_not_lt hle, rfl⟩

end RunSummary

end Phonowire.Receiver
