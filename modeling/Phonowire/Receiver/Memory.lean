import Phonowire.Library.Machine
import Phonowire.Library.Totals

/-!
# Accounting for retained output bytes

Every retained payload is charged to one shared budget and, when a receiver
tracks it, to that receiver's per-connection account. The two accounts have
separate locks and are updated in opposite orders: a copy reserves first and
tracks second, a drop untracks first and releases second.

`Account` is the state any number of threads share at the granularity of those
critical sections. Each charge in flight carries the stage its owner has
reached, so an interleaving is a list of actions. An `expect` that fires and an
underflow are the outcome `panicked`.
-/

namespace Phonowire.Receiver

def usizeMax : ℕ := 2 ^ 64 - 1

/-- `NonZeroUsize`. -/
structure NonZeroUsize where
  val : ℕ
  pos : 0 < val
  le_max : val ≤ usizeMax
  deriving DecidableEq

inductive BudgetError where
  | tooLarge (required capacity : ℕ)
  | full (required available : ℕ)
  deriving DecidableEq, Repr

/-! ## The shared budget -/

structure ByteBudget where
  capacity : NonZeroUsize
  used : ℕ
  subscribed : Bool

namespace ByteBudget

def new (capacity : NonZeroUsize) : ByteBudget := ⟨capacity, 0, false⟩

/-- The critical section of `reserve`. The subtraction panics when the account
exceeds its capacity, the addition when it leaves `usize`. -/
def reserve (b : ByteBudget) (required : ℕ) : Option (Except BudgetError ByteBudget) :=
  if b.capacity.val < b.used then none
  else if b.capacity.val - b.used < required then
    some (.error (.full required (b.capacity.val - b.used)))
  else if usizeMax < b.used + required then none
  else some (.ok { b with used := b.used + required })

/-- `try_copy_tracked` up to the end of `reserve`. -/
def tryReserve (b : ByteBudget) (required : ℕ) : Option (Except BudgetError ByteBudget) :=
  if b.capacity.val < required then some (.error (.tooLarge required b.capacity.val))
  else b.reserve required

/-- The critical section of `release`, with whether a subscriber is notified
after it. -/
def release (b : ByteBudget) (released : ℕ) : Option (ByteBudget × Bool) :=
  if released = 0 then some (b, false)
  else if b.used < released then none
  else some ({ b with used := b.used - released }, b.subscribed)

theorem reserve_of_le {b : ByteBudget} {required : ℕ} (hused : b.used ≤ b.capacity.val)
    (hfit : required ≤ b.capacity.val - b.used) :
    b.reserve required = some (.ok { b with used := b.used + required }) := by
  have hmax := b.capacity.le_max
  rw [reserve, if_neg (by omega), if_neg (by omega), if_neg (by omega)]

theorem reserve_of_lt {b : ByteBudget} {required : ℕ} (hused : b.used ≤ b.capacity.val)
    (hfull : b.capacity.val - b.used < required) :
    b.reserve required = some (.error (.full required (b.capacity.val - b.used))) := by
  rw [reserve, if_neg (by omega), if_pos hfull]

theorem release_of_le {b : ByteBudget} {released : ℕ} (h : released ≤ b.used) :
    b.release released =
      some ({ b with used := b.used - released }, decide (released ≠ 0) && b.subscribed) := by
  unfold release
  by_cases hzero : released = 0
  · simp [hzero]
  · rw [if_neg hzero, if_neg (by omega)]
    simp [hzero]

end ByteBudget

/-! ## Per-connection retention -/

/-- The map of a `RetentionTracker`, one for each receiver. -/
structure RetentionTracker (ι : Type) where
  entries : ι → Option ℕ

namespace RetentionTracker

variable {ι : Type} [DecidableEq ι]

def new : RetentionTracker ι := ⟨fun _ ↦ none⟩

/-- Insert, overwrite or remove the entry of `id`. -/
def set (t : RetentionTracker ι) (id : ι) (entry : Option ℕ) : RetentionTracker ι :=
  ⟨Function.update t.entries id entry⟩

def used (t : RetentionTracker ι) (id : ι) : ℕ := (t.entries id).getD 0

def add (t : RetentionTracker ι) (id : ι) (bytes : ℕ) : Option (RetentionTracker ι) :=
  if bytes = 0 then some t
  else if usizeMax < t.used id + bytes then none
  else some (t.set id (some (t.used id + bytes)))

def release (t : RetentionTracker ι) (id : ι) (bytes : ℕ) : Option (RetentionTracker ι) :=
  if bytes = 0 then some t
  else
    match t.entries id with
    | none => none
    | some current =>
        if current < bytes then none
        else if current - bytes = 0 then some (t.set id none)
        else some (t.set id (some (current - bytes)))

/-- No entry is kept at zero. -/
def Tight (t : RetentionTracker ι) : Prop := ∀ id, t.entries id ≠ some 0

omit [DecidableEq ι] in
theorem Tight.isSome_iff {t : RetentionTracker ι} (ht : t.Tight) (id : ι) :
    (t.entries id).isSome ↔ 0 < t.used id := by
  have hid := ht id
  unfold used
  cases hentry : t.entries id with
  | none => simp
  | some current =>
      rw [hentry] at hid
      simpa [Nat.pos_iff_ne_zero] using hid

theorem used_set (t : RetentionTracker ι) (id other : ι) (entry : Option ℕ) :
    (t.set id entry).used other = if other = id then entry.getD 0 else t.used other := by
  by_cases hid : other = id
  · subst hid
    simp [used, set]
  · simp [used, set, hid]

theorem Tight.set {t : RetentionTracker ι} (ht : t.Tight) (id : ι) {entry : Option ℕ}
    (hentry : entry ≠ some 0) : (t.set id entry).Tight := by
  intro other
  by_cases hid : other = id
  · subst hid
    simpa [RetentionTracker.set] using hentry
  · simpa [RetentionTracker.set, hid] using ht other

theorem add_spec {t : RetentionTracker ι} {id : ι} {bytes : ℕ} (ht : t.Tight)
    (hmax : t.used id + bytes ≤ usizeMax) :
    ∃ next, t.add id bytes = some next ∧ next.Tight ∧
      ∀ other, next.used other = t.used other + if other = id then bytes else 0 := by
  by_cases hzero : bytes = 0
  · exact ⟨t, by simp [add, hzero], ht, by simp [hzero]⟩
  · refine ⟨t.set id (some (t.used id + bytes)), ?_, ht.set id (by simp [hzero]), ?_⟩
    · rw [add, if_neg hzero, if_neg (by omega)]
    · intro other
      rw [used_set]
      by_cases hid : other = id
      · simp [hid]
      · simp [hid]

theorem release_spec {t : RetentionTracker ι} {id : ι} {bytes : ℕ} (ht : t.Tight)
    (hle : bytes ≤ t.used id) :
    ∃ next, t.release id bytes = some next ∧ next.Tight ∧
      ∀ other, t.used other = next.used other + if other = id then bytes else 0 := by
  by_cases hzero : bytes = 0
  · exact ⟨t, by simp [release, hzero], ht, by simp [hzero]⟩
  · cases hentry : t.entries id with
    | none => simp [used, hentry, hzero] at hle
    | some current =>
        have hcurrent : t.used id = current := by simp [used, hentry]
        have hused : ∀ entry : Option ℕ, entry.getD 0 = current - bytes → ∀ other,
            t.used other = (t.set id entry).used other + if other = id then bytes else 0 := by
          intro entry hget other
          rw [used_set]
          by_cases hid : other = id
          · subst hid
            rw [if_pos rfl, if_pos rfl, hget]
            omega
          · simp [hid]
        by_cases hgone : current - bytes = 0
        · refine ⟨t.set id none, ?_, ht.set id (by simp), hused none hgone.symm⟩
          simp only [release, hentry, if_neg hzero, if_pos hgone, ite_eq_right_iff]
          omega
        · refine ⟨t.set id (some (current - bytes)), ?_, ht.set id (by simpa using hgone),
            hused (some _) rfl⟩
          simp only [release, hentry, if_neg hzero, if_neg hgone, ite_eq_right_iff]
          omega

end RetentionTracker

/-! ## Charges of many owners -/

/-- How far the owner of a charge has come: reserved but not yet tracked,
owned, or already untracked by its drop. -/
inductive Stage where
  | reserved
  | owned
  | untracked
  deriving DecidableEq, Repr

structure Charge (τ ι : Type) where
  bytes : ℕ
  retention : Option (τ × ι)
  stage : Stage

/-- Bytes of the charge that tracker `key.1` counts for id `key.2`. -/
def Charge.trackedBy {τ ι : Type} [DecidableEq τ] [DecidableEq ι] (c : Charge τ ι)
    (key : τ × ι) : ℕ :=
  if c.stage = .owned ∧ c.retention = some key then c.bytes else 0

structure Account (τ ι : Type) where
  budget : ByteBudget
  trackers : τ → RetentionTracker ι
  charges : List (Charge τ ι)

/-- One critical section of one thread. `track`, `untrack` and `release` name a
charge by its place in the list. -/
inductive Action (τ ι : Type) where
  | copy (bytes : ℕ) (retention : Option (τ × ι))
  | track (index : ℕ)
  | untrack (index : ℕ)
  | release (index : ℕ)

inductive Outcome (σ : Type) where
  | done (next : σ)
  | refused (error : BudgetError) (next : σ)
  | panicked
  | disabled

namespace Account

variable {τ ι : Type} [DecidableEq τ] [DecidableEq ι]

def new (capacity : NonZeroUsize) : Account τ ι := ⟨.new capacity, fun _ ↦ .new, []⟩

/-- `tracker.add` after a reservation. -/
def track (s : Account τ ι) (c : Charge τ ι) : Option (τ → RetentionTracker ι) :=
  match c.retention with
  | none => some s.trackers
  | some (t, id) => ((s.trackers t).add id c.bytes).map (Function.update s.trackers t)

/-- `tracker.release` at the start of a drop. -/
def untrack (s : Account τ ι) (c : Charge τ ι) : Option (τ → RetentionTracker ι) :=
  match c.retention with
  | none => some s.trackers
  | some (t, id) => ((s.trackers t).release id c.bytes).map (Function.update s.trackers t)

def act (s : Account τ ι) : Action τ ι → Outcome (Account τ ι)
  | .copy bytes retention =>
      match s.budget.tryReserve bytes with
      | none => .panicked
      | some (.error e) => .refused e s
      | some (.ok budget) =>
          .done { s with budget, charges := ⟨bytes, retention, .reserved⟩ :: s.charges }
  | .track index =>
      match s.charges[index]? with
      | some c =>
          if c.stage = .reserved then
            match s.track c with
            | none => .panicked
            | some trackers =>
                .done { s with trackers, charges := s.charges.set index { c with stage := .owned } }
          else .disabled
      | none => .disabled
  | .untrack index =>
      match s.charges[index]? with
      | some c =>
          if c.stage = .owned then
            match s.untrack c with
            | none => .panicked
            | some trackers =>
                .done { s with trackers,
                               charges := s.charges.set index { c with stage := .untracked } }
          else .disabled
      | none => .disabled
  | .release index =>
      match s.charges[index]? with
      | some c =>
          if c.stage = .untracked then
            match s.budget.release c.bytes with
            | none => .panicked
            | some (budget, _) => .done { s with budget, charges := s.charges.eraseIdx index }
          else .disabled
      | none => .disabled

def step (s : Account τ ι) (a : Action τ ι) : Option (Account τ ι) :=
  match s.act a with
  | .done next | .refused _ next => some next
  | .panicked | .disabled => none

/-! ## The two accounts agree with the charges in flight -/

/-- The accounting invariant, true between any two critical sections. -/
structure Exact (s : Account τ ι) : Prop where
  used : s.budget.used = (s.charges.map Charge.bytes).sum
  le_capacity : s.budget.used ≤ s.budget.capacity.val
  tight : ∀ t, (s.trackers t).Tight
  tracked : ∀ t id,
    (s.trackers t).used id = (s.charges.map fun c ↦ c.trackedBy (t, id)).sum

theorem exact_new (capacity : NonZeroUsize) : (new capacity : Account τ ι).Exact where
  used := rfl
  le_capacity := Nat.zero_le _
  tight := by simp [new, RetentionTracker.new, RetentionTracker.Tight]
  tracked := by simp [new, RetentionTracker.new, RetentionTracker.used]

theorem sum_trackedBy_le (c : Charge τ ι) (keys : Finset (τ × ι)) :
    ∑ key ∈ keys, c.trackedBy key ≤ c.bytes := by
  unfold Charge.trackedBy
  rw [← Finset.sum_filter]
  calc
    ∑ _key ∈ keys.filter (fun key ↦ c.stage = .owned ∧ c.retention = some key), c.bytes
        = (keys.filter fun key ↦ c.stage = .owned ∧ c.retention = some key).card * c.bytes := by
      rw [Finset.sum_const, smul_eq_mul]
    _ ≤ 1 * c.bytes := by
      apply Nat.mul_le_mul_right
      apply Finset.card_le_one.mpr
      intro a ha b hb
      have hab : c.retention = some a := (Finset.mem_filter.mp ha).2.2
      have hbb : c.retention = some b := (Finset.mem_filter.mp hb).2.2
      exact Option.some.inj (hab.symm.trans hbb)
    _ = c.bytes := Nat.one_mul _

theorem Exact.sum_used_le {s : Account τ ι} (h : s.Exact) (keys : Finset (τ × ι)) :
    ∑ key ∈ keys, (s.trackers key.1).used key.2 ≤ s.budget.used := by
  calc
    ∑ key ∈ keys, (s.trackers key.1).used key.2
        = ∑ key ∈ keys, (s.charges.map fun c ↦ c.trackedBy key).sum :=
      Finset.sum_congr rfl fun key _ ↦ h.tracked key.1 key.2
    _ ≤ (s.charges.map Charge.bytes).sum :=
      List.finset_sum_map_le s.charges fun c ↦ sum_trackedBy_le c keys
    _ = s.budget.used := h.used.symm

theorem Exact.used_le_max {s : Account τ ι} (h : s.Exact) : s.budget.used ≤ usizeMax :=
  h.le_capacity.trans s.budget.capacity.le_max

theorem trackedBy_of_ne_owned {c : Charge τ ι} (hc : c.stage ≠ .owned) (key : τ × ι) :
    c.trackedBy key = 0 := by
  simp [Charge.trackedBy, hc]

/-- What an outcome must be for the accounting to stay exact: a refusal changes
nothing and reports the true availability, and nothing panics. -/
def Sound (s : Account τ ι) (a : Action τ ι) : Outcome (Account τ ι) → Prop
  | .done next => next.Exact ∧ next.budget.capacity = s.budget.capacity
  | .refused error next => next = s ∧ ∃ bytes retention, a = .copy bytes retention ∧
      (error = .tooLarge bytes s.budget.capacity.val ∨
        error = .full bytes (s.budget.capacity.val - s.budget.used))
  | .panicked => False
  | .disabled => True

theorem Exact.copy {s : Account τ ι} (h : s.Exact) (bytes : ℕ) (retention : Option (τ × ι)) :
    s.Sound (.copy bytes retention) (s.act (.copy bytes retention)) := by
  by_cases hlarge : s.budget.capacity.val < bytes
  · have hres : s.budget.tryReserve bytes =
        some (.error (.tooLarge bytes s.budget.capacity.val)) := if_pos hlarge
    simp only [act, hres]
    exact ⟨rfl, bytes, retention, rfl, Or.inl rfl⟩
  · by_cases hfull : s.budget.capacity.val - s.budget.used < bytes
    · have hres : s.budget.tryReserve bytes =
          some (.error (.full bytes (s.budget.capacity.val - s.budget.used))) :=
        (if_neg hlarge).trans (ByteBudget.reserve_of_lt h.le_capacity hfull)
      simp only [act, hres]
      exact ⟨rfl, bytes, retention, rfl, Or.inr rfl⟩
    · have hres : s.budget.tryReserve bytes =
          some (.ok { s.budget with used := s.budget.used + bytes }) :=
        (if_neg hlarge).trans (ByteBudget.reserve_of_le h.le_capacity (by omega))
      have hle := h.le_capacity
      simp only [act, hres]
      refine ⟨⟨?_, ?_, h.tight, ?_⟩, rfl⟩
      · simp only [List.map_cons, List.sum_cons, h.used]
        omega
      · dsimp only
        omega
      · intro t id
        rw [List.map_cons, List.sum_cons, trackedBy_of_ne_owned (by simp), Nat.zero_add]
        exact h.tracked t id

/-- Replacing a charge by one of the same size keeps the budget exact. -/
theorem Exact.set {s : Account τ ι} (h : s.Exact) {index : ℕ} {c d : Charge τ ι}
    (hc : s.charges[index]? = some c) (hd : d.bytes = c.bytes)
    {trackers : τ → RetentionTracker ι} (htight : ∀ t, (trackers t).Tight)
    (htracked : ∀ t id, (trackers t).used id + c.trackedBy (t, id) =
      (s.trackers t).used id + d.trackedBy (t, id)) :
    ({ s with trackers, charges := s.charges.set index d } : Account τ ι).Exact := by
  refine ⟨?_, h.le_capacity, htight, ?_⟩
  · have hsum := List.sum_map_set (f := Charge.bytes) hc d
    have hused := h.used
    dsimp only
    omega
  · intro t id
    have hsum := List.sum_map_set (f := fun c ↦ c.trackedBy (t, id)) hc d
    have hold := h.tracked t id
    have hnew := htracked t id
    dsimp only at hsum ⊢
    omega

theorem Exact.track_bound {s : Account τ ι} (h : s.Exact) {index : ℕ} {c : Charge τ ι}
    (hc : s.charges[index]? = some c) (hstage : c.stage ≠ .owned) (t : τ) (id : ι) :
    (s.trackers t).used id + c.bytes ≤ usizeMax := by
  have hrest := List.sum_map_eraseIdx (f := Charge.bytes) hc
  have hkey := List.sum_map_eraseIdx (f := fun c ↦ c.trackedBy (t, id)) hc
  have hle : ((s.charges.eraseIdx index).map fun c ↦ c.trackedBy (t, id)).sum ≤
      ((s.charges.eraseIdx index).map Charge.bytes).sum := by
    have hsum := List.finset_sum_map_le (f := Charge.bytes) (w := Charge.trackedBy)
      (s := {(t, id)}) (s.charges.eraseIdx index) fun c ↦ sum_trackedBy_le c _
    simpa using hsum
  have hzero := trackedBy_of_ne_owned hstage (t, id)
  have hused := h.used
  have hmax := h.used_le_max
  have htracked := h.tracked t id
  omega

theorem Exact.track {s : Account τ ι} (h : s.Exact) (index : ℕ) :
    s.Sound (.track index) (s.act (.track index)) := by
  cases hc : s.charges[index]? with
  | none => simp [act, hc, Sound]
  | some c =>
      by_cases hstage : c.stage = .reserved
      · have howned : c.stage ≠ .owned := by simp [hstage]
        cases hret : c.retention with
        | none =>
            simp only [act, hc, if_pos hstage, Account.track, hret]
            refine ⟨h.set hc (by rfl) h.tight fun t id ↦ ?_, rfl⟩
            simp [Charge.trackedBy, hret]
        | some key =>
            obtain ⟨t, id⟩ := key
            obtain ⟨next, hadd, htight, hused⟩ :=
              RetentionTracker.add_spec (h.tight t) (h.track_bound hc howned t id)
            simp only [act, hc, if_pos hstage, Account.track, hret, hadd, Option.map_some]
            refine ⟨h.set hc (by rfl) (fun u ↦ ?_) fun u other ↦ ?_, rfl⟩
            · by_cases hu : u = t
              · subst hu
                simpa using htight
              · simpa [hu] using h.tight u
            · rw [trackedBy_of_ne_owned howned]
              by_cases hu : u = t
              · subst hu
                simp [hused, Charge.trackedBy, eq_comm]
              · simp [Charge.trackedBy, hu, Ne.symm hu]
      · simp [act, hc, hstage, Sound]

theorem Exact.untrack {s : Account τ ι} (h : s.Exact) (index : ℕ) :
    s.Sound (.untrack index) (s.act (.untrack index)) := by
  cases hc : s.charges[index]? with
  | none => simp [act, hc, Sound]
  | some c =>
      by_cases hstage : c.stage = .owned
      · cases hret : c.retention with
        | none =>
            simp only [act, hc, if_pos hstage, Account.untrack, hret]
            refine ⟨h.set hc (by rfl) h.tight fun t id ↦ ?_, rfl⟩
            simp [Charge.trackedBy, hret]
        | some key =>
            obtain ⟨t, id⟩ := key
            have hle : c.bytes ≤ (s.trackers t).used id := by
              have hsum := List.le_sum_map (f := fun c ↦ c.trackedBy (t, id)) hc
              rw [← h.tracked t id] at hsum
              simpa [Charge.trackedBy, hstage, hret] using hsum
            obtain ⟨next, hrelease, htight, hused⟩ :=
              RetentionTracker.release_spec (h.tight t) hle
            simp only [act, hc, if_pos hstage, Account.untrack, hret, hrelease, Option.map_some]
            refine ⟨h.set hc (by rfl) (fun u ↦ ?_) fun u other ↦ ?_, rfl⟩
            · by_cases hu : u = t
              · subst hu
                simpa using htight
              · simpa [hu] using h.tight u
            · by_cases hu : u = t
              · subst hu
                simp [hused, Charge.trackedBy, hstage, hret, eq_comm]
              · simp [Charge.trackedBy, hret, hu, Ne.symm hu]
      · simp [act, hc, hstage, Sound]

theorem Exact.release {s : Account τ ι} (h : s.Exact) (index : ℕ) :
    s.Sound (.release index) (s.act (.release index)) := by
  cases hc : s.charges[index]? with
  | none => simp [act, hc, Sound]
  | some c =>
      by_cases hstage : c.stage = .untracked
      · have hle : c.bytes ≤ s.budget.used := h.used ▸ List.le_sum_map hc
        have hcap := h.le_capacity
        have hused := h.used
        have hrest := List.sum_map_eraseIdx (f := Charge.bytes) hc
        simp only [act, hc, if_pos hstage, ByteBudget.release_of_le hle]
        refine ⟨⟨?_, ?_, h.tight, fun t id ↦ ?_⟩, rfl⟩
        · dsimp only
          omega
        · dsimp only
          omega
        · have hkey := List.sum_map_eraseIdx (f := fun c ↦ c.trackedBy (t, id)) hc
          rw [trackedBy_of_ne_owned (by simp [hstage]), Nat.add_zero] at hkey
          exact (h.tracked t id).trans hkey.symm
      · simp [act, hc, hstage, Sound]

theorem Exact.sound {s : Account τ ι} (h : s.Exact) (a : Action τ ι) : s.Sound a (s.act a) := by
  cases a with
  | copy bytes retention => exact h.copy bytes retention
  | track index => exact h.track index
  | untrack index => exact h.untrack index
  | release index => exact h.release index

theorem Exact.step {s t : Account τ ι} (h : s.Exact) {a : Action τ ι}
    (hstep : s.step a = some t) : t.Exact ∧ t.budget.capacity = s.budget.capacity := by
  have hsound := h.sound a
  unfold Account.step at hstep
  cases hact : s.act a with
  | done next =>
      rw [hact] at hsound hstep
      cases hstep
      exact hsound
  | refused error next =>
      rw [hact] at hsound hstep
      cases hstep
      exact ⟨hsound.1 ▸ h, hsound.1 ▸ rfl⟩
  | panicked => simp [hact] at hstep
  | disabled => simp [hact] at hstep

/-- Byte accounting is exact at every lock boundary, whatever the interleaving:
the budget is the sum of the charges reserved and not yet released, each tracker
entry the sum of the charges added and not yet released for its id, and it is
present exactly when that sum is positive. No checked operation fails, a refusal
changes nothing and reports what is available, and the accounts are empty once
no charge is left. -/
theorem accounting_exact (capacity : NonZeroUsize) (s : Account τ ι)
    (h : Machine.Reachable Account.step (new capacity) s) :
    s.budget.capacity = capacity ∧
    s.budget.used = (s.charges.map Charge.bytes).sum ∧
    s.budget.used ≤ capacity.val ∧
    (∀ t id, (s.trackers t).used id = (s.charges.map fun c ↦ c.trackedBy (t, id)).sum) ∧
    (∀ keys : Finset (τ × ι), ∑ key ∈ keys, (s.trackers key.1).used key.2 ≤ s.budget.used) ∧
    (∀ t id, ((s.trackers t).entries id).isSome ↔
      0 < (s.charges.map fun c ↦ c.trackedBy (t, id)).sum) ∧
    (∀ a, s.act a ≠ .panicked) ∧
    (∀ bytes retention error next, s.act (.copy bytes retention) = .refused error next →
      next = s ∧ (error = .tooLarge bytes capacity.val ∨
        error = .full bytes (capacity.val - s.budget.used))) ∧
    (s.charges = [] → s.budget.used = 0 ∧ ∀ t id, (s.trackers t).entries id = none) := by
  obtain ⟨hs, rfl⟩ : s.Exact ∧ s.budget.capacity = capacity := by
    refine h.invariant (I := fun s ↦ s.Exact ∧ s.budget.capacity = capacity)
      ⟨exact_new capacity, rfl⟩ ?_
    rintro u a v ⟨hu, hcap⟩ hstep
    exact ⟨(hu.step hstep).1, (hu.step hstep).2.trans hcap⟩
  refine ⟨rfl, hs.used, hs.le_capacity, hs.tracked, hs.sum_used_le, ?_, ?_, ?_, ?_⟩
  · intro t id
    rw [← hs.tracked t id]
    exact (hs.tight t).isSome_iff id
  · intro a hact
    have hsound := hs.sound a
    rw [hact] at hsound
    exact hsound
  · intro bytes retention error next hact
    have hsound := hs.sound (.copy bytes retention)
    rw [hact] at hsound
    obtain ⟨hnext, bytes', retention', ha, herror⟩ := hsound
    cases ha
    exact ⟨hnext, herror⟩
  · intro hnil
    refine ⟨by simp [hs.used, hnil], fun t id ↦ ?_⟩
    have hzero : (s.trackers t).used id = 0 := by simp [hs.tracked t id, hnil]
    cases hentry : (s.trackers t).entries id with
    | none => rfl
    | some current =>
        have hpos := ((hs.tight t).isSome_iff id).mp (by simp [hentry])
        omega

/-- A tracked and an untracked owner share a budget of ten bytes; the tracked
one has already been untracked by its drop and is still charged. -/
theorem accounting_exact_two_owners :
    ∃ s : Account ℕ ℕ,
      Machine.Reachable Account.step (new ⟨10, by decide, by decide⟩) s ∧
      s.charges.length = 2 ∧ s.budget.used = (s.charges.map Charge.bytes).sum ∧
      ∀ a, s.act a ≠ .panicked := by
  have hreach : Machine.Reachable Account.step (new ⟨10, by decide, by decide⟩ : Account ℕ ℕ) _ :=
    ⟨[.copy 4 (some (0, 1)), .track 0, .copy 3 none, .untrack 1, .copy 9 none], rfl⟩
  have h := accounting_exact _ _ hreach
  exact ⟨_, hreach, rfl, h.2.1, h.2.2.2.2.2.2.1⟩

end Account

end Phonowire.Receiver
