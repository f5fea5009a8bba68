import Phonowire.Receiver.Record

/-!
# Configured output limits

The bound of the output is computed in checked arithmetic on 64 bits, so a
configuration whose bound does not fit is refused.
-/

namespace Phonowire.Capture

open Receiver

/-- `HEADER`. -/
def header : ℕ := 44

structure Config where
  output : String
  listen : SocketAddr
  connections : ℕ
  queue : ℕ
  payload : ℕ
  turns : ℕ
  retained : ℕ
  active : ℕ
  run : ℕ
  file : ℕ
  summary : ℕ
  status : ℕ
  deriving DecidableEq, Repr

/-- `u64::checked_mul`. -/
def checkedMul (a b : ℕ) : Option ℕ := if u64Max < a * b then none else some (a * b)

theorem checkedMul_eq_some_iff {a b c : ℕ} :
    checkedMul a b = some c ↔ a * b ≤ u64Max ∧ c = a * b := by
  unfold checkedMul
  by_cases h : u64Max < a * b
  · simp only [if_pos h, reduceCtorEq, false_iff, not_and]
    omega
  · simp only [if_neg h, Option.some.injEq]
    exact ⟨fun hc ↦ ⟨by omega, hc.symm⟩, fun hc ↦ hc.2.symm⟩

def checkedOutputBound (recordings fileBytes summaryBytes statusBytes : ℕ) : Except String ℕ :=
  match (checkedMul fileBytes 3).bind (checkedAdd · summaryBytes) with
  | none => .error "output limit overflow"
  | some perRecording =>
      match (checkedMul recordings perRecording).bind (checkedAdd · statusBytes) with
      | none => .error "output limit overflow"
      | some bound => .ok bound

namespace Config

/-- `Config::validate`, where `isDir` is what the system says of the output. -/
def validate (c : Config) (isDir : Bool) : Except String Unit :=
  if !isDir then .error "--output must be an existing directory"
  else if c.file < header ∨ c.summary = 0 ∨ c.status = 0 then .error "infeasible output limits"
  else if c.active = 0 ∨ c.connections < c.active then
    .error "max active recordings must be positive and no greater than max connections"
  else if c.connections = 0 ∨ c.queue = 0 ∨ c.payload = 0 ∨ c.turns = 0 ∨ c.retained = 0 ∨
      c.run = 0 then
    .error "receiver and recording limits must be positive"
  else (checkedOutputBound c.run c.file c.summary c.status).map fun _ ↦ ()

/-- The number that `checked_output_bound` stands for. -/
def bound (c : Config) : ℕ := c.run * (3 * c.file + c.summary) + c.status

end Config

theorem checkedOutputBound_eq_ok_iff {recordings fileBytes summaryBytes statusBytes bound : ℕ} :
    checkedOutputBound recordings fileBytes summaryBytes statusBytes = .ok bound ↔
      3 * fileBytes + summaryBytes ≤ u64Max ∧
        bound = recordings * (3 * fileBytes + summaryBytes) + statusBytes ∧ bound ≤ u64Max := by
  have hsome (a b c d : ℕ) : (checkedMul a b).bind (checkedAdd · c) = some d ↔
      a * b + c ≤ u64Max ∧ d = a * b + c := by
    rw [Option.bind_eq_some_iff]
    constructor
    · rintro ⟨product, hproduct, hsum⟩
      obtain ⟨_, rfl⟩ := checkedMul_eq_some_iff.mp hproduct
      exact checkedAdd_eq_some_iff.mp hsum
    · rintro ⟨hle, rfl⟩
      exact ⟨a * b, checkedMul_eq_some_iff.mpr ⟨by omega, rfl⟩,
        checkedAdd_eq_some_iff.mpr ⟨hle, rfl⟩⟩
  rw [Nat.mul_comm 3]
  unfold checkedOutputBound
  cases hper : (checkedMul fileBytes 3).bind (checkedAdd · summaryBytes) with
  | none =>
      have hnone : ¬ fileBytes * 3 + summaryBytes ≤ u64Max := by
        intro hle
        have hper' := (hsome fileBytes 3 summaryBytes _).mpr ⟨hle, rfl⟩
        rw [hper] at hper'
        cases hper'
      simp [hnone]
  | some perRecording =>
      obtain ⟨hle, rfl⟩ := (hsome _ _ _ _).mp hper
      dsimp only
      cases hall : (checkedMul recordings (fileBytes * 3 + summaryBytes)).bind
          (checkedAdd · statusBytes) with
      | none =>
          have hnone : ¬ recordings * (fileBytes * 3 + summaryBytes) + statusBytes ≤ u64Max := by
            intro hfits
            have hall' := (hsome _ _ _ _).mpr ⟨hfits, rfl⟩
            rw [hall] at hall'
            cases hall'
          simp only [reduceCtorEq, false_iff, not_and]
          rintro _ rfl
          exact hnone
      | some total =>
          obtain ⟨hfits, rfl⟩ := (hsome _ _ _ _).mp hall
          simp only [Except.ok.injEq]
          constructor
          · rintro rfl
            exact ⟨hle, rfl, hfits⟩
          · rintro ⟨_, rfl, _⟩
            rfl

/-- With at least one recording the bound fails only where it does not fit. -/
theorem checkedOutputBound_ok_iff {recordings fileBytes summaryBytes statusBytes : ℕ}
    (hrun : 1 ≤ recordings) :
    (∃ bound, checkedOutputBound recordings fileBytes summaryBytes statusBytes = .ok bound) ↔
      recordings * (3 * fileBytes + summaryBytes) + statusBytes ≤ u64Max := by
  simp only [checkedOutputBound_eq_ok_iff]
  constructor
  · rintro ⟨bound, _, rfl, hle⟩
    exact hle
  · intro hle
    have hone : 3 * fileBytes + summaryBytes ≤
        recordings * (3 * fileBytes + summaryBytes) := Nat.le_mul_of_pos_left _ hrun
    exact ⟨_, by omega, rfl, hle⟩

/-- What a validated configuration promises. -/
structure Config.Valid (c : Config) : Prop where
  file : header ≤ c.file
  active : 0 < c.active
  run : 0 < c.run
  fits : checkedOutputBound c.run c.file c.summary c.status = .ok c.bound

/-- The bound counts every recording, so the number of recordings fits too. -/
theorem Config.Valid.run_le {c : Config} (h : c.Valid) : c.run ≤ u64Max := by
  obtain ⟨_, _, hfits⟩ := checkedOutputBound_eq_ok_iff.mp h.fits
  have hfile := h.file
  unfold header at hfile
  have hrun : c.run ≤ c.run * (3 * c.file + c.summary) := Nat.le_mul_of_pos_right _ (by omega)
  unfold Config.bound at hfits
  omega

theorem Config.Valid.parts_le {c : Config} (h : c.Valid) :
    c.file ≤ u64Max ∧ c.summary ≤ u64Max := by
  obtain ⟨hper, _, _⟩ := checkedOutputBound_eq_ok_iff.mp h.fits
  omega

theorem Config.Valid.status_le {c : Config} (h : c.Valid) : c.status ≤ u64Max := by
  obtain ⟨_, _, hfits⟩ := checkedOutputBound_eq_ok_iff.mp h.fits
  unfold Config.bound at hfits
  omega

theorem Config.valid_of_validate {c : Config} {isDir : Bool} (h : c.validate isDir = .ok ()) :
    c.Valid := by
  unfold validate at h
  split_ifs at h with hdir hfile hactive hpositive
  cases hbound : checkedOutputBound c.run c.file c.summary c.status with
  | error e =>
      rw [hbound] at h
      cases h
  | ok bound =>
      obtain ⟨_, hvalue, _⟩ := checkedOutputBound_eq_ok_iff.mp hbound
      push Not at hfile hactive hpositive
      refine ⟨hfile.1, Nat.pos_of_ne_zero hactive.1, Nat.pos_of_ne_zero hpositive.2.2.2.2.2, ?_⟩
      rw [Config.bound, ← hvalue, hbound]

end Phonowire.Capture
