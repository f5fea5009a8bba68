import Phonowire.Capture.Config

/-!
# The command line of the capture application

`Config::parse` collects the options with their values, reads each field from
its option or from its default, and validates the result. Which text is a socket
address and which path is a directory are answers of the system.
-/

namespace Phonowire.Capture

open Receiver

/-! ## Options -/

def help : String :=
  "Usage: phonowire-capture --output DIRECTORY [options]\n" ++
  "Options: --listen ADDR --max-connections N --queue-records N --payload-bytes N\n" ++
  "--turn-steps N --retained-bytes N --max-active-recordings N --max-recordings-per-run N\n" ++
  "--max-file-bytes N --max-recording-summary-bytes N --max-run-status-bytes N --help"

def known : List String := [
  "--output", "--listen", "--max-connections", "--queue-records", "--payload-bytes",
  "--turn-steps", "--retained-bytes", "--max-active-recordings", "--max-recordings-per-run",
  "--max-file-bytes", "--max-recording-summary-bytes", "--max-run-status-bytes"]

/-- The values of the options, in their order on the command line. -/
abbrev Values := List (String × String)

/-- `value.starts_with("--")`. -/
def dashed (value : String) : Bool := "--".toList.isPrefixOf value.toList

/-- The loop of `parse`. -/
def collect : List String → Values → Except String Values
  | [], values => .ok values
  | [option], _ =>
      if option ∈ known then .error ("missing value for " ++ option)
      else .error ("unknown option: " ++ option)
  | option :: value :: rest, values =>
      if option ∉ known then .error ("unknown option: " ++ option)
      else if dashed value then .error ("missing value for " ++ option)
      else if (values.lookup option).isSome then .error ("duplicate option: " ++ option)
      else collect rest (values ++ [(option, value)])

/-- `str::parse::<u64>`: decimal digits behind at most one plus sign. -/
def parseU64 (text : String) : Option ℕ :=
  let digits := if text.toList.head? = some '+' then text.toList.tail else text.toList
  let value := Nat.ofDigitChars 10 digits 0
  if digits ≠ [] ∧ digits.all Char.isDigit ∧ value ≤ u64Max then some value else none

/-- The closure `get`. -/
def get (values : Values) (name default : String) : Except String ℕ :=
  match parseU64 ((values.lookup name).getD default) with
  | some value => .ok value
  | none => .error ("invalid " ++ name)

/-- A value that is converted to a type with this maximum. -/
def getWithin (maximum : ℕ) (values : Values) (name default : String) : Except String ℕ := do
  let value ← get values name default
  if maximum < value then .error ("invalid " ++ name) else .ok value

/-- The closure `usize_value`. -/
def usizeValue (values : Values) (name default : String) : Except String ℕ :=
  getWithin usizeMax values name default

def u16Max : ℕ := 2 ^ 16 - 1

section System

variable (address : String → Option SocketAddr) (isDir : String → Bool)

def readListen (values : Values) : Except String SocketAddr :=
  match address ((values.lookup "--listen").getD "127.0.0.1:9092") with
  | some listen => .ok listen
  | none => .error "invalid --listen"

def readOutput (values : Values) : Except String String :=
  match values.lookup "--output" with
  | some output => .ok output
  | none => .error "--output is required"

/-- The fields of a configuration, before it is validated. -/
def Config.read (values : Values) : Except String Config := do
  let output ← readOutput values
  let listen ← readListen address values
  let connections ← usizeValue values "--max-connections" "16"
  let queue ← usizeValue values "--queue-records" "128"
  let payload ← getWithin u16Max values "--payload-bytes" "4096"
  let turns ← usizeValue values "--turn-steps" "64"
  let retained ← usizeValue values "--retained-bytes" "1048576"
  let active ← usizeValue values "--max-active-recordings" "16"
  let run ← get values "--max-recordings-per-run" "64"
  let file ← get values "--max-file-bytes" "67108864"
  let summary ← get values "--max-recording-summary-bytes" "4096"
  let status ← get values "--max-run-status-bytes" "4096"
  .ok ⟨output, listen, connections, queue, payload, turns, retained, active, run, file, summary,
    status⟩

def Config.parse (arguments : List String) : Except String Config :=
  if arguments.length = 2 ∧ arguments[1]? = some "--help" then .error help
  else if "--help" ∈ arguments then .error "--help cannot be combined with other options"
  else do
    let values ← collect (arguments.drop 1) []
    let c ← Config.read address values
    c.validate (isDir c.output)
    .ok c

/-- `main`: what it prints, and its result, where `run` is the run of the
application. -/
def main (run : Config → Except String Unit) (arguments : List String) :
    Option String × Except String Unit :=
  match Config.parse address isDir arguments with
  | .ok c => (none, run c)
  | .error e => if e = help then (some e, .ok ()) else (none, .error e)

end System

/-! ## What is accepted -/

theorem bind_eq_ok {ε α β : Type} {x : Except ε α} {f : α → Except ε β} {b : β} :
    x >>= f = .ok b ↔ ∃ a, x = .ok a ∧ f a = .ok b := by
  cases x with
  | error e => simp [bind, Except.bind]
  | ok a => simp [bind, Except.bind]

/-- The arguments of these options. -/
def flatten (values : Values) : List String := values.flatMap fun option ↦ [option.1, option.2]

/-- Options that can be given together. -/
structure Proper (values : Values) : Prop where
  known : ∀ option ∈ values, option.1 ∈ known
  value : ∀ option ∈ values, dashed option.2 = false
  once : (values.map Prod.fst).Nodup

theorem lookup_isSome_iff {values : Values} {name : String} :
    (values.lookup name).isSome = true ↔ name ∈ values.map Prod.fst := by
  induction values with
  | nil => simp
  | cons option values ih =>
      rw [List.lookup_cons, List.map_cons, List.mem_cons]
      by_cases hname : name = option.1
      · simp [hname]
      · have hbeq : (name == option.1) = false := beq_eq_false_iff_ne.mpr hname
        rw [hbeq, ih]
        simp [hname]

theorem proper_nil : Proper [] where
  known := by simp
  value := by simp
  once := List.nodup_nil

theorem proper_snoc_iff {values : Values} {option : String × String} :
    Proper (values ++ [option]) ↔ Proper values ∧ option.1 ∈ known ∧ dashed option.2 = false ∧
      option.1 ∉ values.map Prod.fst := by
  constructor
  · rintro ⟨hknown, hvalue, honce⟩
    rw [List.map_append, List.map_singleton, List.nodup_append] at honce
    refine ⟨⟨fun other hmem ↦ hknown other (List.mem_append_left _ hmem),
      fun other hmem ↦ hvalue other (List.mem_append_left _ hmem), honce.1⟩, hknown option (by simp),
      hvalue option (by simp), ?_⟩
    intro hmem
    exact honce.2.2 option.1 hmem option.1 (by simp) rfl
  · rintro ⟨hproper, hknown, hvalue, hnew⟩
    refine ⟨?_, ?_, ?_⟩
    · rw [List.forall_mem_append, List.forall_mem_singleton]
      exact ⟨hproper.known, hknown⟩
    · rw [List.forall_mem_append, List.forall_mem_singleton]
      exact ⟨hproper.value, hvalue⟩
    · rw [List.map_append, List.map_singleton, List.nodup_append]
      refine ⟨hproper.once, List.nodup_singleton _, ?_⟩
      rintro name hname other hother rfl
      exact hnew (List.mem_singleton.mp hother ▸ hname)

theorem Proper.of_append {before more : Values} (h : Proper (before ++ more)) : Proper before where
  known option hmem := h.known option (List.mem_append_left _ hmem)
  value option hmem := h.value option (List.mem_append_left _ hmem)
  once := by
    have honce := h.once
    rw [List.map_append, List.nodup_append] at honce
    exact honce.1

theorem flatten_cons (option : String × String) (values : Values) :
    flatten (option :: values) = option.1 :: option.2 :: flatten values := rfl

/-- The loop accepts exactly the arguments of options that can be given together. -/
theorem collect_eq_ok_iff {arguments : List String} {before values : Values}
    (hbefore : Proper before) : collect arguments before = .ok values ↔
      ∃ more, arguments = flatten more ∧ values = before ++ more ∧ Proper values := by
  have hstep {option value : String} {rest : List String} {more : Values}
      (h : option :: value :: rest = flatten more) :
      ∃ later, more = (option, value) :: later ∧ rest = flatten later := by
    cases more with
    | nil => cases h
    | cons first later =>
        rw [flatten_cons, List.cons.injEq, List.cons.injEq] at h
        obtain ⟨rfl, rfl, rfl⟩ := h
        exact ⟨later, rfl, rfl⟩
  have hproper {option value : String} {rest : List String} {before values : Values}
      (h : ∃ more, option :: value :: rest = flatten more ∧ values = before ++ more ∧
        Proper values) : Proper (before ++ [(option, value)]) := by
    obtain ⟨more, hmore, rfl, hall⟩ := h
    obtain ⟨later, rfl, _⟩ := hstep hmore
    rw [← List.singleton_append, ← List.append_assoc] at hall
    exact hall.of_append
  induction arguments, before using collect.induct with
  | case1 before =>
      rw [collect, Except.ok.injEq]
      constructor
      · rintro rfl
        exact ⟨[], rfl, by simp, hbefore⟩
      · rintro ⟨more, hnil, rfl, _⟩
        cases more with
        | nil => simp
        | cons option more => cases hnil
  | case2 option before hknown =>
      rw [collect, if_pos hknown]
      simp only [reduceCtorEq, false_iff]
      rintro ⟨more, hsingle, _⟩
      cases more <;> cases hsingle
  | case3 option before hknown =>
      rw [collect, if_neg hknown]
      simp only [reduceCtorEq, false_iff]
      rintro ⟨more, hsingle, _⟩
      cases more <;> cases hsingle
  | case4 option value rest before hknown =>
      rw [collect, if_pos hknown]
      simp only [reduceCtorEq, false_iff]
      intro hmore
      exact hknown (proper_snoc_iff.mp (hproper hmore)).2.1
  | case5 option value rest before hknown hdashed =>
      rw [collect, if_neg hknown, if_pos hdashed]
      simp only [reduceCtorEq, false_iff]
      intro hmore
      have hvalue := (proper_snoc_iff.mp (hproper hmore)).2.2.1
      rw [hdashed] at hvalue
      cases hvalue
  | case6 option value rest before hknown hdashed htwice =>
      rw [collect, if_neg hknown, if_neg hdashed, if_pos htwice]
      simp only [reduceCtorEq, false_iff]
      intro hmore
      exact (proper_snoc_iff.mp (hproper hmore)).2.2.2 (lookup_isSome_iff.mp htwice)
  | case7 option value rest before hknown hdashed honce ih =>
      rw [lookup_isSome_iff] at honce
      have hnext : Proper (before ++ [(option, value)]) := proper_snoc_iff.mpr
        ⟨hbefore, Decidable.not_not.mp hknown, Bool.eq_false_iff.mpr hdashed, honce⟩
      rw [collect, if_neg hknown, if_neg hdashed, if_neg (by rwa [lookup_isSome_iff])]
      apply (ih hnext).trans
      constructor
      · rintro ⟨later, rfl, rfl, hall⟩
        exact ⟨(option, value) :: later, rfl, by simp, hall⟩
      · rintro ⟨more, hmore, rfl, hall⟩
        obtain ⟨later, rfl, rfl⟩ := hstep hmore
        exact ⟨later, rfl, by simp, hall⟩

/-! ## Fields -/

theorem get_eq_ok_iff {values : Values} {name default : String} {n : ℕ} :
    get values name default = .ok n ↔
      parseU64 ((values.lookup name).getD default) = some n := by
  unfold get
  cases parseU64 ((values.lookup name).getD default) with
  | none => simp
  | some m => simp

theorem getWithin_eq_ok_iff {maximum : ℕ} {values : Values} {name default : String} {n : ℕ} :
    getWithin maximum values name default = .ok n ↔
      parseU64 ((values.lookup name).getD default) = some n ∧ n ≤ maximum := by
  unfold getWithin
  rw [bind_eq_ok]
  constructor
  · rintro ⟨m, hm, hn⟩
    split_ifs at hn with hover
    cases hn
    exact ⟨get_eq_ok_iff.mp hm, Nat.not_lt.mp hover⟩
  · rintro ⟨hn, hle⟩
    exact ⟨n, get_eq_ok_iff.mpr hn, if_neg (Nat.not_lt.mpr hle)⟩

theorem parseU64_le {text : String} {n : ℕ} (h : parseU64 text = some n) : n ≤ u64Max := by
  unfold parseU64 at h
  dsimp only at h
  generalize (if text.toList.head? = some '+' then text.toList.tail else text.toList) = digits at h
  split_ifs at h with hvalid
  cases h
  exact hvalid.2.2

/-- What the values and the defaults say of a configuration. -/
structure Says (address : String → Option SocketAddr) (values : Values) (c : Config) : Prop where
  output : values.lookup "--output" = some c.output
  listen : address ((values.lookup "--listen").getD "127.0.0.1:9092") = some c.listen
  connections : parseU64 ((values.lookup "--max-connections").getD "16") = some c.connections
  queue : parseU64 ((values.lookup "--queue-records").getD "128") = some c.queue
  payload : parseU64 ((values.lookup "--payload-bytes").getD "4096") = some c.payload
  payload_le : c.payload ≤ u16Max
  turns : parseU64 ((values.lookup "--turn-steps").getD "64") = some c.turns
  retained : parseU64 ((values.lookup "--retained-bytes").getD "1048576") = some c.retained
  active : parseU64 ((values.lookup "--max-active-recordings").getD "16") = some c.active
  run : parseU64 ((values.lookup "--max-recordings-per-run").getD "64") = some c.run
  file : parseU64 ((values.lookup "--max-file-bytes").getD "67108864") = some c.file
  summary : parseU64 ((values.lookup "--max-recording-summary-bytes").getD "4096") =
    some c.summary
  status : parseU64 ((values.lookup "--max-run-status-bytes").getD "4096") = some c.status

theorem readOutput_eq_ok_iff {values : Values} {output : String} :
    readOutput values = .ok output ↔ values.lookup "--output" = some output := by
  unfold readOutput
  cases values.lookup "--output" with
  | none => simp
  | some value => simp

theorem readListen_eq_ok_iff {address : String → Option SocketAddr} {values : Values}
    {listen : SocketAddr} : readListen address values = .ok listen ↔
      address ((values.lookup "--listen").getD "127.0.0.1:9092") = some listen := by
  unfold readListen
  cases address ((values.lookup "--listen").getD "127.0.0.1:9092") with
  | none => simp
  | some value => simp

theorem read_eq_ok_iff {address : String → Option SocketAddr} {values : Values} {c : Config} :
    Config.read address values = .ok c ↔ Says address values c := by
  unfold Config.read usizeValue
  simp only [bind_eq_ok, getWithin_eq_ok_iff, get_eq_ok_iff, readOutput_eq_ok_iff,
    readListen_eq_ok_iff, Except.ok.injEq]
  constructor
  · rintro ⟨output, houtput, listen, hlisten, connections, ⟨hconnections, _⟩, queue, ⟨hqueue, _⟩,
      payload, ⟨hpayload, hle⟩, turns, ⟨hturns, _⟩, retained, ⟨hretained, _⟩, active,
      ⟨hactive, _⟩, run, hrun, file, hfile, summary, hsummary, status, hstatus, rfl⟩
    exact ⟨houtput, hlisten, hconnections, hqueue, hpayload, hle, hturns, hretained, hactive, hrun,
      hfile, hsummary, hstatus⟩
  · rintro ⟨houtput, hlisten, hconnections, hqueue, hpayload, hle, hturns, hretained, hactive,
      hrun, hfile, hsummary, hstatus⟩
    exact ⟨c.output, houtput, c.listen, hlisten, c.connections,
      ⟨hconnections, parseU64_le hconnections⟩, c.queue, ⟨hqueue, parseU64_le hqueue⟩, c.payload, ⟨hpayload, hle⟩, c.turns,
      ⟨hturns, parseU64_le hturns⟩, c.retained, ⟨hretained, parseU64_le hretained⟩, c.active,
      ⟨hactive, parseU64_le hactive⟩, c.run, hrun, c.file, hfile, c.summary, hsummary, c.status,
      hstatus, rfl⟩

section System

variable {address : String → Option SocketAddr} {isDir : String → Bool} {arguments : List String}
  {values : Values} {c : Config}

theorem parse_eq_ok_iff : Config.parse address isDir arguments = .ok c ↔
    "--help" ∉ arguments ∧ ∃ values, arguments.drop 1 = flatten values ∧ Proper values ∧
      Says address values c ∧ c.validate (isDir c.output) = .ok () := by
  unfold Config.parse
  split_ifs with halone hhelp
  · have hmem : "--help" ∈ arguments := List.mem_of_getElem? halone.2
    simp [hmem]
  · simp [hhelp]
  · simp only [bind_eq_ok, collect_eq_ok_iff proper_nil, read_eq_ok_iff, List.nil_append,
      Except.ok.injEq]
    constructor
    · rintro ⟨given, ⟨_, hgiven, rfl, hproper⟩, d, hsays, ⟨⟩, hvalid, rfl⟩
      exact ⟨hhelp, given, hgiven, hproper, hsays, hvalid⟩
    · rintro ⟨_, more, hmore, hproper, hsays, hvalid⟩
      exact ⟨more, ⟨more, hmore, rfl, hproper⟩, c, hsays, (), hvalid, rfl⟩

theorem flatten_injective : Function.Injective flatten := by
  intro values
  induction values with
  | nil =>
      intro others h
      cases others with
      | nil => rfl
      | cons other others => cases h
  | cons option values ih =>
      intro others h
      cases others with
      | nil => cases h
      | cons other others =>
          rw [flatten_cons, flatten_cons, List.cons.injEq, List.cons.injEq] at h
          rw [ih h.2.2, Prod.ext h.1 h.2.1]

theorem lookup_eq_some_iff (honce : (values.map Prod.fst).Nodup) {name value : String} :
    values.lookup name = some value ↔ (name, value) ∈ values := by
  induction values with
  | nil => simp
  | cons option values ih =>
      obtain ⟨other, given⟩ := option
      rw [List.map_cons, List.nodup_cons] at honce
      rw [List.lookup_cons, List.mem_cons, Prod.mk.injEq]
      by_cases hname : name = other
      · subst hname
        have hnot : (name, value) ∉ values :=
          fun hmem ↦ honce.1 (List.mem_map.mpr ⟨_, hmem, rfl⟩)
        simp [hnot, eq_comm]
      · have hbeq : (name == other) = false := beq_eq_false_iff_ne.mpr hname
        rw [hbeq, ih honce.2]
        simp [hname]

theorem lookup_perm {others : Values} (hperm : values.Perm others)
    (honce : (values.map Prod.fst).Nodup) (name : String) :
    values.lookup name = others.lookup name := by
  have hothers : (others.map Prod.fst).Nodup := (hperm.map Prod.fst).nodup_iff.mp honce
  apply Option.ext
  intro value
  rw [lookup_eq_some_iff honce, lookup_eq_some_iff hothers, hperm.mem_iff]

theorem Proper.perm {others : Values} (h : Proper values) (hperm : values.Perm others) :
    Proper others where
  known option hmem := h.known option (hperm.mem_iff.mpr hmem)
  value option hmem := h.value option (hperm.mem_iff.mpr hmem)
  once := (hperm.map Prod.fst).nodup_iff.mp h.once

theorem Says.congr {others : Values} (h : Says address values c)
    (hlookup : ∀ name, values.lookup name = others.lookup name) : Says address others c where
  output := hlookup _ ▸ h.output
  listen := hlookup _ ▸ h.listen
  connections := hlookup _ ▸ h.connections
  queue := hlookup _ ▸ h.queue
  payload := hlookup _ ▸ h.payload
  payload_le := h.payload_le
  turns := hlookup _ ▸ h.turns
  retained := hlookup _ ▸ h.retained
  active := hlookup _ ▸ h.active
  run := hlookup _ ▸ h.run
  file := hlookup _ ▸ h.file
  summary := hlookup _ ▸ h.summary
  status := hlookup _ ▸ h.status

/-- Options can be given in any order. A configuration is read from a command
line exactly when it is read from the same options in another order. -/
theorem parse_perm {others : Values} (hperm : values.Perm others) (program : String) :
    Config.parse address isDir (program :: flatten values) = .ok c ↔
      Config.parse address isDir (program :: flatten others) = .ok c := by
  have hone {values others : Values} (hperm : values.Perm others)
      (h : Config.parse address isDir (program :: flatten values) = .ok c) :
      Config.parse address isDir (program :: flatten others) = .ok c := by
    rw [parse_eq_ok_iff] at h ⊢
    obtain ⟨hhelp, given, hgiven, hproper, hsays, hvalid⟩ := h
    obtain rfl := flatten_injective hgiven
    refine ⟨?_, others, rfl, hproper.perm hperm,
      hsays.congr (lookup_perm hperm hproper.once), hvalid⟩
    intro hmem
    apply hhelp
    rw [List.mem_cons, flatten] at hmem ⊢
    exact hmem.imp_right fun h ↦ (hperm.flatMap_right _).mem_iff.mpr h
  exact ⟨hone hperm, hone hperm.symm⟩

/-- Two options in both orders, and ten defaults. -/
theorem parse_perm_two : ∃ c, Config.parse (some ⟨·⟩) (fun _ ↦ true)
      ["capture", "--max-file-bytes", "+200", "--output", "calls"] = .ok c ∧
    Config.parse (some ⟨·⟩) (fun _ ↦ true)
      ["capture", "--output", "calls", "--max-file-bytes", "+200"] = .ok c ∧ c.file = 200 := by
  let c : Config :=
    ⟨"calls", ⟨"127.0.0.1:9092"⟩, 16, 128, 4096, 64, 1048576, 16, 64, 200, 4096, 4096⟩
  have hfirst : Config.parse (some ⟨·⟩) (fun _ ↦ true) ("capture" :: flatten
      [("--max-file-bytes", "+200"), ("--output", "calls")]) = .ok c := by decide +kernel
  exact ⟨c, hfirst, (parse_perm (.swap _ _ _) "capture").mp hfirst, rfl⟩

/-! ## The command line of a configuration -/

theorem parseU64_toString {n : ℕ} (h : n ≤ u64Max) : parseU64 (toString n) = some n := by
  have hdigits : ∀ d ∈ Nat.toDigits 10 n, d.isDigit = true :=
    fun d hd ↦ Nat.isDigit_of_mem_toDigits (by decide) (by decide) hd
  have hplus : (Nat.toDigits 10 n).head? ≠ some '+' := by
    intro hhead
    have hd := hdigits '+' (List.mem_of_head? hhead)
    cases hd
  have hlist : (toString n).toList = Nat.toDigits 10 n := by
    rw [Nat.toString_eq_repr, Nat.toList_repr]
  unfold parseU64
  dsimp only
  rw [hlist, if_neg hplus, Nat.ofDigitChars_ten_toDigits]
  apply if_pos
  exact ⟨Nat.toDigits_ne_nil, List.all_eq_true.mpr hdigits, h⟩

theorem dashed_toString (n : ℕ) : dashed (toString n) = false := by
  have hlist : (toString n).toList = Nat.toDigits 10 n := by
    rw [Nat.toString_eq_repr, Nat.toList_repr]
  have hdash : "--".toList = ['-', '-'] := rfl
  unfold dashed
  rw [hlist, hdash]
  cases hdigits : Nat.toDigits 10 n with
  | nil => rfl
  | cons d digits =>
      have hd : d.isDigit = true :=
        Nat.isDigit_of_mem_toDigits (by decide) (by decide) (hdigits ▸ List.mem_cons_self)
      have hne : '-' ≠ d := by
        rintro rfl
        cases hd
      simp [List.isPrefixOf, hne]

/-- All options of a configuration. -/
def Config.options (c : Config) : Values := [
  ("--output", c.output), ("--listen", c.listen.text),
  ("--max-connections", toString c.connections), ("--queue-records", toString c.queue),
  ("--payload-bytes", toString c.payload), ("--turn-steps", toString c.turns),
  ("--retained-bytes", toString c.retained), ("--max-active-recordings", toString c.active),
  ("--max-recordings-per-run", toString c.run), ("--max-file-bytes", toString c.file),
  ("--max-recording-summary-bytes", toString c.summary),
  ("--max-run-status-bytes", toString c.status)]

theorem proper_options (houtput : dashed c.output = false)
    (hlisten : dashed c.listen.text = false) : Proper c.options where
  known := by
    unfold Config.options
    simp only [List.forall_mem_cons]
    decide
  value := by
    unfold Config.options
    simp only [List.forall_mem_cons, dashed_toString, houtput, hlisten]
    simp
  once := by
    have hnames : c.options.map Prod.fst = known := rfl
    rw [hnames]
    decide

theorem says_options (hlisten : address c.listen.text = some c.listen)
    (h : Says address values c) : Says address c.options c where
  output := rfl
  listen := hlisten
  connections := parseU64_toString (parseU64_le h.connections)
  queue := parseU64_toString (parseU64_le h.queue)
  payload := parseU64_toString (parseU64_le h.payload)
  payload_le := h.payload_le
  turns := parseU64_toString (parseU64_le h.turns)
  retained := parseU64_toString (parseU64_le h.retained)
  active := parseU64_toString (parseU64_le h.active)
  run := parseU64_toString (parseU64_le h.run)
  file := parseU64_toString (parseU64_le h.file)
  summary := parseU64_toString (parseU64_le h.summary)
  status := parseU64_toString (parseU64_le h.status)

/-- Every configuration that is accepted, from its options and from defaults, is
read back from a command line that states all its fields. -/
theorem parse_options {program : String} (hprogram : program ≠ "--help")
    (haddress : ∀ text listen, address text = some listen →
      address listen.text = some listen ∧ dashed listen.text = false)
    (h : Config.parse address isDir arguments = .ok c) :
    Config.parse address isDir (program :: flatten c.options) = .ok c := by
  obtain ⟨_, values, _, hproper, hsays, hvalid⟩ := parse_eq_ok_iff.mp h
  obtain ⟨hlisten, htext⟩ := haddress _ _ hsays.listen
  have houtput : dashed c.output = false :=
    hproper.value _ ((lookup_eq_some_iff hproper.once).mp hsays.output)
  have hoptions := proper_options houtput htext
  rw [parse_eq_ok_iff]
  refine ⟨?_, c.options, rfl, hoptions, says_options hlisten hsays, hvalid⟩
  intro hmem
  rw [List.mem_cons, flatten, List.mem_flatMap] at hmem
  rcases hmem with hhelp | ⟨option, hmem, hhelp⟩
  · exact hprogram hhelp.symm
  · rw [List.mem_pair] at hhelp
    rcases hhelp with hname | hvalue
    · have hknown := hoptions.known option hmem
      rw [← hname] at hknown
      revert hknown
      decide
    · have hplain := hoptions.value option hmem
      rw [← hvalue] at hplain
      revert hplain
      decide

/-- A system that knows one address. -/
def loopback (text : String) : Option SocketAddr :=
  if text = "[::1]:9092" then some ⟨text⟩ else none

theorem parse_options_loopback :
    ∃ c, Config.parse loopback (fun _ ↦ true)
        ["capture", "--output", "calls", "--listen", "[::1]:9092"] = .ok c ∧
      Config.parse loopback (fun _ ↦ true) ("capture" :: flatten c.options) = .ok c ∧
      c.active = 16 := by
  let c : Config :=
    ⟨"calls", ⟨"[::1]:9092"⟩, 16, 128, 4096, 64, 1048576, 16, 64, 67108864, 4096, 4096⟩
  have hfirst : Config.parse loopback (fun _ ↦ true)
      ["capture", "--output", "calls", "--listen", "[::1]:9092"] = .ok c := by decide +kernel
  have haddress : ∀ text listen, loopback text = some listen →
      loopback listen.text = some listen ∧ dashed listen.text = false := by
    intro text listen h
    unfold loopback at h
    split_ifs at h with htext
    cases h
    subst htext
    exact ⟨rfl, by decide⟩
  exact ⟨c, hfirst, parse_options (by decide) haddress hfirst, rfl⟩

/-! ## The usage -/

theorem head_append {text : String} {c : Char} (h : text.toList.head? = some c) (more : String) :
    (text ++ more).toList.head? = some c := by
  rw [String.toList_append, List.head?_append, h]
  rfl

theorem head_help : help.toList.head? = some 'U' := by
  unfold help
  apply head_append
  apply head_append
  apply head_append
  decide

theorem ne_help {e : String} (h : e.toList.head? ≠ some 'U') : e ≠ help := by
  rintro rfl
  exact h head_help

theorem append_ne_help {text : String} (htext : text.toList ≠ [])
    (h : text.toList.head? ≠ some 'U') (more : String) : text ++ more ≠ help := by
  apply ne_help
  rwa [String.toList_append, List.head?_append_of_ne_nil _ htext]

/-- No error of this result is the text of the usage. -/
def Complains {α : Type} (x : Except String α) : Prop := ∀ e, x = .error e → e ≠ help

theorem Complains.bind {α β : Type} {x : Except String α} {f : α → Except String β}
    (h : Complains x) (hf : ∀ a, Complains (f a)) : Complains (x >>= f) := by
  cases x with
  | error e =>
      rintro _ ⟨⟩
      exact h e rfl
  | ok a => exact hf a

theorem complains_ok {α : Type} (a : α) : Complains (.ok a) := by
  rintro e ⟨⟩

theorem complains_collect (arguments : List String) (values : Values) :
    Complains (collect arguments values) := by
  induction arguments, values using collect.induct with
  | case1 values => exact complains_ok values
  | case2 option values hknown =>
      rw [collect, if_pos hknown]
      rintro _ ⟨⟩
      exact append_ne_help (by decide) (by decide) option
  | case3 option values hknown =>
      rw [collect, if_neg hknown]
      rintro _ ⟨⟩
      exact append_ne_help (by decide) (by decide) option
  | case4 option value rest values hknown =>
      rw [collect, if_pos hknown]
      rintro _ ⟨⟩
      exact append_ne_help (by decide) (by decide) option
  | case5 option value rest values hknown hdashed =>
      rw [collect, if_neg hknown, if_pos hdashed]
      rintro _ ⟨⟩
      exact append_ne_help (by decide) (by decide) option
  | case6 option value rest values hknown hdashed htwice =>
      rw [collect, if_neg hknown, if_neg hdashed, if_pos htwice]
      rintro _ ⟨⟩
      exact append_ne_help (by decide) (by decide) option
  | case7 option value rest values hknown hdashed honce ih =>
      rwa [collect, if_neg hknown, if_neg hdashed, if_neg honce]

theorem complains_get (values : Values) (name default : String) :
    Complains (get values name default) := by
  unfold get
  split
  · exact complains_ok _
  · rintro _ ⟨⟩
    exact append_ne_help (by decide) (by decide) name

theorem complains_getWithin (maximum : ℕ) (values : Values) (name default : String) :
    Complains (getWithin maximum values name default) := by
  apply (complains_get values name default).bind
  intro value
  split_ifs
  · rintro _ ⟨⟩
    exact append_ne_help (by decide) (by decide) name
  · exact complains_ok value

theorem complains_read (address : String → Option SocketAddr) (values : Values) :
    Complains (Config.read address values) := by
  have houtput : Complains (readOutput values) := by
    unfold readOutput
    split
    · exact complains_ok _
    · rintro _ ⟨⟩
      exact ne_help (by decide)
  have hlisten : Complains (readListen address values) := by
    unfold readListen
    split
    · exact complains_ok _
    · rintro _ ⟨⟩
      exact ne_help (by decide)
  refine houtput.bind fun _ ↦ hlisten.bind fun _ ↦ ?_
  refine (complains_getWithin _ _ _ _).bind fun _ ↦ (complains_getWithin _ _ _ _).bind fun _ ↦ ?_
  refine (complains_getWithin _ _ _ _).bind fun _ ↦ (complains_getWithin _ _ _ _).bind fun _ ↦ ?_
  refine (complains_getWithin _ _ _ _).bind fun _ ↦ (complains_getWithin _ _ _ _).bind fun _ ↦ ?_
  refine (complains_get _ _ _).bind fun _ ↦ (complains_get _ _ _).bind fun _ ↦ ?_
  exact (complains_get _ _ _).bind fun _ ↦ (complains_get _ _ _).bind fun _ ↦ complains_ok _

theorem complains_validate (c : Config) (isDir : Bool) : Complains (c.validate isDir) := by
  unfold Config.validate
  split_ifs
  · rintro _ ⟨⟩
    exact ne_help (by decide)
  · rintro _ ⟨⟩
    exact ne_help (by decide)
  · rintro _ ⟨⟩
    exact ne_help (by decide)
  · rintro _ ⟨⟩
    exact ne_help (by decide)
  · intro e he
    unfold checkedOutputBound at he
    split at he
    · cases he
      exact ne_help (by decide)
    · split at he
      · cases he
        exact ne_help (by decide)
      · cases he

theorem parse_eq_help_iff : Config.parse address isDir arguments = .error help ↔
    arguments.length = 2 ∧ arguments[1]? = some "--help" := by
  unfold Config.parse
  split_ifs with halone hhelp
  · exact iff_of_true rfl halone
  · simp only [Except.error.injEq, halone, iff_false]
    exact ne_help (by decide)
  · simp only [halone, iff_false]
    intro herror
    refine ((complains_collect _ _).bind fun values ↦ (complains_read address values).bind
      fun c ↦ ?_) help herror rfl
    exact (complains_validate c _).bind fun _ ↦ complains_ok c

/-- The usage is printed, and the program then succeeds, exactly for a lone
`--help`; nothing else is printed, and the application runs exactly with the
configuration that was accepted. -/
theorem main_eq (run : Config → Except String Unit) :
    (arguments.length = 2 ∧ arguments[1]? = some "--help" →
      main address isDir run arguments = (some help, .ok ())) ∧
    (¬ (arguments.length = 2 ∧ arguments[1]? = some "--help") →
      main address isDir run arguments =
        (none, Config.parse address isDir arguments >>= run)) := by
  constructor
  · intro halone
    unfold main
    rw [parse_eq_help_iff.mpr halone]
    exact if_pos rfl
  · intro hother
    have hne : Config.parse address isDir arguments ≠ .error help :=
      fun h ↦ hother (parse_eq_help_iff.mp h)
    unfold main
    cases hparse : Config.parse address isDir arguments with
    | ok c => rfl
    | error e =>
        have hhelp : e ≠ help := by
          rintro rfl
          exact hne hparse
        exact if_neg hhelp

end System

end Phonowire.Capture
