import Mathlib.Tactic

/-!
# Compact JSON texts

Values of objects, strings, natural numbers, truth values and `null`, their
texts without spaces, and a reader. Strings are of printable characters that
need no escape. The reader gives back the value of every text, and it takes no
part of the text of an object for a value.
-/

mutual

inductive Json where
  | null
  | bool (value : Bool)
  | num (value : ℕ)
  | str (text : List Char)
  | obj (members : Members)

inductive Members where
  | nil
  | cons (name : List Char) (value : Json) (rest : Members)

end

namespace Json

/-! ## Texts -/

def quote : Char := Char.ofNat 34

def opening : Char := Char.ofNat 123

def closing : Char := Char.ofNat 125

/-- A character that stands for itself in a string. -/
def plain (c : Char) : Bool :=
  32 ≤ c.toNat && c.toNat < 127 && c != quote && c != Char.ofNat 92

def word (value : Bool) : List Char := if value then "true".toList else "false".toList

end Json

mutual

def Json.text : Json → List Char
  | .null => "null".toList
  | .bool value => Json.word value
  | .num value => Nat.toDigits 10 value
  | .str text => Json.quote :: (text ++ [Json.quote])
  | .obj members => Json.opening :: members.text

/-- The members of an object from the first one on, with its closing brace. -/
def Members.text : Members → List Char
  | .nil => [Json.closing]
  | .cons name value rest =>
      Json.quote :: (name ++ Json.quote :: ':' :: (value.text ++ rest.next))

/-- The members behind another one. -/
def Members.next : Members → List Char
  | .nil => [Json.closing]
  | .cons name value rest =>
      ',' :: Json.quote :: (name ++ Json.quote :: ':' :: (value.text ++ rest.next))

end

mutual

def Json.Plain : Json → Prop
  | .str text => ∀ c ∈ text, Json.plain c = true
  | .obj members => members.Plain
  | _ => True

def Members.Plain : Members → Prop
  | .nil => True
  | .cons name value rest => (∀ c ∈ name, Json.plain c = true) ∧ value.Plain ∧ rest.Plain

end

def Members.following (first : Bool) (members : Members) : List Char :=
  if first then members.text else members.next

namespace Json

/-! ## Reading -/

/-- What is left behind an expected beginning. -/
def skip : List Char → List Char → Option (List Char)
  | [], text => some text
  | _ :: _, [] => none
  | c :: expected, d :: text => if c = d then skip expected text else none

/-- The rest of a string and what is left behind it. -/
def quoted : List Char → Option (List Char × List Char)
  | [] => none
  | c :: text =>
      if c = quote then some ([], text)
      else if plain c then (quoted text).map fun read ↦ (c :: read.1, read.2)
      else none

/-- A number in its shortest form. -/
def number (text : List Char) : Option (Json × List Char) :=
  let digits := text.takeWhile Char.isDigit
  let value := Nat.ofDigitChars 10 digits 0
  if Nat.toDigits 10 value = digits then some (.num value, text.dropWhile Char.isDigit) else none

/-- Everything that begins with neither a brace, a quote nor a digit. -/
def named (text : List Char) : Option (Json × List Char) :=
  match skip "null".toList text, skip (word true) text, skip (word false) text with
  | some rest, _, _ => some (.null, rest)
  | none, some rest, _ => some (.bool true, rest)
  | none, none, some rest => some (.bool false, rest)
  | none, none, none => none

mutual

def value : ℕ → List Char → Option (Json × List Char)
  | 0, _ => none
  | _ + 1, [] => none
  | fuel + 1, c :: text =>
      if c = opening then (members fuel true text).map fun read ↦ (.obj read.1, read.2)
      else if c = quote then (quoted text).map fun read ↦ (.str read.1, read.2)
      else if c.isDigit then number (c :: text)
      else named (c :: text)

def members : ℕ → Bool → List Char → Option (Members × List Char)
  | 0, _, _ => none
  | _ + 1, _, [] => none
  | fuel + 1, first, c :: text =>
      if c = closing then some (.nil, text)
      else if first then member fuel (c :: text)
      else if c = ',' then member fuel text
      else none

def member : ℕ → List Char → Option (Members × List Char)
  | 0, _ => none
  | fuel + 1, text =>
      (skip [quote] text).bind fun text ↦
      (quoted text).bind fun name ↦
      (skip [':'] name.2).bind fun text ↦
      (value fuel text).bind fun read ↦
      (members fuel false read.2).map fun rest ↦ (.cons name.1 read.1 rest.1, rest.2)

end

/-- The value of a whole text. -/
def parse (text : List Char) : Option Json :=
  match value (3 * text.length) text with
  | some (v, []) => some v
  | _ => none

/-! ## Texts are read back -/

theorem skip_eq_some_iff {expected text rest : List Char} :
    skip expected text = some rest ↔ text = expected ++ rest := by
  induction expected generalizing text with
  | nil => simp [skip, eq_comm]
  | cons c expected ih =>
      cases text with
      | nil => simp [skip]
      | cons d text =>
          simp only [skip, List.cons_append, List.cons.injEq]
          split_ifs with hc
          · simp [hc, ih]
          · simp [Ne.symm hc]

theorem skip_append (expected rest : List Char) : skip expected (expected ++ rest) = some rest :=
  skip_eq_some_iff.mpr rfl

theorem quoted_append {text : List Char} (h : ∀ c ∈ text, plain c = true) (rest : List Char) :
    quoted (text ++ quote :: rest) = some (text, rest) := by
  induction text with
  | nil => simp [quoted]
  | cons c text ih =>
      have hc := h c List.mem_cons_self
      have hquote : c ≠ quote := by
        rintro rfl
        cases hc
      have hrest := ih fun d hd ↦ h d (List.mem_cons_of_mem c hd)
      simp [quoted, hquote, hc, hrest]

/-- A number ends at the first character that is no digit. -/
def Stops (rest : List Char) : Prop := ∀ c ∈ rest.head?, c.isDigit = false

theorem stops_cons {c : Char} (hc : c.isDigit = false) (rest : List Char) : Stops (c :: rest) := by
  rintro d ⟨⟩
  exact hc

theorem takeWhile_of_stops {digits rest : List Char} (hdigits : ∀ c ∈ digits, c.isDigit = true)
    (h : Stops rest) : (digits ++ rest).takeWhile Char.isDigit = digits ∧
      (digits ++ rest).dropWhile Char.isDigit = rest := by
  have hstop : rest.takeWhile Char.isDigit = [] ∧ rest.dropWhile Char.isDigit = rest := by
    cases rest with
    | nil => exact ⟨rfl, rfl⟩
    | cons c rest =>
        have hc := h c rfl
        simp [hc]
  rw [List.takeWhile_append_of_pos hdigits, List.dropWhile_append_of_pos hdigits, hstop.1, hstop.2,
    List.append_nil]
  exact ⟨rfl, rfl⟩

theorem number_append (n : ℕ) {rest : List Char} (h : Stops rest) :
    number (Nat.toDigits 10 n ++ rest) = some (.num n, rest) := by
  have hdigits : ∀ c ∈ Nat.toDigits 10 n, c.isDigit = true :=
    fun c hc ↦ Nat.isDigit_of_mem_toDigits (by decide) (by decide) hc
  obtain ⟨htake, hdrop⟩ := takeWhile_of_stops hdigits h
  unfold number
  dsimp only
  rw [htake, hdrop, Nat.ofDigitChars_ten_toDigits, if_pos rfl]

theorem named_null (rest : List Char) : named ("null".toList ++ rest) = some (.null, rest) := by
  unfold named
  rw [skip_append]

theorem named_word (b : Bool) (rest : List Char) :
    named (word b ++ rest) = some (.bool b, rest) := by
  cases b <;> simp [named, word, skip]

theorem text_pos (v : Json) : 0 < v.text.length := by
  cases v with
  | null => decide
  | bool b => cases b <;> decide
  | num n =>
      rw [Json.text]
      exact List.length_pos_iff.mpr Nat.toDigits_ne_nil
  | str text => simp [Json.text]
  | obj members => simp [Json.text]

theorem following_pos (first : Bool) (m : Members) : 0 < (m.following first).length := by
  cases m <;> cases first <;> simp [Members.following, Members.text, Members.next]

theorem stops_next (m : Members) (rest : List Char) : Stops (m.next ++ rest) := by
  cases m with
  | nil => exact stops_cons (by decide) rest
  | cons name v more => exact stops_cons (by decide) _

/-- What is read back with this much fuel. -/
structure Reads (fuel : ℕ) : Prop where
  value : ∀ (v : Json) (rest : List Char), v.Plain → Stops rest → 3 * v.text.length ≤ fuel →
    value fuel (v.text ++ rest) = some (v, rest)
  members : ∀ first (m : Members) (rest : List Char), m.Plain →
    3 * (m.following first).length ≤ fuel + 1 →
      members fuel first (m.following first ++ rest) = some (m, rest)
  member : ∀ name (v : Json) (more : Members) (rest : List Char),
    (Members.cons name v more).Plain → 3 * (Members.cons name v more).text.length ≤ fuel + 2 →
      member fuel ((Members.cons name v more).text ++ rest) = some (.cons name v more, rest)

theorem reads_zero : Reads 0 where
  value v rest _ _ hfuel := by
    have hpos := v.text_pos
    omega
  members first m rest _ hfuel := by
    have hpos := following_pos first m
    omega
  member name v more rest _ hfuel := by
    rw [Members.text, List.length_cons] at hfuel
    omega

theorem Reads.succ_value {fuel : ℕ} (h : Reads fuel) (v : Json) (rest : List Char)
    (hplain : v.Plain) (hstops : Stops rest) (hfuel : 3 * v.text.length ≤ fuel + 1) :
    Json.value (fuel + 1) (v.text ++ rest) = some (v, rest) := by
  cases v with
  | null => exact named_null rest
  | bool b =>
      cases b
      · exact named_word false rest
      · exact named_word true rest
  | num n =>
      cases hdigits : Nat.toDigits 10 n with
      | nil => exact absurd hdigits Nat.toDigits_ne_nil
      | cons c digits =>
          have hc : c.isDigit = true :=
            Nat.isDigit_of_mem_toDigits (by decide) (by decide) (hdigits ▸ List.mem_cons_self)
          have hopening : c ≠ opening := by
            rintro rfl
            cases hc
          have hquote : c ≠ quote := by
            rintro rfl
            cases hc
          rw [Json.text, hdigits, List.cons_append, Json.value, if_neg hopening, if_neg hquote,
            if_pos hc, ← List.cons_append, ← hdigits]
          exact number_append n hstops
  | str text =>
      have hopening : quote ≠ opening := by decide
      rw [Json.text, List.cons_append, Json.value, if_neg hopening, if_pos rfl, List.append_assoc,
        List.singleton_append, quoted_append hplain]
      rfl
  | obj m =>
      rw [Json.text, List.length_cons] at hfuel
      have hread := h.members true m rest hplain (by rw [Members.following, if_pos rfl]; omega)
      rw [Members.following, if_pos rfl] at hread
      rw [Json.text, List.cons_append, Json.value, if_pos rfl, hread]
      rfl

theorem Reads.succ_members {fuel : ℕ} (h : Reads fuel) (first : Bool) (m : Members)
    (rest : List Char) (hplain : m.Plain)
    (hfuel : 3 * (m.following first).length ≤ fuel + 2) :
    Json.members (fuel + 1) first (m.following first ++ rest) = some (m, rest) := by
  cases m with
  | nil => cases first <;> rfl
  | cons name v more =>
      cases first with
      | true =>
          rw [Members.following, if_pos rfl] at hfuel ⊢
          have hread := h.member name v more rest hplain hfuel
          have hquote : quote ≠ closing := by decide
          rw [Members.text, List.cons_append] at hread ⊢
          rw [Json.members, if_neg hquote, if_pos rfl, hread]
      | false =>
          have hnext : (Members.cons name v more).next =
              ',' :: (Members.cons name v more).text := by
            rw [Members.next, Members.text]
          have hcomma : ',' ≠ closing := by decide
          rw [Members.following, if_neg Bool.false_ne_true, hnext] at hfuel ⊢
          rw [List.length_cons] at hfuel
          rw [List.cons_append, Json.members, if_neg hcomma, if_neg Bool.false_ne_true, if_pos rfl]
          exact h.member name v more rest hplain (by omega)

theorem Reads.succ_member {fuel : ℕ} (h : Reads fuel) (name : List Char) (v : Json)
    (more : Members) (rest : List Char) (hplain : (Members.cons name v more).Plain)
    (hfuel : 3 * (Members.cons name v more).text.length ≤ fuel + 3) :
    Json.member (fuel + 1) ((Members.cons name v more).text ++ rest) =
      some (.cons name v more, rest) := by
  obtain ⟨hname, hv, hmore⟩ := hplain
  have hpos := following_pos false more
  have hvalue := v.text_pos
  rw [Members.following, if_neg Bool.false_ne_true] at hpos
  simp only [Members.text, List.length_cons, List.length_append] at hfuel
  have hread := h.value v (more.next ++ rest) hv (stops_next more rest) (by omega)
  have hlater := h.members false more rest hmore
    (by rw [Members.following, if_neg Bool.false_ne_true]; omega)
  rw [Members.following, if_neg Bool.false_ne_true] at hlater
  have hquote (later : List Char) : skip [quote] (quote :: later) = some later := rfl
  have hcolon (later : List Char) : skip [':'] (':' :: later) = some later := rfl
  simp only [Members.text, List.cons_append, List.append_assoc, Json.member, hquote,
    Option.bind_some, quoted_append hname, hcolon, hread, hlater, Option.map_some]

theorem reads (fuel : ℕ) : Reads fuel := by
  induction fuel with
  | zero => exact reads_zero
  | succ fuel ih => exact ⟨ih.succ_value, ih.succ_members, ih.succ_member⟩

theorem quoted_extend {text later : List Char} {read : List Char × List Char}
    (h : quoted text = some read) : quoted (text ++ later) = some (read.1, read.2 ++ later) := by
  induction text generalizing read with
  | nil => cases h
  | cons c text ih =>
      rw [List.cons_append, quoted]
      rw [quoted] at h
      split_ifs at h ⊢ with hquote hplain
      · cases h
        rfl
      · obtain ⟨inner, hinner, rfl⟩ := Option.map_eq_some_iff.mp h
        rw [ih hinner]
        rfl

theorem skip_extend {expected text rest : List Char} (h : skip expected text = some rest)
    (later : List Char) : skip expected (text ++ later) = some (rest ++ later) := by
  rw [skip_eq_some_iff] at h ⊢
  rw [h, List.append_assoc]

theorem number_extend {text rest later : List Char} {v : Json}
    (h : number text = some (v, rest)) (hrest : rest ≠ []) :
    number (text ++ later) = some (v, rest ++ later) := by
  unfold number at h
  dsimp only at h
  split_ifs at h with hshort
  rw [Option.some.injEq, Prod.mk.injEq] at h
  obtain ⟨rfl, rfl⟩ := h
  have hdigits : ∀ c ∈ text.takeWhile Char.isDigit, c.isDigit = true :=
    List.all_eq_true.mp List.all_takeWhile
  have hstops : Stops (text.dropWhile Char.isDigit ++ later) := by
    intro c hc
    rw [List.head?_append_of_ne_nil _ hrest] at hc
    have hhead := List.head?_dropWhile_not Char.isDigit text
    rw [Option.mem_def.mp hc] at hhead
    simpa using hhead
  have hsplit : text ++ later =
      text.takeWhile Char.isDigit ++ (text.dropWhile Char.isDigit ++ later) := by
    rw [← List.append_assoc, List.takeWhile_append_dropWhile]
  obtain ⟨htake, hdrop⟩ := takeWhile_of_stops hdigits hstops
  unfold number
  dsimp only
  rw [hsplit, htake, hdrop, if_pos hshort]

theorem named_extend {text rest : List Char} {v : Json} (h : named text = some (v, rest))
    (later : List Char) : named (text ++ later) = some (v, rest ++ later) := by
  unfold named at h
  split at h
  · rename_i more hskip
    obtain ⟨rfl, rfl⟩ := Prod.mk.inj (Option.some.inj h)
    rw [skip_eq_some_iff.mp hskip, List.append_assoc]
    exact named_null _
  · rename_i more _ hskip
    obtain ⟨rfl, rfl⟩ := Prod.mk.inj (Option.some.inj h)
    rw [skip_eq_some_iff.mp hskip, List.append_assoc]
    exact named_word true _
  · rename_i more _ _ hskip
    obtain ⟨rfl, rfl⟩ := Prod.mk.inj (Option.some.inj h)
    rw [skip_eq_some_iff.mp hskip, List.append_assoc]
    exact named_word false _
  · cases h

/-- More text behind a value that is finished is left over. -/
structure Extends (fuel : ℕ) : Prop where
  value : ∀ {text v rest}, Json.value fuel text = some (v, rest) →
    (rest ≠ [] ∨ ∃ m, v = .obj m) → ∀ later,
      Json.value fuel (text ++ later) = some (v, rest ++ later)
  members : ∀ {first text m rest}, Json.members fuel first text = some (m, rest) → ∀ later,
    Json.members fuel first (text ++ later) = some (m, rest ++ later)
  member : ∀ {text m rest}, Json.member fuel text = some (m, rest) → ∀ later,
    Json.member fuel (text ++ later) = some (m, rest ++ later)

theorem members_ne_nil {fuel : ℕ} {first : Bool} {text rest : List Char} {m : Members}
    (h : members fuel first text = some (m, rest)) : text ≠ [] := by
  rintro rfl
  cases fuel <;> cases h

theorem Extends.succ {fuel : ℕ} (h : Extends fuel) : Extends (fuel + 1) := by
  refine ⟨?_, ?_, ?_⟩
  · intro text v rest hread hends later
    cases text with
    | nil => cases hread
    | cons c text =>
        rw [List.cons_append, Json.value]
        rw [Json.value] at hread
        split_ifs at hread ⊢ with hopening hquote hdigit
        · obtain ⟨⟨m, more⟩, hm, heq⟩ := Option.map_eq_some_iff.mp hread
          obtain ⟨rfl, rfl⟩ := Prod.mk.inj heq
          rw [h.members hm]
          rfl
        · obtain ⟨read, hq, heq⟩ := Option.map_eq_some_iff.mp hread
          obtain ⟨rfl, rfl⟩ := Prod.mk.inj heq
          rw [quoted_extend hq]
          rfl
        · apply number_extend hread
          rcases hends with hne | ⟨m, rfl⟩
          · exact hne
          · unfold number at hread
            dsimp only at hread
            split_ifs at hread
            cases hread
        · exact named_extend hread later
  · intro first text m rest hread later
    cases text with
    | nil => cases hread
    | cons c text =>
        rw [List.cons_append, Json.members]
        rw [Json.members] at hread
        split_ifs at hread ⊢ with hclosing hfirst hcomma
        · cases hread
          rfl
        · exact h.member hread later
        · exact h.member hread later
  · intro text m rest hread later
    simp only [Json.member, Option.bind_eq_some_iff, Option.map_eq_some_iff] at hread ⊢
    obtain ⟨behind, hquote, name, hname, more, hcolon, v, hv, others, hothers, heq⟩ := hread
    obtain ⟨rfl, rfl⟩ := Prod.mk.inj heq
    exact ⟨_, skip_extend hquote later, _, quoted_extend hname, _, skip_extend hcolon later, _,
      h.value hv (.inl (members_ne_nil hothers)) later, _, h.members hothers later, rfl⟩

def field (members : Members) (name : List Char) : Option Json :=
  match members with
  | .nil => none
  | .cons other value rest => if other = name then some value else field rest name

/-- The value at a path of names. -/
def get : List String → Json → Option Json
  | [], v => some v
  | name :: path, .obj members => (field members name.toList).bind (get path)
  | _ :: _, _ => none

theorem ascii_of_plain {text : List Char} (h : ∀ c ∈ text, plain c = true) :
    ∀ c ∈ text, c.toNat < 128 := by
  intro c hc
  have hplain := h c hc
  unfold plain at hplain
  simp only [Bool.and_eq_true, decide_eq_true_eq] at hplain
  omega

theorem ascii_of_all {text : List Char} (h : text.all (·.toNat < 128) = true) :
    ∀ c ∈ text, c.toNat < 128 := by
  intro c hc
  exact of_decide_eq_true (List.all_eq_true.mp h c hc)

theorem ascii_digits (n : ℕ) : ∀ c ∈ Nat.toDigits 10 n, c.toNat < 128 := by
  intro c hc
  have hdigit : c.isDigit = true := Nat.isDigit_of_mem_toDigits (by decide) (by decide) hc
  unfold Char.isDigit at hdigit
  simp only [Bool.and_eq_true, decide_eq_true_eq, ge_iff_le] at hdigit
  have hle := UInt32.le_iff_toNat_le.mp hdigit.2
  have hnine : '9'.val.toNat = 57 := rfl
  rw [hnine] at hle
  exact hle.trans_lt (by decide)

end Json

mutual

theorem Json.ascii : (v : Json) → v.Plain → ∀ c ∈ v.text, c.toNat < 128
  | .null, _ => Json.ascii_of_all rfl
  | .bool true, _ => Json.ascii_of_all rfl
  | .bool false, _ => Json.ascii_of_all rfl
  | .num n, _ => Json.ascii_digits n
  | .str text, h => by
      simp only [Json.text, List.forall_mem_cons, List.forall_mem_append]
      exact ⟨by decide, Json.ascii_of_plain h, by decide, Json.ascii_of_all rfl⟩
  | .obj m, h => by
      simp only [Json.text, List.forall_mem_cons]
      exact ⟨by decide, (Members.ascii m h).1⟩

theorem Members.ascii : (m : Members) → m.Plain →
    (∀ c ∈ m.text, c.toNat < 128) ∧ ∀ c ∈ m.next, c.toNat < 128
  | .nil, _ => ⟨Json.ascii_of_all rfl, Json.ascii_of_all rfl⟩
  | .cons name v rest, h => by
      simp only [Members.text, Members.next, List.forall_mem_cons, List.forall_mem_append]
      have hname := Json.ascii_of_plain h.1
      have hv := Json.ascii v h.2.1
      have hrest := (Members.ascii rest h.2.2).2
      exact ⟨⟨by decide, hname, by decide, by decide, hv, hrest⟩,
        by decide, by decide, hname, by decide, by decide, hv, hrest⟩

end

namespace Json

/-- The characters of bytes that are each one character. -/
def decode (bytes : List UInt8) : List Char := bytes.map fun byte ↦ Char.ofNat byte.toNat

end Json
