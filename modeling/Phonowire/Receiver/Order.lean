import Phonowire.Library.Totals

/-!
# FIFO membership that unlinks any token

The scheduler's three queues are doubly linked lists threaded through a map, so
that a token leaves from the middle without a scan. `Order` is that structure
with its two ends; `none` is the failed `expect` of a missing link. A `Fifo` is
an order together with the list that it represents, and its operations are those
of the order on the list.
-/

namespace Phonowire.Receiver

/-- `mio::Token`. -/
abbrev Token := ℕ

structure Links where
  previous : Option Token
  next : Option Token
  deriving DecidableEq, Repr

structure Order where
  first : Option Token
  last : Option Token
  links : Std.TreeMap Token Links

namespace Order

protected def default : Order := ⟨none, none, ∅⟩

/-- `link_mut` with the update that follows it. -/
def linkMut (o : Order) (token : Token) (update : Links → Links) : Option Order :=
  match o.links[token]? with
  | some links => some { o with links := o.links.insert token (update links) }
  | none => none

/-- The link to the token after `token`, which is the front of the order when
there is no such token. -/
def setNext (o : Order) (token next : Option Token) : Option Order :=
  match token with
  | some token => o.linkMut token ({ · with next })
  | none => some { o with first := next }

def setPrevious (o : Order) (token previous : Option Token) : Option Order :=
  match token with
  | some token => o.linkMut token ({ · with previous })
  | none => some { o with last := previous }

def pushBack (o : Order) (token : Token) : Option Order :=
  if o.links.contains token then some o
  else do
    let inserted := { o with links := o.links.insert token ⟨o.last, none⟩ }
    let linked ← inserted.setNext o.last (some token)
    some { linked with last := some token }

def remove (o : Order) (token : Token) : Option Order :=
  match o.links[token]? with
  | none => some o
  | some links => do
      let erased := { o with links := o.links.erase token }
      let linked ← erased.setNext links.previous links.next
      linked.setPrevious links.next links.previous

def popFront (o : Order) : Option (Order × Option Token) :=
  match o.first with
  | none => some (o, none)
  | some token => (o.remove token).map (·, some token)

/-! ## The list of an order -/

/-- The order is the doubly linked form of the list. -/
structure Lists (o : Order) (tokens : List Token) : Prop where
  nodup : tokens.Nodup
  first : o.first = tokens.head?
  last : o.last = tokens.getLast?
  absent : ∀ token, token ∉ tokens → o.links[token]? = none
  linked : ∀ before token after, tokens = before ++ token :: after →
    o.links[token]? = some ⟨before.getLast?, after.head?⟩

theorem lists_default : Order.default.Lists [] := by
  refine ⟨List.nodup_nil, rfl, rfl, fun token _ ↦ ?_, ?_⟩
  · simp [Order.default]
  · intro before token after hsplit
    simp at hsplit

section Lists

variable {o : Order} {tokens : List Token} {token : Token}

theorem Lists.isSome_iff (h : o.Lists tokens) : o.links[token]?.isSome ↔ token ∈ tokens := by
  constructor
  · intro hsome
    by_contra hmem
    simp [h.absent token hmem] at hsome
  · intro hmem
    obtain ⟨before, after, hsplit⟩ := List.append_of_mem hmem
    simp [h.linked before token after hsplit]

theorem Lists.contains_iff (h : o.Lists tokens) :
    o.links.contains token = true ↔ token ∈ tokens := by
  rw [← h.isSome_iff, Std.TreeMap.contains_eq_isSome_getElem?]

theorem split_unique {before after before' after' : List Token}
    (hnodup : (before ++ token :: after).Nodup)
    (hsplit : before ++ token :: after = before' ++ token :: after') :
    before = before' ∧ after = after' := by
  have hnot : token ∉ before := by
    intro hmem
    exact (List.nodup_append.mp hnodup).2.2 token hmem token List.mem_cons_self rfl
  have hnot' : token ∉ before' := by
    intro hmem
    rw [hsplit] at hnodup
    exact (List.nodup_append.mp hnodup).2.2 token hmem token List.mem_cons_self rfl
  have hindex := congrArg (List.idxOf token) hsplit
  rw [List.idxOf_append_of_notMem hnot, List.idxOf_append_of_notMem hnot'] at hindex
  simp only [List.idxOf_cons_self, Nat.add_zero] at hindex
  obtain ⟨hbefore, hafter⟩ := List.append_inj hsplit hindex
  exact ⟨hbefore, (List.cons.inj hafter).2⟩

/-- It is enough to find the links of each token at one place. -/
theorem lists_of_links (hnodup : tokens.Nodup) (hfirst : o.first = tokens.head?)
    (hlast : o.last = tokens.getLast?)
    (habsent : ∀ token, token ∉ tokens → o.links[token]? = none)
    (hlinks : ∀ token ∈ tokens, ∃ before after, tokens = before ++ token :: after ∧
      o.links[token]? = some ⟨before.getLast?, after.head?⟩) : o.Lists tokens := by
  refine ⟨hnodup, hfirst, hlast, habsent, ?_⟩
  intro before token after hsplit
  obtain ⟨before', after', hsplit', hlink⟩ := hlinks token (by rw [hsplit]; simp)
  obtain ⟨rfl, rfl⟩ := split_unique (hsplit ▸ hnodup) (hsplit.symm.trans hsplit')
  exact hlink

theorem Lists.pushBack_of_mem (h : o.Lists tokens) (hmem : token ∈ tokens) :
    o.pushBack token = some o := by
  rw [pushBack, if_pos (h.contains_iff.mpr hmem)]

theorem setNext_spec (o : Order) (at_ next : Option Token)
    (hpresent : ∀ t, at_ = some t → o.links[t]?.isSome) :
    ∃ o', o.setNext at_ next = some o' ∧ o'.last = o.last ∧
      o'.first = (if at_ = none then next else o.first) ∧
      ∀ t, o'.links[t]? =
        if at_ = some t then o.links[t]?.map ({ · with next }) else o.links[t]? := by
  cases at_ with
  | none => exact ⟨_, rfl, rfl, by simp, by simp⟩
  | some token =>
      obtain ⟨links, hlinks⟩ := Option.isSome_iff_exists.mp (hpresent token rfl)
      refine ⟨{ o with links := o.links.insert token { links with next } }, ?_, rfl, by simp, ?_⟩
      · simp [setNext, linkMut, hlinks]
      · intro t
        by_cases ht : token = t
        · subst ht
          rw [Std.TreeMap.getElem?_insert_self, if_pos rfl, hlinks]
          rfl
        · rw [Std.TreeMap.getElem?_insert_of_ne ht, if_neg (by simpa using ht)]

theorem setPrevious_spec (o : Order) (at_ previous : Option Token)
    (hpresent : ∀ t, at_ = some t → o.links[t]?.isSome) :
    ∃ o', o.setPrevious at_ previous = some o' ∧ o'.first = o.first ∧
      o'.last = (if at_ = none then previous else o.last) ∧
      ∀ t, o'.links[t]? =
        if at_ = some t then o.links[t]?.map ({ · with previous }) else o.links[t]? := by
  cases at_ with
  | none => exact ⟨_, rfl, rfl, by simp, by simp⟩
  | some token =>
      obtain ⟨links, hlinks⟩ := Option.isSome_iff_exists.mp (hpresent token rfl)
      refine ⟨{ o with links := o.links.insert token { links with previous } }, ?_, rfl, by simp, ?_⟩
      · simp [setPrevious, linkMut, hlinks]
      · intro t
        by_cases ht : token = t
        · subst ht
          rw [Std.TreeMap.getElem?_insert_self, if_pos rfl, hlinks]
          rfl
        · rw [Std.TreeMap.getElem?_insert_of_ne ht, if_neg (by simpa using ht)]

theorem Lists.pushBack_of_notMem (h : o.Lists tokens) (hmem : token ∉ tokens) :
    ∃ o', o.pushBack token = some o' ∧ o'.Lists (tokens ++ [token]) := by
  have hnodup : (tokens ++ [token]).Nodup := by
    rw [List.nodup_append]
    refine ⟨h.nodup, List.nodup_singleton token, ?_⟩
    rintro a ha b hb rfl
    rw [List.mem_singleton.mp hb] at ha
    exact hmem ha
  have hcontains : ¬ o.links.contains token = true := by
    rw [h.contains_iff]
    exact hmem
  have hlastMem : ∀ t, o.last = some t → t ∈ tokens := by
    intro t ht
    rw [h.last] at ht
    exact List.mem_of_getLast? ht
  have hne : ∀ t, t ∈ tokens → token ≠ t := by
    rintro t ht rfl
    exact hmem ht
  obtain ⟨linked, hlinked, _, hfirst, hlinks⟩ := setNext_spec
    { o with links := o.links.insert token ⟨o.last, none⟩ } o.last (some token) (by
      intro t ht
      rw [Std.TreeMap.getElem?_insert_of_ne (hne t (hlastMem t ht))]
      exact h.isSome_iff.mpr (hlastMem t ht))
  refine ⟨{ linked with last := some token }, ?_, ?_⟩
  · simp [pushBack, hcontains, hlinked]
  · refine lists_of_links hnodup ?_ (by simp) ?_ ?_
    · rw [hfirst, h.last, h.first]
      cases tokens with
      | nil => rfl
      | cons x xs => simp
    · intro other hother
      simp only [List.mem_append, List.mem_singleton, not_or] at hother
      rw [hlinks, if_neg, Std.TreeMap.getElem?_insert_of_ne (Ne.symm hother.2)]
      · exact h.absent other hother.1
      · exact fun hlast ↦ hother.1 (hlastMem other hlast)
    · intro other hother
      rcases List.mem_append.mp hother with hold | hnew
      · obtain ⟨before, after, hsplit⟩ := List.append_of_mem hold
        refine ⟨before, after ++ [token], by simp [hsplit], ?_⟩
        rw [hlinks, Std.TreeMap.getElem?_insert_of_ne (hne other hold), h.last,
          h.linked before other after hsplit]
        subst hsplit
        cases after with
        | nil => simp
        | cons x xs =>
            have hneq : ¬ (before ++ other :: x :: xs).getLast? = some other := by
              intro hlast
              have hrest : (x :: xs).getLast? = some other := by simpa using hlast
              have hdup := (List.nodup_cons.mp (List.nodup_append.mp h.nodup).2.1).1
              exact hdup (List.mem_of_getLast? hrest)
            rw [if_neg hneq]
            simp
      · obtain rfl := List.mem_singleton.mp hnew
        refine ⟨tokens, [], rfl, ?_⟩
        rw [hlinks, if_neg (fun hlast ↦ hmem (hlastMem _ hlast)), Std.TreeMap.getElem?_insert_self,
          h.last]
        rfl

theorem Lists.remove_of_notMem (h : o.Lists tokens) (hmem : token ∉ tokens) :
    o.remove token = some o := by
  rw [remove, h.absent token hmem]

/-- The new neighbours of a removed token are linked to each other. -/
theorem Lists.remove_of_split {before after : List Token} (h : o.Lists (before ++ token :: after)) :
    ∃ o', o.remove token = some o' ∧ o'.Lists (before ++ after) := by
  have hnodup := h.nodup
  have hsub : (before ++ after).Sublist (before ++ token :: after) :=
    (List.Sublist.refl before).append (List.sublist_cons_self token after)
  have hlink := h.linked before token after rfl
  have hbefore : ∀ t ∈ before, token ≠ t := by
    rintro t ht rfl
    exact (List.nodup_append.mp hnodup).2.2 _ ht _ List.mem_cons_self rfl
  have hafter : ∀ t ∈ after, token ≠ t := by
    rintro t ht rfl
    exact (List.nodup_cons.mp (List.nodup_append.mp hnodup).2.1).1 ht
  have hprevious : ∀ t, before.getLast? = some t → t ∈ before := fun t ↦ List.mem_of_getLast?
  have hnext : ∀ t, after.head? = some t → t ∈ after := fun t ht ↦ List.mem_of_mem_head? ht
  obtain ⟨linked, hlinked, hlast, hfirst, hlinks⟩ := setNext_spec
    { o with links := o.links.erase token } before.getLast? after.head? (by
      intro t ht
      rw [Std.TreeMap.getElem?_erase_of_ne (hbefore t (hprevious t ht))]
      exact h.isSome_iff.mpr (List.mem_append_left _ (hprevious t ht)))
  obtain ⟨o', ho', hfirst', hlast', hlinks'⟩ := setPrevious_spec linked after.head? before.getLast? (by
    intro t ht
    have hsome : o.links[t]?.isSome := h.isSome_iff.mpr
      (List.mem_append_right _ (List.mem_cons_of_mem _ (hnext t ht)))
    rw [hlinks, Std.TreeMap.getElem?_erase_of_ne (hafter t (hnext t ht))]
    split_ifs
    · simpa using hsome
    · exact hsome)
  refine ⟨o', ?_, ?_⟩
  · simp [remove, hlink, hlinked, ho']
  · refine lists_of_links (hnodup.sublist hsub) ?_ ?_ ?_ ?_
    · rw [hfirst', hfirst, h.first]
      cases before <;> simp
    · rw [hlast', hlast, h.last]
      cases after with
      | nil => simp
      | cons x xs => simp
    · intro other hother
      by_cases hsame : token = other
      · subst hsame
        have hgone : linked.links[token]? = none := by
          rw [hlinks]
          simp
        rw [hlinks', hgone]
        simp
      · have habsent := h.absent other (by
          simp only [List.mem_append, List.mem_cons, not_or] at hother ⊢
          exact ⟨hother.1, Ne.symm hsame, hother.2⟩)
        rw [hlinks', hlinks, Std.TreeMap.getElem?_erase_of_ne hsame, habsent]
        simp
    · intro other hother
      rcases List.mem_append.mp hother with hold | hold
      · obtain ⟨front, back, rfl⟩ := List.append_of_mem hold
        refine ⟨front, back ++ after, by simp, ?_⟩
        have hdisjoint : ¬ after.head? = some other := by
          intro hhead
          exact (List.nodup_append.mp hnodup).2.2 other hold other
            (List.mem_cons_of_mem _ (hnext other hhead)) rfl
        rw [hlinks', if_neg hdisjoint, hlinks,
          Std.TreeMap.getElem?_erase_of_ne (hbefore other hold),
          h.linked front other (back ++ token :: after) (by simp)]
        cases back with
        | nil => simp
        | cons x xs =>
            have hne : ¬ (front ++ other :: x :: xs).getLast? = some other := by
              intro hlast
              have hrest : (x :: xs).getLast? = some other := by simpa using hlast
              have hinner := (List.nodup_append.mp hnodup).1
              exact (List.nodup_cons.mp (List.nodup_append.mp hinner).2.1).1
                (List.mem_of_getLast? hrest)
            rw [if_neg hne]
            simp
      · obtain ⟨front, back, rfl⟩ := List.append_of_mem hold
        refine ⟨before ++ front, back, by simp, ?_⟩
        have hdisjoint : ¬ before.getLast? = some other := by
          intro hlast
          exact (List.nodup_append.mp hnodup).2.2 other (hprevious other hlast) other
            (List.mem_cons_of_mem _ hold) rfl
        rw [hlinks', hlinks, if_neg hdisjoint,
          Std.TreeMap.getElem?_erase_of_ne (hafter other hold),
          h.linked (before ++ token :: front) other back (by simp)]
        cases front with
        | nil => simp
        | cons x xs =>
            have hne : ¬ (x :: xs ++ other :: back).head? = some other := by
              intro hhead
              obtain rfl : x = other := by simpa using hhead
              have hinner := (List.nodup_cons.mp (List.nodup_append.mp hnodup).2.1).2
              exact (List.nodup_cons.mp hinner).1 (by simp)
            rw [if_neg hne]
            simp

theorem Lists.size_eq (h : o.Lists tokens) : o.links.size = tokens.length := by
  have hperm : o.links.keys.Perm tokens := by
    rw [List.perm_ext_iff_of_nodup _ h.nodup]
    · intro token
      rw [Std.TreeMap.mem_keys, ← Std.TreeMap.contains_iff_mem]
      exact h.contains_iff
    · exact o.links.distinct_keys.imp fun hne heq ↦ hne (by simp [heq])
  rw [← Std.TreeMap.length_keys]
  exact hperm.length_eq

end Lists

end Order

/-! ## Orders with their lists -/

/-- An order together with the tokens it holds, from first to last. -/
structure Fifo where
  order : Order
  tokens : List Token
  lists : order.Lists tokens

namespace Fifo

def empty : Fifo := ⟨.default, [], Order.lists_default⟩

def first (f : Fifo) : Option Token := f.order.first

def len (f : Fifo) : ℕ := f.order.links.size

theorem pushBack_isSome (f : Fifo) (token : Token) : (f.order.pushBack token).isSome := by
  by_cases hmem : token ∈ f.tokens
  · simp [f.lists.pushBack_of_mem hmem]
  · obtain ⟨o, ho, _⟩ := f.lists.pushBack_of_notMem hmem
    simp [ho]

theorem remove_isSome (f : Fifo) (token : Token) : (f.order.remove token).isSome := by
  by_cases hmem : token ∈ f.tokens
  · obtain ⟨before, after, hsplit⟩ := List.append_of_mem hmem
    have hlists := f.lists
    rw [hsplit] at hlists
    obtain ⟨o, ho, _⟩ := hlists.remove_of_split
    simp [ho]
  · simp [f.lists.remove_of_notMem hmem]

def pushBack (f : Fifo) (token : Token) : Fifo where
  order := (f.order.pushBack token).get (f.pushBack_isSome token)
  tokens := if token ∈ f.tokens then f.tokens else f.tokens ++ [token]
  lists := by
    by_cases hmem : token ∈ f.tokens
    · simpa [f.lists.pushBack_of_mem hmem, hmem] using f.lists
    · obtain ⟨o, ho, hlists⟩ := f.lists.pushBack_of_notMem hmem
      simpa [ho, hmem] using hlists

def remove (f : Fifo) (token : Token) : Fifo where
  order := (f.order.remove token).get (f.remove_isSome token)
  tokens := f.tokens.erase token
  lists := by
    by_cases hmem : token ∈ f.tokens
    · obtain ⟨before, after, hsplit⟩ := List.append_of_mem hmem
      have hlists := f.lists
      rw [hsplit] at hlists
      obtain ⟨o, ho, hremoved⟩ := hlists.remove_of_split
      have hnot : token ∉ before := by
        intro hbefore
        exact (List.nodup_append.mp hlists.nodup).2.2 token hbefore token List.mem_cons_self rfl
      simpa [ho, hsplit, List.erase_append_right _ hnot] using hremoved
    · simpa [f.lists.remove_of_notMem hmem, List.erase_of_not_mem hmem] using f.lists

def popFront (f : Fifo) : Fifo × Option Token :=
  match f.first with
  | none => (f, none)
  | some token => (f.remove token, some token)

variable (f : Fifo) (token : Token)

theorem first_eq : f.first = f.tokens.head? := f.lists.first

theorem len_eq : f.len = f.tokens.length := f.lists.size_eq

theorem nodup : f.tokens.Nodup := f.lists.nodup

@[simp] theorem tokens_empty : empty.tokens = [] := rfl

theorem tokens_pushBack :
    (f.pushBack token).tokens = if token ∈ f.tokens then f.tokens else f.tokens ++ [token] := rfl

@[simp] theorem tokens_remove : (f.remove token).tokens = f.tokens.erase token := rfl

@[simp] theorem mem_pushBack {other : Token} :
    other ∈ (f.pushBack token).tokens ↔ other ∈ f.tokens ∨ other = token := by
  rw [tokens_pushBack]
  split_ifs with hmem
  · exact ⟨Or.inl, fun h ↦ h.elim id fun heq ↦ heq ▸ hmem⟩
  · simp

@[simp] theorem mem_remove {other : Token} :
    other ∈ (f.remove token).tokens ↔ other ∈ f.tokens ∧ other ≠ token := by
  rw [tokens_remove, f.nodup.mem_erase_iff]
  exact and_comm

end Fifo

end Phonowire.Receiver
