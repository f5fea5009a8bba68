import Phonowire.Receiver.Order

/-!
# Sequences of operations on an order

Each operation of the linked order does to its list what the operation of the
same name does to a list without duplicates, so a whole sequence of them refines
the sequence on lists, and no link is ever missing.
-/

namespace Phonowire.Receiver

inductive OrderCall where
  | pushBack (token : Token)
  | remove (token : Token)
  | popFront
  deriving DecidableEq, Repr

namespace Order

/-- One call with what it returns. -/
def call (o : Order) : OrderCall → Option (Order × Option Token)
  | .pushBack token => (o.pushBack token).map (·, none)
  | .remove token => (o.remove token).map (·, none)
  | .popFront => o.popFront

/-- A sequence of calls; `none` is a link that is missing. -/
def calls : Order → List OrderCall → Option (Order × List (Option Token))
  | o, [] => some (o, [])
  | o, c :: cs => do
      let (next, answer) ← o.call c
      let (last, answers) ← next.calls cs
      some (last, answer :: answers)

end Order

namespace OrderCall

/-- The same call on a list without duplicates. -/
def onList (tokens : List Token) : OrderCall → List Token × Option Token
  | pushBack token => (if token ∈ tokens then tokens else tokens ++ [token], none)
  | remove token => (tokens.filter (· ≠ token), none)
  | popFront => (tokens.tail, tokens.head?)

def onLists (tokens : List Token) : List OrderCall → List Token × List (Option Token)
  | [] => (tokens, [])
  | c :: cs =>
      let (next, answer) := onList tokens c
      let (last, answers) := onLists next cs
      (last, answer :: answers)

end OrderCall

namespace Order

variable {o : Order} {tokens : List Token} {token : Token}

theorem Lists.pushBack (h : o.Lists tokens) (token : Token) :
    ∃ o', o.pushBack token = some o' ∧
      o'.Lists (if token ∈ tokens then tokens else tokens ++ [token]) := by
  split_ifs with hmem
  · exact ⟨o, h.pushBack_of_mem hmem, h⟩
  · exact h.pushBack_of_notMem hmem

theorem Lists.remove (h : o.Lists tokens) (token : Token) :
    ∃ o', o.remove token = some o' ∧ o'.Lists (tokens.filter (· ≠ token)) := by
  have herase : tokens.filter (· ≠ token) = tokens.erase token := by
    rw [h.nodup.erase_eq_filter]
    refine List.filter_congr fun x _ ↦ ?_
    by_cases hx : x = token <;> simp [hx]
  rw [herase]
  by_cases hmem : token ∈ tokens
  · obtain ⟨before, after, rfl⟩ := List.append_of_mem hmem
    obtain ⟨o', ho', hlists⟩ := h.remove_of_split
    have hnot : token ∉ before := by
      intro hbefore
      exact (List.nodup_append.mp h.nodup).2.2 token hbefore token List.mem_cons_self rfl
    refine ⟨o', ho', ?_⟩
    rwa [List.erase_append_right _ hnot, List.erase_cons_head]
  · refine ⟨o, h.remove_of_notMem hmem, ?_⟩
    rwa [List.erase_of_not_mem hmem]

theorem Lists.popFront (h : o.Lists tokens) :
    ∃ o', o.popFront = some (o', tokens.head?) ∧ o'.Lists tokens.tail := by
  unfold Order.popFront
  rw [h.first]
  cases tokens with
  | nil => exact ⟨o, rfl, h⟩
  | cons token rest =>
      have hsplit : o.Lists ([] ++ token :: rest) := h
      obtain ⟨o', ho', hlists⟩ := hsplit.remove_of_split
      exact ⟨o', by simp [ho'], hlists⟩

/-- One call refines the call on lists. -/
theorem Lists.call (h : o.Lists tokens) (c : OrderCall) :
    ∃ o', o.call c = some (o', (c.onList tokens).2) ∧ o'.Lists (c.onList tokens).1 := by
  cases c with
  | pushBack token =>
      obtain ⟨o', ho', hlists⟩ := h.pushBack token
      exact ⟨o', by simp [Order.call, OrderCall.onList, ho'], hlists⟩
  | remove token =>
      obtain ⟨o', ho', hlists⟩ := h.remove token
      exact ⟨o', by simp [Order.call, OrderCall.onList, ho'], hlists⟩
  | popFront => exact h.popFront

theorem Lists.calls (h : o.Lists tokens) (cs : List OrderCall) :
    ∃ o', o.calls cs = some (o', (OrderCall.onLists tokens cs).2) ∧
      o'.Lists (OrderCall.onLists tokens cs).1 := by
  induction cs generalizing o tokens with
  | nil => exact ⟨o, rfl, h⟩
  | cons c cs ih =>
      obtain ⟨next, hnext, hlists⟩ := h.call c
      obtain ⟨last, hlast, hlists'⟩ := ih hlists
      exact ⟨last, by simp [Order.calls, hnext, hlast, OrderCall.onLists], hlists'⟩

/-- Every sequence of calls on an order refines the same sequence on a list
without duplicates: it meets no missing link and answers as the list does, and
afterwards the keys, the ends and the links of the order are those of the
list. -/
theorem order_refines_list (cs : List OrderCall) :
    ∃ o tokens, Order.default.calls cs = some (o, (OrderCall.onLists [] cs).2) ∧
      tokens = (OrderCall.onLists [] cs).1 ∧ tokens.Nodup ∧
      (∀ token, o.links.contains token = true ↔ token ∈ tokens) ∧
      o.first = tokens.head? ∧ o.last = tokens.getLast? ∧
      ∀ before token after, tokens = before ++ token :: after →
        o.links[token]? = some ⟨before.getLast?, after.head?⟩ := by
  obtain ⟨o, ho, hlists⟩ := lists_default.calls cs
  exact ⟨o, _, ho, rfl, hlists.nodup, fun _ ↦ hlists.contains_iff, hlists.first, hlists.last,
    hlists.linked⟩

example : OrderCall.onLists [] [.pushBack 5, .pushBack 3, .pushBack 5, .pushBack 8, .remove 3,
    .popFront] = ([8], [none, none, none, none, none, some 5]) := by
  decide

end Order

end Phonowire.Receiver
