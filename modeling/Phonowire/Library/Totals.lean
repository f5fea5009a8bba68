import Mathlib.Tactic
import Mathlib.Algebra.BigOperators.Group.Finset.Basic
import Mathlib.Algebra.Order.BigOperators.Group.Finset

/-!
# Totals under local updates

A weight summed over a list or over the entries of a map changes by the weight
of the entry that is replaced or removed. The rules are additive, so that they
hold over `ℕ`.
-/

namespace List

variable {α β : Type*} {f : α → ℕ}

theorem sum_map_set {l : List α} {i : ℕ} {a : α} (h : l[i]? = some a) (b : α) :
    ((l.set i b).map f).sum + f a = (l.map f).sum + f b := by
  induction l generalizing i with
  | nil => simp at h
  | cons x l ih =>
      cases i with
      | zero =>
          obtain rfl : x = a := by simpa using h
          simp only [List.set_cons_zero, List.map_cons, List.sum_cons]
          omega
      | succ i =>
          have hrest := ih (i := i) (by simpa using h)
          simp only [List.set_cons_succ, List.map_cons, List.sum_cons]
          omega

theorem sum_map_eraseIdx {l : List α} {i : ℕ} {a : α} (h : l[i]? = some a) :
    ((l.eraseIdx i).map f).sum + f a = (l.map f).sum := by
  induction l generalizing i with
  | nil => simp at h
  | cons x l ih =>
      cases i with
      | zero =>
          obtain rfl : x = a := by simpa using h
          simp only [List.eraseIdx_cons_zero, List.map_cons, List.sum_cons]
          omega
      | succ i =>
          have hrest := ih (i := i) (by simpa using h)
          simp only [List.eraseIdx_cons_succ, List.map_cons, List.sum_cons]
          omega

theorem le_sum_map {l : List α} {i : ℕ} {a : α} (h : l[i]? = some a) :
    f a ≤ (l.map f).sum := by
  rw [← sum_map_eraseIdx h]
  omega

theorem countP_eq_sum (p : α → Bool) (l : List α) :
    l.countP p = (l.map fun a ↦ (p a).toNat).sum := by
  induction l with
  | nil => rfl
  | cons x l ih =>
      rw [List.countP_cons, ih, List.map_cons, List.sum_cons, Nat.add_comm]
      cases p x <;> rfl

theorem countP_eq_sum_filter {κ : Type*} [DecidableEq κ] {key : α → κ} (p : α → Bool)
    {l : List α} {s : Finset κ} (hs : ∀ a ∈ l, key a ∈ s) :
    l.countP p = ∑ k ∈ s, (l.filter (key · = k)).countP p := by
  induction l with
  | nil => simp
  | cons x l ih =>
      have hrest := ih fun a ha ↦ hs a (List.mem_cons_of_mem x ha)
      have hhead : ∀ k ∈ s, ((x :: l).filter (key · = k)).countP p =
          (l.filter (key · = k)).countP p + if key x = k then (p x).toNat else 0 := by
        intro k _
        rw [List.filter_cons]
        by_cases hk : key x = k
        · rw [if_pos (decide_eq_true hk), if_pos hk, List.countP_cons]
          cases p x <;> rfl
        · rw [if_neg (by simpa using hk), if_neg hk, Nat.add_zero]
      rw [Finset.sum_congr rfl hhead, Finset.sum_add_distrib, ← hrest, List.countP_cons,
        Finset.sum_ite_eq, if_pos (hs x List.mem_cons_self)]
      cases p x <;> rfl

/-- Lists whose parts by key have the same counts have the same count. -/
theorem countP_eq_of_filter {κ : Type*} [DecidableEq κ] (key : α → κ) (other : β → κ)
    {p : α → Bool} {q : β → Bool} {l : List α} {m : List β}
    (h : ∀ k, (l.filter (key · = k)).countP p = (m.filter (other · = k)).countP q) :
    l.countP p = m.countP q := by
  let keys : Finset κ := (l.map key ++ m.map other).toFinset
  have hleft : ∀ a ∈ l, key a ∈ keys := by
    intro a ha
    exact List.mem_toFinset.mpr (List.mem_append_left _ (List.mem_map_of_mem ha))
  have hright : ∀ b ∈ m, other b ∈ keys := by
    intro b hb
    exact List.mem_toFinset.mpr (List.mem_append_right _ (List.mem_map_of_mem hb))
  rw [countP_eq_sum_filter p hleft, countP_eq_sum_filter q hright]
  exact Finset.sum_congr rfl fun k _ ↦ h k

/-- Weights indexed by `β` whose sum over any finite part stays below a bound
for each entry stay below the total of the bounds. -/
theorem finset_sum_map_le {w : α → β → ℕ} {s : Finset β} (l : List α)
    (h : ∀ a, ∑ b ∈ s, w a b ≤ f a) :
    ∑ b ∈ s, (l.map fun a ↦ w a b).sum ≤ (l.map f).sum := by
  induction l with
  | nil => simp
  | cons x l ih =>
      simp only [List.map_cons, List.sum_cons, Finset.sum_add_distrib]
      exact Nat.add_le_add (h x) ih

end List

namespace Std.TreeMap

variable {κ α : Type*} {cmp : κ → κ → Ordering} {f g : κ → α → ℕ}

/-- The sum of a weight over the entries of a map. -/
def total (f : κ → α → ℕ) (m : TreeMap κ α cmp) : ℕ := (m.toList.map fun e ↦ f e.1 e.2).sum

@[simp] theorem total_empty [TransCmp cmp] : total f (∅ : TreeMap κ α cmp) = 0 := by
  have hempty : (∅ : TreeMap κ α cmp).toList = [] := rfl
  rw [total, hempty]
  rfl

theorem total_add (f g : κ → α → ℕ) (m : TreeMap κ α cmp) :
    total (fun k a ↦ f k a + g k a) m = total f m + total g m := by
  simp [total, List.sum_map_add]

theorem total_one (m : TreeMap κ α cmp) : total (fun _ _ ↦ 1) m = m.size := by
  rw [total, ← length_toList]
  simp

variable [TransCmp cmp] [LawfulEqCmp cmp] {m : TreeMap κ α cmp} {k : κ} {a b : α}

theorem getElem?_insert_of_ne {j : κ} (h : k ≠ j) (a : α) : (m.insert k a)[j]? = m[j]? := by
  rw [getElem?_insert, if_neg]
  exact fun heq ↦ h (LawfulEqCmp.eq_of_compare heq)

theorem getElem?_erase_of_ne {j : κ} (h : k ≠ j) : (m.erase k)[j]? = m[j]? := by
  rw [getElem?_erase, if_neg]
  exact fun heq ↦ h (LawfulEqCmp.eq_of_compare heq)

theorem getElem?_insert_ite [DecidableEq κ] (m : TreeMap κ α cmp) (k : κ) (a : α) (j : κ) :
    (m.insert k a)[j]? = if k = j then some a else m[j]? := by
  by_cases h : k = j
  · subst h
    simp
  · rw [if_neg h, getElem?_insert_of_ne h]

theorem getElem?_erase_ite [DecidableEq κ] (m : TreeMap κ α cmp) (k j : κ) :
    (m.erase k)[j]? = if k = j then none else m[j]? := by
  by_cases h : k = j
  · subst h
    simp
  · rw [if_neg h, getElem?_erase_of_ne h]

theorem total_insert_of_none (h : m[k]? = none) (b : α) :
    total f (m.insert k b) = total f m + f k b := by
  classical
  have hkeep : m.toList.filter (fun e ↦ decide ¬(k == e.1) = true) = m.toList := by
    rw [List.filter_eq_self]
    intro e he
    have hat := mem_toList_iff_getElem?_eq_some.mp he
    simp only [beq_iff_eq, decide_eq_true_eq]
    rintro rfl
    rw [h] at hat
    cases hat
  have hperm := (toList_insert_perm (t := m) (k := k) (v := b)).map fun e ↦ f e.1 e.2
  rw [hkeep] at hperm
  unfold total
  rw [hperm.sum_eq, List.map_cons, List.sum_cons, Nat.add_comm]

theorem toList_insert_erase (h : m[k]? = some a) : ((m.erase k).insert k a).toList = m.toList := by
  refine (Equiv.of_forall_constGet?_eq fun j ↦ ?_).toList_eq
  rw [getElem?_insert, getElem?_erase]
  by_cases hj : cmp k j = .eq
  · rw [if_pos hj, ← LawfulEqCmp.eq_of_compare hj, h]
  · rw [if_neg hj, if_neg hj]

theorem total_erase (h : m[k]? = some a) : total f (m.erase k) + f k a = total f m := by
  have hnone : (m.erase k)[k]? = none := by simp
  rw [← total_insert_of_none hnone, total, toList_insert_erase h, total]

theorem total_insert (h : m[k]? = some a) (b : α) :
    total f (m.insert k b) + f k a = total f m + f k b := by
  have hnone : (m.erase k)[k]? = none := by simp
  have hsame : ((m.erase k).insert k b).toList = (m.insert k b).toList := by
    refine (Equiv.of_forall_constGet?_eq fun j ↦ ?_).toList_eq
    rw [getElem?_insert, getElem?_insert, getElem?_erase]
    by_cases hj : cmp k j = .eq
    · rw [if_pos hj, if_pos hj]
    · rw [if_neg hj, if_neg hj, if_neg hj]
  have hinsert := total_insert_of_none (f := f) hnone b
  have herase := total_erase (f := f) h
  unfold total at *
  rw [hsame] at hinsert
  omega

/-- The same rule for a map known by its entries only. -/
theorem total_of_lookup [DecidableEq κ] {m' : TreeMap κ α cmp} (h : m[k]? = some a)
    (hm : ∀ j, m'[j]? = if k = j then some b else m[j]?) :
    total f m' + f k a = total f m + f k b := by
  have hsame : m'.toList = (m.insert k b).toList := by
    refine (Equiv.of_forall_constGet?_eq fun j ↦ ?_).toList_eq
    have hat : m'[j]? = (m.insert k b)[j]? := by rw [hm, getElem?_insert_ite]
    exact hat
  have hinsert := total_insert (f := f) h b
  unfold total at *
  rw [hsame]
  exact hinsert

/-- A map that differs at one key only, where an entry may come or go. -/
theorem total_of_change [DecidableEq κ] {m' : TreeMap κ α cmp} {new : Option α}
    (hm : ∀ j, m'[j]? = if k = j then new else m[j]?) :
    total f m' + m[k]?.elim 0 (f k) = total f m + new.elim 0 (f k) := by
  have hnew : ∀ n : TreeMap κ α cmp, (∀ j : κ, m'[j]? = n[j]?) → total f m' = total f n := by
    intro n hn
    rw [total, (Equiv.of_forall_constGet?_eq hn).toList_eq, total]
  cases hold : m[k]? with
  | none =>
      cases new with
      | none =>
          apply hnew
          intro j
          rw [hm]
          split_ifs with hj
          · rw [← hj, hold]
          · rfl
      | some b =>
          rw [hnew (m.insert k b) fun j ↦ by rw [hm, getElem?_insert_ite]]
          exact total_insert_of_none hold b
  | some a =>
      cases new with
      | none =>
          rw [hnew (m.erase k) fun j ↦ by rw [hm, getElem?_erase_ite]]
          exact total_erase hold
      | some b => exact total_of_lookup hold hm

/-- The number of entries of such a map. -/
theorem size_of_change [DecidableEq κ] {m' : TreeMap κ α cmp} {new : Option α}
    (hm : ∀ j, m'[j]? = if k = j then new else m[j]?) :
    m'.size + m[k]?.isSome.toNat = m.size + new.isSome.toNat := by
  have htotal := total_of_change (f := fun _ _ ↦ 1) hm
  have hone : ∀ o : Option α, o.elim 0 (fun _ ↦ 1) = o.isSome.toNat := by
    intro o
    cases o <;> rfl
  rwa [total_one, total_one, hone, hone] at htotal

theorem le_total (h : m[k]? = some a) : f k a ≤ total f m := by
  rw [← total_erase h]
  exact Nat.le_add_left _ _

theorem size_erase_add_one (h : m[k]? = some a) : (m.erase k).size + 1 = m.size := by
  have htotal := total_erase (f := fun _ _ ↦ 1) h
  rwa [total_one, total_one] at htotal

/-- Maps over the same keys have the same size. -/
theorem size_congr {β : Type*} {m' : TreeMap κ β cmp} (h : ∀ j : κ, m'[j]?.isSome = m[j]?.isSome) :
    m'.size = m.size := by
  have hperm : m'.keys.Perm m.keys := by
    apply (List.perm_ext_iff_of_nodup nodup_keys nodup_keys).mpr
    intro j
    rw [mem_keys, mem_keys, ← isSome_getElem?_iff_mem, ← isSome_getElem?_iff_mem, h]
  rw [← length_keys, ← length_keys, hperm.length_eq]

theorem total_le {bound : ℕ} (h : ∀ k a, m[k]? = some a → f k a ≤ bound) :
    total f m ≤ m.size * bound := by
  have hlength : (m.toList.map fun e ↦ f e.1 e.2).length = m.size := by
    rw [List.length_map, length_toList]
  rw [total, ← hlength]
  refine List.sum_le_card_nsmul _ bound fun x hx ↦ ?_
  obtain ⟨e, he, rfl⟩ := List.mem_map.mp hx
  exact h e.1 e.2 (mem_toList_iff_getElem?_eq_some.mp he)

theorem total_congr (h : ∀ k a, m[k]? = some a → f k a = g k a) : total f m = total g m := by
  unfold total
  congr 1
  refine List.map_congr_left fun e he ↦ ?_
  exact h e.1 e.2 (mem_toList_iff_getElem?_eq_some.mp he)

theorem total_eq_zero (h : ∀ k a, m[k]? = some a → f k a = 0) : total f m = 0 := by
  have hzero : total f m = total (fun _ _ ↦ 0) m := total_congr h
  rw [hzero]
  simp [total]

end Std.TreeMap
