import Mathlib.Data.List.ReduceOption
import Mathlib.Data.List.Perm.Basic
import Mathlib.Tactic.Common

/-!
# Tables of optional entries

A vector of slots, some of them empty: entries are put into a slot, replaced and taken
out, and the vector grows with empty slots. What the slots hold is a list up to order.
-/
namespace Library.Slots
variable {α : Type*} {l : List (Option α)} {i : ℕ} {x y : α}

/-- At least `n` slots. -/
def grow (l : List (Option α)) (n : ℕ) : List (Option α) := l ++ List.replicate (n - l.length) none

theorem lt_length_grow {n : ℕ} (h : i < n) : i < (grow l n).length := by
  rw [grow, List.length_append, List.length_replicate]
  omega

theorem getElem?_grow (n : ℕ) (h : i < l.length) : (grow l n)[i]? = l[i]? :=
  List.getElem?_append_left h

theorem reduceOption_grow (l : List (Option α)) (n : ℕ) :
    (grow l n).reduceOption = l.reduceOption := by
  rw [grow, List.reduceOption_append, List.reduceOption_replicate_none, List.append_nil]

theorem getElem?_of_grow {n : ℕ} (h : (grow l n)[i]? = some (some x)) : l[i]? = some (some x) := by
  rw [grow, List.getElem?_append] at h
  split_ifs at h with hlt
  · exact h
  · rw [List.getElem?_replicate] at h
    split_ifs at h
    cases h

theorem set_eq (h : i < l.length) (z : Option α) :
    ∃ l₁ l₂, l = l₁ ++ l[i] :: l₂ ∧ l.set i z = l₁ ++ z :: l₂ := by
  refine ⟨l.take i, l.drop (i + 1), ?_, ?_⟩
  · rw [List.getElem_cons_drop, List.take_append_drop]
  · exact List.set_eq_take_append_cons_drop.trans (if_pos h)

theorem perm_set_none (h : l[i]? = some (some x)) :
    l.reduceOption.Perm (x :: (l.set i none).reduceOption) := by
  obtain ⟨hi, hx⟩ := List.getElem?_eq_some_iff.mp h
  obtain ⟨l₁, l₂, hl, hset⟩ := set_eq hi none
  rw [hset]
  conv_lhs => rw [hl, hx]
  simp only [List.reduceOption_append, List.reduceOption_cons_of_some, List.reduceOption_cons_of_none]
  exact List.perm_middle

theorem perm_set_some (h : i < l.length) (x : α) :
    (l.set i (some x)).reduceOption.Perm (x :: (l.set i none).reduceOption) := by
  have hset := perm_set_none (l := l.set i (some x)) (i := i) (x := x) (by simp [h])
  rwa [List.set_set] at hset

theorem set_none_of_empty (h : ∀ x, l[i]? ≠ some (some x)) : l.set i none = l := by
  apply List.ext_getElem?
  intro j
  by_cases hj : j = i
  · subst hj
    cases hget : l[j]? with
    | none => simp [List.getElem?_eq_none_iff.mp hget]
    | some z =>
      cases z with
      | none => simp [(List.getElem?_eq_some_iff.mp hget).1]
      | some x => exact absurd hget (h x)
  · rw [List.getElem?_set_ne (Ne.symm hj)]

theorem mem_reduceOption : x ∈ l.reduceOption ↔ ∃ i : ℕ, l[i]? = some (some x) := by
  rw [List.reduceOption_mem_iff, List.mem_iff_getElem?]

/-- Entries that name their slots are named apart. -/
theorem sublist_range' {f : α → ℕ} {k : ℕ} (h : ∀ (i : ℕ) x, l[i]? = some (some x) → f x = k + i) :
    (l.reduceOption.map f).Sublist (List.range' k l.length) := by
  induction l generalizing k with
  | nil => exact List.Sublist.refl _
  | cons z l ih =>
    have hrest : (l.reduceOption.map f).Sublist (List.range' (k + 1) l.length) := by
      apply ih
      intro i x hx
      rw [h (i + 1) x (by simpa using hx)]
      omega
    rw [List.length_cons, List.range'_succ]
    cases z with
    | none =>
      rw [List.reduceOption_cons_of_none]
      exact hrest.cons _
    | some x =>
      have hx : f x = k := h 0 x rfl
      rw [List.reduceOption_cons_of_some, List.map_cons, hx]
      exact hrest.cons_cons _

theorem nodup_map {f : α → ℕ} (h : ∀ (i : ℕ) x, l[i]? = some (some x) → f x = i) :
    (l.reduceOption.map f).Nodup := by
  have hsub := sublist_range' (k := 0) (by simpa using h)
  exact hsub.nodup List.nodup_range'

end Library.Slots
