import Mathlib.Data.List.Basic
import Mathlib.Tactic.Common

/-!
# Lines that end in a pair of symbols

Searching a string for the first occurrence of a pair of symbols, such as a carriage
return and a line feed.
-/
namespace Library.Terminator
variable {β : Type*} [DecidableEq β] {x y : β}

/-- The position of the first `x` that `y` follows. -/
def find (x y : β) : List β → Option ℕ
  | [] => none
  | b :: s => if b = x ∧ s.head? = some y then some 0 else (find x y s).map (· + 1)

theorem find_bound {s : List β} {pos : ℕ} (h : find x y s = some pos) : pos + 2 ≤ s.length := by
  induction s generalizing pos with
  | nil => simp [find] at h
  | cons b s ih =>
    rw [find] at h
    split at h
    · next hpair =>
      cases h
      cases s with
      | nil => simp at hpair
      | cons c s => simp
    · obtain ⟨q, hq, rfl⟩ := Option.map_eq_some_iff.mp h
      have := ih hq
      rw [List.length_cons]
      omega

theorem find_cons {b : β} (hb : b ≠ x) (s : List β) :
    find x y (b :: s) = (find x y s).map (· + 1) := by
  rw [find, if_neg (fun h => hb h.1)]

theorem find_pos {b : β} {s : List β} {pos : ℕ} (hb : b ≠ x) (h : find x y (b :: s) = some pos) :
    0 < pos := by
  rw [find_cons hb] at h
  obtain ⟨q, -, rfl⟩ := Option.map_eq_some_iff.mp h
  exact Nat.succ_pos q

theorem find_eq_none_of_not_mem {s : List β} (h : x ∉ s) : find x y s = none := by
  induction s with
  | nil => rfl
  | cons b s ih =>
    rw [List.mem_cons, not_or] at h
    rw [find_cons (Ne.symm h.1), ih h.2]
    rfl

/-- A string without the pair, and the pair: it is found there, whatever follows. -/
theorem find_append (hne : x ≠ y) {s : List β} (h : find x y s = none) (r : List β) :
    find x y (s ++ [x, y] ++ r) = some s.length := by
  induction s with
  | nil => simp [find]
  | cons b s ih =>
    rw [find] at h
    split at h
    · cases h
    · next hb =>
      have hs : find x y s = none := Option.map_eq_none_iff.mp h
      have hnot : ¬ (b = x ∧ (s ++ [x, y] ++ r).head? = some y) := by
        rintro ⟨hbx, hhead⟩
        cases s with
        | nil => exact hne (by simpa using hhead)
        | cons c s => exact hb ⟨hbx, by simpa using hhead⟩
      rw [List.cons_append, List.cons_append, find, if_neg hnot, ih hs]
      rfl

theorem find_append_some {s : List β} {pos : ℕ} (h : find x y s = some pos) (r : List β) :
    find x y (s ++ r) = some pos := by
  induction s generalizing pos with
  | nil => simp [find] at h
  | cons b s ih =>
    rw [find] at h
    rw [List.cons_append, find]
    split at h
    · next hb =>
      have hhead : (s ++ r).head? = some y := by
        cases s with
        | nil => simp at hb
        | cons c s => exact hb.2
      rw [if_pos ⟨hb.1, hhead⟩]
      exact h
    · next hb =>
      obtain ⟨q, hq, rfl⟩ := Option.map_eq_some_iff.mp h
      have hnot : ¬ (b = x ∧ (s ++ r).head? = some y) := by
        rintro ⟨hbx, hhead⟩
        cases s with
        | nil => simp [find] at hq
        | cons c s => exact hb ⟨hbx, hhead⟩
      rw [if_neg hnot, ih hq]
      rfl

/-- The pair is found as soon as it has arrived. -/
theorem find_take {s : List β} {pos m : ℕ} (h : find x y s = some pos) (hm : pos + 2 ≤ m) :
    find x y (s.take m) = some pos := by
  induction s generalizing pos m with
  | nil => simp [find] at h
  | cons b s ih =>
    obtain ⟨m, rfl⟩ : ∃ m', m = m' + 1 := ⟨m - 1, by omega⟩
    have hhead : (s.take m).head? = s.head? := by rw [List.head?_take, if_neg (by omega)]
    rw [find] at h
    rw [List.take_succ_cons, find, hhead]
    split_ifs at h ⊢ with hb
    · exact h
    · obtain ⟨q, hq, rfl⟩ := Option.map_eq_some_iff.mp h
      rw [ih hq (by omega)]
      rfl

theorem find_prefix {p : List β} (h : x ∉ p) (s : List β) :
    find x y (p ++ s) = none ↔ find x y s = none := by
  induction p with
  | nil => rfl
  | cons b p ih =>
    rw [List.mem_cons, not_or] at h
    rw [List.cons_append, find_cons (Ne.symm h.1), Option.map_eq_none_iff]
    exact ih h.2

theorem find_concat {b : β} (hb : b ≠ y) (s : List β) :
    find x y (s ++ [b]) = none ↔ find x y s = none := by
  constructor
  · intro h
    by_contra hsome
    obtain ⟨pos, hpos⟩ := Option.ne_none_iff_exists'.mp hsome
    rw [find_append_some hpos] at h
    cases h
  · intro h
    induction s with
    | nil => simp [find]
    | cons c s ih =>
      rw [find] at h
      split at h
      · cases h
      · next hc =>
        have hnot : ¬ (c = x ∧ (s ++ [b]).head? = some y) := by
          rintro ⟨hcx, hhead⟩
          cases s with
          | nil => exact hb (by simpa using hhead)
          | cons d s => exact hc ⟨hcx, hhead⟩
        rw [List.cons_append, find, if_neg hnot, ih (Option.map_eq_none_iff.mp h)]
        rfl

/-- What ends a string without the pair has none either. -/
theorem find_suffix {p s : List β} (h : find x y (p ++ s) = none) : find x y s = none := by
  induction p with
  | nil => exact h
  | cons b p ih =>
    rw [List.cons_append, find] at h
    split at h
    · cases h
    · exact ih (Option.map_eq_none_iff.mp h)

end Library.Terminator
