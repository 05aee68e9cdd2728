import Mathlib.Data.List.Basic
import Mathlib.Data.List.Infix
import Mathlib.Tactic.Common

/-!
# The longest prefix of a form

A reader takes the longest prefix that has its form and drops the rest. A form is
given by what a whole list of that form is read as.
-/
namespace Library.Longest

variable {α β : Type}

/-- What the longest prefix of the form `f` is read as. -/
def longest (f : List α → Option β) : List α → Option β
  | [] => f []
  | a :: s => (longest (fun t => f (a :: t)) s).or (f [])

/-- A prefix of `s` is read as `b`, and no longer prefix has the form. -/
def Leads (f : List α → Option β) (s : List α) (b : β) : Prop :=
  ∃ t rest, s = t ++ rest ∧ f t = some b ∧ ∀ r, r ≠ [] → r <+: rest → f (t ++ r) = none

theorem longest_eq_none_iff {f : List α → Option β} {s : List α} :
    longest f s = none ↔ ∀ t, t <+: s → f t = none := by
  induction s generalizing f with
  | nil => simp [longest, List.prefix_nil]
  | cons a s ih =>
    rw [longest, Option.or_eq_none_iff, ih]
    constructor
    · rintro ⟨hcons, hnil⟩ t ht
      rcases List.prefix_cons_iff.mp ht with rfl | ⟨t', rfl, ht'⟩
      · exact hnil
      · exact hcons t' ht'
    · exact fun h => ⟨fun t ht => h (a :: t) (List.cons_prefix_cons.mpr ⟨rfl, ht⟩),
        h [] List.nil_prefix⟩

theorem longest_eq_some_iff {f : List α → Option β} {s : List α} {b : β} :
    longest f s = some b ↔ Leads f s b := by
  induction s generalizing f with
  | nil =>
    constructor
    · intro h
      exact ⟨[], [], rfl, h, fun r hne hr => absurd (List.prefix_nil.mp hr) hne⟩
    · rintro ⟨t, rest, hs, ht, -⟩
      obtain ⟨rfl, rfl⟩ := List.append_eq_nil_iff.mp hs.symm
      exact ht
  | cons a s ih =>
    rw [longest, Option.or_eq_some_iff]
    constructor
    · rintro (h | ⟨hnone, h⟩)
      · obtain ⟨t, rest, rfl, ht, hmax⟩ := ih.mp h
        exact ⟨a :: t, rest, rfl, ht, hmax⟩
      · refine ⟨[], a :: s, rfl, h, fun r hne hr => ?_⟩
        rcases List.prefix_cons_iff.mp hr with rfl | ⟨t, rfl, ht⟩
        · exact absurd rfl hne
        · exact longest_eq_none_iff.mp hnone t ht
    · rintro ⟨t, rest, hs, ht, hmax⟩
      cases t with
      | nil =>
        obtain rfl : a :: s = rest := hs
        refine .inr ⟨longest_eq_none_iff.mpr fun t htl => ?_, ht⟩
        exact hmax (a :: t) (by simp) (List.cons_prefix_cons.mpr ⟨rfl, htl⟩)
      | cons a' t =>
        obtain ⟨rfl, rfl⟩ := List.cons.inj hs
        exact .inl (ih.mpr ⟨t, rest, rfl, ht, hmax⟩)

/-- A list of the form is its own longest prefix. -/
theorem longest_self {f : List α → Option β} {s : List α} {b : β} (h : f s = some b) :
    longest f s = some b :=
  longest_eq_some_iff.mpr ⟨s, [], by simp, h, fun _ hne hr => absurd (List.prefix_nil.mp hr) hne⟩

end Library.Longest
