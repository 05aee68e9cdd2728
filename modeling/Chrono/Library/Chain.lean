import Mathlib.Data.List.Nodup
import Mathlib.Logic.Function.Basic
import Mathlib.Tactic.Common

/-!
# Singly linked chains

A heap maps addresses to cells; a cell has a content and a pointer to the next
cell. A chain is the list of cells that the pointers visit. Appending, unlinking
and overwriting a cell act on that list.
-/
namespace Library

/-- How a cell is read: the pointer to the next one, and the rest. -/
structure CellView (N A D : Type*) where
  next : N → Option A
  content : N → D

namespace Chain
variable {N A D : Type*} (view : CellView N A D)

/-- From `p` the pointers lead through the listed cells and end at `q`. -/
def Linked (heap : A → Option N) : Option A → List (A × D) → Option A → Prop
  | p, [], q => p = q
  | p, (a, d) :: l, q =>
    p = some a ∧ ∃ n, heap a = some n ∧ view.content n = d ∧ Linked heap (view.next n) l q

abbrev addrs (l : List (A × D)) : List A := l.map Prod.fst

variable {view} {heap heap' : A → Option N} {p q : Option A} {l l₁ l₂ : List (A × D)} {a t : A}
  {d e : D}

theorem linked_append :
    Linked view heap p (l₁ ++ l₂) q ↔ ∃ r, Linked view heap p l₁ r ∧ Linked view heap r l₂ q := by
  induction l₁ generalizing p with
  | nil => simp [Linked]
  | cons x l₁ ih =>
    obtain ⟨a, d⟩ := x
    simp only [List.cons_append, Linked, ih]
    constructor
    · rintro ⟨hp, n, hn, hd, r, h₁, h₂⟩
      exact ⟨r, ⟨hp, n, hn, hd, h₁⟩, h₂⟩
    · rintro ⟨r, ⟨hp, n, hn, hd, h₁⟩, h₂⟩
      exact ⟨hp, n, hn, hd, r, h₁, h₂⟩

/-- Only the cells of a chain matter to it. -/
theorem Linked.congr (h : Linked view heap p l q) (heq : ∀ a ∈ addrs l, heap' a = heap a) :
    Linked view heap' p l q := by
  induction l generalizing p with
  | nil => exact h
  | cons x l ih =>
    obtain ⟨hp, n, hn, hd, hrest⟩ := h
    exact ⟨hp, n, (heq _ (by simp)).trans hn, hd, ih hrest fun a ha => heq a (by simp [ha])⟩

theorem Linked.start_eq (h : Linked view heap p l none) : p = (addrs l).head? := by
  cases l with
  | nil => exact h
  | cons x l => exact h.1

theorem Linked.mem (h : Linked view heap p l q) {x : A × D} (hx : x ∈ l) :
    ∃ n, heap x.1 = some n ∧ view.content n = x.2 := by
  induction l generalizing p with
  | nil => simp at hx
  | cons y l ih =>
    obtain ⟨-, n, hn, hd, hrest⟩ := h
    rcases List.mem_cons.mp hx with rfl | hx
    · exact ⟨n, hn, hd⟩
    · exact ih hrest hx

/-- A chain that ends is determined by where it starts. -/
theorem Linked.unique {l' : List (A × D)} (h : Linked view heap p l none)
    (h' : Linked view heap p l' none) :
    l = l' := by
  induction l generalizing p l' with
  | nil =>
    cases l' with
    | nil => rfl
    | cons y l' => exact absurd (h.symm.trans h'.1) (by simp)
  | cons x l ih =>
    obtain ⟨a, d⟩ := x
    obtain ⟨rfl, n, hn, rfl, hrest⟩ := h
    cases l' with
    | nil => exact absurd h' (by simp [Linked])
    | cons y l' =>
      obtain ⟨a', d'⟩ := y
      obtain ⟨ha, n', hn', rfl, hrest'⟩ := h'
      obtain rfl : a = a' := Option.some.inj ha
      obtain rfl : n = n' := Option.some.inj (hn.symm.trans hn')
      rw [ih hrest hrest']

theorem Linked.nodup (h : Linked view heap p l none) : (addrs l).Nodup := by
  induction l generalizing p with
  | nil => exact List.nodup_nil
  | cons x l ih =>
    have hfirst := h
    obtain ⟨a, d⟩ := x
    obtain ⟨rfl, n, hn, rfl, hrest⟩ := h
    refine List.nodup_cons.mpr ⟨fun hmem => ?_, ih hrest⟩
    -- from a second visit the same chain would have to start again, only shorter
    obtain ⟨⟨b, d'⟩, hy, rfl⟩ := List.mem_map.mp hmem
    obtain ⟨l₁, l₂, rfl⟩ := List.append_of_mem hy
    obtain ⟨r, -, hsecond⟩ := linked_append.mp hrest
    obtain rfl : r = some b := hsecond.1
    have hlen := congrArg List.length (hfirst.unique hsecond)
    simp only [List.length_cons, List.length_append] at hlen
    omega

theorem Linked.split (h : Linked view heap p (l₁ ++ (a, d) :: l₂) none) :
    Linked view heap p l₁ (some a) ∧
      ∃ n, heap a = some n ∧ view.content n = d ∧ Linked view heap (view.next n) l₂ none := by
  obtain ⟨r, h₁, rfl, h₂⟩ := linked_append.mp h
  exact ⟨h₁, h₂⟩

variable [DecidableEq A] {n u m : N}

/-- A new content for a cell shows wherever the cell is. -/
theorem Linked.overwrite (h : Linked view heap p l q) (hn : heap a = some n)
    (hnext : view.next u = view.next n) :
    Linked view (Function.update heap a (some u)) p
      (l.map fun x => if x.1 = a then (a, view.content u) else x) q := by
  induction l generalizing p with
  | nil => exact h
  | cons x l ih =>
    obtain ⟨b, d⟩ := x
    obtain ⟨hp, k, hk, hd, hrest⟩ := h
    by_cases hb : b = a
    · subst hb
      obtain rfl : n = k := Option.some.inj (hn.symm.trans hk)
      simp only [List.map_cons, if_true]
      exact ⟨hp, u, by simp, rfl, hnext ▸ ih hrest⟩
    · simp only [List.map_cons, if_neg hb]
      exact ⟨hp, k, by simp [hb, hk], hd, ih hrest⟩

/-- Pointing one cell elsewhere replaces what follows it. -/
theorem Linked.relink (h : Linked view heap p (l₁ ++ (t, d) :: l₂) none) (hn : heap t = some n)
    (hcontent : view.content u = view.content n)
    (hrest : Linked view (Function.update heap t (some u)) (view.next u) l none) :
    Linked view (Function.update heap t (some u)) p (l₁ ++ (t, d) :: l) none := by
  obtain ⟨h₁, k, hk, hd, -⟩ := h.split
  obtain rfl : n = k := Option.some.inj (hn.symm.trans hk)
  have hbefore : ∀ b ∈ addrs l₁, b ≠ t := by
    rintro b hb rfl
    have hnodup := h.nodup
    rw [addrs, List.map_append, List.map_cons] at hnodup
    exact List.disjoint_of_nodup_append hnodup hb (by simp)
  refine linked_append.mpr ⟨some t, h₁.congr fun b hb => ?_, rfl, u,
    by simp, hcontent.trans hd, hrest⟩
  exact Function.update_of_ne (hbefore b hb) _ _

/-- A cell that ends its own chain is appended to the last one. -/
theorem Linked.snoc (h : Linked view heap p (l ++ [(t, d)]) none) (hn : heap t = some n)
    (hcontent : view.content u = view.content n) (hnext : view.next u = some a)
    (hm : heap a = some m) (hend : view.next m = none) (hat : a ≠ t) :
    Linked view (Function.update heap t (some u)) p (l ++ [(t, d), (a, view.content m)]) none := by
  apply h.relink hn hcontent
  exact ⟨hnext, m, by simp [hat, hm], rfl, hend⟩

/-- A cell leaves a chain when the one before it skips it. -/
theorem Linked.unlink (h : Linked view heap p (l₁ ++ (t, d) :: (a, e) :: l₂) none)
    (hn : heap t = some n) (hcontent : view.content u = view.content n) (hm : heap a = some m)
    (hnext : view.next u = view.next m) :
    Linked view (Function.update heap t (some u)) p (l₁ ++ (t, d) :: l₂) none := by
  apply h.relink hn hcontent
  obtain ⟨-, -, -, -, -, k, hk, -, hrest⟩ := h.split
  obtain rfl : m = k := Option.some.inj (hm.symm.trans hk)
  rw [hnext]
  refine hrest.congr fun b hb => Function.update_of_ne (fun heq => ?_) _ _
  have hnodup := h.nodup
  simp only [addrs, List.map_append, List.map_cons, List.nodup_append, List.nodup_cons] at hnodup
  exact hnodup.2.1.1 (by simp [← heq, hb])

end Chain
end Library
