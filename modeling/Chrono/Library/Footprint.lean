import Mathlib.Data.Finset.Card
import Mathlib.Data.Finset.Union
import Mathlib.Logic.Function.Basic
import Mathlib.Logic.Pairwise
import Mathlib.Order.Disjoint
import Mathlib.Tactic.Common

/-!
# Footprints

A heap maps addresses to cells and never hands out an address twice. A dead cell can
be neither read nor written nor freed. What a computation may touch is a finite set of
addresses, its footprint; footprints compose, and everything outside is framed. A
ledger says that several owners share a heap and that nothing is left over.
-/
namespace Library

/-- Cells at addresses below `next`; the dead ones are `none`. -/
structure Heap (C : Type*) where
  cells : ℕ → Option C
  next : ℕ
  bounded : ∀ a, next ≤ a → cells a = none

namespace Heap
variable {C : Type*}

def empty : Heap C := ⟨fun _ => none, 0, fun _ _ => rfl⟩

def allocate (h : Heap C) (c : C) : ℕ × Heap C :=
  (h.next, ⟨Function.update h.cells h.next (some c), h.next + 1, by
    intro a ha
    rw [Function.update_of_ne (by omega)]
    exact h.bounded a (by omega)⟩)

/-- What a live cell is replaced with: another cell, or nothing. -/
def put (h : Heap C) (a : ℕ) (c : Option C) : Option (Heap C) :=
  if ha : (h.cells a).isSome then
    some ⟨Function.update h.cells a c, h.next, by
      intro b hb
      by_cases hba : b = a
      · rw [hba] at hb
        simp [h.bounded a hb] at ha
      · rw [Function.update_of_ne hba]
        exact h.bounded b hb⟩
  else none

def modify (h : Heap C) (a : ℕ) (f : C → C) : Option (Heap C) := do
  let c ← h.cells a
  h.put a (some (f c))

def free (h : Heap C) (a : ℕ) : Option (Heap C) := h.put a none

variable {h h' h'' : Heap C} {a : ℕ} {c : C} {S S' S'' F : Finset ℕ}

theorem lt_next (ha : h.cells a = some c) : a < h.next := by
  by_contra hge
  simp [h.bounded a (by omega)] at ha

theorem put_eq (ha : h.cells a = some c) (u : Option C) :
    ∃ h', h.put a u = some h' ∧ h'.cells = Function.update h.cells a u ∧ h'.next = h.next := by
  simp [put, ha]

theorem modify_eq (ha : h.cells a = some c) (f : C → C) :
    ∃ h', h.modify a f = some h' ∧
      h'.cells = Function.update h.cells a (some (f c)) ∧ h'.next = h.next := by
  simp [modify, put, ha]

/-- The computation owned the cells `S` and owns the cells `S'` now: what left `S` is
dead, what is new in `S'` is fresh, and no other cell has changed. -/
structure Trades (h h' : Heap C) (S S' : Finset ℕ) : Prop where
  frame : ∀ a, a ∉ S → a ∉ S' → h'.cells a = h.cells a
  freed : ∀ a ∈ S, a ∉ S' → h'.cells a = none
  fresh : ∀ a ∈ S', a ∉ S → h.next ≤ a ∧ a < h'.next
  next_le : h.next ≤ h'.next

namespace Trades

theorem refl (h : Heap C) (S : Finset ℕ) : Trades h h S S where
  frame _ _ _ := rfl
  freed _ ha hn := absurd ha hn
  fresh _ ha hn := absurd ha hn
  next_le := le_rfl

theorem of_update {u : Option C} (hcells : h'.cells = Function.update h.cells a u)
    (hnext : h'.next = h.next) (ha : a ∈ S) : Trades h h' S S where
  frame b hb _ := by
    rw [hcells, Function.update_of_ne]
    rintro rfl
    exact hb ha
  freed _ hb hn := absurd hb hn
  fresh _ hb hn := absurd hb hn
  next_le := hnext.ge

theorem allocate (h : Heap C) (c : C) : Trades h (h.allocate c).2 ∅ {(h.allocate c).1} where
  frame b _ hb := by
    rw [Finset.mem_singleton] at hb
    exact Function.update_of_ne hb _ _
  freed b hb := absurd hb (Finset.notMem_empty b)
  fresh b hb _ := by
    obtain rfl := Finset.mem_singleton.mp hb
    exact ⟨le_rfl, Nat.lt_succ_self _⟩
  next_le := Nat.le_succ _

theorem free (hcells : h'.cells = Function.update h.cells a none) (hnext : h'.next = h.next) :
    Trades h h' {a} ∅ where
  frame b hb _ := by
    rw [Finset.mem_singleton] at hb
    rw [hcells, Function.update_of_ne hb]
  freed b hb _ := by
    obtain rfl := Finset.mem_singleton.mp hb
    rw [hcells, Function.update_self]
  fresh b hb := absurd hb (Finset.notMem_empty b)
  next_le := hnext.ge

/-- What is live before a trade, and was not given to it, is not what it got. -/
theorem notMem_of_live (ht : Trades h h' S S') (ha : h.cells a = some c) (hS : a ∉ S) : a ∉ S' := by
  intro hS'
  have hlt := lt_next ha
  have hge := (ht.fresh a hS' hS).1
  omega

/-- The frame rule. -/
theorem keeps (ht : Trades h h' S S') (ha : h.cells a = some c) (hS : a ∉ S) : h'.cells a = some c :=
  (ht.frame a hS (ht.notMem_of_live ha hS)).trans ha

theorem trans (h₁ : Trades h h' S S') (h₂ : Trades h' h'' S' S'') : Trades h h'' S S'' where
  frame a ha ha'' := by
    by_cases ha' : a ∈ S'
    · -- the second trade gave back what the first one had made
      have hfresh := h₁.fresh a ha' ha
      rw [h₂.freed a ha' ha'', h.bounded a hfresh.1]
    · rw [h₂.frame a ha' ha'', h₁.frame a ha ha']
  freed a ha ha'' := by
    by_cases ha' : a ∈ S'
    · exact h₂.freed a ha' ha''
    · rw [h₂.frame a ha' ha'', h₁.freed a ha ha']
  fresh a ha'' ha := by
    by_cases ha' : a ∈ S'
    · have hfresh := h₁.fresh a ha' ha
      exact ⟨hfresh.1, hfresh.2.trans_le h₂.next_le⟩
    · have hfresh := h₂.fresh a ha'' ha'
      exact ⟨h₁.next_le.trans hfresh.1, hfresh.2⟩
  next_le := h₁.next_le.trans h₂.next_le

/-- Cells that a trade does not touch may be counted in on both sides. -/
theorem union (ht : Trades h h' S S') (F : Finset ℕ) : Trades h h' (S ∪ F) (S' ∪ F) where
  frame a ha ha' := by
    simp only [Finset.mem_union, not_or] at ha ha'
    exact ht.frame a ha.1 ha'.1
  freed a ha ha' := by
    simp only [Finset.mem_union, not_or] at ha ha'
    exact ht.freed a (ha.resolve_right ha'.2) ha'.1
  fresh a ha' ha := by
    simp only [Finset.mem_union, not_or] at ha ha'
    exact ht.fresh a (ha'.resolve_right ha.2) ha.1
  next_le := ht.next_le

/-- Owners of live cells stay apart from what a trade returns. -/
theorem disjoint (ht : Trades h h' S S') (hF : ∀ a ∈ F, (h.cells a).isSome) (hd : Disjoint S F) :
    Disjoint S' F := by
  rw [Finset.disjoint_right] at hd ⊢
  intro a ha
  obtain ⟨c, hc⟩ := Option.isSome_iff_exists.mp (hF a ha)
  exact ht.notMem_of_live hc (hd ha)

end Trades

/-- Every live cell has exactly one owner. -/
structure Ledger {ι : Type*} (h : Heap C) (owned : ι → Finset ℕ) : Prop where
  disjoint : Pairwise fun i j => Disjoint (owned i) (owned j)
  live : ∀ a, (h.cells a).isSome ↔ ∃ i, a ∈ owned i

namespace Ledger
variable {ι : Type*} {owned : ι → Finset ℕ}

theorem empty : Ledger (empty : Heap C) fun _ : ι => ∅ where
  disjoint _ _ _ := Finset.disjoint_empty_left _
  live a := by simp [Heap.empty]

theorem apart (hl : Ledger h owned) {i j : ι} (hij : i ≠ j) : Disjoint (owned i) (owned j) :=
  hl.disjoint hij

theorem isSome (hl : Ledger h owned) {i : ι} (ha : a ∈ owned i) : (h.cells a).isSome :=
  (hl.live a).mpr ⟨i, ha⟩

theorem keeps (hl : Ledger h owned) {i j : ι} (ht : Trades h h' (owned i) S') (hij : i ≠ j)
    (ha : a ∈ owned j) :
    h'.cells a = h.cells a := by
  obtain ⟨c, hc⟩ := Option.isSome_iff_exists.mp (hl.isSome ha)
  rw [ht.keeps hc (Finset.disjoint_right.mp (hl.apart hij) ha), hc]

/-- When one owner trades its cells for others, each live cell has one owner again. -/
theorem trade [DecidableEq ι] (hl : Ledger h owned) {i : ι} (ht : Trades h h' (owned i) S')
    (hS' : ∀ a ∈ S', (h'.cells a).isSome) : Ledger h' (Function.update owned i S') where
  disjoint := by
    have hapart : ∀ j, j ≠ i → Disjoint S' (owned j) := fun j hj =>
      ht.disjoint (fun a ha => hl.isSome ha) (hl.apart hj.symm)
    intro j k hjk
    by_cases hj : j = i
    · subst hj
      simpa [hjk.symm] using hapart k hjk.symm
    · by_cases hk : k = i
      · subst hk
        simpa [hj] using (hapart j hj).symm
      · simpa [hj, hk] using hl.apart hjk
  live a := by
    constructor
    · intro hlive
      by_cases haS' : a ∈ S'
      · exact ⟨i, by simpa using haS'⟩
      · by_cases haS : a ∈ owned i
        · simp [ht.freed a haS haS'] at hlive
        · rw [ht.frame a haS haS', hl.live] at hlive
          obtain ⟨j, hj⟩ := hlive
          have hji : j ≠ i := by
            rintro rfl
            exact haS hj
          exact ⟨j, by simpa [hji] using hj⟩
    · rintro ⟨j, hj⟩
      by_cases hji : j = i
      · subst hji
        exact hS' a (by simpa using hj)
      · rw [Function.update_of_ne hji] at hj
        rw [hl.keeps ht (Ne.symm hji) hj]
        exact hl.isSome hj

end Ledger
end Heap
end Library
