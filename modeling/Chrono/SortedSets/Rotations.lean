import Chrono.SortedSets.Layout

/-!
# Rotations in the heap

A rotation touches two nodes and redirects three pointers around three subtrees. Both
rotations, and all the recomputations in them, are assignments to one of the two nodes.
-/
namespace Chrono
open Library

namespace AVLTreeNode
variable {β : Type}

/-- The heap holds the layout, and no node occurs in it twice. -/
structure Held (h : TreeHeap β) (t : AVLTreeNode (Addr × β)) : Prop where
  laidOut : t.LaidOut h
  nodup : t.addrs.Nodup

/-- The call is defined, returns a pointer to the new layout and touches only the nodes
of the old one and of the new one. -/
def Turns (h : TreeHeap β) (t : AVLTreeNode (Addr × β)) (res : Defined (Option Addr × TreeHeap β))
    (t' : AVLTreeNode (Addr × β)) : Prop :=
  ∃ h', res = some (t'.pointer, h') ∧ t'.Held h' ∧ Heap.Trades h h' t.footprint t'.footprint

/-- Two nodes next to three subtrees. -/
structure Pair (h : TreeHeap β) (n₁ n₂ : Addr) (c₁ c₂ : AVLTreeCell β)
    (a b c : AVLTreeNode (Addr × β)) : Prop where
  cell₁ : h.cells n₁ = some c₁
  cell₂ : h.cells n₂ = some c₂
  left : a.LaidOut h
  middle : b.LaidOut h
  right : c.LaidOut h
  ne : n₁ ≠ n₂
  apart₁ : n₁ ∉ a.addrs ∧ n₁ ∉ b.addrs ∧ n₁ ∉ c.addrs
  apart₂ : n₂ ∉ a.addrs ∧ n₂ ∉ b.addrs ∧ n₂ ∉ c.addrs

namespace Pair
variable {h : TreeHeap β} {n₁ n₂ : Addr} {c₁ c₂ : AVLTreeCell β} {a b c : AVLTreeNode (Addr × β)}
  {S : Finset Addr}

theorem symm (hp : Pair h n₁ n₂ c₁ c₂ a b c) : Pair h n₂ n₁ c₂ c₁ a b c :=
  ⟨hp.cell₂, hp.cell₁, hp.left, hp.middle, hp.right, hp.ne.symm, hp.apart₂, hp.apart₁⟩

theorem modify (hp : Pair h n₁ n₂ c₁ c₂ a b c) (f : AVLTreeCell β → AVLTreeCell β) (hS : n₁ ∈ S) :
    ∃ h', h.modify n₁ f = some h' ∧ Pair h' n₁ n₂ (f c₁) c₂ a b c ∧ Heap.Trades h h' S S := by
  obtain ⟨h', hmodify, hcells, hnext⟩ := Heap.modify_eq hp.cell₁ f
  refine ⟨h', hmodify, ?_, Heap.Trades.of_update hcells hnext hS⟩
  exact {
    cell₁ := by rw [hcells, Function.update_self]
    cell₂ := by rw [hcells, Function.update_of_ne hp.ne.symm, hp.cell₂]
    left := hp.left.update hcells hp.apart₁.1
    middle := hp.middle.update hcells hp.apart₁.2.1
    right := hp.right.update hcells hp.apart₁.2.2
    ne := hp.ne
    apart₁ := hp.apart₁
    apart₂ := hp.apart₂ }

theorem recomputeHeight (hp : Pair h n₁ n₂ c₁ c₂ a b c) {x y : ℤ} (hx : h.heightAt c₁.left = some x)
    (hy : h.heightAt c₁.right = some y) (hS : n₁ ∈ S) :
    ∃ h', h.recomputeHeight n₁ = some h' ∧ Pair h' n₁ n₂ { c₁ with height := 1 + max x y } c₂ a b c ∧
      Heap.Trades h h' S S := by
  obtain ⟨h', hmodify, hp', htrade⟩ := hp.modify (fun n => { n with height := 1 + max x y }) hS
  exact ⟨h', by simp [TreeHeap.recomputeHeight, hp.cell₁, hx, hy, hmodify], hp', htrade⟩

theorem recomputeSubtreeSize (hp : Pair h n₁ n₂ c₁ c₂ a b c) {x y : ℕ}
    (hx : h.sizeAt c₁.left = some x) (hy : h.sizeAt c₁.right = some y) (hS : n₁ ∈ S) :
    ∃ h', h.recomputeSubtreeSize n₁ = some h' ∧
      Pair h' n₁ n₂ { c₁ with subtreeSize := 1 + x + y } c₂ a b c ∧
      Heap.Trades h h' S S := by
  obtain ⟨h', hmodify, hp', htrade⟩ := hp.modify (fun n => { n with subtreeSize := 1 + x + y }) hS
  exact ⟨h', by simp [TreeHeap.recomputeSubtreeSize, hp.cell₁, hx, hy, hmodify], hp', htrade⟩

theorem heightAt (hp : Pair h n₁ n₂ c₁ c₂ a b c) : h.heightAt (some n₁) = some c₁.height := by
  simp [TreeHeap.heightAt, hp.cell₁]

theorem sizeAt (hp : Pair h n₁ n₂ c₁ c₂ a b c) : h.sizeAt (some n₁) = some c₁.subtreeSize := by
  simp [TreeHeap.sizeAt, hp.cell₁]

end Pair

section
variable {h : TreeHeap β} {t : AVLTreeNode (Addr × β)}

theorem Held.turns_self (ht : t.Held h) : Turns h t (some (t.pointer, h)) t :=
  ⟨h, rfl, ht, Heap.Trades.refl _ _⟩

theorem Held.rightRotate (ht : t.Held h) : Turns h t (h.rightRotate t.pointer) t.rightRotate := by
  rcases t with _ | ⟨⟨n₁, v₁⟩, _ | ⟨⟨n₂, v₂⟩, a, b, k₂, s₂⟩, c, k₁, s₁⟩
  · exact ht.turns_self
  · have hnull : h.rightRotate (some n₁) = some (some n₁, h) := by
      simp [TreeHeap.rightRotate, ht.laidOut.1]
    exact hnull ▸ ht.turns_self
  · set t : AVLTreeNode (Addr × β) := node (n₁, v₁) (node (n₂, v₂) a b k₂ s₂) c k₁ s₁ with ht'
    obtain ⟨hcell₁, ⟨hcell₂, ha, hb⟩, hc⟩ := ht.laidOut
    have hnodup := ht.nodup
    simp only [ht', addrs_node, List.nodup_append, List.nodup_cons, List.mem_cons,
      List.mem_append] at hnodup
    have hp₀ : Pair h n₁ n₂ ⟨v₁, some n₂, c.pointer, k₁, s₁⟩
        ⟨v₂, a.pointer, b.pointer, k₂, s₂⟩ a b c :=
      ⟨hcell₁, hcell₂, ha, hb, hc, by grind, by grind, by grind⟩
    have h₁ : n₁ ∈ t.footprint := by simp [ht', mem_footprint]
    have h₂ : n₂ ∈ t.footprint := by simp [ht', mem_footprint]
    obtain ⟨_, e₁, hp₁, t₁⟩ := hp₀.symm.modify (fun n => { n with right := some n₁ }) h₂
    obtain ⟨_, e₂, hp₂, t₂⟩ := hp₁.symm.modify (fun n => { n with left := b.pointer }) h₁
    obtain ⟨_, e₃, hp₃, t₃⟩ := hp₂.recomputeHeight hp₂.middle.heightAt hp₂.right.heightAt h₁
    obtain ⟨_, e₄, hp₄, t₄⟩ := hp₃.symm.recomputeHeight hp₃.left.heightAt hp₃.heightAt h₂
    obtain ⟨_, e₅, hp₅, t₅⟩ := hp₄.symm.recomputeSubtreeSize hp₄.middle.sizeAt hp₄.right.sizeAt h₁
    obtain ⟨h', e₆, hp₆, t₆⟩ := hp₅.symm.recomputeSubtreeSize hp₅.left.sizeAt hp₅.sizeAt h₂
    refine ⟨h', ?_, ⟨⟨hp₆.cell₁, hp₆.left, hp₆.cell₂, hp₆.middle, hp₆.right⟩, ?_⟩, ?_⟩
    · simp [ht', TreeHeap.rightRotate, hp₀.cell₁, hp₀.cell₂, TreeHeap.setRight, TreeHeap.setLeft,
        e₁, e₂, e₃, e₄, e₅, e₆, AVLTreeNode.rightRotate, recompute, recomputeHeight,
        recomputeSubtreeSize]
    · rw [addrs, toList_rightRotate]
      exact ht.nodup
    · rw [footprint_eq (toList_rightRotate t)]
      exact ((((t₁.trans t₂).trans t₃).trans t₄).trans t₅).trans t₆

theorem Held.leftRotate (ht : t.Held h) : Turns h t (h.leftRotate t.pointer) t.leftRotate := by
  rcases t with _ | ⟨⟨n₁, v₁⟩, a, _ | ⟨⟨n₂, v₂⟩, b, c, k₂, s₂⟩, k₁, s₁⟩
  · exact ht.turns_self
  · have hnull : h.leftRotate (some n₁) = some (some n₁, h) := by
      simp [TreeHeap.leftRotate, ht.laidOut.1]
    exact hnull ▸ ht.turns_self
  · set t : AVLTreeNode (Addr × β) := node (n₁, v₁) a (node (n₂, v₂) b c k₂ s₂) k₁ s₁ with ht'
    obtain ⟨hcell₁, ha, hcell₂, hb, hc⟩ := ht.laidOut
    have hnodup := ht.nodup
    simp only [ht', addrs_node, List.nodup_append, List.nodup_cons, List.mem_cons,
      List.mem_append] at hnodup
    have hp₀ : Pair h n₁ n₂ ⟨v₁, a.pointer, some n₂, k₁, s₁⟩
        ⟨v₂, b.pointer, c.pointer, k₂, s₂⟩ a b c :=
      ⟨hcell₁, hcell₂, ha, hb, hc, by grind, by grind, by grind⟩
    have h₁ : n₁ ∈ t.footprint := by simp [ht', mem_footprint]
    have h₂ : n₂ ∈ t.footprint := by simp [ht', mem_footprint]
    obtain ⟨_, e₁, hp₁, t₁⟩ := hp₀.symm.modify (fun n => { n with left := some n₁ }) h₂
    obtain ⟨_, e₂, hp₂, t₂⟩ := hp₁.symm.modify (fun n => { n with right := b.pointer }) h₁
    obtain ⟨_, e₃, hp₃, t₃⟩ := hp₂.recomputeHeight hp₂.left.heightAt hp₂.middle.heightAt h₁
    obtain ⟨_, e₄, hp₄, t₄⟩ := hp₃.symm.recomputeHeight hp₃.heightAt hp₃.right.heightAt h₂
    obtain ⟨_, e₅, hp₅, t₅⟩ := hp₄.symm.recomputeSubtreeSize hp₄.left.sizeAt hp₄.middle.sizeAt h₁
    obtain ⟨h', e₆, hp₆, t₆⟩ := hp₅.symm.recomputeSubtreeSize hp₅.sizeAt hp₅.right.sizeAt h₂
    refine ⟨h', ?_, ⟨⟨hp₆.cell₁, ⟨hp₆.cell₂, hp₆.left, hp₆.middle⟩, hp₆.right⟩, ?_⟩, ?_⟩
    · simp [ht', TreeHeap.leftRotate, hp₀.cell₁, hp₀.cell₂, TreeHeap.setRight, TreeHeap.setLeft, e₁,
        e₂, e₃, e₄, e₅, e₆, AVLTreeNode.leftRotate, recompute, recomputeHeight, recomputeSubtreeSize]
    · rw [addrs, toList_leftRotate]
      exact ht.nodup
    · rw [footprint_eq (toList_leftRotate t)]
      exact ((((t₁.trans t₂).trans t₃).trans t₄).trans t₅).trans t₆

end

end AVLTreeNode
end Chrono
