import Chrono.SortedSets.Rotations

/-!
# Changing a child in the heap

A call on a child trades the nodes of its layout; the node above it then points to what
came back, caches the new height and size and is rebalanced.
-/
namespace Chrono
open Library

namespace AVLTreeNode
variable {β : Type} {h h₁ : TreeHeap β} {t l r l' r' : AVLTreeNode (Addr × β)} {a : Addr} {x : β}
  {k : ℤ} {s : ℕ}

theorem footprint_nullptr : (nullptr : AVLTreeNode (Addr × β)).footprint = ∅ := rfl

theorem footprint_node (v : Addr × β) (l r : AVLTreeNode (Addr × β)) (k : ℤ) (s : ℕ) :
    (node v l r k s).footprint = l.footprint ∪ ({v.1} ∪ r.footprint) := by
  ext b
  simp only [mem_footprint, addrs_node, List.mem_append, List.mem_cons, Finset.mem_union,
    Finset.mem_singleton]

theorem nodup_node : (node (a, x) l r k s).addrs.Nodup ↔
    l.addrs.Nodup ∧ r.addrs.Nodup ∧ Disjoint l.footprint ({a} ∪ r.footprint) ∧ a ∉ r.footprint := by
  simp only [addrs_node, List.nodup_append, List.nodup_cons, Finset.disjoint_left, Finset.mem_union,
    Finset.mem_singleton, mem_footprint, List.mem_cons]
  grind

theorem Held.live (ht : t.Held h) {b : Addr} (hb : b ∈ t.footprint) : (h.cells b).isSome :=
  ht.laidOut.live (mem_footprint.mp hb)

theorem Held.left (ht : (node (a, x) l r k s).Held h) : l.Held h :=
  ⟨ht.laidOut.2.1, (nodup_node.mp ht.nodup).1⟩

theorem Held.right (ht : (node (a, x) l r k s).Held h) : r.Held h :=
  ⟨ht.laidOut.2.2, (nodup_node.mp ht.nodup).2.1⟩

theorem Held.rewrite (ht : (node (a, x) l r k s).Held h) (y : β) (k' : ℤ) (s' : ℕ)
    (f : AVLTreeCell β → AVLTreeCell β)
    (hf : f ⟨x, l.pointer, r.pointer, k, s⟩ = ⟨y, l.pointer, r.pointer, k', s'⟩) :
    ∃ h', h.modify a f = some h' ∧ (node (a, y) l r k' s').Held h' ∧
      Heap.Trades h h' (node (a, x) l r k s).footprint (node (a, y) l r k' s').footprint := by
  obtain ⟨hcell, hl, hr⟩ := ht.laidOut
  obtain ⟨-, -, hapart, har⟩ := nodup_node.mp ht.nodup
  have hal : a ∉ l.footprint := Finset.disjoint_right.mp hapart (by simp)
  obtain ⟨h', hmodify, hcells, hnext⟩ := Heap.modify_eq hcell f
  rw [hf] at hcells
  refine ⟨h', hmodify, ⟨⟨?_, ?_, ?_⟩, ?_⟩, ?_⟩
  · rw [hcells, Function.update_self]
  · exact hl.update hcells fun hmem => hal (mem_footprint.mpr hmem)
  · exact hr.update hcells fun hmem => har (mem_footprint.mpr hmem)
  · rw [addrs_node]
    exact addrs_node (a, x) l r k s ▸ ht.nodup
  · rw [footprint_node, footprint_node]
    exact Heap.Trades.of_update hcells hnext (by simp)

theorem Held.setLeft (ht : (node (a, x) l r k s).Held h) (hl' : l'.Held h₁)
    (htrade : Heap.Trades h h₁ l.footprint l'.footprint) :
    ∃ h₂, h₁.setLeft a l'.pointer = some h₂ ∧ (node (a, x) l' r k s).Held h₂ ∧
      Heap.Trades h h₂ (node (a, x) l r k s).footprint (node (a, x) l' r k s).footprint := by
  obtain ⟨hcell, -, hr⟩ := ht.laidOut
  obtain ⟨-, hrnodup, hapart, har⟩ := nodup_node.mp ht.nodup
  have hal : a ∉ l.footprint := Finset.disjoint_right.mp hapart (by simp)
  have hapart' : Disjoint l'.footprint ({a} ∪ r.footprint) := by
    refine htrade.disjoint (fun b hb => ?_) hapart
    rcases Finset.mem_union.mp hb with hb | hb
    · simp [Finset.mem_singleton.mp hb, hcell]
    · exact ht.right.live hb
  have hal' : a ∉ l'.footprint := Finset.disjoint_right.mp hapart' (by simp)
  have hcell₁ := htrade.keeps hcell hal
  have hr₁ : r.LaidOut h₁ :=
    hr.frame htrade (Finset.disjoint_of_subset_right (Finset.subset_union_right) hapart)
  obtain ⟨h₂, hset, hcells, hnext⟩ := Heap.modify_eq hcell₁ fun n => { n with left := l'.pointer }
  refine ⟨h₂, hset, ⟨⟨?_, ?_, ?_⟩, ?_⟩, ?_⟩
  · rw [hcells, Function.update_self]
  · exact hl'.laidOut.update hcells fun hmem => hal' (mem_footprint.mpr hmem)
  · exact hr₁.update hcells fun hmem => har (mem_footprint.mpr hmem)
  · exact nodup_node.mpr ⟨hl'.nodup, hrnodup, hapart', har⟩
  · rw [footprint_node, footprint_node]
    exact (htrade.union _).trans (Heap.Trades.of_update hcells hnext (by simp))

theorem Held.setRight (ht : (node (a, x) l r k s).Held h) (hr' : r'.Held h₁)
    (htrade : Heap.Trades h h₁ r.footprint r'.footprint) :
    ∃ h₂, h₁.setRight a r'.pointer = some h₂ ∧ (node (a, x) l r' k s).Held h₂ ∧
      Heap.Trades h h₂ (node (a, x) l r k s).footprint (node (a, x) l r' k s).footprint := by
  obtain ⟨hcell, hl, -⟩ := ht.laidOut
  obtain ⟨hlnodup, -, hapart, har⟩ := nodup_node.mp ht.nodup
  have hal : a ∉ l.footprint := Finset.disjoint_right.mp hapart (by simp)
  have hlr : Disjoint r.footprint l.footprint :=
    (Finset.disjoint_of_subset_right (Finset.subset_union_right) hapart).symm
  have hlr' : Disjoint r'.footprint l.footprint := htrade.disjoint (fun b hb => ht.left.live hb) hlr
  have har' : a ∉ r'.footprint := htrade.notMem_of_live hcell har
  have hcell₁ := htrade.keeps hcell har
  have hl₁ : l.LaidOut h₁ := hl.frame htrade hlr
  obtain ⟨h₂, hset, hcells, hnext⟩ := Heap.modify_eq hcell₁ fun n => { n with right := r'.pointer }
  have hrotated : ∀ u : AVLTreeNode (Addr × β), (node (a, x) l u k s).footprint =
      u.footprint ∪ ({a} ∪ l.footprint) := by
    intro u
    ext b
    simp only [footprint_node, Finset.mem_union, Finset.mem_singleton]
    tauto
  refine ⟨h₂, hset, ⟨⟨?_, ?_, ?_⟩, ?_⟩, ?_⟩
  · rw [hcells, Function.update_self]
  · exact hl₁.update hcells fun hmem => hal (mem_footprint.mpr hmem)
  · exact hr'.laidOut.update hcells fun hmem => har' (mem_footprint.mpr hmem)
  · refine nodup_node.mpr ⟨hlnodup, hr'.nodup, ?_, har'⟩
    exact Finset.disjoint_union_right.mpr ⟨Finset.disjoint_singleton_right.mpr hal, hlr'.symm⟩
  · rw [hrotated, hrotated]
    exact (htrade.union _).trans (Heap.Trades.of_update hcells hnext (by simp))

/-- What is turned twice is turned from the first layout to the last. -/
theorem Turns.after {t' t'' : AVLTreeNode (Addr × β)} {res : Defined (Option Addr × TreeHeap β)}
    (htrade : Heap.Trades h h₁ t.footprint t'.footprint) (hturn : Turns h₁ t' res t'') :
    Turns h t res t'' := by
  obtain ⟨h₂, hres, ht'', htrade'⟩ := hturn
  exact ⟨h₂, hres, ht'', htrade.trans htrade'⟩

theorem Held.recompute (ht : (node (a, x) l r k s).Held h) :
    ∃ h₁ h₂, h.recomputeHeight a = some h₁ ∧ h₁.recomputeSubtreeSize a = some h₂ ∧
      (node (a, x) l r k s).recompute.Held h₂ ∧
        Heap.Trades h h₂ (node (a, x) l r k s).footprint
          (node (a, x) l r k s).recompute.footprint := by
  obtain ⟨hcell, hl, hr⟩ := ht.laidOut
  obtain ⟨h₁, hheight, ht₁, htrade₁⟩ := ht.rewrite x (1 + max l.cachedHeight r.cachedHeight) s
    (fun n => { n with height := 1 + max l.cachedHeight r.cachedHeight }) rfl
  obtain ⟨hcell₁, hl₁, hr₁⟩ := ht₁.laidOut
  obtain ⟨h₂, hsize, ht₂, htrade₂⟩ := ht₁.rewrite x (1 + max l.cachedHeight r.cachedHeight)
    (1 + l.cachedSize + r.cachedSize) (fun n =>
      { n with subtreeSize := 1 + l.cachedSize + r.cachedSize }) rfl
  refine ⟨h₁, h₂, ?_, ?_, ht₂, htrade₁.trans htrade₂⟩
  · simp [TreeHeap.recomputeHeight, hcell, hl.heightAt, hr.heightAt, hheight]
  · simp [TreeHeap.recomputeSubtreeSize, hcell₁, hl₁.sizeAt, hr₁.sizeAt, hsize]

/-- Rebalancing in the heap reads the same balances and takes the same branch. -/
theorem Held.rebalance (ht : t.Held h) : Turns h t (h.rebalance t.pointer) t.rebalance := by
  rcases t with _ | ⟨⟨a, x⟩, l, r, k, s⟩
  · exact ht.turns_self
  obtain ⟨hcell, hl, hr⟩ := ht.laidOut
  have hguard : ∀ (p : Prop) [Decidable p] (b : Bool), (if p then some b else some false) =
      some (decide p && b) := by
    intro p _ b
    by_cases hp : p <;> simp [hp]
  simp only [TreeHeap.rebalance, pointer_node, hcell, ht.laidOut.getBalance, hl.balanceIs,
    hr.balanceIs, hguard, Option.bind_eq_bind, Option.bind_some, Bool.and_eq_true,
    decide_eq_true_eq, Bool.not_eq_true', AVLTreeNode.rebalance]
  split_ifs
  · exact ht.rightRotate
  · exact ht.leftRotate
  · obtain ⟨h₁, hrotate, hl', htrade⟩ := ht.left.leftRotate
    obtain ⟨h₂, hset, ht₂, htrade₂⟩ := ht.setLeft hl' htrade
    simp only [hrotate, hset, Option.bind_some]
    exact Turns.after htrade₂ ht₂.rightRotate
  · obtain ⟨h₁, hrotate, hr', htrade⟩ := ht.right.rightRotate
    obtain ⟨h₂, hset, ht₂, htrade₂⟩ := ht.setRight hr' htrade
    simp only [hrotate, hset, Option.bind_some]
    exact Turns.after htrade₂ ht₂.leftRotate
  · exact ht.turns_self

/-- The statements that follow a change of a child. -/
theorem Held.settle (ht : (node (a, x) l r k s).Held h) :
    Turns h (node (a, x) l r k s) (h.settle a) (node (a, x) l r k s).recompute.rebalance := by
  obtain ⟨h₁, h₂, hheight, hsize, ht₂, htrade⟩ := ht.recompute
  simp only [TreeHeap.settle, hheight, hsize, Option.bind_eq_bind, Option.bind_some]
  exact Turns.after htrade ht₂.rebalance

end AVLTreeNode
end Chrono
