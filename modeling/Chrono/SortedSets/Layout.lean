import Chrono.SortedSets.InOrder
import Chrono.SortedSets.Pointers

/-!
# Trees laid out in the heap

A layout is a tree whose values carry the addresses of their nodes. A heap holds it when
the cells at these addresses are its nodes and point to each other as its branches do.
Rotations move nodes, so that on layouts the pointer operations are the tree operations.
-/
namespace Chrono
open Library

namespace AVLTreeNode
variable {α β : Type}

def map (f : α → β) : AVLTreeNode α → AVLTreeNode β
  | nullptr => nullptr
  | node v l r h s => node (f v) (l.map f) (r.map f) h s

section
variable (f : α → β) (t : AVLTreeNode α)

@[simp] theorem map_nullptr : (nullptr : AVLTreeNode α).map f = nullptr := rfl

@[simp] theorem map_node (v : α) (l r : AVLTreeNode α) (h : ℤ) (s : ℕ) :
    (node v l r h s).map f = node (f v) (l.map f) (r.map f) h s := rfl

@[simp] theorem isNull_map : (t.map f).isNull = t.isNull := by cases t <;> rfl

@[simp] theorem cachedHeight_map : (t.map f).cachedHeight = t.cachedHeight := by cases t <;> rfl

@[simp] theorem cachedSize_map : (t.map f).cachedSize = t.cachedSize := by cases t <;> rfl

@[simp] theorem getBalance_map : (t.map f).getBalance = t.getBalance := by
  cases t <;> simp [getBalance]

theorem toList_map : (t.map f).toList = t.toList.map f := by
  induction t with
  | nullptr => rfl
  | node v l r h s ihl ihr => simp [ihl, ihr]

theorem map_recompute : t.recompute.map f = (t.map f).recompute := by
  cases t <;> simp [recompute, recomputeHeight, recomputeSubtreeSize]

theorem map_rightRotate : t.rightRotate.map f = (t.map f).rightRotate := by
  rcases t with _ | ⟨v, _ | ⟨v', l', r', h', s'⟩, r, h, s⟩
  · rfl
  · rfl
  · simp [rightRotate, map_recompute]

theorem map_leftRotate : t.leftRotate.map f = (t.map f).leftRotate := by
  rcases t with _ | ⟨v, l, _ | ⟨v', l', r', h', s'⟩, h, s⟩
  · rfl
  · rfl
  · simp [leftRotate, map_recompute]

theorem map_rebalance : t.rebalance.map f = (t.map f).rebalance := by
  cases t with
  | nullptr => rfl
  | node v l r h s =>
    simp only [rebalance, map_node, isNull_map, getBalance_map]
    have hroot : (node (f v) (l.map f) (r.map f) h s).getBalance = (node v l r h s).getBalance :=
      getBalance_map f (node v l r h s)
    rw [hroot]
    split_ifs <;> simp [map_rightRotate, map_leftRotate]

theorem leftmost_map : (t.map f).leftmost = t.leftmost.map f := by
  rw [leftmost_eq_head, leftmost_eq_head, toList_map, List.head?_map]

end

/-- The address of the root, as a pointer to it. -/
def pointer : AVLTreeNode (Addr × β) → Option Addr
  | nullptr => none
  | node v _ _ _ _ => some v.1

def addrs (t : AVLTreeNode (Addr × β)) : List Addr := t.toList.map Prod.fst

def footprint (t : AVLTreeNode (Addr × β)) : Finset Addr := t.addrs.toFinset

/-- The tree that the layout is one of. -/
def values (t : AVLTreeNode (Addr × β)) : AVLTreeNode β := t.map Prod.snd

/-- The nodes of the layout are in the heap. -/
def LaidOut (h : TreeHeap β) : AVLTreeNode (Addr × β) → Prop
  | nullptr => True
  | node v l r height size =>
    h.cells v.1 = some ⟨v.2, l.pointer, r.pointer, height, size⟩ ∧ l.LaidOut h ∧ r.LaidOut h

section
variable {h h' : TreeHeap β} {t l r : AVLTreeNode (Addr × β)} {a : Addr} {x : β} {height : ℤ}
  {size : ℕ}

@[simp] theorem pointer_nullptr : (nullptr : AVLTreeNode (Addr × β)).pointer = none := rfl

@[simp] theorem pointer_node (v : Addr × β) (l r : AVLTreeNode (Addr × β)) (height : ℤ) (size : ℕ) :
    (node v l r height size).pointer = some v.1 := rfl

@[simp] theorem addrs_nullptr : (nullptr : AVLTreeNode (Addr × β)).addrs = [] := rfl

@[simp] theorem addrs_node (v : Addr × β) (l r : AVLTreeNode (Addr × β)) (height : ℤ) (size : ℕ) :
    (node v l r height size).addrs = l.addrs ++ v.1 :: r.addrs := by simp [addrs]

theorem mem_footprint : a ∈ t.footprint ↔ a ∈ t.addrs := List.mem_toFinset

theorem footprint_eq {t' : AVLTreeNode (Addr × β)} (h : t'.toList = t.toList) :
    t'.footprint = t.footprint := by
  rw [footprint, footprint, addrs, addrs, h]

theorem isNull_eq_false (t : AVLTreeNode (Addr × β)) :
    t.isNull = false ↔ ∃ a, t.pointer = some a := by
  cases t <;> simp [isNull]

theorem LaidOut.live (ht : t.LaidOut h) (ha : a ∈ t.addrs) : (h.cells a).isSome := by
  induction t with
  | nullptr => simp at ha
  | node v l r height size ihl ihr =>
    obtain ⟨hcell, hl, hr⟩ := ht
    rw [addrs_node, List.mem_append, List.mem_cons] at ha
    rcases ha with ha | rfl | ha
    · exact ihl hl ha
    · simp [hcell]
    · exact ihr hr ha

theorem LaidOut.congr (ht : t.LaidOut h) (heq : ∀ a ∈ t.addrs, h'.cells a = h.cells a) :
    t.LaidOut h' := by
  induction t with
  | nullptr => trivial
  | node v l r height size ihl ihr =>
    obtain ⟨hcell, hl, hr⟩ := ht
    refine ⟨(heq _ (by simp)).trans hcell, ?_, ?_⟩
    · exact ihl hl fun a ha => heq a (by simp [ha])
    · exact ihr hr fun a ha => heq a (by simp [ha])

theorem LaidOut.update (ht : t.LaidOut h) {u : Option (AVLTreeCell β)}
    (hcells : h'.cells = Function.update h.cells a u) (ha : a ∉ t.addrs) : t.LaidOut h' := by
  apply ht.congr
  intro b hb
  rw [hcells, Function.update_of_ne]
  rintro rfl
  exact ha hb

theorem LaidOut.frame (ht : t.LaidOut h) {S S' : Finset Addr} (htrade : Heap.Trades h h' S S')
    (hd : Disjoint S t.footprint) : t.LaidOut h' := by
  apply ht.congr
  intro a ha
  obtain ⟨c, hc⟩ := Option.isSome_iff_exists.mp (ht.live ha)
  rw [htrade.keeps hc (Finset.disjoint_right.mp hd (mem_footprint.mpr ha)), hc]

theorem LaidOut.heightAt (ht : t.LaidOut h) : h.heightAt t.pointer = some t.cachedHeight := by
  cases t with
  | nullptr => rfl
  | node v l r height size => simp [TreeHeap.heightAt, ht.1, cachedHeight]

theorem LaidOut.sizeAt (ht : t.LaidOut h) : h.sizeAt t.pointer = some t.cachedSize := by
  cases t with
  | nullptr => rfl
  | node v l r height size => simp [TreeHeap.sizeAt, ht.1, cachedSize]

theorem LaidOut.getBalance (ht : (node (a, x) l r height size).LaidOut h) :
    h.getBalance a = some (node (a, x) l r height size).getBalance := by
  obtain ⟨hcell, hl, hr⟩ := ht
  simp [TreeHeap.getBalance, hcell, hl.heightAt, hr.heightAt, AVLTreeNode.getBalance]

theorem LaidOut.balanceIs (ht : t.LaidOut h) (test : ℤ → Bool) :
    h.balanceIs test t.pointer = some (!t.isNull && test t.getBalance) := by
  cases t with
  | nullptr => rfl
  | node v l r height size =>
    obtain ⟨a, x⟩ := v
    simp [TreeHeap.balanceIs, ht.getBalance, isNull]

end

end AVLTreeNode
end Chrono
