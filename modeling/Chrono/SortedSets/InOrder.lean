import Chrono.Library.SortedList
import Chrono.SortedSets.Tree

/-!
# The AVL tree in order

Rotations keep the in-order sequence and the cached sizes. Insertion and deletion
are the sorted insertion and deletion on that sequence, and the rank of a value is
the number of values below it.
-/
namespace Chrono
open Library Library.SortedList

namespace AVLTreeNode
variable {β : Type}

def toList : AVLTreeNode β → List β
  | nullptr => []
  | node v l r _ _ => l.toList ++ v :: r.toList

/-- Every node caches the number of values below it and of its own. -/
def SizeOk : AVLTreeNode β → Prop
  | nullptr => True
  | node v l r h s => s = (node v l r h s).toList.length ∧ l.SizeOk ∧ r.SizeOk

@[simp] theorem toList_nullptr : (nullptr : AVLTreeNode β).toList = [] := rfl

@[simp] theorem toList_node (v : β) (l r : AVLTreeNode β) (h : ℤ) (s : ℕ) :
    (node v l r h s).toList = l.toList ++ v :: r.toList := rfl

theorem cachedSize_eq {t : AVLTreeNode β} (h : t.SizeOk) : t.cachedSize = t.toList.length := by
  cases t with
  | nullptr => rfl
  | node v l r ht s => exact h.1

theorem toList_eq_nil {t : AVLTreeNode β} : t.toList = [] ↔ t = nullptr := by
  cases t <;> simp

theorem eq_leaf_of_toList {t : AVLTreeNode β} {v : β} (h : t.toList = [v]) :
    ∃ ht s, t = node v nullptr nullptr ht s := by
  cases t with
  | nullptr => simp at h
  | node v' l r ht s =>
    rw [toList_node, List.append_eq_singleton_iff] at h
    rcases h with ⟨hl, hvr⟩ | ⟨-, hvr⟩
    · obtain ⟨rfl, hr⟩ := List.cons.inj hvr
      exact ⟨ht, s, by rw [toList_eq_nil.mp hl, toList_eq_nil.mp hr]⟩
    · simp at hvr

theorem toList_recompute (t : AVLTreeNode β) : t.recompute.toList = t.toList := by
  cases t <;> rfl

/-- Recomputing a node repairs its size when those of its children are right. -/
theorem sizeOk_recompute {v : β} {l r : AVLTreeNode β} (hl : l.SizeOk) (hr : r.SizeOk) (h : ℤ)
    (s : ℕ) :
    (node v l r h s).recompute.SizeOk := by
  refine ⟨?_, hl, hr⟩
  rw [cachedSize_eq hl, cachedSize_eq hr, toList_node, List.length_append, List.length_cons]
  omega

theorem toList_rightRotate (t : AVLTreeNode β) : t.rightRotate.toList = t.toList := by
  rcases t with _ | ⟨v, _ | ⟨v', l', r', h', s'⟩, r, h, s⟩
  · rfl
  · rfl
  · simp [rightRotate, toList_recompute]

theorem toList_leftRotate (t : AVLTreeNode β) : t.leftRotate.toList = t.toList := by
  rcases t with _ | ⟨v, l, _ | ⟨v', l', r', h', s'⟩, h, s⟩
  · rfl
  · rfl
  · simp [leftRotate, toList_recompute]

theorem sizeOk_rightRotate {t : AVLTreeNode β} (ht : t.SizeOk) : t.rightRotate.SizeOk := by
  rcases t with _ | ⟨v, _ | ⟨v', l', r', h', s'⟩, r, h, s⟩
  · exact ht
  · exact ht
  · obtain ⟨-, ⟨-, hl', hr'⟩, hr⟩ := ht
    exact sizeOk_recompute hl' (sizeOk_recompute hr' hr h s) h' s'

theorem sizeOk_leftRotate {t : AVLTreeNode β} (ht : t.SizeOk) : t.leftRotate.SizeOk := by
  rcases t with _ | ⟨v, l, _ | ⟨v', l', r', h', s'⟩, h, s⟩
  · exact ht
  · exact ht
  · obtain ⟨-, hl, -, hl', hr'⟩ := ht
    exact sizeOk_recompute (sizeOk_recompute hl hl' h s) hr' h' s'

theorem toList_rebalance (t : AVLTreeNode β) : t.rebalance.toList = t.toList := by
  cases t with
  | nullptr => rfl
  | node v l r h s =>
    unfold rebalance
    dsimp only
    split_ifs
    · exact toList_rightRotate _
    · exact toList_leftRotate _
    · rw [toList_rightRotate, toList_node, toList_leftRotate, toList_node]
    · rw [toList_leftRotate, toList_node, toList_rightRotate, toList_node]
    · rfl

theorem sizeOk_rebalance {t : AVLTreeNode β} (ht : t.SizeOk) : t.rebalance.SizeOk := by
  cases t with
  | nullptr => exact ht
  | node v l r h s =>
    obtain ⟨hs, hl, hr⟩ := ht
    have hleft : (node v l.leftRotate r h s).SizeOk := by
      refine ⟨?_, sizeOk_leftRotate hl, hr⟩
      rw [hs, toList_node, toList_node, toList_leftRotate]
    have hright : (node v l r.rightRotate h s).SizeOk := by
      refine ⟨?_, hl, sizeOk_rightRotate hr⟩
      rw [hs, toList_node, toList_node, toList_rightRotate]
    unfold rebalance
    dsimp only
    split_ifs
    · exact sizeOk_rightRotate ⟨hs, hl, hr⟩
    · exact sizeOk_leftRotate ⟨hs, hl, hr⟩
    · exact sizeOk_rightRotate hleft
    · exact sizeOk_leftRotate hright
    · exact ⟨hs, hl, hr⟩

/-- What follows every change of a child. -/
theorem toList_repair (v : β) (l r : AVLTreeNode β) (h : ℤ) (s : ℕ) :
    (node v l r h s).recompute.rebalance.toList = l.toList ++ v :: r.toList := by
  rw [toList_rebalance, toList_recompute, toList_node]

theorem sizeOk_repair {v : β} {l r : AVLTreeNode β} (hl : l.SizeOk) (hr : r.SizeOk) (h : ℤ) (s : ℕ) :
    (node v l r h s).recompute.rebalance.SizeOk := sizeOk_rebalance (sizeOk_recompute hl hr h s)

/-- The in-order successor of the root is the first value of its right subtree. -/
theorem leftmost_eq_head (t : AVLTreeNode β) : t.leftmost = t.toList.head? := by
  induction t with
  | nullptr => rfl
  | node v l r h s ihl ihr =>
    cases l with
    | nullptr => rfl
    | node v' l' r' h' s' =>
      rw [leftmost, if_neg (by simp [isNull]), ihl, toList_node v]
      cases hx : (node v' l' r' h' s').toList with
      | nil => simp at hx
      | cons x xs => rfl

variable [LT β] [DecidableLT β]

theorem sizeOk_insert {t : AVLTreeNode β} (ht : t.SizeOk) (x : β) : (t.insert x).SizeOk := by
  induction t with
  | nullptr => exact ⟨rfl, trivial, trivial⟩
  | node v l r h s ihl ihr =>
    obtain ⟨hs, hl, hr⟩ := ht
    rw [insert]
    split_ifs
    · exact sizeOk_repair (ihl hl) hr h s
    · exact sizeOk_repair hl (ihr hr) h s
    · exact ⟨hs, hl, hr⟩

theorem sizeOk_erase {t : AVLTreeNode β} (ht : t.SizeOk) (x : β) : (t.erase x).SizeOk := by
  induction t generalizing x with
  | nullptr => exact ht
  | node v l r h s ihl ihr =>
    obtain ⟨hs, hl, hr⟩ := ht
    have hrepair {t : AVLTreeNode β} (ht : t.SizeOk) : t.recompute.rebalance.SizeOk := by
      cases t with
      | nullptr => exact ht
      | node v l r h s => exact sizeOk_repair ht.2.1 ht.2.2 h s
    rw [erase]
    split_ifs
    · exact sizeOk_repair (ihl hl x) hr h s
    · exact sizeOk_repair hl (ihr hr x) h s
    · trivial
    · exact hrepair hr
    · exact hrepair hl
    · split
      · exact ⟨hs, hl, hr⟩
      · exact sizeOk_repair hl (ihr hr _) h s

/-- A value that is neither below nor above the root is not inserted. -/
theorem insert_incomparable {t : AVLTreeNode β} {x : β} (hne : t ≠ nullptr)
    (h : ∀ v ∈ t.toList, ¬ x < v ∧ ¬ v < x) : t.insert x = t := by
  cases t with
  | nullptr => exact absurd rfl hne
  | node v l r ht s =>
    obtain ⟨h₁, h₂⟩ := h v (by simp)
    rw [insert, if_neg h₁, if_neg h₂]

variable {S : β → Prop} (hS : StrictTotalOn S)
include hS

theorem toList_insert {t : AVLTreeNode β} (ht : SortedIn S t.toList) {x : β} (hx : S x) :
    (t.insert x).toList = put x t.toList := by
  induction t with
  | nullptr => rfl
  | node v l r h s ihl ihr =>
    obtain ⟨hl, hr, hv, -⟩ := sortedIn_append_cons.mp ht
    rw [toList_node]
    rcases hS.total hx hv with hlt | rfl | hgt
    · rw [insert, if_pos hlt, toList_repair, ihl hl, put_of_lt hS ht hx hlt]
    · rw [insert, if_neg (hS.irrefl hx), if_neg (hS.irrefl hx), put_at hS ht, toList_node]
    · rw [insert, if_neg (hS.asymm hv hx hgt), if_pos hgt, toList_repair, ihr hr,
        put_of_gt hS ht hx hgt]

theorem toList_erase {t : AVLTreeNode β} (ht : SortedIn S t.toList) {x : β} (hx : S x) :
    (t.erase x).toList = drop x t.toList := by
  induction t generalizing x with
  | nullptr => rfl
  | node v l r h s ihl ihr =>
    obtain ⟨hl, hr, hv, -⟩ := sortedIn_append_cons.mp ht
    rw [toList_node]
    rcases hS.total hx hv with hlt | rfl | hgt
    · rw [erase, if_pos hlt, toList_repair, ihl hl hx, drop_of_lt hS ht hx hlt]
    · rw [erase, if_neg (hS.irrefl hx), if_neg (hS.irrefl hx), drop_at hS ht]
      cases l with
      | nullptr =>
        cases r with
        | nullptr => rfl
        | node v' l' r' h' s' => simp [isNull, toList_rebalance, toList_recompute]
      | node v' l' r' h' s' =>
        cases hr' : r with
        | nullptr => simp [isNull, toList_rebalance, toList_recompute]
        | node v₂ l₂ r₂ h₂ s₂ =>
          rw [← hr', if_neg (by simp [isNull]), if_neg (by simp [isNull]),
            if_neg (by simp [isNull, hr']), leftmost_eq_head]
          -- the successor is the first value of the right subtree, and leaves it
          cases hlist : r.toList with
          | nil => simp [hr'] at hlist
          | cons y ys =>
            have hsplit : SortedIn S ([] ++ y :: ys) := hlist ▸ hr
            have hy : S y := hr.within y (by simp [hlist])
            have hdrop : drop y r.toList = ys := by
              rw [hlist]
              exact drop_at hS hsplit
            simp only [List.head?_cons]
            rw [toList_repair, ihr hr hy, hdrop]
    · rw [erase, if_neg (hS.asymm hv hx hgt), if_pos hgt, toList_repair, ihr hr hx,
        drop_of_gt hS ht hx hgt]

theorem rank_eq {t : AVLTreeNode β} (ht : SortedIn S t.toList) (hs : t.SizeOk) {x : β} (hx : S x) :
    t.rank x = (below x t.toList).length := by
  induction t with
  | nullptr => rfl
  | node v l r h s ihl ihr =>
    obtain ⟨hl, hr, hv, -⟩ := sortedIn_append_cons.mp ht
    obtain ⟨-, hsl, hsr⟩ := hs
    rw [toList_node]
    rcases hS.total hx hv with hlt | rfl | hgt
    · rw [rank, if_pos hlt, ihl hl hsl, (split_of_lt hS ht hx hlt).1]
    · rw [rank, if_neg (hS.irrefl hx), if_neg (hS.irrefl hx), (split_at hS ht).1, cachedSize_eq hsl]
    · rw [rank, if_neg (hS.asymm hv hx hgt), if_pos hgt, ihr hr hsr, (split_of_gt hS ht hx hgt).1,
        cachedSize_eq hsl, List.length_append, List.length_cons]
      omega

end AVLTreeNode
end Chrono
