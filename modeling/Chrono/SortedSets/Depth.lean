import Mathlib.Data.Nat.Fib.Basic
import Mathlib.Data.Nat.Log
import Chrono.SortedSets.TreeSet

/-!
# Depth of the recursions

A balanced tree has as many nodes as a Fibonacci number says, so that its height is
logarithmic. The recursive functions are written once more for a call stack with
room for `frames` calls, where a call without room fails.
-/
namespace Chrono

namespace AVLTreeNode
variable {β : Type}

/-- `AVLTree::_destroy`: the values of the nodes in the order in which they are deleted. -/
def destroy : AVLTreeNode β → List β
  | nullptr => []
  | node v l r _ _ => l.destroy ++ r.destroy ++ [v]

def destroyWithin : ℕ → AVLTreeNode β → Option (List β)
  | 0, _ => none
  | _ + 1, nullptr => some []
  | frames + 1, node v l r _ _ => do
    let left ← l.destroyWithin frames
    let right ← r.destroyWithin frames
    some (left ++ right ++ [v])

section
variable [LT β] [DecidableLT β]

def insertWithin : ℕ → AVLTreeNode β → β → Option (AVLTreeNode β)
  | 0, _, _ => none
  | _ + 1, nullptr, value => some (node value nullptr nullptr 0 1)
  | frames + 1, node v l r h s, value =>
    if value < v then (l.insertWithin frames value).map fun l => (node v l r h s).recompute.rebalance
    else if value > v then
      (r.insertWithin frames value).map fun r => (node v l r h s).recompute.rebalance
    else some (node v l r h s)

def eraseWithin : ℕ → AVLTreeNode β → β → Option (AVLTreeNode β)
  | 0, _, _ => none
  | _ + 1, nullptr, _ => some nullptr
  | frames + 1, node v l r h s, value =>
    if value < v then (l.eraseWithin frames value).map fun l => (node v l r h s).recompute.rebalance
    else if value > v then
      (r.eraseWithin frames value).map fun r => (node v l r h s).recompute.rebalance
    else if l.isNull && r.isNull then some nullptr
    else if l.isNull then some r.recompute.rebalance
    else if r.isNull then some l.recompute.rebalance
    else
      match r.leftmost with
      | none => some (node v l r h s)
      | some successor =>
        (r.eraseWithin frames successor).map fun r => (node successor l r h s).recompute.rebalance

def rankWithin : ℕ → AVLTreeNode β → β → Option ℕ
  | 0, _, _ => none
  | _ + 1, nullptr, _ => some 0
  | frames + 1, node v l r _ _, value =>
    if value < v then l.rankWithin frames value
    else if value > v then (r.rankWithin frames value).map (l.cachedSize + 1 + ·)
    else some l.cachedSize

end

/-! A frame for each level of the tree, and one for the call on a null child, are enough. -/

theorem child_fits {v : β} {l r : AVLTreeNode β} {h : ℤ} {s frames : ℕ}
    (hfits : (node v l r h s).height + 2 ≤ (frames + 1 : ℕ)) :
    l.height + 2 ≤ frames ∧ r.height + 2 ≤ frames := by
  rw [height] at hfits
  omega

theorem frames_ne_zero {t : AVLTreeNode β} (hfits : t.height + 2 ≤ (0 : ℕ)) : False := by
  have := height_ge t
  omega

theorem destroyWithin_eq {t : AVLTreeNode β} {frames : ℕ} (hfits : t.height + 2 ≤ frames) :
    t.destroyWithin frames = some t.destroy := by
  induction t generalizing frames with
  | nullptr =>
    cases frames with
    | zero => exact (frames_ne_zero hfits).elim
    | succ frames => rfl
  | node v l r h s ihl ihr =>
    cases frames with
    | zero => exact (frames_ne_zero hfits).elim
    | succ frames =>
      obtain ⟨hl, hr⟩ := child_fits hfits
      rw [destroyWithin, ihl hl, ihr hr]
      rfl

section
variable [LT β] [DecidableLT β]

theorem insertWithin_eq {t : AVLTreeNode β} {frames : ℕ} (hfits : t.height + 2 ≤ frames) (x : β) :
    t.insertWithin frames x = some (t.insert x) := by
  induction t generalizing frames with
  | nullptr =>
    cases frames with
    | zero => exact (frames_ne_zero hfits).elim
    | succ frames => rfl
  | node v l r h s ihl ihr =>
    cases frames with
    | zero => exact (frames_ne_zero hfits).elim
    | succ frames =>
      obtain ⟨hl, hr⟩ := child_fits hfits
      rw [insertWithin, insert, ihl hl, ihr hr]
      split_ifs <;> rfl

theorem eraseWithin_eq {t : AVLTreeNode β} {frames : ℕ} (hfits : t.height + 2 ≤ frames) (x : β) :
    t.eraseWithin frames x = some (t.erase x) := by
  induction t generalizing frames x with
  | nullptr =>
    cases frames with
    | zero => exact (frames_ne_zero hfits).elim
    | succ frames => rfl
  | node v l r h s ihl ihr =>
    cases frames with
    | zero => exact (frames_ne_zero hfits).elim
    | succ frames =>
      obtain ⟨hl, hr⟩ := child_fits hfits
      rw [eraseWithin, erase, ihl hl, ihr hr]
      split_ifs
      · rfl
      · rfl
      · rfl
      · rfl
      · rfl
      · cases r.leftmost with
        | none => rfl
        | some successor =>
          dsimp only
          rw [ihr hr]
          rfl

theorem rankWithin_eq {t : AVLTreeNode β} {frames : ℕ} (hfits : t.height + 2 ≤ frames) (x : β) :
    t.rankWithin frames x = some (t.rank x) := by
  induction t generalizing frames with
  | nullptr =>
    cases frames with
    | zero => exact (frames_ne_zero hfits).elim
    | succ frames => rfl
  | node v l r h s ihl ihr =>
    cases frames with
    | zero => exact (frames_ne_zero hfits).elim
    | succ frames =>
      obtain ⟨hl, hr⟩ := child_fits hfits
      rw [rankWithin, rank, ihl hl, ihr hr]
      split_ifs <;> rfl

end

/-! ## Height and number of nodes -/

/-- The smallest trees of a height are the Fibonacci trees. -/
theorem fib_le_length {t : AVLTreeNode β} (ht : t.Balanced) :
    Nat.fib (t.height + 3).toNat ≤ t.toList.length + 1 := by
  induction t with
  | nullptr => simp [height]
  | node v l r h s ihl ihr =>
    obtain ⟨-, h₁, h₂, hl, hr⟩ := ht
    have hl' := ihl hl
    have hr' := ihr hr
    have hlow := height_ge l
    have hrow := height_ge r
    -- one child has the height of the tree less one, the other at least the height less two
    obtain ⟨m, hm⟩ : ∃ m : ℕ, 1 + max l.height r.height = m :=
      ⟨(1 + max l.height r.height).toNat, by omega⟩
    have hsplit : Nat.fib (m + 3) ≤ Nat.fib (l.height + 3).toNat + Nat.fib (r.height + 3).toNat := by
      rw [Nat.fib_add_two]
      rcases le_total l.height r.height with hle | hle
      · have hhigh : (r.height + 3).toNat = m + 1 + 1 := by omega
        rw [hhigh]
        exact Nat.add_le_add_right (Nat.fib_mono (by omega)) _
      · have hhigh : (l.height + 3).toNat = m + 1 + 1 := by omega
        rw [hhigh, Nat.add_comm (Nat.fib (m + 1 + 1))]
        exact Nat.add_le_add_right (Nat.fib_mono (by omega)) _
    have hm' : ((node v l r h s).height + 3).toNat = m + 3 := by
      rw [height]
      omega
    rw [hm', toList_node, List.length_append, List.length_cons]
    omega

end AVLTreeNode

/-- Fibonacci numbers double at least with every other index. -/
theorem pow_le_fib (m : ℕ) : 2 ^ (m / 2) ≤ Nat.fib (m + 2) := by
  induction m using Nat.twoStepInduction with
  | zero => decide
  | one => decide
  | more m ih _ =>
    have hdiv : (m + 2) / 2 = m / 2 + 1 := by omega
    calc 2 ^ ((m + 2) / 2) = 2 ^ (m / 2) + 2 ^ (m / 2) := by rw [hdiv, pow_succ, Nat.mul_two]
      _ ≤ Nat.fib (m + 2) + Nat.fib (m + 3) := Nat.add_le_add ih (ih.trans Nat.fib_le_fib_succ)
      _ = Nat.fib (m + 2 + 2) := Nat.fib_add_two.symm

theorem AVLTreeNode.height_le_log {β : Type} {t : AVLTreeNode β} (ht : t.Balanced) :
    t.height ≤ 2 * Nat.log 2 (t.toList.length + 1) := by
  have hlow := height_ge t
  obtain ⟨m, hm⟩ : ∃ m : ℕ, t.height + 1 = m := ⟨(t.height + 1).toNat, by omega⟩
  have hfib := fib_le_length ht
  rw [show (t.height + 3).toNat = m + 2 by omega] at hfib
  have hlog : m / 2 ≤ Nat.log 2 (t.toList.length + 1) :=
    Nat.le_log_of_pow_le (by decide) ((pow_le_fib m).trans hfib)
  omega

section
variable {β : Type} [LT β] [DecidableLT β]

/-- Rebalancing needs no order: the tree is balanced whatever `<` is. -/
theorem AVLTree.balanced_run (ops : List (TreeOp β)) :
    ((treeMachine β).after AVLTree.empty ops).root.Balanced := by
  apply (treeMachine β).preserved (I := fun t => t.root.Balanced)
  · intro t op ht
    cases op with
    | insert v => exact (AVLTreeNode.balanced_insert ht v).1
    | erase v => exact (AVLTreeNode.balanced_erase ht v).1
  · trivial

/-- After every run of insertions and deletions a tree of height `h`, which the root caches,
has at least `fib (h + 3) - 1` values; and on a stack whose room is logarithmic in their
number `_insert`, `_erase`, `_rank` and `_destroy` return. -/
theorem tree_logarithmic (ops : List (TreeOp β)) :
    let t := (treeMachine β).after AVLTree.empty ops
    t.root.cachedHeight = t.root.height ∧ Nat.fib (t.root.height + 3).toNat - 1 ≤ t.toList.length ∧
      ∀ frames, 2 * Nat.log 2 (t.toList.length + 1) + 2 ≤ frames →
        (∀ v, t.root.insertWithin frames v = some (t.root.insert v)) ∧
          (∀ v, t.root.eraseWithin frames v = some (t.root.erase v)) ∧
          (∀ v, t.root.rankWithin frames v = some (t.root.rank v)) ∧
          t.root.destroyWithin frames = some t.root.destroy := by
  intro t
  have hbalanced : t.root.Balanced := AVLTree.balanced_run ops
  have hlength := AVLTreeNode.fib_le_length hbalanced
  refine ⟨AVLTreeNode.cachedHeight_eq hbalanced, Nat.sub_le_of_le_add hlength, ?_⟩
  intro frames hframes
  have hheight : t.root.height ≤ 2 * Nat.log 2 (t.toList.length + 1) :=
    AVLTreeNode.height_le_log hbalanced
  have hfits : t.root.height + 2 ≤ frames := by omega
  exact ⟨AVLTreeNode.insertWithin_eq hfits, AVLTreeNode.eraseWithin_eq hfits,
    AVLTreeNode.rankWithin_eq hfits, AVLTreeNode.destroyWithin_eq hfits⟩

end
end Chrono
