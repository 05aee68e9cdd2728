import Mathlib.Data.Int.Order.Basic
import Mathlib.Tactic.Common

/-!
# The AVL tree of a sorted set

Nodes cache their height and the size of their subtree. A null child counts as
height -1 and size 0.
-/
namespace Chrono

inductive AVLTreeNode (β : Type) where
  | nullptr
  | node (value : β) (left right : AVLTreeNode β) (height : ℤ) (subtreeSize : ℕ)
deriving DecidableEq, Repr

namespace AVLTreeNode
variable {β : Type}

def isNull : AVLTreeNode β → Bool
  | nullptr => true
  | node _ _ _ _ _ => false

/-- `(p == nullptr) ? -1 : p->height` -/
def cachedHeight : AVLTreeNode β → ℤ
  | nullptr => -1
  | node _ _ _ h _ => h

/-- `(p == nullptr) ? 0 : p->subtree_size` -/
def cachedSize : AVLTreeNode β → ℕ
  | nullptr => 0
  | node _ _ _ _ s => s

def getBalance : AVLTreeNode β → ℤ
  | nullptr => 0
  | node _ l r _ _ => l.cachedHeight - r.cachedHeight

def recomputeHeight : AVLTreeNode β → AVLTreeNode β
  | nullptr => nullptr
  | node v l r _ s => node v l r (1 + max l.cachedHeight r.cachedHeight) s

def recomputeSubtreeSize : AVLTreeNode β → AVLTreeNode β
  | nullptr => nullptr
  | node v l r h _ => node v l r h (1 + l.cachedSize + r.cachedSize)

/-- The two calls that follow every change of a child. -/
def recompute (n : AVLTreeNode β) : AVLTreeNode β := n.recomputeHeight.recomputeSubtreeSize

def rightRotate : AVLTreeNode β → AVLTreeNode β
  | node v₁ (node v₂ l₂ t h₂ s₂) r₁ h₁ s₁ =>
    let n₁ := (node v₁ t r₁ h₁ s₁).recompute
    (node v₂ l₂ n₁ h₂ s₂).recompute
  | n => n

def leftRotate : AVLTreeNode β → AVLTreeNode β
  | node v₁ l₁ (node v₂ t r₂ h₂ s₂) h₁ s₁ =>
    let n₁ := (node v₁ l₁ t h₁ s₁).recompute
    (node v₂ n₁ r₂ h₂ s₂).recompute
  | n => n

def rebalance : AVLTreeNode β → AVLTreeNode β
  | nullptr => nullptr
  | node v l r h s =>
    let balance := (node v l r h s).getBalance
    if balance > 1 ∧ l.isNull = false ∧ l.getBalance ≥ 0 then rightRotate (node v l r h s)
    else if balance < -1 ∧ r.isNull = false ∧ r.getBalance ≤ 0 then leftRotate (node v l r h s)
    else if balance > 1 ∧ l.isNull = false ∧ l.getBalance < 0 then
      rightRotate (node v l.leftRotate r h s)
    else if balance < -1 ∧ r.isNull = false ∧ r.getBalance > 0 then
      leftRotate (node v l r.rightRotate h s)
    else node v l r h s

/-- The leftmost value: the loop that looks for the in-order successor. -/
def leftmost : AVLTreeNode β → Option β
  | nullptr => none
  | node v l _ _ _ => if l.isNull then some v else l.leftmost

variable [LT β] [DecidableLT β]

def insert : AVLTreeNode β → β → AVLTreeNode β
  | nullptr, value => node value nullptr nullptr 0 1
  | node v l r h s, value =>
    if value < v then (node v (l.insert value) r h s).recompute.rebalance
    else if value > v then (node v l (r.insert value) h s).recompute.rebalance
    else node v l r h s

def erase : AVLTreeNode β → β → AVLTreeNode β
  | nullptr, _ => nullptr
  | node v l r h s, value =>
    if value < v then (node v (l.erase value) r h s).recompute.rebalance
    else if value > v then (node v l (r.erase value) h s).recompute.rebalance
    else if l.isNull && r.isNull then nullptr
    else if l.isNull then r.recompute.rebalance
    else if r.isNull then l.recompute.rebalance
    else
      match r.leftmost with
      | none => node v l r h s -- not taken: the right child is not null here
      | some successor => (node successor l (r.erase successor) h s).recompute.rebalance

def rank : AVLTreeNode β → β → ℕ
  | nullptr, _ => 0
  | node v l r _ _, value =>
    if value < v then l.rank value
    else if value > v then l.cachedSize + 1 + r.rank value
    else l.cachedSize

end AVLTreeNode

structure AVLTree (β : Type) where
  root : AVLTreeNode β
deriving DecidableEq, Repr

namespace AVLTree
variable {β : Type} [LT β] [DecidableLT β]

def empty : AVLTree β := ⟨.nullptr⟩

/-- Whether an insertion happened is read off the cached size of the root. -/
def insert (t : AVLTree β) (value : β) : Bool × AVLTree β :=
  let sizeBefore := t.root.cachedSize
  let root := t.root.insert value
  (decide (root.cachedSize > sizeBefore), ⟨root⟩)

def erase (t : AVLTree β) (value : β) : Bool × AVLTree β :=
  let sizeBefore := t.root.cachedSize
  let root := t.root.erase value
  (decide (root.cachedSize < sizeBefore), ⟨root⟩)

def rank (t : AVLTree β) (value : β) : ℕ := t.root.rank value

end AVLTree
end Chrono
