import Chrono.KvStore.Store
import Chrono.Library.Footprint
import Chrono.SortedSets.Tree

/-!
# The AVL tree at its addresses

The nodes of a tree are cells of a heap, linked by pointers. Every operation is that of
the source, assignment by assignment: a rotation redirects two pointers, a deletion
copies the value of the successor and deletes the successor's node, and a value is
passed by reference, so that it can lie in a node that is about to be deleted. Null
dereferences, uses after `delete` and second deletions are undefined.
-/
namespace Chrono
open Library

structure AVLTreeCell (β : Type) where
  value : β
  left : Option Addr
  right : Option Addr
  height : ℤ
  subtreeSize : ℕ
deriving DecidableEq, Repr

def AVLTreeCell.create {β : Type} (value : β) : AVLTreeCell β := ⟨value, none, none, 0, 1⟩

/-- The target of a `const AVLTreeNodeValue&`: a temporary, or the value of a node. -/
inductive ValueRef (β : Type) where
  | temporary (value : β)
  | field (node : Addr)
deriving DecidableEq, Repr

abbrev TreeHeap (β : Type) := Heap (AVLTreeCell β)

namespace TreeHeap
variable {β : Type} (h : TreeHeap β)

def deref : ValueRef β → Defined β
  | .temporary value => some value
  | .field a => do some (← h.cells a).value

@[simp] theorem deref_temporary (value : β) : h.deref (.temporary value) = some value := rfl

/-- `(p == nullptr) ? -1 : p->height` -/
def heightAt : Option Addr → Defined ℤ
  | none => some (-1)
  | some a => do some (← h.cells a).height

/-- `(p == nullptr) ? 0 : p->subtree_size` -/
def sizeAt : Option Addr → Defined ℕ
  | none => some 0
  | some a => do some (← h.cells a).subtreeSize

def getBalance (a : Addr) : Defined ℤ := do
  let n ← h.cells a
  let left ← h.heightAt n.left
  let right ← h.heightAt n.right
  some (left - right)

def recomputeHeight (a : Addr) : Defined (TreeHeap β) := do
  let n ← h.cells a
  let left ← h.heightAt n.left
  let right ← h.heightAt n.right
  h.modify a fun n => { n with height := 1 + max left right }

def recomputeSubtreeSize (a : Addr) : Defined (TreeHeap β) := do
  let n ← h.cells a
  let left ← h.sizeAt n.left
  let right ← h.sizeAt n.right
  h.modify a fun n => { n with subtreeSize := 1 + left + right }

def setLeft (a : Addr) (p : Option Addr) : Defined (TreeHeap β) :=
  h.modify a fun n => { n with left := p }

def setRight (a : Addr) (p : Option Addr) : Defined (TreeHeap β) :=
  h.modify a fun n => { n with right := p }

def setValue (a : Addr) (value : β) : Defined (TreeHeap β) :=
  h.modify a fun n => { n with value := value }

def rightRotate : Option Addr → Defined (Option Addr × TreeHeap β)
  | none => some (none, h)
  | some n₁ => do
    match (← h.cells n₁).left with
    | none => some (some n₁, h)
    | some n₂ => do
      let t := (← h.cells n₂).right
      let h ← h.setRight n₂ (some n₁)
      let h ← h.setLeft n₁ t
      let h ← h.recomputeHeight n₁
      let h ← h.recomputeHeight n₂
      let h ← h.recomputeSubtreeSize n₁
      let h ← h.recomputeSubtreeSize n₂
      some (some n₂, h)

def leftRotate : Option Addr → Defined (Option Addr × TreeHeap β)
  | none => some (none, h)
  | some n₁ => do
    match (← h.cells n₁).right with
    | none => some (some n₁, h)
    | some n₂ => do
      let t := (← h.cells n₂).left
      let h ← h.setLeft n₂ (some n₁)
      let h ← h.setRight n₁ t
      let h ← h.recomputeHeight n₁
      let h ← h.recomputeHeight n₂
      let h ← h.recomputeSubtreeSize n₁
      let h ← h.recomputeSubtreeSize n₂
      some (some n₂, h)

/-- `p != nullptr && test(p->get_balance())`, the right side of each `&&` of `_rebalance`. -/
def balanceIs (test : ℤ → Bool) : Option Addr → Defined Bool
  | none => some false
  | some a => do some (test (← h.getBalance a))

/-- `AVLTree::_rebalance`: each condition is read only when those before it have failed. -/
def rebalance : Option Addr → Defined (Option Addr × TreeHeap β)
  | none => some (none, h)
  | some root => do
    let n ← h.cells root
    let balance ← h.getBalance root
    if ← (if balance > 1 then h.balanceIs (· ≥ 0) n.left else some false) then h.rightRotate (some root)
    else if ← (if balance < -1 then h.balanceIs (· ≤ 0) n.right else some false) then h.leftRotate (some root)
    else if ← (if balance > 1 then h.balanceIs (· < 0) n.left else some false) then do
      let (left, h) ← h.leftRotate n.left
      let h ← h.setLeft root left
      h.rightRotate (some root)
    else if ← (if balance < -1 then h.balanceIs (· > 0) n.right else some false) then do
      let (right, h) ← h.rightRotate n.right
      let h ← h.setRight root right
      h.leftRotate (some root)
    else some (some root, h)

/-- The three statements that follow a change of a child. -/
def settle (root : Addr) : Defined (Option Addr × TreeHeap β) := do
  let h ← h.recomputeHeight root
  let h ← h.recomputeSubtreeSize root
  h.rebalance (some root)

/-- The loop `while(successor->left != nullptr)`. -/
def successorFrom (h : TreeHeap β) : ℕ → Addr → Defined Addr
  | 0, _ => none
  | fuel + 1, successor => do
    match (← h.cells successor).left with
    | none => some successor
    | some left => h.successorFrom fuel left

def destroy (h : TreeHeap β) : ℕ → Option Addr → Defined (TreeHeap β)
  | 0, _ => none
  | _ + 1, none => some h
  | fuel + 1, some node => do
    let h ← h.destroy fuel (← h.cells node).left
    let h ← h.destroy fuel (← h.cells node).right
    h.free node

variable [LT β] [DecidableLT β]

/-- `AVLTree::_insert`; more nested calls than `fuel` mean that the recursion has no end. -/
def insert (h : TreeHeap β) (value : ValueRef β) :
    ℕ → Option Addr → Defined (Option Addr × TreeHeap β)
  | 0, _ => none
  | _ + 1, none => do
    let (a, h) := h.allocate (.create (← h.deref value))
    some (some a, h)
  | fuel + 1, some root => do
    if (← h.deref value) < (← h.cells root).value then do
      let (left, h) ← h.insert value fuel (← h.cells root).left
      let h ← h.setLeft root left
      h.settle root
    else if (← h.deref value) > (← h.cells root).value then do
      let (right, h) ← h.insert value fuel (← h.cells root).right
      let h ← h.setRight root right
      h.settle root
    else some (some root, h)

def erase (h : TreeHeap β) (value : ValueRef β) : ℕ → Option Addr → Defined (Option Addr × TreeHeap β)
  | 0, _ => none
  | _ + 1, none => some (none, h)
  | fuel + 1, some root => do
    if (← h.deref value) < (← h.cells root).value then do
      let (left, h) ← h.erase value fuel (← h.cells root).left
      let h ← h.setLeft root left
      h.settle root
    else if (← h.deref value) > (← h.cells root).value then do
      let (right, h) ← h.erase value fuel (← h.cells root).right
      let h ← h.setRight root right
      h.settle root
    else
      match (← h.cells root).left, (← h.cells root).right with
      | none, none => do some (none, ← h.free root)
      | none, some result => do settle (← h.free root) result
      | some result, none => do settle (← h.free root) result
      | some _, some right => do
        let successor ← h.successorFrom fuel right
        let h ← h.setValue root (← h.cells successor).value
        -- the reference points into the node that the call is going to delete
        let (right, h) ← h.erase (.field successor) fuel (← h.cells root).right
        let h ← h.setRight root right
        h.settle root

def rank (h : TreeHeap β) (value : ValueRef β) : ℕ → Option Addr → Defined ℕ
  | 0, _ => none
  | _ + 1, none => some 0
  | fuel + 1, some node => do
    if (← h.deref value) < (← h.cells node).value then h.rank value fuel (← h.cells node).left
    else if (← h.deref value) > (← h.cells node).value then do
      some ((← h.sizeAt (← h.cells node).left) + 1 + (← h.rank value fuel (← h.cells node).right))
    else h.sizeAt (← h.cells node).left

end TreeHeap
end Chrono
