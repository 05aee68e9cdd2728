import Chrono.SortedSets.Agreement
import Chrono.SortedSets.Balance

/-!
# The AVL tree is a set

Over every run of insertions and deletions the tree keeps its representation: sorted
in order, sizes and heights cached, balanced. Its values are those of a set, and the
returned flags say whether the set has changed.
-/
namespace Chrono
open Library Library.SortedList

inductive TreeOp (β : Type) where
  | insert (value : β)
  | erase (value : β)

namespace TreeOp
variable {β : Type}

def value : TreeOp β → β
  | insert value => value
  | erase value => value

def run [LT β] [DecidableLT β] : TreeOp β → AVLTree β → Bool × AVLTree β
  | insert value, t => t.insert value
  | erase value, t => t.erase value

end TreeOp

def treeMachine (β : Type) [LT β] [DecidableLT β] : Machine (AVLTree β) (TreeOp β) Bool where
  step t op := op.run t

variable {β : Type} [LT β]

/-- At every node: smaller values on the left and larger ones on the right, the true
height and the true number of nodes, children that differ by at most one in height. -/
def AVLTreeNode.RepOk : AVLTreeNode β → Prop
  | nullptr => True
  | node v l r h s =>
    (∀ w ∈ l.toList, w < v) ∧ (∀ w ∈ r.toList, v < w) ∧ h = (node v l r h s).height ∧
      s = (node v l r h s).toList.length ∧ (l.height - r.height).natAbs ≤ 1 ∧ l.RepOk ∧ r.RepOk

namespace AVLTree

def toList (t : AVLTree β) : List β := t.root.toList

/-- The invariant of the tree, on values in `S`. -/
structure Valid (S : β → Prop) (t : AVLTree β) : Prop where
  sorted : SortedIn S t.toList
  sizes : t.root.SizeOk
  balanced : t.root.Balanced

theorem valid_empty (S : β → Prop) : (⟨.nullptr⟩ : AVLTree β).Valid S :=
  ⟨sortedIn_nil, trivial, trivial⟩

section
variable [DecidableLT β] {S : β → Prop} (hS : StrictTotalOn S) {t : AVLTree β} {v : β}

namespace Valid
include hS

theorem toList_insert (ht : t.Valid S) (hv : S v) : (t.insert v).2.toList = put v t.toList :=
  AVLTreeNode.toList_insert hS ht.sorted hv

theorem toList_erase (ht : t.Valid S) (hv : S v) : (t.erase v).2.toList = drop v t.toList :=
  AVLTreeNode.toList_erase hS ht.sorted hv

theorem insert (ht : t.Valid S) (hv : S v) : (t.insert v).2.Valid S where
  sorted := by
    rw [ht.toList_insert hS hv]
    exact ht.sorted.put hS hv
  sizes := AVLTreeNode.sizeOk_insert ht.sizes v
  balanced := (AVLTreeNode.balanced_insert ht.balanced v).1

theorem erase (ht : t.Valid S) (hv : S v) : (t.erase v).2.Valid S where
  sorted := by
    rw [ht.toList_erase hS hv]
    exact ht.sorted.drop hS hv
  sizes := AVLTreeNode.sizeOk_erase ht.sizes v
  balanced := (AVLTreeNode.balanced_erase ht.balanced v).1

theorem step (ht : t.Valid S) {op : TreeOp β} (hop : S op.value) : (op.run t).2.Valid S := by
  cases op with
  | insert v => exact ht.insert hS hop
  | erase v => exact ht.erase hS hop

theorem run {ops : List (TreeOp β)} (hops : ∀ op ∈ ops, S op.value) :
    ((treeMachine β).after empty ops).Valid S := by
  have hadmits : (treeMachine β).Admits (fun _ op => S op.value) empty ops :=
    (treeMachine β).admits_of_forall _ hops
  exact (treeMachine β).invariant (fun t op ht hop => ht.step hS hop) (valid_empty S) hadmits

end Valid

/-- The flags compare the numbers of values before and after. -/
theorem insert_flag (ht : t.Valid S) :
    (t.insert v).1 = decide ((t.insert v).2.toList.length > t.toList.length) := by
  have hsizes := AVLTreeNode.sizeOk_insert ht.sizes v
  rw [insert, AVLTreeNode.cachedSize_eq ht.sizes, AVLTreeNode.cachedSize_eq hsizes]
  rfl

theorem erase_flag (ht : t.Valid S) :
    (t.erase v).1 = decide ((t.erase v).2.toList.length < t.toList.length) := by
  have hsizes := AVLTreeNode.sizeOk_erase ht.sizes v
  rw [erase, AVLTreeNode.cachedSize_eq ht.sizes, AVLTreeNode.cachedSize_eq hsizes]
  rfl

include hS

theorem insert_absent (ht : t.Valid S) (hv : S v) (hmem : v ∉ t.toList) :
    (t.insert v).2.toList.Perm (v :: t.toList) ∧ (t.insert v).1 = true := by
  have hperm : (t.insert v).2.toList.Perm (v :: t.toList) := by
    rw [ht.toList_insert hS hv]
    exact perm_put hS ht.sorted hv hmem
  refine ⟨hperm, ?_⟩
  rw [insert_flag ht, hperm.length_eq, List.length_cons, decide_eq_true_eq]
  omega

theorem insert_present (ht : t.Valid S) (hv : S v) (hmem : v ∈ t.toList) :
    (t.insert v).2.toList = t.toList ∧ (t.insert v).1 = false := by
  have hsame : (t.insert v).2.toList = t.toList := by
    rw [ht.toList_insert hS hv]
    exact put_of_mem hS ht.sorted hmem
  refine ⟨hsame, ?_⟩
  rw [insert_flag ht, hsame, decide_eq_false_iff_not]
  omega

variable [DecidableEq β]

theorem toList_erase_eq (ht : t.Valid S) (hv : S v) : (t.erase v).2.toList = t.toList.erase v := by
  rw [ht.toList_erase hS hv]
  exact drop_eq_erase hS ht.sorted hv

theorem erase_flag_iff (ht : t.Valid S) (hv : S v) : (t.erase v).1 = true ↔ v ∈ t.toList := by
  rw [erase_flag ht, toList_erase_eq hS ht hv, decide_eq_true_eq]
  by_cases hmem : v ∈ t.toList
  · have hpos := List.length_pos_of_mem hmem
    rw [List.length_erase_of_mem hmem]
    exact iff_of_true (by omega) hmem
  · rw [List.erase_of_not_mem hmem]
    exact iff_of_false (by omega) hmem

end

end AVLTree

theorem AVLTreeNode.repOk {S : β → Prop} {t : AVLTreeNode β} (hsorted : SortedIn S t.toList)
    (hsizes : t.SizeOk) (hbalanced : t.Balanced) : t.RepOk := by
  induction t with
  | nullptr => trivial
  | node v l r h s ihl ihr =>
    obtain ⟨hl, hr, -, hlt, hgt, -⟩ := sortedIn_append_cons.mp hsorted
    obtain ⟨hs, hsl, hsr⟩ := hsizes
    obtain ⟨hh, h₁, h₂, hbl, hbr⟩ := hbalanced
    exact ⟨hlt, hgt, hh, hs, by omega, ihl hl hsl hbl, ihr hr hsr hbr⟩

section
variable [DecidableLT β] {S : β → Prop} (hS : StrictTotalOn S) {ops : List (TreeOp β)}
  (hops : ∀ op ∈ ops, S op.value)
include hS hops

/-- After every run of insertions and deletions each node is as it should be. -/
theorem tree_representation : ((treeMachine β).after AVLTree.empty ops).root.RepOk := by
  have hvalid := AVLTree.Valid.run hS hops
  exact AVLTreeNode.repOk hvalid.sorted hvalid.sizes hvalid.balanced

end

/-- Insertions with single and double rotations, and the deletion of an inner node. -/
def sampleTreeOps : List (TreeOp (AVLTreeNodeValue ℤ)) :=
  [.insert ⟨lit "a", .num 3⟩, .insert ⟨lit "b", .num 1⟩, .insert ⟨lit "c", .num 2⟩,
    .insert ⟨lit "d", .num 2⟩, .insert ⟨lit "e", .num 5⟩, .insert ⟨lit "f", .num 4⟩,
    .erase ⟨lit "c", .num 2⟩]

theorem sampleTreeOps_numeric : ∀ op ∈ sampleTreeOps, Numeric op.value := by
  simp [sampleTreeOps, TreeOp.value, Numeric]

theorem tree_representation_witness :
    ((treeMachine (AVLTreeNodeValue ℤ)).after AVLTree.empty sampleTreeOps).root.RepOk :=
  tree_representation strictTotalOn_numeric sampleTreeOps_numeric

section
variable [DecidableLT β] {S : β → Prop} (hS : StrictTotalOn S) {ops : List (TreeOp β)}
  (hops : ∀ op ∈ ops, S op.value)
include hS hops

/-- After every run, an insertion adds a missing value to the sorted sequence, a deletion
takes a present one out of it, and the flags say whether they did. -/
theorem tree_set [DecidableEq β] {t : AVLTree β} (ht : (treeMachine β).after AVLTree.empty ops = t)
    {v : β} (hv : S v) :
    t.toList.Pairwise (· < ·) ∧
      ((t.insert v).2.toList.Pairwise (· < ·) ∧
        (v ∉ t.toList → (t.insert v).2.toList.Perm (v :: t.toList)) ∧
        (v ∈ t.toList → (t.insert v).2.toList = t.toList) ∧
        ((t.insert v).1 = true ↔ v ∉ t.toList)) ∧
      (t.erase v).2.toList = t.toList.erase v ∧
        ((t.erase v).1 = true ↔ v ∈ t.toList) ∧
        ((t.erase v).1 = false → (t.erase v).2.toList = t.toList) := by
  have hvalid : t.Valid S := ht ▸ AVLTree.Valid.run hS hops
  have hflag : (t.insert v).1 = true ↔ v ∉ t.toList := by
    by_cases hmem : v ∈ t.toList
    · simp [(AVLTree.insert_present hS hvalid hv hmem).2, hmem]
    · simp [(AVLTree.insert_absent hS hvalid hv hmem).2, hmem]
  have herase := AVLTree.erase_flag_iff hS hvalid hv
  refine ⟨hvalid.sorted.pairwise, ⟨(hvalid.insert hS hv).sorted.pairwise, ?_, ?_, hflag⟩,
    AVLTree.toList_erase_eq hS hvalid hv, herase, ?_⟩
  · intro hmem
    exact (AVLTree.insert_absent hS hvalid hv hmem).1
  · intro hmem
    exact (AVLTree.insert_present hS hvalid hv hmem).1
  · intro hfalse
    have hmem : v ∉ t.toList := fun hmem => by simp [herase.mpr hmem] at hfalse
    rw [AVLTree.toList_erase_eq hS hvalid hv, List.erase_of_not_mem hmem]

end

/-- A value that is there and one that is not. -/
theorem tree_set_witness :
    let t := (treeMachine (AVLTreeNodeValue ℤ)).after AVLTree.empty sampleTreeOps
    (t.erase ⟨lit "d", .num 2⟩).1 = true ∧
      (t.erase ⟨lit "d", .num 2⟩).2.toList = t.toList.erase ⟨lit "d", .num 2⟩ ∧
      (t.insert ⟨lit "c", .num 2⟩).1 = true ∧
      (t.insert ⟨lit "c", .num 2⟩).2.toList.Perm (⟨lit "c", .num 2⟩ :: t.toList) := by
  intro t
  have hd :=
    tree_set strictTotalOn_numeric sampleTreeOps_numeric (t := t) rfl (numeric_num (lit "d") 2)
  have hc :=
    tree_set strictTotalOn_numeric sampleTreeOps_numeric (t := t) rfl (numeric_num (lit "c") 2)
  have hmem : (⟨lit "d", .num 2⟩ : AVLTreeNodeValue ℤ) ∈ t.toList := by decide
  have hnot : (⟨lit "c", .num 2⟩ : AVLTreeNodeValue ℤ) ∉ t.toList := by decide
  exact ⟨hd.2.2.2.1.mpr hmem, hd.2.2.1, hc.2.1.2.2.2.mpr hnot, hc.2.1.2.1 hnot⟩

end Chrono
