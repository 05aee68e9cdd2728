import Chrono.Library.Machine
import Chrono.SortedSets.HeapTree

/-!
# Many trees in one heap

Every tree is an object with a pointer to its root; the nodes of all of them lie in one
heap. Whatever the calls and their values, the trees answer as trees that are values do,
nothing undefined happens, and each live node belongs to exactly one tree.
-/
namespace Chrono
open Library

inductive TreeCall (ι β : Type) where
  | insert (tree : ι) (value : β)
  | erase (tree : ι) (value : β)
  | rank (tree : ι) (value : β)
  | destroy (tree : ι)

def TreeCall.tree {ι β : Type} : TreeCall ι β → ι
  | insert i _ => i
  | erase i _ => i
  | rank i _ => i
  | destroy i => i

inductive TreeAnswer where
  | flag (b : Bool)
  | rank (n : ℕ)
  | gone
deriving DecidableEq, Repr

/-- The roots of the `AVLTree` objects, and the heap with their nodes. -/
structure TreeArena (ι β : Type) where
  roots : ι → Option Addr
  heap : TreeHeap β

namespace TreeArena
variable {ι β : Type}

def empty : TreeArena ι β := ⟨fun _ => none, Heap.empty⟩

/-- There are no more nodes than addresses that were ever handed out. -/
def fuel (s : TreeArena ι β) : ℕ := s.heap.next + 1

variable [DecidableEq ι]

/-- `AVLTree::~AVLTree`; the name is free for another tree, which is empty. -/
def destroy (s : TreeArena ι β) (i : ι) : Defined (TreeArena ι β) := do
  let heap ← s.heap.destroy s.fuel (s.roots i)
  some ⟨Function.update s.roots i none, heap⟩

variable [LT β] [DecidableLT β]

def insert (s : TreeArena ι β) (i : ι) (value : β) : Defined (Bool × TreeArena ι β) := do
  let sizeBefore ← s.heap.sizeAt (s.roots i)
  let (root, heap) ← s.heap.insert (.temporary value) s.fuel (s.roots i)
  let sizeAfter ← heap.sizeAt root
  some (decide (sizeAfter > sizeBefore), ⟨Function.update s.roots i root, heap⟩)

def erase (s : TreeArena ι β) (i : ι) (value : β) : Defined (Bool × TreeArena ι β) := do
  let sizeBefore ← s.heap.sizeAt (s.roots i)
  let (root, heap) ← s.heap.erase (.temporary value) s.fuel (s.roots i)
  let sizeAfter ← heap.sizeAt root
  some (decide (sizeAfter < sizeBefore), ⟨Function.update s.roots i root, heap⟩)

def rank (s : TreeArena ι β) (i : ι) (value : β) : Defined ℕ :=
  s.heap.rank (.temporary value) s.fuel (s.roots i)

end TreeArena

namespace TreeCall
variable {ι β : Type} [DecidableEq ι] [LT β] [DecidableLT β]

def run : TreeCall ι β → TreeArena ι β → Defined (TreeAnswer × TreeArena ι β)
  | insert i value, s => do
    let (b, s) ← s.insert i value
    some (.flag b, s)
  | erase i value, s => do
    let (b, s) ← s.erase i value
    some (.flag b, s)
  | rank i value, s => do some (.rank (← s.rank i value), s)
  | destroy i, s => do some (.gone, ← s.destroy i)

/-- The same call on trees that are values. -/
def onTrees : TreeCall ι β → (ι → AVLTree β) → TreeAnswer × (ι → AVLTree β)
  | insert i value, trees =>
    (.flag ((trees i).insert value).1, Function.update trees i ((trees i).insert value).2)
  | erase i value, trees =>
    (.flag ((trees i).erase value).1, Function.update trees i ((trees i).erase value).2)
  | rank i value, trees => (.rank ((trees i).rank value), trees)
  | destroy i, trees => (.gone, Function.update trees i AVLTree.empty)

end TreeCall

section
variable (ι β : Type) [DecidableEq ι] [LT β] [DecidableLT β]

def arenaMachine : Machine (TreeArena ι β) (TreeCall ι β) (Defined TreeAnswer) where
  step s call := match call.run s with
    | some (answer, s) => (some answer, s)
    | none => (none, s)

def treesMachine : Machine (ι → AVLTree β) (TreeCall ι β) TreeAnswer where
  step trees call := call.onTrees trees

end

/-- Following pointers from `p`. -/
inductive Reaches {β : Type} (h : TreeHeap β) : Option Addr → Addr → Prop where
  | here (a : Addr) : Reaches h (some a) a
  | left {a b : Addr} {n : AVLTreeCell β} (hcell : h.cells a = some n) (hleft : Reaches h n.left b) :
    Reaches h (some a) b
  | right {a b : Addr} {n : AVLTreeCell β} (hcell : h.cells a = some n) (hright : Reaches h n.right b) :
    Reaches h (some a) b

theorem AVLTreeNode.LaidOut.reaches_iff {β : Type} {h : TreeHeap β} {t : AVLTreeNode (Addr × β)}
    (ht : t.LaidOut h) (b : Addr) : Reaches h t.pointer b ↔ b ∈ t.addrs := by
  induction t with
  | nullptr =>
    constructor
    · intro hreach
      cases hreach
    · intro hb
      simp at hb
  | node v l r k s ihl ihr =>
    obtain ⟨hcell, hl, hr⟩ := ht
    rw [addrs_node, List.mem_append, List.mem_cons, ← ihl hl, ← ihr hr, pointer_node]
    constructor
    · intro hreach
      cases hreach with
      | here => exact .inr (.inl rfl)
      | left hcell' hleft =>
        obtain rfl := Option.some.inj (hcell.symm.trans hcell')
        exact .inl hleft
      | right hcell' hright =>
        obtain rfl := Option.some.inj (hcell.symm.trans hcell')
        exact .inr (.inr hright)
    · rintro (hb | rfl | hb)
      · exact .left hcell hb
      · exact .here _
      · exact .right hcell hb

/-- The arena holds the trees, each in nodes of its own, and nothing else is alive. -/
structure TreeArena.Keeps {ι β : Type} (s : TreeArena ι β) (trees : ι → AVLTree β)
    (layouts : ι → AVLTreeNode (Addr × β)) : Prop where
  held : ∀ i, (layouts i).Held s.heap
  root : ∀ i, s.roots i = (layouts i).pointer
  values : ∀ i, (layouts i).values = (trees i).root
  ledger : Heap.Ledger s.heap fun i => (layouts i).footprint

namespace TreeArena
variable {ι β : Type} {s s' : TreeArena ι β} {trees : ι → AVLTree β}
  {layouts : ι → AVLTreeNode (Addr × β)}

theorem keeps_empty : (empty : TreeArena ι β).Keeps (fun _ => AVLTree.empty) fun _ => .nullptr where
  held _ := ⟨trivial, List.nodup_nil⟩
  root _ := rfl
  values _ := rfl
  ledger := Heap.Ledger.empty

namespace Keeps

theorem cachedSize (hs : s.Keeps trees layouts) (i : ι) :
    s.heap.sizeAt (s.roots i) = some (trees i).root.cachedSize := by
  rw [hs.root, (hs.held i).laidOut.sizeAt, ← hs.values, AVLTreeNode.cachedSize_values]

theorem length_lt_fuel (hs : s.Keeps trees layouts) (i : ι) : (layouts i).toList.length < s.fuel := by
  have hlt : (layouts i).footprint ⊆ Finset.range s.heap.next := by
    intro a ha
    obtain ⟨c, hc⟩ := Option.isSome_iff_exists.mp ((hs.held i).live ha)
    exact Finset.mem_range.mpr (Heap.lt_next hc)
  have hcard := Finset.card_le_card hlt
  rw [AVLTreeNode.footprint, List.toFinset_card_of_nodup (hs.held i).nodup, Finset.card_range,
    AVLTreeNode.addrs, List.length_map] at hcard
  exact Nat.lt_succ_of_le hcard

/-- When one tree trades its nodes, the arena holds all trees again. -/
theorem trade [DecidableEq ι] (hs : s.Keeps trees layouts) {i : ι} {t' : AVLTreeNode (Addr × β)}
    {heap : TreeHeap β} (ht' : t'.Held heap)
    (htrade : Heap.Trades s.heap heap (layouts i).footprint t'.footprint) {tree : AVLTree β}
    (hvalues : t'.values = tree.root) :
    Keeps ⟨Function.update s.roots i t'.pointer, heap⟩ (Function.update trees i tree)
      (Function.update layouts i t') where
  held j := by
    by_cases hj : j = i
    · subst hj
      simpa using ht'
    · rw [Function.update_of_ne hj]
      refine ⟨(hs.held j).laidOut.frame htrade (hs.ledger.apart (Ne.symm hj)), (hs.held j).nodup⟩
  root j := by
    by_cases hj : j = i
    · subst hj
      simp
    · simp [hj, hs.root]
  values j := by
    by_cases hj : j = i
    · subst hj
      simpa using hvalues
    · simp [hj, hs.values]
  ledger := by
    have hledger := hs.ledger.trade htrade fun a ha => ht'.live ha
    convert hledger using 1
    funext j
    by_cases hj : j = i
    · subst hj
      simp
    · simp [hj]

section
variable [DecidableEq ι] [LT β] [DecidableLT β]

theorem insert (hs : s.Keeps trees layouts) (i : ι) (value : β) :
    ∃ s' layouts', s.insert i value = some (((trees i).insert value).1, s') ∧
      s'.Keeps (Function.update trees i ((trees i).insert value).2) layouts' := by
  obtain ⟨t', ⟨heap, hcall, ht', htrade⟩, hvalues⟩ :=
    (hs.held i).insert (TreeHeap.deref_temporary _ value) (hs.length_lt_fuel i)
  rw [hs.values i] at hvalues
  have hs' := hs.trade ht' htrade (hvalues.trans rfl : _ = ((trees i).insert value).2.root)
  refine ⟨_, _, ?_, hs'⟩
  have hbefore := hs.cachedSize i
  have hafter := hs'.cachedSize i
  simp only [Function.update_self] at hafter
  rw [hs.root] at hbefore
  simp only [TreeArena.insert, hs.root, hbefore, hcall, hafter, Option.bind_eq_bind, Option.bind_some]
  rfl

theorem erase (hs : s.Keeps trees layouts) (i : ι) (value : β) :
    ∃ s' layouts', s.erase i value = some (((trees i).erase value).1, s') ∧
      s'.Keeps (Function.update trees i ((trees i).erase value).2) layouts' := by
  obtain ⟨t', ⟨heap, hcall, ht', htrade⟩, hvalues⟩ :=
    (hs.held i).erase (TreeHeap.deref_temporary _ value) (hs.length_lt_fuel i)
  rw [hs.values i] at hvalues
  have hs' := hs.trade ht' htrade (hvalues.trans rfl : _ = ((trees i).erase value).2.root)
  refine ⟨_, _, ?_, hs'⟩
  have hbefore := hs.cachedSize i
  have hafter := hs'.cachedSize i
  simp only [Function.update_self] at hafter
  rw [hs.root] at hbefore
  simp only [TreeArena.erase, hs.root, hbefore, hcall, hafter, Option.bind_eq_bind, Option.bind_some]
  rfl

omit [DecidableEq ι] in
theorem rank (hs : s.Keeps trees layouts) (i : ι) (value : β) :
    s.rank i value = some ((trees i).rank value) := by
  rw [TreeArena.rank, hs.root,
    (hs.held i).laidOut.rank (TreeHeap.deref_temporary _ value) (hs.length_lt_fuel i), hs.values]
  rfl

omit [LT β] [DecidableLT β] in
theorem destroy (hs : s.Keeps trees layouts) (i : ι) :
    ∃ s' layouts', s.destroy i = some s' ∧ s'.roots = Function.update s.roots i none ∧
      s'.Keeps (Function.update trees i AVLTree.empty) layouts' := by
  obtain ⟨heap, hcall, htrade⟩ := (hs.held i).destroy (hs.length_lt_fuel i)
  have hempty : (AVLTreeNode.nullptr : AVLTreeNode (Addr × β)).Held heap := ⟨trivial, List.nodup_nil⟩
  have hs' := hs.trade hempty htrade (rfl : _ = AVLTree.empty.root)
  refine ⟨_, _, ?_, rfl, hs'⟩
  simp [TreeArena.destroy, hs.root, hcall]

theorem run (hs : s.Keeps trees layouts) (call : TreeCall ι β) :
    ∃ s' layouts', call.run s = some ((call.onTrees trees).1, s') ∧
      s'.Keeps (call.onTrees trees).2 layouts' := by
  cases call with
  | insert i value =>
    obtain ⟨s', layouts', hcall, hs'⟩ := hs.insert i value
    exact ⟨s', layouts', by simp [TreeCall.run, TreeCall.onTrees, hcall], hs'⟩
  | erase i value =>
    obtain ⟨s', layouts', hcall, hs'⟩ := hs.erase i value
    exact ⟨s', layouts', by simp [TreeCall.run, TreeCall.onTrees, hcall], hs'⟩
  | rank i value => exact ⟨s, layouts, by simp [TreeCall.run, TreeCall.onTrees, hs.rank], hs⟩
  | destroy i =>
    obtain ⟨s', layouts', hcall, -, hs'⟩ := hs.destroy i
    exact ⟨s', layouts', by simp [TreeCall.run, TreeCall.onTrees, hcall], hs'⟩

theorem step (hs : s.Keeps trees layouts) (call : TreeCall ι β) :
    ((arenaMachine ι β).step s call).1 = some ((treesMachine ι β).step trees call).1 ∧
      ∃ layouts', ((arenaMachine ι β).step s call).2.Keeps
        ((treesMachine ι β).step trees call).2 layouts' := by
  obtain ⟨s', layouts', hcall, hs'⟩ := hs.run call
  simp only [arenaMachine, treesMachine, hcall]
  exact ⟨trivial, layouts', hs'⟩

end

end Keeps

end TreeArena

section
variable {ι β : Type} [DecidableEq ι] [LT β] [DecidableLT β]

theorem TreeArena.keeps_after (calls : List (TreeCall ι β)) :
    ∃ layouts, ((arenaMachine ι β).after TreeArena.empty calls).Keeps
      ((treesMachine ι β).after (fun _ => AVLTree.empty) calls) layouts := by
  apply (arenaMachine ι β).after_related (R := fun s trees => ∃ layouts, s.Keeps trees layouts)
  · rintro s trees call ⟨layouts, hs⟩
    exact (hs.step call).2
  · exact ⟨_, TreeArena.keeps_empty⟩

/-- Over every run of calls on any number of trees the nodes in the heap answer as trees
that are values do. No call dereferences null or a deleted node, or deletes one twice. -/
theorem tree_pointers (calls : List (TreeCall ι β)) :
    (arenaMachine ι β).outputs TreeArena.empty calls =
      ((treesMachine ι β).outputs (fun _ => AVLTree.empty) calls).map some := by
  have houtputs := (arenaMachine ι β).outputs_map (N := treesMachine ι β) id some
    (R := fun s trees => ∃ layouts, s.Keeps trees layouts)
    (fun s trees call ⟨layouts, hs⟩ => hs.step call) ⟨_, TreeArena.keeps_empty⟩ calls
  rwa [List.map_id] at houtputs

/-- After every run the live nodes are those that the roots reach, and no two trees share one. -/
theorem tree_ledger (calls : List (TreeCall ι β)) :
    let s := (arenaMachine ι β).after TreeArena.empty calls
    (∀ a, (s.heap.cells a).isSome ↔ ∃ i, Reaches s.heap (s.roots i) a) ∧
      ∀ i j a, Reaches s.heap (s.roots i) a → Reaches s.heap (s.roots j) a → i = j := by
  intro s
  obtain ⟨layouts, hs⟩ := TreeArena.keeps_after calls
  have hreach : ∀ i a, Reaches s.heap (s.roots i) a ↔ a ∈ (layouts i).footprint := by
    intro i a
    rw [hs.root, (hs.held i).laidOut.reaches_iff, AVLTreeNode.mem_footprint]
  simp only [hreach]
  refine ⟨hs.ledger.live, fun i j a hi hj => ?_⟩
  by_contra hij
  exact Finset.disjoint_left.mp (hs.ledger.apart hij) hi hj

end
end Chrono
