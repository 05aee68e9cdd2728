import Chrono.SortedSets.Children

/-!
# Insertion and deletion in the heap

On a tree that the heap holds, the recursive functions of the source are defined and
yield a tree with the values of the insertion, the deletion or the rank on trees. No
order of the values is needed. A deletion frees one node, and the value that it was given
by reference is not read once that node is gone.
-/
namespace Chrono
open Library

namespace AVLTreeNode
variable {β : Type} {h h' : TreeHeap β} {t l r : AVLTreeNode (Addr × β)} {a : Addr} {x v : β}
  {k : ℤ} {s : ℕ}
  {fuel : ℕ} {ref : ValueRef β}

@[simp] theorem values_nullptr : (nullptr : AVLTreeNode (Addr × β)).values = nullptr := rfl

@[simp] theorem values_node (v : Addr × β) (l r : AVLTreeNode (Addr × β)) (k : ℤ) (s : ℕ) :
    (node v l r k s).values = node v.2 l.values r.values k s := rfl

@[simp] theorem cachedSize_values : t.values.cachedSize = t.cachedSize := cachedSize_map _ t

@[simp] theorem isNull_values : t.values.isNull = t.isNull := isNull_map _ t

theorem values_settled (v : Addr × β) (l r : AVLTreeNode (Addr × β)) (k : ℤ) (s : ℕ) :
    (node v l r k s).recompute.rebalance.values =
      (node v.2 l.values r.values k s).recompute.rebalance := by
  rw [values, map_rebalance, map_recompute]
  rfl

theorem Held.allocate (h : TreeHeap β) (v : β) :
    Turns h nullptr (some (some (h.allocate (.create v)).1, (h.allocate (.create v)).2))
      (node (h.next, v) nullptr nullptr 0 1) := by
  refine ⟨_, rfl, ⟨⟨?_, trivial, trivial⟩, by simp⟩, ?_⟩
  · exact Function.update_self _ _ _
  · exact Heap.Trades.allocate h _

/-- `delete` on the root of a tree with at most one child, which is all that is left. -/
theorem Held.free (ht : (node (a, x) l r k s).Held h) {u : AVLTreeNode (Addr × β)} (hu : u.Held h)
    (hfoot : (node (a, x) l r k s).footprint = {a} ∪ u.footprint) (hau : a ∉ u.footprint) :
    ∃ h', h.free a = some h' ∧ u.Held h' ∧
      Heap.Trades h h' (node (a, x) l r k s).footprint u.footprint := by
  obtain ⟨h', hfree, hcells, hnext⟩ := Heap.put_eq ht.laidOut.1 none
  refine ⟨h', hfree, ⟨?_, hu.nodup⟩, ?_⟩
  · exact hu.laidOut.update hcells fun hmem => hau (mem_footprint.mpr hmem)
  · have htrade := (Heap.Trades.free hcells hnext).union u.footprint
    rwa [← hfoot, Finset.empty_union] at htrade

/-- The loop finds the node of the leftmost value. -/
theorem LaidOut.successorFrom (ht : (node (a, x) l r k s).LaidOut h)
    (hfuel : (node (a, x) l r k s).toList.length ≤ fuel) :
    ∃ b y, (node (a, x) l r k s).leftmost = some (b, y) ∧ h.successorFrom fuel a = some b ∧
      h.deref (.field b) = some y ∧ b ∈ (node (a, x) l r k s).addrs := by
  rw [toList_node, List.length_append, List.length_cons] at hfuel
  obtain ⟨fuel, rfl⟩ : ∃ n, fuel = n + 1 := ⟨fuel - 1, by omega⟩
  obtain ⟨hcell, hl, -⟩ := ht
  induction l generalizing a x r k s fuel with
  | nullptr =>
    exact ⟨a, x,
      by simp [leftmost, isNull], by simp [TreeHeap.successorFrom, hcell], by simp [TreeHeap.deref, hcell], by simp⟩
  | node w l' r' k' s' ihl =>
    obtain ⟨a', x'⟩ := w
    rw [toList_node, List.length_append, List.length_cons] at hfuel
    obtain ⟨fuel, rfl⟩ : ∃ n, fuel = n + 1 := ⟨fuel - 1, by omega⟩
    obtain ⟨hcell', hl', hr'⟩ := hl
    obtain ⟨b, y, hleftmost, hloop, hderef, hmem⟩ := ihl fuel (by omega) hcell' hl'
    refine ⟨b, y, ?_, ?_, hderef, ?_⟩
    · rw [leftmost]
      exact hleftmost
    · rw [TreeHeap.successorFrom, hcell]
      exact hloop
    · rw [addrs_node]
      exact List.mem_append_left _ hmem

variable [LT β] [DecidableLT β]

theorem Held.insert (ht : t.Held h) (href : h.deref ref = some v) (hfuel : t.toList.length < fuel) :
    ∃ t', Turns h t (h.insert ref fuel t.pointer) t' ∧ t'.values = t.values.insert v := by
  induction t generalizing fuel with
  | nullptr =>
    obtain ⟨fuel, rfl⟩ : ∃ n, fuel = n + 1 := ⟨fuel - 1, by omega⟩
    refine ⟨node (h.next, v) nullptr nullptr 0 1, ?_, rfl⟩
    simpa [TreeHeap.insert, href] using Held.allocate h v
  | node w l r k s ihl ihr =>
    obtain ⟨a, x⟩ := w
    rw [toList_node, List.length_append, List.length_cons] at hfuel
    obtain ⟨fuel, rfl⟩ : ∃ n, fuel = n + 1 := ⟨fuel - 1, by omega⟩
    have hfuell : l.toList.length < fuel := by omega
    have hfuelr : r.toList.length < fuel := by omega
    have hcell := ht.laidOut.1
    simp only [TreeHeap.insert, pointer_node, href, hcell, Option.bind_eq_bind, Option.bind_some,
      values_node, AVLTreeNode.insert]
    by_cases hlt : v < x
    · obtain ⟨l', ⟨h₁, hcall, hl', htrade⟩, hvalues⟩ := ihl ht.left hfuell
      obtain ⟨h₂, hset, ht₂, htrade₂⟩ := ht.setLeft hl' htrade
      refine ⟨(node (a, x) l' r k s).recompute.rebalance, ?_,
        by rw [values_settled, if_pos hlt, hvalues]⟩
      simp only [if_pos hlt, hcall, hset, Option.bind_some]
      exact Turns.after htrade₂ ht₂.settle
    by_cases hgt : v > x
    · obtain ⟨r', ⟨h₁, hcall, hr', htrade⟩, hvalues⟩ := ihr ht.right hfuelr
      obtain ⟨h₂, hset, ht₂, htrade₂⟩ := ht.setRight hr' htrade
      refine ⟨(node (a, x) l r' k s).recompute.rebalance, ?_,
        by rw [values_settled, if_neg hlt, if_pos hgt, hvalues]⟩
      simp only [if_neg hlt, if_pos hgt, hcall, hset, Option.bind_some]
      exact Turns.after htrade₂ ht₂.settle
    · refine ⟨node (a, x) l r k s, ?_, by rw [if_neg hlt, if_neg hgt, values_node]⟩
      simp only [if_neg hlt, if_neg hgt]
      exact ht.turns_self

/-- The found node: its only child takes its place, or it gets the value of its successor. -/
theorem Held.eraseRoot (ht : (node (a, x) l r k s).Held h)
    (hfuel : (node (a, x) l r k s).toList.length ≤ fuel) (href : h.deref ref = some v)
    (hlt : ¬ v < x) (hgt : ¬ v > x)
    (ih : ∀ {h : TreeHeap β} {ref : ValueRef β} {v : β}, r.Held h → h.deref ref = some v →
      ∃ r', Turns h r (h.erase ref fuel r.pointer) r' ∧ r'.values = r.values.erase v) :
    ∃ t', Turns h (node (a, x) l r k s) (h.erase ref (fuel + 1) (some a)) t' ∧
      t'.values = (node x l.values r.values k s).erase v := by
  obtain ⟨hcell, hl, hr⟩ := ht.laidOut
  obtain ⟨-, -, hapart, har⟩ := nodup_node.mp ht.nodup
  have hal : a ∉ l.footprint := Finset.disjoint_right.mp hapart (by simp)
  simp only [TreeHeap.erase, href, hcell, Option.bind_eq_bind, Option.bind_some, if_neg hlt,
    if_neg hgt, AVLTreeNode.erase]
  cases l with
  | nullptr =>
    cases r with
    | nullptr =>
      obtain ⟨h', hfree, hu, htrade⟩ :=
        ht.free ht.left (by rw [footprint_node, footprint_nullptr, Finset.empty_union]) hal
      exact ⟨nullptr, ⟨h', by simp [hfree], hu, htrade⟩, rfl⟩
    | node w rl rr rk rs =>
      obtain ⟨b, y⟩ := w
      obtain ⟨h', hfree, hu, htrade⟩ :=
        ht.free ht.right (by rw [footprint_node, footprint_nullptr, Finset.empty_union]) har
      refine ⟨(node (b, y) rl rr rk rs).recompute.rebalance, ?_, values_settled _ _ _ _ _⟩
      simp only [pointer_nullptr, pointer_node, hfree, Option.bind_some]
      exact Turns.after htrade hu.settle
  | node w ll lr lk ls =>
    obtain ⟨b, y⟩ := w
    cases r with
    | nullptr =>
      have hfoot : (node (a, x) (node (b, y) ll lr lk ls) nullptr k s).footprint =
          {a} ∪ (node (b, y) ll lr lk ls).footprint := by
        rw [footprint_node, footprint_nullptr, Finset.union_empty, Finset.union_comm]
      obtain ⟨h', hfree, hu, htrade⟩ := ht.free ht.left hfoot hal
      refine ⟨(node (b, y) ll lr lk ls).recompute.rebalance, ?_, values_settled _ _ _ _ _⟩
      simp only [pointer_nullptr, pointer_node, hfree, Option.bind_some]
      exact Turns.after htrade hu.settle
    | node w rl rr rk rs =>
      obtain ⟨b', y'⟩ := w
      have hfuel' : (node (b', y') rl rr rk rs).toList.length ≤ fuel := by
        rw [toList_node, List.length_append, List.length_cons] at hfuel
        omega
      obtain ⟨successor, z, hleftmost, hloop, hderef, -⟩ := hr.successorFrom hfuel'
      obtain ⟨c, hc, hz⟩ : ∃ c, h.cells successor = some c ∧ c.value = z := by
        simpa [TreeHeap.deref, Option.bind_eq_some_iff] using hderef
      obtain ⟨h₁, hvalue, ht₁, htrade₁⟩ :=
        ht.rewrite z k s (fun n => { n with value := c.value }) (by rw [hz])
      -- the reference is read in the heap where the root has its new value already
      obtain ⟨_, _, hleftmost₁, -, hderef₁, -⟩ := ht₁.laidOut.2.2.successorFrom hfuel'
      obtain ⟨rfl, rfl⟩ := Prod.mk.inj (Option.some.inj (hleftmost.symm.trans hleftmost₁))
      obtain ⟨r', ⟨h₂, hcall, hr', htrade₂⟩, hvalues⟩ := ih ht₁.right hderef₁
      obtain ⟨h₃, hset, ht₃, htrade₃⟩ := ht₁.setRight hr' htrade₂
      have hsucc : (node (b', y') rl rr rk rs).values.leftmost = some z := by
        rw [values, leftmost_map, hleftmost]
        rfl
      refine ⟨(node (a, z) (node (b, y) ll lr lk ls) r' k s).recompute.rebalance, ?_, ?_⟩
      · simp only [pointer_node] at hcall
        simp only [pointer_node, hloop, hc, TreeHeap.setValue, hvalue, ht₁.laidOut.1, hcall, hset,
          Option.bind_some]
        exact Turns.after (htrade₁.trans htrade₃) ht₃.settle
      · rw [values_settled, hvalues, hsucc]
        simp [isNull]

theorem Held.erase (ht : t.Held h) (href : h.deref ref = some v) (hfuel : t.toList.length < fuel) :
    ∃ t', Turns h t (h.erase ref fuel t.pointer) t' ∧ t'.values = t.values.erase v := by
  induction t generalizing fuel h ref v with
  | nullptr =>
    obtain ⟨fuel, rfl⟩ : ∃ n, fuel = n + 1 := ⟨fuel - 1, by omega⟩
    exact ⟨nullptr, ht.turns_self, rfl⟩
  | node w l r k s ihl ihr =>
    obtain ⟨a, x⟩ := w
    obtain ⟨fuel, rfl⟩ : ∃ n, fuel = n + 1 := ⟨fuel - 1, by omega⟩
    have hlength := hfuel
    rw [toList_node, List.length_append, List.length_cons] at hlength
    have hfuell : l.toList.length < fuel := by omega
    have hfuelr : r.toList.length < fuel := by omega
    have hcell := ht.laidOut.1
    by_cases hlt : v < x
    · obtain ⟨l', ⟨h₁, hcall, hl', htrade⟩, hvalues⟩ := ihl ht.left href hfuell
      obtain ⟨h₂, hset, ht₂, htrade₂⟩ := ht.setLeft hl' htrade
      refine ⟨(node (a, x) l' r k s).recompute.rebalance, ?_, ?_⟩
      · simp only [TreeHeap.erase, pointer_node, href, hcell, Option.bind_eq_bind, Option.bind_some,
          if_pos hlt, hcall, hset]
        exact Turns.after htrade₂ ht₂.settle
      · rw [values_settled, values_node, AVLTreeNode.erase, if_pos hlt, hvalues]
    by_cases hgt : v > x
    · obtain ⟨r', ⟨h₁, hcall, hr', htrade⟩, hvalues⟩ := ihr ht.right href hfuelr
      obtain ⟨h₂, hset, ht₂, htrade₂⟩ := ht.setRight hr' htrade
      refine ⟨(node (a, x) l r' k s).recompute.rebalance, ?_, ?_⟩
      · simp only [TreeHeap.erase, pointer_node, href, hcell, Option.bind_eq_bind, Option.bind_some,
          if_neg hlt, if_pos hgt, hcall, hset]
        exact Turns.after htrade₂ ht₂.settle
      · rw [values_settled, values_node, AVLTreeNode.erase, if_neg hlt, if_pos hgt, hvalues]
    · exact ht.eraseRoot (Nat.le_of_lt_succ hfuel) href hlt hgt fun hr hy => ihr hr hy hfuelr

theorem LaidOut.rank (ht : t.LaidOut h) (href : h.deref ref = some v)
    (hfuel : t.toList.length < fuel) :
    h.rank ref fuel t.pointer = some (t.values.rank v) := by
  induction t generalizing fuel with
  | nullptr =>
    obtain ⟨fuel, rfl⟩ : ∃ n, fuel = n + 1 := ⟨fuel - 1, by omega⟩
    rfl
  | node w l r k s ihl ihr =>
    obtain ⟨a, x⟩ := w
    rw [toList_node, List.length_append, List.length_cons] at hfuel
    obtain ⟨fuel, rfl⟩ : ∃ n, fuel = n + 1 := ⟨fuel - 1, by omega⟩
    have hfuell : l.toList.length < fuel := by omega
    have hfuelr : r.toList.length < fuel := by omega
    obtain ⟨hcell, hl, hr⟩ := ht
    simp only [TreeHeap.rank, pointer_node, href, hcell, hl.sizeAt, Option.bind_eq_bind,
      Option.bind_some, ihl hl hfuell, ihr hr hfuelr, values_node, AVLTreeNode.rank]
    by_cases hlt : v < x
    · rw [if_pos hlt, if_pos hlt]
    · by_cases hgt : v > x
      · rw [if_neg hlt, if_neg hlt, if_pos hgt, if_pos hgt, cachedSize_values]
      · rw [if_neg hlt, if_neg hlt, if_neg hgt, if_neg hgt, cachedSize_values]

omit [LT β] [DecidableLT β] in
theorem Held.destroy (ht : t.Held h) (hfuel : t.toList.length < fuel) :
    ∃ h', h.destroy fuel t.pointer = some h' ∧ Heap.Trades h h' t.footprint ∅ := by
  induction t generalizing fuel h with
  | nullptr =>
    obtain ⟨fuel, rfl⟩ : ∃ n, fuel = n + 1 := ⟨fuel - 1, by omega⟩
    exact ⟨h, rfl, Heap.Trades.refl _ _⟩
  | node w l r k s ihl ihr =>
    obtain ⟨a, x⟩ := w
    rw [toList_node, List.length_append, List.length_cons] at hfuel
    obtain ⟨fuel, rfl⟩ : ∃ n, fuel = n + 1 := ⟨fuel - 1, by omega⟩
    obtain ⟨hcell, hl, hr⟩ := ht.laidOut
    obtain ⟨-, -, hapart, har⟩ := nodup_node.mp ht.nodup
    have hal : a ∉ l.footprint := Finset.disjoint_right.mp hapart (by simp)
    have hfuell : l.toList.length < fuel := by omega
    have hfuelr : r.toList.length < fuel := by omega
    obtain ⟨h₁, hleft, htrade₁⟩ := ihl ht.left hfuell
    have hcell₁ := htrade₁.keeps hcell hal
    have hr₁ : r.Held h₁ :=
      ⟨hr.frame htrade₁ (Finset.disjoint_of_subset_right Finset.subset_union_right hapart),
        ht.right.nodup⟩
    obtain ⟨h₂, hright, htrade₂⟩ := ihr hr₁ hfuelr
    have hcell₂ := htrade₂.keeps hcell₁ har
    obtain ⟨h₃, hfree, hcells, hnext⟩ := Heap.put_eq hcell₂ none
    refine ⟨h₃, ?_, ?_⟩
    · simp [TreeHeap.destroy, hcell, hleft, hcell₁, hright, Heap.free, hfree]
    · have hfirst := htrade₁.union ({a} ∪ r.footprint)
      have hsecond := htrade₂.union {a}
      rw [Finset.empty_union] at hfirst hsecond
      rw [Finset.union_comm] at hsecond
      rw [footprint_node]
      exact (hfirst.trans hsecond).trans (Heap.Trades.free hcells hnext)

end AVLTreeNode
end Chrono
