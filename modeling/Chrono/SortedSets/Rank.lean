import Mathlib.Data.Set.Card
import Chrono.SortedSets.TreeSet

/-!
# Ranks

The rank of a value, stored or not, counts the stored values below it. It follows
that the tree's shape, and with it the history of the tree, has no part in ranks.
-/
namespace Chrono
open Library Library.SortedList

variable {β : Type} [LT β] [DecidableLT β] {S : β → Prop} (hS : StrictTotalOn S)

namespace AVLTree

def smaller (t : AVLTree β) (v : β) : Set β := {w | w ∈ t.toList ∧ w < v}

section
include hS
variable {t : AVLTree β}

theorem Valid.rank_eq_below (ht : t.Valid S) {v : β} (hv : S v) :
    t.rank v = (below v t.toList).length :=
  AVLTreeNode.rank_eq hS ht.sorted ht.sizes hv

theorem Valid.rank_eq_ncard (ht : t.Valid S) {v : β} (hv : S v) : t.rank v = (t.smaller v).ncard := by
  classical
  have hset : t.smaller v = ((below v t.toList).toFinset : Set β) := by
    ext w
    simp [smaller, below]
  have hnodup : (below v t.toList).Nodup := (ht.sorted.nodup hS).filter _
  rw [ht.rank_eq_below hS hv, hset, Set.ncard_coe_finset, List.toFinset_card_of_nodup hnodup]

theorem Valid.map_rank (ht : t.Valid S) : t.toList.map t.rank = List.range t.toList.length := by
  rw [← map_length_below hS ht.sorted]
  apply List.map_congr_left
  intro v hv
  exact ht.rank_eq_below hS (ht.sorted.within v hv)

theorem Valid.rank_mono (ht : t.Valid S) {u v : β} (hu : S u) (hv : S v) (huv : u < v) :
    t.rank u ≤ t.rank v := by
  rw [ht.rank_eq_below hS hu, ht.rank_eq_below hS hv]
  exact length_below_mono hS ht.sorted hu hv huv

theorem Valid.rank_injOn (ht : t.Valid S) : Set.InjOn t.rank {v | v ∈ t.toList} := by
  have hnodup : (t.toList.map t.rank).Nodup := by
    rw [ht.map_rank hS]
    exact List.nodup_range
  intro u hu v hv huv
  exact List.inj_on_of_nodup_map hnodup hu hv huv

theorem Valid.rank_congr {t' : AVLTree β} (ht : t.Valid S) (ht' : t'.Valid S)
    (hsame : ∀ w, w ∈ t'.toList ↔ w ∈ t.toList) {v : β} (hv : S v) : t'.rank v = t.rank v := by
  rw [ht.rank_eq_ncard hS hv, ht'.rank_eq_ncard hS hv]
  congr 1
  ext w
  simp [smaller, hsame w]

end
end AVLTree

section
include hS
variable {ops : List (TreeOp β)} (hops : ∀ op ∈ ops, S op.value)
include hops

/-- After every run of insertions and deletions the rank of a value is the number of stored
values below it. So ranks grow with the values, the stored values have the ranks
0, 1, .. in their order, and any other run that stores the same values gives the same ranks. -/
theorem rank_counts {t : AVLTree β} (ht : (treeMachine β).after AVLTree.empty ops = t) :
    (∀ v, S v → t.rank v = {w | w ∈ t.toList ∧ w < v}.ncard) ∧
      (∀ u v, S u → S v → u < v → t.rank u ≤ t.rank v) ∧
      Set.InjOn t.rank {v | v ∈ t.toList} ∧
      t.toList.map t.rank = List.range t.toList.length ∧
      ∀ ops' : List (TreeOp β), (∀ op ∈ ops', S op.value) →
        (∀ w, w ∈ ((treeMachine β).after AVLTree.empty ops').toList ↔ w ∈ t.toList) →
        ∀ v, S v → ((treeMachine β).after AVLTree.empty ops').rank v = t.rank v := by
  have hvalid : t.Valid S := ht ▸ AVLTree.Valid.run hS hops
  refine ⟨fun v hv => hvalid.rank_eq_ncard hS hv, fun u v hu hv => hvalid.rank_mono hS hu hv,
    hvalid.rank_injOn hS, hvalid.map_rank hS, ?_⟩
  intro ops' hops' hsame v hv
  exact hvalid.rank_congr hS (AVLTree.Valid.run hS hops') hsame hv

end

/-- The values of `sampleTreeOps`, inserted in another order and without deletions. -/
def sameTreeOps : List (TreeOp (AVLTreeNodeValue ℤ)) :=
  [.insert ⟨lit "e", .num 5⟩, .insert ⟨lit "f", .num 4⟩, .insert ⟨lit "a", .num 3⟩,
    .insert ⟨lit "d", .num 2⟩, .insert ⟨lit "b", .num 1⟩]

theorem rank_counts_witness :
    let t := (treeMachine (AVLTreeNodeValue ℤ)).after AVLTree.empty sampleTreeOps
    let t' := (treeMachine (AVLTreeNodeValue ℤ)).after AVLTree.empty sameTreeOps
    t.rank ⟨lit "c", .num 3⟩ = {w | w ∈ t.toList ∧ w < ⟨lit "c", .num 3⟩}.ncard ∧
      t.rank ⟨lit "b", .num 1⟩ ≤ t.rank ⟨lit "d", .num 2⟩ ∧ Set.InjOn t.rank {v | v ∈ t.toList} ∧
      t.toList.map t.rank = List.range t.toList.length ∧
      t'.rank ⟨lit "c", .num 3⟩ = t.rank ⟨lit "c", .num 3⟩ := by
  intro t t'
  obtain ⟨hcount, hmono, hinj, hmap, hsame⟩ :=
    rank_counts strictTotalOn_numeric sampleTreeOps_numeric (t := t) rfl
  have hlist : t'.toList = t.toList := by decide
  have hops : ∀ op ∈ sameTreeOps, Numeric op.value := by simp [sameTreeOps, TreeOp.value, Numeric]
  exact ⟨hcount _ (numeric_num _ 3), hmono _ _ (numeric_num _ 1) (numeric_num _ 2)
    (by decide), hinj, hmap, hsame sameTreeOps hops (fun w => by rw [← hlist]) _ (numeric_num _ 3)⟩

end Chrono
