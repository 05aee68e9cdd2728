import Mathlib.Order.Lattice
import Chrono.KvStore.Table
import Chrono.SortedSets.Tree

/-!
# Sorted sets

Each sorted set keeps an AVL tree ordered by score and member next to a map
from member to score. Scores are `double`s: an ordered type together with the
IEEE NaN, for which `==`, `<` and `>` are all false. (The two zeros compare
equal, so they are one element of the ordered type.)
-/
namespace Chrono

inductive Score (α : Type) where
  | nan
  | num (x : α)
deriving DecidableEq, Repr

namespace Score
variable {α : Type} [LinearOrder α]

def eq : Score α → Score α → Bool
  | num x, num y => decide (x = y)
  | _, _ => false

def lt : Score α → Score α → Bool
  | num x, num y => decide (x < y)
  | _, _ => false

end Score

@[ext] structure AVLTreeNodeValue (α : Type) where
  member : Bytes
  score : Score α
deriving DecidableEq, Repr

namespace AVLTreeNodeValue
variable {α : Type} [LinearOrder α]

def less (a b : AVLTreeNodeValue α) : Bool :=
  if a.score.eq b.score then decide (a.member < b.member) else a.score.lt b.score

instance : LT (AVLTreeNodeValue α) := ⟨fun a b => a.less b = true⟩

instance : DecidableLT (AVLTreeNodeValue α) :=
  fun a b => inferInstanceAs (Decidable (a.less b = true))

theorem lt_iff (a b : AVLTreeNodeValue α) : a < b ↔ a.less b = true := Iff.rfl

end AVLTreeNodeValue

structure SortedSet (α : Type) where
  tree : AVLTree (AVLTreeNodeValue α)
  memberScore : Table Bytes (Score α)

namespace SortedSet
variable {α : Type} [LinearOrder α]

def empty : SortedSet α := ⟨AVLTree.empty, fun _ => none⟩

/-- The part of `SortedSetsAPI::zadd` after the set was found or created. -/
def zadd (z : SortedSet α) (score : Score α) (member : Bytes) : Bool × SortedSet α :=
  match z.memberScore member with
  | some existing =>
    if existing.eq score then (false, z)
    else
      let erased := (z.tree.erase ⟨member, existing⟩).2
      (false, ⟨(erased.insert ⟨member, score⟩).2, z.memberScore.insert member score⟩)
  | none => (true, ⟨(z.tree.insert ⟨member, score⟩).2, z.memberScore.insert member score⟩)

/-- The part of `SortedSetsAPI::zrem` after the set was found. -/
def zrem (z : SortedSet α) (member : Bytes) : Bool × SortedSet α :=
  match z.memberScore member with
  | none => (false, z)
  | some score => (true, ⟨(z.tree.erase ⟨member, score⟩).2, z.memberScore.erase member⟩)

def zrank (z : SortedSet α) (member : Bytes) : Option ℕ :=
  (z.memberScore member).map (fun score => z.tree.rank ⟨member, score⟩)

end SortedSet

structure SortedSetsAPI (α : Type) where
  sortedSetStore : Table Bytes (SortedSet α)

namespace SortedSetsAPI
variable {α : Type} [LinearOrder α]

def empty : SortedSetsAPI α := ⟨fun _ => none⟩

def getOrCreateSet (api : SortedSetsAPI α) (key : Bytes) : SortedSet α × SortedSetsAPI α :=
  let (zset, store) := api.sortedSetStore.getOrAdd key SortedSet.empty
  (zset, ⟨store⟩)

def findSet (api : SortedSetsAPI α) (key : Bytes) : Option (SortedSet α) := api.sortedSetStore key

/-- The set is changed through the pointer that `get_or_create_set` returned. -/
def zadd (api : SortedSetsAPI α) (key : Bytes) (score : Score α) (member : Bytes) :
    Bool × SortedSetsAPI α :=
  let (zset, api) := api.getOrCreateSet key
  let (added, zset) := zset.zadd score member
  (added, ⟨api.sortedSetStore.insert key zset⟩)

def zscore (api : SortedSetsAPI α) (key member : Bytes) : Option (Score α) :=
  match api.findSet key with
  | none => none
  | some zset => zset.memberScore member

def zrem (api : SortedSetsAPI α) (key member : Bytes) : Bool × SortedSetsAPI α :=
  match api.sortedSetStore key with
  | none => (false, api)
  | some zset =>
    let (removed, zset) := zset.zrem member
    (removed, ⟨api.sortedSetStore.insert key zset⟩)

def zrank (api : SortedSetsAPI α) (key member : Bytes) : Option ℕ :=
  match api.findSet key with
  | none => none
  | some zset => zset.zrank member

end SortedSetsAPI
end Chrono
