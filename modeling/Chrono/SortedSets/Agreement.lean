import Mathlib.Order.Basic
import Chrono.Library.Machine
import Chrono.SortedSets.InOrder
import Chrono.SortedSets.SortedSet

/-!
# Agreement of tree and score map

A sorted set keeps its entries twice. The two agree as long as the scores are
totally ordered; a NaN is comparable to nothing, so it is safe only as the score
of the one member of a set.
-/
namespace Chrono
open Library Library.SortedList AVLTreeNode

inductive SetOp (σ : Type) where
  | zadd (key : Bytes) (score : σ) (member : Bytes)
  | zscore (key member : Bytes)
  | zrem (key member : Bytes)
  | zrank (key member : Bytes)

inductive SetResult (σ : Type) where
  | flag (b : Bool)
  | score (s : Option σ)
  | rank (n : Option ℕ)
deriving DecidableEq, Repr

namespace SetOp
variable {σ : Type}

def key : SetOp σ → Bytes
  | zadd key _ _ => key
  | zscore key _ => key
  | zrem key _ => key
  | zrank key _ => key

def member : SetOp σ → Bytes
  | zadd _ _ member => member
  | zscore _ member => member
  | zrem _ member => member
  | zrank _ member => member

variable {α : Type} [LinearOrder α]

def run : SetOp (Score α) → SortedSetsAPI α → SetResult (Score α) × SortedSetsAPI α
  | zadd key score member, api => let (b, api) := api.zadd key score member; (.flag b, api)
  | zscore key member, api => (.score (api.zscore key member), api)
  | zrem key member, api => let (b, api) := api.zrem key member; (.flag b, api)
  | zrank key member, api => (.rank (api.zrank key member), api)

/-- The same operation on the set of its key. -/
def onSet : SetOp (Score α) → SortedSet α → SetResult (Score α) × SortedSet α
  | zadd _ score member, z => let (b, z) := z.zadd score member; (.flag b, z)
  | zscore _ member, z => (.score (z.memberScore member), z)
  | zrem _ member, z => let (b, z) := z.zrem member; (.flag b, z)
  | zrank _ member, z => (.rank (z.zrank member), z)

end SetOp

def setsMachine (α : Type) [LinearOrder α] :
    Machine (SortedSetsAPI α) (SetOp (Score α)) (SetResult (Score α)) where
  step api op := op.run api

/-- The set of a key; a missing set reads as an empty one. -/
def SortedSetsAPI.setAt {α : Type} (api : SortedSetsAPI α) (key : Bytes) : SortedSet α :=
  (api.sortedSetStore key).getD SortedSet.empty

theorem SortedSetsAPI.zscore_eq {α : Type} (api : SortedSetsAPI α) (key member : Bytes) :
    api.zscore key member = (api.setAt key).memberScore member := by
  cases h : api.sortedSetStore key <;> simp [zscore, findSet, setAt, h, SortedSet.empty]

section
variable {α : Type} [LinearOrder α]

namespace SortedSetsAPI
variable (api : SortedSetsAPI α) (key member : Bytes) (score : Score α)

theorem zadd_result : (api.zadd key score member).1 = ((api.setAt key).zadd score member).1 := by
  cases h : api.sortedSetStore key <;> simp [zadd, getOrCreateSet, Table.getOrAdd, setAt, h]

theorem zrem_result : (api.zrem key member).1 = ((api.setAt key).zrem member).1 := by
  cases h : api.sortedSetStore key <;> simp [zrem, setAt, h, SortedSet.zrem, SortedSet.empty]

theorem zrank_eq : api.zrank key member = (api.setAt key).zrank member := by
  cases h : api.sortedSetStore key <;> simp [zrank, findSet, setAt, h, SortedSet.zrank, SortedSet.empty]

theorem setAt_zadd (k : Bytes) : (api.zadd key score member).2.setAt k =
    if k = key then ((api.setAt k).zadd score member).2 else api.setAt k := by
  by_cases hk : k = key
  · subst hk
    cases h : api.sortedSetStore k <;> simp [zadd, getOrCreateSet, Table.getOrAdd, setAt, h]
  · cases h : api.sortedSetStore key <;> simp [zadd, getOrCreateSet, Table.getOrAdd, setAt, h, hk]

theorem setAt_zrem (k : Bytes) : (api.zrem key member).2.setAt k =
    if k = key then ((api.setAt k).zrem member).2 else api.setAt k := by
  by_cases hk : k = key
  · subst hk
    cases h : api.sortedSetStore k <;> simp [zrem, setAt, h, SortedSet.zrem, SortedSet.empty]
  · cases h : api.sortedSetStore key <;> simp [zrem, setAt, h, hk]

end SortedSetsAPI

theorem SetOp.run_result (op : SetOp (Score α)) (api : SortedSetsAPI α) :
    (op.run api).1 = (op.onSet (api.setAt op.key)).1 := by
  cases op with
  | zadd key score member => exact congrArg SetResult.flag (api.zadd_result key member score)
  | zscore key member => exact congrArg SetResult.score (api.zscore_eq key member)
  | zrem key member => exact congrArg SetResult.flag (api.zrem_result key member)
  | zrank key member => exact congrArg SetResult.rank (api.zrank_eq key member)

theorem SetOp.setAt_run (op : SetOp (Score α)) (api : SortedSetsAPI α) (k : Bytes) :
    (op.run api).2.setAt k = if k = op.key then (op.onSet (api.setAt k)).2 else api.setAt k := by
  cases op with
  | zadd key score member => exact api.setAt_zadd key member score k
  | zscore key member => simp [run, onSet]
  | zrem key member => exact api.setAt_zrem key member k
  | zrank key member => simp [run, onSet]

end

/-- The order of the tree compares this value like any other. -/
def Numeric {α : Type} (v : AVLTreeNodeValue α) : Prop := v.score ≠ .nan

theorem numeric_num {α : Type} (m : Bytes) (x : α) : Numeric (⟨m, .num x⟩ : AVLTreeNodeValue α) := by
  simp [Numeric]

theorem Numeric.exists_num {α : Type} {v : AVLTreeNodeValue α} (h : Numeric v) :
    ∃ m x, v = ⟨m, .num x⟩ := by
  obtain ⟨m, s⟩ := v
  cases s with
  | nan => exact absurd rfl h
  | num x => exact ⟨m, x, rfl⟩

section
variable {α : Type} [LinearOrder α]

theorem less_num (m m' : Bytes) (x y : α) :
    (⟨m, .num x⟩ : AVLTreeNodeValue α) < ⟨m', .num y⟩ ↔ x < y ∨ x = y ∧ m < m' := by
  rw [AVLTreeNodeValue.lt_iff]
  by_cases h : x = y
  · subst h
    simp [AVLTreeNodeValue.less, Score.eq]
  · simp [AVLTreeNodeValue.less, Score.eq, Score.lt, h]

/-- A NaN is neither below nor above anything. -/
theorem nan_incomparable {v w : AVLTreeNodeValue α} (h : v.score = .nan ∨ w.score = .nan) :
    ¬ v < w := by
  obtain ⟨m, s⟩ := v
  obtain ⟨m', s'⟩ := w
  rw [AVLTreeNodeValue.lt_iff]
  rcases h with rfl | rfl
  · simp [AVLTreeNodeValue.less, Score.eq, Score.lt]
  · cases s <;> simp [AVLTreeNodeValue.less, Score.eq, Score.lt]

theorem strictTotalOn_numeric : StrictTotalOn (Numeric : AVLTreeNodeValue α → Prop) where
  irrefl := by
    intro a ha h
    obtain ⟨m, x, rfl⟩ := ha.exists_num
    rcases (less_num m m x x).mp h with h | ⟨-, h⟩
    · exact lt_irrefl x h
    · exact List.lt_irrefl m h
  trans := by
    intro a b c ha hb hc hab hbc
    obtain ⟨m₁, x, rfl⟩ := ha.exists_num
    obtain ⟨m₂, y, rfl⟩ := hb.exists_num
    obtain ⟨m₃, z, rfl⟩ := hc.exists_num
    rw [less_num] at *
    rcases hab with hxy | ⟨rfl, h₁⟩ <;> rcases hbc with hyz | ⟨rfl, h₂⟩
    · exact .inl (lt_trans hxy hyz)
    · exact .inl hxy
    · exact .inl hyz
    · exact .inr ⟨rfl, List.lt_trans h₁ h₂⟩
  total := by
    intro a b ha hb
    obtain ⟨m₁, x, rfl⟩ := ha.exists_num
    obtain ⟨m₂, y, rfl⟩ := hb.exists_num
    rw [less_num, less_num]
    rcases lt_trichotomy x y with h | rfl | h
    · exact .inl (.inl h)
    · by_cases h₁ : m₁ < m₂
      · exact .inl (.inr ⟨rfl, h₁⟩)
      · by_cases h₂ : m₂ < m₁
        · exact .inr (.inr (.inr ⟨rfl, h₂⟩))
        · exact .inr (.inl (by rw [Std.Trichotomous.trichotomous m₁ m₂ h₁ h₂]))
    · exact .inr (.inr (.inl h))

end

namespace SortedSet
variable {α : Type}

abbrev nodes (z : SortedSet α) : List (AVLTreeNodeValue α) := z.tree.root.toList

/-- One node for each entry of the score map, and no other. -/
structure Agrees (z : SortedSet α) : Prop where
  nodup : z.nodes.Nodup
  mem_iff : ∀ v, v ∈ z.nodes ↔ z.memberScore v.member = some v.score

/-- A set with one member, whose score is a NaN. -/
def Lone (z : SortedSet α) (a : Bytes) : Prop :=
  z.nodes = [⟨a, .nan⟩] ∧ ∀ m, z.memberScore m = if m = a then some .nan else none

theorem Lone.agrees {z : SortedSet α} {a : Bytes} (h : z.Lone a) : z.Agrees := by
  obtain ⟨hnodes, hmap⟩ := h
  constructor
  · simp [hnodes]
  · intro v
    obtain ⟨m, s⟩ := v
    rw [hnodes, hmap]
    by_cases hm : m = a
    · simp [hm, eq_comm]
    · simp [hm]

variable [LinearOrder α]

/-- A set whose scores are all comparable. -/
structure Sound (z : SortedSet α) : Prop where
  sorted : SortedIn Numeric z.nodes
  sizes : z.tree.root.SizeOk
  mem_iff : ∀ v, v ∈ z.nodes ↔ z.memberScore v.member = some v.score

/-- What holds of every set as long as no NaN meets another member. -/
def Inv (z : SortedSet α) : Prop := z.Sound ∨ ∃ a, z.Lone a

theorem sound_empty : (empty : SortedSet α).Sound :=
  ⟨sortedIn_nil, trivial, by simp [empty, nodes, AVLTree.empty]⟩

theorem Sound.agrees {z : SortedSet α} (h : z.Sound) : z.Agrees :=
  ⟨h.sorted.nodup strictTotalOn_numeric, h.mem_iff⟩

theorem Inv.agrees {z : SortedSet α} (h : z.Inv) : z.Agrees := by
  rcases h with h | ⟨a, h⟩
  · exact h.agrees
  · exact h.agrees

section
variable (z : SortedSet α) (v : AVLTreeNodeValue α)

def added : SortedSet α := ⟨(z.tree.insert v).2, z.memberScore.insert v.member v.score⟩

def removed : SortedSet α := ⟨(z.tree.erase v).2, z.memberScore.erase v.member⟩

theorem nodes_added : (z.added v).nodes = (z.tree.root.insert v).toList := rfl

theorem nodes_removed : (z.removed v).nodes = (z.tree.root.erase v).toList := rfl

theorem memberScore_removed_self : (z.removed v).memberScore v.member = none := by simp [removed]

end

section
variable {z : SortedSet α} {m : Bytes} {e s : Score α}

theorem zadd_absent (h : z.memberScore m = none) : z.zadd s m = (true, z.added ⟨m, s⟩) := by
  simp [zadd, h, added]

theorem zadd_same (h : z.memberScore m = some e) (heq : e.eq s = true) : z.zadd s m = (false, z) := by
  simp [zadd, h, heq]

/-- A score update is a removal followed by an addition. -/
theorem zadd_changed (h : z.memberScore m = some e) (hne : e.eq s = false) :
    z.zadd s m = (false, (z.removed ⟨m, e⟩).added ⟨m, s⟩) := by
  simp [zadd, h, hne, added, removed, Table.insert, Table.erase]

theorem zrem_absent (h : z.memberScore m = none) : z.zrem m = (false, z) := by simp [zrem, h]

theorem zrem_present (h : z.memberScore m = some e) : z.zrem m = (true, z.removed ⟨m, e⟩) := by
  simp [zrem, h, removed]

end

/-- Neither the new score nor that of any other member is a NaN, unless there is
no other member. -/
def Apart (z : SortedSet α) (score : Score α) (member : Bytes) : Prop :=
  ∀ b s, b ≠ member → z.memberScore b = some s → score ≠ .nan ∧ s ≠ .nan

theorem Sound.added {z : SortedSet α} (h : z.Sound) {v : AVLTreeNodeValue α} (hv : Numeric v)
    (hm : z.memberScore v.member = none) : (z.added v).Sound := by
  have hnodes : (z.added v).nodes = put v z.nodes := toList_insert strictTotalOn_numeric h.sorted hv
  refine ⟨?_, sizeOk_insert h.sizes v, fun w => ?_⟩
  · rw [hnodes]
    exact h.sorted.put strictTotalOn_numeric hv
  · rw [hnodes, mem_put strictTotalOn_numeric h.sorted hv, h.mem_iff]
    by_cases hw : w.member = v.member
    · have : w = v ↔ v.score = w.score := by
        rw [AVLTreeNodeValue.ext_iff, hw]
        simp [eq_comm]
      simp [SortedSet.added, hw, hm, this]
    · have : w ≠ v := fun heq => hw (congrArg AVLTreeNodeValue.member heq)
      simp [SortedSet.added, hw, this]

theorem Sound.removed {z : SortedSet α} (h : z.Sound) {v : AVLTreeNodeValue α} (hv : v ∈ z.nodes) :
    (z.removed v).Sound := by
  have hnum : Numeric v := h.sorted.within v hv
  have hnodes : (z.removed v).nodes = drop v z.nodes :=
    toList_erase strictTotalOn_numeric h.sorted hnum
  refine ⟨?_, sizeOk_erase h.sizes v, fun w => ?_⟩
  · rw [hnodes]
    exact h.sorted.drop strictTotalOn_numeric hnum
  · rw [hnodes, mem_drop strictTotalOn_numeric h.sorted hnum, h.mem_iff]
    by_cases hw : w.member = v.member
    · have hscore : z.memberScore v.member = some v.score := (h.mem_iff v).mp hv
      simp only [SortedSet.removed, hw, Table.erase_same, hscore, reduceCtorEq, iff_false, not_and,
        not_not, Option.some.injEq]
      intro hs
      exact AVLTreeNodeValue.ext hw hs.symm
    · have : w ≠ v := fun heq => hw (congrArg AVLTreeNodeValue.member heq)
      simp [SortedSet.removed, hw, this]

/-- The first value of an empty set may be a NaN. -/
theorem Sound.added_first {z : SortedSet α} (h : z.Sound) (hz : z.nodes = []) {m : Bytes} :
    (z.added ⟨m, .nan⟩).Lone m := by
  have hmap (k : Bytes) : z.memberScore k = none := by
    cases hk : z.memberScore k with
    | none => rfl
    | some s =>
      have := (h.mem_iff ⟨k, s⟩).mpr hk
      simp [hz] at this
  refine ⟨?_, fun k => ?_⟩
  · rw [nodes_added, toList_eq_nil.mp hz]
    rfl
  · by_cases hk : k = m <;> simp [SortedSet.added, hk, hmap]

theorem Lone.removed {z : SortedSet α} {a : Bytes} (h : z.Lone a) : (z.removed ⟨a, .nan⟩).Sound := by
  obtain ⟨hnodes, hmap⟩ := h
  obtain ⟨ht, s, hroot⟩ := eq_leaf_of_toList hnodes
  have herased : z.tree.root.erase ⟨a, .nan⟩ = .nullptr := by
    have hlt : ¬ (⟨a, .nan⟩ : AVLTreeNodeValue α) < ⟨a, .nan⟩ := nan_incomparable (.inl rfl)
    rw [hroot, AVLTreeNode.erase, if_neg hlt, if_neg hlt]
    rfl
  refine ⟨?_, ?_, fun w => ?_⟩
  · rw [nodes_removed, herased]
    exact sortedIn_nil
  · exact (congrArg SizeOk herased).mpr trivial
  · rw [nodes_removed, herased]
    by_cases hw : w.member = a <;> simp [SortedSet.removed, hw, hmap]

/-- Removing what the map names leaves a sound set, with or without a NaN. -/
theorem Inv.removed {z : SortedSet α} (h : z.Inv) {m : Bytes} {e : Score α}
    (hm : z.memberScore m = some e) :
    (z.removed ⟨m, e⟩).Sound := by
  rcases h with h | ⟨a, h⟩
  · exact h.removed ((h.mem_iff ⟨m, e⟩).mpr hm)
  · obtain ⟨rfl, rfl⟩ : m = a ∧ Score.nan = e := by simpa [h.2] using hm
    exact h.removed

theorem apart_removed {z : SortedSet α} {m : Bytes} (e s : Score α) :
    (z.removed ⟨m, e⟩).Apart s m ↔ z.Apart s m := by
  refine forall₂_congr fun b t => imp_congr_right fun hb => ?_
  simp [SortedSet.removed, hb]

/-- A member that meets no NaN enters and keeps the invariant. -/
theorem Inv.added {z : SortedSet α} (h : z.Inv) {m : Bytes} {s : Score α}
    (hm : z.memberScore m = none) (hapart : z.Apart s m) : (z.added ⟨m, s⟩).Inv := by
  rcases h with h | ⟨a, h⟩
  · cases s with
    | num x => exact .inl (h.added (numeric_num m x) hm)
    | nan =>
      have hz : z.nodes = [] := by
        rw [List.eq_nil_iff_forall_not_mem]
        intro v hv
        have hscore := (h.mem_iff v).mp hv
        have hne : v.member ≠ m := fun heq => by simp [heq, hm] at hscore
        exact (hapart _ _ hne hscore).1 rfl
      exact .inr ⟨m, h.added_first hz⟩
  · have hne : a ≠ m := fun heq => by simp [h.2, heq] at hm
    exact absurd rfl (hapart a .nan hne (by simp [h.2])).2

/-- A member that meets a NaN enters the map only. -/
theorem Inv.added_disagrees {z : SortedSet α} (h : z.Inv) {m : Bytes} {s : Score α}
    (hm : z.memberScore m = none) (hapart : ¬ z.Apart s m) : ¬ (z.added ⟨m, s⟩).Agrees := by
  unfold Apart at hapart
  push Not at hapart
  obtain ⟨b, t, hb, ht, hnan⟩ := hapart
  have hmem : (⟨b, t⟩ : AVLTreeNodeValue α) ∈ z.nodes := (h.agrees.mem_iff ⟨b, t⟩).mpr ht
  -- every node is incomparable to the new value
  have hall (v : AVLTreeNodeValue α) (hv : v ∈ z.nodes) : s = .nan ∨ v.score = .nan := by
    rcases h with h | ⟨a, h⟩
    · exact .inl (by_contra fun hs => h.sorted.within _ hmem (hnan hs))
    · rw [h.1, List.mem_singleton] at hv
      exact .inr (by rw [hv])
  have hnodes : (z.added ⟨m, s⟩).nodes = z.nodes := by
    rw [nodes_added, insert_incomparable]
    · intro hnull
      simp [nodes, hnull] at hmem
    · intro v hv
      exact ⟨nan_incomparable (hall v hv), nan_incomparable (hall v hv).symm⟩
  intro hagrees
  have : (⟨m, s⟩ : AVLTreeNodeValue α) ∈ (z.added ⟨m, s⟩).nodes :=
    (hagrees.mem_iff ⟨m, s⟩).mpr (by simp [SortedSet.added])
  rw [hnodes, h.agrees.mem_iff, hm] at this
  simp at this

/-- An equal score is a number, and then so are all others. -/
theorem Inv.apart_of_eq {z : SortedSet α} (h : z.Inv) {m : Bytes} {e s : Score α}
    (hm : z.memberScore m = some e) (heq : e.eq s = true) : z.Apart s m := by
  intro b t hb ht
  rcases h with h | ⟨a, h⟩
  · refine ⟨fun hs => ?_, h.sorted.within _ ((h.mem_iff ⟨b, t⟩).mpr ht)⟩
    cases e <;> simp [Score.eq, hs] at heq
  · have hma : m = a := by_contra fun hne => by simp [h.2, hne] at hm
    simp [h.2, ← hma, hb] at ht

theorem Inv.zadd {z : SortedSet α} (h : z.Inv) {m : Bytes} {s : Score α} (hapart : z.Apart s m) :
    (z.zadd s m).2.Inv := by
  cases hm : z.memberScore m with
  | none =>
    rw [zadd_absent hm]
    exact h.added hm hapart
  | some e =>
    by_cases heq : e.eq s = true
    · rw [zadd_same hm heq]
      exact h
    · rw [zadd_changed hm (by simpa using heq)]
      have hrem : (z.removed ⟨m, e⟩).Inv := .inl (h.removed hm)
      exact hrem.added (memberScore_removed_self z ⟨m, e⟩) ((apart_removed e s).mpr hapart)

theorem Inv.zadd_disagrees {z : SortedSet α} (h : z.Inv) {m : Bytes} {s : Score α}
    (hapart : ¬ z.Apart s m) : ¬ (z.zadd s m).2.Agrees := by
  cases hm : z.memberScore m with
  | none =>
    rw [zadd_absent hm]
    exact h.added_disagrees hm hapart
  | some e =>
    have hne : e.eq s = false := by
      by_contra heq
      exact hapart (h.apart_of_eq hm (by simpa using heq))
    rw [zadd_changed hm hne]
    have hrem : (z.removed ⟨m, e⟩).Inv := .inl (h.removed hm)
    exact hrem.added_disagrees (memberScore_removed_self z ⟨m, e⟩)
      (fun h' => hapart ((apart_removed e s).mp h'))

theorem Inv.zrem {z : SortedSet α} (h : z.Inv) (m : Bytes) : (z.zrem m).2.Inv := by
  cases hm : z.memberScore m with
  | none =>
    rw [zrem_absent hm]
    exact h
  | some e =>
    rw [zrem_present hm]
    exact .inl (h.removed hm)

theorem memberScore_zadd_other (z : SortedSet α) (s : Score α) {m b : Bytes} (hb : b ≠ m) :
    (z.zadd s m).2.memberScore b = z.memberScore b := by
  cases hm : z.memberScore m with
  | none => simp [zadd_absent hm, SortedSet.added, hb]
  | some e => by_cases heq : e.eq s <;> simp [zadd, hm, heq, hb]

theorem memberScore_zrem_other (z : SortedSet α) {m b : Bytes} (hb : b ≠ m) :
    (z.zrem m).2.memberScore b = z.memberScore b := by
  cases hm : z.memberScore m <;> simp [zrem, hm, hb]

end SortedSet

namespace SortedSetsAPI
variable {α : Type} [LinearOrder α] (api : SortedSetsAPI α)

theorem zscore_zadd (key member : Bytes) (x : α) :
    (api.zadd key (.num x) member).2.zscore key member = some (.num x) := by
  rw [zscore_eq, setAt_zadd, if_pos rfl]
  cases hm : (api.setAt key).memberScore member with
  | none => simp [SortedSet.zadd_absent hm, SortedSet.added]
  | some e =>
    by_cases heq : e.eq (.num x) = true
    · rw [SortedSet.zadd_same hm heq, hm]
      cases e with
      | nan => cases heq
      | num y => exact congrArg _ (congrArg _ (by simpa [Score.eq] using heq))
    · rw [SortedSet.zadd_changed hm (by simpa using heq)]
      simp [SortedSet.added]

theorem zadd_again {key member : Bytes} {x : α} (h : api.zscore key member = some (.num x)) :
    api.zadd key (.num x) member = (false, api) := by
  cases hset : api.sortedSetStore key with
  | none => simp [zscore, findSet, hset] at h
  | some z =>
    have hm : z.memberScore member = some (.num x) := by simpa [zscore, findSet, hset] using h
    have hzadd : z.zadd (.num x) member = (false, z) := SortedSet.zadd_same hm (by simp [Score.eq])
    have hinsert : api.sortedSetStore.insert key z = api.sortedSetStore := by
      rw [Table.insert, ← hset]
      exact Function.update_eq_self key api.sortedSetStore
    simp [zadd, getOrCreateSet, Table.getOrAdd, hset, hzadd, hinsert]

end SortedSetsAPI

section
variable {α : Type}

/-- In every set the tree has one node for each entry of the score map, and no other. -/
def SortedSetsAPI.Agrees (api : SortedSetsAPI α) : Prop :=
  ∀ key z, api.sortedSetStore key = some z → z.Agrees

/-- A `ZADD` brings no NaN next to another member. -/
def SetOp.Apart (api : SortedSetsAPI α) : SetOp (Score α) → Prop
  | zadd key score member => ∀ b s, b ≠ member → api.zscore key b = some s → score ≠ .nan ∧ s ≠ .nan
  | _ => True

/-- The trees keep every node except those of the member of the operation. -/
def SetOp.KeepsOthers (op : SetOp (Score α)) (api api' : SortedSetsAPI α) : Prop :=
  ∀ key b s, ¬ (key = op.key ∧ b = op.member) →
    (⟨b, s⟩ ∈ (api'.setAt key).nodes ↔ ⟨b, s⟩ ∈ (api.setAt key).nodes)

variable [LinearOrder α]

theorem SortedSetsAPI.agrees_iff (api : SortedSetsAPI α) :
    api.Agrees ↔ ∀ key, (api.setAt key).Agrees := by
  constructor
  · intro h key
    cases hk : api.sortedSetStore key with
    | none => simpa [setAt, hk] using SortedSet.sound_empty.agrees
    | some z => simpa [setAt, hk] using h key z hk
  · intro h key z hz
    simpa [setAt, hz] using h key

theorem SetOp.memberScore_run_other (op : SetOp (Score α)) (api : SortedSetsAPI α) {key b : Bytes}
    (h : ¬ (key = op.key ∧ b = op.member)) :
    ((op.run api).2.setAt key).memberScore b = (api.setAt key).memberScore b := by
  rw [op.setAt_run]
  by_cases hk : key = op.key
  · have hb : b ≠ op.member := fun hb => h ⟨hk, hb⟩
    rw [if_pos hk]
    cases op with
    | zadd _ score member => exact SortedSet.memberScore_zadd_other _ score hb
    | zscore _ member => rfl
    | zrem _ member => exact SortedSet.memberScore_zrem_other _ hb
    | zrank _ member => rfl
  · rw [if_neg hk]

/-- Where tree and map agree before and after, no other node moves. -/
theorem SetOp.keepsOthers (op : SetOp (Score α)) {api : SortedSetsAPI α} (h : api.Agrees)
    (h' : (op.run api).2.Agrees) : op.KeepsOthers api (op.run api).2 := by
  rw [SortedSetsAPI.agrees_iff] at h h'
  intro key b s hother
  rw [(h' key).mem_iff, (h key).mem_iff, op.memberScore_run_other api hother]

theorem SetOp.inv_run (op : SetOp (Score α)) {api : SortedSetsAPI α} (h : ∀ key, (api.setAt key).Inv)
    (hop : op.Apart api) (key : Bytes) : ((op.run api).2.setAt key).Inv := by
  rw [op.setAt_run]
  by_cases hk : key = op.key
  · rw [if_pos hk]
    cases op with
    | zadd k score member =>
      simp only [Apart, api.zscore_eq] at hop
      exact (h key).zadd (hk ▸ hop)
    | zscore _ _ => exact h key
    | zrem _ member => exact (h key).zrem member
    | zrank _ _ => exact h key
  · rw [if_neg hk]
    exact h key

/-- A NaN next to another member is fatal at once. -/
theorem SetOp.disagrees_run (op : SetOp (Score α)) {api : SortedSetsAPI α}
    (h : ∀ key, (api.setAt key).Inv) (hop : ¬ op.Apart api) : ¬ (op.run api).2.Agrees := by
  cases op with
  | zadd key score member =>
    simp only [Apart, api.zscore_eq] at hop
    rw [SortedSetsAPI.agrees_iff]
    intro hagrees
    have hkey : ((api.zadd key score member).2.setAt key).Agrees := hagrees key
    rw [api.setAt_zadd, if_pos rfl] at hkey
    exact (h key).zadd_disagrees hop hkey
  | zscore _ _ => exact absurd trivial hop
  | zrem _ _ => exact absurd trivial hop
  | zrank _ _ => exact absurd trivial hop

/-- Tree and score map agree in every state, and no operation touches the node of
another member, exactly in the runs that bring no NaN next to another member. -/
theorem treesAgree_iff (ops : List (SetOp (Score α))) :
    ((∀ pre, pre <+: ops → ((setsMachine α).after .empty pre).Agrees) ∧
      ∀ pre op, pre ++ [op] <+: ops →
        op.KeepsOthers ((setsMachine α).after .empty pre)
          ((setsMachine α).after .empty (pre ++ [op]))) ↔
      (setsMachine α).Admits (fun api op => op.Apart api) .empty ops := by
  have hempty (key : Bytes) : ((SortedSetsAPI.empty : SortedSetsAPI α).setAt key).Inv :=
    .inl SortedSet.sound_empty
  have hiff : (∀ pre, pre <+: ops → ((setsMachine α).after .empty pre).Agrees) ↔
      (setsMachine α).Admits (fun api op => op.Apart api) .empty ops :=
    (setsMachine α).always_iff_admits (fun api h => api.agrees_iff.mpr fun key => (h key).agrees)
      (fun _ op h hop => op.inv_run h hop) (fun _ op h hop => op.disagrees_run h hop) hempty
  rw [← hiff]
  refine ⟨fun h => h.1, fun h => ⟨h, fun pre op hpre => ?_⟩⟩
  have hafter := h _ hpre
  rw [(setsMachine α).after_append] at hafter ⊢
  exact op.keepsOthers (h pre ((List.prefix_append pre [op]).trans hpre)) hafter

/-- A NaN enters the map only, and its removal takes the node of another member. -/
theorem treesAgree_counterexample :
    let api := (setsMachine ℤ).after .empty
      [.zadd (lit "k") (.num 1) (lit "a"), .zadd (lit "k") .nan (lit "b")]
    let op : SetOp (Score ℤ) := .zrem (lit "k") (lit "b")
    ¬ api.Agrees ∧ ¬ (op.run api).2.Agrees ∧ ¬ op.KeepsOthers api (op.run api).2 := by
  intro api op
  have hone : (⟨lit "a", .num 1⟩ : AVLTreeNodeValue ℤ) ∈ (api.setAt (lit "k")).nodes := by decide
  have hnan : (⟨lit "b", .nan⟩ : AVLTreeNodeValue ℤ) ∉ (api.setAt (lit "k")).nodes := by decide
  have hgone : (⟨lit "a", .num 1⟩ : AVLTreeNodeValue ℤ) ∉
      ((op.run api).2.setAt (lit "k")).nodes := by decide
  refine ⟨fun h => hnan ?_, fun h => hgone ?_, fun h => hgone ?_⟩
  · exact ((api.agrees_iff.mp h (lit "k")).mem_iff ⟨lit "b", .nan⟩).mpr rfl
  · exact (((op.run api).2.agrees_iff.mp h (lit "k")).mem_iff ⟨lit "a", .num 1⟩).mpr rfl
  · exact (h (lit "k") (lit "a") (.num 1) (by decide)).mpr hone

end
end Chrono
