import Mathlib.Data.Set.Card
import Chrono.SortedSets.Agreement

/-!
# Sorted sets as maps of scores

With scores that are numbers, the sorted sets answer as a map from keys to maps
from members to scores. The rank is a number of members, counted in the map.
-/
namespace Chrono
open Library Library.SortedList

/-- For each key, the scores of its members. -/
abbrev ScoreMaps (α : Type) := Bytes → Bytes → Option α

namespace ScoreMaps
variable {α : Type}

def empty : ScoreMaps α := fun _ _ => none

def update (m : ScoreMaps α) (key member : Bytes) (entry : Option α) : ScoreMaps α :=
  Function.update m key (Function.update (m key) member entry)

@[simp] theorem update_same (m : ScoreMaps α) (key member : Bytes) (entry : Option α) :
    m.update key member entry key = Function.update (m key) member entry := by simp [update]

@[simp] theorem update_other (m : ScoreMaps α) {key k : Bytes} (member : Bytes) (entry : Option α)
    (h : k ≠ key) : m.update key member entry k = m k := by simp [update, h]

variable [LinearOrder α]

/-- The members with a smaller score, or the same score and a smaller name. -/
def smaller (scores : Bytes → Option α) (score : α) (member : Bytes) : Set Bytes :=
  {m' | ∃ score', scores m' = some score' ∧ (score' < score ∨ score' = score ∧ m' < member)}

noncomputable def answer (m : ScoreMaps α) : SetOp α → SetResult α × ScoreMaps α
  | .zadd key score member => (.flag (m key member).isNone, m.update key member (some score))
  | .zscore key member => (.score (m key member), m)
  | .zrem key member => (.flag (m key member).isSome, m.update key member none)
  | .zrank key member =>
    (.rank ((m key member).map fun score => (smaller (m key) score member).ncard), m)

end ScoreMaps

noncomputable def scoreMapsMachine (α : Type) [LinearOrder α] :
    Machine (ScoreMaps α) (SetOp α) (SetResult α) where
  step := ScoreMaps.answer

def SetOp.num {α : Type} : SetOp α → SetOp (Score α)
  | zadd key score member => zadd key (.num score) member
  | zscore key member => zscore key member
  | zrem key member => zrem key member
  | zrank key member => zrank key member

def SetResult.num {α : Type} : SetResult α → SetResult (Score α)
  | flag b => flag b
  | score s => score (s.map .num)
  | rank n => rank n

namespace SortedSet
variable {α : Type} [LinearOrder α]

/-- A sound set that holds the given scores. -/
structure Holds (z : SortedSet α) (scores : Bytes → Option α) : Prop where
  sound : z.Sound
  memberScore : ∀ member, z.memberScore member = (scores member).map .num

variable {z : SortedSet α} {scores : Bytes → Option α}

theorem Holds.mem_nodes (h : z.Holds scores) {v : AVLTreeNodeValue α} :
    v ∈ z.nodes ↔ ∃ x, scores v.member = some x ∧ v.score = .num x := by
  rw [h.sound.mem_iff, h.memberScore]
  cases scores v.member <;> simp [eq_comm]

theorem Holds.removed (h : z.Holds scores) {member : Bytes} {x : α} (hx : scores member = some x) :
    (z.removed ⟨member, .num x⟩).Holds (Function.update scores member none) := by
  constructor
  · exact h.sound.removed (h.mem_nodes.mpr ⟨x, hx, rfl⟩)
  · intro b
    by_cases hb : b = member <;> simp [SortedSet.removed, hb, h.memberScore]

theorem Holds.added (h : z.Holds scores) {member : Bytes} (hm : scores member = none) (x : α) :
    (z.added ⟨member, .num x⟩).Holds (Function.update scores member (some x)) := by
  constructor
  · exact h.sound.added (numeric_num member x) (by simp [h.memberScore, hm])
  · intro b
    by_cases hb : b = member <;> simp [SortedSet.added, hb, h.memberScore]

theorem Holds.zadd (h : z.Holds scores) (x : α) (member : Bytes) :
    (z.zadd (.num x) member).1 = (scores member).isNone ∧
      (z.zadd (.num x) member).2.Holds (Function.update scores member (some x)) := by
  have hscore := h.memberScore member
  cases hm : scores member with
  | none =>
    rw [zadd_absent (by simp [hscore, hm])]
    exact ⟨rfl, h.added hm x⟩
  | some y =>
    rw [hm, Option.map_some] at hscore
    by_cases hxy : y = x
    · subst hxy
      rw [zadd_same hscore (by simp [Score.eq]), Function.update_eq_self_iff.mpr hm.symm]
      exact ⟨rfl, h⟩
    · rw [zadd_changed hscore (by simp [Score.eq, hxy])]
      have := (h.removed hm).added (Function.update_self member none scores) x
      rw [Function.update_idem] at this
      exact ⟨rfl, this⟩

theorem Holds.zrem (h : z.Holds scores) (member : Bytes) :
    (z.zrem member).1 = (scores member).isSome ∧
      (z.zrem member).2.Holds (Function.update scores member none) := by
  have hscore := h.memberScore member
  cases hm : scores member with
  | none =>
    rw [zrem_absent (by simp [hscore, hm]), Function.update_eq_self_iff.mpr hm.symm]
    exact ⟨rfl, h⟩
  | some y =>
    rw [zrem_present (by simpa [hm] using hscore)]
    exact ⟨rfl, h.removed hm⟩

/-- The values below an entry are the smaller members of the map, each once. -/
theorem Holds.ncard_smaller (h : z.Holds scores) (x : α) (member : Bytes) :
    (ScoreMaps.smaller scores x member).ncard = (below ⟨member, .num x⟩ z.nodes).length := by
  have hnodup : ((below ⟨member, .num x⟩ z.nodes).map AVLTreeNodeValue.member).Nodup := by
    refine List.Nodup.map_on ?_ ((h.sound.sorted.nodup strictTotalOn_numeric).filter _)
    intro v hv w hw hvw
    obtain ⟨y, hy, hvy⟩ := h.mem_nodes.mp (List.mem_filter.mp hv).1
    obtain ⟨y', hy', hwy⟩ := h.mem_nodes.mp (List.mem_filter.mp hw).1
    have : y = y' := by simpa [hvw, hy'] using hy.symm
    ext1
    · exact hvw
    · rw [hvy, hwy, this]
  have hset : ScoreMaps.smaller scores x member =
      ((below ⟨member, .num x⟩ z.nodes).map AVLTreeNodeValue.member).toFinset := by
    ext b
    simp only [ScoreMaps.smaller, Set.mem_ofPred_eq, List.coe_toFinset, List.mem_map]
    constructor
    · rintro ⟨y, hy, hlt⟩
      have hmem : (⟨b, .num y⟩ : AVLTreeNodeValue α) ∈ z.nodes := h.mem_nodes.mpr ⟨y, hy, rfl⟩
      exact ⟨⟨b, .num y⟩, List.mem_filter.mpr ⟨hmem, by simpa [less_num] using hlt⟩, rfl⟩
    · rintro ⟨v, hv, rfl⟩
      obtain ⟨hmem, hlt⟩ := List.mem_filter.mp hv
      obtain ⟨y, hy, hvy⟩ := h.mem_nodes.mp hmem
      obtain ⟨m', s⟩ := v
      obtain rfl : s = .num y := hvy
      exact ⟨y, hy, by simpa [less_num] using hlt⟩
  rw [hset, Set.ncard_coe_finset, List.toFinset_card_of_nodup hnodup, List.length_map]

theorem Holds.zrank (h : z.Holds scores) (member : Bytes) :
    z.zrank member = (scores member).map fun x => (ScoreMaps.smaller scores x member).ncard := by
  rw [SortedSet.zrank]
  rw [h.memberScore, Option.map_map]
  refine congrArg (fun f => (scores member).map f) (funext fun x => ?_)
  rw [h.ncard_smaller]
  exact AVLTreeNode.rank_eq strictTotalOn_numeric h.sound.sorted h.sound.sizes (numeric_num member x)

end SortedSet

section
variable {α : Type} [LinearOrder α]

/-- Every set holds the scores that the reference has for its key. -/
def SortedSetsAPI.Refines (api : SortedSetsAPI α) (m : ScoreMaps α) : Prop :=
  ∀ key, (api.setAt key).Holds (m key)

theorem SortedSetsAPI.refines_empty : (empty : SortedSetsAPI α).Refines ScoreMaps.empty :=
  fun _ => ⟨SortedSet.sound_empty, fun _ => rfl⟩

theorem SetOp.refines_run (op : SetOp α) {api : SortedSetsAPI α} {m : ScoreMaps α}
    (h : api.Refines m) :
    (op.num.run api).1 = (m.answer op).1.num ∧ (op.num.run api).2.Refines (m.answer op).2 := by
  cases op with
  | zadd key x member =>
    obtain ⟨hresult, hnext⟩ := (h key).zadd x member
    constructor
    · exact congrArg SetResult.flag ((api.zadd_result key member _).trans hresult)
    · intro k
      refine (api.setAt_zadd key member (.num x) k).symm ▸ ?_
      by_cases hk : k = key
      · subst hk
        simpa [ScoreMaps.answer] using hnext
      · simpa [ScoreMaps.answer, hk] using h k
  | zscore key member =>
    exact ⟨congrArg SetResult.score
      ((api.zscore_eq key member).trans ((h key).memberScore member)), h⟩
  | zrem key member =>
    obtain ⟨hresult, hnext⟩ := (h key).zrem member
    constructor
    · exact congrArg SetResult.flag ((api.zrem_result key member).trans hresult)
    · intro k
      refine (api.setAt_zrem key member k).symm ▸ ?_
      by_cases hk : k = key
      · subst hk
        simpa [ScoreMaps.answer] using hnext
      · simpa [ScoreMaps.answer, hk] using h k
  | zrank key member =>
    exact ⟨congrArg SetResult.rank ((api.zrank_eq key member).trans ((h key).zrank member)), h⟩

/-- An operation reads and writes the set of its key only. -/
theorem setsMachine_outputsOn (key : Bytes) (ops : List (SetOp (Score α))) :
    (setsMachine α).outputsOn (fun op => op.key = key) .empty ops =
      (setsMachine α).outputs .empty (ops.filter (fun op => op.key = key)) := by
  refine (setsMachine α).outputsOn_eq_outputs_filter (E := fun s t => s.setAt key =
    t.setAt key) ?_ ?_ rfl ops
  · intro s t op hst hkey
    have hop : op.key = key := by simpa using hkey
    constructor
    · exact ((op.run_result s).trans (by rw [hop, hst])).trans (op.run_result t).symm
    · exact ((op.setAt_run s key).trans (by rw [hst])).trans (op.setAt_run t key).symm
  · intro s t op hst hkey
    have hop : key ≠ op.key := fun heq => by simp [heq] at hkey
    exact ((op.setAt_run s key).trans (if_neg hop)).trans hst

/-- The sorted sets answer every run as maps of scores do, and each key on its own. -/
theorem sortedSets_refine (ops : List (SetOp α)) :
    (setsMachine α).outputs .empty (ops.map SetOp.num) =
        ((scoreMapsMachine α).outputs ScoreMaps.empty ops).map SetResult.num ∧
      ∀ key, (setsMachine α).outputsOn (fun op => op.key = key) .empty (ops.map SetOp.num) =
        (setsMachine α).outputs .empty ((ops.map SetOp.num).filter (fun op => op.key = key)) := by
  refine ⟨?_, fun key => setsMachine_outputsOn key _⟩
  exact (setsMachine α).outputs_map (N := scoreMapsMachine α) SetOp.num SetResult.num
    (fun _ _ op h => SetOp.refines_run op h) SortedSetsAPI.refines_empty ops

end
end Chrono
