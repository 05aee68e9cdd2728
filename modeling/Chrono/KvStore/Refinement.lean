import Chrono.KvStore.HashMap
import Chrono.KvStore.Resize
import Chrono.Library.Machine

/-!
# The hash map is a map

Under every hash function and through every resize, automatic or not, the hash
map answers as the abstract map does, and its chains stay well formed.
-/
namespace Chrono
open Library Library.Chain

namespace KVStore
variable {K V : Type}

/-- The chains and the metrics as they are meant to be, with `c` the chain of each bucket. -/
structure WellFormed (hash : K → UInt64) (s : KVStore K V) (c : ℕ → Chain K V) : Prop where
  capacity : ∃ k : ℕ, s.capacity = 2 ^ k
  head : ∀ i < s.capacity, s.bucketHeads[i]? = some (addrs (c i)).head?
  linked : ∀ i < s.capacity, Linked nodeView s.heap (addrs (c i)).head? (c i) none
  acyclic : ∀ i < s.capacity, (addrs (c i)).Nodup
  tail : ∀ i < s.capacity, s.bucketTails[i]? = some (addrs (c i)).getLast?
  length : ∀ i < s.capacity, s.bucketChainLengths[i]? = some ((c i).length : ℤ)
  placed : ∀ i < s.capacity, ∀ x ∈ c i, s.computeBucketIndex (hash x.2.key) = i
  keys : (Chain.keys ((List.range s.capacity).flatMap c)).Nodup
  numBuckets : s.metrics.numBuckets = s.capacity
  numEntries : s.metrics.numEntries = ((List.range s.capacity).flatMap c).length

variable {hash : K → UInt64} {s : KVStore K V} {c : ℕ → Chain K V} {m : Table K V}

theorem Inv.wellFormed (h : Inv hash s c) : WellFormed hash s c where
  capacity := by
    obtain ⟨k, -, hk⟩ := h.capacity
    exact ⟨k, hk⟩
  head := fun i hi => by
    obtain ⟨head, hhead, hl⟩ := (h.bucket i hi).linked
    rw [hhead, hl.start_eq]
  linked := fun i hi => by
    obtain ⟨head, -, hl⟩ := (h.bucket i hi).linked
    exact hl.start_eq ▸ hl
  acyclic := fun i hi => (h.bucket i hi).nodup
  tail := fun i hi => (h.bucket i hi).tail
  length := fun i hi => (h.bucket i hi).length
  placed := fun i hi x hx => ((h.bucket i hi).placed x hx).2
  keys := by
    have hpending : Pending hash s (fun _ => []) _ := h.pending rfl
    exact hpending.keys
  numBuckets := h.numBuckets
  numEntries := by
    rw [h.numEntries, List.length_flatMap]
    rfl

end KVStore

variable {K V τ : Type} {hash : K → UInt64} {init : V} {s : KVStore K V}
  {c : ℕ → Chain K V} {m : Table K V}
open KVStore

/-- Twice the capacity is a capacity to resize to, if it is an `int`. -/
theorem KVStore.Inv.validCapacity_double (h : Inv hash s c) (hle : 2 * s.capacity ≤ intMax) :
    (Int32.ofNat (2 * s.capacity)).toInt = 2 * s.capacity ∧
    ValidCapacity s (Int32.ofNat (2 * s.capacity)) := by
  have hlt : 2 * s.capacity < 2 ^ 31 := lt_of_le_of_lt hle (by decide)
  have hint : (Int32.ofNat (2 * s.capacity)).toInt = 2 * s.capacity := by
    rw [Int32.toInt_ofNat_of_lt hlt]
    norm_cast
  obtain ⟨k, -, hk⟩ := h.capacity
  have hpos := h.capacity_pos
  refine ⟨hint, by omega, k + 1, ?_⟩
  rw [hint, hk, pow_succ]
  norm_cast
  omega

/-- The automatic doubling succeeds and keeps the cells. -/
theorem KVStore.Represents.maybeResize (h : Represents hash s c m)
    (hfit : s.needsResize = true → 2 * s.capacity ≤ intMax) :
    ∃ s' c', ChronCacheHashMap.maybeResize s = (.ok (), s') ∧ Represents hash s' c' m ∧
      ∀ x, Contains s'.capacity c' x ↔ Contains s.capacity c x := by
  by_cases hneeds : s.needsResize = true
  · have hle := hfit hneeds
    obtain ⟨s', c', hrun, hrep, -, -, hcontains⟩ := h.resize (h.inv.validCapacity_double hle).2
    refine ⟨s', c', ?_, hrep, hcontains⟩
    rw [ChronCacheHashMap.maybeResize, if_pos hneeds, if_pos hle, hrun]
  · exact ⟨s, c, by rw [ChronCacheHashMap.maybeResize, if_neg hneeds], h, fun _ => Iff.rfl⟩

/-- The check of a call, read at the table that asks for the doubling. -/
theorem KVStore.doubling_le {α : Type} {o : Option (α × KVStore K V)} {a : α} (ho : o = some (a, s))
    (hfit : (o.all fun r => !r.2.needsResize || decide (2 * r.2.capacity ≤ intMax)) = true)
    (hneeds : s.needsResize = true) : 2 * s.capacity ≤ intMax := by
  simpa [ho, hneeds] using hfit

namespace MapOp
variable [DecidableEq K]

/-- Where a call asks for an automatic doubling, twice the capacity fits in an `int`. -/
def doublingFits (hash : K → UInt64) (init : V) (s : KVStore K V) : MapOp K V τ → Bool
  | .set key value _ => (s.set hash key value).all fun r =>
    !r.2.needsResize || decide (2 * r.2.capacity ≤ intMax)
  | .getOrAdd key =>
    (s.getOrAdd hash init key).all fun r => !r.2.needsResize || decide (2 * r.2.capacity ≤ intMax)
  | _ => true

/-- How a call is answered: a resize by the validity of the capacity, any other call as
by the abstract map. -/
def Answered (hash : K → UInt64) (init : V) (s : KVStore K V × τ) (m : Table K V × τ) :
    MapOp K V τ → Prop
  | .resize newCapacity =>
    (ValidCapacity s.1 newCapacity → (run hash init (.resize newCapacity) s).1 = .ok .none) ∧
      (¬ ValidCapacity s.1 newCapacity →
        (∃ what, (run hash init (.resize newCapacity) s).1 = .error (.exception what)) ∧
          (run hash init (.resize newCapacity) s).2 = s)
  | op => (op.run hash init s).1 = (op.onTable init m).1

/-- The table represents the map, and the callbacks have left the same state. -/
def Simulates (hash : K → UInt64) (s : KVStore K V × τ) (m : Table K V × τ) : Prop :=
  s.2 = m.2 ∧ ∃ c, Represents hash s.1 c m.1

/-- What one call does: it answers as the abstract call and leads to a table that
represents what the abstract call leads to. -/
def Agrees (hash : K → UInt64) (init : V) (s : KVStore K V × τ) (m : Table K V × τ)
    (op : MapOp K V τ) : Prop :=
  op.Answered hash init s m ∧ Simulates hash (op.run hash init s).2 (op.onTable init m).2

variable {t : τ}

theorem set_agrees (h : Represents hash s c m) {key : K} {value : V} {postFn : Action τ Unit}
    (hfit : (MapOp.set key value postFn).doublingFits hash init s = true) :
    (MapOp.set key value postFn).Agrees hash init (s, t) (m, t) := by
  obtain ⟨s₁, c₁, hset, hrep₁, -, -⟩ := h.set key value
  have hfit₁ : s₁.needsResize = true → 2 * s₁.capacity ≤ intMax := doubling_le hset hfit
  obtain ⟨s', c', hresize, hrep, -⟩ := hrep₁.maybeResize hfit₁
  cases hpost : postFn t with
  | mk r t' =>
    cases r with
    | error e =>
      simp only [Agrees, Answered, Simulates, true_and, run, onTable, ChronCacheHashMap.set,
        Table.set, hset, hpost]
      exact ⟨c₁, hrep₁⟩
    | ok _ =>
      simp only [Agrees, Answered, Simulates, true_and, run, onTable, ChronCacheHashMap.set,
        Table.set, hset, hpost, hresize]
      exact ⟨c', hrep⟩

theorem get_agrees (h : Represents hash s c m) (key : K) :
    (MapOp.get key).Agrees hash init (s, t) (m, t) := by
  simp only [Agrees, Answered, Simulates, true_and, run, onTable, ChronCacheHashMap.get, h.get key]
  exact ⟨rfl, c, h⟩

theorem getOrAdd_agrees (h : Represents hash s c m) {key : K}
    (hfit : (MapOp.getOrAdd key : MapOp K V τ).doublingFits hash init s = true) :
    (MapOp.getOrAdd key).Agrees hash init (s, t) (m, t) := by
  obtain ⟨a, d, s₁, c₁, hget, hcell, hvalue, hrep₁, -, -⟩ := h.getOrAdd init key
  have hfit₁ : s₁.needsResize = true → 2 * s₁.capacity ≤ intMax := doubling_le hget hfit
  obtain ⟨s', c', hresize, hrep, hcontains⟩ := hrep₁.maybeResize hfit₁
  -- the node is still where it was, whatever bucket it moved to
  obtain ⟨n, hn, hitem⟩ := hrep.inv.heap_of_contains ((hcontains _).mpr hcell)
  have hval : n.value = (m.getOrAdd key init).1 := (congrArg Item.value hitem).trans hvalue
  simp only [Agrees, Answered, Simulates, run, onTable, ChronCacheHashMap.getOrAdd, hget, hresize]
  simp only [hn, hval, true_and]
  exact ⟨c', hrep⟩

theorem remove_agrees (h : Represents hash s c m) (key : K) (postFn : Action τ Unit) :
    (MapOp.remove key postFn : MapOp K V τ).Agrees hash init (s, t) (m, t) := by
  cases hm : m key with
  | none =>
    simp only [Agrees, Answered, Simulates, true_and, run, onTable, ChronCacheHashMap.remove,
      Table.remove, hm, h.remove_absent hm]
    exact ⟨c, h⟩
  | some v =>
    obtain ⟨s', c', hremove, hrep, -, -⟩ := h.remove_present hm
    cases hpost : postFn t with
    | mk r t' =>
      cases r <;>
        simp only [Agrees, Answered, Simulates, true_and, run, onTable, ChronCacheHashMap.remove,
          Table.remove, hm, hremove, hpost] <;>
        exact ⟨c', hrep⟩

theorem processAndRemoveIf_agrees (h : Represents hash s c m) (key : K) (condFn : CondFn V τ) :
    (MapOp.processAndRemoveIf key condFn).Agrees hash init (s, t) (m, t) := by
  rcases h.getPtr_cases key with ⟨hptr, hnone⟩ | ⟨a, n, hptr, hn, rfl, hval, hx⟩
  · cases hcond : condFn.absent t with
    | mk r t' =>
      cases r <;>
        simp only [Agrees, Answered, Simulates, true_and, run, onTable,
          ChronCacheHashMap.processAndRemoveIf, Table.processAndRemoveIf, hptr, hnone, hcond] <;>
        exact ⟨c, h⟩
  · cases hcond : condFn.present n.value t with
    | mk r vt =>
      obtain ⟨v, t'⟩ := vt
      have hrep := h.rewrite hx hn v
      cases r with
      | error e =>
        simp only [Agrees, Answered, Simulates, true_and, run, onTable,
          ChronCacheHashMap.processAndRemoveIf, Table.processAndRemoveIf, hptr, hn, hval, hcond]
        exact ⟨_, hrep⟩
      | ok b =>
        cases b with
        | false =>
          simp only [Agrees, Answered, Simulates, true_and, run, onTable,
            ChronCacheHashMap.processAndRemoveIf, Table.processAndRemoveIf, hptr, hn, hval, hcond]
          exact ⟨_, hrep⟩
        | true =>
          obtain ⟨s', c', hremove, hrep', -, -⟩ := hrep.remove_present (Table.insert_same m n.key v)
          have herase : (m.insert n.key v).erase n.key = m.erase n.key := by
            simp [Table.insert, Table.erase]
          simp only [Agrees, Answered, Simulates, true_and, run, onTable,
            ChronCacheHashMap.processAndRemoveIf, Table.processAndRemoveIf, hptr, hn,
            hval, hcond, hremove]
          exact ⟨c', herase ▸ hrep'⟩

theorem resize_agrees (h : Represents hash s c m) (newCapacity : Int32) :
    (MapOp.resize newCapacity : MapOp K V τ).Agrees hash init (s, t) (m, t) := by
  by_cases hvalid : ValidCapacity s newCapacity
  · obtain ⟨s', c', hrun, hrep, -⟩ := h.resize hvalid
    simp only [Agrees, Answered, Simulates, run, onTable, ChronCacheHashMap.resize, hrun]
    exact ⟨⟨fun _ => rfl, fun hnot => absurd hvalid hnot⟩, trivial, c', hrep⟩
  · obtain ⟨what, hrun⟩ := resize_invalid hvalid
    simp only [Agrees, Answered, Simulates, run, onTable, ChronCacheHashMap.resize, hrun]
    exact ⟨⟨fun hval => absurd hval hvalid, fun _ => ⟨⟨what, rfl⟩, trivial⟩⟩, trivial, c, h⟩

theorem agrees {s : KVStore K V × τ} {m : Table K V × τ} (h : Simulates hash s m) {op : MapOp K V τ}
    (hfit : op.doublingFits hash init s.1 = true) : op.Agrees hash init s m := by
  obtain ⟨s, t⟩ := s
  obtain ⟨m, t'⟩ := m
  obtain ⟨ht, c, h⟩ := h
  obtain rfl : t = t' := ht
  cases op with
  | set key value postFn => exact set_agrees h hfit
  | get key => exact get_agrees h key
  | getOrAdd key => exact getOrAdd_agrees h hfit
  | remove key postFn => exact remove_agrees h key postFn
  | processAndRemoveIf key condFn => exact processAndRemoveIf_agrees h key condFn
  | resize newCapacity => exact resize_agrees h newCapacity

end MapOp

theorem KVStore.create_represents (hash : K → UInt64) {capacity : Int32}
    (hcap : ∃ k : ℕ, capacity.toInt = 2 ^ k) (threshold : ℚ) :
    ∃ s c, KVStore.create capacity threshold = .ok s ∧
      Represents hash s c (fun _ => (none : Option V)) := by
  obtain ⟨k, hk⟩ := hcap
  obtain ⟨s, hreset, hinv, -, -, -⟩ := inv_empty hash
    (s := (⟨0, threshold, .create capacity.toInt, [], [], [], fun _ => none, 0⟩ : KVStore K V)) hk
    (fun _ _ => rfl) rfl rfl
  exact ⟨s, _, by rw [KVStore.create, hreset], hinv, by simp [Holds, Contains]⟩

/-- Every table that the constructor returns is empty. -/
theorem KVStore.represents_of_create (hash : K → UInt64) {capacity : Int32} {threshold : ℚ}
    (h : KVStore.create capacity threshold = .ok s) : ∃ c, Represents hash s c (fun _ => none) := by
  by_cases hpower : isPowerOf2 capacity = true
  · obtain ⟨s', c, hcreate, hrep⟩ :=
      KVStore.create_represents (V := V) hash (isPowerOf2_iff.mp hpower) threshold
    rw [hcreate] at h
    exact ⟨c, Except.ok.inj h ▸ hrep⟩
  · rw [Bool.not_eq_true] at hpower
    simp [KVStore.create, KVStore.resetToCapacity, hpower] at h

section
variable [DecidableEq K]

def hashMapMachine (hash : K → UInt64) (init : V) :
    Machine (KVStore K V × τ) (MapOp K V τ) (Except Fault (MapResult V)) where
  step s op := op.run hash init s

def tableMachine (init : V) : Machine (Table K V × τ) (MapOp K V τ) (Except Fault (MapResult V)) where
  step m op := op.onTable init m

/-- From every power-of-two capacity and under every hash, each call of a run is answered
as by the abstract map, and the table is well formed in every state. -/
theorem hashMap_refines (hash : K → UInt64) (init : V) (threshold : ℚ) (capacity : Int32)
    (hcap : ∃ k : ℕ, capacity.toInt = 2 ^ k) (t : τ) (ops : List (MapOp K V τ)) :
    ∃ s, KVStore.create capacity threshold = .ok s ∧
      ((hashMapMachine hash init).Admits (fun s op => op.doublingFits hash init s.1 = true)
        (s, t) ops →
        ∀ pre, pre <+: ops →
          (∃ c, WellFormed hash ((hashMapMachine hash init).after (s, t) pre).1 c) ∧
          ((hashMapMachine hash init).after (s, t) pre).2 =
            ((tableMachine init).after (fun _ => none, t) pre).2 ∧
          ∀ op, pre ++ [op] <+: ops →
            op.Answered hash init ((hashMapMachine hash init).after (s, t) pre)
            ((tableMachine init).after (fun _ => none, t) pre)) := by
  obtain ⟨s, c, hcreate, hrep⟩ := KVStore.create_represents (V := V) hash hcap threshold
  refine ⟨s, hcreate, fun hadmits pre hpre => ?_⟩
  have hsim (pre : List (MapOp K V τ)) (hpre : pre <+: ops) :
      MapOp.Simulates hash ((hashMapMachine hash init).after (s, t) pre)
        ((tableMachine init).after (fun _ => none, t) pre) := by
    obtain ⟨rest, rfl⟩ := hpre
    have hok := (((hashMapMachine hash init).admits_append _ _ _ _).mp hadmits).1
    refine Machine.simulation (M := hashMapMachine hash init) (N := tableMachine init)
      (fun _ _ _ h hfit => ?_)
      ⟨rfl, c, hrep⟩ hok
    exact (MapOp.agrees h hfit).2
  obtain ⟨ht, c', hrep'⟩ := hsim pre hpre
  refine ⟨⟨c', hrep'.inv.wellFormed⟩, ht, fun op hop => ?_⟩
  obtain ⟨rest, rfl⟩ := hop
  rw [List.append_assoc] at hadmits
  have hnext := (((hashMapMachine hash init).admits_append _ _ _ _).mp hadmits).2
  exact (MapOp.agrees (hsim pre hpre) hnext.1).1

/-- Two keys in one bucket, an automatic doubling, a removal, and resizes that are
refused and accepted. -/
def sampleCalls : List (MapOp ℕ ℕ Unit) :=
  [.set 1 10 fun t => (.ok (), t), .set 2 20 fun t => (.ok (), t), .remove 1 fun t =>
    (.ok (), t), .resize 3, .getOrAdd 5, .resize 16]

theorem hashMap_refines_witness :
    ∃ s, KVStore.create 1 (3 / 4) = .ok s ∧ ∀ pre, pre <+: sampleCalls →
      (∃ c, WellFormed (fun _ => 0) ((hashMapMachine (fun _ => 0) 7).after (s, ()) pre).1 c) ∧
      ((hashMapMachine (fun _ => 0) 7).after (s, ()) pre).2 =
        ((tableMachine 7).after (fun _ => none, ()) pre).2 ∧
      ∀ op, pre ++ [op] <+: sampleCalls → op.Answered (fun _ => 0) 7
        ((hashMapMachine (fun _ => 0) 7).after (s, ()) pre)
          ((tableMachine 7).after (fun _ => none, ()) pre) := by
  obtain ⟨s, hs, h⟩ := hashMap_refines (fun _ => 0) 7 (3 / 4) 1 ⟨0, rfl⟩ () sampleCalls
  refine ⟨s, hs, h ?_⟩
  obtain rfl := Except.ok.inj hs
  exact ⟨by decide +kernel, by decide +kernel, by decide +kernel, by decide +kernel, by decide +kernel,
    by decide +kernel, trivial⟩

end
end Chrono
