import Mathlib.Algebra.Order.Ring.Int
import Chrono.KvStore.Contents

/-!
# Resizing the hash table

A resize gathers the nodes of all buckets and appends each to the bucket that its
hash has under the new capacity. It moves cells and changes none.
-/
namespace Chrono
open Library Library.Chain

/-- The bit trick of the source, on positive `int`s. -/
theorem isPowerOf2_iff {n : Int32} : isPowerOf2 n = true ↔ ∃ k : ℕ, n.toInt = 2 ^ k := by
  rw [isPowerOf2, Bool.and_eq_true, decide_eq_true_eq, beq_iff_eq, Int32.lt_iff_toInt_lt,
    Int32.toInt_zero]
  by_cases hpos : 0 < n.toInt
  · have hnat : n.toInt = n.toBitVec.toNat := by
      rw [← Int32.toInt_toBitVec, BitVec.toInt_eq_toNat_cond] at hpos ⊢
      have hlt := n.toBitVec.isLt
      split_ifs at hpos ⊢
      · rfl
      · omega
    have hne : n.toBitVec.toNat ≠ 0 := by omega
    have hpred : (n - 1).toBitVec.toNat = n.toBitVec.toNat - 1 := by
      rw [Int32.toBitVec_sub, BitVec.toNat_sub_of_le]
      · rfl
      · exact Nat.one_le_iff_ne_zero.mpr hne
    have hand : n &&& (n - 1) = 0 ↔ n.toBitVec.toNat &&& (n.toBitVec.toNat - 1) = 0 := by
      rw [← Int32.toBitVec_inj, ← BitVec.toNat_inj, Int32.toBitVec_and, BitVec.toNat_and, hpred]
      rfl
    rw [and_iff_right hpos, hand, Nat.and_sub_one_eq_zero_iff_isPowerOfTwo hne, hnat]
    exact exists_congr fun k => by norm_cast
  · refine iff_of_false (fun h => hpos h.1) ?_
    rintro ⟨k, hk⟩
    exact hpos (hk ▸ pow_pos (by decide) k)

namespace KVStore
variable {K V : Type} {hash : K → UInt64} {s s' : KVStore K V} {c : ℕ → Chain K V} {m : Table K V}

theorem collectFrom_eq {l : Chain K V} {p : Option Addr} {fuel : ℕ}
    (hl : Linked nodeView s.heap p l none) (hfuel : l.length < fuel) :
    s.collectFrom fuel p = some (addrs l) := by
  induction l generalizing p fuel with
  | nil =>
    obtain rfl : p = none := hl
    obtain ⟨fuel, rfl⟩ := Nat.exists_eq_succ_of_ne_zero (Nat.ne_of_gt hfuel)
    rfl
  | cons x l ih =>
    obtain ⟨a, d⟩ := x
    obtain ⟨rfl, n, hn, rfl, hrest⟩ := hl
    obtain ⟨fuel, rfl⟩ := Nat.exists_eq_succ_of_ne_zero (Nat.ne_of_gt (Nat.zero_lt_of_lt hfuel))
    have hrec := ih hrest (Nat.lt_of_succ_lt_succ hfuel)
    simp only [nodeView_next] at hrec
    simp [collectFrom, hn, hrec]

theorem Inv.collectNodes_eq (h : Inv hash s c) (is : List ℕ) (his : ∀ i ∈ is, i < s.capacity) :
    s.collectNodes is = some (addrs (is.flatMap c)) := by
  induction is with
  | nil => rfl
  | cons i is ih =>
    have hi := his i (by simp)
    obtain ⟨head, hhead, hl⟩ := (h.bucket i hi).linked
    have hrest := ih fun j hj => his j (by simp [hj])
    simp [KVStore.collectNodes, hhead, collectFrom_eq hl (h.length_lt_fuel hi), hrest]

/-- Cells that wait for their bucket. -/
structure Pending (hash : K → UInt64) (s : KVStore K V) (c : ℕ → Chain K V) (l : Chain K V) :
    Prop where
  distinct : (addrs l).Nodup
  keys : l.keys.Nodup
  cells : ∀ x ∈ l, ∃ n, s.heap x.1 = some n ∧ n.item = x.2
  hashed : ∀ x ∈ l, x.2.hashedKey = hash x.2.key
  apart : ∀ x ∈ l, ∀ y, Contains s.capacity c y → x.1 ≠ y.1 ∧ x.2.key ≠ y.2.key

theorem Inv.write (h : Inv hash s c) {a : Addr} {n : ChronCacheNode K V} (hn : s.heap a = some n)
    (hout : ∀ j < s.capacity, a ∉ addrs (c j)) (n' : ChronCacheNode K V) :
    Inv hash (s.write a n') c where
  capacity := h.capacity
  bucket := fun j hj => (h.bucket j hj).frame rfl rfl rfl rfl fun b hb =>
    Function.update_of_ne (fun heq => hout j hj (by rw [← heq]; exact hb)) _ _
  fresh := fun b hb => by
    have hba : b ≠ a := by
      rintro rfl
      simp [h.fresh b hb] at hn
    exact (Function.update_of_ne hba _ _).trans (h.fresh b hb)
  numBuckets := h.numBuckets
  numEntries := h.numEntries

theorem Pending.step (h : Inv hash s c) {x : Addr × Item K V} {l : Chain K V}
    (hp : Pending hash s c (x :: l)) :
    ∃ n s' c', s.heap x.1 = some n ∧
      (s.write x.1 { n with nextInBucket := none }).insertIntoBucket
        (s.computeBucketIndex n.hashedKey) x.1 = some s' ∧
      Inv hash s' c' ∧ Pending hash s' c' l ∧ s'.capacity = s.capacity ∧
      s'.loadFactorThreshold = s.loadFactorThreshold ∧
      ∀ y, Contains s'.capacity c' y ↔ Contains s.capacity c y ∨ y = x := by
  obtain ⟨a, d⟩ := x
  obtain ⟨n, hn, rfl⟩ := hp.cells _ List.mem_cons_self
  have hhash : n.hashedKey = hash n.key := hp.hashed _ List.mem_cons_self
  have hi := h.index_lt (hash n.key)
  have hout : ∀ j < s.capacity, a ∉ addrs (c j) := by
    intro j hj hmem
    obtain ⟨y, hy, heq⟩ := List.mem_map.mp hmem
    exact (hp.apart _ List.mem_cons_self y ⟨j, hj, hy⟩).1 heq.symm
  have hkey : n.key ∉ (c (s.computeBucketIndex (hash n.key))).keys := by
    intro hmem
    obtain ⟨y, hy, heq⟩ := List.mem_map.mp hmem
    exact (hp.apart _ List.mem_cons_self y (h.contains_of_mem hy)).2 heq.symm
  have hcell : (s.write a { n with nextInBucket := none }).heap a =
      some { n with nextInBucket := none } := by simp
  obtain ⟨s', hrun, hinv, hcap, hthreshold, hheap⟩ :=
    (h.write hn hout { n with nextInBucket := none }).insertIntoBucket hcell rfl hhash rfl
      (hout _ hi) hkey
  have hcontains (y : Addr × Item K V) : Contains s'.capacity
      (Function.update c (s.computeBucketIndex (hash n.key))
        (c (s.computeBucketIndex (hash n.key)) ++ [(a, n.item)])) y ↔
        Contains s.capacity c y ∨ y = (a, n.item) := by
    rw [hcap]
    exact contains_snoc hi
  refine ⟨n, s', _, hn, hhash ▸ hrun, hinv, ⟨?_, ?_, fun y hy => ?_, ?_, fun y hy z hz => ?_⟩, hcap,
    hthreshold, hcontains⟩
  · exact (List.nodup_cons.mp hp.distinct).2
  · exact (List.nodup_cons.mp hp.keys).2
  · -- the cells that still wait are not those that were written to
    obtain ⟨n', hn', hitem⟩ := hp.cells y (List.mem_cons_of_mem _ hy)
    have hya : y.1 ≠ a := fun heq =>
      (List.nodup_cons.mp hp.distinct).1 (List.mem_map.mpr ⟨y, hy, heq⟩)
    have hyout : y.1 ∉ addrs (c (s.computeBucketIndex (hash n.key))) := by
      intro hmem
      obtain ⟨z, hz, heq⟩ := List.mem_map.mp hmem
      exact (hp.apart y (List.mem_cons_of_mem _ hy) z (h.contains_of_mem hz)).1 heq.symm
    exact ⟨n', (hheap y.1 hyout).trans ((Function.update_of_ne hya _ _).trans hn'), hitem⟩
  · exact fun y hy => hp.hashed y (List.mem_cons_of_mem _ hy)
  · rcases (hcontains z).mp hz with hz | rfl
    · exact hp.apart y (List.mem_cons_of_mem _ hy) z hz
    · exact ⟨fun heq => (List.nodup_cons.mp hp.distinct).1 (List.mem_map.mpr ⟨y, hy, heq⟩),
        fun heq => (List.nodup_cons.mp hp.keys).1 (List.mem_map.mpr ⟨y, hy, heq⟩)⟩

theorem Pending.rehash (h : Inv hash s c) {l : Chain K V} (hp : Pending hash s c l) :
    ∃ s' c', s.rehash (addrs l) = some s' ∧ Inv hash s' c' ∧ s'.capacity = s.capacity ∧
      s'.loadFactorThreshold = s.loadFactorThreshold ∧
      ∀ y, Contains s'.capacity c' y ↔ Contains s.capacity c y ∨ y ∈ l := by
  induction l generalizing s c with
  | nil => exact ⟨s, c, rfl, h, rfl, rfl, by simp⟩
  | cons x l ih =>
    obtain ⟨n, s₁, c₁, hn, hins, hinv₁, hp₁, hcap₁, hthreshold₁, hcontains₁⟩ := hp.step h
    obtain ⟨s', c', hrun, hinv, hcap, hthreshold, hcontains⟩ := ih hinv₁ hp₁
    refine ⟨s', c', ?_, hinv, hcap.trans hcap₁, hthreshold.trans hthreshold₁, fun y => ?_⟩
    · simp [KVStore.rehash, hn, hins, hrun]
    · rw [hcontains, hcontains₁, List.mem_cons, or_assoc]

def ValidCapacity (s : KVStore K V) (n : Int32) : Prop :=
  s.capacity < n.toInt ∧ ∃ k : ℕ, n.toInt = 2 ^ k

theorem toNatClampNeg_eq {n : Int32} {k : ℕ} (hk : n.toInt = 2 ^ k) :
    k ≤ 30 ∧ n.toNatClampNeg = 2 ^ k := by
  have hnat : n.toNatClampNeg = 2 ^ k := by
    rw [Int32.toNatClampNeg, hk]
    norm_cast
  have hlt : 2 ^ k < 2 ^ 31 := hnat ▸ n.toNatClampNeg_lt
  exact ⟨Nat.le_of_lt_succ ((Nat.pow_lt_pow_iff_right (by decide)).mp hlt), hnat⟩

theorem resetToCapacity_valid {n : Int32} (h : isPowerOf2 n = true) :
    resetToCapacity n s = (.ok (), { s with
    capacity := n.toNatClampNeg
    bucketHeads := List.replicate n.toNatClampNeg none
    bucketTails := List.replicate n.toNatClampNeg none
    bucketChainLengths := List.replicate n.toNatClampNeg 0 }) := by
  rw [resetToCapacity, if_neg (by simp [h])]

theorem inv_empty (hash : K → UInt64) {n : Int32} {k : ℕ} (hk : n.toInt = 2 ^ k)
    (hfresh : ∀ a, s.nextAddr ≤ a → s.heap a = none) (hbuckets : s.metrics.numBuckets = n.toInt)
    (hentries : s.metrics.numEntries = 0) :
    ∃ s', resetToCapacity n s = (.ok (), s') ∧ Inv hash s' (fun _ => []) ∧ s'.capacity = 2 ^ k ∧
      s'.loadFactorThreshold = s.loadFactorThreshold ∧ s'.heap = s.heap := by
  obtain ⟨hle, hnat⟩ := toNatClampNeg_eq hk
  refine ⟨_, resetToCapacity_valid (isPowerOf2_iff.mpr ⟨k, hk⟩), ?_, hnat, rfl, rfl⟩
  refine ⟨⟨k, hle, hnat⟩, fun i hi => ?_, hfresh, ?_, by simp [hentries]⟩
  · replace hi : i < n.toNatClampNeg := hi
    exact ⟨⟨none, by simp [hi], rfl⟩, by simp [hi], by simp [hi], by simp, by simp⟩
  · rw [hbuckets, hk, hnat]
    norm_cast

theorem resize_invalid {n : Int32} (h : ¬ ValidCapacity s n) :
    ∃ what, resize n s = (.error (.exception what), s) := by
  by_cases hle : n.toInt ≤ s.capacity
  · exact ⟨_, by rw [resize, if_pos hle]⟩
  · have hpow : isPowerOf2 n = false := by
      rw [Bool.eq_false_iff, ne_eq, isPowerOf2_iff]
      exact fun hk => h ⟨not_le.mp hle, hk⟩
    exact ⟨_, by rw [resize, if_neg hle, if_pos hpow]⟩

/-- All cells wait for their bucket in the emptied table. -/
theorem Inv.pending (h : Inv hash s c) (hheap : s'.heap = s.heap) :
    Pending hash s' (fun _ => []) ((List.range s.capacity).flatMap c) := by
  have hmem {x : Addr × Item K V} :
      x ∈ (List.range s.capacity).flatMap c ↔ Contains s.capacity c x := by
    simp [Contains]
  refine ⟨?_, ?_, fun x hx => ?_, fun x hx => ?_, fun x _ y hy => ?_⟩
  · rw [addrs, List.map_flatMap, List.nodup_flatMap]
    refine ⟨fun i hi => (h.bucket i (List.mem_range.mp hi)).nodup, ?_⟩
    refine List.nodup_range.pairwise_of_forall_ne fun i hi j hj hij a ha ha' => hij ?_
    exact h.disjoint (List.mem_range.mp hi) (List.mem_range.mp hj) ha ha'
  · rw [Chain.keys, List.map_flatMap, List.nodup_flatMap]
    refine ⟨fun i hi => (h.bucket i (List.mem_range.mp hi)).keys, ?_⟩
    refine List.nodup_range.pairwise_of_forall_ne fun i hi j hj hij key hkey hkey' => hij ?_
    obtain ⟨x, hx, rfl⟩ := List.mem_map.mp hkey
    obtain ⟨y, hy, heq⟩ := List.mem_map.mp hkey'
    have hxi := ((h.bucket i (List.mem_range.mp hi)).placed x hx).2
    have hyj := ((h.bucket j (List.mem_range.mp hj)).placed y hy).2
    rw [← hxi, ← hyj, heq]
  · obtain ⟨n, hn, hitem⟩ := h.heap_of_contains (hmem.mp hx)
    exact ⟨n, (congrFun hheap x.1).trans hn, hitem⟩
  · obtain ⟨i, hi, hx⟩ := hmem.mp hx
    exact ((h.bucket i hi).placed x hx).1
  · obtain ⟨i, -, hy⟩ := hy
    cases hy

theorem Represents.resize (h : Represents hash s c m) {n : Int32} (hn : ValidCapacity s n) :
    ∃ s' c', KVStore.resize n s = (.ok (), s') ∧ Represents hash s' c' m ∧
      (s'.capacity : ℤ) = n.toInt ∧ s'.loadFactorThreshold = s.loadFactorThreshold ∧
      ∀ x, Contains s'.capacity c' x ↔ Contains s.capacity c x := by
  obtain ⟨hlt, k, hk⟩ := hn
  have hcollect := h.inv.collectNodes_eq (List.range s.capacity) fun i hi => List.mem_range.mp hi
  obtain ⟨metrics, hmetrics, hbuckets, hentries⟩ : ∃ metrics,
      ChronCacheHashMapMetrics.resizeEventTriggered s.capacity n.toInt s.metrics = (.ok (), metrics) ∧
        metrics.numBuckets = n.toInt ∧ metrics.numEntries = 0 :=
    ⟨_, by rw [ChronCacheHashMapMetrics.resizeEventTriggered, if_neg (by simp [h.inv.numBuckets])], rfl, rfl⟩
  obtain ⟨s₁, hreset, hinv₁, hcap₁, hthreshold₁, hheap₁⟩ :=
    inv_empty hash (s := { s with metrics := metrics }) hk h.inv.fresh hbuckets hentries
  obtain ⟨s', c', hrehash, hinv, hcap, hthreshold, hcontains⟩ := (h.inv.pending hheap₁).rehash hinv₁
  have hsame (x : Addr × Item K V) : Contains s'.capacity c' x ↔ Contains s.capacity c x := by
    rw [hcontains]
    simp [Contains]
  refine ⟨s', c', ?_, ⟨hinv, fun key v => ?_⟩, ?_, hthreshold.trans hthreshold₁, hsame⟩
  · rw [KVStore.resize, if_neg (not_le.mpr hlt), if_neg (by simp [isPowerOf2_iff.mpr ⟨k, hk⟩])]
    simp [hcollect, hmetrics, hreset, hrehash]
  · simp only [hsame]
    exact h.holds key v
  · rw [hcap, hcap₁, hk]
    norm_cast

end KVStore
end Chrono
