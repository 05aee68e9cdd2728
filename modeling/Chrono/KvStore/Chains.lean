import Mathlib.Algebra.BigOperators.Group.Finset.Basic
import Chrono.KvStore.Store
import Chrono.Library.Chain

/-!
# The chains of the hash table

Every bucket holds a chain of nodes that ends at its tail, has its recorded length
and keeps the keys of its index only. Insertion appends to one chain and removal
takes a node out of one.
-/
namespace Chrono
open Library Library.Chain

/-- What a node holds besides its pointer. -/
structure Item (K V : Type) where
  key : K
  hashedKey : UInt64
  value : V

variable {K V : Type}

def ChronCacheNode.item (n : ChronCacheNode K V) : Item K V := ⟨n.key, n.hashedKey, n.value⟩

def nodeView : CellView (ChronCacheNode K V) Addr (Item K V) :=
  ⟨ChronCacheNode.nextInBucket, ChronCacheNode.item⟩

@[simp] theorem nodeView_next (n : ChronCacheNode K V) : nodeView.next n = n.nextInBucket := rfl

@[simp] theorem nodeView_content (n : ChronCacheNode K V) : nodeView.content n = n.item := rfl

abbrev Chain (K V : Type) := List (Addr × Item K V)

abbrev Chain.keys (l : Chain K V) : List K := l.map (fun x => x.2.key)

namespace KVStore
variable (hash : K → UInt64)

structure BucketOk (s : KVStore K V) (i : ℕ) (l : Chain K V) : Prop where
  linked : ∃ head, s.bucketHeads[i]? = some head ∧ Linked nodeView s.heap head l none
  tail : s.bucketTails[i]? = some (addrs l).getLast?
  length : s.bucketChainLengths[i]? = some (l.length : ℤ)
  placed : ∀ x ∈ l, x.2.hashedKey = hash x.2.key ∧ s.computeBucketIndex (hash x.2.key) = i
  keys : l.keys.Nodup

/-- The invariant of the table, whose buckets hold the chains `c`. -/
structure Inv (s : KVStore K V) (c : ℕ → Chain K V) : Prop where
  capacity : ∃ k ≤ 30, s.capacity = 2 ^ k
  bucket : ∀ i < s.capacity, BucketOk hash s i (c i)
  fresh : ∀ a, s.nextAddr ≤ a → s.heap a = none
  numBuckets : s.metrics.numBuckets = s.capacity
  numEntries : s.metrics.numEntries = ∑ i ∈ Finset.range s.capacity, (c i).length

def Contains (n : ℕ) (c : ℕ → Chain K V) (x : Addr × Item K V) : Prop := ∃ i < n, x ∈ c i

variable {hash} {s s' : KVStore K V} {c : ℕ → Chain K V} {i : ℕ} {l : Chain K V}

theorem computeBucketIndex_congr (h : s'.capacity = s.capacity) (hashedKey : UInt64) :
    s'.computeBucketIndex hashedKey = s.computeBucketIndex hashedKey := by
  rw [computeBucketIndex, computeBucketIndex, h]

theorem Inv.capacity_pos (h : Inv hash s c) : 0 < s.capacity := by
  obtain ⟨k, -, hk⟩ := h.capacity
  rw [hk]
  exact Nat.two_pow_pos k

theorem Inv.capacity_le (h : Inv hash s c) : s.capacity ≤ 2 ^ 30 := by
  obtain ⟨k, hk, hcap⟩ := h.capacity
  rw [hcap]
  exact Nat.pow_le_pow_right (by decide) hk

theorem Inv.index_lt (h : Inv hash s c) (hashedKey : UInt64) :
    s.computeBucketIndex hashedKey < s.capacity := by
  have hpos := h.capacity_pos
  have hlt : s.capacity < UInt64.size := lt_of_le_of_lt h.capacity_le (by decide)
  have hmask : (UInt64.ofNat s.capacity - 1).toNat = s.capacity - 1 := by
    rw [UInt64.toNat_sub_of_le]
    · rw [UInt64.toNat_ofNat_of_lt' hlt]
      rfl
    · rw [UInt64.le_iff_toNat_le, UInt64.toNat_ofNat_of_lt' hlt]
      exact hpos
  rw [computeBucketIndex, UInt64.toNat_and, hmask]
  exact lt_of_le_of_lt Nat.and_le_right (by omega)

/-- A bucket is unaffected by what happens to the others. -/
theorem BucketOk.frame (h : BucketOk hash s i l) (hcap : s'.capacity = s.capacity)
    (hheads : s'.bucketHeads[i]? = s.bucketHeads[i]?)
    (htails : s'.bucketTails[i]? = s.bucketTails[i]?)
    (hlengths : s'.bucketChainLengths[i]? = s.bucketChainLengths[i]?)
    (hheap : ∀ a ∈ addrs l, s'.heap a = s.heap a) : BucketOk hash s' i l where
  linked := by
    obtain ⟨head, hhead, hl⟩ := h.linked
    exact ⟨head, hheads.trans hhead, hl.congr hheap⟩
  tail := htails.trans h.tail
  length := hlengths.trans h.length
  placed := fun x hx => by
    rw [computeBucketIndex_congr hcap]
    exact h.placed x hx
  keys := h.keys

theorem BucketOk.mem (h : BucketOk hash s i l) {x : Addr × Item K V} (hx : x ∈ l) :
    ∃ n, s.heap x.1 = some n ∧ n.item = x.2 := by
  obtain ⟨_, -, hl⟩ := h.linked
  exact hl.mem hx

theorem BucketOk.nodup (h : BucketOk hash s i l) : (addrs l).Nodup := by
  obtain ⟨_, -, hl⟩ := h.linked
  exact hl.nodup

theorem BucketOk.slots (h : BucketOk hash s i l) :
    i < s.bucketHeads.length ∧ i < s.bucketTails.length ∧ i < s.bucketChainLengths.length := by
  obtain ⟨_, hhead, -⟩ := h.linked
  exact ⟨(List.getElem?_eq_some_iff.mp hhead).1, (List.getElem?_eq_some_iff.mp h.tail).1,
    (List.getElem?_eq_some_iff.mp h.length).1⟩

theorem Inv.index_of_mem (h : Inv hash s c) (hi : i < s.capacity) {a : Addr} (ha : a ∈ addrs (c i))
    {n : ChronCacheNode K V} (hn : s.heap a = some n) : s.computeBucketIndex (hash n.key) = i := by
  obtain ⟨x, hx, rfl⟩ := List.mem_map.mp ha
  obtain ⟨n', hn', hitem⟩ := (h.bucket i hi).mem hx
  obtain rfl : n = n' := Option.some.inj (hn.symm.trans hn')
  have hplaced := ((h.bucket i hi).placed x hx).2
  rwa [← hitem] at hplaced

theorem Inv.disjoint (h : Inv hash s c) {j : ℕ} (hi : i < s.capacity) (hj : j < s.capacity) {a : Addr}
    (ha : a ∈ addrs (c i)) (ha' : a ∈ addrs (c j)) : i = j := by
  obtain ⟨x, hx, rfl⟩ := List.mem_map.mp ha
  obtain ⟨n, hn, -⟩ := (h.bucket i hi).mem hx
  exact (h.index_of_mem hi ha hn).symm.trans (h.index_of_mem hj ha' hn)

theorem Inv.lt_nextAddr (h : Inv hash s c) (hi : i < s.capacity) {a : Addr} (ha : a ∈ addrs (c i)) :
    a < s.nextAddr := by
  obtain ⟨x, hx, rfl⟩ := List.mem_map.mp ha
  obtain ⟨n, hn, -⟩ := (h.bucket i hi).mem hx
  by_contra hle
  rw [h.fresh x.1 (not_lt.mp hle)] at hn
  cases hn

theorem Inv.length_lt_fuel (h : Inv hash s c) (hi : i < s.capacity) : (c i).length < s.fuel := by
  have hsub : addrs (c i) ⊆ List.range s.nextAddr := fun a ha =>
    List.mem_range.mpr (h.lt_nextAddr hi ha)
  have hle := (List.subperm_of_subset (h.bucket i hi).nodup hsub).length_le
  rw [List.length_map, List.length_range] at hle
  exact Nat.lt_succ_of_le hle

theorem sum_length_update (n : ℕ) (c : ℕ → Chain K V) (hi : i < n) (l : Chain K V) :
    (∑ j ∈ Finset.range n, (Function.update c i l j).length) + (c i).length =
      (∑ j ∈ Finset.range n, (c j).length) + l.length := by
  have hmem : i ∈ Finset.range n := Finset.mem_range.mpr hi
  have hupd : ∀ j ∈ (Finset.range n).erase i, (Function.update c i l j).length = (c j).length := by
    intro j hj
    rw [Function.update_of_ne (Finset.ne_of_mem_erase hj)]
  rw [← Finset.add_sum_erase _ _ hmem, ← Finset.add_sum_erase _ (fun j => (c j).length) hmem,
    Finset.sum_congr rfl hupd, Function.update_self]
  omega

theorem contains_update {n : ℕ} (hi : i < n) {x : Addr × Item K V} :
    Contains n (Function.update c i l) x ↔ x ∈ l ∨ ∃ j < n, j ≠ i ∧ x ∈ c j := by
  constructor
  · rintro ⟨j, hj, hx⟩
    by_cases hji : j = i
    · subst hji
      exact .inl (by simpa using hx)
    · exact .inr ⟨j, hj, hji, by simpa [hji] using hx⟩
  · rintro (hx | ⟨j, hj, hji, hx⟩)
    · exact ⟨i, hi, by simpa using hx⟩
    · exact ⟨j, hj, by simpa [hji] using hx⟩

/-- A new pair of head, tail and length for one bucket keeps the other buckets. -/
theorem Inv.update_bucket (h : Inv hash s c) (hi : i < s.capacity) (hcap : s'.capacity = s.capacity)
    (hnext : s'.nextAddr = s.nextAddr) (hbucket : BucketOk hash s' i l)
    (hheads : ∀ j ≠ i, s'.bucketHeads[j]? = s.bucketHeads[j]?)
    (htails : ∀ j ≠ i, s'.bucketTails[j]? = s.bucketTails[j]?)
    (hlengths : ∀ j ≠ i, s'.bucketChainLengths[j]? = s.bucketChainLengths[j]?)
    (hheap : ∀ j < s.capacity, j ≠ i → ∀ a ∈ addrs (c j), s'.heap a = s.heap a)
    (hfresh : ∀ a, s.nextAddr ≤ a → s'.heap a = none)
    (hbuckets : s'.metrics.numBuckets = s.metrics.numBuckets)
    (hentries : s'.metrics.numEntries + (c i).length = s.metrics.numEntries + l.length) :
    Inv hash s' (Function.update c i l) where
  capacity := hcap ▸ h.capacity
  bucket := fun j hj => by
    rw [hcap] at hj
    by_cases hji : j = i
    · subst hji
      simpa using hbucket
    · rw [Function.update_of_ne hji]
      exact (h.bucket j hj).frame hcap (hheads j hji) (htails j hji) (hlengths j hji) (hheap j hj hji)
  fresh := fun a ha => hfresh a (hnext ▸ ha)
  numBuckets := by rw [hbuckets, h.numBuckets, hcap]
  numEntries := by
    have hsum := sum_length_update s.capacity c hi l
    rw [h.numEntries] at hentries
    rw [hcap]
    omega

theorem insertIntoBucket_first {a : Addr} {n : ℤ} (hhead : s.bucketHeads[i]? = some none)
    (hlength : s.bucketChainLengths[i]? = some n) :
    s.insertIntoBucket i a = some { s with
      bucketHeads := s.bucketHeads.set i (some a)
      bucketTails := s.bucketTails.set i (some a)
      bucketChainLengths := s.bucketChainLengths.set i (n + 1)
      metrics := s.metrics.newElementEvent false (n + 1) } := by
  simp [KVStore.insertIntoBucket, hhead, hlength]

theorem insertIntoBucket_next {a b t : Addr} {m : ChronCacheNode K V} {n : ℤ}
    (hhead : s.bucketHeads[i]? = some (some b)) (htail : s.bucketTails[i]? = some (some t))
    (ht : s.heap t = some m) (hlength : s.bucketChainLengths[i]? = some n) :
    s.insertIntoBucket i a = some { s.write t { m with nextInBucket := some a } with
      bucketTails := s.bucketTails.set i (some a)
      bucketChainLengths := s.bucketChainLengths.set i (n + 1)
      metrics := s.metrics.newElementEvent true (n + 1) } := by
  simp [KVStore.insertIntoBucket, hhead, htail, ht, hlength, write]

/-- A node that is in no chain is appended to the chain of its key. -/
theorem Inv.insertIntoBucket (h : Inv hash s c) {a : Addr} {n : ChronCacheNode K V}
    (hn : s.heap a = some n) (hend : n.nextInBucket = none) (hhash : n.hashedKey = hash n.key)
    (hi : s.computeBucketIndex (hash n.key) = i) (hout : a ∉ addrs (c i))
    (hkey : n.key ∉ (c i).keys) :
    ∃ s', s.insertIntoBucket i a = some s' ∧
      Inv hash s' (Function.update c i (c i ++ [(a, n.item)])) ∧
      s'.capacity = s.capacity ∧ s'.loadFactorThreshold = s.loadFactorThreshold ∧
      ∀ b ∉ addrs (c i), s'.heap b = s.heap b := by
  have hlt : i < s.capacity := hi ▸ h.index_lt _
  have hb := h.bucket i hlt
  obtain ⟨head, hhead, hl⟩ := hb.linked
  obtain ⟨hheads, htails, hlengths⟩ := hb.slots
  have hkeys : (c i ++ [(a, n.item)]).keys.Nodup := by
    rw [Chain.keys, List.map_append]
    exact List.nodup_append_comm.mp (List.nodup_cons.mpr ⟨hkey, hb.keys⟩)
  have hplaced : ∀ x ∈ c i ++ [(a, n.item)],
      x.2.hashedKey = hash x.2.key ∧ s.computeBucketIndex (hash x.2.key) = i := by
    intro x hx
    rcases List.mem_append.mp hx with hx | hx
    · exact hb.placed x hx
    · rw [List.mem_singleton.mp hx]
      exact ⟨hhash, hi⟩
  rcases List.eq_nil_or_concat' (c i) with hnil | ⟨l₀, ⟨t, d⟩, hsnoc⟩
  · -- the bucket was empty: the node becomes its head and its tail
    rw [hnil] at hl hb
    obtain rfl : head = none := hl
    refine ⟨_, insertIntoBucket_first hhead hb.length, ?_, rfl, rfl, fun _ _ => rfl⟩
    refine h.update_bucket hlt rfl rfl ⟨⟨some a, ?_, ?_⟩, ?_, ?_, hplaced, hkeys⟩ ?_ ?_ ?_
      (fun _ _ _ _ _ => rfl) h.fresh (by simp) ?_
    · simp [hheads]
    · rw [hnil]
      exact ⟨rfl, n, hn, rfl, hend⟩
    · simp [htails, hnil]
    · simp [hlengths, hnil]
    · exact fun j hj => List.getElem?_set_ne (Ne.symm hj)
    · exact fun j hj => List.getElem?_set_ne (Ne.symm hj)
    · exact fun j hj => List.getElem?_set_ne (Ne.symm hj)
    · simp [hnil]
  · -- the last node of the chain is made to point to the new one
    obtain ⟨m, hm, hd⟩ := hb.mem (x := (t, d)) (by simp [hsnoc])
    have htail : s.bucketTails[i]? = some (some t) := by simp [hb.tail, hsnoc]
    obtain ⟨b, hstart⟩ : ∃ b, head = some b := by
      rw [hl.start_eq, hsnoc]
      cases l₀ <;> simp
    subst hstart
    have hta : a ≠ t := fun heq => hout (by simp [hsnoc, heq])
    have hti : t ∈ addrs (c i) := by simp [hsnoc]
    have hother : ∀ b ∉ addrs (c i), b ≠ t := fun b hb heq => hb (heq ▸ hti)
    have hlink := hl
    rw [hsnoc] at hlink
    refine ⟨_, insertIntoBucket_next hhead htail hm hb.length, ?_, rfl, rfl, fun b hb' => ?_⟩
    · refine h.update_bucket hlt rfl rfl ⟨⟨some b, hhead, ?_⟩, ?_, ?_, hplaced, hkeys⟩
        (fun _ _ => rfl) ?_ ?_
        ?_ ?_ (by simp) ?_
      · have := hlink.snoc (u := { m with nextInBucket := some a }) hm rfl rfl hn hend hta
        simpa [hsnoc] using this
      · simp [htails, hsnoc]
      · simp [hlengths]
      · exact fun j hj => List.getElem?_set_ne (Ne.symm hj)
      · exact fun j hj => List.getElem?_set_ne (Ne.symm hj)
      · intro j hj hji b hb'
        exact Function.update_of_ne (hother b fun hmem => hji (h.disjoint hj hlt hb' hmem)) _ _
      · intro b hle
        have hbt : b ≠ t := fun heq => absurd (h.lt_nextAddr hlt hti) (not_lt.mpr (heq ▸ hle))
        exact (Function.update_of_ne hbt _ _).trans (h.fresh b hle)
      · simp only [ChronCacheHashMapMetrics.newElementEvent_numEntries, List.length_append,
          List.length_singleton]
        omega
    · exact Function.update_of_ne (hother b hb') _ _

section
variable {l₁ l₂ : Chain K V} {a : Addr} {d : Item K V}

theorem unlinkFromBucketChain_first {n : ChronCacheNode K V} {k : ℤ} (hn : s.heap a = some n)
    (hlength : s.bucketChainLengths[i]? = some k) :
    s.unlinkFromBucketChain a none i = some { s with
      bucketHeads := s.bucketHeads.set i n.nextInBucket
      bucketTails := if n.nextInBucket = none then s.bucketTails.set i none else s.bucketTails
      bucketChainLengths := s.bucketChainLengths.set i (k - 1) } := by
  simp [unlinkFromBucketChain, hn, hlength]

theorem unlinkFromBucketChain_next {t : Addr} {n m : ChronCacheNode K V} {k : ℤ}
    (hn : s.heap a = some n) (ht : s.heap t = some m) (hlength : s.bucketChainLengths[i]? = some k) :
    s.unlinkFromBucketChain a (some t) i =
      some { s.write t { m with nextInBucket := n.nextInBucket } with
      bucketTails := if n.nextInBucket = none then s.bucketTails.set i (some t) else s.bucketTails
      bucketChainLengths := s.bucketChainLengths.set i (k - 1) } := by
  simp [unlinkFromBucketChain, hn, ht, hlength, write]

/-- The tail moves only when the last node leaves. -/
theorem tail_unlink {tails : List (Option Addr)} {next : Option Addr}
    (htail : tails[i]? = some (addrs (l₁ ++ (a, d) :: l₂)).getLast?)
    (hrest : Linked nodeView s.heap next l₂ none) :
    (if next = none then tails.set i (addrs l₁).getLast? else tails)[i]? =
      some (addrs (l₁ ++ l₂)).getLast? := by
  have hlt : i < tails.length := (List.getElem?_eq_some_iff.mp htail).1
  rw [hrest.start_eq]
  cases l₂ with
  | nil => simp [hlt]
  | cons y l₂ => simpa using htail

theorem tail_unlink_other {tails : List (Option Addr)} {next prev : Option Addr} {j : ℕ}
    (hj : j ≠ i) :
    (if next = none then tails.set i prev else tails)[j]? = tails[j]? := by
  split_ifs
  · exact List.getElem?_set_ne (Ne.symm hj)
  · rfl

/-- A node leaves its chain and is freed. -/
theorem Inv.unlinkFromBucketChain (h : Inv hash s c) (hi : i < s.capacity)
    (hc : c i = l₁ ++ (a, d) :: l₂) :
    ∃ s', s.unlinkFromBucketChain a (addrs l₁).getLast? i = some s' ∧
      Inv hash
        { s' with heap := Function.update s'.heap a none, metrics := s'.metrics.removeElementEvent }
        (Function.update c i (l₁ ++ l₂)) ∧
      s'.capacity = s.capacity ∧ s'.loadFactorThreshold = s.loadFactorThreshold := by
  have hb := h.bucket i hi
  obtain ⟨head, hhead, hl⟩ := hb.linked
  obtain ⟨hheads, -, hlengths⟩ := hb.slots
  have hnodup := hb.nodup
  have htail := hb.tail
  rw [hc] at hl hnodup htail
  obtain ⟨-, n, hn, -, hrest⟩ := hl.split
  have hsub : (l₁ ++ l₂).Sublist (c i) := by simp [hc]
  have hkeys : (l₁ ++ l₂).keys.Nodup := hb.keys.sublist (hsub.map _)
  have hplaced : ∀ x ∈ l₁ ++ l₂, x.2.hashedKey = hash x.2.key ∧
      s.computeBucketIndex (hash x.2.key) = i :=
    fun x hx => hb.placed x (hsub.subset hx)
  have hgone : a ∉ addrs (l₁ ++ l₂) := by
    rw [addrs, List.map_append, List.map_cons, List.nodup_middle, ← List.map_append] at hnodup
    exact (List.nodup_cons.mp hnodup).1
  have hown : ∀ b, b ∉ addrs (c i) → b ≠ a := fun b hb heq => hb (by simp [hc, heq])
  have hother : ∀ j < s.capacity, j ≠ i → ∀ b ∈ addrs (c j), b ∉ addrs (c i) :=
    fun j hj hji b hb hmem => hji (h.disjoint hj hi hb hmem)
  have hfree : ∀ b, s.nextAddr ≤ b → b ∉ addrs (c i) :=
    fun b hle hmem => absurd (h.lt_nextAddr hi hmem) (not_lt.mpr hle)
  rcases List.eq_nil_or_concat' l₁ with rfl | ⟨l₀, ⟨t, e⟩, rfl⟩
  · -- the first node leaves: the head moves on
    refine ⟨_, unlinkFromBucketChain_first hn hb.length, ?_, rfl, rfl⟩
    refine h.update_bucket hi rfl rfl ⟨⟨n.nextInBucket, ?_, ?_⟩, ?_, ?_, hplaced,
      hkeys⟩ ?_ ?_ ?_ ?_ ?_ rfl ?_
    · simp [hheads]
    · exact hrest.congr fun b hb' => Function.update_of_ne
        (fun heq => hgone (by simpa [heq] using hb')) _ _
    · exact tail_unlink htail hrest
    · simp [hlengths, hc]
    · exact fun j hj => List.getElem?_set_ne (Ne.symm hj)
    · exact fun j hj => tail_unlink_other hj
    · exact fun j hj => List.getElem?_set_ne (Ne.symm hj)
    · exact fun j hj hji b hb' => Function.update_of_ne (hown b (hother j hj hji b hb')) _ _
    · exact fun b hle => (Function.update_of_ne (hown b (hfree b hle)) _ _).trans (h.fresh b hle)
    · simp [hc]
  · -- the node before it skips it
    obtain ⟨m, hm, -⟩ := hb.mem (x := (t, e)) (by simp [hc])
    have hprev : (addrs (l₀ ++ [(t, e)])).getLast? = some t := by simp
    have ht : t ∈ addrs (c i) := by simp [hc]
    have hta : t ≠ a := fun heq => hgone (by simp [heq])
    have hout : ∀ b ∉ addrs (c i), b ≠ t := fun b hb heq => hb (heq ▸ ht)
    rw [hprev]
    refine ⟨_, unlinkFromBucketChain_next hn hm hb.length, ?_, rfl, rfl⟩
    refine h.update_bucket hi rfl rfl ⟨⟨head, hhead, ?_⟩, ?_, ?_, hplaced, hkeys⟩
      (fun _ _ => rfl) ?_ ?_ ?_ ?_ rfl ?_
    · rw [List.append_assoc] at hl ⊢
      have hlink := hl.unlink (u := { m with nextInBucket := n.nextInBucket }) hm rfl hn rfl
      refine hlink.congr fun b hb' => Function.update_of_ne (fun heq => hgone ?_) _ _
      simpa [heq] using hb'
    · rw [← hprev]
      exact tail_unlink htail hrest
    · simp [hlengths, hc]
      omega
    · exact fun j hj => tail_unlink_other hj
    · exact fun j hj => List.getElem?_set_ne (Ne.symm hj)
    · intro j hj hji b hb'
      have hb' := hother j hj hji b hb'
      exact (Function.update_of_ne (hown b hb') _ _).trans (Function.update_of_ne (hout b hb') _ _)
    · intro b hle
      have hb' := hfree b hle
      exact ((Function.update_of_ne (hown b hb') _ _).trans
        (Function.update_of_ne (hout b hb') _ _)).trans
        (h.fresh b hle)
    · simp [hc, write]
      omega

end

def rewrite (a : Addr) (d : Item K V) (l : Chain K V) : Chain K V :=
  l.map fun x => if x.1 = a then (a, d) else x

theorem addrs_rewrite (a : Addr) (d : Item K V) (l : Chain K V) :
    addrs (rewrite a d l) = addrs l := by
  rw [addrs, rewrite, List.map_map]
  apply List.map_congr_left
  intro x _
  by_cases hx : x.1 = a <;> simp [hx]

theorem BucketOk.rewrite (h : BucketOk hash s i l) {a : Addr} {n : ChronCacheNode K V}
    (hn : s.heap a = some n) (v : V) :
    BucketOk hash (s.write a { n with value := v }) i (rewrite a { n.item with value := v } l) := by
  obtain ⟨head, hhead, hl⟩ := h.linked
  have hitem : ∀ x ∈ l, x.1 = a → x.2 = n.item := by
    rintro x hx rfl
    obtain ⟨n', hn', hitem⟩ := h.mem hx
    rw [← hitem, Option.some.inj (hn.symm.trans hn')]
  have hkeys : (KVStore.rewrite a { n.item with value := v } l).keys = l.keys := by
    rw [Chain.keys, KVStore.rewrite, List.map_map]
    apply List.map_congr_left
    intro x hx
    by_cases hxa : x.1 = a
    · simp [hxa, hitem x hx hxa]
    · simp [hxa]
  have hlink := hl.overwrite (u := ({ n with value := v } : ChronCacheNode K V)) hn rfl
  refine ⟨⟨head, hhead, hlink⟩, ?_, ?_, fun x hx => ?_, hkeys ▸ h.keys⟩
  · rw [addrs_rewrite]
    exact h.tail
  · rw [KVStore.rewrite, List.length_map]
    exact h.length
  · obtain ⟨y, hy, rfl⟩ := List.mem_map.mp hx
    have hplaced := h.placed y hy
    by_cases hya : y.1 = a
    · rw [hitem y hy hya] at hplaced
      simpa [hya] using hplaced
    · simpa [hya] using hplaced

theorem Inv.rewrite (h : Inv hash s c) {a : Addr} {n : ChronCacheNode K V} (hn : s.heap a = some n)
    (v : V) :
    Inv hash (s.write a { n with value := v })
      (fun j => KVStore.rewrite a { n.item with value := v } (c j)) where
  capacity := h.capacity
  bucket := fun j hj => (h.bucket j hj).rewrite hn v
  fresh := fun b hb => by
    have hba : b ≠ a := by
      rintro rfl
      simp [h.fresh b hb] at hn
    exact (Function.update_of_ne hba _ _).trans (h.fresh b hb)
  numBuckets := h.numBuckets
  numEntries := by
    simp only [KVStore.rewrite, List.length_map]
    exact h.numEntries

end KVStore
end Chrono
