import Chrono.KvStore.Chains
import Chrono.KvStore.Table

/-!
# The hash table as a map

The cells of all chains are the entries of a map. Lookup, insertion, overwriting
and removal on the table are those of the map.
-/
namespace Chrono
open Library Library.Chain

namespace KVStore
variable {K V : Type} {hash : K → UInt64} {s s' : KVStore K V} {c : ℕ → Chain K V} {m : Table K V}

/-- The cells of the first `n` buckets are the entries of the map. -/
def Holds (n : ℕ) (c : ℕ → Chain K V) (m : Table K V) : Prop :=
  ∀ key v, m key = some v ↔ ∃ x, Contains n c x ∧ x.2.key = key ∧ x.2.value = v

/-- A well-formed table that holds the map. -/
structure Represents (hash : K → UInt64) (s : KVStore K V) (c : ℕ → Chain K V) (m : Table K V) :
    Prop where
  inv : Inv hash s c
  holds : Holds s.capacity c m

theorem Inv.mem_index (h : Inv hash s c) {x : Addr × Item K V} (hx : Contains s.capacity c x) :
    x ∈ c (s.computeBucketIndex (hash x.2.key)) := by
  obtain ⟨i, hi, hx⟩ := hx
  rwa [((h.bucket i hi).placed x hx).2]

theorem Inv.contains_of_mem (h : Inv hash s c) {key : K} {x : Addr × Item K V}
    (hx : x ∈ c (s.computeBucketIndex (hash key))) : Contains s.capacity c x :=
  ⟨_, h.index_lt _, hx⟩

theorem Inv.eq_of_key (h : Inv hash s c) {x y : Addr × Item K V} (hx : Contains s.capacity c x)
    (hy : Contains s.capacity c y) (hkey : x.2.key = y.2.key) : x = y := by
  have hx := h.mem_index hx
  have hy := h.mem_index hy
  rw [hkey] at hx
  exact List.inj_on_of_nodup_map (h.bucket _ (h.index_lt _)).keys hx hy hkey

theorem Inv.eq_of_addr (h : Inv hash s c) {x y : Addr × Item K V} (hx : Contains s.capacity c x)
    (hy : Contains s.capacity c y) (haddr : x.1 = y.1) : x = y := by
  obtain ⟨i, hi, hx⟩ := hx
  obtain ⟨j, hj, hy⟩ := hy
  obtain rfl : i = j := h.disjoint hi hj (List.mem_map_of_mem hx) (haddr ▸ List.mem_map_of_mem hy)
  exact List.inj_on_of_nodup_map (h.bucket i hi).nodup hx hy haddr

theorem Inv.heap_of_contains (h : Inv hash s c) {x : Addr × Item K V} (hx : Contains s.capacity c x) :
    ∃ n, s.heap x.1 = some n ∧ n.item = x.2 := by
  obtain ⟨i, hi, hx⟩ := hx
  exact (h.bucket i hi).mem hx

theorem Represents.eq_some (h : Represents hash s c m) {x : Addr × Item K V}
    (hx : Contains s.capacity c x) :
    m x.2.key = some x.2.value := (h.holds _ _).mpr ⟨x, hx, rfl, rfl⟩

theorem Represents.eq_none (h : Represents hash s c m) {key : K} :
    m key = none ↔ key ∉ (c (s.computeBucketIndex (hash key))).keys := by
  rw [Option.eq_none_iff_forall_ne_some]
  constructor
  · intro hnone hmem
    obtain ⟨x, hx, rfl⟩ := List.mem_map.mp hmem
    exact hnone _ (h.eq_some (h.inv.contains_of_mem hx))
  · rintro hnot v hv
    obtain ⟨x, hx, rfl, -⟩ := (h.holds key v).mp hv
    exact hnot (List.mem_map_of_mem (f := fun x => x.2.key) (h.inv.mem_index hx))

theorem contains_snoc {n i : ℕ} (hi : i < n) {x y : Addr × Item K V} :
    Contains n (Function.update c i (c i ++ [x])) y ↔ Contains n c y ∨ y = x := by
  rw [contains_update hi, List.mem_append, List.mem_singleton]
  constructor
  · rintro ((hy | rfl) | ⟨j, hj, -, hy⟩)
    · exact .inl ⟨i, hi, hy⟩
    · exact .inr rfl
    · exact .inl ⟨j, hj, hy⟩
  · rintro (⟨j, hj, hy⟩ | rfl)
    · by_cases hji : j = i
      · exact .inl (.inl (hji ▸ hy))
      · exact .inr ⟨j, hj, hji, hy⟩
    · exact .inl (.inr rfl)

theorem Inv.contains_unlink (h : Inv hash s c) {i : ℕ} (hi : i < s.capacity) {l₁ l₂ : Chain K V}
    {x y : Addr × Item K V} (hc : c i = l₁ ++ x :: l₂) :
    Contains s.capacity (Function.update c i (l₁ ++ l₂)) y ↔ Contains s.capacity c y ∧ y ≠ x := by
  rw [contains_update hi]
  have hnodup : (l₁ ++ x :: l₂).Nodup := hc ▸ (h.bucket i hi).nodup.of_map
  rw [List.nodup_middle] at hnodup
  constructor
  · rintro (hy | ⟨j, hj, hji, hy⟩)
    · refine ⟨⟨i, hi,
        by rw [hc, List.mem_append, List.mem_cons]; exact (List.mem_append.mp hy).imp id .inr⟩, ?_⟩
      rintro rfl
      exact (List.nodup_cons.mp hnodup).1 hy
    · constructor
      · exact ⟨j, hj, hy⟩
      · rintro rfl
        exact hji (h.disjoint hj hi (List.mem_map_of_mem hy) (List.mem_map_of_mem (by simp [hc])))
  · rintro ⟨⟨j, hj, hy⟩, hne⟩
    by_cases hji : j = i
    · subst hji
      rw [hc, List.mem_append, List.mem_cons] at hy
      rcases hy with hy | hy | hy
      · exact .inl (List.mem_append_left _ hy)
      · exact absurd hy hne
      · exact .inl (List.mem_append_right _ hy)
    · exact .inr ⟨j, hj, hji, hy⟩

theorem contains_rewrite {n : ℕ} {a : Addr} {d : Item K V} {y : Addr × Item K V} :
    Contains n (fun j => rewrite a d (c j)) y ↔ ∃ x, Contains n c x ∧
    y = if x.1 = a then (a, d) else x := by
  constructor
  · rintro ⟨j, hj, hy⟩
    obtain ⟨x, hx, rfl⟩ := List.mem_map.mp hy
    exact ⟨x, ⟨j, hj, hx⟩, rfl⟩
  · rintro ⟨x, ⟨j, hj, hx⟩, rfl⟩
    exact ⟨j, hj, List.mem_map_of_mem hx⟩

variable [DecidableEq K]

theorem Holds.snoc {n i : ℕ} (h : Holds n c m) (hi : i < n) {x : Addr × Item K V}
    (hnone : m x.2.key = none) :
    Holds n (Function.update c i (c i ++ [x])) (m.insert x.2.key x.2.value) := by
  intro key v
  simp only [contains_snoc hi]
  by_cases hkey : key = x.2.key
  · subst hkey
    rw [Table.insert_same, Option.some.injEq]
    constructor
    · rintro rfl
      exact ⟨x, .inr rfl, rfl, rfl⟩
    · rintro ⟨y, hy | rfl, hkey, hv⟩
      · have := (h x.2.key v).mpr ⟨y, hy, hkey, hv⟩
        simp [hnone] at this
      · exact hv
  · rw [Table.insert_other _ _ hkey, h key v]
    refine exists_congr fun y => and_congr_left fun hy => ?_
    rw [or_iff_left]
    rintro rfl
    exact hkey hy.1.symm

theorem Represents.unlink_holds (h : Represents hash s c m) {i : ℕ} (hi : i < s.capacity)
    {l₁ l₂ : Chain K V} {x : Addr × Item K V} (hc : c i = l₁ ++ x :: l₂) :
    Holds s.capacity (Function.update c i (l₁ ++ l₂)) (m.erase x.2.key) := by
  have hx : Contains s.capacity c x := ⟨i, hi, by simp [hc]⟩
  intro key v
  simp only [h.inv.contains_unlink hi hc]
  by_cases hkey : key = x.2.key
  · subst hkey
    rw [Table.erase_same]
    constructor
    · intro h
      cases h
    · rintro ⟨y, ⟨hy, hne⟩, hkey, -⟩
      exact absurd (h.inv.eq_of_key hy hx hkey) hne
  · rw [Table.erase_other _ hkey, h.holds key v]
    refine exists_congr fun y => and_congr_left fun hy => (and_iff_left ?_).symm
    rintro rfl
    exact hkey hy.1.symm

theorem Represents.rewrite (h : Represents hash s c m) {a : Addr} {n : ChronCacheNode K V}
    (hx : Contains s.capacity c (a, n.item)) (hn : s.heap a = some n) (v : V) :
    Represents hash (s.write a { n with value := v })
      (fun j => KVStore.rewrite a { n.item with value := v } (c j)) (m.insert n.key v) := by
  constructor
  · exact h.inv.rewrite hn v
  · intro key w
    by_cases hkey : key = n.key
    · subst hkey
      rw [Table.insert_same, Option.some.injEq]
      constructor
      · rintro rfl
        exact ⟨_, contains_rewrite.mpr ⟨_, hx, (if_pos rfl).symm⟩, rfl, rfl⟩
      · rintro ⟨y, hy, hkey, rfl⟩
        obtain ⟨x, hx', rfl⟩ := contains_rewrite.mp hy
        by_cases hxa : x.1 = a
        · rw [if_pos hxa]
        · rw [if_neg hxa] at hkey
          exact absurd (congrArg Prod.fst (h.inv.eq_of_key hx' hx hkey)) hxa
    · rw [Table.insert_other _ _ hkey, h.holds key w]
      constructor
      · rintro ⟨x, hx', rfl, rfl⟩
        have hxa : x.1 ≠ a := fun heq =>
          hkey (congrArg (fun x => x.2.key) (h.inv.eq_of_addr hx' hx heq))
        exact ⟨x, contains_rewrite.mpr ⟨x, hx', (if_neg hxa).symm⟩, rfl, rfl⟩
      · rintro ⟨y, hy, hkey', rfl⟩
        obtain ⟨x, hx', rfl⟩ := contains_rewrite.mp hy
        by_cases hxa : x.1 = a
        · rw [if_pos hxa] at hkey'
          exact absurd hkey'.symm hkey
        · rw [if_neg hxa] at hkey' ⊢
          exact ⟨x, hx', hkey', rfl⟩

theorem findFrom_eq {key : K} {l : Chain K V} {p : Option Addr} {fuel : ℕ}
    (hl : Linked nodeView s.heap p l none) (hfuel : l.length < fuel) :
    s.findFrom key fuel p = some ((l.find? fun x => x.2.key = key).map Prod.fst) := by
  induction l generalizing p fuel with
  | nil =>
    obtain rfl : p = none := hl
    obtain ⟨fuel, rfl⟩ := Nat.exists_eq_succ_of_ne_zero (Nat.ne_of_gt hfuel)
    rfl
  | cons x l ih =>
    obtain ⟨a, d⟩ := x
    obtain ⟨rfl, n, hn, rfl, hrest⟩ := hl
    obtain ⟨fuel, rfl⟩ := Nat.exists_eq_succ_of_ne_zero (Nat.ne_of_gt (Nat.zero_lt_of_lt hfuel))
    have hrec := ih hrest (Nat.lt_of_succ_lt_succ hfuel)
    by_cases hkey : n.key = key
    · simp [findFrom, hn, hkey, ChronCacheNode.item]
    · simpa [findFrom, hn, hkey, ChronCacheNode.item] using hrec

theorem Inv.getPtr_eq (h : Inv hash s c) (key : K) :
    s.getPtr hash key =
      some (((c (s.computeBucketIndex (hash key))).find? fun x => x.2.key = key).map Prod.fst) := by
  have hi := h.index_lt (hash key)
  obtain ⟨head, hhead, hl⟩ := (h.bucket _ hi).linked
  simp [getPtr, findInBucket, hhead, findFrom_eq hl (h.length_lt_fuel hi)]

theorem Represents.getPtr_cases (h : Represents hash s c m) (key : K) :
    (s.getPtr hash key = some none ∧ m key = none) ∨
      ∃ a n, s.getPtr hash key = some (some a) ∧ s.heap a = some n ∧ n.key = key ∧
        m key = some n.value ∧ Contains s.capacity c (a, n.item) := by
  rw [h.inv.getPtr_eq]
  cases hfind : (c (s.computeBucketIndex (hash key))).find? fun x => x.2.key = key with
  | none =>
    refine .inl ⟨rfl, h.eq_none.mpr fun hmem => ?_⟩
    obtain ⟨x, hx, hkey⟩ := List.mem_map.mp hmem
    exact absurd (decide_eq_true hkey) (List.find?_eq_none.mp hfind x hx)
  | some x =>
    have hx := h.inv.contains_of_mem (List.mem_of_find?_eq_some hfind)
    obtain ⟨n, hn, hitem⟩ := h.inv.heap_of_contains hx
    have hkey : x.2.key = key := by simpa using List.find?_some hfind
    have hval := h.eq_some hx
    rw [hkey, ← hitem] at hval
    rw [← hitem] at hkey
    exact .inr ⟨x.1, n, rfl, hn, hkey, hval, hitem ▸ hx⟩

omit [DecidableEq K] in
theorem Inv.allocate (h : Inv hash s c) (n : ChronCacheNode K V) : Inv hash (s.allocate n).2 c where
  capacity := h.capacity
  bucket := fun j hj => (h.bucket j hj).frame rfl rfl rfl rfl fun _ hb =>
    Function.update_of_ne (Nat.ne_of_lt (h.lt_nextAddr hj hb)) _ _
  fresh := fun b hb => (Function.update_of_ne (Nat.ne_of_gt hb) _ _).trans
    (h.fresh b (Nat.le_of_lt hb))
  numBuckets := h.numBuckets
  numEntries := h.numEntries

/-- A key that the map lacks gets a new node, beside the cells there are. -/
theorem Represents.insertNew (h : Represents hash s c m) {key : K} (hnone : m key = none) (v : V) :
    ∃ s' c', (s.allocate ⟨key, hash key, v, none⟩).2.insertIntoBucket
      (s.computeBucketIndex (hash key)) s.nextAddr =
        some s' ∧
      Represents hash s' c' (m.insert key v) ∧ s'.capacity = s.capacity ∧
      s'.loadFactorThreshold = s.loadFactorThreshold ∧
      ∀ x, Contains s'.capacity c' x ↔ Contains s.capacity c x ∨
        x = (s.nextAddr, ⟨key, hash key, v⟩) := by
  have hi := h.inv.index_lt (hash key)
  have hcell : (s.allocate ⟨key, hash key, v, none⟩).2.heap s.nextAddr =
      some ⟨key, hash key, v, none⟩ := by
    simp [KVStore.allocate]
  have hout : s.nextAddr ∉ addrs (c (s.computeBucketIndex (hash key))) :=
    fun hmem => lt_irrefl _ (h.inv.lt_nextAddr hi hmem)
  obtain ⟨s', hrun, hinv, hcap, hthreshold, -⟩ :=
    (h.inv.allocate ⟨key, hash key, v, none⟩).insertIntoBucket hcell rfl rfl rfl hout
      (h.eq_none.mp hnone)
  refine ⟨s', _, hrun, ⟨hinv, ?_⟩, hcap, hthreshold, ?_⟩
  · rw [hcap]
    exact h.holds.snoc (x := (s.nextAddr, ⟨key, hash key, v⟩)) hi hnone
  · rw [hcap]
    exact fun x => contains_snoc hi

/-- The cell of the key gets the value, where it is or in a new node; the other cells stay. -/
theorem Represents.set (h : Represents hash s c m) (key : K) (v : V) :
    ∃ s' c', s.set hash key v = some (true, s') ∧ Represents hash s' c' (m.insert key v) ∧
      s'.capacity = s.capacity ∧ s'.loadFactorThreshold = s.loadFactorThreshold ∧
      ∀ x, Contains s.capacity c x →
        Contains s'.capacity c' (x.1, if x.2.key = key then { x.2 with value := v } else x.2) := by
  rcases h.getPtr_cases key with ⟨hptr, hnone⟩ | ⟨a, n, hptr, hn, rfl, -, hx⟩
  · obtain ⟨s', c', hrun, hrep, hcap, hthreshold, hcells⟩ := h.insertNew hnone v
    refine ⟨s', c', ?_, hrep, hcap, hthreshold, ?_⟩
    · rw [getPtr] at hptr
      simp only [KVStore.set, hptr, Option.bind_eq_bind, Option.bind_some]
      exact congrArg (fun r => r.bind fun s => some (true, s)) hrun
    · intro x hx
      have hkey : x.2.key ≠ key := by
        rintro rfl
        simp [h.eq_some hx] at hnone
      rw [if_neg hkey]
      exact (hcells x).mpr (.inl hx)
  · refine ⟨_, _, ?_, h.rewrite hx hn v, rfl, rfl, ?_⟩
    · rw [getPtr] at hptr
      simp [KVStore.set, hptr, hn]
    · intro y hy
      refine contains_rewrite.mpr ⟨y, hy, ?_⟩
      by_cases hkey : y.2.key = n.key
      · rw [h.inv.eq_of_key hy hx hkey]
        simp [ChronCacheNode.item]
      · have hya : y.1 ≠ a := fun heq =>
          hkey (congrArg (fun x => x.2.key) (h.inv.eq_of_addr hy hx heq))
        simp [hkey, hya]

theorem Represents.get (h : Represents hash s c m) (key : K) : s.get hash key = some (m key) := by
  rcases h.getPtr_cases key with ⟨hptr, hnone⟩ | ⟨a, n, hptr, hn, -, hval, -⟩
  · simp [KVStore.get, hptr, hnone]
  · simp [KVStore.get, hptr, hn, hval]

/-- The returned pointer leads to the value of the key, and the cells stay. -/
theorem Represents.getOrAdd (h : Represents hash s c m) (init : V) (key : K) :
    ∃ a d s' c', s.getOrAdd hash init key = some (a, s') ∧ Contains s'.capacity c' (a, d) ∧
      d.value = (m.getOrAdd key init).1 ∧ Represents hash s' c' (m.getOrAdd key init).2 ∧
      s'.capacity = s.capacity ∧ s'.loadFactorThreshold = s.loadFactorThreshold ∧ d.key = key ∧
      ∀ x, Contains s.capacity c x → Contains s'.capacity c' x := by
  rcases h.getPtr_cases key with ⟨hptr, hnone⟩ | ⟨a, n, hptr, hn, rfl, hval, hx⟩
  · obtain ⟨s', c', hrun, hrep, hcap, hthreshold, hcells⟩ := h.insertNew hnone init
    refine ⟨s.nextAddr, _, s', c', ?_, (hcells _).mpr (.inr rfl),
      by simp [Table.getOrAdd, hnone], ?_, hcap, hthreshold, rfl, fun x hx => (hcells x).mpr (.inl hx)⟩
    · rw [getPtr] at hptr
      simp only [KVStore.getOrAdd, hptr, Option.bind_eq_bind, Option.bind_some]
      exact congrArg (fun r => r.bind fun s' => some (s.nextAddr, s')) hrun
    · simpa [Table.getOrAdd, hnone] using hrep
  · refine ⟨a, n.item, s, c, ?_, hx,
      by simp [Table.getOrAdd, hval, ChronCacheNode.item], ?_, rfl, rfl, rfl,
      fun _ hx => hx⟩
    · rw [getPtr] at hptr
      simp [KVStore.getOrAdd, hptr]
    · simpa [Table.getOrAdd, hval] using h

theorem removeFrom_pass {key : K} (i : ℕ) {fuel : ℕ} {l₁ l₂ : Chain K V} {p : Option Addr}
    (prev : Option Addr) (hl : Linked nodeView s.heap p (l₁ ++ l₂) none)
    (hfuel : (l₁ ++ l₂).length < fuel) (hkey : key ∉ l₁.keys) :
    ∃ fuel' p', l₂.length < fuel' ∧ Linked nodeView s.heap p' l₂ none ∧
      s.removeFrom key i fuel p prev = s.removeFrom key i fuel' p' ((addrs l₁).getLast?.or prev) := by
  induction l₁ generalizing p prev fuel with
  | nil => exact ⟨fuel, p, hfuel, hl, rfl⟩
  | cons x l₁ ih =>
    obtain ⟨a, d⟩ := x
    obtain ⟨rfl, n, hn, rfl, hrest⟩ := hl
    obtain ⟨fuel, rfl⟩ := Nat.exists_eq_succ_of_ne_zero (Nat.ne_of_gt (Nat.zero_lt_of_lt hfuel))
    have hne : n.key ≠ key := fun heq => hkey (by simp [Chain.keys, ChronCacheNode.item, heq])
    obtain ⟨fuel', p', hfuel', hl', hrun⟩ := ih (some a) hrest (Nat.lt_of_succ_lt_succ hfuel)
      (fun hmem => hkey (List.mem_cons_of_mem _ hmem))
    refine ⟨fuel', p', hfuel', hl', ?_⟩
    have hlast : (addrs ((a, nodeView.content n) :: l₁)).getLast?.or prev =
        (addrs l₁).getLast?.or (some a) := by
      rw [addrs, List.map_cons, List.getLast?_cons]
      cases (l₁.map Prod.fst).getLast? <;> rfl
    rw [hlast, ← hrun]
    simp [removeFrom, hn, hne]

theorem Represents.remove_absent (h : Represents hash s c m) {key : K} (hnone : m key = none) :
    s.remove hash key = some (false, s) := by
  have hi := h.inv.index_lt (hash key)
  obtain ⟨head, hhead, hl⟩ := (h.inv.bucket _ hi).linked
  rw [← List.append_nil (c _)] at hl
  obtain ⟨fuel, p, hfuel, hend, hrun⟩ := removeFrom_pass (s.computeBucketIndex (hash key)) none
    hl (by simpa using h.inv.length_lt_fuel hi) (h.eq_none.mp hnone)
  obtain rfl : p = none := hend
  obtain ⟨fuel, rfl⟩ := Nat.exists_eq_succ_of_ne_zero (Nat.ne_of_gt hfuel)
  simp [KVStore.remove, hhead, hrun, removeFrom]

theorem Represents.remove_present (h : Represents hash s c m) {key : K} {v : V}
    (hv : m key = some v) :
    ∃ s' c', s.remove hash key = some (true, s') ∧ Represents hash s' c' (m.erase key) ∧
      s'.capacity = s.capacity ∧ s'.loadFactorThreshold = s.loadFactorThreshold ∧
      ∀ x, Contains s.capacity c x → x.2.key ≠ key → Contains s'.capacity c' x := by
  have hi := h.inv.index_lt (hash key)
  have hfuel := h.inv.length_lt_fuel hi
  obtain ⟨head, hhead, hl⟩ := (h.inv.bucket _ hi).linked
  obtain ⟨⟨a, d⟩, hx, rfl, -⟩ := (h.holds key v).mp hv
  obtain ⟨l₁, l₂, hc⟩ := List.append_of_mem (h.inv.mem_index hx)
  have hkeys := (h.inv.bucket _ hi).keys
  rw [hc] at hl hkeys hfuel
  rw [Chain.keys, List.map_append, List.map_cons, List.nodup_middle] at hkeys
  have hkey : d.key ∉ Chain.keys l₁ := fun hmem =>
    (List.nodup_cons.mp hkeys).1 (List.mem_append_left _ hmem)
  obtain ⟨fuel, p, hfuel, hl', hrun⟩ := removeFrom_pass (s.computeBucketIndex (hash d.key)) none
    hl hfuel hkey
  obtain ⟨rfl, n, hn, rfl, -⟩ := hl'
  obtain ⟨fuel, rfl⟩ := Nat.exists_eq_succ_of_ne_zero (Nat.ne_of_gt (Nat.zero_lt_of_lt hfuel))
  obtain ⟨s', hunlink, hinv, hcap, hthreshold⟩ := h.inv.unlinkFromBucketChain hi hc
  refine ⟨_, _, ?_, ⟨hinv, ?_⟩, hcap, hthreshold, ?_⟩
  · simp only [nodeView_content, ChronCacheNode.item, Option.or_none, addrs,
      List.getLast?_map] at hhead hrun hunlink
    simp [ChronCacheNode.item, KVStore.remove, hhead, hrun, removeFrom, hn, hunlink]
  · simpa [hcap] using h.unlink_holds hi hc
  · intro y hy hne
    change Contains s'.capacity _ y
    rw [hcap]
    exact (h.inv.contains_unlink hi hc).mpr ⟨hy, fun heq => hne (by rw [heq])⟩

end KVStore
end Chrono
