import Mathlib.Algebra.Order.Field.Basic
import Mathlib.Data.Rat.Cast.Order
import Mathlib.Tactic.Linarith
import Chrono.KvStore.Refinement

/-!
# The load factor

The metrics count the entries and keep their quotient by the number of buckets. The
resizes that this quotient triggers keep the entries within the threshold,
where no callback throws between an insertion and its resize.
-/
namespace Chrono
open Library Library.Chain

namespace ChronCacheHashMapMetrics

/-- The cached quotient is that of the counters. -/
def Exact (m : ChronCacheHashMapMetrics) : Prop := m.loadFactorVal = m.numEntries / m.numBuckets

theorem exact_create (numBuckets : ℤ) : (create numBuckets).Exact := by simp [Exact, create]

theorem exact_recalculateLoadFactor (m : ChronCacheHashMapMetrics) :
    m.recalculateLoadFactor.Exact := rfl

theorem exact_newElementEvent (m : ChronCacheHashMapMetrics) (isCollision : Bool)
    (chainLength : ℤ) :
    (m.newElementEvent isCollision chainLength).Exact := rfl

theorem exact_removeElementEvent (m : ChronCacheHashMapMetrics) : m.removeElementEvent.Exact := rfl

end ChronCacheHashMapMetrics

namespace KVStore
variable {K V : Type} {hash : K → UInt64} {s s' : KVStore K V} {c c' : ℕ → Chain K V}
  {m m' : Table K V}

def CountsOneMore (s s' : KVStore K V) : Prop :=
  s'.metrics.numEntries = s.metrics.numEntries + 1 ∧ s'.metrics.Exact

theorem countsOneMore_insertIntoBucket {i : ℕ} {a : Addr} (h : s.insertIntoBucket i a = some s') :
    CountsOneMore s s' := by
  simp only [insertIntoBucket, Option.bind_eq_bind, Option.bind_eq_some_iff] at h
  obtain ⟨head, -, h⟩ := h
  cases head with
  | none =>
    simp only [Option.bind_some, Option.bind_eq_some_iff] at h
    obtain ⟨length, -, hs'⟩ := h
    obtain rfl := Option.some.inj hs'
    exact ⟨ChronCacheHashMapMetrics.newElementEvent_numEntries _ _ _, rfl⟩
  | some b =>
    simp only [Option.bind_some, Option.bind_eq_some_iff] at h
    obtain ⟨_, -, _, -, _, -, length, -, hs'⟩ := h
    obtain rfl := Option.some.inj hs'
    exact ⟨ChronCacheHashMapMetrics.newElementEvent_numEntries _ _ _, rfl⟩

theorem exact_rehash {nodes : List Addr} (h : s.rehash nodes = some s') (hs : s.metrics.Exact) :
    s'.metrics.Exact := by
  induction nodes generalizing s with
  | nil =>
    obtain rfl := Option.some.inj h
    exact hs
  | cons a nodes ih =>
    simp only [rehash, Option.bind_eq_bind, Option.bind_eq_some_iff] at h
    obtain ⟨node, -, s₁, hinsert, hrest⟩ := h
    exact ih hrest (countsOneMore_insertIntoBucket hinsert).2

theorem exact_resetToCapacity {n : Int32} {r : Except Fault Unit}
    (h : resetToCapacity n s = (r, s'))
    (hs : s.metrics.Exact) : s'.metrics.Exact := by
  unfold resetToCapacity at h
  split_ifs at h
  · cases h
    exact hs
  · cases h
    exact hs

theorem exact_resize {n : Int32} (h : resize n s = (.ok (), s')) : s'.metrics.Exact := by
  unfold resize at h
  split_ifs at h
  · cases h
  · cases h
  split at h
  · cases h
  · split at h
    · cases h
    · rename_i metrics hmetrics
      have hexact : metrics.Exact := by
        unfold ChronCacheHashMapMetrics.resizeEventTriggered at hmetrics
        split_ifs at hmetrics
        · cases hmetrics
        · cases hmetrics
          rfl
      split at h
      · cases h
      · rename_i hreset
        split at h
        · cases h
        · rename_i hrehash
          cases h
          exact exact_rehash hrehash (exact_resetToCapacity hreset hexact)

theorem metrics_unlinkFromBucketChain {a : Addr} {prev : Option Addr} {i : ℕ}
    (h : s.unlinkFromBucketChain a prev i = some s') : s'.metrics = s.metrics := by
  simp only [unlinkFromBucketChain, Option.bind_eq_bind, Option.bind_eq_some_iff] at h
  obtain ⟨node, -, h⟩ := h
  cases prev with
  | none =>
    simp only [Option.bind_some, Option.bind_eq_some_iff] at h
    obtain ⟨length, -, hs'⟩ := h
    obtain rfl := Option.some.inj hs'
    rfl
  | some t =>
    simp only [Option.bind_some, Option.bind_eq_some_iff] at h
    obtain ⟨_, -, length, -, hs'⟩ := h
    obtain rfl := Option.some.inj hs'
    rfl

/-- Cells that only moved are as many as they were. -/
theorem numEntries_eq (h : Inv hash s c) (h' : Inv hash s' c')
    (hcells : ∀ x, Contains s'.capacity c' x ↔ Contains s.capacity c x) :
    s'.metrics.numEntries = s.metrics.numEntries := by
  rw [h.wellFormed.numEntries, h'.wellFormed.numEntries]
  have hperm :=
    (List.perm_ext_iff_of_nodup h'.wellFormed.keys.of_map h.wellFormed.keys.of_map).mpr fun x => by
      simpa [Contains] using hcells x
  rw [hperm.length_eq]

variable [DecidableEq K]

theorem metrics_removeFrom {key : K} {i fuel : ℕ} {p prev : Option Addr} {found : Bool}
    (h : s.removeFrom key i fuel p prev = some (found, s')) :
    s'.metrics = s.metrics ∨ s'.metrics = s.metrics.removeElementEvent := by
  induction fuel generalizing p prev with
  | zero => cases h
  | succ fuel ih =>
    cases p with
    | none =>
      cases h
      exact .inl rfl
    | some current =>
      simp only [removeFrom, Option.bind_eq_bind, Option.bind_eq_some_iff] at h
      obtain ⟨node, -, h⟩ := h
      split_ifs at h
      · simp only [Option.bind_eq_some_iff] at h
        obtain ⟨s₁, hunlink, hs'⟩ := h
        cases hs'
        exact .inr (by rw [metrics_unlinkFromBucketChain hunlink])
      · exact ih h

theorem exact_remove {key : K} {found : Bool} (h : s.remove hash key = some (found, s'))
    (hs : s.metrics.Exact) :
    s'.metrics.Exact ∧ s'.metrics.numEntries ≤ s.metrics.numEntries := by
  simp only [remove, Option.bind_eq_bind, Option.bind_eq_some_iff] at h
  obtain ⟨head, -, h⟩ := h
  rcases metrics_removeFrom h with hm | hm
  · rw [hm]
    exact ⟨hs, le_refl _⟩
  · rw [hm, ChronCacheHashMapMetrics.removeElementEvent_numEntries]
    exact ⟨rfl, by omega⟩

/-! ## The threshold -/

/-- The table of a map, with exact metrics. -/
structure Metered (hash : K → UInt64) (threshold : ℚ) (s : KVStore K V) (m : Table K V) : Prop where
  represents : ∃ c, Represents hash s c m
  exact : s.metrics.Exact
  threshold : s.loadFactorThreshold = threshold

/-- The entries are within the threshold. -/
def WithinLoad (s : KVStore K V) : Prop :=
  (s.metrics.numEntries : ℚ) ≤ s.loadFactorThreshold * s.capacity

variable {threshold : ℚ}

omit [DecidableEq K] in
theorem Metered.loadFactorVal (h : Metered hash threshold s m) :
    s.metrics.loadFactorVal = s.metrics.numEntries / s.capacity := by
  obtain ⟨c, hrep⟩ := h.represents
  rw [h.exact, hrep.inv.numBuckets]
  norm_cast

omit [DecidableEq K] in
/-- The check for a resize is the comparison of the counters. -/
theorem Metered.needsResize_iff (h : Metered hash threshold s m) :
    s.needsResize = true ↔ ¬ WithinLoad s := by
  obtain ⟨c, hrep⟩ := h.represents
  have hpos : (0 : ℚ) < s.capacity := by exact_mod_cast hrep.inv.capacity_pos
  rw [needsResize, decide_eq_true_eq, h.loadFactorVal, WithinLoad, not_le, gt_iff_lt,
    lt_div_iff₀ hpos]

omit [DecidableEq K] in
theorem Metered.resize (h : Metered hash threshold s m) {n : Int32} (hn : ValidCapacity s n) :
    ∃ s', KVStore.resize n s = (.ok (), s') ∧ Metered hash threshold s' m ∧
    (s'.capacity : ℤ) = n.toInt ∧
      s'.metrics.numEntries = s.metrics.numEntries := by
  obtain ⟨c, hrep⟩ := h.represents
  obtain ⟨s', c', hrun, hrep', hcap, hthreshold, hcells⟩ := hrep.resize hn
  exact ⟨s', hrun, ⟨⟨c', hrep'⟩, exact_resize hrun, hthreshold.trans h.threshold⟩, hcap,
    numEntries_eq hrep.inv hrep'.inv hcells⟩

omit [DecidableEq K] in
/-- One call of `maybe_resize`: it doubles the capacity of a table that is over the
threshold, if the capacity can be doubled. -/
theorem Metered.maybeResize (h : Metered hash threshold s m) :
    ∃ r s', ChronCacheHashMap.maybeResize s = (r, s') ∧ Metered hash threshold s' m ∧
      s'.metrics.numEntries = s.metrics.numEntries ∧
      (s'.capacity = s.capacity ∧ (WithinLoad s ∨ intMax < 2 * s.capacity) ∨
        s'.capacity = 2 * s.capacity ∧ ¬ WithinLoad s ∧ 2 * s.capacity ≤ intMax) := by
  by_cases hwithin : WithinLoad s
  · have hneeds : ¬ s.needsResize = true := fun hn => h.needsResize_iff.mp hn hwithin
    exact ⟨_, s,
      by rw [ChronCacheHashMap.maybeResize, if_neg hneeds], h, rfl, .inl ⟨rfl, .inl hwithin⟩⟩
  have hneeds := h.needsResize_iff.mpr hwithin
  by_cases hle : 2 * s.capacity ≤ intMax
  · obtain ⟨c, hrep⟩ := h.represents
    obtain ⟨hint, hvalid⟩ := hrep.inv.validCapacity_double hle
    obtain ⟨s', hrun, hmetered, hcap, hentries⟩ := h.resize hvalid
    refine ⟨_, s',
      by rw [ChronCacheHashMap.maybeResize, if_pos hneeds, if_pos hle, hrun], hmetered, hentries,
      .inr ⟨by omega, hwithin, hle⟩⟩
  · refine ⟨_, s,
      by rw [ChronCacheHashMap.maybeResize, if_pos hneeds, if_neg hle], h, rfl, .inl ⟨rfl, .inr ?_⟩⟩
    omega

/-- What an insertion with its lookup makes of the table: nothing new, or one entry more. -/
structure Inserted (hash : K → UInt64) (threshold : ℚ) (s : KVStore K V) (key : K)
    (s' : KVStore K V) : Prop where
  metered : ∃ m', Metered hash threshold s' m'
  capacity : s'.capacity = s.capacity
  numEntries : s'.metrics.numEntries = s.metrics.numEntries + if s.getPtr hash key = some none then 1 else 0

theorem Metered.inserted (h : Metered hash threshold s m) {key : K}
    (hrep : Represents hash s' c' m')
    (hcap : s'.capacity = s.capacity) (hthreshold : s'.loadFactorThreshold = s.loadFactorThreshold)
    (hnew : s.getPtr hash key = some none → CountsOneMore s s')
    (hold : s.getPtr hash key ≠ some none → s'.metrics = s.metrics) :
    Inserted hash threshold s key s' := by
  by_cases hkey : s.getPtr hash key = some none
  · obtain ⟨hentries, hexact⟩ := hnew hkey
    exact ⟨⟨m', ⟨c', hrep⟩, hexact, hthreshold.trans h.threshold⟩, hcap,
      by rw [if_pos hkey, hentries]⟩
  · have hsame := hold hkey
    refine ⟨⟨m', ⟨c', hrep⟩, ?_, hthreshold.trans h.threshold⟩, hcap,
      by rw [if_neg hkey, hsame, add_zero]⟩
    rw [hsame]
    exact h.exact

theorem Metered.set (h : Metered hash threshold s m) (key : K) (v : V) :
    ∃ s', s.set hash key v = some (true, s') ∧ Inserted hash threshold s key s' := by
  obtain ⟨c, hrep⟩ := h.represents
  obtain ⟨s', c', hset, hrep', hcap, hthreshold, -⟩ := hrep.set key v
  refine ⟨s', hset, h.inserted hrep' hcap hthreshold (fun hptr => ?_) (fun hne => ?_)⟩
  · rw [getPtr] at hptr
    simp only [KVStore.set, hptr, Option.bind_eq_bind, Option.bind_some,
      Option.bind_eq_some_iff] at hset
    obtain ⟨s₁, hinsert, hs'⟩ := hset
    cases hs'
    have hone : CountsOneMore (s.allocate ⟨key, hash key, v, none⟩).2 s' :=
      countsOneMore_insertIntoBucket hinsert
    exact hone
  · rcases hrep.getPtr_cases key with ⟨hptr, -⟩ | ⟨a, n, hptr, hn, -⟩
    · exact absurd hptr hne
    · rw [getPtr] at hptr
      simp only [KVStore.set, hptr, hn, Option.bind_eq_bind, Option.bind_some] at hset
      cases hset
      rfl

theorem Metered.getOrAdd (h : Metered hash threshold s m) (init : V) (key : K) :
    ∃ a s', s.getOrAdd hash init key = some (a, s') ∧ Inserted hash threshold s key s' := by
  obtain ⟨c, hrep⟩ := h.represents
  obtain ⟨a, d, s', c', hget, -, -, hrep', hcap, hthreshold, -⟩ := hrep.getOrAdd init key
  refine ⟨a, s', hget, h.inserted hrep' hcap hthreshold (fun hptr => ?_) (fun hne => ?_)⟩
  · rw [getPtr] at hptr
    simp only [KVStore.getOrAdd, hptr, Option.bind_eq_bind, Option.bind_some,
      Option.bind_eq_some_iff] at hget
    obtain ⟨s₁, hinsert, hs'⟩ := hget
    cases hs'
    have hone : CountsOneMore (s.allocate ⟨key, hash key, init, none⟩).2 s' :=
      countsOneMore_insertIntoBucket hinsert
    exact hone
  · rcases hrep.getPtr_cases key with ⟨hptr, -⟩ | ⟨a, n, hptr, -⟩
    · exact absurd hptr hne
    · rw [getPtr] at hptr
      simp only [KVStore.getOrAdd, hptr, Option.bind_eq_bind, Option.bind_some] at hget
      cases hget
      rfl

/-- The key is new, and its entry is one too many for the threshold. -/
def Overloads (hash : K → UInt64) (s : KVStore K V) (key : K) : Prop :=
  s.getPtr hash key = some none ∧ s.loadFactorThreshold * s.capacity < s.metrics.numEntries + 1

theorem Inserted.withinLoad_iff {key : K} (hs : Metered hash threshold s m) (hwithin : WithinLoad s)
    (h : Inserted hash threshold s key s') : WithinLoad s' ↔ ¬ Overloads hash s key := by
  obtain ⟨m', hmetered⟩ := h.metered
  unfold WithinLoad Overloads at *
  rw [hmetered.threshold, h.capacity, h.numEntries, ← hs.threshold]
  by_cases hkey : s.getPtr hash key = some none
  · simp [hkey]
  · simpa [hkey] using hwithin

/-- One doubling makes room for one entry more. -/
theorem Inserted.withinLoad_double {key : K} (hthreshold : 1 / 2 ≤ threshold)
    (hs : Metered hash threshold s m)
    (hwithin : WithinLoad s) {s₁ : KVStore K V} (h : Inserted hash threshold s key s₁)
    (hs' : Metered hash threshold s' m')
    (hentries : s'.metrics.numEntries = s₁.metrics.numEntries)
    (hcap : s'.capacity = 2 * s₁.capacity) :
    WithinLoad s' := by
  obtain ⟨c, hrep⟩ := hs.represents
  have hone : ((if s.getPtr hash key = some none then 1 else 0 : ℤ) : ℚ) ≤ 1 := by
    split_ifs <;> norm_num
  have hle : (s'.metrics.numEntries : ℚ) ≤ s.metrics.numEntries + 1 := by
    rw [hentries, h.numEntries, Int.cast_add]
    linarith
  have hcap' : (s'.capacity : ℚ) = 2 * s.capacity := by
    rw [hcap, h.capacity]
    norm_cast
  unfold WithinLoad at *
  rw [hs.threshold] at hwithin
  rw [hs'.threshold, hcap']
  have hpos := hrep.inv.capacity_pos
  by_cases hbig : 1 ≤ threshold * s.capacity
  · linarith
  · -- the capacity is one, and the table was empty
    have hempty : s.metrics.numEntries ≤ 0 := by
      have hlt : (s.metrics.numEntries : ℚ) < 1 := lt_of_le_of_lt hwithin (not_le.mp hbig)
      have hlt' : s.metrics.numEntries < 1 := by exact_mod_cast hlt
      omega
    have hempty' : (s.metrics.numEntries : ℚ) ≤ 0 := by exact_mod_cast hempty
    have hcap1 : (1 : ℚ) ≤ s.capacity := by exact_mod_cast hpos
    have hhalf : 1 / 2 * (1 : ℚ) ≤ threshold * s.capacity :=
      mul_le_mul hthreshold hcap1 (by norm_num) (by linarith)
    linarith

theorem Inserted.maybeResize {key : K} (hthreshold : 1 / 2 ≤ threshold)
    (hs : Metered hash threshold s m)
    {s₁ : KVStore K V} (h : Inserted hash threshold s key s₁) :
    ∃ r s', ChronCacheHashMap.maybeResize s₁ = (r, s') ∧ (∃ m', Metered hash threshold s' m') ∧
      (s'.capacity = s.capacity ∨ s'.capacity = 2 * s.capacity) ∧
      (WithinLoad s → (WithinLoad s' ↔ (Overloads hash s key → 2 * s.capacity ≤ intMax))) := by
  obtain ⟨m₁, hmetered⟩ := h.metered
  obtain ⟨r, s', hrun, hs', hentries, hcap⟩ := hmetered.maybeResize
  have hcapacity := h.capacity
  refine ⟨r, s', hrun, ⟨m₁, hs'⟩, by omega, fun hwithin => ?_⟩
  rcases hcap with ⟨hcap, hno⟩ | ⟨hcap, -, hle⟩
  · have hsame : WithinLoad s' ↔ WithinLoad s₁ := by
      unfold WithinLoad
      rw [hs'.threshold, hmetered.threshold, hentries, hcap]
    rw [hsame]
    rcases hno with hfits | hlarge
    · exact iff_of_true hfits fun hover => absurd hover ((h.withinLoad_iff hs hwithin).mp hfits)
    · rw [h.withinLoad_iff hs hwithin]
      refine ⟨fun hnot hover => absurd hover hnot, fun himp hover => ?_⟩
      have := himp hover
      omega
  · exact iff_of_true (h.withinLoad_double hthreshold hs hwithin hs' hentries hcap) fun _ =>
      hcapacity ▸ hle

end KVStore

namespace MapOp
open KVStore
variable {K V τ : Type} [DecidableEq K] {hash : K → UInt64} (init : V) {threshold : ℚ}
  {s : KVStore K V} {m : Table K V} (t : τ)

/-- Where the call inserts one entry too many, it comes to the doubling: its `post_fn`
returns, and the capacity can be doubled. -/
def KeepsLoad (hash : K → UInt64) (s : KVStore K V × τ) : MapOp K V τ → Prop
  | .set key _ postFn => Overloads hash s.1 key → 2 * s.1.capacity ≤ intMax ∧ (postFn s.2).1 = .ok ()
  | .getOrAdd key => Overloads hash s.1 key → 2 * s.1.capacity ≤ intMax
  | _ => True

def IsResize : MapOp K V τ → Prop
  | .resize _ => True
  | _ => False

/-- What a call does to the metrics and the capacity. -/
structure Meters (hash : K → UInt64) (threshold : ℚ) (s : KVStore K V × τ) (op : MapOp K V τ)
    (s' : KVStore K V) : Prop where
  metered : ∃ m', Metered hash threshold s' m'
  grows : s.1.capacity ≤ s'.capacity
  doubles : ¬ op.IsResize → s'.capacity = s.1.capacity ∨ s'.capacity = 2 * s.1.capacity
  withinLoad : WithinLoad s.1 → (WithinLoad s' ↔ op.KeepsLoad hash s)

theorem set_meters (hthreshold : 1 / 2 ≤ threshold) (h : Metered hash threshold s m) (key : K)
    (value : V)
    (postFn : Action τ Unit) :
    (MapOp.set key value postFn).Meters hash threshold (s, t)
      ((MapOp.set key value postFn).run hash init (s, t)).2.1 := by
  obtain ⟨s₁, hset, hinserted⟩ := h.set key value
  obtain ⟨r', s', hresize, hmetered, hcap, hwithin⟩ := hinserted.maybeResize hthreshold h
  have hgrows : s.capacity ≤ s'.capacity := by omega
  cases hpost : postFn t with
  | mk r t' =>
    cases r with
    | error e =>
      simp only [run, ChronCacheHashMap.set, hset, hpost]
      refine ⟨hinserted.metered, hinserted.capacity.ge, fun _ =>
        .inl hinserted.capacity, fun hs => ?_⟩
      rw [hinserted.withinLoad_iff h hs]
      simp [KeepsLoad, hpost]
    | ok u =>
      have hfinal : (MapOp.set key value postFn).Meters hash threshold (s, t) s' := by
        refine ⟨hmetered, hgrows, fun _ => hcap, fun hs => ?_⟩
        rw [hwithin hs]
        simp [KeepsLoad, hpost]
      simp only [run, ChronCacheHashMap.set, hset, hpost, hresize]
      cases r' <;> exact hfinal

theorem getOrAdd_meters (hthreshold : 1 / 2 ≤ threshold) (h : Metered hash threshold s m)
    (key : K) :
    (MapOp.getOrAdd key : MapOp K V τ).Meters hash threshold (s, t)
      (ChronCacheHashMap.getOrAdd hash init key (s, t)).2.1 := by
  obtain ⟨a, s₁, hget, hinserted⟩ := h.getOrAdd init key
  obtain ⟨r', s', hresize, hmetered, hcap, hwithin⟩ := hinserted.maybeResize hthreshold h
  have hgrows : s.capacity ≤ s'.capacity := by omega
  have hfinal : (MapOp.getOrAdd key : MapOp K V τ).Meters hash threshold (s, t) s' :=
    ⟨hmetered, hgrows, fun _ => hcap, hwithin⟩
  simp only [ChronCacheHashMap.getOrAdd, hget, hresize]
  cases r' <;> exact hfinal

theorem meters_of_le {op : MapOp K V τ} (h : Metered hash threshold s m) {s' : KVStore K V}
    {m' : Table K V}
    (hs' : Metered hash threshold s' m') (hcap : s'.capacity = s.capacity)
    (hentries : s'.metrics.numEntries ≤ s.metrics.numEntries) (hop : op.KeepsLoad hash (s, t)) :
    op.Meters hash threshold (s, t) s' := by
  refine ⟨⟨m', hs'⟩, hcap.ge, fun _ => .inl hcap, fun hwithin => iff_of_true ?_ hop⟩
  have hle : (s'.metrics.numEntries : ℚ) ≤ s.metrics.numEntries := by exact_mod_cast hentries
  unfold WithinLoad at *
  rw [hs'.threshold, hcap, ← h.threshold]
  exact hle.trans hwithin

theorem remove_metered (h : Metered hash threshold s m) {key : K} {v : V} (hv : m key = some v) :
    ∃ s', s.remove hash key = some (true, s') ∧ Metered hash threshold s' (m.erase key) ∧
      s'.capacity = s.capacity ∧ s'.metrics.numEntries ≤ s.metrics.numEntries := by
  obtain ⟨c, hrep⟩ := h.represents
  obtain ⟨s', c', hremove, hrep', hcap, hthreshold, -⟩ := hrep.remove_present hv
  obtain ⟨hexact, hentries⟩ := exact_remove hremove h.exact
  exact ⟨s', hremove, ⟨⟨c', hrep'⟩, hexact, hthreshold.trans h.threshold⟩, hcap, hentries⟩

theorem remove_meters (h : Metered hash threshold s m) (key : K) (postFn : Action τ Unit) :
    (MapOp.remove key postFn).Meters hash threshold (s, t)
      ((MapOp.remove key postFn).run hash init (s, t)).2.1 := by
  cases hm : m key with
  | none =>
    obtain ⟨c, hrep⟩ := h.represents
    simp only [run, ChronCacheHashMap.remove, hrep.remove_absent hm]
    exact meters_of_le t h h rfl (le_refl _) (by trivial)
  | some v =>
    obtain ⟨s', hremove, hs', hcap, hentries⟩ := remove_metered h hm
    have hfinal : (MapOp.remove key postFn).Meters hash threshold (s, t) s' :=
      meters_of_le t h hs' hcap hentries (by trivial)
    simp only [run, ChronCacheHashMap.remove, hremove]
    cases hpost : postFn t with
    | mk r t' => cases r <;> exact hfinal

theorem processAndRemoveIf_meters (h : Metered hash threshold s m) (key : K) (condFn : CondFn V τ) :
    (MapOp.processAndRemoveIf key condFn).Meters hash threshold (s, t)
      ((MapOp.processAndRemoveIf key condFn).run hash init (s, t)).2.1 := by
  obtain ⟨c, hrep⟩ := h.represents
  rcases hrep.getPtr_cases key with ⟨hptr, -⟩ | ⟨a, n, hptr, hn, rfl, -, hx⟩
  · have hsame : (MapOp.processAndRemoveIf key condFn).Meters hash threshold (s, t) s :=
      meters_of_le t h h rfl (le_refl _) (by trivial)
    simp only [run, ChronCacheHashMap.processAndRemoveIf, hptr]
    cases hcond : condFn.absent t with
    | mk r t' => cases r <;> exact hsame
  · simp only [run, ChronCacheHashMap.processAndRemoveIf, hptr, hn]
    cases hcond : condFn.present n.value t with
    | mk r vt =>
      obtain ⟨v, t'⟩ := vt
      have hwritten : Metered hash threshold (s.write a { n with value := v }) (m.insert n.key v) :=
        ⟨⟨_, hrep.rewrite hx hn v⟩, h.exact, h.threshold⟩
      have hkept : (MapOp.processAndRemoveIf n.key condFn).Meters hash threshold (s, t)
          (s.write a { n with value := v }) :=
        meters_of_le t h hwritten rfl (le_refl _) (by trivial)
      cases r with
      | error e => exact hkept
      | ok b =>
        cases b with
        | false => exact hkept
        | true =>
          obtain ⟨s', hremove, hs', hcap, hentries⟩ :=
            remove_metered hwritten (Table.insert_same m n.key v)
          simp only [hremove]
          exact meters_of_le t h hs' hcap hentries (by trivial)

theorem resize_meters (hthreshold : 1 / 2 ≤ threshold) (h : Metered hash threshold s m)
    (newCapacity : Int32) :
    (MapOp.resize newCapacity : MapOp K V τ).Meters hash threshold (s, t)
      (ChronCacheHashMap.resize newCapacity (s, t)).2.1 := by
  by_cases hvalid : ValidCapacity s newCapacity
  · obtain ⟨s', hrun, hs', hcap, hentries⟩ := h.resize hvalid
    have hgrows : s.capacity ≤ s'.capacity := by
      have hlt := hvalid.1
      omega
    simp only [ChronCacheHashMap.resize, hrun]
    refine ⟨⟨m, hs'⟩, hgrows, fun hnot => absurd trivial hnot, fun hwithin => iff_of_true ?_ trivial⟩
    have hgrows' : (s.capacity : ℚ) ≤ s'.capacity := by exact_mod_cast hgrows
    unfold WithinLoad at *
    rw [hentries, hs'.threshold, ← h.threshold]
    refine hwithin.trans (mul_le_mul_of_nonneg_left hgrows' ?_)
    rw [h.threshold]
    linarith
  · obtain ⟨what, hrun⟩ := resize_invalid hvalid
    simp only [ChronCacheHashMap.resize, hrun]
    exact meters_of_le t h h rfl (le_refl _) (by trivial)

theorem meters (hthreshold : 1 / 2 ≤ threshold) (h : Metered hash threshold s m)
    (op : MapOp K V τ) :
    op.Meters hash threshold (s, t) (op.run hash init (s, t)).2.1 := by
  cases op with
  | set key value postFn => exact set_meters init t hthreshold h key value postFn
  | get key =>
    obtain ⟨c, hrep⟩ := h.represents
    simp only [run, ChronCacheHashMap.get, hrep.get key]
    exact meters_of_le t h h rfl (le_refl _) (by trivial)
  | getOrAdd key =>
    rw [run_getOrAdd_snd]
    exact getOrAdd_meters init t hthreshold h key
  | remove key postFn => exact remove_meters init t h key postFn
  | processAndRemoveIf key condFn => exact processAndRemoveIf_meters init t h key condFn
  | resize newCapacity => exact resize_meters t hthreshold h newCapacity

end MapOp
end Chrono

namespace Chrono
open Library KVStore
variable {K V τ : Type} {hash : K → UInt64} {threshold : ℚ}

theorem KVStore.metered_of_create (hash : K → UInt64) {capacity : Int32} {s : KVStore K V}
    (hcreate : KVStore.create capacity threshold = .ok s) :
    Metered hash threshold s (fun _ => none) ∧ s.metrics.numEntries = 0 := by
  obtain ⟨c, hrep⟩ := KVStore.represents_of_create hash hcreate
  unfold KVStore.create resetToCapacity at hcreate
  by_cases hpower : isPowerOf2 capacity = false
  · simp [hpower] at hcreate
  · rw [if_neg hpower] at hcreate
    cases hcreate
    exact ⟨⟨⟨c, hrep⟩, ChronCacheHashMapMetrics.exact_create _, rfl⟩, rfl⟩

/-- The entries are within the threshold that the map was made with. -/
def Bounded (threshold : ℚ) (s : KVStore K V × τ) : Prop :=
  (s.1.metrics.numEntries : ℚ) ≤ threshold * s.1.capacity

/-- The metrics are exact, and the entries are within the threshold. -/
def WithinBound (hash : K → UInt64) (threshold : ℚ) (s : KVStore K V × τ) : Prop :=
  (∃ m, Metered hash threshold s.1 m) ∧ WithinLoad s.1

theorem bounded_iff {s : KVStore K V × τ} (h : ∃ m, Metered hash threshold s.1 m) :
    Bounded threshold s ↔ WithinLoad s.1 := by
  obtain ⟨m, h⟩ := h
  rw [Bounded, WithinLoad, h.threshold]

variable [DecidableEq K] (init : V)

theorem WithinBound.step (hthreshold : 1 / 2 ≤ threshold) {s : KVStore K V × τ} {op : MapOp K V τ}
    (h : WithinBound hash threshold s) (hok : op.KeepsLoad hash s) :
    WithinBound hash threshold ((hashMapMachine hash init).step s op).2 := by
  obtain ⟨⟨m, hs⟩, hload⟩ := h
  have hmeters := MapOp.meters init s.2 hthreshold hs op
  exact ⟨hmeters.metered, (hmeters.withinLoad hload).mpr hok⟩

/-- Without the doubling the entries are over the threshold. -/
theorem WithinBound.exceeded (hthreshold : 1 / 2 ≤ threshold) {s : KVStore K V × τ}
    {op : MapOp K V τ}
    (h : WithinBound hash threshold s) (hnot : ¬ op.KeepsLoad hash s) :
    ¬ Bounded threshold ((hashMapMachine hash init).step s op).2 := by
  obtain ⟨⟨m, hs⟩, hload⟩ := h
  have hmeters := MapOp.meters init s.2 hthreshold hs op
  intro hbound
  exact hnot ((hmeters.withinLoad hload).mp ((bounded_iff hmeters.metered).mp hbound))

theorem metered_after (hthreshold : 1 / 2 ≤ threshold) {s : KVStore K V × τ}
    (h : ∃ m, Metered hash threshold s.1 m)
    (ops : List (MapOp K V τ)) :
    ∃ m, Metered hash threshold ((hashMapMachine hash init).after s ops).1 m := by
  apply Machine.preserved (I := fun s : KVStore K V × τ => ∃ m, Metered hash threshold s.1 m) _ _ h
  rintro ⟨s, t⟩ op ⟨m, hs⟩
  exact (MapOp.meters init t hthreshold hs op).metered

/-- From every power-of-two capacity and for every threshold of at least one half: the
entries stay within the threshold all along a run if and only if every insertion of
one entry too many comes to its doubling, which then suffices. In any case the
capacity is a power of two and never shrinks, a call other than `resize` doubles it at
most once, and the cached load factor is the quotient of the counters. -/
theorem loadFactor_bounded_iff (hash : K → UInt64) (init : V) {capacity : Int32} {threshold : ℚ}
    {s₀ : KVStore K V}
    (hthreshold : 1 / 2 ≤ threshold) (hcreate : KVStore.create capacity threshold = .ok s₀) (t : τ)
    (ops : List (MapOp K V τ)) :
    ((∀ pre, pre <+: ops → Bounded threshold ((hashMapMachine hash init).after (s₀, t) pre)) ↔
      (hashMapMachine hash init).Admits (fun s op => op.KeepsLoad hash s) (s₀, t) ops) ∧
    ∀ pre, pre <+: ops →
      let s := (hashMapMachine hash init).after (s₀, t) pre
      (∃ k : ℕ, s.1.capacity = 2 ^ k) ∧
      s.1.metrics.loadFactorVal = s.1.metrics.numEntries / s.1.capacity ∧
        ∀ op, pre ++ [op] <+: ops →
          let s' := (op.run hash init s).2
          s.1.capacity ≤ s'.1.capacity ∧
            (¬ op.IsResize → s'.1.capacity = s.1.capacity ∨ s'.1.capacity = 2 * s.1.capacity) := by
  obtain ⟨hmetered, hempty⟩ := KVStore.metered_of_create hash hcreate
  have hstart : WithinBound hash threshold (s₀, t) := by
    refine ⟨⟨_, hmetered⟩, ?_⟩
    rw [WithinLoad, hempty, hmetered.threshold, Int.cast_zero]
    exact mul_nonneg (by linarith) (Nat.cast_nonneg _)
  constructor
  · exact (hashMapMachine hash init).always_iff_admits
      (fun s (h : WithinBound hash threshold s) => (bounded_iff h.1).mpr h.2)
      (fun s op h hok => h.step init hthreshold hok)
        (fun s op h hnot => h.exceeded init hthreshold hnot) hstart
  · intro pre hpre s
    obtain ⟨m, hs⟩ := metered_after init hthreshold hstart.1 pre
    obtain ⟨c, hrep⟩ := hs.represents
    obtain ⟨k, -, hk⟩ := hrep.inv.capacity
    refine ⟨⟨k, hk⟩, hs.loadFactorVal, fun op _ => ?_⟩
    have hmeters := MapOp.meters init s.2 hthreshold hs op
    exact ⟨hmeters.grows, hmeters.doubles⟩

def plainSet (key : ℕ) : MapOp ℕ ℕ Unit := .set key 10 fun t => (.ok (), t)

/-- A call whose `post_fn` throws. -/
def throwingSet (key : ℕ) : MapOp ℕ ℕ Unit := .set key 10 fun t => (.error (.exception []), t)

theorem loadFactor_bounded_iff_witness :
    ∃ s₀, KVStore.create 1 (3 / 4) = .ok s₀ ∧
      let ops : List (MapOp ℕ ℕ Unit) :=
        [plainSet 1, plainSet 2, .getOrAdd 3, .resize 16, throwingSet 4, throwingSet 4]
      ((∀ pre, pre <+: ops → Bounded (3 / 4) ((hashMapMachine (fun _ => 0) 7).after (s₀, ()) pre)) ↔
        (hashMapMachine (fun _ => 0) 7).Admits
          (fun s op => op.KeepsLoad (fun _ => 0) s) (s₀, ()) ops) ∧
      ∀ pre, pre <+: ops →
        let s := (hashMapMachine (fun _ => 0) 7).after (s₀, ()) pre
        (∃ k : ℕ, s.1.capacity = 2 ^ k) ∧
        s.1.metrics.loadFactorVal = s.1.metrics.numEntries / s.1.capacity ∧
          ∀ op, pre ++ [op] <+: ops →
            let s' := (op.run (fun _ => 0) 7 s).2
            s.1.capacity ≤ s'.1.capacity ∧
              (¬ op.IsResize → s'.1.capacity = s.1.capacity ∨ s'.1.capacity = 2 * s.1.capacity) :=
  ⟨_, rfl, loadFactor_bounded_iff (fun _ => 0) 7 (by norm_num)
    (rfl : KVStore.create 1 (3 / 4) = .ok _) () _⟩

/-- Insertions whose `post_fn` throws leave too many entries, and the one doubling of the
next `set`, which returns, does not make room for them. -/
theorem loadFactor_exceeded_after_throw :
    ∃ s₀, KVStore.create 1 (3 / 4) = .ok s₀ ∧
      let s := (hashMapMachine (fun _ => 0) 7).after (s₀, ()) [throwingSet 1, throwingSet 2]
      ((plainSet 3).run (fun _ => 0) 7 s).1 = .ok (.flag true) ∧
        ¬ Bounded (3 / 4) ((plainSet 3).run (fun _ => 0) 7 s).2 :=
  ⟨_, rfl, by decide +kernel, by unfold Bounded; decide +kernel⟩

end Chrono
