import Chrono.KvStore.Identity

/-!
# Every node is in a chain

The table deletes a node when its key is removed and the remaining ones when the table
is destroyed. In between each live node is in a chain, whatever the callbacks do and
whether or not they throw, so that the destructor misses none.
-/
namespace Chrono
open Library Library.Chain

namespace KVStore
variable {K V : Type}

def destroyFrom (s : KVStore K V) : ℕ → Option Addr → Defined (KVStore K V)
  | 0, _ => none
  | _ + 1, none => some s
  | fuel + 1, some current => do
    let next := (← s.heap current).nextInBucket
    destroyFrom { s with heap := Function.update s.heap current none } fuel next

def destroyBuckets (s : KVStore K V) : List ℕ → Defined (KVStore K V)
  | [] => some s
  | i :: is => do
    let head ← s.bucketHeads[i]?
    let s ← s.destroyFrom s.fuel head
    s.destroyBuckets is

def destroyAllNodes (s : KVStore K V) : Defined (KVStore K V) :=
  s.destroyBuckets (List.range s.capacity)

/-- The same addresses are in use. -/
def SameLive (s s' : KVStore K V) : Prop := ∀ a, (s'.heap a).isSome = (s.heap a).isSome

variable {hash : K → UInt64} {s s' s'' : KVStore K V} {c c' : ℕ → Chain K V} {m : Table K V}

theorem SameLive.refl (s : KVStore K V) : SameLive s s := fun _ => rfl

theorem SameLive.trans (h : SameLive s s') (h' : SameLive s' s'') : SameLive s s'' :=
  fun a => (h' a).trans (h a)

theorem sameLive_write {a : Addr} {n : ChronCacheNode K V} (hn : s.heap a = some n)
    (u : ChronCacheNode K V) :
    SameLive s (s.write a u) := by
  intro b
  by_cases hba : b = a
  · simp [hba, hn]
  · simp [hba]

theorem sameLive_insertIntoBucket {i : ℕ} {a : Addr} (h : s.insertIntoBucket i a = some s') :
    SameLive s s' := by
  simp only [insertIntoBucket, Option.bind_eq_bind, Option.bind_eq_some_iff] at h
  obtain ⟨head, -, h⟩ := h
  cases head with
  | none =>
    simp only [Option.bind_some, Option.bind_eq_some_iff] at h
    obtain ⟨length, -, hs'⟩ := h
    obtain rfl := Option.some.inj hs'
    exact SameLive.refl s
  | some b =>
    simp only [Option.bind_some, Option.bind_eq_some_iff] at h
    obtain ⟨_, -, _, -, node, hnode, length, -, hs'⟩ := h
    obtain rfl := Option.some.inj hs'
    exact sameLive_write hnode _

theorem sameLive_rehash {nodes : List Addr} (h : s.rehash nodes = some s') : SameLive s s' := by
  induction nodes generalizing s with
  | nil =>
    obtain rfl := Option.some.inj h
    exact SameLive.refl s
  | cons a nodes ih =>
    simp only [rehash, Option.bind_eq_bind, Option.bind_eq_some_iff] at h
    obtain ⟨node, hnode, s₁, hinsert, hrest⟩ := h
    exact ((sameLive_write hnode _).trans (sameLive_insertIntoBucket hinsert)).trans (ih hrest)

theorem heap_resetToCapacity {n : Int32} {r : Except Fault Unit} (h : resetToCapacity n s = (r, s')) :
    s'.heap = s.heap := by
  unfold resetToCapacity at h
  split_ifs at h <;> (cases h; rfl)

theorem sameLive_resize {n : Int32} {r : Except Fault Unit} (h : resize n s = (r, s')) :
    SameLive s s' := by
  unfold resize at h
  split_ifs at h
  · cases h
    exact SameLive.refl s
  · cases h
    exact SameLive.refl s
  split at h
  · cases h
    exact SameLive.refl s
  · split at h
    · cases h
      exact SameLive.refl s
    · split at h
      · rename_i hreset
        cases h
        exact fun a => by rw [heap_resetToCapacity hreset]
      · rename_i s₁ hreset
        have hsame : SameLive s s₁ := fun a => by rw [heap_resetToCapacity hreset]
        split at h
        · cases h
          exact hsame
        · rename_i hrehash
          cases h
          exact hsame.trans (sameLive_rehash hrehash)

theorem sameLive_maybeResize {r : Except Fault Unit}
    (h : ChronCacheHashMap.maybeResize s = (r, s')) : SameLive s s' := by
  unfold ChronCacheHashMap.maybeResize at h
  split_ifs at h
  · exact sameLive_resize h
  · cases h
    exact SameLive.refl s
  · cases h
    exact SameLive.refl s

theorem sameLive_unlinkFromBucketChain {a : Addr} {prev : Option Addr} {i : ℕ}
    (h : s.unlinkFromBucketChain a prev i = some s') : SameLive s s' := by
  simp only [unlinkFromBucketChain, Option.bind_eq_bind, Option.bind_eq_some_iff] at h
  obtain ⟨node, -, h⟩ := h
  cases prev with
  | none =>
    simp only [Option.bind_some, Option.bind_eq_some_iff] at h
    obtain ⟨length, -, hs'⟩ := h
    obtain rfl := Option.some.inj hs'
    exact SameLive.refl s
  | some t =>
    simp only [Option.bind_some, Option.bind_eq_some_iff] at h
    obtain ⟨prevNode, hprev, length, -, hs'⟩ := h
    obtain rfl := Option.some.inj hs'
    exact sameLive_write hprev _

section
variable [DecidableEq K]

/-- A successful removal frees one node, that of the key. -/
theorem removeFrom_frees {key : K} {i fuel : ℕ} {p prev : Option Addr}
    (h : s.removeFrom key i fuel p prev = some (true, s')) :
    ∃ a n, s.heap a = some n ∧ n.key = key ∧ ∀ b, (s'.heap b).isSome ↔ (s.heap b).isSome ∧ b ≠ a := by
  induction fuel generalizing p prev with
  | zero => cases h
  | succ fuel ih =>
    cases p with
    | none => cases h
    | some current =>
      simp only [removeFrom, Option.bind_eq_bind, Option.bind_eq_some_iff] at h
      obtain ⟨node, hnode, h⟩ := h
      split_ifs at h with hkey
      · simp only [Option.bind_eq_some_iff] at h
        obtain ⟨s₁, hunlink, hs'⟩ := h
        cases hs'
        refine ⟨current, node, hnode, hkey, fun b => ?_⟩
        have hsame := sameLive_unlinkFromBucketChain hunlink b
        by_cases hb : b = current
        · simp [hb]
        · simp [hb, hsame]
      · exact ih h

end

/-- No node is in use outside the chains. -/
def Tidy (s : KVStore K V) (c : ℕ → Chain K V) : Prop :=
  ∀ a, (s.heap a).isSome → ∃ d, Contains s.capacity c (a, d)

def Neat (hash : K → UInt64) (s : KVStore K V) : Prop := ∃ c m, Represents hash s c m ∧ Tidy s c

theorem Tidy.moved (ht : Tidy s c) (hsame : SameLive s s')
    (hcells : ∀ x, Contains s'.capacity c' x ↔ Contains s.capacity c x) : Tidy s' c' := by
  intro a ha
  rw [hsame] at ha
  obtain ⟨d, hd⟩ := ht a ha
  exact ⟨d, (hcells _).mpr hd⟩

theorem Tidy.rewrite (ht : Tidy s c) {a : Addr} {n : ChronCacheNode K V} (hn : s.heap a = some n)
    (v : V) :
    Tidy (s.write a { n with value := v }) fun j =>
      KVStore.rewrite a { n.item with value := v } (c j) := by
  intro b hb
  rw [sameLive_write hn] at hb
  obtain ⟨d, hd⟩ := ht b hb
  by_cases hba : b = a
  · exact ⟨{ n.item with value := v }, contains_rewrite.mpr ⟨_, hd, by simp [hba]⟩⟩
  · exact ⟨d, contains_rewrite.mpr ⟨_, hd, (if_neg hba).symm⟩⟩

theorem Represents.maybeResize_neat (h : Represents hash s c m) (ht : Tidy s c)
    {r : Except Fault Unit} (hrun : ChronCacheHashMap.maybeResize s = (r, s')) : Neat hash s' := by
  obtain ⟨r', s₁, c₁, hrun₁, hrep, hcells⟩ := h.maybeResize_cells
  rw [hrun] at hrun₁
  obtain ⟨rfl, rfl⟩ := Prod.mk.inj hrun₁
  exact ⟨c₁, m, hrep, ht.moved (sameLive_maybeResize hrun) hcells⟩

section
variable [DecidableEq K]

theorem Represents.insertNew_tidy (h : Represents hash s c m) (ht : Tidy s c) {key : K}
    (hnone : m key = none) (v : V) :
    ∃ s' c', (s.allocate ⟨key, hash key, v, none⟩).2.insertIntoBucket
      (s.computeBucketIndex (hash key)) s.nextAddr =
        some s' ∧ Represents hash s' c' (m.insert key v) ∧ Tidy s' c' := by
  obtain ⟨s', c', hrun, hrep, -, -, hcells⟩ := h.insertNew hnone v
  refine ⟨s', c', hrun, hrep, fun a ha => ?_⟩
  rw [sameLive_insertIntoBucket hrun] at ha
  by_cases hnew : a = s.nextAddr
  · exact ⟨_, (hcells _).mpr (.inr (by rw [hnew]))⟩
  · have hold : (s.heap a).isSome := by
      simpa [KVStore.allocate, hnew] using ha
    obtain ⟨d, hd⟩ := ht a hold
    exact ⟨d, (hcells _).mpr (.inl hd)⟩

theorem Represents.set_tidy (h : Represents hash s c m) (ht : Tidy s c) (key : K) (v : V) :
    ∃ s' c', s.set hash key v = some (true, s') ∧
      Represents hash s' c' (m.insert key v) ∧ Tidy s' c' := by
  rcases h.getPtr_cases key with ⟨hptr, hnone⟩ | ⟨a, n, hptr, hn, rfl, -, hx⟩
  · obtain ⟨s', c', hrun, hrep, ht'⟩ := h.insertNew_tidy ht hnone v
    refine ⟨s', c', ?_, hrep, ht'⟩
    rw [getPtr] at hptr
    simp only [KVStore.set, hptr, Option.bind_eq_bind, Option.bind_some]
    exact congrArg (fun r => r.bind fun s => some (true, s)) hrun
  · refine ⟨_, _, ?_, h.rewrite hx hn v, ht.rewrite hn v⟩
    rw [getPtr] at hptr
    simp [KVStore.set, hptr, hn]

theorem Represents.getOrAdd_tidy (h : Represents hash s c m) (ht : Tidy s c) (init : V) (key : K) :
    ∃ a s' c', s.getOrAdd hash init key = some (a, s') ∧
      Represents hash s' c' (m.getOrAdd key init).2 ∧ Tidy s' c' := by
  rcases h.getPtr_cases key with ⟨hptr, hnone⟩ | ⟨a, n, hptr, -, rfl, hval, -⟩
  · obtain ⟨s', c', hrun, hrep, ht'⟩ := h.insertNew_tidy ht hnone init
    refine ⟨s.nextAddr, s', c', ?_, by simpa [Table.getOrAdd, hnone] using hrep, ht'⟩
    rw [getPtr] at hptr
    simp only [KVStore.getOrAdd, hptr, Option.bind_eq_bind, Option.bind_some]
    exact congrArg (fun r => r.bind fun s' => some (s.nextAddr, s')) hrun
  · refine ⟨a, s, c, ?_, by simpa [Table.getOrAdd, hval] using h, ht⟩
    rw [getPtr] at hptr
    simp [KVStore.getOrAdd, hptr]

theorem Represents.remove_tidy (h : Represents hash s c m) (ht : Tidy s c) {key : K} {v : V}
    (hv : m key = some v) :
    ∃ s' c', s.remove hash key = some (true, s') ∧
      Represents hash s' c' (m.erase key) ∧ Tidy s' c' := by
  obtain ⟨s', c', hrun, hrep, -, -, hcells⟩ := h.remove_present hv
  refine ⟨s', c', hrun, hrep, fun b hb => ?_⟩
  simp only [KVStore.remove, Option.bind_eq_bind, Option.bind_eq_some_iff] at hrun
  obtain ⟨head, -, hremove⟩ := hrun
  obtain ⟨a, n, hn, rfl, hlive⟩ := removeFrom_frees hremove
  obtain ⟨hb, hba⟩ := (hlive b).mp hb
  obtain ⟨d, hd⟩ := ht b hb
  -- the cell of the key is the one that was freed
  obtain ⟨e, he⟩ := ht a (by simp [hn])
  obtain ⟨n', hn', hitem⟩ := h.inv.heap_of_contains he
  have hkey : e.key = n.key := by
    rw [Option.some.inj (hn.symm.trans hn')]
    exact (congrArg Item.key hitem).symm
  refine ⟨d, hcells _ hd fun hdkey => hba ?_⟩
  exact congrArg Prod.fst (h.inv.eq_of_key hd he (hdkey.trans hkey.symm))

end

/-! ## The destructor -/

/-- The inner loop deletes the nodes of one chain, each once. -/
theorem destroyFrom_eq {l : Chain K V} {p : Option Addr} {fuel : ℕ}
    (hl : Linked nodeView s.heap p l none) (hfuel : l.length < fuel) :
    ∃ s', s.destroyFrom fuel p = some s' ∧ s'.bucketHeads = s.bucketHeads ∧ s'.nextAddr = s.nextAddr ∧
      ∀ a, s'.heap a = if a ∈ addrs l then none else s.heap a := by
  induction l generalizing s p fuel with
  | nil =>
    obtain rfl : p = none := hl
    obtain ⟨fuel, rfl⟩ := Nat.exists_eq_succ_of_ne_zero (Nat.ne_of_gt hfuel)
    exact ⟨s, rfl, rfl, rfl, fun a => by simp⟩
  | cons x l ih =>
    have hnodup := hl.nodup
    obtain ⟨a, d⟩ := x
    obtain ⟨rfl, n, hn, rfl, hrest⟩ := hl
    obtain ⟨fuel, rfl⟩ := Nat.exists_eq_succ_of_ne_zero (Nat.ne_of_gt (Nat.zero_lt_of_lt hfuel))
    rw [addrs, List.map_cons, List.nodup_cons] at hnodup
    -- the rest of the chain does not pass through the node that is gone
    have hrest' : Linked nodeView (Function.update s.heap a none) (nodeView.next n) l none := by
      refine hrest.congr fun b hb => Function.update_of_ne ?_ _ _
      rintro rfl
      exact hnodup.1 hb
    obtain ⟨s', hrun, hheads, hnext, hheap⟩ :=
      ih (s := { s with heap := Function.update s.heap a none }) hrest' (Nat.lt_of_succ_lt_succ hfuel)
    refine ⟨s', ?_, hheads, hnext, fun b => ?_⟩
    · simp only [destroyFrom, hn, Option.bind_eq_bind, Option.bind_some]
      exact hrun
    · simp only [hheap b, addrs, List.map_cons, List.mem_cons]
      by_cases hba : b = a
      · subst hba
        rw [Function.update_self, ite_self, if_pos (.inl rfl)]
      · simp only [hba, false_or, ne_eq, not_false_eq_true, Function.update_of_ne]

theorem Inv.destroyBuckets_eq (h : Inv hash s c) {is : List ℕ} (his : ∀ i ∈ is, i < s.capacity)
    (hnodup : is.Nodup) {s₁ : KVStore K V} (hheads : s₁.bucketHeads = s.bucketHeads)
    (hnext : s₁.nextAddr = s.nextAddr) (hheap : ∀ i ∈ is, ∀ a ∈ addrs (c i), s₁.heap a = s.heap a) :
    ∃ s', s₁.destroyBuckets is = some s' ∧
      ∀ a, s'.heap a = if ∃ i ∈ is, a ∈ addrs (c i) then none else s₁.heap a := by
  induction is generalizing s₁ with
  | nil => exact ⟨s₁, rfl, fun a => by simp⟩
  | cons i is ih =>
    have hi := his i (by simp)
    obtain ⟨head, hhead, hl⟩ := (h.bucket i hi).linked
    have hl₁ : Linked nodeView s₁.heap head (c i) none := hl.congr fun a ha => hheap i (by simp) a ha
    have hfuel : (c i).length < s₁.fuel := by
      rw [fuel, hnext]
      exact h.length_lt_fuel hi
    obtain ⟨s₂, hrun, hheads₂, hnext₂, hheap₂⟩ := destroyFrom_eq hl₁ hfuel
    rw [List.nodup_cons] at hnodup
    obtain ⟨s', hrest, hheap'⟩ :=
      ih (fun j hj => his j (by simp [hj])) hnodup.2 (hheads₂.trans hheads)
        (hnext₂.trans hnext) (by
          intro j hj a ha
          have hout : a ∉ addrs (c i) := by
            intro hmem
            exact hnodup.1 (h.disjoint hi (his j (by simp [hj])) hmem ha ▸ hj)
          rw [hheap₂, if_neg hout]
          exact hheap j (by simp [hj]) a ha)
    refine ⟨s', ?_, fun a => ?_⟩
    · simp [destroyBuckets, hheads, hhead, hrun, hrest]
    · rw [hheap', hheap₂]
      simp only [List.mem_cons, exists_eq_or_imp]
      by_cases hmem : a ∈ addrs (c i)
      · simp only [hmem, true_or, if_true, ite_self]
      · simp only [hmem, false_or, if_false]

theorem Neat.destroyAllNodes (h : Neat hash s) :
    ∃ s', s.destroyAllNodes = some s' ∧ ∀ a, s'.heap a = none := by
  obtain ⟨c, m, hrep, ht⟩ := h
  obtain ⟨s', hrun, hheap⟩ := hrep.inv.destroyBuckets_eq
    (fun i (hi : i ∈ List.range s.capacity) =>
      List.mem_range.mp hi) List.nodup_range rfl rfl fun _ _ _ _ => rfl
  refine ⟨s', hrun, fun a => ?_⟩
  rw [hheap]
  split_ifs with hmem
  · rfl
  · by_contra hlive
    obtain ⟨d, i, hi, hd⟩ := ht a (Option.isSome_iff_ne_none.mpr hlive)
    exact hmem ⟨i, List.mem_range.mpr hi, List.mem_map_of_mem hd⟩

end KVStore

namespace MapStep
open KVStore
variable {K V τ : Type} [DecidableEq K] {hash : K → UInt64} (init : V) {s : KVStore K V}
  {c : ℕ → Chain K V}
  {m : Table K V} (t : τ)

theorem set_neat (h : Represents hash s c m) (ht : Tidy s c) (key : K) (value : V)
    (postFn : Action τ Unit) :
    Neat hash ((MapOp.set key value postFn).run hash init (s, t)).2.1 := by
  obtain ⟨s₁, c₁, hset, hrep, ht₁⟩ := h.set_tidy ht key value
  cases hpost : postFn t with
  | mk r t' =>
    cases r with
    | error e =>
      simp only [MapOp.run, ChronCacheHashMap.set, hset, hpost]
      exact ⟨c₁, _, hrep, ht₁⟩
    | ok _ =>
      cases hresize : ChronCacheHashMap.maybeResize s₁ with
      | mk r' s' =>
        simp only [MapOp.run, ChronCacheHashMap.set, hset, hpost, hresize]
        have hneat := hrep.maybeResize_neat ht₁ hresize
        cases r' <;> exact hneat

theorem getOrAdd_neat (h : Represents hash s c m) (ht : Tidy s c) (key : K) :
    Neat hash (ChronCacheHashMap.getOrAdd hash init key (s, t)).2.1 := by
  obtain ⟨a, s₁, c₁, hget, hrep, ht₁⟩ := h.getOrAdd_tidy ht init key
  cases hresize : ChronCacheHashMap.maybeResize s₁ with
  | mk r' s' =>
    simp only [ChronCacheHashMap.getOrAdd, hget, hresize]
    have hneat := hrep.maybeResize_neat ht₁ hresize
    cases r' <;> exact hneat

theorem remove_neat (h : Represents hash s c m) (ht : Tidy s c) (key : K) (postFn : Action τ Unit) :
    Neat hash ((MapOp.remove key postFn).run hash init (s, t)).2.1 := by
  cases hm : m key with
  | none =>
    simp only [MapOp.run, ChronCacheHashMap.remove, h.remove_absent hm]
    exact ⟨c, m, h, ht⟩
  | some v =>
    obtain ⟨s', c', hremove, hrep, ht'⟩ := h.remove_tidy ht hm
    simp only [MapOp.run, ChronCacheHashMap.remove, hremove]
    cases hpost : postFn t with
    | mk r t' => cases r <;> exact ⟨c', _, hrep, ht'⟩

theorem processAndRemoveIf_neat (h : Represents hash s c m) (ht : Tidy s c) (key : K)
    (condFn : CondFn V τ) :
    Neat hash ((MapOp.processAndRemoveIf key condFn).run hash init (s, t)).2.1 := by
  rcases h.getPtr_cases key with ⟨hptr, -⟩ | ⟨a, n, hptr, hn, rfl, -, hx⟩
  · simp only [MapOp.run, ChronCacheHashMap.processAndRemoveIf, hptr]
    cases hcond : condFn.absent t with
    | mk r t' => cases r <;> exact ⟨c, m, h, ht⟩
  · simp only [MapOp.run, ChronCacheHashMap.processAndRemoveIf, hptr, hn]
    cases hcond : condFn.present n.value t with
    | mk r vt =>
      obtain ⟨v, t'⟩ := vt
      have hrep := h.rewrite hx hn v
      have ht' := ht.rewrite hn v
      cases r with
      | error e => exact ⟨_, _, hrep, ht'⟩
      | ok b =>
        cases b with
        | false => exact ⟨_, _, hrep, ht'⟩
        | true =>
          obtain ⟨s', c', hremove, hrep', ht''⟩ := hrep.remove_tidy ht' (Table.insert_same m n.key v)
          simp only [hremove]
          exact ⟨c', _, hrep', ht''⟩

omit [DecidableEq K] in
theorem resize_neat (h : Represents hash s c m) (ht : Tidy s c) (newCapacity : Int32) :
    Neat hash (ChronCacheHashMap.resize newCapacity (s, t)).2.1 := by
  by_cases hvalid : ValidCapacity s newCapacity
  · obtain ⟨s', c', hrun, hrep, -, -, hcells⟩ := h.resize hvalid
    simp only [ChronCacheHashMap.resize, hrun]
    exact ⟨c', m, hrep, ht.moved (sameLive_resize hrun) hcells⟩
  · obtain ⟨what, hrun⟩ := resize_invalid hvalid
    simp only [ChronCacheHashMap.resize, hrun]
    exact ⟨c, m, h, ht⟩

/-- A pointer that is written through leads to a node of a chain, as all live nodes are in one. -/
theorem write_neat (h : Represents hash s c m) (ht : Tidy s c) (a : Addr) (f : V → V) :
    Neat hash ((write a f : MapStep K V τ).run hash init (s, t)).2.1 := by
  simp only [run]
  cases hn : s.heap a with
  | none => exact ⟨c, m, h, ht⟩
  | some n =>
    obtain ⟨d, hd⟩ := ht a (by simp [hn])
    obtain ⟨n', hn', hitem⟩ := h.inv.heap_of_contains hd
    obtain rfl : n = n' := Option.some.inj (hn.symm.trans hn')
    exact ⟨_, _, h.rewrite (hitem ▸ hd) hn _, ht.rewrite hn _⟩

theorem neat (h : Neat hash s) (step : MapStep K V τ) :
    Neat hash (step.run hash init (s, t)).2.1 := by
  obtain ⟨c, m, hrep, ht⟩ := h
  cases step with
  | write a f => exact write_neat init t hrep ht a f
  | call op =>
    cases op with
    | set key value postFn => exact set_neat init t hrep ht key value postFn
    | get key =>
      simp only [run, MapOp.run, ChronCacheHashMap.get, hrep.get key]
      exact ⟨c, m, hrep, ht⟩
    | getOrAdd key =>
      rw [run, MapOp.run_getOrAdd_snd]
      exact getOrAdd_neat init t hrep ht key
    | remove key postFn => exact remove_neat init t hrep ht key postFn
    | processAndRemoveIf key condFn => exact processAndRemoveIf_neat init t hrep ht key condFn
    | resize newCapacity => exact resize_neat t hrep ht newCapacity

end MapStep

open KVStore
variable {K V τ : Type} [DecidableEq K]

/-- The lookup of its key finds each node that is in use. -/
theorem KVStore.Neat.getPtr {hash : K → UInt64} {s : KVStore K V} (h : Neat hash s) {a : Addr}
    {n : ChronCacheNode K V} (hn : s.heap a = some n) : s.getPtr hash n.key = some (some a) := by
  obtain ⟨c, m, hrep, ht⟩ := h
  obtain ⟨d, hd⟩ := ht a (by simp [hn])
  obtain ⟨n', hn', hitem⟩ := hrep.inv.heap_of_contains hd
  obtain rfl : n = n' := Option.some.inj (hn.symm.trans hn')
  have hat : NodeAt hash n.key a n.value s :=
    ⟨c, m, hrep, d, hd, (congrArg Item.key hitem).symm, (congrArg Item.value hitem).symm⟩
  exact hat.getPtr.1

/-- Over every run of a table that was constructed, whatever the callbacks do and whatever
is written through pointers, each node in use is the one that a lookup of its key finds,
and the destructor is defined and deletes each once: none stays behind. -/
theorem map_nodes_freed (hash : K → UInt64) (init : V) {capacity : Int32} {threshold : ℚ}
    {s₀ : KVStore K V} (hcreate : KVStore.create capacity threshold = .ok s₀) (t : τ)
    (steps : List (MapStep K V τ)) :
    let s := ((pointerMachine hash init).after (s₀, t) steps).1
    (∀ a n, s.heap a = some n → s.getPtr hash n.key = some (some a)) ∧
      ∃ s', s.destroyAllNodes = some s' ∧ ∀ a, s'.heap a = none := by
  intro s
  have hneat : Neat hash s := by
    apply (pointerMachine hash init).preserved (I := fun s : KVStore K V × τ => Neat hash s.1)
    · rintro ⟨s, t⟩ step hneat
      exact MapStep.neat init t hneat step
    · obtain ⟨c, h⟩ := KVStore.represents_of_create hash hcreate
      refine ⟨c, _, h, fun a ha => ?_⟩
      unfold KVStore.create KVStore.resetToCapacity at hcreate
      split_ifs at hcreate
      cases hcreate
      cases ha
  exact ⟨fun a n hn => hneat.getPtr hn, hneat.destroyAllNodes⟩

/-- A doubling, an overwritten value, a callback that throws and a removal. -/
theorem map_nodes_freed_witness :
    let steps : List (MapStep ℕ ℕ Unit) :=
      [.call (.set 1 10 fun t => (.ok (), t)), .call (.set 2 20 fun t => (.error (.exception []), t)),
        .call (.getOrAdd 3), .write 1 (· + 1), .call (.remove 1 fun t => (.ok (), t))]
    ∃ s₀, KVStore.create 2 (3 / 4) = .ok s₀ ∧
      let s := ((pointerMachine (fun _ => 0) 7).after (s₀, ()) steps).1
      (∀ a n, s.heap a = some n → s.getPtr (fun _ => 0) n.key = some (some a)) ∧
        ∃ s', s.destroyAllNodes = some s' ∧ ∀ a, s'.heap a = none :=
  ⟨_, rfl, map_nodes_freed (fun _ => 0) 7 (rfl : KVStore.create 2 (3 / 4) = .ok _) () _⟩

end Chrono
