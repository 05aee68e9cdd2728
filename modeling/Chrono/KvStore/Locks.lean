import Chrono.KvStore.Refinement
import Chrono.Library.SharedMutex

/-!
# The striped locks of the hash map

Workers run the calls of `ChronCacheHashMap` in any interleaving. A call shares
`resize_lock`, computes the slice of its key at the current capacity, takes the
lock of that slice, works on the chain, and releases both; `maybe_resize` and
`resize` own `resize_lock` alone. One operation of the store is one step.
-/
namespace Chrono
open Library

abbrev numSlices : ℕ := 16

def computeSliceIndex (bucketIndex : ℕ) : Fin numSlices := Fin.ofNat numSlices bucketIndex

def KVStore.computeBucketIndexForKey {K V : Type} (hash : K → UInt64) (s : KVStore K V) (key : K) : ℕ :=
  s.computeBucketIndex (hash key)

inductive Access where
  | read
  | write
deriving DecidableEq, Repr

/-- Where a worker stands in a call. -/
inductive Pc (K : Type) where
  | idle
  | locating (access : Access) (key : K)
  | waiting (access : Access) (key : K) (slice : Fin numSlices)
  | reading (key : K) (slice : Fin numSlices)
  | writing (key : K) (slice : Fin numSlices)
  /-- `resize_needed` is read at the end of the section. -/
  | measured (key : K) (slice : Fin numSlices) (resizeNeeded : Bool)
  | leaving (resizeNeeded : Bool)
  | checking
  | queued
  /-- Of `maybe_resize`, or of `resize` to a new capacity. -/
  | rehashing (newCapacity : Option Int32)
  | rehashed
deriving DecidableEq, Repr

namespace Pc
variable {K : Type}

def sharesResize : Pc K → Prop
  | .locating .. | .waiting .. | .reading .. | .writing .. | .measured .. | .leaving _ => True
  | _ => False

def ownsResize : Pc K → Prop
  | .rehashing _ | .rehashed => True
  | _ => False

def readsSlice (i : Fin numSlices) : Pc K → Prop
  | .reading _ slice => slice = i
  | _ => False

def writesSlice (i : Fin numSlices) : Pc K → Prop
  | .writing _ slice | .measured _ slice _ => slice = i
  | _ => False

def Reads (key : K) : Pc K → Prop
  | .reading k _ => k = key
  | _ => False

def Writes (key : K) : Pc K → Prop
  | .writing k _ | .measured k _ _ => k = key
  | _ => False

def placed : Pc K → Option (K × Fin numSlices)
  | .waiting _ key slice | .reading key slice | .writing key slice | .measured key slice _ =>
    some (key, slice)
  | _ => none

theorem sharesResize_of_placed {p : Pc K} {x : K × Fin numSlices} (h : p.placed = some x) :
    p.sharesResize := by
  cases p <;> trivial

theorem Reads.placed {p : Pc K} {key : K} (h : p.Reads key) :
    ∃ i, p.placed = some (key, i) ∧ p.readsSlice i := by
  cases p with
  | reading k i => exact ⟨i, by rw [show k = key from h]; rfl, rfl⟩
  | _ => exact h.elim

theorem Writes.placed {p : Pc K} {key : K} (h : p.Writes key) :
    ∃ i, p.placed = some (key, i) ∧ p.writesSlice i := by
  cases p with
  | writing k i | measured k i r => exact ⟨i, by rw [show k = key from h]; rfl, rfl⟩
  | _ => exact h.elim

end Pc

/-- What a call does to the store inside its write section. -/
inductive StoreOp (V : Type) where
  | set (value : V)
  | getOrAdd (init : V)
  | remove
  /-- An assignment through the pointer that `cond_fn` is handed. -/
  | overwrite (value : V)

/-- `ChronCacheHashMap` with its locks, and the workers that call it. -/
structure LockedMap (W K V : Type) where
  store : KVStore K V
  resizeLock : SharedMutex W
  sliceLocks : Fin numSlices → SharedMutex W
  pc : W → Pc K

section
variable {W K V : Type} (hash : K → UInt64)

def StoreOp.run [DecidableEq K] (key : K) : StoreOp V → KVStore K V → Defined (KVStore K V)
  | .set value, s => (s.set hash key value).map Prod.snd
  | .getOrAdd init, s => (s.getOrAdd hash init key).map Prod.snd
  | .remove, s => (s.remove hash key).map Prod.snd
  | .overwrite value, s => do
    match ← s.getPtr hash key with
    | none => some s
    | some entry => do
      let node ← s.heap entry
      some (s.write entry { node with value := value })

/-- The same on the abstract map. -/
def StoreOp.onTable [DecidableEq K] (key : K) : StoreOp V → Table K V → Table K V
  | .set value, m => m.insert key value
  | .getOrAdd init, m => (m.getOrAdd key init).2
  | .remove, m => m.erase key
  | .overwrite value, m => if m key = none then m else m.insert key value

/-- What is done under the exclusive `resize_lock`. -/
def KVStore.rehashTo (s : KVStore K V) : Option Int32 → KVStore K V
  | none => (ChronCacheHashMap.maybeResize s).2
  | some newCapacity => (KVStore.resize newCapacity s).2

/-- Inside a section every operation of the store is defined, and keeps the capacity. -/
theorem StoreOp.run_represents {hash : K → UInt64} [DecidableEq K] {s : KVStore K V}
    {c : ℕ → Chain K V} {m : Table K V} (h : s.Represents hash c m) (op : StoreOp V) (key : K) :
    ∃ s' c', op.run hash key s = some s' ∧ s'.Represents hash c' (op.onTable key m) ∧
      s'.capacity = s.capacity := by
  cases op with
  | set value =>
    obtain ⟨s', c', hrun, hrep, hcap, -⟩ := h.set key value
    exact ⟨s', c', by rw [StoreOp.run, hrun]; rfl, hrep, hcap⟩
  | getOrAdd init =>
    obtain ⟨a, d, s', c', hrun, -, -, hrep, hcap, -⟩ := h.getOrAdd init key
    exact ⟨s', c', by rw [StoreOp.run, hrun]; rfl, hrep, hcap⟩
  | remove =>
    cases hkey : m key with
    | none =>
      refine ⟨s, c, by rw [StoreOp.run, h.remove_absent hkey]; rfl, ?_, rfl⟩
      rwa [StoreOp.onTable, Table.erase, Function.update_eq_self_iff.mpr hkey.symm]
    | some v =>
      obtain ⟨s', c', hrun, hrep, hcap, -⟩ := h.remove_present hkey
      exact ⟨s', c', by rw [StoreOp.run, hrun]; rfl, hrep, hcap⟩
  | overwrite value =>
    rcases h.getPtr_cases key with ⟨hptr, hkey⟩ | ⟨a, n, hptr, hn, rfl, hkey, hx⟩
    · exact ⟨s, c, by simp [StoreOp.run, hptr], by simpa [StoreOp.onTable, hkey] using h, rfl⟩
    · have hrun : (StoreOp.overwrite value).run hash n.key s =
          some (s.write a { n with value := value }) := by
        simp [StoreOp.run, hptr, hn]
      have htable : (StoreOp.overwrite value).onTable n.key m = m.insert n.key value := by
        simp [StoreOp.onTable, hkey]
      exact ⟨_, _, hrun, htable ▸ h.rewrite hx hn value, rfl⟩

theorem KVStore.Represents.rehashTo {hash : K → UInt64} {s : KVStore K V} {c : ℕ → Chain K V}
    {m : Table K V} (h : s.Represents hash c m) (newCapacity : Option Int32) :
    ∃ c', (s.rehashTo newCapacity).Represents hash c' m := by
  cases newCapacity with
  | none =>
    by_cases hfit : s.needsResize = true → 2 * s.capacity ≤ intMax
    · obtain ⟨s', c', hrun, hrep, -⟩ := h.maybeResize hfit
      exact ⟨c', by rwa [KVStore.rehashTo, hrun]⟩
    · rw [Classical.not_imp] at hfit
      exact ⟨c, by rwa [KVStore.rehashTo, ChronCacheHashMap.maybeResize, if_pos hfit.1, if_neg hfit.2]⟩
  | some n =>
    by_cases hvalid : KVStore.ValidCapacity s n
    · obtain ⟨s', c', hrun, hrep, -⟩ := h.resize hvalid
      exact ⟨c', by rwa [KVStore.rehashTo, hrun]⟩
    · obtain ⟨what, hrun⟩ := KVStore.resize_invalid hvalid
      exact ⟨c, by rwa [KVStore.rehashTo, hrun]⟩

namespace LockedMap

def create (store : KVStore K V) : LockedMap W K V := ⟨store, .free, fun _ => .free, fun _ => .idle⟩

def slice (s : LockedMap W K V) (key : K) : Fin numSlices :=
  computeSliceIndex (s.store.computeBucketIndexForKey hash key)

section
variable [DecidableEq W]

def goto (s : LockedMap W K V) (w : W) (p : Pc K) : LockedMap W K V :=
  { s with pc := Function.update s.pc w p }

def withSlice (s : LockedMap W K V) (i : Fin numSlices) (m : SharedMutex W) : LockedMap W K V :=
  { s with sliceLocks := Function.update s.sliceLocks i m }

@[simp] theorem goto_pc_self (s : LockedMap W K V) (w : W) (p : Pc K) : (s.goto w p).pc w = p := by
  simp [goto]

/-- The steps of a worker that leave the chains alone, a rehash apart. -/
inductive Moves (w : W) : LockedMap W K V → LockedMap W K V → Prop
  | shareResize {s : LockedMap W K V} {m : SharedMutex W} (access : Access) (key : K)
    (hpc : s.pc w = .idle)
      (hlock : s.resizeLock.lockShared w = some m) :
      Moves w s ({ s with resizeLock := m }.goto w (.locating access key))
  | locate {s : LockedMap W K V} {access : Access} {key : K} (hpc : s.pc w = .locating access key) :
      Moves w s (s.goto w (.waiting access key (s.slice hash key)))
  | lockSliceShared {s : LockedMap W K V} {key : K} {i : Fin numSlices} {m : SharedMutex W}
      (hpc : s.pc w = .waiting .read key i) (hlock : (s.sliceLocks i).lockShared w = some m) :
      Moves w s ((s.withSlice i m).goto w (.reading key i))
  | lockSlice {s : LockedMap W K V} {key : K} {i : Fin numSlices} {m : SharedMutex W}
      (hpc : s.pc w = .waiting .write key i) (hlock : (s.sliceLocks i).lock w = some m) :
      Moves w s ((s.withSlice i m).goto w (.writing key i))
  | measure {s : LockedMap W K V} {key : K} {i : Fin numSlices} (hpc : s.pc w = .writing key i) :
      Moves w s (s.goto w (.measured key i s.store.needsResize))
  | unlockSliceShared {s : LockedMap W K V} {key : K} {i : Fin numSlices} (hpc : s.pc w = .reading key i) :
      Moves w s ((s.withSlice i ((s.sliceLocks i).unlockShared w)).goto w (.leaving false))
  /-- Of `remove` and `process_and_remove_if`, and where a callback threw. -/
  | unlockSlice {s : LockedMap W K V} {key : K} {i : Fin numSlices} (hpc : s.pc w = .writing key i) :
      Moves w s ((s.withSlice i (s.sliceLocks i).unlock).goto w (.leaving false))
  | unlockMeasured {s : LockedMap W K V} {key : K} {i : Fin numSlices} {resizeNeeded : Bool}
      (hpc : s.pc w = .measured key i resizeNeeded) :
      Moves w s ((s.withSlice i (s.sliceLocks i).unlock).goto w (.leaving resizeNeeded))
  | unshareResize {s : LockedMap W K V} {resizeNeeded : Bool} (hpc : s.pc w = .leaving resizeNeeded) :
      Moves w s ({ s with resizeLock := s.resizeLock.unlockShared w }.goto w
        (if resizeNeeded then .checking else .idle))
  | check {s : LockedMap W K V} (hpc : s.pc w = .checking) :
      Moves w s (s.goto w (if s.store.needsResize then .queued else .idle))
  | lockResize {s : LockedMap W K V} {m : SharedMutex W} (hpc : s.pc w = .queued)
      (hlock : s.resizeLock.lock w = some m) :
      Moves w s ({ s with resizeLock := m }.goto w (.rehashing none))
  | requestResize {s : LockedMap W K V} {m : SharedMutex W} (newCapacity : Int32) (hpc : s.pc w = .idle)
      (hlock : s.resizeLock.lock w = some m) :
      Moves w s ({ s with resizeLock := m }.goto w (.rehashing (some newCapacity)))
  | rehash {s : LockedMap W K V} {newCapacity : Option Int32} (hpc : s.pc w = .rehashing newCapacity) :
      Moves w s ({ s with store := s.store.rehashTo newCapacity }.goto w .rehashed)
  | unlockResize {s : LockedMap W K V} (hpc : s.pc w = .rehashed) :
      Moves w s ({ s with resizeLock := s.resizeLock.unlock }.goto w .idle)

/-- The step of a worker that changes the chain of its key. -/
inductive Mutates [DecidableEq K] (w : W) (key : K) : LockedMap W K V → LockedMap W K V → Prop
  | run {s : LockedMap W K V} {i : Fin numSlices} {store : KVStore K V} (op : StoreOp V)
      (hpc : s.pc w = .writing key i) (hrun : op.run hash key s.store = some store) :
      Mutates w key s { s with store := store }

end

/-- The owners of the locks stand where the locks are owned, each call has the slice that
its key has now, and the store represents a map. -/
structure Inv (s : LockedMap W K V) : Prop where
  resize : SharedMutex.Tracks Pc.sharesResize Pc.ownsResize s.pc s.resizeLock
  slices : ∀ i, SharedMutex.Tracks (Pc.readsSlice i) (Pc.writesSlice i) s.pc (s.sliceLocks i)
  placed : ∀ w key i, (s.pc w).placed = some (key, i) → i = s.slice hash key
  store : ∃ c m, s.store.Represents hash c m

variable {hash}

theorem Moves.pc_other [DecidableEq W] {s s' : LockedMap W K V} {v w : W}
    (hstep : Moves hash w s s') (hvw : v ≠ w) :
    s'.pc v = s.pc v := by
  cases hstep <;> exact Function.update_of_ne hvw _ _

theorem Mutates.pc_eq [DecidableEq K] {s s' : LockedMap W K V} {w : W} {key : K}
    (hstep : Mutates hash w key s s') :
    s'.pc = s.pc := by
  cases hstep
  rfl

namespace Inv
variable {s s' : LockedMap W K V} {w w' : W} {key key' : K}

theorem create {capacity : Int32} {threshold : ℚ} {store : KVStore K V}
    (h : KVStore.create capacity threshold = .ok store) :
    Inv hash (LockedMap.create store : LockedMap W K V) where
  resize := SharedMutex.Tracks.free fun _ => ⟨id, id⟩
  slices _ := SharedMutex.Tracks.free fun _ => ⟨id, id⟩
  placed _ _ _ hplaced := by cases hplaced
  store := (KVStore.represents_of_create hash h).imp fun _ hrep => ⟨_, hrep⟩

/-! ## What a step keeps -/

section
variable [DecidableEq W]

theorem moves_resize (h : Inv hash s) (hstep : Moves hash w s s') :
    SharedMutex.Tracks Pc.sharesResize Pc.ownsResize s'.pc s'.resizeLock := by
  have howner (p : Pc K) (hpc : s.pc w = p) (q : Pc K) (hs : q.sharesResize ↔ p.sharesResize)
      (hx : q.ownsResize ↔ p.ownsResize) :
      SharedMutex.Tracks Pc.sharesResize Pc.ownsResize (Function.update s.pc w q) s.resizeLock :=
    h.resize.keep (hpc ▸ hs) (hpc ▸ hx)
  cases hstep with
  | shareResize access key hpc hlock => exact h.resize.lockShared hlock trivial id
  | unshareResize hpc =>
    apply h.resize.unlockShared (by rw [hpc]; trivial)
    · split_ifs <;> exact id
    · split_ifs <;> exact id
  | lockResize hpc hlock => exact h.resize.lock hlock id trivial
  | requestResize n hpc hlock => exact h.resize.lock hlock id trivial
  | unlockResize hpc => exact h.resize.unlock (by rw [hpc]; trivial) id id
  | check hpc =>
    apply howner _ hpc
    · split_ifs <;> exact Iff.rfl
    · split_ifs <;> exact Iff.rfl
  | locate hpc | lockSliceShared hpc | lockSlice hpc | measure hpc | unlockSliceShared hpc | unlockSlice hpc
  | unlockMeasured hpc | rehash hpc => exact howner _ hpc _ Iff.rfl Iff.rfl

theorem moves_slices (h : Inv hash s) (hstep : Moves hash w s s') (i : Fin numSlices) :
    SharedMutex.Tracks (Pc.readsSlice i) (Pc.writesSlice i) s'.pc (s'.sliceLocks i) := by
  have hkeep (p : Pc K) (hpc : s.pc w = p) (q : Pc K) (hs : q.readsSlice i ↔ p.readsSlice i)
      (hx : q.writesSlice i ↔ p.writesSlice i) :
      SharedMutex.Tracks (Pc.readsSlice i) (Pc.writesSlice i)
        (Function.update s.pc w q) (s.sliceLocks i) :=
    (h.slices i).keep (hpc ▸ hs) (hpc ▸ hx)
  cases hstep with
  | @lockSliceShared key j m hpc hlock =>
    have hj := (h.slices j).lockShared (p := Pc.reading key j) hlock rfl id
    refine SharedMutex.Tracks.family h.slices hj (fun i hij => ?_) i
    simp [hpc, Pc.readsSlice, Pc.writesSlice, Ne.symm hij]
  | @lockSlice key j m hpc hlock =>
    have hj := (h.slices j).lock (p := Pc.writing key j) hlock id rfl
    refine SharedMutex.Tracks.family h.slices hj (fun i hij => ?_) i
    simp [hpc, Pc.readsSlice, Pc.writesSlice, Ne.symm hij]
  | @unlockSliceShared key j hpc =>
    have hj := (h.slices j).unlockShared (p := Pc.leaving false) (by rw [hpc]; rfl) id id
    refine SharedMutex.Tracks.family h.slices hj (fun i hij => ?_) i
    simp [hpc, Pc.readsSlice, Pc.writesSlice, Ne.symm hij]
  | @unlockSlice key j hpc =>
    have hj := (h.slices j).unlock (p := Pc.leaving false) (by rw [hpc]; rfl) id id
    refine SharedMutex.Tracks.family h.slices hj (fun i hij => ?_) i
    simp [hpc, Pc.readsSlice, Pc.writesSlice, Ne.symm hij]
  | @unlockMeasured key j r hpc =>
    have hj := (h.slices j).unlock (p := Pc.leaving r) (by rw [hpc]; rfl) id id
    refine SharedMutex.Tracks.family h.slices hj (fun i hij => ?_) i
    simp [hpc, Pc.readsSlice, Pc.writesSlice, Ne.symm hij]
  | unshareResize hpc | check hpc =>
    apply hkeep _ hpc
    · split_ifs <;> exact Iff.rfl
    · split_ifs <;> exact Iff.rfl
  | shareResize _ _ hpc | locate hpc | lockResize hpc | requestResize _ hpc | unlockResize hpc | measure hpc
  | rehash hpc => exact hkeep _ hpc _ Iff.rfl Iff.rfl

/-- The slice of a key does not move while a call shares `resize_lock`. -/
theorem moves_slice (h : Inv hash s) (hstep : Moves hash w s s') {v : W}
    (hv : (s.pc v).sharesResize) (key : K) :
    s'.slice hash key = s.slice hash key := by
  cases hstep with
  | rehash hpc => exact absurd hv (h.resize.not_shared (by rw [hpc]; trivial))
  | _ => rfl

theorem moves_placed (h : Inv hash s) (hstep : Moves hash w s s') {v : W} {i : Fin numSlices}
    (hv : (s'.pc v).placed = some (key, i)) : i = s'.slice hash key := by
  have hbefore (hplaced : (s.pc v).placed = some (key, i)) : i = s'.slice hash key := by
    rw [h.moves_slice hstep (Pc.sharesResize_of_placed hplaced)]
    exact h.placed v key i hplaced
  by_cases hvw : v = w
  · subst hvw
    cases hstep with
    | locate hpc =>
      rw [goto_pc_self] at hv
      cases hv
      rfl
    | lockSliceShared hpc | lockSlice hpc | measure hpc =>
      rw [goto_pc_self] at hv
      exact hbefore (by rwa [hpc])
    | unshareResize hpc | check hpc =>
      rw [goto_pc_self] at hv
      split_ifs at hv <;> cases hv
    | shareResize | unlockSliceShared | unlockSlice | unlockMeasured | lockResize | requestResize | rehash
    | unlockResize =>
      rw [goto_pc_self] at hv
      cases hv
  · exact hbefore (hstep.pc_other hvw ▸ hv)

theorem moves (h : Inv hash s) (hstep : Moves hash w s s') : Inv hash s' where
  resize := h.moves_resize hstep
  slices := h.moves_slices hstep
  placed _ _ _ hv := h.moves_placed hstep hv
  store := by
    obtain ⟨c, m, hrep⟩ := h.store
    cases hstep with
    | @rehash n hpc =>
      obtain ⟨c', hrep'⟩ := hrep.rehashTo n
      exact ⟨c', m, hrep'⟩
    | _ => exact ⟨c, m, hrep⟩

end

theorem mutates [DecidableEq K] (h : Inv hash s) (hstep : Mutates hash w key s s') : Inv hash s' := by
  cases hstep with
  | @run i store op hpc hrun =>
    obtain ⟨c, m, hrep⟩ := h.store
    obtain ⟨store', c', hrun', hrep', hcap⟩ := op.run_represents hrep key
    obtain rfl : store = store' := Option.some.inj (hrun.symm.trans hrun')
    refine ⟨h.resize, h.slices, fun v k j hv => ?_, c', _, hrep'⟩
    rw [h.placed v k j hv]
    simp [slice, KVStore.computeBucketIndexForKey, KVStore.computeBucketIndex, hcap]

/-! ## Mutual exclusion -/

theorem slice_eq (h : Inv hash s) {i j : Fin numSlices} (hi : (s.pc w).placed = some (key, i))
    (hj : (s.pc w').placed = some (key', j))
    (hbucket : s.store.computeBucketIndexForKey hash key =
      s.store.computeBucketIndexForKey hash key') : i = j := by
  rw [h.placed w key i hi, h.placed w' key' j hj, slice, slice, hbucket]

theorem writers_eq (h : Inv hash s) (hw : (s.pc w).Writes key) (hw' : (s.pc w').Writes key')
    (hbucket : s.store.computeBucketIndexForKey hash key =
      s.store.computeBucketIndexForKey hash key') : w = w' := by
  obtain ⟨i, hi, hwi⟩ := hw.placed
  obtain ⟨j, hj, hwj⟩ := hw'.placed
  obtain rfl := h.slice_eq hi hj hbucket
  exact (h.slices i).exclusive_unique hwi hwj

theorem not_reads (h : Inv hash s) (hw : (s.pc w).Writes key)
    (hbucket : s.store.computeBucketIndexForKey hash key =
      s.store.computeBucketIndexForKey hash key') :
    ¬ (s.pc w').Reads key' := by
  intro hr
  obtain ⟨i, hi, hwi⟩ := hw.placed
  obtain ⟨j, hj, hrj⟩ := hr.placed
  obtain rfl := h.slice_eq hi hj hbucket
  exact (h.slices i).not_shared hwi hrj

theorem not_inside (h : Inv hash s) (hw : (s.pc w).ownsResize) :
    ¬ (s.pc w').Reads key ∧ ¬ (s.pc w').Writes key := by
  have hshared : ¬ (s.pc w').sharesResize := h.resize.not_shared hw
  refine ⟨fun hr => hshared ?_, fun hw' => hshared ?_⟩
  · obtain ⟨i, hi, -⟩ := hr.placed
    exact Pc.sharesResize_of_placed hi
  · obtain ⟨i, hi, -⟩ := hw'.placed
    exact Pc.sharesResize_of_placed hi

end Inv

end LockedMap
end
end Chrono
