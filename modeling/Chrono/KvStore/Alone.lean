import Mathlib.Logic.Relation
import Chrono.KvStore.Locks

/-!
# One worker alone

While all others are idle, a worker that runs a call step by step leaves the store
that the call leaves when it is one step.
-/
namespace Chrono
open Library

variable {W K V τ : Type} [DecidableEq W] {hash : K → UInt64}

namespace LockedMap

theorem Moves.to {w : W} {s t u : LockedMap W K V} (h : Moves hash w s t) (htu : t = u) :
    Moves hash w s u :=
  htu ▸ h

/-- All workers but one are idle. -/
def alone (w : W) (store : KVStore K V) (resizeLock : SharedMutex W)
    (sliceLocks : Fin numSlices → SharedMutex W) (p : Pc K) : LockedMap W K V :=
  ⟨store, resizeLock, sliceLocks, Function.update (fun _ => .idle) w p⟩

abbrev oneSlice (i : Fin numSlices) (m : SharedMutex W) : Fin numSlices → SharedMutex W :=
  Function.update (fun _ => .free) i m

section
variable (w : W) (store : KVStore K V) (resizeLock : SharedMutex W)
  (sliceLocks : Fin numSlices → SharedMutex W)

@[simp] theorem alone_pc (p : Pc K) : (alone w store resizeLock sliceLocks p).pc w = p := by
  simp [alone]

theorem create_eq_alone : create store = alone w store .free (fun _ => .free) .idle := by
  simp [create, alone]

end

variable [DecidableEq K]

/-- A step of one worker. -/
def Acts (hash : K → UInt64) (w : W) (s s' : LockedMap W K V) : Prop :=
  Moves hash w s s' ∨ ∃ key, Mutates hash w key s s'

def Runs (hash : K → UInt64) (w : W) : LockedMap W K V → LockedMap W K V → Prop :=
  Relation.ReflTransGen (Acts hash w)

theorem Runs.refl {w : W} {s : LockedMap W K V} : Runs hash w s s := Relation.ReflTransGen.refl

theorem Runs.trans {w : W} {s t u : LockedMap W K V} (h : Runs hash w s t) (h' : Runs hash w t u) :
    Runs hash w s u :=
  Relation.ReflTransGen.trans h h'

theorem Runs.move {w : W} {s t u : LockedMap W K V} (h : Runs hash w s t)
    (hmove : Moves hash w t u) : Runs hash w s u :=
  Relation.ReflTransGen.tail h (.inl hmove)

section
variable (w : W) (store : KVStore K V) (key : K) (i : Fin numSlices)

/-- In the write section of a key. -/
abbrev inside : LockedMap W K V :=
  alone w store (.sharedBy w) (oneSlice i (.ownedBy w)) (.writing key i)

/-- In the read section of a key. -/
abbrev reading : LockedMap W K V :=
  alone w store (.sharedBy w) (oneSlice i (.sharedBy w)) (.reading key i)

theorem runs_waiting (access : Access) : Runs hash w (create store)
    (alone w store (.sharedBy w) (fun _ => .free)
      (.waiting access key ((create store : LockedMap W K V).slice hash key))) := by
  have hshare : Moves hash w (alone w store .free (fun _ => .free) .idle)
      (alone w store (.sharedBy w) (fun _ => .free) (.locating access key)) :=
    (Moves.shareResize access key (alone_pc ..) (SharedMutex.lockShared_free w)).to
      (by simp [goto, alone])
  have hlocate : Moves hash w (alone w store (.sharedBy w) (fun _ => .free) (.locating access key))
      (alone w store (.sharedBy w) (fun _ => .free)
        (.waiting access key ((create store : LockedMap W K V).slice hash key))) :=
    (Moves.locate (alone_pc ..)).to (by simp [goto, alone, slice, create])
  rw [create_eq_alone w]
  exact (Runs.refl.move hshare).move hlocate

theorem runs_inside :
    Runs hash w (create store)
      (inside w store key ((create store : LockedMap W K V).slice hash key)) := by
  have hwaiting : Runs hash w _ _ := runs_waiting w store key .write
  generalize (create store : LockedMap W K V).slice hash key = i at hwaiting ⊢
  have hfree : ((alone w store (.sharedBy w)
      (fun _ => .free) (.waiting .write key i)).sliceLocks i).lock w =
      some (.ownedBy w) := SharedMutex.lock_free w
  have hlock : Moves hash w (alone w store (.sharedBy w) (fun _ => .free) (.waiting .write key i))
      (inside w store key i) :=
    (Moves.lockSlice (alone_pc ..) hfree).to (by simp [goto, withSlice, alone])
  exact hwaiting.move hlock

theorem Runs.mutate {w : W} {store store' : KVStore K V} {key : K} {i : Fin numSlices}
    {s : LockedMap W K V} (h : Runs hash w s (inside w store key i)) {op : StoreOp V}
    (hrun : op.run hash key store = some store') :
    Runs hash w s (inside w store' key i) :=
  Relation.ReflTransGen.tail h (.inr ⟨key, .run op (alone_pc ..) hrun⟩)

omit [DecidableEq K] in
theorem moves_unshare : Moves hash w (alone w store (.sharedBy w) (fun _ => .free) (.leaving false))
    (alone w store .free (fun _ => .free) .idle) :=
  (Moves.unshareResize (alone_pc ..)).to (by simp [goto, alone, SharedMutex.unlockShared_sharedBy])

theorem runs_leave : Runs hash w (inside w store key i) (create store) := by
  have hunlock : Moves hash w (inside w store key i)
      (alone w store (.sharedBy w) (fun _ => .free) (.leaving false)) :=
    (Moves.unlockSlice (alone_pc ..)).to
      (by simp [goto, withSlice, alone, SharedMutex.unlock_ownedBy])
  rw [create_eq_alone w]
  exact (Runs.refl.move hunlock).move (moves_unshare w store)

theorem runs_reading :
    Runs hash w (create store)
      (reading w store key ((create store : LockedMap W K V).slice hash key)) := by
  have hwaiting : Runs hash w _ _ := runs_waiting w store key .read
  generalize (create store : LockedMap W K V).slice hash key = i at hwaiting ⊢
  have hfree : ((alone w store (.sharedBy w)
      (fun _ => .free) (.waiting .read key i)).sliceLocks i).lockShared w =
      some (.sharedBy w) := SharedMutex.lockShared_free w
  have hlock : Moves hash w (alone w store (.sharedBy w) (fun _ => .free) (.waiting .read key i))
      (reading w store key i) :=
    (Moves.lockSliceShared (alone_pc ..) hfree).to (by simp [goto, withSlice, alone])
  exact hwaiting.move hlock

theorem runs_leave_reading : Runs hash w (reading w store key i) (create store) := by
  have hunlock : Moves hash w (reading w store key i)
      (alone w store (.sharedBy w) (fun _ => .free) (.leaving false)) :=
    (Moves.unlockSliceShared (alone_pc ..)).to
      (by simp [goto, withSlice, alone, SharedMutex.unlockShared_sharedBy])
  rw [create_eq_alone w]
  exact (Runs.refl.move hunlock).move (moves_unshare w store)

theorem runs_rehash (newCapacity : Option Int32) :
    Runs hash w (alone w store (.ownedBy w) (fun _ => .free) (.rehashing newCapacity))
      (create (store.rehashTo newCapacity)) := by
  have hrehash : Moves hash w (alone w store (.ownedBy w) (fun _ => .free) (.rehashing newCapacity))
      (alone w (store.rehashTo newCapacity) (.ownedBy w) (fun _ => .free) .rehashed) :=
    (Moves.rehash (alone_pc ..)).to (by simp [goto, alone])
  have hunlock : Moves hash w
      (alone w (store.rehashTo newCapacity) (.ownedBy w) (fun _ => .free) .rehashed)
      (alone w (store.rehashTo newCapacity) .free (fun _ => .free) .idle) :=
    (Moves.unlockResize (alone_pc ..)).to (by simp [goto, alone, SharedMutex.unlock_ownedBy])
  rw [create_eq_alone w]
  exact (Runs.refl.move hrehash).move hunlock

/-- The load factor is read in the section, and again before and under the exclusive lock. -/
theorem runs_leave_measured : Runs hash w (inside w store key i) (create (store.rehashTo none)) := by
  have hmeasure : Moves hash w (inside w store key i)
      (alone w store (.sharedBy w) (oneSlice i (.ownedBy w)) (.measured key i store.needsResize)) :=
    (Moves.measure (alone_pc ..)).to (by simp [goto, alone])
  have hunlock : Moves hash w
      (alone w store (.sharedBy w) (oneSlice i (.ownedBy w)) (.measured key i store.needsResize))
      (alone w store (.sharedBy w) (fun _ => .free) (.leaving store.needsResize)) :=
    (Moves.unlockMeasured (alone_pc ..)).to
      (by simp [goto, withSlice, alone, SharedMutex.unlock_ownedBy])
  have hunshare : Moves hash w
      (alone w store (.sharedBy w) (fun _ => .free) (.leaving store.needsResize))
      (alone w store .free (fun _ => .free) (if store.needsResize then .checking else .idle)) :=
    (Moves.unshareResize (alone_pc ..)).to (by simp [goto, alone, SharedMutex.unlockShared_sharedBy])
  have hleft := ((Runs.refl.move hmeasure).move hunlock).move hunshare
  by_cases hneeds : store.needsResize = true
  · rw [if_pos hneeds] at hleft
    have hcheck : Moves hash w (alone w store .free (fun _ => .free) .checking)
        (alone w store .free (fun _ => .free) .queued) :=
      (Moves.check (alone_pc ..)).to (by simp [goto, alone, hneeds])
    have hlock : Moves hash w (alone w store .free (fun _ => .free) .queued)
        (alone w store (.ownedBy w) (fun _ => .free) (.rehashing none)) :=
      (Moves.lockResize (alone_pc ..) (SharedMutex.lock_free w)).to (by simp [goto, alone])
    exact ((hleft.move hcheck).move hlock).trans (runs_rehash w store none)
  · rw [if_neg hneeds] at hleft
    have hsame : store.rehashTo none = store := by
      rw [KVStore.rehashTo, ChronCacheHashMap.maybeResize, if_neg hneeds]
    rw [hsame, create_eq_alone w]
    exact hleft

end
end LockedMap

namespace MapOp
variable [DecidableEq K] {init : V} {store : KVStore K V} {c : ℕ → Chain K V} {m : Table K V}

theorem set_runs (h : store.Represents hash c m) (w : W) (key : K) (value : V)
    (postFn : Action τ Unit) (t : τ) :
    LockedMap.Runs hash w (.create store)
      (.create ((MapOp.set key value postFn).run hash init (store, t)).2.1) := by
  obtain ⟨store', c', hset, -⟩ := h.set key value
  have hrun : (StoreOp.set value).run hash key store = some store' := by rw [StoreOp.run, hset]; rfl
  have hmutated := (LockedMap.runs_inside w store key).mutate hrun
  cases hpost : postFn t with
  | mk r t' =>
    cases r with
    | error e =>
      simp only [run, ChronCacheHashMap.set, hset, hpost]
      exact hmutated.trans (LockedMap.runs_leave ..)
    | ok _ =>
      have hstore : ((MapOp.set key value postFn).run hash init (store, t)).2.1 =
          store'.rehashTo none := by
        simp only [run, ChronCacheHashMap.set, hset, hpost, KVStore.rehashTo]
        rcases ChronCacheHashMap.maybeResize store' with ⟨_ | _, _⟩ <;> rfl
      rw [hstore]
      exact hmutated.trans (LockedMap.runs_leave_measured ..)

theorem getOrAdd_runs (h : store.Represents hash c m) (w : W) (key : K) (t : τ) :
    LockedMap.Runs hash w (.create store)
      (.create ((MapOp.getOrAdd key : MapOp K V τ).run hash init (store, t)).2.1) := by
  obtain ⟨a, d, store', c', hget, -⟩ := h.getOrAdd init key
  have hrun : (StoreOp.getOrAdd init).run hash key store = some store' := by
    rw [StoreOp.run, hget]; rfl
  have hmutated := (LockedMap.runs_inside w store key).mutate hrun
  have hstore : ((MapOp.getOrAdd key : MapOp K V τ).run hash init (store, t)).2.1 =
      store'.rehashTo none := by
    simp only [run, ChronCacheHashMap.getOrAdd, hget, KVStore.rehashTo]
    rcases ChronCacheHashMap.maybeResize store' with ⟨_ | _, s⟩
    · rfl
    · cases hnode : s.heap a <;> simp [hnode]
  rw [hstore]
  exact hmutated.trans (LockedMap.runs_leave_measured ..)

theorem remove_runs (h : store.Represents hash c m) (w : W) (key : K) (postFn : Action τ Unit)
    (t : τ) :
    LockedMap.Runs hash w (.create store)
      (.create ((MapOp.remove key postFn : MapOp K V τ).run hash init (store, t)).2.1) := by
  have hinside : LockedMap.Runs hash w _ _ := LockedMap.runs_inside w store key
  cases hm : m key with
  | none =>
    simp only [run, ChronCacheHashMap.remove, h.remove_absent hm]
    exact hinside.trans (LockedMap.runs_leave ..)
  | some v =>
    obtain ⟨store', c', hremove, -⟩ := h.remove_present hm
    have hrun : StoreOp.remove.run hash key store = some store' := by rw [StoreOp.run, hremove]; rfl
    have hstore : ((MapOp.remove key postFn : MapOp K V τ).run hash init
        (store, t)).2.1 = store' := by
      simp only [run, ChronCacheHashMap.remove, hremove]
      rcases postFn t with ⟨_ | _, _⟩ <;> rfl
    rw [hstore]
    exact (hinside.mutate hrun).trans (LockedMap.runs_leave ..)

theorem processAndRemoveIf_runs (h : store.Represents hash c m) (w : W) (key : K)
    (condFn : CondFn V τ) (t : τ) :
    LockedMap.Runs hash w (.create store)
      (.create ((MapOp.processAndRemoveIf key condFn).run hash init (store, t)).2.1) := by
  have hinside : LockedMap.Runs hash w _ _ := LockedMap.runs_inside w store key
  rcases h.getPtr_cases key with ⟨hptr, -⟩ | ⟨a, n, hptr, hn, rfl, -, hx⟩
  · have hstore : ((MapOp.processAndRemoveIf key condFn).run hash init (store, t)).2.1 = store := by
      simp only [run, ChronCacheHashMap.processAndRemoveIf, hptr]
      rcases condFn.absent t with ⟨_ | _, _⟩ <;> rfl
    rw [hstore]
    exact hinside.trans (LockedMap.runs_leave ..)
  · cases hcond : condFn.present n.value t with
    | mk r vt =>
      obtain ⟨v, t'⟩ := vt
      have hwrite : (StoreOp.overwrite v).run hash n.key store =
          some (store.write a { n with value := v }) := by
        simp [StoreOp.run, hptr, hn]
      have hwritten := hinside.mutate hwrite
      cases r with
      | error e =>
        simp only [run, ChronCacheHashMap.processAndRemoveIf, hptr, hn, hcond]
        exact hwritten.trans (LockedMap.runs_leave ..)
      | ok b =>
        cases b with
        | false =>
          simp only [run, ChronCacheHashMap.processAndRemoveIf, hptr, hn, hcond]
          exact hwritten.trans (LockedMap.runs_leave ..)
        | true =>
          have hrep := h.rewrite hx hn v
          obtain ⟨store', c', hremove, -⟩ := hrep.remove_present (Table.insert_same m n.key v)
          have hrun : StoreOp.remove.run hash n.key (store.write a { n with value := v }) =
              some store' := by
            rw [StoreOp.run, hremove]; rfl
          simp only [run, ChronCacheHashMap.processAndRemoveIf, hptr, hn, hcond, hremove]
          exact (hwritten.mutate hrun).trans (LockedMap.runs_leave ..)

theorem resize_runs (w : W) (newCapacity : Int32) (t : τ) :
    LockedMap.Runs hash w (.create store)
      (.create ((MapOp.resize newCapacity : MapOp K V τ).run hash init (store, t)).2.1) := by
  have hrequest : LockedMap.Moves hash w (.alone w store .free (fun _ => .free) .idle)
      (.alone w store (.ownedBy w) (fun _ => .free) (.rehashing (some newCapacity))) :=
    (LockedMap.Moves.requestResize newCapacity (LockedMap.alone_pc ..) (SharedMutex.lock_free w)).to
      (by simp [LockedMap.goto, LockedMap.alone])
  have hqueued := LockedMap.Runs.refl.move hrequest
  rw [← LockedMap.create_eq_alone] at hqueued
  exact hqueued.trans (LockedMap.runs_rehash w store (some newCapacity))

theorem runs (h : store.Represents hash c m) (w : W) (op : MapOp K V τ) (t : τ) :
    LockedMap.Runs hash w (.create store) (.create (op.run hash init (store, t)).2.1) := by
  cases op with
  | set key value postFn => exact set_runs h w key value postFn t
  | get key =>
    simp only [run, ChronCacheHashMap.get, h.get key]
    exact (LockedMap.runs_reading w store key).trans (LockedMap.runs_leave_reading ..)
  | getOrAdd key => exact getOrAdd_runs h w key t
  | remove key postFn => exact remove_runs h w key postFn t
  | processAndRemoveIf key condFn => exact processAndRemoveIf_runs h w key condFn t
  | resize newCapacity => exact resize_runs w newCapacity t

end MapOp
end Chrono
