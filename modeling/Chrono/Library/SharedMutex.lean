import Mathlib.Data.Finset.Erase
import Mathlib.Data.Finset.Insert
import Mathlib.Tactic.Common

/-!
# Mutexes with shared and exclusive owners

A mutex has one exclusive owner or any number of shared ones. In a program, where each worker
stands tells which mutexes it owns; that a mutex agrees with the workers is
preserved by every way of taking and releasing it.
-/
namespace Library

@[ext]
structure SharedMutex (ω : Type*) where
  writer : Option ω
  readers : Finset ω
  exclusive : writer ≠ none → readers = ∅

namespace SharedMutex
variable {ω : Type*}

def free : SharedMutex ω := ⟨none, ∅, fun h => absurd rfl h⟩

/-- Owned by one worker, shared or exclusively. -/
def sharedBy (w : ω) : SharedMutex ω := ⟨none, {w}, fun h => absurd rfl h⟩

def ownedBy (w : ω) : SharedMutex ω := ⟨some w, ∅, fun _ => rfl⟩

section
variable [DecidableEq ω] (m : SharedMutex ω) (w : ω)

/-- Shared ownership is given while nobody owns the mutex exclusively. -/
def lockShared : Option (SharedMutex ω) :=
  if m.writer = none then some ⟨none, insert w m.readers, fun h => absurd rfl h⟩ else none

def unlockShared : SharedMutex ω :=
  ⟨m.writer, m.readers.erase w, fun h => by simp [m.exclusive h]⟩

/-- Exclusive ownership is given while nobody owns the mutex. -/
def lock : Option (SharedMutex ω) :=
  if m.writer = none ∧ m.readers = ∅ then some ⟨some w, ∅, fun _ => rfl⟩ else none

def unlock : SharedMutex ω := ⟨none, m.readers, fun h => absurd rfl h⟩

theorem lockShared_free : (free : SharedMutex ω).lockShared w = some (sharedBy w) := rfl

theorem unlockShared_sharedBy : (sharedBy w).unlockShared w = free := by
  ext
  · rfl
  · simp [unlockShared, sharedBy, free]

theorem lock_free : (free : SharedMutex ω).lock w = some (ownedBy w) := rfl

omit [DecidableEq ω] in
theorem unlock_ownedBy : (ownedBy w).unlock = free := rfl

end

/-! ## The owners of a mutex, and where the workers stand -/

section
variable {π : Type*} (shared exclusively : π → Prop) (pc : ω → π) (m : SharedMutex ω)

/-- The owners are the workers that stand where the mutex is owned. -/
structure Tracks : Prop where
  readers : ∀ w, w ∈ m.readers ↔ shared (pc w)
  writer : ∀ w, m.writer = some w ↔ exclusively (pc w)

end

namespace Tracks
variable {π : Type*} {shared exclusively : π → Prop} {pc : ω → π} {m m' : SharedMutex ω} {w w' : ω}
  {p : π}

theorem free (h : ∀ w, ¬ shared (pc w) ∧ ¬ exclusively (pc w)) :
    Tracks shared exclusively pc SharedMutex.free where
  readers w := iff_of_false (Finset.notMem_empty w) (h w).1
  writer w := iff_of_false (by simp [SharedMutex.free]) (h w).2

theorem exclusive_unique (h : Tracks shared exclusively pc m) (hw : exclusively (pc w))
    (hw' : exclusively (pc w')) : w = w' := by
  have := (h.writer w).mpr hw
  rw [(h.writer w').mpr hw'] at this
  exact (Option.some.inj this).symm

theorem not_shared (h : Tracks shared exclusively pc m) (hw : exclusively (pc w)) :
    ¬ shared (pc w') := by
  intro hshared
  have hmem := (h.readers w').mpr hshared
  rw [m.exclusive (by rw [(h.writer w).mpr hw]; simp)] at hmem
  exact Finset.notMem_empty w' hmem

variable [DecidableEq ω]

theorem keep (h : Tracks shared exclusively pc m) (hs : shared p ↔ shared (pc w))
    (hx : exclusively p ↔ exclusively (pc w)) :
    Tracks shared exclusively (Function.update pc w p) m where
  readers v := by
    by_cases hv : v = w
    · rw [hv, Function.update_self, hs]
      exact h.readers w
    · rw [Function.update_of_ne hv]
      exact h.readers v
  writer v := by
    by_cases hv : v = w
    · rw [hv, Function.update_self, hx]
      exact h.writer w
    · rw [Function.update_of_ne hv]
      exact h.writer v

theorem lockShared (h : Tracks shared exclusively pc m) (hm : m.lockShared w = some m')
    (hs : shared p) (hx : ¬ exclusively p) :
    Tracks shared exclusively (Function.update pc w p) m' := by
  unfold SharedMutex.lockShared at hm
  split_ifs at hm with hfree
  obtain rfl := Option.some.inj hm
  refine ⟨?_, ?_⟩
  · intro v
    by_cases hv : v = w
    · simp [hv, hs]
    · rw [Function.update_of_ne hv, Finset.mem_insert]
      exact ⟨fun hmem => (h.readers v).mp (hmem.resolve_left hv), fun hv' =>
        .inr ((h.readers v).mpr hv')⟩
  · intro v
    by_cases hv : v = w
    · simp [hv, hx]
    · rw [Function.update_of_ne hv, ← h.writer v, hfree]

theorem unlockShared (h : Tracks shared exclusively pc m) (hw : shared (pc w)) (hs : ¬ shared p)
    (hx : ¬ exclusively p) :
    Tracks shared exclusively (Function.update pc w p) (m.unlockShared w) where
  readers v := by
    by_cases hv : v = w
    · simp [hv, hs, SharedMutex.unlockShared]
    · rw [Function.update_of_ne hv, SharedMutex.unlockShared, Finset.mem_erase]
      exact ⟨fun hmem => (h.readers v).mp hmem.2, fun hv' => ⟨hv, (h.readers v).mpr hv'⟩⟩
  writer v := by
    by_cases hv : v = w
    · rw [hv, Function.update_self]
      refine iff_of_false (fun hwriter => ?_) hx
      exact h.not_shared ((h.writer w).mp hwriter) hw
    · rw [Function.update_of_ne hv]
      exact h.writer v

theorem lock (h : Tracks shared exclusively pc m) (hm : m.lock w = some m') (hs : ¬ shared p)
    (hx : exclusively p) : Tracks shared exclusively (Function.update pc w p) m' := by
  unfold SharedMutex.lock at hm
  split_ifs at hm with hfree
  obtain rfl := Option.some.inj hm
  refine ⟨?_, ?_⟩
  · intro v
    by_cases hv : v = w
    · simp [hv, hs]
    · rw [Function.update_of_ne hv, ← h.readers v, hfree.2]
  · intro v
    by_cases hv : v = w
    · simp [hv, hx]
    · rw [Function.update_of_ne hv, ← h.writer v, hfree.1]
      simp [Ne.symm hv]

theorem unlock (h : Tracks shared exclusively pc m) (hw : exclusively (pc w)) (hs : ¬ shared p)
    (hx : ¬ exclusively p) : Tracks shared exclusively (Function.update pc w p) m.unlock where
  readers v := by
    have hnone : ¬ v ∈ m.readers := fun hmem => h.not_shared hw ((h.readers v).mp hmem)
    refine iff_of_false hnone ?_
    by_cases hv : v = w
    · rwa [hv, Function.update_self]
    · rw [Function.update_of_ne hv]
      exact h.not_shared hw
  writer v := by
    refine iff_of_false (by simp [SharedMutex.unlock]) ?_
    by_cases hv : v = w
    · rwa [hv, Function.update_self]
    · rw [Function.update_of_ne hv]
      exact fun hv' => hv (h.exclusive_unique hv' hw)

/-- Shared ownership is given where no worker owns the mutex exclusively. -/
theorem lockShared_granted (h : Tracks shared exclusively pc m) (hfree : ∀ v, ¬ exclusively (pc v))
    (w : ω) :
    ∃ m', m.lockShared w = some m' := by
  have hwriter : m.writer = none :=
    Option.eq_none_iff_forall_ne_some.mpr fun v hv => hfree v ((h.writer v).mp hv)
  exact ⟨_, if_pos hwriter⟩

/-- Exclusive ownership is given where no worker owns the mutex. -/
theorem lock_granted (h : Tracks shared exclusively pc m) (hshared : ∀ v, ¬ shared (pc v))
    (hfree : ∀ v, ¬ exclusively (pc v)) (w : ω) : ∃ m', m.lock w = some m' := by
  have hwriter : m.writer = none :=
    Option.eq_none_iff_forall_ne_some.mpr fun v hv => hfree v ((h.writer v).mp hv)
  have hreaders : m.readers = ∅ :=
    Finset.eq_empty_of_forall_notMem fun v hv => hshared v ((h.readers v).mp hv)
  exact ⟨_, if_pos ⟨hwriter, hreaders⟩⟩

/-- A step that touches one mutex of a family, by a worker that stands as before with the others. -/
theorem family {ι : Type*} [DecidableEq ι] {shared exclusively : ι → π → Prop}
    {mutexes : ι → SharedMutex ω} {j : ι} (h : ∀ i, Tracks (shared i) (exclusively i) pc (mutexes i))
    (hj : Tracks (shared j) (exclusively j) (Function.update pc w p) m)
    (hother : ∀ i, i ≠ j → (shared i p ↔ shared i (pc w)) ∧
      (exclusively i p ↔ exclusively i (pc w))) (i : ι) :
    Tracks (shared i) (exclusively i) (Function.update pc w p) (Function.update mutexes j m i) := by
  by_cases hij : i = j
  · subst hij
    rwa [Function.update_self]
  · rw [Function.update_of_ne hij]
    exact (h i).keep (hother i hij).1 (hother i hij).2

end Tracks
end SharedMutex
end Library
