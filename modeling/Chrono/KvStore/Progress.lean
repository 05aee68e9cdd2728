import Chrono.KvStore.Alone
import Chrono.Library.Completion

/-!
# Calls of the hash map end

`resize_lock` is taken before the lock of a slice and each at most once in a call, so workers
never wait for each other in a circle. Every call ends after a bounded number of its own steps,
also where a mutex makes new readers wait behind a waiting writer.
-/
namespace Chrono
open Library

/-- The steps that a call has before it, at most. -/
def Pc.stepsLeft {K : Type} : Pc K → ℕ
  | .idle => 0
  | .rehashed => 1
  | .rehashing _ => 2
  | .queued => 3
  | .checking => 4
  | .leaving _ => 5
  | .measured .. | .reading .. => 6
  | .writing .. => 7
  | .waiting .. => 8
  | .locating .. => 9

/-- The next step takes no lock. -/
def Pc.Unblocked {K : Type} : Pc K → Prop
  | .idle | .waiting .. | .queued => False
  | _ => True

namespace Pc
variable {K : Type} {p : Pc K}

theorem unblocked_of_readsSlice {i : Fin numSlices} (h : p.readsSlice i) : p.Unblocked := by
  cases p with
  | reading => trivial
  | _ => exact h.elim

theorem unblocked_of_writesSlice {i : Fin numSlices} (h : p.writesSlice i) : p.Unblocked := by
  cases p with
  | writing | measured => trivial
  | _ => exact h.elim

theorem unblocked_of_ownsResize (h : p.ownsResize) : p.Unblocked := by
  cases p with
  | rehashing | rehashed => trivial
  | _ => exact h.elim

theorem unblocked_of_sharesResize (h : p.sharesResize)
    (hwait : ∀ access key i, p ≠ .waiting access key i) :
    p.Unblocked := by
  cases p with
  | waiting access key i => exact absurd rfl (hwait access key i)
  | locating | reading | writing | measured | leaving => trivial
  | _ => exact h.elim

/-- A call waits for the lock of a slice, for `resize_lock`, or for nothing. -/
theorem blocked_cases (hbusy : p ≠ .idle) (hblocked : ¬ p.Unblocked) :
    (∃ access key i, p = .waiting access key i) ∨ p = .queued := by
  cases p with
  | idle => exact absurd rfl hbusy
  | waiting access key i => exact .inl ⟨access, key, i, rfl⟩
  | queued => exact .inr rfl
  | _ => exact absurd trivial hblocked

end Pc

namespace LockedMap
variable {W K V : Type} {hash : K → UInt64}

/-- No call is under way. -/
def Quiet (s : LockedMap W K V) : Prop := ∀ w, s.pc w = .idle

def WriterWaits (s : LockedMap W K V) (i : Fin numSlices) : Prop :=
  ∃ w key, s.pc w = .waiting .write key i

/-- Work inside the write sections. -/
def Works [DecidableEq K] (hash : K → UInt64) : LockedMap W K V → LockedMap W K V → Prop :=
  Relation.ReflTransGen fun s s' => ∃ w key, Mutates hash w key s s'

theorem Works.pc_eq [DecidableEq K] {s s' : LockedMap W K V} (h : Works hash s s') :
    s'.pc = s.pc := by
  induction h with
  | refl => rfl
  | tail _ hstep ih =>
    obtain ⟨w, key, hmutates⟩ := hstep
    rw [hmutates.pc_eq, ih]

theorem Inv.works [DecidableEq K] {s s' : LockedMap W K V} (h : Inv hash s)
    (hwork : Works hash s s') : Inv hash s' := by
  induction hwork with
  | refl => exact h
  | tail _ hstep ih =>
    obtain ⟨w, key, hmutates⟩ := hstep
    exact ih.mutates hmutates

variable [DecidableEq W]

/-- A step of a call that is under way, after work inside the sections. -/
def Advances [DecidableEq K] (hash : K → UInt64) (s s' : LockedMap W K V) : Prop :=
  ∃ t w, Works hash s t ∧ t.pc w ≠ .idle ∧ Moves hash w t s'

/-- The same where no reader passes a waiting writer. -/
def AdvancesInTurn [DecidableEq K] (hash : K → UInt64) (s s' : LockedMap W K V) : Prop :=
  ∃ t w, Works hash s t ∧ t.pc w ≠ .idle ∧ Moves hash w t s' ∧
    ∀ key i, t.pc w = .waiting .read key i → ¬ t.WriterWaits i

theorem Moves.stepsLeft_lt {s s' : LockedMap W K V} {w : W} (hstep : Moves hash w s s')
    (hbusy : s.pc w ≠ .idle) :
    (s'.pc w).stepsLeft < (s.pc w).stepsLeft := by
  cases hstep with
  | shareResize _ _ hpc | requestResize _ hpc => exact absurd hpc hbusy
  | unshareResize hpc | check hpc =>
    rw [hpc, goto_pc_self]
    split_ifs <;> simp [Pc.stepsLeft]
  | locate hpc | lockSliceShared hpc | lockSlice hpc | measure hpc | unlockSliceShared hpc | unlockSlice hpc
  | unlockMeasured hpc | lockResize hpc | rehash hpc | unlockResize hpc =>
    rw [hpc, goto_pc_self]
    simp [Pc.stepsLeft]

/-! ## Some worker is never blocked -/

theorem exists_moves {s : LockedMap W K V} {w : W} (h : (s.pc w).Unblocked) :
    ∃ s', Moves hash w s s' := by
  cases hpc : s.pc w with
  | idle | waiting | queued =>
    rw [hpc] at h
    exact h.elim
  | locating access key => exact ⟨_, .locate hpc⟩
  | reading key i => exact ⟨_, .unlockSliceShared hpc⟩
  | writing key i => exact ⟨_, .measure hpc⟩
  | measured key i r => exact ⟨_, .unlockMeasured hpc⟩
  | leaving r => exact ⟨_, .unshareResize hpc⟩
  | checking => exact ⟨_, .check hpc⟩
  | rehashing n => exact ⟨_, .rehash hpc⟩
  | rehashed => exact ⟨_, .unlockResize hpc⟩

namespace Inv
variable {s : LockedMap W K V}

/-- Where only blocked calls are under way, a worker that waits for a slice gets its lock. -/
theorem slice_granted (h : Inv hash s) (hblocked : ∀ w, ¬ (s.pc w).Unblocked) {w : W}
    {access : Access} {key : K} {i : Fin numSlices} (hw : s.pc w = .waiting access key i) :
    ∃ s', Moves hash w s s' := by
  have hreads (v : W) : ¬ (s.pc v).readsSlice i := fun hv =>
    hblocked v (Pc.unblocked_of_readsSlice hv)
  have hwrites (v : W) : ¬ (s.pc v).writesSlice i := fun hv =>
    hblocked v (Pc.unblocked_of_writesSlice hv)
  cases access with
  | read =>
    obtain ⟨m, hm⟩ := (h.slices i).lockShared_granted hwrites w
    exact ⟨_, .lockSliceShared hw hm⟩
  | write =>
    obtain ⟨m, hm⟩ := (h.slices i).lock_granted hreads hwrites w
    exact ⟨_, .lockSlice hw hm⟩

/-- Where calls are under way, one of them goes on, and passes no writer that waits. -/
theorem exists_inTurn (h : Inv hash s) (hbusy : ¬ s.Quiet) :
    ∃ w s', s.pc w ≠ .idle ∧ Moves hash w s s' ∧
    ∀ key i, s.pc w = .waiting .read key i → ¬ s.WriterWaits i := by
  obtain ⟨w, hw⟩ := not_forall.mp hbusy
  by_cases hfree : ∃ v, (s.pc v).Unblocked
  · obtain ⟨v, hv⟩ := hfree
    obtain ⟨s', hmove⟩ := exists_moves hv
    refine ⟨v, s', fun hidle => ?_, hmove, fun key i hpc => ?_⟩
    · rw [hidle] at hv
      exact hv
    · rw [hpc] at hv
      exact hv.elim
  have hblocked : ∀ v, ¬ (s.pc v).Unblocked := not_exists.mp hfree
  by_cases hslice : ∃ v access key i, s.pc v = .waiting access key i
  · obtain ⟨v, access, key, i, hv⟩ := hslice
    -- a writer of the slice goes first
    by_cases hwriter : s.WriterWaits i
    · obtain ⟨u, key', hu⟩ := hwriter
      obtain ⟨s', hmove⟩ := h.slice_granted hblocked hu
      exact ⟨u, s', by simp [hu], hmove, by simp [hu]⟩
    · obtain ⟨s', hmove⟩ := h.slice_granted hblocked hv
      refine ⟨v, s', by simp [hv], hmove, fun key' j hpc => ?_⟩
      rw [hv] at hpc
      cases hpc
      exact hwriter
  · have hwait (v : W) (access : Access) (key : K) (i : Fin numSlices) :
        s.pc v ≠ .waiting access key i :=
      fun hv => hslice ⟨v, access, key, i, hv⟩
    have hqueued : s.pc w = .queued := by
      obtain ⟨access, key, i, hv⟩ | hv := Pc.blocked_cases hw (hblocked w)
      · exact absurd hv (hwait w access key i)
      · exact hv
    obtain ⟨m, hm⟩ := h.resize.lock_granted
      (fun v hv => hblocked v (Pc.unblocked_of_sharesResize hv (hwait v)))
      (fun v hv => hblocked v (Pc.unblocked_of_ownsResize hv)) w
    exact ⟨w, _, hw, .lockResize hqueued hm, by simp [hqueued]⟩

end Inv

/-! ## Every call ends -/

theorem AdvancesInTurn.advances [DecidableEq K] {s s' : LockedMap W K V}
    (h : AdvancesInTurn hash s s') :
    Advances hash s s' := by
  obtain ⟨t, w, hwork, hbusy, hmove, -⟩ := h
  exact ⟨t, w, hwork, hbusy, hmove⟩

/-- Whichever waiting worker is given a free mutex, calls under way come to their ends. -/
theorem drains [DecidableEq K] [Fintype W] {step : LockedMap W K V → LockedMap W K V → Prop}
    (hgrants : ∀ s s', AdvancesInTurn hash s s' → step s s')
    (hsteps : ∀ s s', step s s' → Advances hash s s') :
    Drains step (Inv hash) Quiet fun s => ∑ w, (s.pc w).stepsLeft where
  keeps h hstep := by
    obtain ⟨t, w, hwork, -, hmove⟩ := hsteps _ _ hstep
    exact (h.works hwork).moves hmove
  lowers {s s'} _ hstep := by
    obtain ⟨t, w, hwork, hbusy, hmove⟩ := hsteps _ _ hstep
    rw [← hwork.pc_eq]
    exact sum_rank_lt (hmove.stepsLeft_lt hbusy) fun v hv => hmove.pc_other hv
  progress h hbusy := by
    obtain ⟨w, s', hw, hmove, hturn⟩ := h.exists_inTurn hbusy
    exact ⟨s', hgrants _ _ ⟨_, w, .refl, hw, hmove, hturn⟩⟩

theorem Inv.acts [DecidableEq K] {s s' : LockedMap W K V} {w : W} (h : Inv hash s)
    (hstep : Acts hash w s s') :
    Inv hash s' := by
  obtain hmove | ⟨key, hmutates⟩ := hstep
  · exact h.moves hmove
  · exact h.mutates hmutates

/-- No deadlock: wherever an interleaving has come to, and whether readers or writers are
preferred, the calls under way end within nine steps each, and are stuck only when all have. -/
theorem calls_end [DecidableEq K] [Fintype W] {capacity : Int32} {threshold : ℚ} {store : KVStore K V}
    (hcreate : KVStore.create capacity threshold = .ok store) {s : LockedMap W K V}
    (hrun : Relation.ReflTransGen (fun s s' => ∃ w, Acts hash w s s') (create store) s)
    {step : LockedMap W K V → LockedMap W K V → Prop}
    (hgrants : ∀ s s', AdvancesInTurn hash s s' → step s s')
    (hsteps : ∀ s s', step s s' → Advances hash s s') :
    Completes step Quiet s (∑ w, (s.pc w).stepsLeft) := by
  have hinv : Inv hash s := by
    induction hrun with
    | refl => exact .create hcreate
    | tail _ hstep ih =>
      obtain ⟨w, hacts⟩ := hstep
      exact ih.acts hacts
  exact (drains hgrants hsteps).completes hinv

/-- One worker is inside the write section of a key, another one waits to read it. -/
theorem calls_end_witness : ∃ s : LockedMap Bool ℕ ℕ, s.pc true = .writing 0 0 ∧
    s.pc false = .waiting .read 0 0 ∧
    Completes (AdvancesInTurn Nat.toUInt64) Quiet s 15 := by
  have hstart {store : KVStore ℕ ℕ} (_ : KVStore.create 2 (3 / 4) = .ok store) : Relation.ReflTransGen
      (fun s s' : LockedMap Bool ℕ ℕ => ∃ w, Acts Nat.toUInt64 w s s')
        (create store) (create store) := .refl
  have h := hstart (rfl : KVStore.create 2 (3 / 4) = .ok _)
  have h := h.tail ⟨true, .inl (.shareResize .write 0 rfl rfl)⟩
  have h := h.tail ⟨true, .inl (.locate rfl)⟩
  have h := h.tail ⟨true, .inl (.lockSlice rfl rfl)⟩
  have h := h.tail ⟨false, .inl (.shareResize .read 0 rfl rfl)⟩
  have h := h.tail ⟨false, .inl (.locate rfl)⟩
  exact ⟨_, rfl, rfl, calls_end (rfl : KVStore.create 2 (3 / 4) = .ok _) h (fun _ _ => id)
    fun _ _ hstep => hstep.advances⟩

end LockedMap
end Chrono
