import Mathlib.Algebra.Order.BigOperators.Group.Finset
import Mathlib.Tactic.Common

/-!
# Completion

Steps that lower a rank, in a system that never stops before it is done: every run ends, and
ends done.
-/
namespace Library
variable {σ : Type*}

def StepsAlong (step : σ → σ → Prop) (run : ℕ → σ) (n : ℕ) : Prop :=
  ∀ i < n, step (run i) (run (i + 1))

/-- No run from `s` has more than `bound` steps, and one that cannot go on is done. -/
def Completes (step : σ → σ → Prop) (done : σ → Prop) (s : σ) (bound : ℕ) : Prop :=
  ∀ n run, run 0 = s → StepsAlong step run n → n ≤ bound ∧ ((∀ t, ¬ step (run n) t) → done (run n))

/-- What makes runs complete. -/
structure Drains (step : σ → σ → Prop) (inv done : σ → Prop) (rank : σ → ℕ) : Prop where
  keeps : ∀ {s t}, inv s → step s t → inv t
  lowers : ∀ {s t}, inv s → step s t → rank t < rank s
  progress : ∀ {s}, inv s → ¬ done s → ∃ t, step s t

namespace Drains
variable {step : σ → σ → Prop} {inv done : σ → Prop} {rank : σ → ℕ}

theorem along (h : Drains step inv done rank) {run : ℕ → σ} (hinv : inv (run 0)) {n : ℕ}
    (hrun : StepsAlong step run n) : inv (run n) ∧ n + rank (run n) ≤ rank (run 0) := by
  induction n with
  | zero => exact ⟨hinv, (Nat.zero_add _).le⟩
  | succ n ih =>
    obtain ⟨hn, hle⟩ := ih fun i hi => hrun i (Nat.lt_succ_of_lt hi)
    have hstep := hrun n (Nat.lt_succ_self n)
    have hlt := h.lowers hn hstep
    exact ⟨h.keeps hn hstep, by omega⟩

theorem completes (h : Drains step inv done rank) {s : σ} (hinv : inv s) :
    Completes step done s (rank s) := by
  intro n run hs hrun
  subst hs
  obtain ⟨hn, hle⟩ := h.along hinv hrun
  refine ⟨Nat.le_of_add_right_le hle, fun hstuck => ?_⟩
  by_contra hdone
  obtain ⟨t, ht⟩ := h.progress hn hdone
  exact hstuck t ht

end Drains

theorem sum_rank_lt {ω π : Type*} [Fintype ω] {rank : π → ℕ} {pc pc' : ω → π} {w : ω}
    (hw : rank (pc' w) < rank (pc w)) (hother : ∀ v, v ≠ w → pc' v = pc v) :
    ∑ v, rank (pc' v) < ∑ v, rank (pc v) := by
  apply Finset.sum_lt_sum
  · intro v _
    by_cases hv : v = w
    · exact (hv ▸ hw).le
    · exact (congrArg rank (hother v hv)).le
  · exact ⟨w, Finset.mem_univ w, hw⟩

end Library
