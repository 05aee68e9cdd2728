import Mathlib.Data.List.Basic

/-!
# Deterministic machines and their runs

A machine answers each input with an output and moves to a next state. Runs,
guards along runs, invariants, exact guards, simulation and the independence of
one part of the inputs from the rest are stated once here.
-/
namespace Library

/-- One step answers an input and yields the next state. -/
structure Machine (σ ι ο : Type*) where
  step : σ → ι → ο × σ

namespace Machine
variable {σ τ ι ο : Type*} (M : Machine σ ι ο)

def after (s : σ) : List ι → σ
  | [] => s
  | i :: is => after (M.step s i).2 is

/-- The outputs of a run, one for each input. -/
def outputs (s : σ) : List ι → List ο
  | [] => []
  | i :: is => (M.step s i).1 :: outputs (M.step s i).2 is

/-- The outputs of the full run at the inputs that satisfy `p` only. -/
def outputsOn (p : ι → Bool) (s : σ) : List ι → List ο
  | [] => []
  | i :: is =>
    if p i then (M.step s i).1 :: outputsOn p (M.step s i).2 is
    else outputsOn p (M.step s i).2 is

/-- Each input meets the guard in the state in which it arrives. -/
def Admits (ok : σ → ι → Prop) (s : σ) : List ι → Prop
  | [] => True
  | i :: is => ok s i ∧ Admits ok (M.step s i).2 is

instance decidableAdmits {ok : σ → ι → Prop} [∀ s i, Decidable (ok s i)] (s : σ) :
    ∀ is : List ι, Decidable (M.Admits ok s is)
  | [] => inferInstanceAs (Decidable True)
  | i :: is =>
    haveI : Decidable (M.Admits ok (M.step s i).2 is) := decidableAdmits (M.step s i).2 is
    inferInstanceAs (Decidable (ok s i ∧ M.Admits ok (M.step s i).2 is))

@[simp] theorem after_nil (s : σ) : M.after s [] = s := rfl
@[simp] theorem after_cons (s : σ) (i : ι) (is : List ι) :
    M.after s (i :: is) = M.after (M.step s i).2 is := rfl

theorem after_append (s : σ) (is js : List ι) :
    M.after s (is ++ js) = M.after (M.after s is) js := by
  induction is generalizing s with
  | nil => rfl
  | cons i is ih => exact ih _

theorem admits_append (ok : σ → ι → Prop) (s : σ) (is js : List ι) :
    M.Admits ok s (is ++ js) ↔ M.Admits ok s is ∧ M.Admits ok (M.after s is) js := by
  induction is generalizing s with
  | nil => simp [Admits]
  | cons i is ih => simp [Admits, ih, and_assoc]

/-- A guard on the inputs alone admits every run whose inputs meet it. -/
theorem admits_of_forall {P : ι → Prop} (s : σ) {is : List ι} (h : ∀ i ∈ is, P i) :
    M.Admits (fun _ i => P i) s is := by
  induction is generalizing s with
  | nil => trivial
  | cons i is ih => exact ⟨h i (by simp), ih _ (fun j hj => h j (by simp [hj]))⟩

variable {M} in
theorem Admits.mono {ok ok' : σ → ι → Prop} (h : ∀ s i, ok s i → ok' s i) {s : σ} {is : List ι}
    (his : M.Admits ok s is) : M.Admits ok' s is := by
  induction is generalizing s with
  | nil => trivial
  | cons i is ih => exact ⟨h s i his.1, ih his.2⟩

/-- What one admitted step preserves, an admitted run preserves. -/
theorem invariant {ok : σ → ι → Prop} {I : σ → Prop}
    (hstep : ∀ s i, I s → ok s i → I (M.step s i).2)
    {s : σ} {is : List ι} (hs : I s) (his : M.Admits ok s is) : I (M.after s is) := by
  induction is generalizing s with
  | nil => exact hs
  | cons i is ih => exact ih (hstep s i hs his.1) his.2

/-- What every step preserves, every run preserves. -/
theorem preserved {I : σ → Prop} (hstep : ∀ s i, I s → I (M.step s i).2) {s : σ} (hs : I s)
    (is : List ι) : I (M.after s is) := by
  induction is generalizing s with
  | nil => exact hs
  | cons i is ih => exact ih (hstep s i hs)

/-- A guard is exact for `P` when a refused step falsifies `P`: then `P` holds
all along a run precisely when the run is admitted. -/
theorem always_iff_admits {ok : σ → ι → Prop} {Inv P : σ → Prop}
    (hP : ∀ s, Inv s → P s)
    (hstep : ∀ s i, Inv s → ok s i → Inv (M.step s i).2)
    (hbad : ∀ s i, Inv s → ¬ ok s i → ¬ P (M.step s i).2)
    {s : σ} {is : List ι} (hs : Inv s) :
    (∀ pre, pre <+: is → P (M.after s pre)) ↔ M.Admits ok s is := by
  induction is generalizing s with
  | nil => simpa [Admits] using hP s hs
  | cons i is ih =>
    constructor
    · intro h
      have hok : ok s i := by
        by_contra hn
        exact hbad s i hs hn (h [i] (by simp))
      refine ⟨hok, (ih (hstep s i hs hok)).mp ?_⟩
      intro pre hpre
      exact h (i :: pre) (List.cons_prefix_cons.mpr ⟨rfl, hpre⟩)
    · rintro ⟨hok, his⟩ pre hpre
      cases pre with
      | nil => exact hP s hs
      | cons j pre =>
        obtain ⟨rfl, hrest⟩ := List.cons_prefix_cons.mp hpre
        exact (ih (hstep s j hs hok)).mpr his pre hrest

variable (N : Machine τ ι ο)

/-- Two related machines that answer alike exactly on guarded steps give the
same outputs exactly on the runs the guard admits. -/
theorem outputs_eq_iff {ok : σ → ι → Prop} {R : σ → τ → List ι → Prop}
    (hout : ∀ s t i is, R s t (i :: is) → ((M.step s i).1 = (N.step t i).1 ↔ ok s i))
    (hnext : ∀ s t i is, R s t (i :: is) → ok s i → R (M.step s i).2 (N.step t i).2 is)
    {s : σ} {t : τ} {is : List ι} (hR : R s t is) :
    M.outputs s is = N.outputs t is ↔ M.Admits ok s is := by
  induction is generalizing s t with
  | nil => simp [outputs, Admits]
  | cons i is ih =>
    simp only [outputs, Admits, List.cons.injEq, hout s t i is hR]
    constructor
    · rintro ⟨hok, hrest⟩
      exact ⟨hok, (ih (hnext s t i is hR hok)).mp hrest⟩
    · rintro ⟨hok, hrest⟩
      exact ⟨hok, (ih (hnext s t i is hR hok)).mpr hrest⟩

variable {M N} in
/-- What guarded steps of two machines preserve between their states, a guarded run does. -/
theorem simulation {ok : σ → ι → Prop} {R : σ → τ → Prop}
    (hstep : ∀ s t i, R s t → ok s i → R (M.step s i).2 (N.step t i).2) {s : σ} {t : τ} (hR : R s t)
    {is : List ι} (his : M.Admits ok s is) : R (M.after s is) (N.after t is) := by
  induction is generalizing s t with
  | nil => exact hR
  | cons i is ih => exact ih (hstep s t i hR his.1) his.2

/-- If each step of `N` is answered by a step of `M` on the translated input, with
the translated output, so is each run. -/
theorem outputs_map {κ ω : Type*} {N : Machine τ κ ω} (f : κ → ι) (g : ω → ο) {R : σ → τ → Prop}
    (hstep : ∀ s t k, R s t →
      (M.step s (f k)).1 = g (N.step t k).1 ∧ R (M.step s (f k)).2 (N.step t k).2)
    {s : σ} {t : τ} (hR : R s t) (ks : List κ) :
    M.outputs s (ks.map f) = (N.outputs t ks).map g := by
  induction ks generalizing s t with
  | nil => rfl
  | cons k ks ih =>
    obtain ⟨hout, hnext⟩ := hstep s t k hR
    simp [outputs, hout, ih hnext]

/-- What related steps of two machines preserve between their states, runs do; the
machines may answer differently. -/
theorem after_related {ω : Type*} {N : Machine τ ι ω} {R : σ → τ → Prop}
    (hstep : ∀ s t i, R s t → R (M.step s i).2 (N.step t i).2) {s : σ} {t : τ} (hR : R s t)
    (is : List ι) :
    R (M.after s is) (N.after t is) := by
  induction is generalizing s t with
  | nil => exact hR
  | cons i is ih => exact ih (hstep s t i hR)

variable {M} in
/-- Two machines that answer guarded steps alike and stay related answer a guarded run alike. -/
theorem lockstep {N : Machine τ ι ο} {ok : τ → ι → Prop} {R : σ → τ → Prop}
    (hstep : ∀ s t i, R s t → ok t i →
      (M.step s i).1 = (N.step t i).1 ∧ R (M.step s i).2 (N.step t i).2)
    {s : σ} {t : τ} (hR : R s t) {is : List ι} (his : N.Admits ok t is) :
    M.outputs s is = N.outputs t is ∧ R (M.after s is) (N.after t is) := by
  induction is generalizing s t with
  | nil => exact ⟨rfl, hR⟩
  | cons i is ih =>
    obtain ⟨hout, hnext⟩ := hstep s t i hR his.1
    obtain ⟨houts, hafter⟩ := ih hnext his.2
    exact ⟨by rw [outputs, outputs, hout, houts], hafter⟩

/-- The machine with its inputs translated. -/
def comap {κ : Type*} (f : κ → ι) : Machine σ κ ο := ⟨fun s k => M.step s (f k)⟩

theorem outputs_comap {κ : Type*} (f : κ → ι) (s : σ) (ks : List κ) :
    (M.comap f).outputs s ks = M.outputs s (ks.map f) := by
  induction ks generalizing s with
  | nil => rfl
  | cons k ks ih => exact congrArg ((M.step s (f k)).1 :: ·) (ih _)

theorem after_comap {κ : Type*} (f : κ → ι) (s : σ) (ks : List κ) :
    (M.comap f).after s ks = M.after s (ks.map f) := by
  induction ks generalizing s with
  | nil => rfl
  | cons k ks ih => exact ih _

/-- If steps outside `p` cannot be noticed by the steps inside `p`, the outputs
inside `p` are those of the run that makes only the steps inside `p`. -/
theorem outputsOn_eq_outputs_filter {p : ι → Bool} {E : σ → σ → Prop}
    (hit : ∀ s t i, E s t → p i = true →
      (M.step s i).1 = (M.step t i).1 ∧ E (M.step s i).2 (M.step t i).2)
    (miss : ∀ s t i, E s t → p i = false → E (M.step s i).2 t)
    {s t : σ} (hE : E s t) (is : List ι) :
    M.outputsOn p s is = M.outputs t (is.filter p) := by
  induction is generalizing s t with
  | nil => rfl
  | cons i is ih =>
    cases hp : p i with
    | true =>
      obtain ⟨hout, hnext⟩ := hit s t i hE hp
      simp [outputsOn, outputs, hp, hout, ih hnext]
    | false => simp [outputsOn, hp, ih (miss s t i hE hp)]

end Machine
end Library
