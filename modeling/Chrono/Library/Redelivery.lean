import Chrono.Library.KeyedLog

/-!
# Logs that are delivered at least once

A copy of a log repeats records at any later places. A reader for whom a record that
it has read once is without effect ever after ends as if it had read the log itself.
-/
namespace Library.KeyedLog
variable {ε κ : Type*}

/-- A copy of the rest of a log, of which the records `seen` were delivered before. -/
inductive Repeats : List ε → List ε → List ε → Prop where
  | done {seen : List ε} : Repeats seen [] []
  | first {seen log copy : List ε} {e : ε} :
    Repeats (e :: seen) log copy → Repeats seen (e :: log) (e :: copy)
  | again {seen log copy : List ε} {e : ε} :
    e ∈ seen → Repeats seen log copy → Repeats seen log (e :: copy)

namespace Repeats
variable {seen log copy : List ε}

theorem refl (seen log : List ε) : Repeats seen log log := by
  induction log generalizing seen with
  | nil => exact .done
  | cons e log ih => exact .first (ih (e :: seen))

theorem mem_or_mem (h : Repeats seen log copy) {e : ε} (he : e ∈ copy) : e ∈ seen ∨ e ∈ log := by
  induction h with
  | done => exact .inr he
  | @first seen log copy x _ ih =>
    obtain rfl | he := List.mem_cons.mp he
    · exact .inr List.mem_cons_self
    · obtain hs | hl := ih he
      · obtain rfl | hs := List.mem_cons.mp hs
        · exact .inr List.mem_cons_self
        · exact .inl hs
      · exact .inr (List.mem_cons_of_mem x hl)
  | again hx _ ih =>
    obtain rfl | he := List.mem_cons.mp he
    · exact .inl hx
    · exact ih he

theorem filter (h : Repeats seen log copy) (q : ε → Bool) :
    Repeats (seen.filter q) (log.filter q) (copy.filter q) := by
  induction h with
  | done => exact .done
  | @first seen log copy e _ ih =>
    cases hq : q e with
    | true =>
      simp only [List.filter_cons, hq, if_true] at ih ⊢
      exact .first ih
    | false => simpa [List.filter_cons, hq] using ih
  | @again seen log copy e he _ ih =>
    cases hq : q e with
    | true =>
      rw [List.filter_cons_of_pos hq]
      exact .again (List.mem_filter.mpr ⟨he, hq⟩) ih
    | false => rwa [List.filter_cons_of_neg (by simp [hq])]

/-- A reader that absorbs what it has read ends as after the log. -/
theorem foldl_eq {σ : Type*} {step : σ → ε → σ} {absorbed : σ → ε → Prop}
    (hskip : ∀ s e, absorbed s e → step s e = s) (hread : ∀ s e, absorbed (step s e) e)
    (hkeep : ∀ s e e', absorbed s e → absorbed (step s e') e) (h : Repeats seen log copy) {s : σ}
    (hseen : ∀ e ∈ seen, absorbed s e) : copy.foldl step s = log.foldl step s := by
  induction h generalizing s with
  | done => rfl
  | @first seen log copy e _ ih =>
    apply ih
    intro x hx
    obtain rfl | hx := List.mem_cons.mp hx
    · exact hread s x
    · exact hkeep s x e (hseen x hx)
  | @again seen log copy e he _ ih =>
    rw [List.foldl_cons, hskip s e (hseen e he)]
    exact ih hseen

end Repeats

/-! ## Merges of copies -/

section
variable {ι : Type*} [DecidableEq ι]

theorem Merge.exists_mem {parts : ι → List ε} {log : List ε} (h : Merge parts log) {e : ε}
    (he : e ∈ log) :
    ∃ i, e ∈ parts i := by
  induction h with
  | done => cases he
  | @take parts j x rest log hhead _ ih =>
    obtain rfl | he := List.mem_cons.mp he
    · exact ⟨j, by simp [hhead]⟩
    · obtain ⟨i, hi⟩ := ih he
      by_cases hij : i = j
      · subst hij
        rw [Function.update_self] at hi
        exact ⟨i, by simp [hhead, hi]⟩
      · rw [Function.update_of_ne hij] at hi
        exact ⟨i, hi⟩

/-- Records with the parts they lie in are a merge of these parts. -/
theorem Merge.of_tagged (tagged : List (ι × ε)) :
    Merge (fun i => (tagged.filter fun x => x.1 = i).map Prod.snd) (tagged.map Prod.snd) := by
  induction tagged with
  | nil => exact .done fun _ => rfl
  | cons x tagged ih =>
    have hhead : ((x :: tagged).filter fun y => y.1 = x.1).map Prod.snd =
      x.2 :: (tagged.filter fun y => y.1 = x.1).map Prod.snd := by simp
    refine .take (i := x.1) hhead ?_
    convert ih using 1
    funext i
    by_cases hi : i = x.1
    · rw [hi, Function.update_self]
    · rw [Function.update_of_ne hi, List.filter_cons_of_neg (by simpa using Ne.symm hi)]

end

end Library.KeyedLog
