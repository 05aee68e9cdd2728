import Mathlib.Data.List.Induction
import Mathlib.Logic.Function.Basic
import Mathlib.Order.Basic
import Mathlib.Tactic.Common

/-!
# Logs of keyed, numbered records

A log is a list of records, each with a key and a sequence number. The last
record of a key, strictly increasing numbers per key, and the compactions that
a log may undergo: order-preserving sublists that keep the last record of each
key. A log that is kept in parts may be read in any order that keeps the order of
each part.
-/
namespace Library.KeyedLog
variable {ε κ : Type*} (key : ε → κ) (seq : ε → ℕ)

/-- The numbers of each key strictly increase along the log. -/
def Increasing (log : List ε) : Prop :=
  log.Pairwise (fun a b => key a = key b → seq a < seq b)

variable {key seq} in
theorem Increasing.sublist {a b : List ε} (h : a.Sublist b) (hb : Increasing key seq b) :
    Increasing key seq a := List.Pairwise.sublist h hb

variable {key seq} in
/-- Appending a record keeps the numbers increasing when its number exceeds
every number of its key. -/
theorem Increasing.concat {log : List ε} {e : ε} (h : Increasing key seq log)
    (he : ∀ x ∈ log, key x = key e → seq x < seq e) : Increasing key seq (log ++ [e]) := by
  refine List.pairwise_append.mpr ⟨h, List.pairwise_singleton _ _, ?_⟩
  intro a ha b hb hk
  obtain rfl := List.mem_singleton.mp hb
  exact he a ha hk

variable [DecidableEq κ]

def select (p : ε → Bool) (k : κ) (log : List ε) : List ε :=
  log.filter (fun e => decide (key e = k) && p e)

/-- The last record of a key among those that satisfy `p`. -/
def lastOf (p : ε → Bool) (k : κ) (log : List ε) : Option ε := (select key p k log).getLast?

def last (k : κ) (log : List ε) : Option ε := lastOf key (fun _ => true) k log

/-- What compaction may leave of a log. -/
structure Compacts (full kept : List ε) : Prop where
  sublist : kept.Sublist full
  last_eq : ∀ k, last key k kept = last key k full

variable {key seq}

theorem mem_select {p : ε → Bool} {k : κ} {log : List ε} {e : ε} :
    e ∈ select key p k log ↔ e ∈ log ∧ key e = k ∧ p e = true := by
  simp [select]

theorem select_append (p : ε → Bool) (k : κ) (a b : List ε) :
    select key p k (a ++ b) = select key p k a ++ select key p k b := by
  simp [select]

theorem select_eq_nil {p : ε → Bool} {k : κ} {log : List ε} :
    select key p k log = [] ↔ ∀ e ∈ log, key e = k → p e = false := by
  simp [select, List.filter_eq_nil_iff]

theorem lastOf_eq_none {p : ε → Bool} {k : κ} {log : List ε} :
    lastOf key p k log = none ↔ ∀ e ∈ log, key e = k → p e = false := by
  rw [lastOf, List.getLast?_eq_none_iff, select_eq_nil]

theorem last_eq_none {k : κ} {log : List ε} : last key k log = none ↔ ∀ e ∈ log, key e ≠ k := by
  rw [last, lastOf_eq_none]
  simp

theorem lastOf_mem {p : ε → Bool} {k : κ} {log : List ε} {e : ε}
    (h : lastOf key p k log = some e) : e ∈ log ∧ key e = k ∧ p e = true :=
  mem_select.mp (List.mem_of_getLast? h)

theorem last_mem {k : κ} {log : List ε} {e : ε} (h : last key k log = some e) :
    e ∈ log ∧ key e = k := by
  obtain ⟨hm, hk, -⟩ := lastOf_mem h
  exact ⟨hm, hk⟩

theorem lastOf_append (p : ε → Bool) (k : κ) (a b : List ε) :
    lastOf key p k (a ++ b) = (lastOf key p k b).or (lastOf key p k a) := by
  simp [lastOf, select_append, List.getLast?_append]

theorem lastOf_singleton (p : ε → Bool) (k : κ) (e : ε) :
    lastOf key p k [e] = if key e = k ∧ p e = true then some e else none := by
  by_cases h : key e = k ∧ p e = true
  · simp [lastOf, select, h]
  · rw [if_neg h, lastOf_eq_none]
    simp only [List.mem_singleton, forall_eq]
    intro hk
    simpa [hk] using h

theorem last_concat_same {k : κ} {log : List ε} {e : ε} (h : key e = k) :
    last key k (log ++ [e]) = some e := by
  simp [last, lastOf_append, lastOf_singleton, h]

theorem last_concat_other {k : κ} {log : List ε} {e : ε} (h : key e ≠ k) :
    last key k (log ++ [e]) = last key k log := by
  simp [last, lastOf_append, lastOf_singleton, h]

theorem lastOf_split {p : ε → Bool} {k : κ} {log : List ε} {e : ε}
    (h : lastOf key p k log = some e) :
    ∃ pre post, log = pre ++ e :: post ∧ ∀ e' ∈ post, key e' = k → p e' = false := by
  induction log using List.reverseRecOn with
  | nil => simp [lastOf, select] at h
  | append_singleton log x ih =>
    rw [lastOf_append, lastOf_singleton] at h
    by_cases hx : key x = k ∧ p x = true
    · rw [if_pos hx, Option.some_or, Option.some.injEq] at h
      exact ⟨log, [], by simp [h], by simp⟩
    · rw [if_neg hx, Option.none_or] at h
      obtain ⟨pre, post, rfl, hpost⟩ := ih h
      refine ⟨pre, post ++ [x], by simp, ?_⟩
      intro e' he' hk
      rcases List.mem_append.mp he' with h' | h'
      · exact hpost e' h' hk
      · obtain rfl := List.mem_singleton.mp h'
        simpa [hk] using hx

/-- In an increasing log the last record of a key carries its greatest number. -/
theorem Increasing.le_last {log : List ε} (h : Increasing key seq log) {k : κ} {m : ε}
    (hm : last key k log = some m) : ∀ e ∈ log, key e = k → seq e ≤ seq m := by
  obtain ⟨pre, post, rfl, hpost⟩ := lastOf_split hm
  have hmk := (last_mem hm).2
  intro e he hk
  rcases List.mem_append.mp he with h' | h'
  · exact Nat.le_of_lt ((List.pairwise_append.mp h).2.2 e h' m (by simp) (hk.trans hmk.symm))
  · rcases List.mem_cons.mp h' with rfl | h'
    · exact Nat.le_refl _
    · simpa using hpost e h' hk

theorem select_filter (p q : ε → Bool) (k : κ) (log : List ε) :
    select key p k (log.filter q) = select key (fun e => p e && q e) k log := by
  simp [select, List.filter_filter, Bool.and_assoc]

/-- When the last record of a key satisfies `p`, it is the last one that does. -/
theorem lastOf_of_last {p : ε → Bool} {k : κ} {log : List ε} {m : ε}
    (hm : last key k log = some m) (hp : p m = true) : lastOf key p k log = some m := by
  obtain ⟨pre, post, rfl, hpost⟩ := lastOf_split hm
  have hnone : lastOf key p k post = none := by
    rw [lastOf_eq_none]
    intro e he hk
    simpa using hpost e he hk
  rw [← List.singleton_append, lastOf_append, lastOf_append, hnone, lastOf_singleton,
    if_pos ⟨(last_mem hm).2, hp⟩]
  rfl

/-- Filtering a log compacts it when the filter keeps each key's last record. -/
theorem Compacts.filter {q : ε → Bool} {log : List ε}
    (hq : ∀ k m, last key k log = some m → q m = true) : Compacts key log (log.filter q) := by
  constructor
  · exact List.filter_sublist
  · intro k
    rw [last, lastOf, select_filter]
    cases hm : last key k log with
    | none =>
      rw [List.getLast?_eq_none_iff, select_eq_nil]
      exact fun e he hk => absurd hk (last_eq_none.mp hm e he)
    | some m => exact lastOf_of_last hm (by simpa using hq k m hm)

theorem Compacts.refl (log : List ε) : Compacts key log log := ⟨List.Sublist.refl _, fun _ => rfl⟩

section
variable {ι : Type*} [DecidableEq ι]

/-- The log takes the head of one of the parts, again and again, until all are empty. -/
inductive Merge : (ι → List ε) → List ε → Prop where
  | done {parts : ι → List ε} : (∀ i, parts i = []) → Merge parts []
  | take {parts : ι → List ε} {i : ι} {e : ε} {rest log : List ε} :
      parts i = e :: rest → Merge (Function.update parts i rest) log → Merge parts (e :: log)

/-- The records of a key that lies in one part are those of the part, in its order. -/
theorem Merge.select_eq {parts : ι → List ε} {log : List ε} (h : Merge parts log) {k : κ} {i : ι}
    (hk : ∀ j, ∀ e ∈ parts j, key e = k → j = i) (p : ε → Bool) :
    select key p k log = select key p k (parts i) := by
  induction h with
  | done hnil => rw [hnil i]
  | @take parts j e rest log hhead _ ih =>
    have hrest : select key p k log = select key p k (Function.update parts j rest i) := by
      apply ih
      intro j' e' he' hk'
      by_cases hj : j' = j
      · subst hj
        rw [Function.update_self] at he'
        exact hk j' e' (by simp [hhead, he']) hk'
      · rw [Function.update_of_ne hj] at he'
        exact hk j' e' he' hk'
    have hcons (l : List ε) : select key p k (e :: l) = select key p k [e] ++ select key p k l :=
      select_append p k [e] l
    rw [hcons, hrest]
    by_cases hij : i = j
    · subst hij
      rw [Function.update_self, hhead, hcons rest]
    · have hother : select key p k [e] = [] := by
        rw [select_eq_nil]
        intro e' he' hk'
        obtain rfl := List.mem_singleton.mp he'
        exact absurd (hk j e' (by simp [hhead]) hk').symm hij
      rw [hother, Function.update_of_ne hij, List.nil_append]

/-- When each key lies in one part, all merges have the same records of every key. -/
theorem Merge.select_congr {parts : ι → List ε} {log log' : List ε} (h : Merge parts log)
    (h' : Merge parts log') (hkeys : ∀ i j, ∀ e ∈ parts i, ∀ e' ∈ parts j, key e = key e' → i = j)
    (p : ε → Bool) (k : κ) :
    select key p k log = select key p k log' := by
  by_cases hk : ∃ i, ∃ e ∈ parts i, key e = k
  · obtain ⟨i, e, he, rfl⟩ := hk
    have hpart : ∀ j, ∀ e' ∈ parts j, key e' = key e → j = i := fun j e' he' hk' =>
      hkeys j i e' he' e he hk'
    rw [h.select_eq hpart, h'.select_eq hpart]
  · have hnone {log : List ε} (h : Merge parts log) : select key p k log = [] := by
      cases h with
      | done => rfl
      | @take _ i e rest log hhead hrest =>
        have hpart : ∀ j, ∀ e' ∈ parts j, key e' = k → j = i := fun j e' he' hk' =>
          absurd ⟨j, e', he', hk'⟩ hk
        rw [(Merge.take hhead hrest).select_eq hpart, select_eq_nil]
        exact fun e' he' hk' => absurd ⟨i, e', he', hk'⟩ hk
    rw [hnone h, hnone h']

end

end Library.KeyedLog
