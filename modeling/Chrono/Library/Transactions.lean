import Mathlib.Data.List.Basic
import Mathlib.Logic.Function.Basic
import Mathlib.Tactic.Common

/-!
# Transactions on the entries of a map

Workers change entries of a shared map in place. While no two of them work on one entry, the
map is what the finished transactions leave when each is one step, in the order in which they
finished, but for the entries in work.
-/
namespace Library

structure Transaction (κ ο : Type*) where
  key : κ
  ops : List ο

namespace Transaction
variable {κ ο ω σ : Type*} [DecidableEq κ] (act : ο → σ → σ)

/-- A transaction as one step. -/
def apply (t : Transaction κ ο) (m : κ → σ) : κ → σ :=
  Function.update m t.key (t.ops.foldl (fun s op => act op s) (m t.key))

/-- Transactions, one after the other. -/
def serial (m : κ → σ) (ts : List (Transaction κ ο)) : κ → σ := ts.foldl (fun m t => t.apply act m) m

theorem serial_concat (m : κ → σ) (ts : List (Transaction κ ο)) (t : Transaction κ ο) :
    serial act m (ts ++ [t]) = t.apply act (serial act m ts) := by
  simp [serial]

/-- `m` is the state `a` with the operations of the transactions that are open applied. -/
structure InPlace (a m : κ → σ) (opened : ω → Option (Transaction κ ο)) : Prop where
  unique : ∀ w w' t t', opened w = some t → opened w' = some t' → t.key = t'.key → w = w'
  closed : ∀ key, (∀ w t, opened w = some t → t.key ≠ key) → m key = a key
  current : ∀ w t, opened w = some t → m t.key = t.apply act a t.key

variable {act} {a m : κ → σ} {opened : ω → Option (Transaction κ ο)} {w : ω} {key : κ} {ops : List ο}

theorem InPlace.start : InPlace act m m fun _ : ω => (none : Option (Transaction κ ο)) where
  unique _ _ _ _ h := by cases h
  closed _ _ := rfl
  current _ _ h := by cases h

variable [DecidableEq ω]

theorem InPlace.opens (h : InPlace act a m opened) (hw : opened w = none)
    (hkey : ∀ v t, opened v = some t → t.key ≠ key) :
    InPlace act a m (Function.update opened w (some ⟨key, []⟩)) where
  unique v v' t t' ht ht' hsame := by
    by_cases hv : v = w <;> by_cases hv' : v' = w
    · rw [hv, hv']
    · rw [hv, Function.update_self] at ht
      rw [Function.update_of_ne hv'] at ht'
      obtain rfl := Option.some.inj ht
      exact absurd hsame.symm (hkey v' t' ht')
    · rw [hv', Function.update_self] at ht'
      rw [Function.update_of_ne hv] at ht
      obtain rfl := Option.some.inj ht'
      exact absurd hsame (hkey v t ht)
    · rw [Function.update_of_ne hv] at ht
      rw [Function.update_of_ne hv'] at ht'
      exact h.unique v v' t t' ht ht' hsame
  closed k hk := by
    apply h.closed
    intro v t ht
    apply hk v t
    rwa [Function.update_of_ne]
    rintro rfl
    rw [hw] at ht
    cases ht
  current v t ht := by
    by_cases hv : v = w
    · rw [hv, Function.update_self] at ht
      obtain rfl := Option.some.inj ht
      rw [apply, Function.update_self]
      exact h.closed key hkey
    · rw [Function.update_of_ne hv] at ht
      exact h.current v t ht

theorem InPlace.acts (h : InPlace act a m opened) (hw : opened w = some ⟨key, ops⟩) (op : ο)
    {m' : κ → σ} (hm : m' = Function.update m key (act op (m key))) :
    InPlace act a m' (Function.update opened w (some ⟨key, ops ++ [op]⟩)) where
  unique v v' t t' ht ht' hsame := by
    have hbefore {v : ω} {t : Transaction κ ο}
        (ht : Function.update opened w (some ⟨key, ops ++ [op]⟩) v = some t) :
        ∃ t₀, opened v = some t₀ ∧ t₀.key = t.key := by
      by_cases hv : v = w
      · rw [hv, Function.update_self] at ht
        obtain rfl := Option.some.inj ht
        exact ⟨⟨key, ops⟩, hv ▸ hw, rfl⟩
      · rw [Function.update_of_ne hv] at ht
        exact ⟨t, ht, rfl⟩
    obtain ⟨t₀, ht₀, hkey⟩ := hbefore ht
    obtain ⟨t₁, ht₁, hkey'⟩ := hbefore ht'
    exact h.unique v v' t₀ t₁ ht₀ ht₁ (by rw [hkey, hkey', hsame])
  closed k hk := by
    have hne : k ≠ key := by
      have := hk w ⟨key, ops ++ [op]⟩ (Function.update_self ..)
      exact fun heq => this heq.symm
    rw [hm, Function.update_of_ne hne]
    apply h.closed
    intro v t ht
    by_cases hv : v = w
    · rw [hv, hw] at ht
      obtain rfl := Option.some.inj ht
      exact fun heq => hne heq.symm
    · apply hk v t
      rwa [Function.update_of_ne hv]
  current v t ht := by
    by_cases hv : v = w
    · rw [hv, Function.update_self] at ht
      obtain rfl := Option.some.inj ht
      have hnow := h.current w _ hw
      simp only [apply, Function.update_self] at hnow ⊢
      rw [hm, Function.update_self, hnow, List.foldl_append]
      rfl
    · rw [Function.update_of_ne hv] at ht
      have hne : t.key ≠ key := fun heq => hv (h.unique v w t _ ht hw heq)
      rw [hm, Function.update_of_ne hne]
      exact h.current v t ht

/-- A transaction finishes: it was one step, now. -/
theorem InPlace.closes (h : InPlace act a m opened) (hw : opened w = some ⟨key, ops⟩) :
    InPlace act (Transaction.apply act ⟨key, ops⟩ a) m (Function.update opened w none) where
  unique v v' t t' ht ht' hsame := by
    have hbefore {v : ω} {t : Transaction κ ο} (ht : Function.update opened w none v = some t) :
        opened v = some t := by
      by_cases hv : v = w
      · rw [hv, Function.update_self] at ht
        cases ht
      · rwa [Function.update_of_ne hv] at ht
    exact h.unique v v' t t' (hbefore ht) (hbefore ht') hsame
  closed k hk := by
    by_cases hkey : k = key
    · rw [hkey]
      exact h.current w _ hw
    · rw [apply, Function.update_of_ne hkey]
      apply h.closed
      intro v t ht
      by_cases hv : v = w
      · rw [hv, hw] at ht
        obtain rfl := Option.some.inj ht
        exact fun heq => hkey heq.symm
      · apply hk v t
        rwa [Function.update_of_ne hv]
  current v t ht := by
    by_cases hv : v = w
    · rw [hv, Function.update_self] at ht
      cases ht
    · rw [Function.update_of_ne hv] at ht
      have hne : t.key ≠ key := fun heq => hv (h.unique v w t _ ht hw heq)
      have hnow := h.current v t ht
      simp only [apply, Function.update_self] at hnow ⊢
      rw [Function.update_of_ne hne, hnow]

end Transaction
end Library
