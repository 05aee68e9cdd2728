import Mathlib.Tactic.SplitIfs
import Chrono.SortedSets.InOrder

/-!
# Balance of the AVL tree

Recomputing, rotating and rebalancing a node whose subtrees differ by at most two
in height gives a balanced tree of the height that is expected of it. Insertion
raises a tree by at most one, deletion lowers it by at most one.
-/
namespace Chrono

namespace AVLTreeNode
variable {β : Type}

def height : AVLTreeNode β → ℤ
  | nullptr => -1
  | node _ l r _ _ => 1 + max l.height r.height

/-- Every node caches its height, and the heights of its children differ by at most one. -/
def Balanced : AVLTreeNode β → Prop
  | nullptr => True
  | node v l r h s =>
    h = (node v l r h s).height ∧ l.height ≤ r.height + 1 ∧ r.height ≤ l.height + 1 ∧
      l.Balanced ∧ r.Balanced

theorem height_nonneg {t : AVLTreeNode β} (h : t ≠ nullptr) : 0 ≤ t.height := by
  induction t with
  | nullptr => exact absurd rfl h
  | node v l r ht s ihl ihr =>
    rw [height]
    cases l with
    | nullptr =>
      cases r with
      | nullptr => simp [height]
      | node v' l' r' h' s' =>
        have := ihr (by simp)
        omega
    | node v' l' r' h' s' =>
      have := ihl (by simp)
      omega

theorem height_ge (t : AVLTreeNode β) : -1 ≤ t.height := by
  cases t with
  | nullptr => simp [height]
  | node v l r h s =>
    have := height_nonneg (t := node v l r h s) (by simp)
    omega

theorem cachedHeight_eq {t : AVLTreeNode β} (h : t.Balanced) : t.cachedHeight = t.height := by
  cases t with
  | nullptr => rfl
  | node v l r ht s => exact h.1

theorem getBalance_eq {v : β} {l r : AVLTreeNode β} (hl : l.Balanced) (hr : r.Balanced) (h : ℤ)
    (s : ℕ) :
    (node v l r h s).getBalance = l.height - r.height := by
  rw [getBalance, cachedHeight_eq hl, cachedHeight_eq hr]

theorem eq_nullptr_of_isNull {t : AVLTreeNode β} (h : t.isNull = true) : t = nullptr := by
  cases t with
  | nullptr => rfl
  | node v l r ht s => cases h

theorem height_recompute (t : AVLTreeNode β) : t.recompute.height = t.height := by
  cases t <;> rfl

theorem balanced_recompute {l r : AVLTreeNode β} (hl : l.Balanced) (hr : r.Balanced)
    (h₁ : l.height ≤ r.height + 1) (h₂ : r.height ≤ l.height + 1) (v : β) (h : ℤ) (s : ℕ) :
    (node v l r h s).recompute.Balanced := by
  refine ⟨?_, h₁, h₂, hl, hr⟩
  rw [cachedHeight_eq hl, cachedHeight_eq hr]
  rfl

section
variable {a b c : AVLTreeNode β} (ha : a.Balanced) (hb : b.Balanced) (hc : c.Balanced)
include ha hb hc

theorem balanced_rightRotate (h₁ : b.height ≤ c.height + 1) (h₂ : c.height ≤ b.height + 1)
    (h₃ : a.height ≤ 2 + max b.height c.height) (h₄ : max b.height c.height ≤ a.height)
    (v w : β) (h h' : ℤ) (s s' : ℕ) : (node v (node w a b h' s') c h s).rightRotate.Balanced := by
  have hn := balanced_recompute hb hc h₁ h₂ v h s
  apply balanced_recompute ha hn
  · rw [height_recompute, height]
    omega
  · rw [height_recompute, height]
    omega

theorem balanced_leftRotate (h₁ : a.height ≤ b.height + 1) (h₂ : b.height ≤ a.height + 1)
    (h₃ : c.height ≤ 2 + max a.height b.height) (h₄ : max a.height b.height ≤ c.height)
    (v w : β) (h h' : ℤ) (s s' : ℕ) : (node v a (node w b c h' s') h s).leftRotate.Balanced := by
  have hn := balanced_recompute ha hb h₁ h₂ v h s
  apply balanced_recompute hn hc
  · rw [height_recompute, height]
    omega
  · rw [height_recompute, height]
    omega

end

theorem height_rightRotate (v w : β) (a b c : AVLTreeNode β) (h h' : ℤ) (s s' : ℕ) :
    (node v (node w a b h' s') c h s).rightRotate.height =
      1 + max a.height (1 + max b.height c.height) := rfl

theorem height_leftRotate (v w : β) (a b c : AVLTreeNode β) (h h' : ℤ) (s s' : ℕ) :
    (node v a (node w b c h' s') h s).leftRotate.height =
      1 + max (1 + max a.height b.height) c.height := rfl

structure Repaired (l r t : AVLTreeNode β) : Prop where
  balanced : t.Balanced
  lower : max l.height r.height ≤ t.height
  upper : t.height ≤ 1 + max l.height r.height
  same : l.height ≤ r.height + 1 → r.height ≤ l.height + 1 → t.height = 1 + max l.height r.height

section
variable {l r : AVLTreeNode β} (hl : l.Balanced) (hr : r.Balanced)
include hl hr

/-- The left subtree is too high: one rotation, or two. -/
theorem repaired_of_left_high (hhigh : l.height = r.height + 2) (v : β) (h : ℤ) (s : ℕ) :
    Repaired l r (node v l r h s).rebalance := by
  have hbal := getBalance_eq hl hr (v := v) h s
  cases l with
  | nullptr =>
    have := height_ge r
    simp only [height] at hhigh
    omega
  | node w a b h' s' =>
    obtain ⟨-, hab, hba, ha, hb⟩ := hl
    have hlb := getBalance_eq ha hb (v := w) h' s'
    rw [height] at hhigh
    by_cases hle : b.height ≤ a.height
    · have hreb : (node v (node w a b h' s') r h s).rebalance =
          (node v (node w a b h' s') r h s).rightRotate := by
        rw [rebalance, if_pos ⟨by rw [hbal, height]; omega, rfl, by rw [hlb]; omega⟩]
      rw [hreb]
      constructor
      · exact balanced_rightRotate ha hb hr (by omega) (by omega) (by omega) (by omega) v w h h' s s'
      · rw [height_rightRotate, height]
        omega
      · rw [height_rightRotate, height]
        omega
      · rw [height_rightRotate, height]
        omega
    · cases b with
      | nullptr =>
        have := height_ge a
        simp only [height] at hle
        omega
      | node x b₁ b₂ h₂ s₂ =>
        obtain ⟨-, h₁₂, h₂₁, hb₁, hb₂⟩ := hb
        rw [height] at hab hba hhigh hle hlb
        have hreb : (node v (node w a (node x b₁ b₂ h₂ s₂) h' s') r h s).rebalance =
            (node v (node w a (node x b₁ b₂ h₂ s₂) h' s').leftRotate r h s).rightRotate := by
          have hgt : (node v (node w a (node x b₁ b₂ h₂ s₂) h' s') r h s).getBalance > 1 := by
            rw [hbal, height, height]
            omega
          have hneg : ¬ (node w a (node x b₁ b₂ h₂ s₂) h' s').getBalance ≥ 0 := by
            rw [hlb]
            omega
          rw [rebalance, if_neg (by simp [hneg]), if_neg (by omega), if_pos ⟨hgt, rfl, by omega⟩]
        rw [hreb]
        have hn := balanced_recompute ha hb₁ (by omega) (by omega) w h' s'
        have hnh : (node w a b₁ h' s').recompute.height = 1 + max a.height b₁.height := rfl
        have hheight : (node v
            (node w a (node x b₁ b₂ h₂ s₂) h' s').leftRotate r h s).rightRotate.height =
            1 + max (1 + max a.height b₁.height) (1 + max b₂.height r.height) := rfl
        constructor
        · exact balanced_rightRotate hn hb₂ hr (by omega) (by omega) (by omega) (by omega) v x _ _ _ _
        · rw [hheight, height, height]
          omega
        · rw [hheight, height, height]
          omega
        · rw [height, height]
          omega

/-- The right subtree is too high: one rotation, or two. -/
theorem repaired_of_right_high (hhigh : r.height = l.height + 2) (v : β) (h : ℤ) (s : ℕ) :
    Repaired l r (node v l r h s).rebalance := by
  have hbal := getBalance_eq hl hr (v := v) h s
  cases r with
  | nullptr =>
    have := height_ge l
    simp only [height] at hhigh
    omega
  | node w b c h' s' =>
    obtain ⟨-, hbc, hcb, hb, hc⟩ := hr
    have hrb := getBalance_eq hb hc (v := w) h' s'
    rw [height] at hhigh
    have hlt : (node v l (node w b c h' s') h s).getBalance < -1 := by
      rw [hbal, height]
      omega
    by_cases hle : b.height ≤ c.height
    · have hreb : (node v l (node w b c h' s') h s).rebalance =
          (node v l (node w b c h' s') h s).leftRotate := by
        rw [rebalance, if_neg (by omega), if_pos ⟨hlt, rfl, by rw [hrb]; omega⟩]
      rw [hreb]
      constructor
      · exact balanced_leftRotate hl hb hc (by omega) (by omega) (by omega) (by omega) v w h h' s s'
      · rw [height_leftRotate, height]
        omega
      · rw [height_leftRotate, height]
        omega
      · rw [height_leftRotate, height]
        omega
    · cases b with
      | nullptr =>
        have := height_ge c
        simp only [height] at hle
        omega
      | node x b₁ b₂ h₂ s₂ =>
        obtain ⟨-, h₁₂, h₂₁, hb₁, hb₂⟩ := hb
        rw [height] at hbc hcb hhigh hle hrb
        have hpos : ¬ (node w (node x b₁ b₂ h₂ s₂) c h' s').getBalance ≤ 0 := by
          rw [hrb]
          omega
        have hreb : (node v l (node w (node x b₁ b₂ h₂ s₂) c h' s') h s).rebalance =
            (node v l (node w (node x b₁ b₂ h₂ s₂) c h' s').rightRotate h s).leftRotate := by
          rw [rebalance, if_neg (by omega), if_neg (by simp [hpos]), if_neg (by omega),
            if_pos ⟨hlt, rfl, by omega⟩]
        rw [hreb]
        have hn := balanced_recompute hb₂ hc (by omega) (by omega) w h' s'
        have hnh : (node w b₂ c h' s').recompute.height = 1 + max b₂.height c.height := rfl
        have hheight : (node v l
            (node w (node x b₁ b₂ h₂ s₂) c h' s').rightRotate h s).leftRotate.height =
            1 + max (1 + max l.height b₁.height) (1 + max b₂.height c.height) := rfl
        constructor
        · exact balanced_leftRotate hl hb₁ hn (by omega) (by omega) (by omega) (by omega) v x _ _ _ _
        · rw [hheight, height, height]
          omega
        · rw [hheight, height, height]
          omega
        · rw [height, height]
          omega

/-- What follows every change of a child repairs a node that is out of balance by one change. -/
theorem repaired (h₁ : l.height ≤ r.height + 2) (h₂ : r.height ≤ l.height + 2) (v : β) (h : ℤ)
    (s : ℕ) :
    Repaired l r (node v l r h s).recompute.rebalance := by
  change Repaired l r (node v l r _ _).rebalance
  by_cases hleft : l.height = r.height + 2
  · exact repaired_of_left_high hl hr hleft v _ _
  by_cases hright : r.height = l.height + 2
  · exact repaired_of_right_high hl hr hright v _ _
  have hreb : (node v l r h s).recompute.rebalance = (node v l r h s).recompute := by
    have hbal :=
      getBalance_eq hl hr (v := v) (1 + max l.cachedHeight r.cachedHeight)
        (1 + l.cachedSize + r.cachedSize)
    change (node v l r _ _).rebalance = node v l r _ _
    rw [rebalance, if_neg (by omega), if_neg (by omega), if_neg (by omega), if_neg (by omega)]
  change Repaired l r (node v l r h s).recompute.rebalance
  rw [hreb]
  constructor
  · exact balanced_recompute hl hr (by omega) (by omega) v h s
  · rw [height_recompute, height]
    omega
  · rw [height_recompute, height]
  · intro _ _
    rw [height_recompute, height]

end

section
variable {l r l' r' t : AVLTreeNode β} (h : Repaired l' r' t) (h₁ : l.height ≤ r.height + 1)
  (h₂ : r.height ≤ l.height + 1)
include h h₁ h₂

/-- The children of a balanced node have grown by one at most. -/
theorem Repaired.raised (hl : l.height ≤ l'.height ∧ l'.height ≤ l.height + 1)
    (hr : r.height ≤ r'.height ∧ r'.height ≤ r.height + 1) :
    t.Balanced ∧ 1 + max l.height r.height ≤ t.height ∧ t.height ≤ 1 + max l.height r.height + 1 := by
  have hlower := h.lower
  have hupper := h.upper
  have hsame := h.same
  exact ⟨h.balanced, by omega, by omega⟩

/-- The children of a balanced node have shrunk by one at most. -/
theorem Repaired.lowered (hl : l'.height ≤ l.height ∧ l.height ≤ l'.height + 1)
    (hr : r'.height ≤ r.height ∧ r.height ≤ r'.height + 1) :
    t.Balanced ∧ t.height ≤ 1 + max l.height r.height ∧ 1 + max l.height r.height ≤ t.height + 1 := by
  have hlower := h.lower
  have hupper := h.upper
  have hsame := h.same
  exact ⟨h.balanced, by omega, by omega⟩

end

theorem repair_balanced {t : AVLTreeNode β} (ht : t.Balanced) :
    t.recompute.rebalance.Balanced ∧ t.recompute.rebalance.height = t.height := by
  cases t with
  | nullptr => exact ⟨trivial, rfl⟩
  | node v l r h s =>
    obtain ⟨-, h₁, h₂, hl, hr⟩ := ht
    have hrep := repaired hl hr (by omega) (by omega) v h s
    exact ⟨hrep.balanced, hrep.same h₁ h₂⟩

variable [LT β] [DecidableLT β]

theorem balanced_insert {t : AVLTreeNode β} (ht : t.Balanced) (x : β) :
    (t.insert x).Balanced ∧ t.height ≤ (t.insert x).height ∧ (t.insert x).height ≤ t.height + 1 := by
  induction t with
  | nullptr => simp [insert, Balanced, height]
  | node v l r h s ihl ihr =>
    obtain ⟨hh, h₁, h₂, hl, hr⟩ := ht
    obtain ⟨hbl, hll, hul⟩ := ihl hl
    obtain ⟨hbr, hlr, hur⟩ := ihr hr
    rw [insert]
    split_ifs
    · exact (repaired hbl hr (by omega) (by omega) v h s).raised h₁ h₂ ⟨hll, hul⟩ (by omega)
    · exact (repaired hl hbr (by omega) (by omega) v h s).raised h₁ h₂ (by omega) ⟨hlr, hur⟩
    · exact ⟨⟨hh, h₁, h₂, hl, hr⟩, le_refl _, by omega⟩

theorem balanced_erase {t : AVLTreeNode β} (ht : t.Balanced) (x : β) :
    (t.erase x).Balanced ∧ (t.erase x).height ≤ t.height ∧ t.height ≤ (t.erase x).height + 1 := by
  induction t generalizing x with
  | nullptr => simp [erase, Balanced, height]
  | node v l r h s ihl ihr =>
    obtain ⟨hh, h₁, h₂, hl, hr⟩ := ht
    have hleft (x : β) (v : β) : (node v (l.erase x) r h s).recompute.rebalance.Balanced ∧
        (node v (l.erase x) r h s).recompute.rebalance.height ≤ 1 + max l.height r.height ∧
        1 + max l.height r.height ≤ (node v (l.erase x) r h s).recompute.rebalance.height + 1 := by
      obtain ⟨hb, hchild⟩ := ihl hl x
      exact (repaired hb hr (by omega) (by omega) v h s).lowered h₁ h₂ hchild (by omega)
    have hright (x : β) (v : β) : (node v l (r.erase x) h s).recompute.rebalance.Balanced ∧
        (node v l (r.erase x) h s).recompute.rebalance.height ≤ 1 + max l.height r.height ∧
        1 + max l.height r.height ≤ (node v l (r.erase x) h s).recompute.rebalance.height + 1 := by
      obtain ⟨hb, hchild⟩ := ihr hr x
      exact (repaired hl hb (by omega) (by omega) v h s).lowered h₁ h₂ (by omega) hchild
    have hnonneg := height_nonneg (t := node v l r h s) (by simp)
    rw [height] at hnonneg ⊢
    rw [erase]
    split_ifs with hlt hgt hnull hl' hr'
    · exact hleft x v
    · exact hright x v
    · -- a leaf is deleted
      simp only [Bool.and_eq_true] at hnull
      obtain ⟨rfl, rfl⟩ := And.intro (eq_nullptr_of_isNull hnull.1) (eq_nullptr_of_isNull hnull.2)
      simp [Balanced, height]
    · -- the one child takes its place
      obtain rfl := eq_nullptr_of_isNull hl'
      obtain ⟨hb, hh'⟩ := repair_balanced hr
      have hr0 := height_nonneg (t := r) (by rintro rfl; simp [isNull] at hnull)
      simp only [height] at h₁ h₂ ⊢
      refine ⟨hb, ?_, ?_⟩ <;> omega
    · obtain rfl := eq_nullptr_of_isNull hr'
      obtain ⟨hb, hh'⟩ := repair_balanced hl
      have hl0 := height_nonneg (t := l) (by rintro rfl; simp [isNull] at hnull)
      simp only [height] at h₁ h₂ ⊢
      refine ⟨hb, ?_, ?_⟩ <;> omega
    · -- the in-order successor takes its place
      cases r.leftmost with
      | none => exact ⟨⟨hh, h₁, h₂, hl, hr⟩, le_refl _, by rw [height]; omega⟩
      | some successor => exact hright successor successor

end AVLTreeNode
end Chrono
