import Mathlib.Data.List.Basic
import Mathlib.Tactic.Common

/-!
# Strictly sorted lists under a relative order

The order need only be strict and total on the values at hand. `put` and `drop`
are the sorted insertion and deletion; they are determined by what lies below and
above a value, and follow a search tree from its root.
-/
namespace Library

structure StrictTotalOn {β : Type*} [LT β] (S : β → Prop) : Prop where
  irrefl : ∀ {a}, S a → ¬ a < a
  trans : ∀ {a b c}, S a → S b → S c → a < b → b < c → a < c
  total : ∀ {a b}, S a → S b → a < b ∨ a = b ∨ b < a

namespace StrictTotalOn
variable {β : Type*} [LT β] {S : β → Prop}

theorem asymm (hS : StrictTotalOn S) {a b : β} (ha : S a) (hb : S b) (h : a < b) : ¬ b < a :=
  fun h' => hS.irrefl ha (hS.trans ha hb ha h h')

end StrictTotalOn

namespace SortedList
variable {β : Type*} [LT β]

structure SortedIn (S : β → Prop) (l : List β) : Prop where
  pairwise : l.Pairwise (· < ·)
  within : ∀ v ∈ l, S v

variable {S : β → Prop}

theorem sortedIn_nil : SortedIn S ([] : List β) := ⟨.nil, by simp⟩

theorem sortedIn_append_cons {a b : List β} {v : β} :
    SortedIn S (a ++ v :: b) ↔ SortedIn S a ∧ SortedIn S b ∧ S v ∧ (∀ u ∈ a, u < v) ∧
      (∀ w ∈ b, v < w) ∧ ∀ u ∈ a, ∀ w ∈ b, u < w := by
  constructor
  · rintro ⟨hp, hw⟩
    obtain ⟨ha, hvb, hcross⟩ := List.pairwise_append.mp hp
    obtain ⟨hv, hb⟩ := List.pairwise_cons.mp hvb
    exact ⟨⟨ha, fun u hu => hw u (by simp [hu])⟩, ⟨hb, fun w hw' => hw w (by simp [hw'])⟩,
      hw v (by simp), fun u hu => hcross u hu v (by simp), hv,
      fun u hu w hw' => hcross u hu w (by simp [hw'])⟩
  · rintro ⟨ha, hb, hv, hlt, hgt, hcross⟩
    refine ⟨List.pairwise_append.mpr ⟨ha.pairwise, List.pairwise_cons.mpr ⟨hgt, hb.pairwise⟩, ?_⟩, ?_⟩
    · intro u hu w hw
      rcases List.mem_cons.mp hw with rfl | hw
      · exact hlt u hu
      · exact hcross u hu w hw
    · intro u hu
      rcases List.mem_append.mp hu with hu | hu
      · exact ha.within u hu
      · rcases List.mem_cons.mp hu with rfl | hu
        · exact hv
        · exact hb.within u hu

theorem SortedIn.nodup (hS : StrictTotalOn S) {l : List β} (h : SortedIn S l) : l.Nodup := by
  refine List.Pairwise.imp_of_mem ?_ h.pairwise
  rintro a b ha - hlt rfl
  exact hS.irrefl (h.within a ha) hlt

variable [DecidableLT β]

def below (x : β) (l : List β) : List β := l.filter (fun v => decide (v < x))

def above (x : β) (l : List β) : List β := l.filter (fun v => decide (x < v))

def put (x : β) (l : List β) : List β := below x l ++ x :: above x l

def drop (x : β) (l : List β) : List β := below x l ++ above x l

theorem below_append (x : β) (a b : List β) : below x (a ++ b) = below x a ++ below x b := by
  simp [below]

theorem above_append (x : β) (a b : List β) : above x (a ++ b) = above x a ++ above x b := by
  simp [above]

theorem below_cons (x v : β) (l : List β) :
    below x (v :: l) = if v < x then v :: below x l else below x l := by
  simp [below, List.filter_cons]

theorem above_cons (x v : β) (l : List β) :
    above x (v :: l) = if x < v then v :: above x l else above x l := by
  simp [above, List.filter_cons]

theorem below_eq_self {x : β} {l : List β} (h : ∀ v ∈ l, v < x) : below x l = l := by
  simpa [below] using h

theorem below_eq_nil {x : β} {l : List β} (h : ∀ v ∈ l, ¬ v < x) : below x l = [] := by
  simpa [below] using h

theorem above_eq_self {x : β} {l : List β} (h : ∀ v ∈ l, x < v) : above x l = l := by
  simpa [above] using h

theorem above_eq_nil {x : β} {l : List β} (h : ∀ v ∈ l, ¬ x < v) : above x l = [] := by
  simpa [above] using h

variable (hS : StrictTotalOn S)
include hS

/-- Below and above a value, in a list that is split at a greater one. -/
theorem split_of_lt {a b : List β} {v x : β} (h : SortedIn S (a ++ v :: b)) (hx : S x) (hlt : x < v) :
    below x (a ++ v :: b) = below x a ∧ above x (a ++ v :: b) = above x a ++ v :: b := by
  obtain ⟨-, hb, hv, -, hgt, -⟩ := sortedIn_append_cons.mp h
  have hxb : ∀ w ∈ b, x < w := fun w hw => hS.trans hx hv (hb.within w hw) hlt (hgt w hw)
  constructor
  · rw [below_append, below_cons, if_neg (hS.asymm hx hv hlt),
      below_eq_nil (fun w hw => hS.asymm hx (hb.within w hw) (hxb w hw)), List.append_nil]
  · rw [above_append, above_cons, if_pos hlt, above_eq_self hxb]

/-- Below and above a value, in a list that is split at a smaller one. -/
theorem split_of_gt {a b : List β} {v x : β} (h : SortedIn S (a ++ v :: b)) (hx : S x) (hgt : v < x) :
    below x (a ++ v :: b) = a ++ v :: below x b ∧ above x (a ++ v :: b) = above x b := by
  obtain ⟨ha, -, hv, hlt, -, -⟩ := sortedIn_append_cons.mp h
  have hax : ∀ u ∈ a, u < x := fun u hu => hS.trans (ha.within u hu) hv hx (hlt u hu) hgt
  constructor
  · rw [below_append, below_cons, if_pos hgt, below_eq_self hax]
  · rw [above_append, above_cons, if_neg (hS.asymm hv hx hgt),
      above_eq_nil (fun u hu => hS.asymm (ha.within u hu) hx (hax u hu)), List.nil_append]

/-- Below and above the value at which a list is split. -/
theorem split_at {a b : List β} {v : β} (h : SortedIn S (a ++ v :: b)) :
    below v (a ++ v :: b) = a ∧ above v (a ++ v :: b) = b := by
  obtain ⟨ha, hb, hv, hlt, hgt, -⟩ := sortedIn_append_cons.mp h
  constructor
  · rw [below_append, below_cons, if_neg (hS.irrefl hv), below_eq_self hlt,
      below_eq_nil (fun w hw => hS.asymm hv (hb.within w hw) (hgt w hw)), List.append_nil]
  · rw [above_append, above_cons, if_neg (hS.irrefl hv), above_eq_self hgt,
      above_eq_nil (fun u hu => hS.asymm (ha.within u hu) hv (hlt u hu)), List.nil_append]

theorem put_of_lt {a b : List β} {v x : β} (h : SortedIn S (a ++ v :: b)) (hx : S x) (hlt : x < v) :
    put x (a ++ v :: b) = put x a ++ v :: b := by
  obtain ⟨hb, ha⟩ := split_of_lt hS h hx hlt
  simp [put, hb, ha]

theorem put_of_gt {a b : List β} {v x : β} (h : SortedIn S (a ++ v :: b)) (hx : S x) (hgt : v < x) :
    put x (a ++ v :: b) = a ++ v :: put x b := by
  obtain ⟨hb, ha⟩ := split_of_gt hS h hx hgt
  simp [put, hb, ha]

theorem put_at {a b : List β} {v : β} (h : SortedIn S (a ++ v :: b)) :
    put v (a ++ v :: b) = a ++ v :: b := by
  obtain ⟨hb, ha⟩ := split_at hS h
  simp [put, hb, ha]

theorem drop_of_lt {a b : List β} {v x : β} (h : SortedIn S (a ++ v :: b)) (hx : S x) (hlt : x < v) :
    drop x (a ++ v :: b) = drop x a ++ v :: b := by
  obtain ⟨hb, ha⟩ := split_of_lt hS h hx hlt
  simp [drop, hb, ha]

theorem drop_of_gt {a b : List β} {v x : β} (h : SortedIn S (a ++ v :: b)) (hx : S x) (hgt : v < x) :
    drop x (a ++ v :: b) = a ++ v :: drop x b := by
  obtain ⟨hb, ha⟩ := split_of_gt hS h hx hgt
  simp [drop, hb, ha]

theorem drop_at {a b : List β} {v : β} (h : SortedIn S (a ++ v :: b)) :
    drop v (a ++ v :: b) = a ++ b := by
  obtain ⟨hb, ha⟩ := split_at hS h
  simp [drop, hb, ha]

theorem mem_put {l : List β} {x v : β} (h : SortedIn S l) (hx : S x) :
    v ∈ put x l ↔ v = x ∨ v ∈ l := by
  simp only [put, below, above, List.mem_append, List.mem_cons, List.mem_filter, decide_eq_true_eq]
  constructor
  · rintro (⟨hv, -⟩ | rfl | ⟨hv, -⟩)
    · exact .inr hv
    · exact .inl rfl
    · exact .inr hv
  · rintro (rfl | hv)
    · exact .inr (.inl rfl)
    · rcases hS.total (h.within v hv) hx with hlt | rfl | hgt
      · exact .inl ⟨hv, hlt⟩
      · exact .inr (.inl rfl)
      · exact .inr (.inr ⟨hv, hgt⟩)

theorem mem_drop {l : List β} {x v : β} (h : SortedIn S l) (hx : S x) :
    v ∈ drop x l ↔ v ∈ l ∧ v ≠ x := by
  simp only [drop, below, above, List.mem_append, List.mem_filter, decide_eq_true_eq]
  constructor
  · rintro (⟨hv, hlt⟩ | ⟨hv, hgt⟩)
    · exact ⟨hv, fun heq => hS.irrefl hx (heq ▸ hlt)⟩
    · exact ⟨hv, fun heq => hS.irrefl hx (heq ▸ hgt)⟩
  · rintro ⟨hv, hne⟩
    rcases hS.total (h.within v hv) hx with hlt | heq | hgt
    · exact .inl ⟨hv, hlt⟩
    · exact absurd heq hne
    · exact .inr ⟨hv, hgt⟩

theorem SortedIn.put {l : List β} {x : β} (h : SortedIn S l) (hx : S x) :
    SortedIn S (SortedList.put x l) := by
  have hmem {v : β} {p : β → Bool} (hv : v ∈ l.filter p) : S v := h.within v (List.mem_filter.mp hv).1
  refine sortedIn_append_cons.mpr ⟨⟨h.pairwise.filter _, fun v => hmem⟩,
    ⟨h.pairwise.filter _, fun v => hmem⟩, hx, fun u hu => by simpa using (List.mem_filter.mp hu).2,
    fun w hw => by simpa using (List.mem_filter.mp hw).2, fun u hu w hw => ?_⟩
  have hux : u < x := by simpa using (List.mem_filter.mp hu).2
  have hxw : x < w := by simpa using (List.mem_filter.mp hw).2
  exact hS.trans (hmem hu) hx (hmem hw) hux hxw

theorem SortedIn.drop {l : List β} {x : β} (h : SortedIn S l) (hx : S x) :
    SortedIn S (SortedList.drop x l) := by
  have hput := h.put hS hx
  obtain ⟨ha, hb, -, -, -, hcross⟩ := sortedIn_append_cons.mp hput
  constructor
  · exact List.pairwise_append.mpr ⟨ha.pairwise, hb.pairwise, hcross⟩
  · intro v hv
    exact h.within v ((mem_drop hS h hx).mp hv).1

/-- Around a value that a list lacks, nothing is left out. -/
theorem drop_of_not_mem {l : List β} {x : β} (h : SortedIn S l) (hx : S x) (hmem : x ∉ l) :
    drop x l = l := by
  induction l with
  | nil => rfl
  | cons v l ih =>
    have hsplit : SortedIn S ([] ++ v :: l) := h
    obtain ⟨-, hl, hv, -⟩ := sortedIn_append_cons.mp hsplit
    rcases hS.total hx hv with hlt | rfl | hgt
    · exact (drop_of_lt hS hsplit hx hlt).trans rfl
    · exact absurd List.mem_cons_self hmem
    · have hrest := ih hl (fun hmem' => hmem (List.mem_cons_of_mem _ hmem'))
      rw [show v :: l = [] ++ v :: l from rfl, drop_of_gt hS hsplit hx hgt, hrest]

theorem put_of_mem {l : List β} {x : β} (h : SortedIn S l) (hmem : x ∈ l) : put x l = l := by
  obtain ⟨a, b, rfl⟩ := List.append_of_mem hmem
  exact put_at hS h

theorem perm_put {l : List β} {x : β} (h : SortedIn S l) (hx : S x) (hmem : x ∉ l) :
    (put x l).Perm (x :: l) := by
  have hdrop := drop_of_not_mem hS h hx hmem
  rw [drop] at hdrop
  calc put x l = below x l ++ x :: above x l := rfl
    List.Perm _ (x :: (below x l ++ above x l)) := List.perm_middle
    _ = x :: l := by rw [hdrop]

theorem drop_eq_erase [DecidableEq β] {l : List β} {x : β} (h : SortedIn S l) (hx : S x) :
    drop x l = l.erase x := by
  by_cases hmem : x ∈ l
  · obtain ⟨a, b, rfl⟩ := List.append_of_mem hmem
    obtain ⟨ha, -, -, hlt, -, -⟩ := sortedIn_append_cons.mp h
    have hxa : x ∉ a := fun hxa => hS.irrefl hx (hlt x hxa)
    rw [drop_at hS h, List.erase_append_right _ hxa, List.erase_cons_head]
  · rw [drop_of_not_mem hS h hx hmem, List.erase_of_not_mem hmem]

/-! The position of a value is the number of values below it. -/

theorem length_below_mono {l : List β} (hl : SortedIn S l) {x y : β} (hx : S x) (hy : S y)
    (hxy : x < y) :
    (below x l).length ≤ (below y l).length := by
  rw [below, below, ← List.countP_eq_length_filter, ← List.countP_eq_length_filter]
  apply List.countP_mono_left
  intro v hv hvx
  simp only [decide_eq_true_eq] at hvx ⊢
  exact hS.trans (hl.within v hv) hx hy hvx hxy

theorem length_below_getElem {l : List β} (hl : SortedIn S l) {i : ℕ} (hi : i < l.length) :
    (below l[i] l).length = i := by
  generalize hv : l[i] = v
  have hsplit : l.take i ++ v :: l.drop (i + 1) = l := by
    rw [← hv, List.getElem_cons_drop, List.take_append_drop]
  have hbelow : below v l = l.take i := by
    calc below v l = below v (l.take i ++ v :: l.drop (i + 1)) := by rw [hsplit]
      _ = l.take i := (split_at hS (by rwa [hsplit])).1
  rw [hbelow, List.length_take, Nat.min_eq_left (Nat.le_of_lt hi)]

theorem map_length_below {l : List β} (hl : SortedIn S l) :
    l.map (fun v => (below v l).length) = List.range l.length := by
  apply List.ext_getElem
  · rw [List.length_map, List.length_range]
  · intro i hi _
    rw [List.getElem_map, List.getElem_range]
    exact length_below_getElem hS hl (by simpa using hi)

end SortedList
end Library
