import Chrono.Server.Doubles
import Chrono.Server.Requests

/-!
# What the conversions accept

`std::stoll` and `std::stod` read the longest numeral after white space, and fail if there
is none or if it is out of range.
-/
namespace Chrono
open Library Library.Longest

/-! ## Integers -/

theorem splitSign_digits {d : Bytes} (hd : ∀ b ∈ d, Decimal.IsDigit b) : splitSign d = (false, d) :=
  splitSign_plain fun b hb => .inl (hd b hb)

theorem splitSign_cases (t : Bytes) : (∃ d, t = 0x2D :: d ∧ splitSign t = (true, d)) ∨
    (∃ d, t = 0x2B :: d ∧ splitSign t = (false, d)) ∨
      t.head? ≠ some 0x2D ∧ t.head? ≠ some 0x2B ∧ splitSign t = (false, t) := by
  by_cases hminus : t.head? = some 0x2D
  · obtain ⟨d, rfl⟩ := List.head?_eq_some_iff.mp hminus
    exact .inl ⟨d, rfl, rfl⟩
  by_cases hplus : t.head? = some 0x2B
  · obtain ⟨d, rfl⟩ := List.head?_eq_some_iff.mp hplus
    exact .inr (.inl ⟨d, rfl, rfl⟩)
  · exact .inr (.inr ⟨hminus, hplus, by rw [splitSign, if_neg hminus, if_neg hplus]⟩)

theorem splitSign_append {t : Bytes} (ht : t ≠ []) (r : Bytes) :
    splitSign (t ++ r) = ((splitSign t).1, (splitSign t).2 ++ r) := by
  rcases splitSign_cases t with ⟨d, rfl, -⟩ | ⟨d, rfl, -⟩ | ⟨hminus, hplus, hsplit⟩
  · rfl
  · rfl
  · have hhead : (t ++ r).head? = t.head? := List.head?_append_of_ne_nil t ht
    rw [hsplit, splitSign, hhead, if_neg hminus, if_neg hplus]

/-- The sign that is split off, as a text. -/
theorem exists_sign (t : Bytes) : ∃ sign, t = sign ++ (splitSign t).2 ∧
    ∀ d, (∀ b ∈ d, Decimal.IsDigit b) → splitSign (sign ++ d) = ((splitSign t).1, d) := by
  rcases splitSign_cases t with ⟨d, rfl, -⟩ | ⟨d, rfl, -⟩ | ⟨-, -, hsplit⟩
  · exact ⟨[0x2D], rfl, fun _ _ => rfl⟩
  · exact ⟨[0x2B], rfl, fun _ _ => rfl⟩
  · refine ⟨[], by rw [hsplit]; rfl, fun d hd => ?_⟩
    rw [hsplit]
    exact splitSign_digits hd

theorem all_isDigit {d : Bytes} : d.all isDigit = true ↔ ∀ b ∈ d, Decimal.IsDigit b := by
  simp [List.all_eq_true, isDigit_iff]

/-- The number of some digits and a sign. -/
def signed (negative : Bool) (digits : Bytes) : ℤ :=
  if negative then -Decimal.value 0 digits else Decimal.value 0 digits

theorem decimalInteger_eq_some {s : Bytes} {n : ℤ} : decimalInteger s = some n ↔
    ((splitSign s).2 ≠ [] ∧ ∀ b ∈ (splitSign s).2, Decimal.IsDigit b) ∧
    signed (splitSign s).1 (splitSign s).2 = n := by
  rw [← all_isDigit]
  change (if _ then some _ else none) = some n ↔ _
  rw [Option.ite_none_right_eq_some, Option.some.injEq]
  rfl

theorem decimalInteger_iff_denotes {s : Bytes} {n : ℤ} :
    decimalInteger s = some n ↔ Denotes s n := by
  rw [decimalInteger_eq_some]
  constructor
  · rintro ⟨⟨hne, hd⟩, rfl⟩
    rcases splitSign_cases s with ⟨d, rfl, -⟩ | ⟨d, rfl, -⟩ | ⟨-, -, hsplit⟩
    · exact Denotes.minus hne hd
    · exact Denotes.plus hne hd
    · rw [hsplit] at hne hd ⊢
      exact Denotes.digits hne hd
  · rintro (⟨hne, hd⟩ | ⟨hne, hd⟩ | ⟨hne, hd⟩)
    · rw [splitSign_digits hd]
      exact ⟨⟨hne, hd⟩, rfl⟩
    · exact ⟨⟨hne, hd⟩, rfl⟩
    · exact ⟨⟨hne, hd⟩, rfl⟩

/-- No digit follows the longest integer at the front. -/
theorem digits_of_leads {t : Bytes} {n : ℤ} (h : Leads decimalInteger t n) :
    (splitSign t).2.takeWhile isDigit ≠ [] ∧
    signed (splitSign t).1 ((splitSign t).2.takeWhile isDigit) = n := by
  obtain ⟨t', rest, rfl, ht', hmax⟩ := h
  obtain ⟨⟨hne, hd⟩, rfl⟩ := decimalInteger_eq_some.mp ht'
  have ht'ne : t' ≠ [] := by
    rintro rfl
    exact hne rfl
  have hstop : rest.takeWhile isDigit = [] := by
    by_contra hmore
    have hnone := hmax _ hmore (List.takeWhile_prefix _)
    have hall : ∀ b ∈ (splitSign t').2 ++ rest.takeWhile isDigit, Decimal.IsDigit b := by
      intro b hb
      rcases List.mem_append.mp hb with hb | hb
      · exact hd b hb
      · exact isDigit_iff.mp (List.mem_takeWhile_imp hb)
    have hsome := decimalInteger_eq_some (s := t' ++ rest.takeWhile isDigit).mpr ⟨?_, rfl⟩
    · rw [hnone] at hsome
      cases hsome
    · rw [splitSign_append ht'ne]
      exact ⟨by simp [hne], hall⟩
  have htake : (splitSign (t' ++ rest)).2.takeWhile isDigit = (splitSign t').2 := by
    rw [splitSign_append ht'ne, List.takeWhile_append_of_pos fun b hb => isDigit_iff.mpr (hd b hb),
      hstop, List.append_nil]
  rw [htake, splitSign_append ht'ne]
  exact ⟨hne, rfl⟩

theorem exists_integer_prefix {t : Bytes} (h : (splitSign t).2.takeWhile isDigit ≠ []) :
    ∃ p n, p <+: t ∧ decimalInteger p = some n := by
  obtain ⟨sign, ht, hsign⟩ := exists_sign t
  have hdigits : ∀ b ∈ (splitSign t).2.takeWhile isDigit, Decimal.IsDigit b :=
    fun b hb => isDigit_iff.mp (List.mem_takeWhile_imp hb)
  refine ⟨sign ++ (splitSign t).2.takeWhile isDigit, _, ?_, decimalInteger_eq_some.mpr ⟨?_, rfl⟩⟩
  · conv_rhs => rw [ht]
    exact List.prefix_append_right_inj _ |>.mpr (List.takeWhile_prefix _)
  · rw [hsign _ hdigits]
    exact ⟨h, hdigits⟩

/-- The longest integer at the front takes all digits after the sign. -/
theorem leads_decimalInteger_iff {t : Bytes} {n : ℤ} : Leads decimalInteger t n ↔
    (splitSign t).2.takeWhile isDigit ≠ [] ∧
    signed (splitSign t).1 ((splitSign t).2.takeWhile isDigit) = n := by
  refine ⟨digits_of_leads, ?_⟩
  rintro ⟨hne, rfl⟩
  cases hlong : longest decimalInteger t with
  | none =>
    obtain ⟨p, n, hprefix, hread⟩ := exists_integer_prefix hne
    rw [longest_eq_none_iff.mp hlong p hprefix] at hread
    cases hread
  | some n =>
    have hleads := longest_eq_some_iff.mp hlong
    rw [(digits_of_leads hleads).2]
    exact hleads

def InInt64 (n : ℤ) : Prop := -2 ^ 63 ≤ n ∧ n < 2 ^ 63

instance inInt64Decidable (n : ℤ) : Decidable (InInt64 n) := inferInstanceAs (Decidable (_ ∧ _))

theorem foldl_digits {d : Bytes} (hd : ∀ b ∈ d, Decimal.IsDigit b) (m : ℕ) :
    d.foldl (fun (n : ℤ) b => n * 10 + (b.toNat - 0x30)) m = Decimal.value m d := by
  induction d generalizing m with
  | nil => rfl
  | cons b d ih =>
    have hlo := (hd b List.mem_cons_self).bounds.1
    have hcast : (m : ℤ) * 10 + (b.toNat - 0x30) = (m * 10 + (b.toNat - 0x30) : ℕ) := by omega
    rw [List.foldl_cons, hcast, ih fun a ha => hd a (List.mem_cons_of_mem _ ha), Decimal.value_cons]

theorem stoll_eq (s : Bytes) : stoll s =
    let digits := (splitSign (s.dropWhile isSpace)).2.takeWhile isDigit
    let n := signed (splitSign (s.dropWhile isSpace)).1 digits
    if digits ≠ [] ∧ InInt64 n then .ok n else .error (.exception (lit "stoll")) := by
  have hfold (u : Bytes) :
      (u.takeWhile isDigit).foldl (fun (n : ℤ) b => n * 10 + (b.toNat - 0x30)) 0 =
      Decimal.value 0 (u.takeWhile isDigit) :=
    foldl_digits (fun b hb => isDigit_iff.mp (List.mem_takeWhile_imp hb)) 0
  have hranges (digits : Bytes) (n : ℤ) (e : Except Fault ℤ) :
      (if digits = [] then e else if -2 ^ 63 ≤ n ∧ n < 2 ^ 63 then .ok n else e) =
        if digits ≠ [] ∧ InInt64 n then .ok n else e := by
    by_cases hd : digits = []
    · rw [if_pos hd, if_neg fun h => h.1 hd]
    · rw [if_neg hd]
      exact if_congr (by simp [hd, InInt64]) rfl rfl
  unfold stoll
  dsimp only
  generalize s.dropWhile isSpace = t
  rcases splitSign_cases t with ⟨d, rfl, hsplit⟩ | ⟨d, rfl, hsplit⟩ | ⟨hminus, hplus, hsplit⟩
  · rw [hsplit, ← hranges, signed, ← hfold]
    rfl
  · rw [hsplit, ← hranges, signed, ← hfold]
    rfl
  · have hnone : (t.head? == some 0x2D) = false ∧ (t.head? == some 0x2B) = false :=
      ⟨beq_false_of_ne hminus, beq_false_of_ne hplus⟩
    rw [hsplit, ← hranges, signed, ← hfold, hnone.1, hnone.2]
    rfl

theorem stoll_eq_ok_iff {s : Bytes} {n : ℤ} :
    stoll s = .ok n ↔ Leads decimalInteger (s.dropWhile isSpace) n ∧ InInt64 n := by
  rw [leads_decimalInteger_iff, stoll_eq]
  dsimp only
  constructor
  · intro h
    split_ifs at h with hok
    obtain rfl := Except.ok.inj h
    exact ⟨⟨hok.1, rfl⟩, hok.2⟩
  · rintro ⟨⟨hne, rfl⟩, hrange⟩
    rw [if_pos ⟨hne, hrange⟩]

/-! ## Doubles -/

/-- The literal has a `double`, and the library reports no range error. -/
def FloatLiteral.InRange (under : Underflow) : FloatLiteral → Prop
  | nan => True
  | infinity _ => True
  | number q => under.reports q = false ∧ |toBinary64 q| < 2 ^ 1024

/-- The score is the literal's, with `value q` for a number `q`. -/
def FloatLiteral.Means (value : ℚ → ℚ) : FloatLiteral → Score Double → Prop
  | nan, s => s = .nan
  | infinity negative, s => s = .num (if negative then .negInfinity else .infinity)
  | number q, s => ∃ x : FiniteDouble, s = .num (.finite x) ∧ (x : ℚ) = value q

theorem convert_eq_ok_iff {under : Underflow} {l : FloatLiteral} {x : Score Double} :
    l.convert under = .ok x ↔ l.InRange under ∧ l.Means toBinary64 x := by
  cases l with
  | nan => simp [FloatLiteral.convert, FloatLiteral.InRange, FloatLiteral.Means, eq_comm]
  | infinity negative =>
    simp [FloatLiteral.convert, FloatLiteral.InRange, FloatLiteral.Means, eq_comm]
  | number q =>
    constructor
    · intro h
      simp only [FloatLiteral.convert] at h
      split_ifs at h with hreports hlt
      obtain rfl := Except.ok.inj h
      exact ⟨⟨by simpa using hreports, hlt⟩, ⟨_, isDouble_toBinary64 hlt⟩, rfl, rfl⟩
    · rintro ⟨⟨hreports, hlt⟩, y, rfl, hy⟩
      simp only [FloatLiteral.convert, hreports, hlt, dif_pos, Bool.false_eq_true, if_false]
      exact congrArg (fun y => Except.ok (Score.num (Double.finite y))) (Subtype.ext hy.symm)

theorem FloatLiteral.InRange.exists_means {under : Underflow} {l : FloatLiteral}
    (h : l.InRange under) :
    ∃ x, l.Means toBinary64 x := by
  cases l with
  | nan => exact ⟨_, rfl⟩
  | infinity negative => exact ⟨_, rfl⟩
  | number q => exact ⟨_, ⟨_, isDouble_toBinary64 h.2⟩, rfl, rfl⟩

theorem stod_eq_ok_iff {under : Underflow} {s : Bytes} {x : Score Double} : stod under s = .ok x ↔
    ∃ l, Leads floatLiteral (s.dropWhile isSpace) l ∧ l.InRange under ∧ l.Means toBinary64 x := by
  simp only [← longest_eq_some_iff, ← convert_eq_ok_iff, stod]
  cases longest floatLiteral (s.dropWhile isSpace) with
  | none => simp
  | some l => simp

/-- A text whose longest literal denotes a `double`. -/
theorem stod_exact {under : Underflow} {s : Bytes} {x : FiniteDouble}
    (h : longest floatLiteral (s.dropWhile isSpace) = some (.number x))
    (hx : under.reports x = false) :
    stod under s = .ok (.num (.finite x)) := by
  have hself : toBinary64 x = x := Rounding.round_of_representable x.2.1
  exact stod_eq_ok_iff.mpr ⟨_, longest_eq_some_iff.mp h, ⟨hx, by rw [hself]; exact x.2.2⟩,
    x, rfl, hself.symm⟩

theorem stod_error {under : Underflow} {s : Bytes} {e : Fault} (h : stod under s = .error e) :
    e = .exception (lit "stod") := by
  unfold stod at h
  cases hl : longest floatLiteral (s.dropWhile isSpace) with
  | none =>
    rw [hl] at h
    exact (Except.error.inj h).symm
  | some l =>
    rw [hl] at h
    cases l with
    | nan => cases h
    | infinity negative => cases h
    | number q =>
      simp only [FloatLiteral.convert] at h
      split_ifs at h <;> exact (Except.error.inj h).symm

/-! ## Numerals in full -/

theorem isSpace_cases {b : UInt8} (h : isSpace b = true) :
    b = 0x20 ∨ b = 0x09 ∨ b = 0x0A ∨ b = 0x0B ∨ b = 0x0C ∨ b = 0x0D := by
  simp only [isSpace, Bool.or_eq_true, Bool.and_eq_true, beq_iff_eq, decide_eq_true_eq,
    UInt8.le_iff_toNat_le, ← UInt8.toNat_inj] at h ⊢
  simp at h ⊢
  omega

/-- A text that starts with no white space is converted from its start. -/
theorem dropWhile_isSpace {β : Type} {f : Bytes → Option β}
    (hspace : ∀ b t, isSpace b = true → f (b :: t) = none)
    {s : Bytes} {v : β} (h : f s = some v) : s.dropWhile isSpace = s := by
  cases s with
  | nil => rfl
  | cons b t =>
    refine List.dropWhile_cons_of_neg fun hb => ?_
    rw [hspace b t hb] at h
    cases h

theorem decimalInteger_space (b : UInt8) (t : Bytes) (hb : isSpace b = true) :
    decimalInteger (b :: t) = none := by
  rcases isSpace_cases hb with rfl | rfl | rfl | rfl | rfl | rfl <;> rfl

theorem floatLiteral_space (b : UInt8) (t : Bytes) (hb : isSpace b = true) :
    floatLiteral (b :: t) = none := by
  rcases isSpace_cases hb with rfl | rfl | rfl | rfl | rfl | rfl <;> rfl

theorem leads_of_full {β : Type} {f : Bytes → Option β}
    (hspace : ∀ b t, isSpace b = true → f (b :: t) = none)
    {s : Bytes} {v : β} (h : f s = some v) : Leads f (s.dropWhile isSpace) v := by
  rw [dropWhile_isSpace hspace h]
  exact longest_eq_some_iff.mp (longest_self h)

end Chrono
