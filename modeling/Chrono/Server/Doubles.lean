import Mathlib.Data.List.TakeWhile
import Mathlib.Order.WithBot
import Chrono.Library.Decimal
import Chrono.Library.Longest
import Chrono.Library.Rounding
import Chrono.Server.CommandHandler

/-!
# Texts of doubles

`std::stod` reads the longest literal after white space and rounds its value to
binary64; `std::to_string` prints six decimal places.
-/
namespace Chrono
open Library Library.Rounding Library.Longest

/-! ## The numbers -/

def IsDouble (x : ℚ) : Prop := Representable 53 (-1074) x ∧ |x| < 2 ^ 1024

abbrev FiniteDouble := {x : ℚ // IsDouble x}

/-- A `double` other than NaN. The two zeros, which compare equal, are one. -/
inductive Double where
  | negInfinity
  | finite (x : FiniteDouble)
  | infinity

namespace Double

def extended : Double → WithBot (WithTop ℚ)
  | negInfinity => ⊥
  | finite x => ((x : ℚ) : WithTop ℚ)
  | infinity => (⊤ : WithTop ℚ)

theorem extended_injective : Function.Injective extended := by
  rintro (_ | x | _) (_ | y | _) h
  case finite.finite =>
    exact congrArg finite (Subtype.ext (WithTop.coe_injective (WithBot.coe_injective h)))
  all_goals first | rfl | exact absurd h (by simp [extended])

/-- The order of `double`. -/
instance linearOrder : LinearOrder Double := LinearOrder.lift' extended extended_injective

theorem finite_lt {x y : FiniteDouble} : finite x < finite y ↔ (x : ℚ) < y := by
  change extended (finite x) < extended (finite y) ↔ _
  rw [extended, extended, WithBot.coe_lt_coe, WithTop.coe_lt_coe]

end Double

/-- Round to nearest, ties to even; the exponent is not bounded above. -/
def toBinary64 (q : ℚ) : ℚ := Rounding.round 53 (-1074) q

/-! ## Literals -/

/-- What a literal of `strtod` denotes; the sign of a NaN is dropped. -/
inductive FloatLiteral where
  | nan
  | infinity (negative : Bool)
  | number (q : ℚ)

/-- The digits of a literal and of its exponent. -/
structure Radix where
  base : ℕ
  isDigit : UInt8 → Bool
  digit : UInt8 → ℕ
  marker : UInt8
  scale : ℕ

def Radix.decimal : Radix := ⟨10, Chrono.isDigit, fun b => b.toNat - 0x30, 0x65, 10⟩

/-- Hexadecimal digits in lower case, with a binary exponent. -/
def Radix.hexadecimal : Radix :=
  ⟨16, fun b => Chrono.isDigit b || (0x61 ≤ b && b ≤ 0x66),
    fun b => if Chrono.isDigit b then b.toNat - 0x30 else b.toNat - 0x57, 0x70, 2⟩

def Radix.value (r : Radix) (s : Bytes) : ℕ := s.foldl (fun n b => n * r.base + r.digit b) 0

/-- `::tolower` in the C locale. -/
def toLower (s : Bytes) : Bytes := s.map (fun b => if 0x41 ≤ b ∧ b ≤ 0x5A then b + 0x20 else b)

/-- The text after an optional sign, and whether that is a minus. -/
def splitSign (s : Bytes) : Bool × Bytes :=
  if s.head? = some 0x2D then (true, s.tail)
  else if s.head? = some 0x2B then (false, s.tail)
  else (false, s)

def decimalInteger (s : Bytes) : Option ℤ :=
  let (negative, digits) := splitSign s
  if digits ≠ [] ∧ digits.all isDigit then
    some (if negative then -Decimal.value 0 digits else Decimal.value 0 digits)
  else none

def exponent (marker : UInt8) : Bytes → Option ℤ
  | [] => some 0
  | b :: s => if b = marker then decimalInteger s else none

/-- Digits with an optional point and an optional exponent. -/
def magnitude (r : Radix) (s : Bytes) : Option ℚ :=
  let whole := s.takeWhile r.isDigit
  let rest := s.dropWhile r.isDigit
  let point := rest.head? = some 0x2E
  let fraction := if point then rest.tail.takeWhile r.isDigit else []
  let rest := if point then rest.tail.dropWhile r.isDigit else rest
  if whole ++ fraction = [] then none
  else (exponent r.marker rest).map fun e =>
    (r.value (whole ++ fraction) : ℚ) / r.base ^ fraction.length * r.scale ^ e

/-- `nan`, or `nan(...)` with letters, digits and underscores. -/
def isNan (s : Bytes) : Bool :=
  s == lit "nan" || (lit "nan(").isPrefixOf s && s.getLast? == some 0x29 &&
    (s.drop 4).dropLast.all (fun b => isDigit b || (0x61 ≤ b && b ≤ 0x7A) || b == 0x5F)

/-- A literal of `strtod` in full. -/
def floatLiteral (s : Bytes) : Option FloatLiteral :=
  let (negative, t) := splitSign s
  let t := toLower t
  if t = lit "inf" ∨ t = lit "infinity" then some (.infinity negative)
  else if isNan t then some .nan
  else ((if (lit "0x").isPrefixOf t then magnitude .hexadecimal (t.drop 2) else magnitude .decimal t).map
    fun q => .number (if negative then -q else q))

/-! ## Reading and printing -/

/-- Which results that are too small the C library reports as range errors. -/
structure Underflow where
  reports : ℚ → Bool
  tiny : ∀ q, reports q = true → 0 < |q| ∧ |q| < 2 ^ (-1022 : ℤ)

theorem isDouble_toBinary64 {q : ℚ} (h : |toBinary64 q| < 2 ^ 1024) : IsDouble (toBinary64 q) :=
  ⟨representable_round (by decide) q, h⟩

def FloatLiteral.convert (under : Underflow) : FloatLiteral → Except Fault (Score Double)
  | nan => .ok .nan
  | infinity negative => .ok (.num (if negative then .negInfinity else .infinity))
  | number q =>
    if under.reports q then .error (.exception (lit "stod"))
    else if h : |toBinary64 q| < 2 ^ 1024 then
      .ok (.num (.finite ⟨toBinary64 q, isDouble_toBinary64 h⟩))
    else .error (.exception (lit "stod"))

def stod (under : Underflow) (s : Bytes) : Except Fault (Score Double) :=
  match longest floatLiteral (s.dropWhile isSpace) with
  | none => .error (.exception (lit "stod"))
  | some l => l.convert under

/-- The text of `n / 10 ^ d` with `d` places. -/
def placesText (d n : ℕ) : Bytes := Decimal.digits (n / 10 ^ d) ++ 0x2E :: Decimal.padded d n

/-- A number that is not negative, printed with `d` decimal places. -/
def fixed (d : ℕ) (x : ℚ) : Bytes := placesText d (roundEven (x * 10 ^ d)).toNat

/-- `std::to_string` of a `double`. -/
def toText : Score Double → Bytes
  | .nan => lit "nan"
  | .num .negInfinity => lit "-inf"
  | .num .infinity => lit "inf"
  | .num (.finite x) => if (x : ℚ) < 0 then 0x2D :: fixed 6 |(x : ℚ)| else fixed 6 |(x : ℚ)|

/-- The conversions of the C++ library. -/
def doubleText (under : Underflow) : DoubleText Double := ⟨stod under, toText⟩

/-! ## What is printed reads back -/

/-- A digit or a point. -/
def IsPlain (b : UInt8) : Prop := Decimal.IsDigit b ∨ b = 0x2E

theorem isDigit_iff {b : UInt8} : isDigit b = true ↔ Decimal.IsDigit b := by
  simp [isDigit, Decimal.IsDigit]

theorem IsPlain.bounds {b : UInt8} (h : IsPlain b) : 0x2E ≤ b.toNat ∧ b.toNat ≤ 0x39 := by
  rcases h with h | rfl
  · exact ⟨by have := h.bounds; omega, h.bounds.2⟩
  · decide

theorem IsPlain.ne {b : UInt8} (h : IsPlain b) {a : UInt8} (ha : a.toNat < 0x2E ∨ 0x39 < a.toNat) :
    b ≠ a := by
  rintro rfl
  have := h.bounds
  omega

theorem isSpace_of_plain {b : UInt8} (h : IsPlain b) : isSpace b = false := by
  have hlt : ¬ b ≤ 0x0D := fun hle => by
    have hmax : b.toNat ≤ 13 := UInt8.le_iff_toNat_le.mp hle
    have := h.bounds.1
    omega
  simp [isSpace, h.ne (a := 0x20) (by decide), hlt]

section
variable {t : Bytes} (ht : ∀ b ∈ t, IsPlain b)
include ht

theorem splitSign_plain : splitSign t = (false, t) := by
  cases t with
  | nil => rfl
  | cons b s =>
    have hb := ht b List.mem_cons_self
    simp [splitSign, hb.ne (a := 0x2D) (by decide), hb.ne (a := 0x2B) (by decide)]

theorem toLower_plain : toLower t = t := by
  have hmap : t.map (fun b => if 0x41 ≤ b ∧ b ≤ 0x5A then b + 0x20 else b) = t.map id := by
    refine List.map_congr_left fun b hb => if_neg fun h => ?_
    have hlo := UInt8.le_iff_toNat_le.mp h.1
    have := (ht b hb).bounds.2
    change 65 ≤ b.toNat at hlo
    omega
  rw [toLower, hmap, List.map_id]

theorem ne_of_plain {u : Bytes} {a : UInt8} (ha : a ∈ u) (hletter : 0x39 < a.toNat) : t ≠ u := by
  rintro rfl
  exact (ht a ha).ne (a := a) (.inr hletter) rfl

theorem isPrefixOf_plain {u : Bytes} {a : UInt8} (ha : a ∈ u) (hletter : 0x39 < a.toNat) :
    u.isPrefixOf t = false := by
  rw [Bool.eq_false_iff]
  intro h
  have hmem : a ∈ t := (List.isPrefixOf_iff_prefix.mp h).subset ha
  exact (ht a hmem).ne (a := a) (.inr hletter) rfl

/-- A signed text of digits and a point is read as a decimal. -/
theorem floatLiteral_plain {s : Bytes} {negative : Bool} (hs : splitSign s = (negative, t)) :
    floatLiteral s = (magnitude .decimal t).map fun q => .number (if negative then -q else q) := by
  have hnan : isNan t = false := by
    have hne : t ≠ lit "nan" := ne_of_plain ht (a := 0x6E) (by decide) (by decide)
    simp [isNan, hne, isPrefixOf_plain ht (u := lit "nan(") (a := 0x6E) (by decide) (by decide)]
  simp only [floatLiteral, hs, toLower_plain ht, hnan,
    ne_of_plain ht (u := lit "inf") (a := 0x69) (by decide) (by decide),
    ne_of_plain ht (u := lit "infinity") (a := 0x69) (by decide) (by decide),
    isPrefixOf_plain ht (u := lit "0x") (a := 0x78) (by decide) (by decide)]
  simp

end

theorem magnitude_decimal {whole fraction : Bytes} (hwhole : ∀ b ∈ whole, Decimal.IsDigit b)
    (hfraction : ∀ b ∈ fraction, Decimal.IsDigit b) (hne : whole ≠ []) :
    magnitude .decimal (whole ++ 0x2E :: fraction) =
      some ((Decimal.value 0 (whole ++ fraction) : ℚ) / 10 ^ fraction.length) := by
  have hw : ∀ b ∈ whole, isDigit b = true := fun b hb => isDigit_iff.mpr (hwhole b hb)
  have hf : ∀ b ∈ fraction, isDigit b = true := fun b hb => isDigit_iff.mpr (hfraction b hb)
  have htake : (whole ++ 0x2E :: fraction).takeWhile isDigit = whole := by
    rw [List.takeWhile_append_of_pos hw]
    simp [isDigit]
  have hdrop : (whole ++ 0x2E :: fraction).dropWhile isDigit = 0x2E :: fraction := by
    rw [List.dropWhile_append_of_pos hw]
    simp [isDigit]
  have hall : fraction.takeWhile isDigit = fraction := List.takeWhile_eq_self_iff.mpr hf
  have hrest : fraction.dropWhile isDigit = [] := List.dropWhile_eq_nil_iff.mpr hf
  change (if _ then none else _) = _
  simp only [Radix.decimal, htake, hdrop, List.head?_cons, if_true, List.tail_cons, hall, hrest]
  rw [if_neg (by simp [hne])]
  simp [exponent, Radix.value, Decimal.value]

theorem isPlain_of_mem_placesText {d n : ℕ} {b : UInt8} (h : b ∈ placesText d n) : IsPlain b := by
  rcases List.mem_append.mp h with h | h
  · exact .inl (Decimal.isDigit_of_mem_digits h)
  · rcases List.mem_cons.mp h with rfl | h
    · exact .inr rfl
    · exact .inl (Decimal.isDigit_of_mem_padded h)

theorem magnitude_placesText (d n : ℕ) :
    magnitude .decimal (placesText d n) = some ((n : ℚ) / 10 ^ d) := by
  have hvalue : Decimal.value 0 (Decimal.digits (n / 10 ^ d) ++ Decimal.padded d n) = n := by
    rw [Decimal.value_append, Decimal.value_digits, Decimal.value_padded, Nat.div_add_mod']
  rw [placesText, magnitude_decimal (fun b => Decimal.isDigit_of_mem_digits) (fun b => Decimal.isDigit_of_mem_padded)
    (Decimal.digits_ne_nil _), hvalue, Decimal.length_padded]

/-- The text of a number denotes the nearest number of six places. -/
theorem floatLiteral_toText (x : FiniteDouble) :
    floatLiteral (toText (.num (.finite x))) = some (.number (places 6 x)) := by
  have hplain (q : ℚ) : ∀ b ∈ fixed 6 q, IsPlain b := fun b hb => isPlain_of_mem_placesText hb
  have hmagnitude {q : ℚ} (hq : 0 ≤ q) : magnitude .decimal (fixed 6 q) = some (places 6 q) := by
    have hnat : (((roundEven (q * 10 ^ 6)).toNat : ℕ) : ℚ) = roundEven (q * 10 ^ 6) := by
      have hnonneg : 0 ≤ roundEven (q * 10 ^ 6) := roundEven_nonneg (by positivity)
      exact_mod_cast congrArg (Int.cast : ℤ → ℚ) (Int.toNat_of_nonneg hnonneg)
    rw [fixed, magnitude_placesText, hnat, places]
  by_cases hneg : (x : ℚ) < 0
  · have hopp : places 6 (-(x : ℚ)) = -places 6 x := by
      rw [places, neg_mul, roundEven_neg, places]
      push_cast
      ring
    have htext : toText (.num (.finite x)) = 0x2D :: fixed 6 |(x : ℚ)| := if_pos hneg
    have hsplit : splitSign (0x2D :: fixed 6 |(x : ℚ)|) = (true, fixed 6 |(x : ℚ)|) := rfl
    rw [htext, floatLiteral_plain (hplain _) hsplit, hmagnitude (abs_nonneg _), abs_of_neg hneg, hopp]
    simp
  · have htext : toText (.num (.finite x)) = fixed 6 |(x : ℚ)| := if_neg hneg
    rw [htext, floatLiteral_plain (hplain _) (splitSign_plain (hplain _)), hmagnitude (abs_nonneg _),
      abs_of_nonneg (not_lt.mp hneg)]
    simp

theorem stod_of_literal (under : Underflow) {s : Bytes} {l : FloatLiteral}
    (h : floatLiteral s = some l)
    (hspace : s.dropWhile isSpace = s) : stod under s = l.convert under := by
  rw [stod, hspace, longest_self h]

/-- Printing with six places does not leave the range of `double`. -/
theorem abs_toBinary64_places_lt (x : FiniteDouble) : |toBinary64 (places 6 x)| < 2 ^ 1024 := by
  obtain ⟨hx, hlt⟩ := x.2
  have hself : toBinary64 x = x := round_of_representable hx
  obtain ⟨m, e, hm, -, hme⟩ := hx
  by_cases he : -(6 : ℕ) ≤ e
  · rw [hme, places_of_dyadic he, ← hme, hself]
    exact hlt
  · have hpos := two_zpow_pos e
    have hexp : (2 : ℚ) ^ e ≤ 2 ^ (-7 : ℤ) :=
      zpow_le_zpow_right₀ (by norm_num) (by push_cast at he; omega)
    have hcast : |(m : ℚ)| < 2 ^ 53 := by exact_mod_cast hm
    have hsmall : |(x : ℚ)| < 2 ^ 46 := by
      rw [hme, abs_mul, abs_of_pos hpos]
      norm_num at hexp hcast ⊢
      nlinarith
    have hplaces : |places 6 x| < 2 ^ (47 : ℤ) := by
      have herr := abs_places_sub_le 6 x
      have htri := abs_sub_abs_le_abs_sub (places 6 x) x
      norm_num at herr hsmall ⊢
      linarith
    have hround : |toBinary64 (places 6 x)| ≤ 2 ^ (47 : ℤ) := abs_round_le (by decide) hplaces
    have hbig : (2 : ℚ) ^ (47 : ℕ) < 2 ^ 1024 := pow_lt_pow_right₀ (by norm_num) (by norm_num)
    exact hround.trans_lt (by exact_mod_cast hbig)

theorem convert_places (under : Underflow) (x : FiniteDouble) :
    (FloatLiteral.number (places 6 x)).convert under =
      .ok (.num (.finite ⟨toBinary64 (places 6 x),
        isDouble_toBinary64 (abs_toBinary64_places_lt x)⟩)) := by
  have hquiet : under.reports (places 6 x) = false := by
    rw [Bool.eq_false_iff]
    intro h
    obtain ⟨hpos, hlt⟩ := under.tiny _ h
    have hle := le_abs_places (abs_pos.mp hpos)
    have hexp : (2 : ℚ) ^ (-1022 : ℤ) ≤ 2 ^ (-20 : ℤ) :=
      zpow_le_zpow_right₀ (by norm_num) (by norm_num)
    have hsmall := hlt.trans_le hexp
    norm_num at hsmall hle
    linarith
  simp [FloatLiteral.convert, hquiet, abs_toBinary64_places_lt x]

theorem dropWhile_toText (x : FiniteDouble) :
    (toText (.num (.finite x))).dropWhile isSpace = toText (.num (.finite x)) := by
  have hfixed : (fixed 6 |(x : ℚ)|).dropWhile isSpace = fixed 6 |(x : ℚ)| := by
    cases h : fixed 6 |(x : ℚ)| with
    | nil => rfl
    | cons b s =>
      have hb : IsPlain b := isPlain_of_mem_placesText (h ▸ List.mem_cons_self)
      exact List.dropWhile_cons_of_neg (by simp [isSpace_of_plain hb])
  by_cases hneg : (x : ℚ) < 0
  · have htext : toText (.num (.finite x)) = 0x2D :: fixed 6 |(x : ℚ)| := if_pos hneg
    rw [htext]
    rfl
  · have htext : toText (.num (.finite x)) = fixed 6 |(x : ℚ)| := if_neg hneg
    rw [htext, hfixed]

/-- A number that was printed is read as the `double` nearest to its six places. -/
theorem stod_toText (under : Underflow) (x : FiniteDouble) :
    stod under (toText (.num (.finite x))) =
      .ok (.num (.finite ⟨toBinary64 (places 6 x),
        isDouble_toBinary64 (abs_toBinary64_places_lt x)⟩)) := by
  rw [stod_of_literal under (floatLiteral_toText x) (dropWhile_toText x), convert_places]

end Chrono
