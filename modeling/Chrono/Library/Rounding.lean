import Mathlib.Data.Int.Log
import Mathlib.Data.Nat.Prime.Basic
import Mathlib.Data.Rat.Floor
import Mathlib.Tactic.FieldSimp
import Mathlib.Tactic.Linarith
import Mathlib.Tactic.Positivity

/-!
# Rounding to binary floating point

A format has a precision and a least exponent, and no greatest one. A number is
rounded to a multiple of its quantum, the even one of two that are equally near.
-/
namespace Library.Rounding

/-- The integer nearest to `q`, the even one of two. -/
def roundEven (q : ℚ) : ℤ :=
  let n := ⌊q⌋
  if q - n < 1 / 2 ∨ q - n = 1 / 2 ∧ n % 2 = 0 then n else n + 1

theorem abs_sub_roundEven_le (q : ℚ) : |q - roundEven q| ≤ 1 / 2 := by
  have hlo := Int.floor_le q
  have hhi := Int.lt_floor_add_one q
  unfold roundEven
  dsimp only
  split_ifs with h
  · rw [abs_of_nonneg (by linarith)]
    rcases h with h | h
    · exact h.le
    · exact h.1.le
  · have hhalf : 1 / 2 ≤ q - ⌊q⌋ := not_lt.mp fun hlt => h (.inl hlt)
    push_cast
    rw [abs_le]
    constructor <;> linarith

theorem roundEven_eq {q : ℚ} {n : ℤ} (h : |q - n| < 1 / 2) : roundEven q = n := by
  have hround := abs_sub_roundEven_le q
  rw [abs_lt] at h
  rw [abs_le] at hround
  have hlt : |(roundEven q - n : ℤ)| < 1 := by
    have hcast : |((roundEven q - n : ℤ) : ℚ)| < 1 := by
      push_cast
      rw [abs_lt]
      constructor <;> linarith
    exact_mod_cast hcast
  have := Int.abs_lt_one_iff.mp hlt
  omega

@[simp] theorem roundEven_intCast (n : ℤ) : roundEven n = n := roundEven_eq (by norm_num)

theorem roundEven_neg (q : ℚ) : roundEven (-q) = -roundEven q := by
  by_cases hfloor : (⌊q⌋ : ℚ) = q
  · rw [← hfloor, ← Int.cast_neg, roundEven_intCast, roundEven_intCast]
  have hlo := lt_of_le_of_ne (Int.floor_le q) hfloor
  have hhi := Int.lt_floor_add_one q
  have hneg : ⌊-q⌋ = -⌊q⌋ - 1 := by
    rw [Int.floor_eq_iff]
    push_cast
    constructor <;> linarith
  -- the two fractions add up to one, and the two candidates have different parities
  have hfrac : -q - ⌊-q⌋ = 1 - (q - ⌊q⌋) := by
    rw [hneg]
    push_cast
    ring
  unfold roundEven
  dsimp only
  rw [hfrac, hneg]
  rcases lt_trichotomy (q - ⌊q⌋) (1 / 2) with h | h | h
  · rw [if_neg (by rintro (h' | h') <;> linarith [h']), if_pos (.inl h)]
    omega
  · rw [h]
    norm_num
    split_ifs <;> omega
  · rw [if_pos (.inl (by linarith)), if_neg (by rintro (h' | h') <;> linarith [h'])]
    omega

theorem roundEven_nonneg {q : ℚ} (h : 0 ≤ q) : 0 ≤ roundEven q := by
  have hfloor : 0 ≤ ⌊q⌋ := Int.floor_nonneg.mpr h
  unfold roundEven
  dsimp only
  split_ifs <;> omega

section
variable (prec : ℕ) (emin : ℤ)

/-- A significand of `prec` binary digits, times a power of two. -/
def Representable (x : ℚ) : Prop := ∃ m e : ℤ, |m| < 2 ^ prec ∧ emin ≤ e ∧ x = m * 2 ^ e

/-- The exponent of the last digit of the numbers next to `q`. -/
def quantum (q : ℚ) : ℤ := max (Int.log 2 |q| + 1 - prec) emin

/-- The number nearest to `q`, of two the one with the even significand. -/
def round (q : ℚ) : ℚ := roundEven (q / 2 ^ quantum prec emin q) * 2 ^ quantum prec emin q

end

variable {prec : ℕ} {emin : ℤ}

theorem emin_le_quantum (q : ℚ) : emin ≤ quantum prec emin q := le_max_right _ _

theorem two_zpow_pos (e : ℤ) : (0 : ℚ) < 2 ^ e := zpow_pos (by norm_num) e

theorem abs_lt_quantum (q : ℚ) : |q| < 2 ^ (quantum prec emin q + prec) := by
  have hlog : |q| < ((2 : ℕ) : ℚ) ^ (Int.log 2 |q| + 1) := Int.lt_zpow_succ_log_self (by norm_num) _
  have hle : Int.log 2 |q| + 1 - prec ≤ quantum prec emin q := le_max_left _ _
  have hmono : (2 : ℚ) ^ (Int.log 2 |q| + 1) ≤ 2 ^ (quantum prec emin q + prec) :=
    zpow_le_zpow_right₀ (by norm_num) (by omega)
  push_cast at hlog
  exact hlog.trans_le hmono

theorem quantum_le_abs {q : ℚ} (hq : q ≠ 0) (h : emin < quantum prec emin q) :
    2 ^ (quantum prec emin q + prec - 1) ≤ |q| := by
  have hlog : ((2 : ℕ) : ℚ) ^ Int.log 2 |q| ≤ |q| :=
    Int.zpow_log_le_self (by norm_num) (abs_pos.mpr hq)
  have heq : quantum prec emin q = Int.log 2 |q| + 1 - prec := by
    unfold quantum at h ⊢
    omega
  have hexp : quantum prec emin q + prec - 1 = Int.log 2 |q| := by omega
  rw [hexp]
  exact_mod_cast hlog

theorem quantum_eq {q : ℚ} {g : ℤ} (hg : emin ≤ g) (hlo : 2 ^ (g + prec - 1) ≤ |q|)
    (hhi : |q| < 2 ^ (g + prec)) :
    quantum prec emin q = g := by
  have hpos : 0 < |q| := (two_zpow_pos _).trans_le hlo
  have hle : g + prec - 1 ≤ Int.log 2 |q| :=
    (Int.zpow_le_iff_le_log (by norm_num) hpos).mp (by exact_mod_cast hlo)
  have hlt : Int.log 2 |q| < g + prec :=
    (Int.lt_zpow_iff_log_lt (by norm_num) hpos).mp (by exact_mod_cast hhi)
  unfold quantum
  omega

theorem abs_round_sub_le (q : ℚ) : |round prec emin q - q| ≤ 2 ^ quantum prec emin q / 2 := by
  have hpos := two_zpow_pos (quantum prec emin q)
  have hround := abs_sub_roundEven_le (q / 2 ^ quantum prec emin q)
  have heq : round prec emin q - q =
      -((q / 2 ^ quantum prec emin q - roundEven (q / 2 ^ quantum prec emin q)) *
        2 ^ quantum prec emin q) := by
    rw [round]
    field_simp
    ring
  rw [heq, abs_neg, abs_mul, abs_of_pos hpos]
  nlinarith

/-- A multiple of the quantum less than half a quantum away is the nearest number. -/
theorem round_eq {q : ℚ} {m : ℤ} (h : |q - m * 2 ^ quantum prec emin q| <
    2 ^ quantum prec emin q / 2) :
    round prec emin q = m * 2 ^ quantum prec emin q := by
  have hpos := two_zpow_pos (quantum prec emin q)
  have hnear : |q / 2 ^ quantum prec emin q - m| < 1 / 2 := by
    have heq : q / 2 ^ quantum prec emin q - m =
        (q - m * 2 ^ quantum prec emin q) / 2 ^ quantum prec emin q := by
      field_simp
    rw [heq, abs_div, abs_of_pos hpos, div_lt_iff₀ hpos]
    linarith
  rw [round, roundEven_eq hnear]

theorem abs_roundEven_le (q : ℚ) : |roundEven (q / 2 ^ quantum prec emin q)| ≤ 2 ^ prec := by
  have hpos := two_zpow_pos (quantum prec emin q)
  have hround := abs_sub_roundEven_le (q / 2 ^ quantum prec emin q)
  have hlt : |q / 2 ^ quantum prec emin q| < 2 ^ prec := by
    rw [abs_div, abs_of_pos hpos, div_lt_iff₀ hpos, ← zpow_natCast, ← zpow_add₀ (by norm_num),
      add_comm]
    exact abs_lt_quantum q
  have hcast : |(roundEven (q / 2 ^ quantum prec emin q) : ℚ)| < 2 ^ prec + 1 := by
    rw [abs_lt] at hlt ⊢
    rw [abs_le] at hround
    constructor <;> linarith
  have hint : |roundEven (q / 2 ^ quantum prec emin q)| < 2 ^ prec + 1 := by exact_mod_cast hcast
  omega

theorem le_abs_roundEven {p : ℕ} {q : ℚ} (hq : q ≠ 0) (h : emin < quantum (p + 1) emin q) :
    2 ^ p ≤ |roundEven (q / 2 ^ quantum (p + 1) emin q)| := by
  have hpos := two_zpow_pos (quantum (p + 1) emin q)
  have hround := abs_sub_roundEven_le (q / 2 ^ quantum (p + 1) emin q)
  have hle : 2 ^ p ≤ |q / 2 ^ quantum (p + 1) emin q| := by
    have hexp : quantum (p + 1) emin q + (p + 1 : ℕ) - 1 = p + quantum (p + 1) emin q := by omega
    have hbig := quantum_le_abs hq h
    rw [hexp, zpow_add₀ (by norm_num), zpow_natCast] at hbig
    rwa [abs_div, abs_of_pos hpos, le_div_iff₀ hpos]
  have htri := abs_sub_abs_le_abs_sub (q / 2 ^ quantum (p + 1) emin q)
    (roundEven (q / 2 ^ quantum (p + 1) emin q))
  have hcast : (2 ^ p : ℚ) - 1 < |(roundEven (q / 2 ^ quantum (p + 1) emin q) : ℚ)| := by linarith
  have hint : (2 ^ p : ℤ) - 1 < |roundEven (q / 2 ^ quantum (p + 1) emin q)| := by
    exact_mod_cast hcast
  omega

/-- A significand of one digit too many is that of a power of two. -/
theorem representable_of_le (hprec : 0 < prec) {m e : ℤ} (hm : |m| ≤ 2 ^ prec) (he : emin ≤ e) :
    Representable prec emin (m * 2 ^ e) := by
  by_cases hlt : |m| < 2 ^ prec
  · exact ⟨m, e, hlt, he, rfl⟩
  · obtain ⟨p, rfl⟩ := Nat.exists_eq_succ_of_ne_zero hprec.ne'
    have heq : |m| = 2 ^ (p + 1) := le_antisymm hm (not_lt.mp hlt)
    have hdouble (n : ℤ) : ((2 * n : ℤ) : ℚ) * 2 ^ e = n * 2 ^ (e + 1) := by
      rw [zpow_add_one₀ (by norm_num)]
      push_cast
      ring
    have hpow : |(2 : ℤ) ^ p| < 2 ^ (p + 1) := by
      rw [abs_of_pos (by positivity), pow_succ]
      have : (0 : ℤ) < 2 ^ p := by positivity
      omega
    rcases (abs_eq (by positivity)).mp heq with rfl | rfl
    · refine ⟨2 ^ p, e + 1, hpow, by omega, ?_⟩
      rw [← hdouble, pow_succ, mul_comm (2 ^ p : ℤ)]
    · refine ⟨-2 ^ p, e + 1, by rwa [abs_neg], by omega, ?_⟩
      rw [← hdouble, pow_succ, mul_neg, mul_comm (2 ^ p : ℤ)]

theorem representable_round (hprec : 0 < prec) (q : ℚ) :
    Representable prec emin (round prec emin q) :=
  representable_of_le hprec (abs_roundEven_le q) (emin_le_quantum q)

/-- A power of two that bounds a number bounds what it is rounded to. -/
theorem abs_round_le {q : ℚ} {k : ℤ} (hk : emin + prec ≤ k) (hq : |q| < 2 ^ k) :
    |round prec emin q| ≤ 2 ^ k := by
  by_cases hzero : q = 0
  · have hround : roundEven 0 = 0 := by exact_mod_cast roundEven_intCast 0
    simp [round, hzero, hround, (two_zpow_pos k).le]
  have hexp : quantum prec emin q + prec ≤ k := by
    have hcast : |q| < ((2 : ℕ) : ℚ) ^ k := by exact_mod_cast hq
    have hlog := (Int.lt_zpow_iff_log_lt (by norm_num) (abs_pos.mpr hzero)).mp hcast
    unfold quantum
    omega
  have hpos := two_zpow_pos (quantum prec emin q)
  have hint : |roundEven (q / 2 ^ quantum prec emin q)| ≤ 2 ^ prec := abs_roundEven_le q
  have hsignificand : |(roundEven (q / 2 ^ quantum prec emin q) : ℚ)| ≤ 2 ^ prec := by
    exact_mod_cast hint
  calc |round prec emin q| = |(roundEven (q / 2 ^ quantum prec emin q) : ℚ)| * 2 ^ quantum prec emin q := by
        rw [round, abs_mul, abs_of_pos hpos]
    _ ≤ 2 ^ prec * 2 ^ quantum prec emin q := mul_le_mul_of_nonneg_right hsignificand hpos.le
    _ = 2 ^ (quantum prec emin q + prec) := by
        rw [add_comm, zpow_add₀ (by norm_num), zpow_natCast]
    _ ≤ 2 ^ k := zpow_le_zpow_right₀ (by norm_num) hexp

theorem round_of_representable {x : ℚ} (hx : Representable prec emin x) :
    round prec emin x = x := by
  obtain ⟨m, e, hm, he, rfl⟩ := hx
  by_cases hzero : m = 0
  · have hround : roundEven 0 = 0 := by exact_mod_cast roundEven_intCast 0
    simp [round, hzero, hround]
  have hle : quantum prec emin (m * 2 ^ e) ≤ e := by
    have hpos := two_zpow_pos e
    have hlt : |(m : ℚ) * 2 ^ e| < ((2 : ℕ) : ℚ) ^ (prec + e) := by
      rw [abs_mul, abs_of_pos hpos, zpow_add₀ (by norm_num), zpow_natCast]
      have hcast : |(m : ℚ)| < 2 ^ prec := by exact_mod_cast hm
      exact_mod_cast mul_lt_mul_of_pos_right hcast hpos
    have hne : 0 < |(m : ℚ) * 2 ^ e| := abs_pos.mpr (mul_ne_zero (by exact_mod_cast hzero) hpos.ne')
    have hlog := (Int.lt_zpow_iff_log_lt (by norm_num) hne).mp hlt
    unfold quantum
    omega
  obtain ⟨d, hd⟩ : ∃ d : ℕ, e = quantum prec emin (m * 2 ^ e) + d :=
    ⟨(e - quantum prec emin (m * 2 ^ e)).toNat, by omega⟩
  have heq : (m : ℚ) * 2 ^ e = ((m * 2 ^ d : ℤ) : ℚ) * 2 ^ quantum prec emin (m * 2 ^ e) := by
    conv_lhs => rw [hd]
    rw [zpow_add₀ (by norm_num), zpow_natCast]
    push_cast
    ring
  have hpos := two_zpow_pos (quantum prec emin (m * 2 ^ e))
  have hself : |(m : ℚ) * 2 ^ e - ((m * 2 ^ d : ℤ) : ℚ) * 2 ^ quantum prec emin (m * 2 ^ e)| <
      2 ^ quantum prec emin (m * 2 ^ e) / 2 := by
    rw [← heq, sub_self, abs_zero]
    exact half_pos hpos
  rw [round_eq hself, ← heq]

/-! ## Decimal places -/

/-- The number nearest to `x` that has `d` decimal places. -/
def places (d : ℕ) (x : ℚ) : ℚ := roundEven (x * 10 ^ d) / 10 ^ d

theorem abs_places_sub_le (d : ℕ) (x : ℚ) : |places d x - x| ≤ 1 / (2 * 10 ^ d) := by
  have hpos : (0 : ℚ) < 10 ^ d := by positivity
  have heq : places d x - x = -(x * 10 ^ d - roundEven (x * 10 ^ d)) / 10 ^ d := by
    rw [places]
    field_simp
    ring
  rw [heq, abs_div, abs_neg, abs_of_pos hpos, div_le_div_iff₀ hpos (by positivity)]
  have := abs_sub_roundEven_le (x * 10 ^ d)
  nlinarith

theorem places_intCast_div (d : ℕ) (n : ℤ) : places d (n / 10 ^ d) = n / 10 ^ d := by
  have hpos : (0 : ℚ) < 10 ^ d := by positivity
  rw [places, div_mul_cancel₀ _ hpos.ne', roundEven_intCast]

theorem places_eq_self_iff {d : ℕ} {x : ℚ} : places d x = x ↔ ∃ n : ℤ, x = n / 10 ^ d := by
  constructor
  · exact fun h => ⟨_, h.symm⟩
  · rintro ⟨n, rfl⟩
    exact places_intCast_div d n

theorem le_abs_places {d : ℕ} {x : ℚ} (h : places d x ≠ 0) : 1 / 10 ^ d ≤ |places d x| := by
  have hpos : (0 : ℚ) < 10 ^ d := by positivity
  have hne : roundEven (x * 10 ^ d) ≠ 0 := by
    intro hzero
    exact h (by rw [places, hzero, Int.cast_zero, zero_div])
  have hone : (1 : ℚ) ≤ |(roundEven (x * 10 ^ d) : ℚ)| := by exact_mod_cast Int.one_le_abs hne
  rw [places, abs_div, abs_of_pos hpos]
  exact div_le_div_of_nonneg_right hone hpos.le

/-- A number near enough to one with `d` places is printed as that one. -/
theorem places_eq_of_near {d : ℕ} {x : ℚ} {n : ℤ} (h : |x - n / 10 ^ d| < 1 / (2 * 10 ^ d)) :
    places d x = n / 10 ^ d := by
  have hpos : (0 : ℚ) < 10 ^ d := by positivity
  have hnear : |x * 10 ^ d - n| < 1 / 2 := by
    have heq : x * 10 ^ d - n = (x - n / 10 ^ d) * 10 ^ d := by field_simp
    rw [heq, abs_mul, abs_of_pos hpos]
    have hmul := mul_lt_mul_of_pos_right h hpos
    have hhalf : 1 / (2 * 10 ^ d) * 10 ^ d = (1 / 2 : ℚ) := by field_simp
    rwa [hhalf] at hmul
  rw [places, roundEven_eq hnear]

/-- A multiple of `2 ^ e` has `d` decimal places where `e` is at least `-d`. -/
theorem places_of_dyadic {d : ℕ} {m e : ℤ} (he : -d ≤ e) : places d (m * 2 ^ e) = m * 2 ^ e := by
  obtain ⟨j, hj⟩ : ∃ j : ℕ, e = j - d := ⟨(e + d).toNat, by omega⟩
  refine places_eq_self_iff.mpr ⟨m * 2 ^ j * 5 ^ d, ?_⟩
  have hten : (10 : ℚ) ^ d = 2 ^ d * 5 ^ d := by rw [← mul_pow]; norm_num
  rw [hj, zpow_sub₀ (by norm_num), zpow_natCast, zpow_natCast, hten]
  push_cast
  field_simp

/-- A power of two is no power of ten. -/
theorem zpow_two_ne {d : ℕ} (hd : 0 < d) (g : ℤ) : (2 : ℚ) ^ g ≠ 1 / 10 ^ d := by
  intro h
  have hone : (2 : ℚ) ^ g * 10 ^ d = 1 := by
    rw [h]
    field_simp
  have hfive {j : ℕ} (hj : (2 ^ j : ℕ) = 10 ^ d) : False := by
    have hdvd : 5 ∣ 2 ^ j := by
      rw [hj]
      exact dvd_pow (by norm_num) hd.ne'
    exact absurd (Nat.Prime.dvd_of_dvd_pow Nat.prime_five hdvd) (by norm_num)
  obtain ⟨j, rfl | rfl⟩ := Int.eq_nat_or_neg g
  · rw [zpow_natCast] at hone
    have hnat : (2 ^ j * 10 ^ d : ℕ) = 1 := by exact_mod_cast hone
    have htwo : 2 ≤ 10 ^ d := le_trans (by norm_num) (Nat.pow_le_pow_right (by norm_num) hd)
    have := Nat.eq_one_of_mul_eq_one_left hnat
    omega
  · rw [zpow_neg, zpow_natCast] at hone
    apply hfive (j := j)
    have hmul : (10 : ℚ) ^ d = 2 ^ j := by
      field_simp at hone
      linarith
    exact_mod_cast hmul.symm

/-- A power of two that is not too small has `d` decimal places. -/
theorem places_of_power {d p : ℕ} {m e : ℤ} (hm : |m| = 2 ^ p) (he : -d ≤ e + p) :
    places d (m * 2 ^ e) = m * 2 ^ e := by
  have hone (s : ℤ) : ((s * 2 ^ p : ℤ) : ℚ) * 2 ^ e = s * 2 ^ (e + p) := by
    rw [zpow_add₀ (by norm_num), zpow_natCast]
    push_cast
    ring
  rcases (abs_eq (by positivity)).mp hm with rfl | rfl
  · rw [← one_mul (2 ^ p : ℤ), hone]
    exact places_of_dyadic he
  · rw [← neg_one_mul (2 ^ p : ℤ), hone]
    exact places_of_dyadic he

/-- A number within half a quantum of one whose significand is no power of two. -/
theorem quantum_of_near {p : ℕ} {m g : ℤ} {z : ℚ} (hg : emin ≤ g) (hlo : 2 ^ p < |m|)
    (hhi : |m| < 2 ^ (p + 1))
    (hz : |z - m * 2 ^ g| ≤ 2 ^ g / 2) : quantum (p + 1) emin z = g := by
  have hpos := two_zpow_pos g
  have habs : |(m : ℚ) * 2 ^ g| = |(m : ℚ)| * 2 ^ g := by rw [abs_mul, abs_of_pos hpos]
  have hlo' : (2 ^ p + 1 : ℚ) * 2 ^ g ≤ |(m : ℚ) * 2 ^ g| := by
    rw [habs]
    exact mul_le_mul_of_nonneg_right (by exact_mod_cast hlo) hpos.le
  have hhi' : |(m : ℚ) * 2 ^ g| ≤ (2 ^ (p + 1) - 1 : ℚ) * 2 ^ g := by
    rw [habs]
    refine mul_le_mul_of_nonneg_right ?_ hpos.le
    have : |m| ≤ 2 ^ (p + 1) - 1 := by omega
    exact_mod_cast this
  have hz' := abs_le.mp ((abs_abs_sub_abs_le z (m * 2 ^ g)).trans hz)
  apply quantum_eq hg
  · have hexp : g + (p + 1 : ℕ) - 1 = p + g := by omega
    rw [hexp, zpow_add₀ (by norm_num), zpow_natCast]
    linarith
  · rw [add_comm, zpow_add₀ (by norm_num), zpow_natCast]
    linarith

/-- Where the quantum is coarser than the places, but no multiple of them, the printed number
rounds back to the number it was printed from. -/
theorem round_places_of_coarse {d : ℕ} (hd : 3 * d < prec) (hemin : emin ≤ -4 * d) {y : ℚ}
    (hy : y ≠ 0)
    (hcoarse : 1 / 10 ^ d < (2 : ℚ) ^ quantum prec emin y) :
    round prec emin (places d (round prec emin y)) = round prec emin y := by
  have hexp : -(4 * d : ℤ) < quantum prec emin y := by
    by_contra hle
    have hpow : (2 : ℚ) ^ quantum prec emin y ≤ 2 ^ (-(4 * d : ℕ) : ℤ) :=
      zpow_le_zpow_right₀ (by norm_num) (by push_cast; omega)
    have hsixteen : (2 : ℚ) ^ (-(4 * d : ℕ) : ℤ) ≤ 1 / 10 ^ d := by
      rw [zpow_neg, zpow_natCast, pow_mul, ← one_div]
      exact one_div_le_one_div_of_le (by positivity) (pow_le_pow_left₀ (by norm_num) (by norm_num) d)
    exact absurd hcoarse (not_lt.mpr (hpow.trans hsixteen))
  obtain ⟨p, rfl⟩ : ∃ p, prec = p + 1 := Nat.exists_eq_succ_of_ne_zero (by omega)
  have hlo := le_abs_roundEven hy (by omega : emin < quantum (p + 1) emin y)
  have hhi : |roundEven (y / 2 ^ quantum (p + 1) emin y)| ≤ 2 ^ (p + 1) := abs_roundEven_le y
  have hprint := abs_places_sub_le d (round (p + 1) emin y)
  have hround : round (p + 1) emin y =
      roundEven (y / 2 ^ quantum (p + 1) emin y) * 2 ^ quantum (p + 1) emin y := rfl
  rw [hround] at hprint ⊢
  generalize quantum (p + 1) emin y = g at *
  generalize roundEven (y / 2 ^ g) = m at *
  have hself : round (p + 1) emin (m * 2 ^ g) = m * 2 ^ g :=
    round_of_representable (representable_of_le (by omega) hhi (by omega))
  by_cases hlast : |m| = 2 ^ p
  · rw [places_of_power hlast (by omega), hself]
  by_cases hnext : |m| = 2 ^ (p + 1)
  · rw [places_of_power hnext (by omega), hself]
  have hhalf : 1 / (2 * 10 ^ d) = (1 / 10 ^ d / 2 : ℚ) := by field_simp
  have hquantum : quantum (p + 1) emin (places d (m * 2 ^ g)) = g :=
    quantum_of_near (by omega) (lt_of_le_of_ne hlo (Ne.symm hlast))
      (lt_of_le_of_ne hhi hnext) (by linarith)
  have hnear : |places d (m * 2 ^ g) - m * 2 ^ quantum (p + 1) emin (places d (m * 2 ^ g))| <
      2 ^ quantum (p + 1) emin (places d (m * 2 ^ g)) / 2 := by
    rw [hquantum]
    linarith
  rw [round_eq hnear, hquantum]

/-- The numbers that come back from `d` places are those nearest to one with `d` places. -/
theorem round_places_iff {d : ℕ} (hd : 3 * d < prec) (hemin : emin ≤ -4 * d) {x : ℚ}
    (hx : Representable prec emin x) :
    round prec emin (places d x) = x ↔ ∃ k : ℤ, x = round prec emin (k / 10 ^ d) := by
  constructor
  · exact fun h => ⟨_, h.symm⟩
  rintro ⟨k, hk⟩
  have herr : |x - k / 10 ^ d| ≤ 2 ^ quantum prec emin ((k : ℚ) / 10 ^ d) / 2 :=
    hk ▸ abs_round_sub_le _
  by_cases hnear : |x - k / 10 ^ d| < 1 / (2 * 10 ^ d)
  · rw [places_eq_of_near hnear, ← hk]
  have hfar : 1 / 10 ^ d ≤ (2 : ℚ) ^ quantum prec emin ((k : ℚ) / 10 ^ d) := by
    have hhalf : 1 / (2 * 10 ^ d) = (1 / 10 ^ d / 2 : ℚ) := by field_simp
    linarith
  by_cases hfine : -d ≤ quantum prec emin ((k : ℚ) / 10 ^ d)
  · -- a multiple of the quantum has `d` places itself
    have hplaces : places d x = x := by
      rw [hk, round]
      exact places_of_dyadic hfine
    rw [hplaces, round_of_representable hx]
  · have hd0 : 0 < d := by
      rcases Nat.eq_zero_or_pos d with rfl | hpos
      · have : (2 : ℚ) ^ quantum prec emin ((k : ℚ) / 10 ^ 0) < 1 :=
          zpow_lt_one_of_neg₀ (by norm_num) (by simpa using hfine)
        norm_num at hfar this
        linarith
      · exact hpos
    have hk0 : (k : ℚ) / 10 ^ d ≠ 0 := by
      intro hzero
      have hround : round prec emin 0 = 0 :=
        round_of_representable ⟨0, emin, by simp, le_rfl, by simp⟩
      rw [hk, hzero, hround] at hnear
      exact hnear (by simp)
    rw [hk]
    exact round_places_of_coarse hd hemin hk0 (lt_of_le_of_ne hfar (zpow_two_ne hd0 _).symm)

end Library.Rounding
