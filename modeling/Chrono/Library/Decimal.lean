import Mathlib.Algebra.Group.Nat.Defs
import Mathlib.Data.List.Basic
import Mathlib.Tactic.Common

/-!
# Decimal numerals in ASCII

The digits of a natural number as bytes, and the number that a string of digits
denotes.
-/
namespace Library.Decimal

def IsDigit (b : UInt8) : Prop := 0x30 ≤ b ∧ b ≤ 0x39

def digits (n : ℕ) : List UInt8 := (Nat.toDigits 10 n).map (fun c => c.toNat.toUInt8)

/-- The number denoted by the digits `s` after a prefix that denotes `n`. -/
def value (n : ℕ) (s : List UInt8) : ℕ := s.foldl (fun n b => n * 10 + (b.toNat - 0x30)) n

@[simp] theorem value_nil (n : ℕ) : value n [] = n := List.foldl_nil

theorem value_cons (n : ℕ) (b : UInt8) (s : List UInt8) :
    value n (b :: s) = value (n * 10 + (b.toNat - 0x30)) s := by
  unfold value
  rw [List.foldl_cons]

theorem le_value (n : ℕ) (s : List UInt8) : n ≤ value n s := by
  induction s generalizing n with
  | nil => exact Nat.le_refl n
  | cons b s ih =>
    rw [value_cons]
    have := ih (n * 10 + (b.toNat - 0x30))
    omega

theorem IsDigit.bounds {b : UInt8} (h : IsDigit b) : 0x30 ≤ b.toNat ∧ b.toNat ≤ 0x39 :=
  ⟨UInt8.le_iff_toNat_le.mp h.1, UInt8.le_iff_toNat_le.mp h.2⟩

theorem char_bounds {c : Char} (h : c.isDigit = true) : 0x30 ≤ c.toNat ∧ c.toNat ≤ 0x39 :=
  Char.isDigit_iff_toNat.mp h

theorem toNat_byte {c : Char} (h : c.isDigit = true) : c.toNat.toUInt8.toNat = c.toNat := by
  have := char_bounds h
  simp [Nat.toUInt8]
  omega

theorem isDigit_byte {c : Char} (h : c.isDigit = true) : IsDigit c.toNat.toUInt8 := by
  have := char_bounds h
  exact ⟨UInt8.le_iff_toNat_le.mpr (by rw [toNat_byte h]; exact this.1),
    UInt8.le_iff_toNat_le.mpr (by rw [toNat_byte h]; exact this.2)⟩

theorem isDigit_of_mem_digits {n : ℕ} {b : UInt8} (h : b ∈ digits n) : IsDigit b := by
  obtain ⟨c, hc, rfl⟩ := List.mem_map.mp h
  exact isDigit_byte (Nat.isDigit_of_mem_toDigits (by decide) (by decide) hc)

theorem digits_ne_nil (n : ℕ) : digits n ≠ [] := by simp [digits, Nat.toDigits_ne_nil]

theorem value_bytes {cs : List Char} (h : ∀ c ∈ cs, c.isDigit = true) (n : ℕ) :
    value n (cs.map (fun c => c.toNat.toUInt8)) = Nat.ofDigitChars 10 cs n := by
  induction cs generalizing n with
  | nil => rfl
  | cons c cs ih =>
    rw [List.map_cons, value_cons, toNat_byte (h c (by simp)), Nat.ofDigitChars_cons,
      ih (fun d hd => h d (by simp [hd])), Nat.mul_comm, show '0'.toNat = 0x30 from rfl]

@[simp] theorem value_digits (n : ℕ) : value 0 (digits n) = n := by
  have hd : ∀ c ∈ Nat.toDigits 10 n, c.isDigit = true :=
    fun c hc => Nat.isDigit_of_mem_toDigits (by decide) (by decide) hc
  rw [digits, value_bytes hd, Nat.ofDigitChars_ten_toDigits]

/-! ## A fixed number of digits -/

def padded : ℕ → ℕ → List UInt8
  | 0, _ => []
  | d + 1, n => padded d (n / 10) ++ [(0x30 + n % 10).toUInt8]

theorem value_append (n : ℕ) (s t : List UInt8) : value n (s ++ t) = value (value n s) t :=
  List.foldl_append

theorem toNat_lastDigit (n : ℕ) : (0x30 + n % 10).toUInt8.toNat = 0x30 + n % 10 := by
  simp [Nat.toUInt8]
  omega

@[simp] theorem length_padded (d n : ℕ) : (padded d n).length = d := by
  induction d generalizing n with
  | zero => rfl
  | succ d ih => rw [padded, List.length_append, ih, List.length_singleton]

theorem isDigit_of_mem_padded {d n : ℕ} {b : UInt8} (h : b ∈ padded d n) : IsDigit b := by
  induction d generalizing n with
  | zero => exact absurd h List.not_mem_nil
  | succ d ih =>
    rcases List.mem_append.mp h with h | h
    · exact ih h
    · obtain rfl := List.mem_singleton.mp h
      have hlast := toNat_lastDigit n
      exact ⟨UInt8.le_iff_toNat_le.mpr (by rw [hlast]; exact Nat.le_add_right _ _),
        UInt8.le_iff_toNat_le.mpr (by rw [hlast]; change _ ≤ 57; omega)⟩

theorem value_padded (v d n : ℕ) : value v (padded d n) = v * 10 ^ d + n % 10 ^ d := by
  induction d generalizing n with
  | zero => simp [padded, Nat.mod_one]
  | succ d ih =>
    rw [padded, value_append, ih, value_cons, value_nil, toNat_lastDigit]
    have hmod : n % 10 ^ (d + 1) = n % 10 + 10 * (n / 10 % 10 ^ d) := by
      rw [Nat.pow_succ', Nat.mod_mul]
    rw [hmod, Nat.pow_succ]
    have : v * (10 ^ d * 10) = v * 10 ^ d * 10 := by rw [Nat.mul_assoc]
    omega

end Library.Decimal
