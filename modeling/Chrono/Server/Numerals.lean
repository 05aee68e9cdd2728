import Chrono.Server.Requests
import Chrono.Server.Streaming

/-!
# Numerals in headers

The parser accumulates the digits of a header in an `int`. A length is read as what is
left of it after wrapping, and an integer is read back as long as an `int` holds it.
-/
namespace Chrono
open RespParser RespSerializer Library

def FitsInt (x : ℤ) : Prop := -2 ^ 31 ≤ x ∧ x < 2 ^ 31

theorem toInt32_bounds (x : ℤ) : -2 ^ 31 ≤ toInt32 x ∧ toInt32 x < 2 ^ 31 := by
  have hlo : -((2 ^ 32 : ℕ) / 2 : ℤ) ≤ Int.bmod x (2 ^ 32) := Int.le_bmod (by decide)
  have hhi : Int.bmod x (2 ^ 32) < ((2 ^ 32 : ℕ) + 1) / 2 := Int.bmod_lt (by decide)
  exact ⟨hlo, hhi⟩

theorem toInt32_eq_self_iff {x : ℤ} : toInt32 x = x ↔ FitsInt x := by
  constructor
  · intro h
    exact h ▸ toInt32_bounds x
  · exact fun h => toInt32_eq_self h.1 h.2

/-! ## Lengths -/

/-- What the header `typeByte`, `t` and a terminator is to mean when its digits denote `L`: in
front of `r`, a string is the `L` bytes before a terminator, an array has `L` elements and
null is -1; and if no `int` holds `L`, whatever follows, the header is an error. -/
structure LengthExact (typeByte : UInt8) (t : Bytes) (L : ℤ) (r : Bytes) : Prop where
  string : ∀ v, parse (typeByte :: (t ++ crlf ++ r)) = .ok (some v) → v.type = .bulkString →
    v.isNull = false →
    (v.strValue.length : ℤ) = L ∧ ∃ rest, r = v.strValue ++ crlf ++ rest
  array : ∀ v, parse (typeByte :: (t ++ crlf ++ r)) = .ok (some v) → v.type = .array →
    v.isNull = false →
    (v.array.length : ℤ) = L
  null : ∀ v, parse (typeByte :: (t ++ crlf ++ r)) = .ok (some v) → v.isNull = true → L = -1
  rejected : ¬ FitsInt L →
    ∃ msg, ∀ s, parse (typeByte :: (t ++ crlf ++ s)) = .ok (some (.error msg none))

/-- The part after the header decides. -/
theorem parse_header {typeByte : UInt8} (hb : isTypeByte typeByte = true) {t : Bytes}
    (ht : (0x0D : UInt8) ∉ t) (r : Bytes) :
    parse (typeByte :: (t ++ crlf ++ r)) = .ok (afterHeader typeByte (typeByte :: t) r) := by
  have hcr : typeByte ≠ 0x0D := by
    rintro rfl
    simp [isTypeByte] at hb
  have htake : (typeByte :: (t ++ crlf ++ r)).take (t.length + 1) = typeByte :: t := by
    rw [List.take_succ_cons, ← Nat.add_sub_cancel t.length 1, take_header]
  rw [parse_eq_read, read_cons hb, findCrlf_header ht hcr, Option.bind_some, htake, drop_header]

/-- The loop of `parse_array` ends with an error, or with as many elements as were asked for. -/
theorem readElements_cases {n offset : ℕ} {elements : List RespValue} {rest : Bytes} {v : RespValue}
    (h : readElements n offset elements rest = some v) :
    v.type = .error ∧ v.isNull = false ∨
      v.type = .array ∧ v.isNull = false ∧ v.array.length = elements.length + n := by
  induction n generalizing offset elements rest with
  | zero =>
    obtain rfl := Option.some.inj h
    exact .inr ⟨rfl, rfl, rfl⟩
  | succ n ih =>
    obtain ⟨w, -, hw⟩ := Option.bind_eq_some_iff.mp h
    cases hcount : w.numRespBytes with
    | none =>
      simp only [hcount, Option.some.injEq] at hw
      subst hw
      exact .inl ⟨rfl, rfl⟩
    | some count =>
      simp only [hcount] at hw
      rcases ih hw with herror | ⟨harray, hnull, hlen⟩
      · exact .inl herror
      · refine .inr ⟨harray, hnull, ?_⟩
        rw [hlen, List.length_append, List.length_singleton]
        omega

/-- What a header whose number is read as `n` makes of the bytes `r` after it. -/
inductive ReadAs (n : ℤ) (r : Bytes) (v : RespValue) : Prop where
  | null (hn : n = -1) (hnull : v.isNull = true)
  | error (htype : v.type = .error) (hnull : v.isNull = false)
  | string (htype : v.type = .bulkString) (hnull : v.isNull = false) (hlen : (v.strValue.length : ℤ) = n)
    (hrest : ∃ s, r = v.strValue ++ crlf ++ s)
  | array (htype : v.type = .array) (hnull : v.isNull = false) (hlen : (v.array.length : ℤ) = n)

theorem afterBulk_cases {h r : Bytes} {n : ℤ} (hn : parseStringAsInt h.tail = some n) {v : RespValue}
    (hv : afterBulk h r = some v) : ReadAs n r v := by
  rw [afterBulk, hn] at hv
  dsimp only at hv
  split_ifs at hv with hnull hneg hshort
  · exact .null hnull (Option.some.inj hv ▸ rfl)
  · exact .error (Option.some.inj hv ▸ rfl) (Option.some.inj hv ▸ rfl)
  · rw [bulkValue, Option.some.injEq] at hv
    split_ifs at hv with hend
    · have htake : (r.take (n.toNat + 2)).take n.toNat = r.take n.toNat := by
        rw [List.take_take, Nat.min_eq_left (by omega)]
      rw [htake] at hv
      refine .string (hv ▸ rfl) (hv ▸ rfl) ?_ ?_
      · rw [← hv]
        change ((r.take n.toNat).length : ℤ) = n
        rw [List.length_take]
        omega
      · rw [← hv]
        change ∃ s, r = r.take n.toNat ++ crlf ++ s
        refine ⟨r.drop (n.toNat + 2), ?_⟩
        rw [← hend, List.drop_take, Nat.add_sub_cancel_left, ← List.drop_drop, List.append_assoc,
          List.take_append_drop, List.take_append_drop]
    · exact .error (hv ▸ rfl) (hv ▸ rfl)

theorem afterArray_cases {h r : Bytes} {n : ℤ} (hn : parseStringAsInt h.tail = some n) {v : RespValue}
    (hv : afterArray h r = some v) : ReadAs n r v := by
  rw [afterArray, hn] at hv
  dsimp only at hv
  split_ifs at hv with hnull hneg
  · exact .null hnull (Option.some.inj hv ▸ rfl)
  · exact .error (Option.some.inj hv ▸ rfl) (Option.some.inj hv ▸ rfl)
  · rcases readElements_cases hv with ⟨herror, hfalse⟩ | ⟨harray, hfalse, hlen⟩
    · exact .error herror hfalse
    · refine .array harray hfalse ?_
      rw [hlen, List.length_nil]
      omega

section
variable {t : Bytes} {L : ℤ} (hL : Denotes t L) (r : Bytes)
include hL

theorem parse_bulk_header : parse (0x24 :: (t ++ crlf ++ r)) = .ok (afterBulk (0x24 :: t) r) :=
  parse_header rfl hL.cr_not_mem r

theorem parse_array_header : parse (0x2A :: (t ++ crlf ++ r)) = .ok (afterArray (0x2A :: t) r) :=
  parse_header rfl hL.cr_not_mem r

/-- A number that is negative and not -1, after wrapping, is refused at once. -/
theorem rejected_of_negative {typeByte : UInt8} (htype : typeByte = 0x24 ∨ typeByte = 0x2A)
    (hneg : toInt32 L < -1) :
    ∃ msg, ∀ s, parse (typeByte :: (t ++ crlf ++ s)) = .ok (some (.error msg none)) := by
  have hne : ¬ toInt32 L = -1 := by omega
  have hlt : toInt32 L < 0 := by omega
  rcases htype with rfl | rfl
  · refine ⟨lit "ERR invalid bulk string format", fun s => ?_⟩
    rw [parse_bulk_header hL, afterBulk, List.tail_cons, hL.parseStringAsInt]
    dsimp only
    rw [if_neg hne, if_pos hlt]
  · refine ⟨lit "ERR invalid array format", fun s => ?_⟩
    rw [parse_array_header hL, afterArray, List.tail_cons, hL.parseStringAsInt]
    dsimp only
    rw [if_neg hne, if_pos hlt]

/-- Any other number is no error yet when the header ends the input. -/
theorem not_rejected {typeByte : UInt8} (htype : typeByte = 0x24 ∨ typeByte = 0x2A)
    (hle : -1 ≤ toInt32 L) (msg : Bytes) :
    parse (typeByte :: (t ++ crlf ++ [])) ≠ .ok (some (.error msg none)) := by
  rcases htype with rfl | rfl
  · rw [parse_bulk_header hL, afterBulk, List.tail_cons, hL.parseStringAsInt]
    dsimp only
    split_ifs with hnull hneg hshort
    · simp [RespValue.nullBulk, RespValue.error]
    · omega
    · simp
    · simp at hshort
  · rw [parse_array_header hL, afterArray, List.tail_cons, hL.parseStringAsInt]
    dsimp only
    split_ifs with hnull hneg
    · simp [RespValue.nullArray, RespValue.error]
    · omega
    · cases (toInt32 L).toNat with
      | zero => simp [readElements, RespValue.arrayFromParts, RespValue.error]
      | succ n => simp [readElements, read_nil]

theorem readAs_of_fits {typeByte : UInt8} (htype : typeByte = 0x24 ∨ typeByte = 0x2A)
    (hfits : FitsInt L) {v : RespValue} (hv : parse (typeByte :: (t ++ crlf ++ r)) = .ok (some v)) :
    ReadAs L r v := by
  have hself := hL.parseStringAsInt
  rw [toInt32_eq_self_iff.mpr hfits] at hself
  rcases htype with rfl | rfl
  · exact afterBulk_cases (h := 0x24 :: t) hself
      (Except.ok.inj ((parse_bulk_header hL r).symm.trans hv))
  · exact afterArray_cases (h := 0x2A :: t) hself
      (Except.ok.inj ((parse_array_header hL r).symm.trans hv))

theorem lengthExact_of_fits {typeByte : UInt8} (htype : typeByte = 0x24 ∨ typeByte = 0x2A)
    (hfits : FitsInt L) :
    LengthExact typeByte t L r := by
  refine ⟨?_, ?_, ?_, fun hnot => absurd hfits hnot⟩
  · intro v hv hstring hnonnull
    cases readAs_of_fits hL r htype hfits hv with
    | null _ hnull => simp [hnull] at hnonnull
    | error herror => simp [herror] at hstring
    | string _ _ hlen hrest => exact ⟨hlen, hrest⟩
    | array harray => simp [harray] at hstring
  · intro v hv harray hnonnull
    cases readAs_of_fits hL r htype hfits hv with
    | null _ hnull => simp [hnull] at hnonnull
    | error herror => simp [herror] at harray
    | string hstring => simp [hstring] at harray
    | array _ _ hlen => exact hlen
  · intro v hv hnull
    cases readAs_of_fits hL r htype hfits hv with
    | null hminus => exact hminus
    | error _ hfalse => simp [hfalse] at hnull
    | string _ hfalse => simp [hfalse] at hnull
    | array _ hfalse => simp [hfalse] at hnull

theorem lengthExact_of_negative {typeByte : UInt8} (htype : typeByte = 0x24 ∨ typeByte = 0x2A)
    (hneg : toInt32 L < -1) :
    LengthExact typeByte t L r := by
  obtain ⟨msg, hmsg⟩ := rejected_of_negative hL htype hneg
  have herror (v : RespValue) (hv : parse (typeByte :: (t ++ crlf ++ r)) = .ok (some v)) :
      v = .error msg none := by
    rw [hmsg r] at hv
    exact (Option.some.inj (Except.ok.inj hv)).symm
  refine ⟨?_, ?_, ?_, fun _ => ⟨msg, hmsg⟩⟩
  · intro v hv htype
    simp [herror v hv, RespValue.error, RespValue.type] at htype
  · intro v hv htype
    simp [herror v hv, RespValue.error, RespValue.type] at htype
  · intro v hv hnull
    simp [herror v hv, RespValue.error, RespValue.isNull] at hnull

end

theorem toInt32_lt_iff (L : ℤ) : toInt32 L < -1 ↔ 2 ^ 31 ≤ L % 2 ^ 32 ∧ L % 2 ^ 32 < 2 ^ 32 - 1 := by
  have hmod : 0 ≤ L % 2 ^ 32 ∧ L % 2 ^ 32 < 2 ^ 32 :=
    ⟨Int.emod_nonneg L (by decide), Int.emod_lt_of_pos L (by decide)⟩
  change (if L % 2 ^ 32 < (2 ^ 32 + 1) / 2 then L % 2 ^ 32 else L % 2 ^ 32 - 2 ^ 32) < -1 ↔ _
  split_ifs <;> omega

/-- A header means what its digits denote exactly when an `int` holds the number, or when the
number is left negative and not -1 by wrapping. -/
theorem lengthExact_iff {typeByte : UInt8} (htype : typeByte = 0x24 ∨ typeByte = 0x2A) {t : Bytes}
    {L : ℤ} (hL : Denotes t L) (r : Bytes) :
    LengthExact typeByte t L r ↔ -2 ^ 31 ≤ L ∧ L < 2 ^ 31 ∨ 2 ^ 31 ≤ L % 2 ^ 32 ∧
    L % 2 ^ 32 < 2 ^ 32 - 1 := by
  rw [← toInt32_lt_iff]
  constructor
  · intro h
    by_cases hfits : FitsInt L
    · exact .inl hfits
    · obtain ⟨msg, hmsg⟩ := h.rejected hfits
      right
      by_contra hle
      exact not_rejected hL htype (by omega) msg (hmsg [])
  · rintro (hfits | hneg)
    · exact lengthExact_of_fits hL r htype hfits
    · exact lengthExact_of_negative hL r htype hneg

theorem denotes_digits (n : ℕ) : Denotes (Decimal.digits n) n := by
  have h := Denotes.digits (Decimal.digits_ne_nil n) (fun b hb => Decimal.isDigit_of_mem_digits hb)
  rwa [Decimal.value_digits] at h

/-- A bulk string, and a header that is beyond an `int`. -/
theorem lengthExact_witness :
    LengthExact 0x24 (lit "3") 3 (lit "abc\r\n") ∧
    LengthExact 0x2A (lit "2147483648") 2147483648 [] := by
  constructor
  · exact (lengthExact_iff (.inl rfl) (denotes_digits 3) _).mpr (.inl (by decide))
  · exact (lengthExact_iff (.inr rfl) (denotes_digits 2147483648) _).mpr (.inr (by decide))

/-- A length of 2³² + 1 is read as 1. -/
theorem lengthExact_counterexample :
    Denotes (lit "4294967297") 4294967297 ∧
    ¬ LengthExact 0x24 (lit "4294967297") 4294967297 (lit "X\r\n") := by
  have hL : Denotes (lit "4294967297") 4294967297 := denotes_digits 4294967297
  refine ⟨hL, fun h => ?_⟩
  have hread : parse (0x24 :: (lit "4294967297" ++ crlf ++ lit "X\r\n")) =
      .ok (some (.bulkString (lit "X") 16)) :=
    (encodes_bulk (s := lit "X") hL.cr_not_mem rfl).parse_append []
  have hlen := (h.string _ hread rfl rfl).1
  exact absurd hlen (by decide)

/-! ## Integers -/

/-- No step of the loop of `parse_string_as_int` leaves the range of an `int`. -/
def DigitsFit : Bytes → ℤ → Prop
  | [], _ => True
  | c :: sv, value =>
    if c < 0x30 ∨ 0x39 < c then True
    else FitsInt (value * 10) ∧ FitsInt (value * 10 + (c.toNat - 0x30)) ∧
      DigitsFit sv (value * 10 + (c.toNat - 0x30))

/-- No step of `parse_string_as_int` leaves the range of an `int`, the negation included. -/
def ConversionFits (sv : Bytes) : Prop :=
  match sv with
  | [] => True
  | sign :: digits =>
    if sign = 0x2D then
      DigitsFit digits 0 ∧ ∀ value, parseDigits digits 0 = some value → FitsInt (-value)
    else if sign = 0x2B then DigitsFit digits 0
    else DigitsFit sv 0

/-- The number only grows, so that its last value decides. -/
theorem digitsFit_iff {s : Bytes} (h : ∀ b ∈ s, Decimal.IsDigit b) {m : ℕ} (hm : m < 2 ^ 31) :
    DigitsFit s m ↔ Decimal.value m s < 2 ^ 31 := by
  induction s generalizing m with
  | nil => simp only [DigitsFit, Decimal.value_nil, hm]
  | cons c s ih =>
    have hc := h c (by simp)
    have hdigit : ¬ (c < 0x30 ∨ 0x39 < c) :=
      not_or.mpr ⟨UInt8.not_lt.mpr hc.1, UInt8.not_lt.mpr hc.2⟩
    have hbounds := hc.bounds
    have hle := Decimal.le_value (m * 10 + (c.toNat - 0x30)) s
    have hcast : (m : ℤ) * 10 + ((c.toNat : ℤ) - 0x30) = ((m * 10 + (c.toNat - 0x30) : ℕ) : ℤ) := by
      omega
    rw [DigitsFit, if_neg hdigit, Decimal.value_cons, hcast]
    by_cases hnext : m * 10 + (c.toNat - 0x30) < 2 ^ 31
    · rw [ih (fun b hb => h b (by simp [hb])) hnext]
      have hfits : FitsInt (m * 10) ∧ FitsInt ((m * 10 + (c.toNat - 0x30) : ℕ) : ℤ) := by
        unfold FitsInt
        omega
      simp only [hfits, true_and]
    · constructor
      · rintro ⟨-, hfits, -⟩
        exact absurd (Int.ofNat_lt.mp hfits.2) hnext
      · intro hlt
        omega

theorem digitsFit_digits (m : ℕ) : DigitsFit (Decimal.digits m) 0 ↔ m < 2 ^ 31 := by
  have h :=
    digitsFit_iff (s := Decimal.digits m)
      (fun b hb => Decimal.isDigit_of_mem_digits hb) (m := 0) (by decide)
  rwa [Decimal.value_digits] at h

/-- The least `int` is accumulated before it is negated, and does not fit. -/
theorem conversionFits_decimal (n : ℤ) : ConversionFits (decimal n) ↔ -2 ^ 31 < n ∧ n < 2 ^ 31 := by
  have hnat (m : ℕ) : ConversionFits (decimal m) ↔ m < 2 ^ 31 := by
    rw [decimal_nat]
    cases hd : Decimal.digits m with
    | nil => exact absurd hd (Decimal.digits_ne_nil m)
    | cons b s =>
      obtain ⟨hminus, hplus, -⟩ :=
        not_sign (Decimal.isDigit_of_mem_digits (n := m) (b := b) (by simp [hd]))
      simp only [ConversionFits, hminus, hplus, if_false]
      rw [← hd, digitsFit_digits]
  rcases Int.eq_nat_or_neg n with ⟨m, rfl | rfl⟩
  · rw [hnat]
    omega
  · rcases Nat.eq_zero_or_pos m with rfl | hm
    · rw [show -((0 : ℕ) : ℤ) = (0 : ℕ) from rfl, hnat]
      omega
    · rw [decimal_neg hm, ConversionFits, if_pos rfl, digitsFit_digits, parseDigits_digits]
      constructor
      · rintro ⟨hlt, -⟩
        omega
      · intro hlt
        refine ⟨by omega, ?_⟩
        intro value hvalue
        rw [← Option.some.inj hvalue, toInt32_eq_self (by omega) (by omega)]
        unfold FitsInt
        omega

/-- What is written for `n` is read as `n` to its last byte, and no step of the conversion
overflows. -/
structure IntegerExact (n : ℤ) : Prop where
  read : ∃ v, parse (RespSerializer.integer n) = .ok (some v) ∧ v.type = .integer ∧ v.intValue = n ∧
    v.numRespBytes = some (RespSerializer.integer n).length
  fits : ConversionFits (decimal n)

theorem parse_integer (n : ℤ) : parse (RespSerializer.integer n) =
    .ok (some (.integer (toInt32 n) (RespSerializer.integer n).length)) := by
  have h := (encodes_integer n).parse_append []
  rwa [List.append_nil] at h

/-- An integer round trip is exact strictly between the bounds of an `int`. -/
theorem integerExact_iff (n : ℤ) : IntegerExact n ↔ -2 ^ 31 < n ∧ n < 2 ^ 31 := by
  constructor
  · exact fun h => (conversionFits_decimal n).mp h.fits
  · intro h
    refine ⟨⟨_, parse_integer n, rfl, ?_, rfl⟩, (conversionFits_decimal n).mpr h⟩
    exact toInt32_eq_self (by omega) h.2

/-- 2³¹ is read back as -2³¹. -/
theorem integerExact_counterexample :
    parse (RespSerializer.integer 2147483648) = .ok (some (.integer (-2147483648) 13)) ∧
    ¬ IntegerExact 2147483648 := by
  refine ⟨parse_integer 2147483648, fun h => ?_⟩
  obtain ⟨v, hv, -, hn, -⟩ := h.read
  rw [parse_integer] at hv
  obtain rfl := Option.some.inj (Except.ok.inj hv)
  exact absurd hn (by decide)

end Chrono
