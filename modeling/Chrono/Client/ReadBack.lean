import Chrono.Cache.Logger
import Chrono.Client.Resp
import Chrono.Server.RoundTrip

/-!
# Which replies the client reads back

The server counts the bytes of a reply, the client counts its characters. The two
agree on ASCII only.
-/
namespace Chrono.Client
open Library

/-! ## UTF-8 -/

theorem encode_append (s t : Text) : encode (s ++ t) = encode s ++ encode t := List.flatMap_append

theorem encode_cons (c : Char) (s : Text) : encode (c :: s) = String.utf8EncodeChar c ++ encode s :=
  List.flatMap_cons

theorem decode_encode (s : Text) : decode (encode s) = some s := by
  have h : (encode s).toByteArray = s.utf8Encode := rfl
  rw [decode, h, List.utf8Decode?_utf8Encode]
  rfl

theorem validUtf8_encode (s : Text) : validUtf8 (encode s) = true := by
  induction s with
  | nil => rfl
  | cons c s ih => rw [encode_cons, validUtf8_utf8EncodeChar, ih]

/-- A character takes one byte or more. -/
theorem length_encode (s : Text) :
    s.length ≤ (encode s).length ∧ ((encode s).length = s.length ↔ Ascii s) := by
  induction s with
  | nil => exact ⟨Nat.le_refl _, iff_of_true rfl (by simp [Ascii])⟩
  | cons c s ih =>
    have hpos := c.utf8Size_pos
    have hone : c.utf8Size = 1 ↔ c.toNat < 0x80 := by
      rw [Char.utf8Size_eq_one_iff, UInt32.le_iff_toNat_le]
      exact Nat.lt_succ_iff.symm
    have hascii : Ascii (c :: s) ↔ c.toNat < 0x80 ∧ Ascii s := by simp [Ascii]
    rw [encode_cons, List.length_append, String.length_utf8EncodeChar, List.length_cons, hascii,
      ← hone, ← ih.2]
    omega

/-! ## Numerals -/

/-- `str(n)`, and the characters of `std::to_string`. -/
def numeral (n : ℤ) : Text := (toString n).toList

theorem numeral_nat (n : ℕ) : numeral n = Nat.toDigits 10 n := by
  simp [numeral, Int.repr_eq_if, Nat.toList_repr]

theorem numeral_neg {n : ℕ} (h : 0 < n) : numeral (-n) = '-' :: Nat.toDigits 10 n := by
  have hrepr : Int.repr (-n) = "-" ++ n.repr := by
    rw [Int.repr_eq_if, if_neg (by omega)]
    simp
  simp [numeral, hrepr, Nat.toList_repr]

/-- What holds of digits and of the sign holds of the characters of a numeral. -/
theorem forall_mem_numeral {P : Char → Prop} (hdigit : ∀ c : Char, c.isDigit = true → P c)
    (hsign : P '-') (n : ℤ) : ∀ c ∈ numeral n, P c := by
  have hdigits (m : ℕ) : ∀ c ∈ Nat.toDigits 10 m, P c :=
    fun c hc => hdigit c (Nat.isDigit_of_mem_toDigits (by decide) (by decide) hc)
  rcases Int.eq_nat_or_neg n with ⟨m, rfl | rfl⟩
  · rw [numeral_nat]
    exact hdigits m
  · rcases Nat.eq_zero_or_pos m with rfl | hm
    · exact hdigits 0
    · rw [numeral_neg hm]
      intro c hc
      rcases List.mem_cons.mp hc with rfl | hc
      · exact hsign
      · exact hdigits m c hc

theorem ascii_numeral (n : ℤ) : Ascii (numeral n) := by
  apply forall_mem_numeral
  · intro c hc
    have := (Char.isDigit_iff_toNat.mp hc).2
    change c.toNat < 0x80
    exact Nat.lt_of_le_of_lt this (by decide)
  · decide

theorem cr_not_mem_numeral (n : ℤ) : '\r' ∉ numeral n := by
  intro h
  have hne : ∀ c ∈ numeral n, c ≠ '\r' := by
    apply forall_mem_numeral
    · rintro c hc rfl
      exact absurd hc (by decide)
    · decide
  exact hne _ h rfl

theorem encode_numeral (n : ℤ) : encode (numeral n) = RespSerializer.decimal n :=
  encode_ascii (ascii_numeral n)

/-! `int` reads numerals back. -/

theorem digit_of_isDigit {c : Char} (h : c.isDigit = true) : digit c = some (c.toNat - 0x30) := by
  obtain ⟨hlo, hhi⟩ := Char.isDigit_iff_toNat.mp h
  rw [digit, decimalZeros, List.find?_cons_of_pos]
  · rfl
  · simpa using ⟨hlo, hhi⟩

theorem intDigits_of_isDigit {ds : Text} (hne : ds ≠ []) (h : ∀ c ∈ ds, c.isDigit = true) :
    intDigits ds = some (ds.map (fun c => c.toNat - 0x30)) := by
  induction ds with
  | nil => exact absurd rfl hne
  | cons c ds ih =>
    have hc := digit_of_isDigit (h c (by simp))
    cases ds with
    | nil => simp [intDigits, hc]
    | cons d ds =>
      have hd : d ≠ '_' := by
        rintro rfl
        exact absurd (h '_' (by simp)) (by decide)
      have hstep : intDigits (c :: d :: ds) = (intDigits (d :: ds)).map ((c.toNat - 0x30) :: ·) := by
        rw [intDigits.eq_def]
        dsimp only
        rw [hc]
        split
        · next heq => cases heq
        · next heq => cases heq
        · next heq =>
          obtain ⟨rfl, -⟩ := List.cons.inj heq
          exact absurd rfl hd
        · next hx heq =>
          obtain ⟨rfl, rfl⟩ := List.cons.inj heq
          rw [Option.some.inj hx]
      rw [hstep, ih (by simp) (fun x hx => h x (by simp [hx]))]
      rfl

/-- The characters of digits and signs are not stripped. -/
theorem strip_eq {s : Text} (h : ∀ c ∈ s, isSpace c = false) :
    ((s.dropWhile isSpace).reverse.dropWhile isSpace).reverse = s := by
  have hkeep (t : Text) (ht : ∀ c ∈ t, isSpace c = false) : t.dropWhile isSpace = t := by
    cases t with
    | nil => rfl
    | cons c t => rw [List.dropWhile_cons_of_neg (by simp [ht c (by simp)])]
  rw [hkeep s h, hkeep s.reverse (fun c hc => h c (List.mem_reverse.mp hc)), List.reverse_reverse]

theorem isSpace_numeral (n : ℤ) : ∀ c ∈ numeral n, isSpace c = false := by
  apply forall_mem_numeral
  · intro c hc
    obtain ⟨hlo, hhi⟩ : 0x30 ≤ c.toNat ∧ c.toNat ≤ 0x39 := Char.isDigit_iff_toNat.mp hc
    simp [isSpace]
    omega
  · decide

theorem magnitude_toDigits (m : ℕ) :
    ((Nat.toDigits 10 m).map (fun c => c.toNat - 0x30)).foldl (fun n d => n * 10 + d) 0 = m := by
  rw [List.foldl_map]
  conv_rhs => rw [← Nat.ofDigitChars_ten_toDigits (n := m), Nat.ofDigitChars_eq_foldl]
  congr 1
  ext n c
  rw [Nat.mul_comm]
  rfl

theorem int_numeral {n : ℤ} (h : n.natAbs < 10 ^ maxStrDigits) : int (numeral n) = some n := by
  have hdigits (m : ℕ) : ∀ c ∈ Nat.toDigits 10 m, c.isDigit = true :=
    fun c hc => Nat.isDigit_of_mem_toDigits (by decide) (by decide) hc
  have hhead (m : ℕ) {c : Char} (hc : c.isDigit = false) : (Nat.toDigits 10 m).head? ≠ some c := by
    intro hmem
    have := hdigits m c (List.mem_of_head? hmem)
    rw [hc] at this
    cases this
  have hread (m : ℕ) : intDigits (Nat.toDigits 10 m) =
      some ((Nat.toDigits 10 m).map (fun c => c.toNat - 0x30)) :=
    intDigits_of_isDigit Nat.toDigits_ne_nil (hdigits m)
  have hlen (m : ℕ) (hm : m < 10 ^ maxStrDigits) :
      ¬ maxStrDigits < ((Nat.toDigits 10 m).map (fun c => c.toNat - 0x30)).length := by
    rw [List.length_map]
    exact Nat.not_lt.mpr ((Nat.length_toDigits_le_iff (by decide) (by decide)).mpr hm)
  rw [int, strip_eq (isSpace_numeral n)]
  rcases Int.eq_nat_or_neg n with ⟨m, rfl | rfl⟩
  · have hm := hlen m (by simpa using h)
    simp only [numeral_nat, hhead m (show '-'.isDigit = false by decide),
      hhead m (show '+'.isDigit = false by decide), or_self, if_false, hread, hm,
      magnitude_toDigits]
  · rcases Nat.eq_zero_or_pos m with rfl | hpos
    · rfl
    · have hm := hlen m (by simpa using h)
      simp only [numeral_neg hpos, List.head?_cons, true_or, if_true, List.tail_cons, hread, hm,
        if_false, magnitude_toDigits]

/-! ## Replies -/

namespace RespParser

def crlf : Text := ['\r', '\n']

theorem findCrlf_header {t : Text} (ht : '\r' ∉ t) {typeChar : Char} (hc : typeChar ≠ '\r')
    (r : Text) :
    findCrlf (typeChar :: (t ++ crlf ++ r)) = some (t.length + 1) := by
  have hfirst : findCrlf (t ++ crlf ++ r) = some t.length :=
    Terminator.find_append (by decide) (Terminator.find_eq_none_of_not_mem ht) r
  calc findCrlf (typeChar :: (t ++ crlf ++ r)) = (findCrlf (t ++ crlf ++ r)).map (· + 1) :=
        Terminator.find_cons hc _
    _ = some (t.length + 1) := by rw [hfirst]; rfl

theorem take_header (typeChar : Char) (t r : Text) :
    ((typeChar :: (t ++ crlf ++ r)).drop 1).take (t.length + 1 - 1) = t := by
  rw [List.drop_succ_cons, List.drop_zero, Nat.add_sub_cancel, List.append_assoc, List.take_left' rfl]

theorem drop_header (typeChar : Char) (t r : Text) :
    (typeChar :: (t ++ crlf ++ r)).drop (t.length + 1 + 2) = r := by
  rw [show t.length + 1 + 2 = (t ++ crlf).length + 1 by simp [crlf], List.drop_succ_cons,
    List.drop_left' rfl]

theorem parse_encode (s : Text) : parse (encode s) = some (parseText (s.length + 1) s) := by
  rw [parse, decode_encode]
  rfl

theorem parseText_error {e : Text} (he : findCrlf e = none) (fuel : ℕ) :
    parseText (fuel + 1) ('-' :: (e ++ crlf)) = some (.error e (some (e.length + 3))) := by
  have hfirst : findCrlf (e ++ crlf ++ []) = some e.length := Terminator.find_append (by decide) he []
  rw [List.append_nil] at hfirst
  have hpos : findCrlf ('-' :: (e ++ crlf)) = some (e.length + 1) := by
    calc findCrlf ('-' :: (e ++ crlf)) = (findCrlf (e ++ crlf)).map (· + 1) := Terminator.find_cons (by decide) _
      _ = some (e.length + 1) := by rw [hfirst]; rfl
  change parseError ('-' :: (e ++ crlf)) = _
  rw [parseError, parseLine, if_neg (by simp), hpos]
  simp

theorem parseText_integer {n : ℤ} (h : n.natAbs < 10 ^ maxStrDigits) (fuel : ℕ) :
    parseText (fuel + 1) (':' :: (numeral n ++ crlf)) =
      some (.integer n ((numeral n).length + 3)) := by
  have hlen : ¬ (':' :: (numeral n ++ crlf)).length < 3 := by
    simp [crlf]
  have hpos := findCrlf_header (cr_not_mem_numeral n) (show ':' ≠ '\r' by decide) []
  have htake := take_header ':' (numeral n) []
  rw [List.append_nil] at hpos htake
  change parseInteger (':' :: (numeral n ++ crlf)) = _
  rw [parseInteger, if_neg (by simp), if_neg hlen, hpos]
  dsimp only
  rw [htake, int_numeral h]

/-- A bulk string header that announces `length`, and what follows it. -/
theorem parseText_bulkString {length : ℕ} (h : length < 10 ^ maxStrDigits) (r : Text) (fuel : ℕ) :
    parseText (fuel + 1) ('$' :: (numeral length ++ crlf ++ r)) =
      if r.length < length + 2 then none
      else if r[length]? = some '\r' ∧ r[length + 1]? = some '\n' then
        some (.bulkString (r.take length) ((numeral length).length + 3 + length + 2))
      else some (.error "ERR invalid bulk string format".toList none) := by
  have hpos := findCrlf_header (cr_not_mem_numeral length) (show '$' ≠ '\r' by decide) r
  have hdrop := drop_header '$' (numeral length) r
  have hint : int (numeral length) = some (length : ℤ) := int_numeral (by simpa using h)
  have hshort : ('$' :: (numeral length ++ crlf ++ r)).length <
      (numeral length).length + 1 + 2 + length + 2 ↔
      r.length < length + 2 := by
    simp only [crlf, List.length_cons, List.length_append, List.length_nil]
    omega
  have hget (i : ℕ) : ('$' :: (numeral length ++ crlf ++ r))[(numeral length).length +
      1 + 2 + i]? = r[i]? := by
    rw [← List.getElem?_drop, hdrop]
  change parseBulkString ('$' :: (numeral length ++ crlf ++ r)) = _
  rw [parseBulkString, if_neg (by simp), hpos]
  dsimp only
  rw [take_header, hint]
  dsimp only
  rw [if_neg (by omega), if_neg (by omega), Int.toNat_natCast]
  by_cases hr : r.length < length + 2
  · rw [if_pos (hshort.mpr hr), if_pos hr]
  · rw [if_neg (fun hbad => hr (hshort.mp hbad)), if_neg hr, hdrop, hget, Nat.add_assoc _ length 1, hget]
    by_cases hend : r[length]? = some '\r' ∧ r[length + 1]? = some '\n'
    · rw [if_neg (by simp [hend]), if_pos hend]
    · rw [if_pos (not_and_or.mp hend), if_neg hend]

/-! The server's replies as texts. -/

theorem bulkString_text (s : Text) : RespSerializer.bulkString (encode s) =
    encode ('$' :: (numeral (encode s).length ++ crlf ++ (s ++ crlf))) := by
  have hparts : '$' :: (numeral (encode s).length ++ crlf ++ (s ++ crlf)) =
      ['$'] ++ (numeral (encode s).length ++ crlf ++ (s ++ crlf)) := rfl
  rw [hparts, encode_append, encode_append, encode_append, encode_append, encode_numeral]
  simp only [RespSerializer.bulkString, List.append_assoc]
  rfl

theorem error_text (e : Text) : RespSerializer.error (encode e) = encode ('-' :: (e ++ crlf)) := by
  have hparts : '-' :: (e ++ crlf) = ['-'] ++ (e ++ crlf) := rfl
  rw [hparts, encode_append, encode_append]
  simp only [RespSerializer.error, List.append_assoc]
  rfl

theorem integer_text (n : ℤ) : RespSerializer.integer n = encode (':' :: (numeral n ++ crlf)) := by
  have hparts : ':' :: (numeral n ++ crlf) = [':'] ++ (numeral n ++ crlf) := rfl
  rw [hparts, encode_append, encode_append, encode_numeral]
  simp only [RespSerializer.integer, List.append_assoc]
  rfl

theorem parse_error {e : Text} (he : findCrlf e = none) :
    parse (RespSerializer.error (encode e)) = some (some (.error e (some (e.length + 3)))) := by
  rw [error_text, parse_encode, parseText_error he]

theorem parse_integer {n : ℤ} (h : n.natAbs < 10 ^ maxStrDigits) :
    parse (RespSerializer.integer n) = some (some (.integer n ((numeral n).length + 3))) := by
  rw [integer_text, parse_encode, parseText_integer h]

theorem parse_nullBulk : parse RespSerializer.nullBulk = some (some (.nullBulk 5)) := by
  have htext : RespSerializer.nullBulk = encode "$-1\r\n".toList := rfl
  rw [htext, parse_encode]
  rfl

/-- The client reads a bulk string as long as its header says, in characters: the
value if it is ASCII, and otherwise nothing. -/
theorem parse_bulkString {s : Text} (h : (encode s).length < 10 ^ maxStrDigits) :
    parse (RespSerializer.bulkString (encode s)) =
      some (if Ascii s then some (.bulkString s
        ((numeral s.length).length + 3 + s.length + 2)) else none) := by
  obtain ⟨hle, hiff⟩ := length_encode s
  rw [bulkString_text, parse_encode, parseText_bulkString h]
  have hlen : (s ++ crlf).length = s.length + 2 := by simp [crlf]
  by_cases hs : Ascii s
  · have hsame := hiff.mpr hs
    have hcr : (s ++ crlf)[s.length]? = some '\r' := by simp [crlf]
    have hlf : (s ++ crlf)[s.length + 1]? = some '\n' := by simp [crlf]
    rw [hsame, if_neg (by omega), if_pos ⟨hcr, hlf⟩, if_pos hs, List.take_left' rfl]
  · have hlonger : (encode s).length ≠ s.length := fun heq => hs (hiff.mp heq)
    rw [if_pos (by omega), if_neg hs]

end RespParser

/-- The client reads the four kinds of replies back, each to its end. -/
structure ReadsBack (size : Bytes → ℕ) (s : Text) (n : ℤ) (e : Text) : Prop where
  string : RespParser.parse (RespSerializer.bulkString (encode s)) =
    some (some (.bulkString s (size (RespSerializer.bulkString (encode s)))))
  integer : RespParser.parse (RespSerializer.integer n) =
    some (some (.integer n (size (RespSerializer.integer n))))
  null : RespParser.parse RespSerializer.nullBulk =
    some (some (.nullBulk (size RespSerializer.nullBulk)))
  error : RespParser.parse (RespSerializer.error (encode e)) =
    some (some (.error e (some (size (RespSerializer.error (encode e))))))

section
variable {s e : Text} {n : ℤ} (hs : (encode s).length < 10 ^ maxStrDigits)
  (hn : n.natAbs < 10 ^ maxStrDigits)
  (he : RespParser.findCrlf e = none)
include hs hn he

/-- The values come back if the string is ASCII; then only the sizes matter. -/
theorem readsBack_iff (size : Bytes → ℕ) : ReadsBack size s n e ↔
    Ascii s ∧
      size (RespSerializer.bulkString (encode s)) = (numeral s.length).length + 3 + s.length + 2 ∧
      size (RespSerializer.integer n) = (numeral n).length + 3 ∧ size RespSerializer.nullBulk = 5 ∧
      size (RespSerializer.error (encode e)) = e.length + 3 := by
  constructor
  · rintro ⟨hstring, hinteger, hnull, herror⟩
    rw [RespParser.parse_bulkString hs] at hstring
    rw [RespParser.parse_integer hn] at hinteger
    rw [RespParser.parse_nullBulk] at hnull
    rw [RespParser.parse_error he] at herror
    by_cases hascii : Ascii s
    · simp only [hascii, if_true, RespValue.bulkString, RespValue.integer, RespValue.nullBulk,
        RespValue.error, Option.some.injEq, RespValue.mk.injEq, true_and,
        and_true] at hstring hinteger hnull herror
      exact ⟨hascii, hstring.symm, hinteger.symm, hnull.symm, herror.symm⟩
    · simp [hascii] at hstring
  · rintro ⟨hascii, hstring, hinteger, hnull, herror⟩
    refine ⟨?_, ?_, ?_, ?_⟩
    · rw [RespParser.parse_bulkString hs, if_pos hascii, hstring]
    · rw [RespParser.parse_integer hn, hinteger]
    · rw [RespParser.parse_nullBulk, hnull]
    · rw [RespParser.parse_error he, herror]

/-- Where a reply is measured in bytes, as the name of `num_resp_bytes` says. -/
theorem readsBack_bytes : ReadsBack List.length s n e ↔ Ascii s ∧ Ascii e := by
  have hstring (hascii : Ascii s) : (RespSerializer.bulkString (encode s)).length =
      (numeral s.length).length + 3 + s.length + 2 := by
    have hlen := (length_encode s).2.mpr hascii
    have hnum := (length_encode (numeral s.length)).2.mpr (ascii_numeral s.length)
    rw [encode_numeral] at hnum
    simp only [RespSerializer.bulkString, RespSerializer.crlf, lit, List.length_append, hlen, hnum]
    change 1 + _ + 2 + _ + 2 = _
    omega
  have hinteger : (RespSerializer.integer n).length = (numeral n).length + 3 := by
    have hnum := (length_encode (numeral n)).2.mpr (ascii_numeral n)
    rw [encode_numeral] at hnum
    simp only [RespSerializer.integer, RespSerializer.crlf, lit, List.length_append, hnum]
    change 1 + _ + 2 = _
    omega
  have herror : (RespSerializer.error (encode e)).length = e.length + 3 ↔ Ascii e := by
    rw [← (length_encode e).2]
    simp only [RespSerializer.error, RespSerializer.crlf, lit, List.length_append]
    change 1 + _ + 2 = _ ↔ _
    omega
  rw [readsBack_iff hs hn he, herror]
  constructor
  · rintro ⟨hascii, -, -, -, hasciiError⟩
    exact ⟨hascii, hasciiError⟩
  · rintro ⟨hascii, hasciiError⟩
    exact ⟨hascii, hstring hascii, hinteger, rfl, hasciiError⟩

/-- The size of a reply in characters. -/
def characters (reply : Bytes) : ℕ := ((decode reply).getD []).length

omit hs hn he in
theorem characters_encode (s : Text) : characters (encode s) = s.length := by
  rw [characters, decode_encode]
  rfl

/-- Where it is measured in characters, as the parser does. -/
theorem readsBack_characters : ReadsBack characters s n e ↔ Ascii s := by
  have hstring (hascii : Ascii s) : characters (RespSerializer.bulkString (encode s)) =
      (numeral s.length).length + 3 + s.length + 2 := by
    rw [RespParser.bulkString_text, characters_encode, (length_encode s).2.mpr hascii]
    simp only [RespParser.crlf, List.length_cons, List.length_append, List.length_nil]
    omega
  have hinteger : characters (RespSerializer.integer n) = (numeral n).length + 3 := by
    rw [RespParser.integer_text, characters_encode]
    simp [RespParser.crlf]
  have hnull : characters RespSerializer.nullBulk = 5 := characters_encode "$-1\r\n".toList
  have herror : characters (RespSerializer.error (encode e)) = e.length + 3 := by
    rw [RespParser.error_text, characters_encode]
    simp [RespParser.crlf]
  rw [readsBack_iff hs hn he]
  constructor
  · exact fun h => h.1
  · exact fun hascii => ⟨hascii, hstring hascii, hinteger, hnull, herror⟩

end
end Chrono.Client
