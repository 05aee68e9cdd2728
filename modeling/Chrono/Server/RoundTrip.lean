import Chrono.Server.RespParser
import Chrono.Client.Resp

/-!
# What the serializers write, the parser reads back

A header is a type byte, a decimal and a terminator. Since digits contain no
carriage return, the first terminator is the header's own, whatever follows it.
-/
namespace Chrono
open RespParser RespSerializer Library

theorem toInt32_eq_self {x : ℤ} (hlo : -2 ^ 31 ≤ x) (hhi : x < 2 ^ 31) : toInt32 x = x := by
  unfold toInt32
  rw [Int.bmod_eq_of_le] <;> omega

/-- Wrapping after every digit or once at the end makes no difference. -/
theorem toInt32_digit (x d : ℤ) : toInt32 (toInt32 x * 10 + d) = toInt32 (x * 10 + d) := by
  unfold toInt32
  calc
    Int.bmod (Int.bmod x (2 ^ 32) * 10 + d) (2 ^ 32)
        = Int.bmod (Int.bmod (Int.bmod x (2 ^ 32) * 10) (2 ^ 32) + d) (2 ^ 32) :=
      Int.bmod_add_bmod.symm
    _ = Int.bmod (Int.bmod (x * 10) (2 ^ 32) + d) (2 ^ 32) := by rw [Int.bmod_mul_bmod]
    _ = Int.bmod (x * 10 + d) (2 ^ 32) := Int.bmod_add_bmod

theorem toInt32_neg (x : ℤ) : toInt32 (-toInt32 x) = toInt32 (-x) := by
  unfold toInt32
  calc
    Int.bmod (-Int.bmod x (2 ^ 32)) (2 ^ 32) = Int.bmod (Int.bmod x (2 ^ 32) * (-1)) (2 ^ 32) := by
      rw [Int.mul_neg_one]
    _ = Int.bmod (x * (-1)) (2 ^ 32) := Int.bmod_mul_bmod
    _ = Int.bmod (-x) (2 ^ 32) := by rw [Int.mul_neg_one]

/-! Decimals. -/

theorem lit_repr (n : ℕ) : lit n.repr = Decimal.digits n := by
  rw [lit, Nat.toList_repr]
  rfl

theorem decimal_nat (n : ℕ) : decimal n = Decimal.digits n := by
  simp [decimal, Int.repr_eq_if, lit_repr]

theorem decimal_neg {n : ℕ} (h : 0 < n) : decimal (-n) = 0x2D :: Decimal.digits n := by
  have hrepr : Int.repr (-n) = "-" ++ n.repr := by
    rw [Int.repr_eq_if, if_neg (by omega)]
    simp
  rw [decimal, Int.toString_eq_repr, hrepr, ← lit_repr]
  simp [lit]

theorem parseDigits_eq {s : Bytes} (h : ∀ b ∈ s, Decimal.IsDigit b) (n : ℕ) :
    parseDigits s (toInt32 n) = some (toInt32 (Decimal.value n s)) := by
  induction s generalizing n with
  | nil => rfl
  | cons b s ih =>
    obtain ⟨hlo, hhi⟩ := h b (by simp)
    have hb : ¬ (b < 0x30 ∨ 0x39 < b) := by
      rintro (hlt | hlt)
      · exact absurd hlo (UInt8.not_le.mpr hlt)
      · exact absurd hhi (UInt8.not_le.mpr hlt)
    have hbounds := (h b (by simp)).bounds
    have hcast : (n : ℤ) * 10 + ((b.toNat : ℤ) - 0x30) = ((n * 10 + (b.toNat - 0x30) : ℕ) : ℤ) := by
      omega
    rw [parseDigits, if_neg hb, toInt32_digit, hcast, ih (fun c hc => h c (by simp [hc])),
      Decimal.value_cons]

theorem parseDigits_digits (n : ℕ) : parseDigits (Decimal.digits n) 0 = some (toInt32 n) := by
  have h := parseDigits_eq (s := Decimal.digits n) (fun b hb => Decimal.isDigit_of_mem_digits hb) 0
  rwa [Decimal.value_digits] at h

theorem not_sign {b : UInt8} (h : Decimal.IsDigit b) : b ≠ 0x2D ∧ b ≠ 0x2B ∧ b ≠ 0x0D := by
  refine ⟨?_, ?_, ?_⟩ <;> rintro rfl <;> exact absurd h.1 (by decide)

theorem parseStringAsInt_digits (n : ℕ) : parseStringAsInt (Decimal.digits n) = some (toInt32 n) := by
  cases hd : Decimal.digits n with
  | nil => exact absurd hd (Decimal.digits_ne_nil n)
  | cons b s =>
    obtain ⟨hminus, hplus, -⟩ :=
      not_sign (Decimal.isDigit_of_mem_digits (n := n) (b := b) (by simp [hd]))
    simp only [parseStringAsInt, hminus, hplus, if_false]
    rw [← hd, parseDigits_digits]

/-- Reading back a printed number, up to the range of an `int`. -/
theorem parseStringAsInt_decimal (n : ℤ) : parseStringAsInt (decimal n) = some (toInt32 n) := by
  rcases Int.eq_nat_or_neg n with ⟨m, rfl | rfl⟩
  · rw [decimal_nat, parseStringAsInt_digits]
  · rcases Nat.eq_zero_or_pos m with rfl | hm
    · exact parseStringAsInt_digits 0
    · rw [decimal_neg hm, parseStringAsInt, if_pos rfl, if_neg (Decimal.digits_ne_nil m),
        parseDigits_digits, Option.map_some, toInt32_neg]

/-! The first terminator. -/

theorem findCrlf_cons {b : UInt8} (hb : b ≠ 0x0D) (s : Bytes) :
    findCrlf (b :: s) = (findCrlf s).map (· + 1) :=
  Terminator.find_cons hb s

theorem findCrlf_append {s : Bytes} (h : findCrlf s = none) (r : Bytes) :
    findCrlf (s ++ crlf ++ r) = some s.length :=
  Terminator.find_append (by decide) h r

theorem cr_not_mem_decimal (n : ℤ) : (0x0D : UInt8) ∉ decimal n := by
  have hdigits (m : ℕ) : (0x0D : UInt8) ∉ Decimal.digits m :=
    fun h => (not_sign (Decimal.isDigit_of_mem_digits h)).2.2 rfl
  rcases Int.eq_nat_or_neg n with ⟨m, rfl | rfl⟩
  · rw [decimal_nat]
    exact hdigits m
  · rcases Nat.eq_zero_or_pos m with rfl | hm
    · exact hdigits 0
    · rw [decimal_neg hm, List.mem_cons, not_or]
      exact ⟨by decide, hdigits m⟩

/-! A header: a type byte, a numeral without a carriage return and a terminator. -/

theorem findCrlf_header {t : Bytes} (ht : (0x0D : UInt8) ∉ t) {typeByte : UInt8}
    (hb : typeByte ≠ 0x0D) (r : Bytes) :
    findCrlf (typeByte :: (t ++ crlf ++ r)) = some (t.length + 1) := by
  rw [findCrlf_cons hb, findCrlf_append (Terminator.find_eq_none_of_not_mem ht)]
  rfl

theorem take_header (t r : Bytes) : (t ++ crlf ++ r).take (t.length + 1 - 1) = t := by
  rw [Nat.add_sub_cancel, List.append_assoc, List.take_left']
  rfl

theorem drop_header (typeByte : UInt8) (t r : Bytes) :
    (typeByte :: (t ++ crlf ++ r)).drop (t.length + 1 + 2) = r := by
  rw [show t.length + 1 + 2 = (t ++ crlf).length + 1 by simp [crlf, lit],
    List.drop_succ_cons, List.drop_left']
  rfl

/-- The bytes are read as the value in front of any others, and the value counts them. -/
structure Encodes (e : Bytes) (v : RespValue) : Prop where
  parse_append : ∀ r, parse (e ++ r) = .ok (some v)
  count : v.numRespBytes = some e.length

/-! One value. -/

theorem parse_line {s : Bytes} (h : findCrlf s = none) (r : Bytes) :
    parse (0x2B :: (s ++ crlf ++ r)) = .ok (some (.simpleString s (s.length + 3))) ∧
      parse (0x2D :: (s ++ crlf ++ r)) = .ok (some (.error s (some (s.length + 3)))) := by
  have hline {b : UInt8} (hb : b ≠ 0x0D) (invalid : Bytes) (make : Bytes → ℕ → RespValue) :
      parseLine b invalid make (b :: (s ++ crlf ++ r)) = .ok (some (make s (s.length + 3))) := by
    rw [parseLine_cons, findCrlf_cons hb, findCrlf_append h]
    simp
  constructor
  · rw [parse_eq, parseBody, if_pos rfl]
    exact hline (by decide) _ _
  · rw [parse_eq, parseBody, if_neg (by decide), if_pos rfl]
    exact hline (by decide) _ _

theorem encodes_simpleString {s : Bytes} (h : findCrlf s = none) :
    Encodes (0x2B :: (s ++ crlf)) (.simpleString s (s.length + 3)) where
  parse_append r := (parse_line h r).1
  count := by simp [RespValue.simpleString, RespValue.numRespBytes, crlf, lit]

theorem encodes_error {s : Bytes} (h : findCrlf s = none) :
    Encodes (RespSerializer.error s) (.error s (some (s.length + 3))) where
  parse_append r := (parse_line h r).2
  count := by simp [RespSerializer.error, RespValue.error, RespValue.numRespBytes, crlf, lit]

theorem encodes_integer (n : ℤ) :
    Encodes (RespSerializer.integer n) (.integer (toInt32 n) (RespSerializer.integer n).length) where
  parse_append r := by
    have hcons : RespSerializer.integer n ++ r = 0x3A :: (decimal n ++ crlf ++ r) := by
      simp [RespSerializer.integer, lit]
    have hlen : ¬ (decimal n ++ crlf ++ r).length < 2 := by
      simp [crlf, lit]
      omega
    rw [hcons, parse_eq, parseBody, if_neg (by decide), if_neg (by decide), if_pos rfl,
      parseInteger_cons, if_neg hlen, findCrlf_header (cr_not_mem_decimal n)
        (by decide), Option.map_some,
      take_header, parseStringAsInt_decimal]
    simp [RespSerializer.integer, crlf, lit]
  count := rfl

theorem parse_dollar {t : Bytes} (ht : (0x0D : UInt8) ∉ t) {n : ℤ} (hn : parseStringAsInt t = some n)
    (r : Bytes) : parse (0x24 :: (t ++ crlf ++ r)) =
      .ok (bulkPayload (0x24 :: (t ++ crlf ++ r)) (t.length + 1) n) := by
  rw [parse_eq, parseBody, if_neg (by decide), if_neg (by decide), if_neg (by decide), if_pos rfl,
    parseBulkString_cons, findCrlf_header ht (by decide)]
  dsimp only
  rw [take_header, hn]

theorem bulkPayload_of_drop {buf s r : Bytes} {pos : ℕ} (h : buf.drop (pos + 2) = s ++ crlf ++ r) :
    bulkPayload buf pos s.length = some (.bulkString s (pos + 2 + s.length + 2)) := by
  have hlen : buf.length = pos + 2 + s.length + 2 + r.length := by
    have := congrArg List.length h
    simp [crlf, lit] at this
    omega
  have hend : (buf.drop (pos + 2 + s.length)).take 2 = crlf := by
    rw [← List.drop_drop, h, List.append_assoc, List.drop_left' rfl]
    rfl
  have htake : (buf.drop (pos + 2)).take s.length = s := by
    rw [h, List.append_assoc, List.take_left' rfl]
  rw [bulkPayload, if_neg (by omega), if_neg (by omega), Int.toNat_natCast, if_neg (by omega),
    if_pos hend, htake]

theorem encodes_bulk {t s : Bytes} (ht : (0x0D : UInt8) ∉ t)
    (hn : parseStringAsInt t = some (s.length : ℤ)) :
    Encodes (0x24 :: (t ++ crlf ++ (s ++ crlf)))
      (.bulkString s (t.length + 1 + 2 + s.length + 2)) where
  parse_append r := by
    have hcons : 0x24 :: (t ++ crlf ++ (s ++ crlf)) ++ r =
        0x24 :: (t ++ crlf ++ (s ++ crlf ++ r)) := by
      simp
    rw [hcons, parse_dollar ht hn, bulkPayload_of_drop (drop_header _ _ _)]
  count := by
    simp [RespValue.bulkString, RespValue.numRespBytes, crlf, lit]
    omega

/-- A length that an `int` holds is read back. -/
theorem parseStringAsInt_length {n : ℕ} (h : n < 2 ^ 31) :
    parseStringAsInt (decimal n) = some (n : ℤ) := by
  rw [parseStringAsInt_decimal, toInt32_eq_self (by omega) (by omega)]

theorem encodes_bulkString {s : Bytes} (hs : s.length < 2 ^ 31) :
    Encodes (RespSerializer.bulkString s) (.bulkString s (RespSerializer.bulkString s).length) := by
  have hcons : RespSerializer.bulkString s = 0x24 :: (decimal s.length ++ crlf ++ (s ++ crlf)) := by
    simp [RespSerializer.bulkString, lit]
  have h := encodes_bulk (s := s) (cr_not_mem_decimal s.length) (parseStringAsInt_length hs)
  have hcount := h.count
  rw [← hcons] at h hcount
  rwa [Option.some.inj hcount] at h

theorem encodes_nullBulk :
    Encodes RespSerializer.nullBulk (.nullBulk RespSerializer.nullBulk.length) where
  parse_append r := by
    have hcons : RespSerializer.nullBulk ++ r = 0x24 :: (decimal (-1) ++ crlf ++ r) := rfl
    rw [hcons, parse_dollar (cr_not_mem_decimal (-1)) (parseStringAsInt_decimal (-1))]
    rfl
  count := rfl

/-! Arrays. -/

section
variable {ι : Type} {enc : ι → Bytes} {val : ι → RespValue} {items : List ι}

/-- The loop, in front of the encodings of the items that are still to be read. -/
theorem parseElements_items (h : ∀ i ∈ items, Encodes (enc i) (val i)) {buf r : Bytes} {pos : ℕ}
    (hbuf : buf.drop pos = items.flatMap enc ++ r) (hpos : pos ≤ buf.length)
    (elements : List RespValue) :
    parseElements parse buf items.length pos elements =
      .ok (some (.arrayFromParts (elements ++ items.map val)
        (pos + (items.flatMap enc).length))) := by
  induction items generalizing pos elements with
  | nil => simp [parseElements, pure, Except.pure]
  | cons i items ih =>
    have hi := h i (by simp)
    rw [List.flatMap_cons, List.append_assoc] at hbuf
    have hnext : parse (buf.drop pos) = .ok (some (val i)) := by
      rw [hbuf, hi.parse_append]
    have hdrop : buf.drop (pos + (enc i).length) = items.flatMap enc ++ r := by
      rw [← List.drop_drop, hbuf, List.drop_left' rfl]
    have hle : pos + (enc i).length ≤ buf.length := by
      have := congrArg List.length hbuf
      simp only [List.length_drop, List.length_append] at this
      omega
    rw [List.length_cons, parseElements_next _ _ hpos hnext hi.count,
      ih (fun j hj => h j (by simp [hj])) hdrop hle]
    simp [Nat.add_assoc]

theorem encodes_array (h : ∀ i ∈ items, Encodes (enc i) (val i)) {t : Bytes} (ht : (0x0D : UInt8) ∉ t)
    (hn : parseStringAsInt t = some (items.length : ℤ)) :
    Encodes (0x2A :: (t ++ crlf ++ items.flatMap enc))
      (.arrayFromParts (items.map val) (t.length + 1 + 2 + (items.flatMap enc).length)) where
  parse_append r := by
    have hcons : 0x2A :: (t ++ crlf ++ items.flatMap enc) ++ r =
        0x2A :: (t ++ crlf ++ (items.flatMap enc ++ r)) := by
      simp
    have hpos : t.length + 1 + 2 ≤ (0x2A :: (t ++ crlf ++ (items.flatMap enc ++ r))).length := by
      simp [crlf, lit]
    rw [hcons, parse_eq, parseBody, if_neg (by decide), if_neg (by decide), if_neg (by decide),
      if_neg (by decide), if_pos rfl, parseArray_cons, findCrlf_header ht (by decide)]
    dsimp only
    rw [take_header, hn]
    dsimp only
    rw [if_neg (by omega), if_neg (by omega), Int.toNat_natCast,
      parseElements_items h (drop_header _ _ _) hpos]
    rfl
  count := by
    simp only [RespValue.arrayFromParts, RespValue.numRespBytes, crlf, lit, List.length_cons,
      List.length_append, Option.some.injEq]
    change _ = t.length + 2 + _ + 1
    omega

end

theorem encodes_command {items : List Bytes} (hcount : items.length < 2 ^ 31)
    (hitems : ∀ s ∈ items, s.length < 2 ^ 31) :
    Encodes (RespSerializer.array items) (.command items) := by
  have hcons : RespSerializer.array items =
      0x2A :: (decimal items.length ++ crlf ++ items.flatMap RespSerializer.bulkString) := by
    simp [RespSerializer.array, lit]
  have h := encodes_array (fun s hs => encodes_bulkString (hitems s hs))
    (cr_not_mem_decimal items.length) (parseStringAsInt_length hcount)
  have hlen := h.count
  rw [← hcons] at h hlen
  rwa [Option.some.inj hlen] at h

/-- A request is longer than its words, and than their number. -/
theorem words_le_array (words : List Bytes) : words.length ≤ (RespSerializer.array words).length := by
  have hitem (w : Bytes) : 1 ≤ (RespSerializer.bulkString w).length := by
    simp [RespSerializer.bulkString, lit]
  have hitems : words.length ≤ (words.flatMap RespSerializer.bulkString).length := by
    induction words with
    | nil => exact Nat.le_refl _
    | cons w words ih =>
      have := hitem w
      rw [List.length_cons, List.flatMap_cons, List.length_append]
      omega
  rw [RespSerializer.array, List.length_append]
  omega

theorem bulkString_le_array {words : List Bytes} {w : Bytes} (h : w ∈ words) :
    (RespSerializer.bulkString w).length ≤ (RespSerializer.array words).length := by
  have hitems : (RespSerializer.bulkString w).length ≤
      (words.flatMap RespSerializer.bulkString).length := by
    rw [List.flatMap]
    exact (List.sublist_flatten_of_mem (List.mem_map_of_mem h)).length_le
  rw [RespSerializer.array, List.length_append]
  omega

theorem word_le_array {words : List Bytes} {w : Bytes} (h : w ∈ words) :
    w.length ≤ (RespSerializer.array words).length := by
  have hitem : w.length ≤ (RespSerializer.bulkString w).length := by
    simp [RespSerializer.bulkString]
    omega
  exact Nat.le_trans hitem (bulkString_le_array h)

theorem serializeToBulkString_eq (tokens : List Client.Text) :
    Client.RespSerializer.serializeToBulkString tokens =
      RespSerializer.array (tokens.map Client.encode) := by
  have hcount (typeChar : String) (n : ℕ) (h : Client.Ascii typeChar.toList) :
      Client.encode (typeChar ++ toString n ++ "\r\n").toList =
        lit typeChar ++ decimal n ++ crlf := by
    rw [Client.encode_ascii]
    · simp [lit, decimal, crlf, Int.repr_eq_if]
    · simp only [String.toList_append, Client.ascii_append]
      refine ⟨⟨h, Client.ascii_repr n⟩, by decide⟩
  rw [Client.RespSerializer.serializeToBulkString, RespSerializer.array, hcount "*" _ (by decide),
    List.length_map, List.flatMap_map]
  apply congrArg (lit "*" ++ decimal tokens.length ++ crlf ++ ·)
  apply List.flatMap_congr
  intro token _
  rw [hcount "$" _ (by decide), RespSerializer.bulkString, crlf]

/-- Every list of byte strings comes back from its encoding by the server's or by the
client's serializer, whatever follows: a non-null array of non-null bulk strings,
with the length of the encoding as its count of bytes. -/
theorem request_roundTrip (items : List Bytes) (hcount : items.length < 2 ^ 31)
    (hitems : ∀ s ∈ items, s.length < 2 ^ 31) (payload : Bytes)
    (hpayload : payload = RespSerializer.array items ∨
      ∃ tokens : List Client.Text, tokens.map Client.encode = items ∧
        payload = Client.RespSerializer.serializeToBulkString tokens) (r : Bytes) :
    ∃ v, parse (payload ++ r) = .ok (some v) ∧ v.type = .array ∧ v.isNull = false ∧
      v.numRespBytes = some payload.length ∧ v.array.map RespValue.strValue = items ∧
      ∀ e ∈ v.array, e.type = .bulkString ∧ e.isNull = false := by
  have hsame : payload = RespSerializer.array items := by
    rcases hpayload with h | ⟨tokens, rfl, h⟩
    · exact h
    · rw [h, serializeToBulkString_eq]
  rw [hsame]
  refine ⟨_, (encodes_command hcount hitems).parse_append r, rfl, rfl, rfl, ?_, ?_⟩
  · rw [RespValue.command, RespValue.arrayFromParts, RespValue.array, List.map_map]
    exact List.map_id items
  · intro e he
    obtain ⟨s, -, rfl⟩ := List.mem_map.mp he
    exact ⟨rfl, rfl⟩

/-- A `SET` whose value looks like headers, and a byte after it. -/
theorem request_roundTrip_witness :
    let items := [lit "SET", lit "k", lit "\r\n$3\r\n*1"]
    ∃ v, parse (RespSerializer.array items ++ [0x2B]) = .ok (some v) ∧ v.type = .array ∧
      v.isNull = false ∧ v.numRespBytes = some (RespSerializer.array items).length ∧
      v.array.map RespValue.strValue = items ∧
      ∀ e ∈ v.array, e.type = .bulkString ∧ e.isNull = false :=
  request_roundTrip [lit "SET", lit "k", lit "\r\n$3\r\n*1"] (by decide)
    (by decide) _ (.inl rfl) [0x2B]

end Chrono
