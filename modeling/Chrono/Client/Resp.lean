import Chrono.Library.Terminator
import Chrono.Server.Resp

/-!
# The client's RESP: serializer of requests and parser of replies

A Python `str` is a list of characters; the parser decodes a reply first, so
that its positions and lengths count characters.
-/
namespace Chrono.Client

abbrev Text := List Char

def encode (s : Text) : Bytes := s.flatMap String.utf8EncodeChar

/-- `bytes.decode()`, which raises on bytes that are not UTF-8. -/
def decode (b : Bytes) : Option Text := b.toByteArray.utf8Decode?.map Array.toList

/-- Only characters below U+0080. -/
def Ascii (s : Text) : Prop := ∀ c ∈ s, c.toNat < 0x80

instance (s : Text) : Decidable (Ascii s) := List.decidableBAll (fun c : Char => c.toNat < 0x80) s

theorem ascii_append (s t : Text) : Ascii (s ++ t) ↔ Ascii s ∧ Ascii t := by
  simp [Ascii, or_imp, forall_and]

theorem ascii_repr (n : ℕ) : Ascii n.repr.toList := by
  intro c hc
  rw [Nat.toList_repr] at hc
  have := (Char.isDigit_iff_toNat.mp (Nat.isDigit_of_mem_toDigits (by decide) (by decide) hc)).2
  exact Nat.lt_of_le_of_lt this (by decide)

theorem utf8EncodeChar_ascii {c : Char} (h : c.toNat < 0x80) :
    String.utf8EncodeChar c = [c.toNat.toUInt8] := by
  have hsize : c.utf8Size = 1 := by
    rw [Char.utf8Size_eq_one_iff, UInt32.le_iff_toNat_le]
    exact Nat.le_of_lt_succ h
  rw [String.utf8EncodeChar_eq_singleton hsize]
  rfl

theorem encode_ascii {s : Text} (h : Ascii s) : encode s = s.map (fun c => c.toNat.toUInt8) := by
  induction s with
  | nil => rfl
  | cons c s ih =>
    rw [encode, List.flatMap_cons, utf8EncodeChar_ascii (h c (by simp)), ← encode,
      ih (fun d hd => h d (by simp [hd]))]
    rfl

namespace RespSerializer

def serializeToBulkString (tokens : List Text) : Bytes :=
  encode ("*" ++ toString tokens.length ++ "\r\n").toList ++ tokens.flatMap (fun token =>
    encode ("$" ++ toString (encode token).length ++ "\r\n").toList ++ encode token ++ lit "\r\n")

end RespSerializer

inductive RespValue where
  | mk (type : RespType) (strValue : Text) (intValue : ℤ) (array : List RespValue)
    (numRespBytes : Option ℕ) (isNull : Bool)

namespace RespValue

def numRespBytes : RespValue → Option ℕ
  | mk _ _ _ _ numRespBytes _ => numRespBytes

def simpleString (s : Text) (numRespBytes : ℕ) : RespValue :=
  mk .simpleString s 0 [] (some numRespBytes) false

def error (msg : Text) (numRespBytes : Option ℕ) : RespValue := mk .error msg 0 [] numRespBytes false

def integer (n : ℤ) (numRespBytes : ℕ) : RespValue := mk .integer [] n [] (some numRespBytes) false

def bulkString (s : Text) (numRespBytes : ℕ) : RespValue :=
  mk .bulkString s 0 [] (some numRespBytes) false

def nullBulk (numRespBytes : ℕ) : RespValue := mk .null [] 0 [] (some numRespBytes) true

def nullArray (numRespBytes : ℕ) : RespValue := mk .null [] 0 [] (some numRespBytes) true

def arrayFromParts (elements : List RespValue) (numRespBytes : ℕ) : RespValue :=
  mk .array [] 0 elements (some numRespBytes) false

end RespValue

/-- The code points of the zeros of Unicode's decimal digits. -/
def decimalZeros : List ℕ :=
  [0x30, 0x660, 0x6F0, 0x7C0, 0x966, 0x9E6, 0xA66, 0xAE6, 0xB66, 0xBE6, 0xC66, 0xCE6, 0xD66, 0xDE6,
    0xE50, 0xED0, 0xF20, 0x1040, 0x1090, 0x17E0, 0x1810, 0x1946, 0x19D0, 0x1A80, 0x1A90, 0x1B50,
    0x1BB0, 0x1C40, 0x1C50, 0xA620, 0xA8D0, 0xA900, 0xA9D0, 0xA9F0, 0xAA50, 0xABF0, 0xFF10, 0x104A0,
    0x10D30, 0x11066, 0x110F0, 0x11136, 0x111D0, 0x112F0, 0x11450, 0x114D0, 0x11650, 0x116C0,
    0x11730, 0x118E0, 0x11950, 0x11C50, 0x11D50, 0x11DA0, 0x16A60, 0x16AC0, 0x16B50, 0x1D7CE,
    0x1D7D8, 0x1D7E2, 0x1D7EC, 0x1D7F6, 0x1E140, 0x1E2F0, 0x1E950, 0x1FBF0]

/-- The white space that `int` skips at both ends. -/
def isSpace (c : Char) : Bool :=
  c.toNat ∈ [0x20, 0x85, 0xA0, 0x1680, 0x2028, 0x2029, 0x202F, 0x205F, 0x3000] ||
    (0x9 ≤ c.toNat && c.toNat ≤ 0xD) || (0x2000 ≤ c.toNat && c.toNat ≤ 0x200A)

def digit (c : Char) : Option ℕ :=
  (decimalZeros.find? (fun z => z ≤ c.toNat && c.toNat ≤ z + 9)).map (c.toNat - ·)

/-- Digits, with single underscores between them. -/
def intDigits : Text → Option (List ℕ)
  | [] => none
  | c :: s =>
    match digit c, s with
    | none, _ => none
    | some d, [] => some [d]
    | some d, '_' :: s => (intDigits s).map (d :: ·)
    | some d, c' :: s => (intDigits (c' :: s)).map (d :: ·)

/-- `sys.get_int_max_str_digits()` -/
def maxStrDigits : ℕ := 4300

/-- `int(s)`, which raises a `ValueError` on a text that is no decimal integer. -/
def int (s : Text) : Option ℤ :=
  let t := ((s.dropWhile isSpace).reverse.dropWhile isSpace).reverse
  let negative := t.head? = some '-'
  let u := if negative ∨ t.head? = some '+' then t.tail else t
  match intDigits u with
  | none => none
  | some ds =>
    if maxStrDigits < ds.length then none
    else
      let magnitude : ℕ := ds.foldl (fun n d => n * 10 + d) 0
      some (if negative then -(magnitude : ℤ) else magnitude)

namespace RespParser

abbrev findCrlf : Text → Option ℕ := Library.Terminator.find '\r' '\n'

def parseLine (typeChar : Char) (invalid : String) (make : Text → ℕ → RespValue) (buf : Text) :
    Option RespValue :=
  if buf.head? ≠ some typeChar then some (.error invalid.toList none)
  else
    match findCrlf buf with
    | none => none
    | some pos => some (make ((buf.drop 1).take (pos - 1)) (pos + 2))

def parseSimpleString : Text → Option RespValue :=
  parseLine '+' "ERR invalid simple string format" RespValue.simpleString

def parseError : Text → Option RespValue :=
  parseLine '-' "ERR invalid error format" (fun msg n => .error msg (some n))

def parseInteger (buf : Text) : Option RespValue :=
  let invalid := RespValue.error "ERR invalid integer format".toList none
  if buf.head? ≠ some ':' then some invalid
  else if buf.length < 3 then none
  else
    match findCrlf buf with
    | none => none
    | some pos =>
      match int ((buf.drop 1).take (pos - 1)) with
      | none => some invalid
      | some value => some (.integer value (pos + 2))

def parseBulkString (buf : Text) : Option RespValue :=
  let invalid := RespValue.error "ERR invalid bulk string format".toList none
  if buf.head? ≠ some '$' then some invalid
  else
    match findCrlf buf with
    | none => none
    | some pos =>
      match int ((buf.drop 1).take (pos - 1)) with
      | none => some invalid
      | some length =>
        if length = -1 then some (.nullBulk (pos + 2))
        else if length < 0 then some invalid
        else
          let dataStart := pos + 2
          let totalBytes := dataStart + length.toNat + 2
          if buf.length < totalBytes then none
          -- both positions lie inside the text that was just measured
          else if buf[dataStart + length.toNat]? ≠ some '\r' ∨
              buf[dataStart + length.toNat + 1]? ≠ some '\n' then some invalid
          else some (.bulkString ((buf.drop dataStart).take length.toNat) totalBytes)

def parseElements (parse : Text → Option RespValue) (buf : Text) :
    ℕ → ℕ → List RespValue → Option RespValue
  | 0, currPos, elements => some (.arrayFromParts elements currPos)
  | n + 1, currPos, elements =>
    match parse (buf.drop currPos) with
    | none => none
    | some element =>
      match element.numRespBytes with
      | none => some (.error "ERR invalid array element".toList none)
      | some count => parseElements parse buf n (currPos + count) (elements ++ [element])

def parseArray (parse : Text → Option RespValue) (buf : Text) : Option RespValue :=
  let invalid := RespValue.error "ERR invalid array format".toList none
  if buf.head? ≠ some '*' then some invalid
  else
    match findCrlf buf with
    | none => none
    | some pos =>
      match int ((buf.drop 1).take (pos - 1)) with
      | none => some invalid
      | some numElements =>
        if numElements = -1 then some (.nullArray (pos + 2))
        else if numElements < 0 then some invalid
        else parseElements parse buf numElements.toNat (pos + 2) []

/-- `parse` on a `str`, with calls nested at most `fuel` deep. -/
def parseText : ℕ → Text → Option RespValue
  | 0, _ => none
  | fuel + 1, buf =>
    match buf with
    | [] => none
    | c :: _ =>
      match c with
      | '+' => parseSimpleString buf
      | '-' => parseError buf
      | ':' => parseInteger buf
      | '$' => parseBulkString buf
      | '*' => parseArray (parseText fuel) buf
      | _ => some (.error "ERR unknown RESP type byte".toList none)

/-- `parse` on `bytes`; the outer `none` is a `UnicodeDecodeError`. -/
def parse (buf : Bytes) : Option (Option RespValue) :=
  (decode buf).map (fun s => parseText (s.length + 1) s)

end RespParser
end Chrono.Client
