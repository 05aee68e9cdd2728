import Chrono.Server.Resp
import Chrono.Library.Decimal
import Chrono.Library.Terminator

/-!
# The RESP parser

A call reads one value from the front of a buffer; the elements of an array are
read by calls on what follows. `none` asks for more input.
-/
namespace Chrono

/-- The value an `int` holds after an operation with exact result `x`. -/
def toInt32 (x : ℤ) : ℤ := Int.bmod x (2 ^ 32)

/-- The loop of `parse_string_as_int`. -/
def parseDigits : Bytes → ℤ → Option ℤ
  | [], value => some value
  | c :: sv, value =>
    if c < 0x30 ∨ 0x39 < c then none else parseDigits sv (toInt32 (value * 10 + (c.toNat - 0x30)))

def parseStringAsInt (sv : Bytes) : Option ℤ :=
  match sv with
  | [] => none
  | sign :: digits =>
    if sign = 0x2D then
      if digits = [] then none else (parseDigits digits 0).map (fun value => toInt32 (-value))
    else if sign = 0x2B then
      if digits = [] then none else parseDigits digits 0
    else parseDigits sv 0

namespace RespParser

/-- `buf[i]` -/
def byteAt (buf : Bytes) (i : ℕ) : Except Fault UInt8 :=
  match buf[i]? with
  | none => .error .undefined
  | some b => .ok b

def substr (buf : Bytes) (pos count : ℕ) : Except Fault Bytes :=
  if pos ≤ buf.length then .ok ((buf.drop pos).take count)
  else .error (.exception (lit "basic_string_view::substr"))

abbrev findCrlf : Bytes → Option ℕ := Library.Terminator.find 0x0D 0x0A

def parseLine (typeByte : UInt8) (invalid : Bytes) (make : Bytes → ℕ → RespValue) (buf : Bytes) :
    Except Fault (Option RespValue) := do
  if (← byteAt buf 0) ≠ typeByte then
    return some (.error invalid none)
  match findCrlf buf with
  | none => return none
  | some pos =>
    let value ← substr buf 1 (pos - 1)
    return some (make value (pos + 2))

def parseSimpleString : Bytes → Except Fault (Option RespValue) :=
  parseLine 0x2B (lit "ERR invalid simple string format") RespValue.simpleString

def parseError : Bytes → Except Fault (Option RespValue) :=
  parseLine 0x2D (lit "ERR invalid error format") (fun msg n => .error msg (some n))

def parseInteger (buf : Bytes) : Except Fault (Option RespValue) := do
  let invalid := RespValue.error (lit "ERR invalid integer format") none
  if (← byteAt buf 0) ≠ 0x3A then
    return some invalid
  if buf.length < 3 then
    return none
  match findCrlf buf with
  | none => return none
  | some pos =>
    match parseStringAsInt (← substr buf 1 (pos - 1)) with
    | none => return some invalid
    | some value => return some (.integer value (pos + 2))

def parseBulkString (buf : Bytes) : Except Fault (Option RespValue) := do
  let invalid := RespValue.error (lit "ERR invalid bulk string format") none
  if (← byteAt buf 0) ≠ 0x24 then
    return some invalid
  match findCrlf buf with
  | none => return none
  | some pos =>
    match parseStringAsInt (← substr buf 1 (pos - 1)) with
    | none => return some invalid
    | some length =>
      if length = -1 then
        return some (.nullBulk (pos + 2))
      if length < 0 then
        return some invalid
      let dataStart := pos + 2
      let totalBytes := dataStart + length.toNat + 2
      if buf.length < totalBytes then
        return none
      if (← byteAt buf (dataStart + length.toNat)) ≠ 0x0D then
        return some invalid
      if (← byteAt buf (dataStart + length.toNat + 1)) ≠ 0x0A then
        return some invalid
      let value ← substr buf dataStart length.toNat
      return some (.bulkString value totalBytes)

def parseElements (parse : Bytes → Except Fault (Option RespValue)) (buf : Bytes) :
    ℕ → ℕ → List RespValue → Except Fault (Option RespValue)
  | 0, currPos, elements => return some (.arrayFromParts elements currPos)
  | n + 1, currPos, elements => do
    match ← parse (← substr buf currPos buf.length) with
    | none => return none
    | some v =>
      match v.numRespBytes with
      | none => return some (.error (lit "ERR invalid array element") none)
      | some count => parseElements parse buf n (currPos + count) (elements ++ [v])

def parseArray (parse : Bytes → Except Fault (Option RespValue)) (buf : Bytes) :
    Except Fault (Option RespValue) := do
  let invalid := RespValue.error (lit "ERR invalid array format") none
  if (← byteAt buf 0) ≠ 0x2A then
    return some invalid
  match findCrlf buf with
  | none => return none
  | some pos =>
    match parseStringAsInt (← substr buf 1 (pos - 1)) with
    | none => return some invalid
    | some numElements =>
      if numElements = -1 then
        return some (.nullArray (pos + 2))
      if numElements < 0 then
        return some invalid
      parseElements parse buf numElements.toNat (pos + 2) []

def parseBody (parse : Bytes → Except Fault (Option RespValue)) (buf : Bytes) :
    Except Fault (Option RespValue) :=
  match buf with
  | [] => return none
  | typeByte :: _ =>
    if typeByte = 0x2B then parseSimpleString buf
    else if typeByte = 0x2D then parseError buf
    else if typeByte = 0x3A then parseInteger buf
    else if typeByte = 0x24 then parseBulkString buf
    else if typeByte = 0x2A then parseArray parse buf
    else return some (.error (lit "ERR unknown RESP type byte") none)

def parseFuel : ℕ → Bytes → Except Fault (Option RespValue)
  | 0, _ => .error .undefined
  | fuel + 1, buf => parseBody (parseFuel fuel) buf

/-- `RespParser::parse`. Every recursive call is on a shorter view, so the fuel
never runs out (`parse_eq`). -/
def parse (buf : Bytes) : Except Fault (Option RespValue) := parseFuel (buf.length + 1) buf

/-! The offsets of a view and the equations of the functions on it. -/

@[simp] theorem byteAt_cons_zero (b : UInt8) (buf : Bytes) : byteAt (b :: buf) 0 = .ok b := rfl

theorem byteAt_of_lt {buf : Bytes} {i : ℕ} (h : i < buf.length) : byteAt buf i = .ok buf[i] := by
  simp [byteAt, h]

theorem substr_of_le {buf : Bytes} {pos : ℕ} (h : pos ≤ buf.length) (count : ℕ) :
    substr buf pos count = .ok ((buf.drop pos).take count) := if_pos h

@[simp] theorem substr_cons_one (b : UInt8) (buf : Bytes) (count : ℕ) :
    substr (b :: buf) 1 count = .ok (buf.take count) := by
  simp [substr]

theorem findCrlf_bound {buf : Bytes} {pos : ℕ} (h : findCrlf buf = some pos) : pos + 2 ≤ buf.length :=
  Library.Terminator.find_bound h

/-- A terminator is not at the front of a buffer that starts with a type byte. -/
theorem findCrlf_pos {b : UInt8} {buf : Bytes} {pos : ℕ} (hb : b ≠ 0x0D)
    (h : findCrlf (b :: buf) = some pos) : 0 < pos :=
  Library.Terminator.find_pos hb h

theorem parseLine_cons (typeByte : UInt8) (invalid : Bytes) (make : Bytes → ℕ → RespValue)
    (buf : Bytes) :
    parseLine typeByte invalid make (typeByte :: buf) =
      .ok ((findCrlf (typeByte :: buf)).map fun pos => make (buf.take (pos - 1)) (pos + 2)) := by
  cases hpos : findCrlf (typeByte :: buf) <;>
    simp [parseLine, hpos, bind, Except.bind, pure, Except.pure]

theorem parseInteger_cons (buf : Bytes) :
    parseInteger (0x3A :: buf) =
      .ok (if buf.length < 2 then none else (findCrlf (0x3A :: buf)).map fun pos =>
        match parseStringAsInt (buf.take (pos - 1)) with
        | none => .error (lit "ERR invalid integer format") none
        | some value => .integer value (pos + 2)) := by
  have hlen : (0x3A :: buf).length < 3 ↔ buf.length < 2 := by
    rw [List.length_cons]
    omega
  by_cases hshort : buf.length < 2
  · simp only [parseInteger, byteAt_cons_zero, bind, Except.bind, pure, Except.pure, hlen, hshort,
      ne_eq, not_true_eq_false, if_false, if_true]
  · cases hpos : findCrlf (0x3A :: buf) with
    | none =>
      simp only [parseInteger, byteAt_cons_zero, bind, Except.bind, pure, Except.pure, hlen, hshort,
        hpos, ne_eq, not_true_eq_false, if_false, Option.map_none]
    | some pos =>
      cases hint : parseStringAsInt (buf.take (pos - 1)) <;>
        simp [parseInteger, bind, Except.bind, pure, Except.pure, Nat.not_lt.mp hshort,
          hshort, hpos, hint]

/-- What `parse_bulk_string` makes of a header that ends at `pos` and announces `length`. -/
def bulkPayload (buf : Bytes) (pos : ℕ) (length : ℤ) : Option RespValue :=
  let invalid := RespValue.error (lit "ERR invalid bulk string format") none
  let payload := (buf.drop (pos + 2)).take length.toNat
  if length = -1 then some (.nullBulk (pos + 2))
  else if length < 0 then some invalid
  else if buf.length < pos + 2 + length.toNat + 2 then none
  else if (buf.drop (pos + 2 + length.toNat)).take 2 = RespSerializer.crlf then
    some (.bulkString payload (pos + 2 + length.toNat + 2))
  else some invalid

theorem take_two_eq_crlf {buf : Bytes} {i : ℕ} (h : i + 1 < buf.length) :
    (buf.drop i).take 2 = RespSerializer.crlf ↔ buf[i] = 0x0D ∧ buf[i + 1] = 0x0A := by
  rw [List.drop_eq_getElem_cons (show i < buf.length by omega), List.drop_eq_getElem_cons h,
    List.take_succ_cons, List.take_succ_cons, List.take_zero,
    show RespSerializer.crlf = [0x0D, 0x0A] from rfl]
  simp only [List.cons.injEq, and_true]

theorem parseBulkString_cons (buf : Bytes) :
    parseBulkString (0x24 :: buf) =
      .ok (match findCrlf (0x24 :: buf) with
        | none => none
        | some pos =>
          match parseStringAsInt (buf.take (pos - 1)) with
          | none => some (.error (lit "ERR invalid bulk string format") none)
          | some length => bulkPayload (0x24 :: buf) pos length) := by
  cases hpos : findCrlf (0x24 :: buf) with
  | none => simp [parseBulkString, hpos, bind, Except.bind, pure, Except.pure]
  | some pos =>
    cases hint : parseStringAsInt (buf.take (pos - 1)) with
    | none => simp [parseBulkString, hpos, hint, bind, Except.bind, pure, Except.pure]
    | some length =>
      simp only [parseBulkString, hpos, byteAt_cons_zero, substr_cons_one, hint, bind, Except.bind,
        pure, Except.pure, bulkPayload]
      by_cases hnull : length = -1
      · simp [hnull]
      by_cases hneg : length < 0
      · simp [hnull, hneg]
      by_cases hlen : (0x24 :: buf).length < pos + 2 + length.toNat + 2
      · simp only [hnull, hneg, hlen, if_true, if_false, ne_eq, not_true_eq_false]
      · rw [byteAt_of_lt (show pos + 2 + length.toNat < (0x24 :: buf).length by omega),
          byteAt_of_lt (show pos + 2 + length.toNat + 1 < (0x24 :: buf).length by omega),
          substr_of_le (show pos + 2 ≤ (0x24 :: buf).length by omega)]
        simp only [hnull, hneg, hlen, if_false, ne_eq, not_true_eq_false,
          take_two_eq_crlf (show pos + 2 + length.toNat + 1 < (0x24 :: buf).length by omega)]
        by_cases hcr : (0x24 :: buf)[pos + 2 + length.toNat] = 0x0D <;>
          by_cases hlf : (0x24 :: buf)[pos + 2 + length.toNat + 1] = 0x0A <;>
          simp only [hcr, hlf, not_true_eq_false, not_false_eq_true, if_true, if_false, and_self,
            false_and, and_false]

theorem parseArray_cons (parse : Bytes → Except Fault (Option RespValue)) (buf : Bytes) :
    parseArray parse (0x2A :: buf) =
      match findCrlf (0x2A :: buf) with
      | none => .ok none
      | some pos =>
        match parseStringAsInt (buf.take (pos - 1)) with
        | none => .ok (some (.error (lit "ERR invalid array format") none))
        | some n =>
          if n = -1 then .ok (some (.nullArray (pos + 2)))
          else if n < 0 then .ok (some (.error (lit "ERR invalid array format") none))
          else parseElements parse (0x2A :: buf) n.toNat (pos + 2) [] := by
  cases hpos : findCrlf (0x2A :: buf) with
  | none => simp [parseArray, hpos, bind, Except.bind, pure, Except.pure]
  | some pos =>
    cases hint : parseStringAsInt (buf.take (pos - 1)) <;>
      simp [parseArray, hpos, hint, bind, Except.bind, pure, Except.pure]

theorem substr_rest {buf : Bytes} {pos : ℕ} (h : pos ≤ buf.length) :
    substr buf pos buf.length = .ok (buf.drop pos) := by
  rw [substr_of_le h, List.take_of_length_le (by rw [List.length_drop]; omega)]

/-! One round of the loop of `parse_array`, by the answer of the call on the next element. -/

section
variable {parse : Bytes → Except Fault (Option RespValue)} {buf : Bytes} {currPos : ℕ}

theorem parseElements_incomplete (n : ℕ) (elements : List RespValue) (hpos : currPos ≤ buf.length)
    (h : parse (buf.drop currPos) = .ok none) :
    parseElements parse buf (n + 1) currPos elements = .ok none := by
  simp [parseElements, substr_rest hpos, h, bind, Except.bind, pure, Except.pure]

theorem parseElements_unset (n : ℕ) (elements : List RespValue) (hpos : currPos ≤ buf.length)
    {v : RespValue} (h : parse (buf.drop currPos) = .ok (some v)) (hv : v.numRespBytes = none) :
    parseElements parse buf (n + 1) currPos elements =
      .ok (some (.error (lit "ERR invalid array element") none)) := by
  simp [parseElements, substr_rest hpos, h, hv, bind, Except.bind, pure, Except.pure]

theorem parseElements_next (n : ℕ) (elements : List RespValue) (hpos : currPos ≤ buf.length)
    {v : RespValue} {count : ℕ} (h : parse (buf.drop currPos) = .ok (some v))
    (hv : v.numRespBytes = some count) :
    parseElements parse buf (n + 1) currPos elements =
      parseElements parse buf n (currPos + count) (elements ++ [v]) := by
  simp [parseElements, substr_rest hpos, h, hv, bind, Except.bind]

end

/-! Every recursive call is on a shorter view, and every count stays inside the buffer. -/

theorem parseElements_congr {p q : Bytes → Except Fault (Option RespValue)} {buf : Bytes}
    (h : ∀ view, view.length < buf.length → p view = q view) (n : ℕ) {currPos : ℕ}
    (hpos : 0 < currPos) (elements : List RespValue) :
    parseElements p buf n currPos elements = parseElements q buf n currPos elements := by
  induction n generalizing currPos elements with
  | zero => rfl
  | succ n ih =>
    by_cases hle : currPos ≤ buf.length
    · have hview : p (buf.drop currPos) = q (buf.drop currPos) := by
        by_cases hbuf : buf = []
        · rw [hbuf] at hle
          simp only [List.length_nil] at hle
          omega
        · apply h
          have := List.length_pos_iff.mpr hbuf
          rw [List.length_drop]
          omega
      simp only [parseElements, substr_rest hle, bind, Except.bind, hview]
      split
      · rfl
      · split
        · rfl
        · split
          · rfl
          · exact ih (by omega) _
    · simp [parseElements, substr, hle, bind, Except.bind]

theorem parseBody_congr {p q : Bytes → Except Fault (Option RespValue)} {buf : Bytes}
    (h : ∀ view, view.length < buf.length → p view = q view) : parseBody p buf = parseBody q buf := by
  cases buf with
  | nil => rfl
  | cons b buf =>
    have harray : b = 0x2A → parseArray p (b :: buf) = parseArray q (b :: buf) := by
      rintro rfl
      rw [parseArray_cons, parseArray_cons]
      split
      · rfl
      · split
        · rfl
        · split_ifs
          · rfl
          · rfl
          · exact parseElements_congr h _ (by omega) _
    by_cases hb : b = 0x2A
    · simp only [parseBody, harray hb]
    · simp only [parseBody, hb, if_false]

theorem parseFuel_eq {n m : ℕ} {buf : Bytes} (hn : buf.length < n) (hm : buf.length < m) :
    parseFuel n buf = parseFuel m buf := by
  induction n generalizing m buf with
  | zero => omega
  | succ n ih =>
    cases m with
    | zero => omega
    | succ m =>
      rw [parseFuel, parseFuel]
      apply parseBody_congr
      intro view hview
      exact ih (by omega) (by omega)

/-- The recursion of `RespParser::parse`. -/
theorem parse_eq (buf : Bytes) : parse buf = parseBody parse buf := by
  rw [parse, parseFuel]
  apply parseBody_congr
  intro view hview
  exact parseFuel_eq hview (Nat.lt_succ_self _)

/-- What a value that was read from a buffer claims: its count of bytes, if it is set, lies
inside the buffer and covers its string, and the strings of its elements fit. -/
structure ReadFrom (buf : Bytes) (v : RespValue) : Prop where
  count : ∀ n, v.numRespBytes = some n → 3 ≤ n ∧ n ≤ buf.length ∧ v.strValue.length ≤ n
  elements : ∀ e ∈ v.array, e.strValue.length ≤ buf.length

/-- A call that returns. -/
def Within (buf : Bytes) (r : Except Fault (Option RespValue)) : Prop :=
  ∃ o, r = .ok o ∧ ∀ v, o = some v → ReadFrom buf v

theorem within_none (buf : Bytes) : Within buf (.ok none) := ⟨none, rfl, by simp⟩

theorem within_unset (buf : Bytes) (msg : Bytes) : Within buf (.ok (some (.error msg none))) := by
  refine ⟨_, rfl, ?_⟩
  rintro v ⟨⟩
  exact ⟨by simp [RespValue.error, RespValue.numRespBytes], by simp [RespValue.error, RespValue.array]⟩

theorem within_array {buf : Bytes} {elements : List RespValue} {n : ℕ} (hlo : 3 ≤ n)
    (hhi : n ≤ buf.length) (helements : ∀ e ∈ elements, e.strValue.length ≤ buf.length) :
    Within buf (.ok (some (.arrayFromParts elements n))) := by
  refine ⟨_, rfl, ?_⟩
  rintro v ⟨⟩
  refine ⟨?_, helements⟩
  rintro m ⟨⟩
  exact ⟨hlo, hhi, Nat.zero_le _⟩

theorem within_scalar {buf : Bytes} {v : RespValue} {n : ℕ} (hv : v.numRespBytes = some n)
    (harray : v.array = []) (hlo : 3 ≤ n) (hhi : n ≤ buf.length) (hstr : v.strValue.length ≤ n) :
    Within buf (.ok (some v)) := by
  refine ⟨_, rfl, ?_⟩
  rintro w ⟨⟩
  refine ⟨?_, by simp [harray]⟩
  intro m hm
  rw [hv] at hm
  cases hm
  exact ⟨hlo, hhi, hstr⟩

theorem within_parseLine {typeByte : UInt8} (hb : typeByte ≠ 0x0D) (invalid : Bytes)
    {make : Bytes → ℕ → RespValue} (hcount : ∀ s n, (make s n).numRespBytes = some n)
    (hstr : ∀ s n, (make s n).strValue = s) (harray : ∀ s n, (make s n).array = []) (buf : Bytes) :
    Within (typeByte :: buf) (parseLine typeByte invalid make (typeByte :: buf)) := by
  rw [parseLine_cons]
  cases hpos : findCrlf (typeByte :: buf) with
  | none => exact within_none _
  | some pos =>
    have := findCrlf_pos hb hpos
    refine within_scalar (hcount _ _) (harray _ _) (by omega) (findCrlf_bound hpos) ?_
    rw [hstr, List.length_take]
    omega

theorem within_parseInteger (buf : Bytes) : Within (0x3A :: buf) (parseInteger (0x3A :: buf)) := by
  rw [parseInteger_cons]
  split_ifs
  · exact within_none _
  · cases hpos : findCrlf (0x3A :: buf) with
    | none => exact within_none _
    | some pos =>
      have := findCrlf_pos (by decide) hpos
      simp only [Option.map_some]
      split
      · exact within_unset _ _
      · exact within_scalar rfl rfl (by omega) (findCrlf_bound hpos) (Nat.zero_le _)

theorem within_parseBulkString (buf : Bytes) :
    Within (0x24 :: buf) (parseBulkString (0x24 :: buf)) := by
  rw [parseBulkString_cons]
  cases hpos : findCrlf (0x24 :: buf) with
  | none => exact within_none _
  | some pos =>
    have := findCrlf_pos (by decide) hpos
    dsimp only
    split
    · exact within_unset _ _
    · rw [bulkPayload]
      split_ifs with hnull hneg hlen
      · exact within_scalar rfl rfl (by omega) (findCrlf_bound hpos) (Nat.zero_le _)
      · exact within_unset _ _
      · exact within_none _
      · refine within_scalar rfl rfl (by omega) (by omega) ?_
        rw [RespValue.bulkString, RespValue.strValue, List.length_take]
        omega
      · exact within_unset _ _

theorem within_parseElements {p : Bytes → Except Fault (Option RespValue)} {buf : Bytes}
    (h : ∀ view, view.length < buf.length → Within view (p view)) (n : ℕ) {currPos : ℕ}
    (hlo : 3 ≤ currPos) (hhi : currPos ≤ buf.length) {elements : List RespValue}
    (helements : ∀ e ∈ elements, e.strValue.length ≤ buf.length) :
    Within buf (parseElements p buf n currPos elements) := by
  induction n generalizing currPos elements with
  | zero => exact within_array hlo hhi helements
  | succ n ih =>
    have hdrop : (buf.drop currPos).length = buf.length - currPos := List.length_drop
    obtain ⟨o, ho, hread⟩ := h (buf.drop currPos) (by omega)
    cases o with
    | none =>
      rw [parseElements_incomplete n elements hhi ho]
      exact within_none _
    | some v =>
      cases hv : v.numRespBytes with
      | none =>
        rw [parseElements_unset n elements hhi ho hv]
        exact within_unset _ _
      | some count =>
        obtain ⟨-, hcount, hstr⟩ := (hread v rfl).count count hv
        rw [parseElements_next n elements hhi ho hv]
        apply ih (by omega) (by omega)
        intro e he
        rcases List.mem_append.mp he with he | he
        · exact helements e he
        · rw [List.mem_singleton.mp he]
          omega

theorem within_parseBody {p : Bytes → Except Fault (Option RespValue)} {buf : Bytes}
    (h : ∀ view, view.length < buf.length → Within view (p view)) : Within buf (parseBody p buf) := by
  cases buf with
  | nil => exact within_none _
  | cons b buf =>
    rw [parseBody]
    split_ifs with hplus hminus hcolon hdollar hstar
    · rw [hplus]
      exact within_parseLine (by decide) _ (fun _ _ => rfl) (fun _ _ => rfl) (fun _ _ => rfl) buf
    · rw [hminus]
      exact within_parseLine (by decide) _ (fun _ _ => rfl) (fun _ _ => rfl) (fun _ _ => rfl) buf
    · rw [hcolon]
      exact within_parseInteger buf
    · rw [hdollar]
      exact within_parseBulkString buf
    · subst hstar
      rw [parseArray_cons]
      cases hpos : findCrlf (0x2A :: buf) with
      | none => exact within_none _
      | some pos =>
        have := findCrlf_pos (by decide) hpos
        dsimp only
        split
        · exact within_unset _ _
        · split_ifs
          · exact within_scalar rfl rfl (by omega) (findCrlf_bound hpos) (Nat.zero_le _)
          · exact within_unset _ _
          · exact within_parseElements h _ (by omega) (findCrlf_bound hpos) (by simp)
    · exact within_unset _ _

/-- `parse` always returns, and reads no more bytes than there are. -/
theorem within_parse (buf : Bytes) : Within buf (parse buf) := by
  generalize hn : buf.length = n
  induction n using Nat.strongRecOn generalizing buf with
  | ind n ih =>
    rw [parse_eq]
    apply within_parseBody
    intro view hview
    exact ih view.length (by omega) view rfl

end RespParser
end Chrono
