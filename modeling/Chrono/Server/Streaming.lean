import Chrono.Library.Streaming
import Chrono.Server.RespParser

/-!
# The RESP parser is a streaming parser

The parser reads a line, and by the text of that line a payload or elements. What
it makes of the front of a stream is final, or an extension completes it.
-/
namespace Chrono
open Library

namespace RespParser

/-- The answer of `parse`, which always returns. -/
def read (buf : Bytes) : Option RespValue := (parse buf).toOption.join

theorem parse_eq_read (buf : Bytes) : parse buf = .ok (read buf) := by
  obtain ⟨o, ho, -⟩ := within_parse buf
  rw [read, ho]
  rfl

theorem read_eq_of_parse {buf : Bytes} {o : Option RespValue} (h : parse buf = .ok o) :
    read buf = o := by
  rw [read, h]
  rfl

/-! The part of each parser that follows the line, from the line `h` and what comes after it. -/

def afterLine (make : Bytes → ℕ → RespValue) (h : Bytes) (_ : Bytes) : Option RespValue :=
  some (make h.tail (h.length + 2))

def afterInteger (h : Bytes) (_ : Bytes) : Option RespValue :=
  match parseStringAsInt h.tail with
  | none => some (.error (lit "ERR invalid integer format") none)
  | some value => some (.integer value (h.length + 2))

/-- The bulk string in a payload of `length` bytes and a terminator. -/
def bulkValue (offset length : ℕ) (payload : Bytes) : RespValue :=
  if payload.drop length = RespSerializer.crlf then
    .bulkString (payload.take length) (offset + (length + 2))
  else .error (lit "ERR invalid bulk string format") none

def afterBulk (h rest : Bytes) : Option RespValue :=
  match parseStringAsInt h.tail with
  | none => some (.error (lit "ERR invalid bulk string format") none)
  | some length =>
    if length = -1 then some (.nullBulk (h.length + 2))
    else if length < 0 then some (.error (lit "ERR invalid bulk string format") none)
    else if rest.length < length.toNat + 2 then none
    else some (bulkValue (h.length + 2) length.toNat (rest.take (length.toNat + 2)))

def readElements : ℕ → ℕ → List RespValue → Bytes → Option RespValue
  | 0, offset, elements, _ => some (.arrayFromParts elements offset)
  | n + 1, offset, elements, rest => (read rest).bind fun v =>
    match v.numRespBytes with
    | none => some (.error (lit "ERR invalid array element") none)
    | some count => readElements n (offset + count) (elements ++ [v]) (rest.drop count)

def afterArray (h rest : Bytes) : Option RespValue :=
  match parseStringAsInt h.tail with
  | none => some (.error (lit "ERR invalid array format") none)
  | some n =>
    if n = -1 then some (.nullArray (h.length + 2))
    else if n < 0 then some (.error (lit "ERR invalid array format") none)
    else readElements n.toNat (h.length + 2) [] rest

/-- What follows the line, by its type byte. -/
def afterHeader (typeByte : UInt8) : Bytes → Bytes → Option RespValue :=
  if typeByte = 0x2B then afterLine RespValue.simpleString
  else if typeByte = 0x2D then afterLine (fun msg n => .error msg (some n))
  else if typeByte = 0x3A then afterInteger
  else if typeByte = 0x24 then afterBulk
  else afterArray

def isTypeByte (b : UInt8) : Bool := b == 0x2B || b == 0x2D || b == 0x3A || b == 0x24 || b == 0x2A

theorem parseElements_eq {buf : Bytes} (n : ℕ) {currPos : ℕ} (hpos : currPos ≤ buf.length)
    (elements : List RespValue) :
    parseElements parse buf n currPos elements =
      .ok (readElements n currPos elements (buf.drop currPos)) := by
  induction n generalizing currPos elements with
  | zero => rfl
  | succ n ih =>
    obtain ⟨o, ho, hread⟩ := within_parse (buf.drop currPos)
    have hr := read_eq_of_parse ho
    cases o with
    | none =>
      rw [parseElements_incomplete n elements hpos ho, readElements, hr]
      rfl
    | some v =>
      cases hv : v.numRespBytes with
      | none =>
        rw [parseElements_unset n elements hpos ho hv, readElements, hr]
        simp [hv]
      | some count =>
        obtain ⟨-, hcount, -⟩ := (hread v rfl).count count hv
        rw [List.length_drop] at hcount
        rw [parseElements_next n elements hpos ho hv, ih (by omega), readElements, hr]
        simp [hv, List.drop_drop]

theorem tail_take {b : UInt8} {buf : Bytes} {pos : ℕ} (hpos : 0 < pos) :
    ((b :: buf).take pos).tail = buf.take (pos - 1) := by
  obtain ⟨q, rfl⟩ : ∃ q, pos = q + 1 := ⟨pos - 1, by omega⟩
  rw [List.take_succ_cons, List.tail_cons, Nat.add_sub_cancel]

theorem bulkPayload_eq {buf : Bytes} {pos : ℕ} (hle : pos + 2 ≤ buf.length) (length : ℤ) :
    bulkPayload buf pos length =
      if length = -1 then some (.nullBulk (pos + 2))
      else if length < 0 then some (.error (lit "ERR invalid bulk string format") none)
      else if (buf.drop (pos + 2)).length < length.toNat + 2 then none
      else some (bulkValue (pos + 2) length.toNat
        ((buf.drop (pos + 2)).take (length.toNat + 2))) := by
  have hshort : (buf.drop (pos + 2)).length < length.toNat + 2 ↔
      buf.length < pos + 2 + length.toNat + 2 := by
    rw [List.length_drop]
    omega
  have hend : ((buf.drop (pos + 2)).take (length.toNat + 2)).drop length.toNat =
      (buf.drop (pos + 2 + length.toNat)).take 2 := by
    rw [List.drop_take, List.drop_drop, Nat.add_sub_cancel_left]
  have hbody : ((buf.drop (pos + 2)).take (length.toNat + 2)).take length.toNat =
      (buf.drop (pos + 2)).take length.toNat := by
    rw [List.take_take, Nat.min_eq_left (by omega)]
  simp only [bulkPayload, bulkValue, hshort, hend, hbody, Nat.add_assoc]
  split_ifs <;> rfl

/-- A value is read line first. -/
theorem read_cons {b : UInt8} (hb : isTypeByte b = true) (buf : Bytes) :
    read (b :: buf) = (findCrlf (b :: buf)).bind fun pos =>
      afterHeader b ((b :: buf).take pos) ((b :: buf).drop (pos + 2)) := by
  apply read_eq_of_parse
  rw [parse_eq, parseBody]
  have hcr : b ≠ 0x0D := by
    rintro rfl
    simp [isTypeByte] at hb
  simp only [isTypeByte, Bool.or_eq_true, beq_iff_eq] at hb
  cases hpos : findCrlf (b :: buf) with
  | none =>
    rcases hb with (((rfl | rfl) | rfl) | rfl) | rfl
    · simp [parseSimpleString, parseLine_cons, hpos]
    · simp [parseError, parseLine_cons, hpos]
    · simp [parseInteger_cons, hpos]
    · simp [parseBulkString_cons, hpos]
    · simp [parseArray_cons, hpos]
  | some pos =>
    have hle := findCrlf_bound hpos
    have htail : ((b :: buf).take pos).tail = buf.take (pos - 1) := tail_take (findCrlf_pos hcr hpos)
    have hlen : ((b :: buf).take pos).length = pos := List.length_take_of_le (by omega)
    rw [Option.bind_some]
    generalize (b :: buf).take pos = h at htail hlen
    rcases hb with (((rfl | rfl) | rfl) | rfl) | rfl
    · rw [if_pos rfl, parseSimpleString, parseLine_cons, hpos, Option.map_some, ← htail, ← hlen]
      rfl
    · rw [if_neg (by decide), if_pos rfl, parseError, parseLine_cons, hpos, Option.map_some,
        ← htail, ← hlen]
      rfl
    · have hlong : ¬ buf.length < 2 := by
        have := findCrlf_pos hcr hpos
        rw [List.length_cons] at hle
        omega
      rw [if_neg (by decide), if_neg (by decide), if_pos rfl, parseInteger_cons, if_neg hlong, hpos,
        Option.map_some, ← htail, ← hlen, show afterHeader 0x3A = afterInteger from rfl, afterInteger]
      cases parseStringAsInt h.tail <;> rfl
    · rw [if_neg (by decide), if_neg (by decide), if_neg (by decide), if_pos rfl,
        parseBulkString_cons, hpos, show afterHeader 0x24 =
          afterBulk from rfl, afterBulk, htail, hlen]
      dsimp only
      cases parseStringAsInt (buf.take (pos - 1)) with
      | none => rfl
      | some length => exact congrArg Except.ok (bulkPayload_eq hle length)
    · rw [if_neg (by decide), if_neg (by decide), if_neg (by decide), if_neg (by decide), if_pos rfl,
        parseArray_cons, hpos, show afterHeader 0x2A = afterArray from rfl, afterArray, htail, hlen]
      dsimp only
      cases parseStringAsInt (buf.take (pos - 1)) with
      | none => rfl
      | some n =>
        dsimp only
        rw [parseElements_eq _ hle]
        split_ifs <;> rfl

theorem read_other {b : UInt8} (hb : isTypeByte b = false) (buf : Bytes) :
    read (b :: buf) = some (.error (lit "ERR unknown RESP type byte") none) := by
  apply read_eq_of_parse
  simp only [isTypeByte, Bool.or_eq_false_iff, beq_eq_false_iff_ne] at hb
  obtain ⟨⟨⟨⟨hplus, hminus⟩, hcolon⟩, hdollar⟩, hstar⟩ := hb
  rw [parse_eq, parseBody, if_neg hplus, if_neg hminus, if_neg hcolon, if_neg hdollar, if_neg hstar]
  rfl

theorem read_nil : read [] = none := read_eq_of_parse (by rw [parse_eq]; rfl)

/-! ## Streaming -/

abbrev Streams (offset : ℕ) (p : Bytes → Option RespValue) (buf : Bytes) : Prop :=
  StreamingAt RespValue.numRespBytes offset p buf

theorem streams_error {msg : Bytes} {offset : ℕ} {buf : Bytes} :
    Streams offset (fun _ => some (.error msg none)) buf :=
  .const fun _ hn => absurd hn (by simp [RespValue.error, RespValue.numRespBytes])

theorem streams_counted {v : RespValue} {offset : ℕ} (hv : v.numRespBytes = some offset)
    {buf : Bytes} :
    Streams offset (fun _ => some v) buf := .const fun _ hn => Option.some.inj (hn.symm.trans hv)

theorem streams_afterInteger (h buf : Bytes) : Streams (h.length + 2) (afterInteger h) buf := by
  unfold afterInteger
  cases parseStringAsInt h.tail with
  | none => exact streams_error
  | some value => exact streams_counted rfl

theorem streams_afterBulk (h buf : Bytes) : Streams (h.length + 2) (afterBulk h) buf := by
  unfold afterBulk
  cases parseStringAsInt h.tail with
  | none => exact streams_error
  | some length =>
    dsimp only
    split_ifs
    · exact streams_counted rfl
    · exact streams_error
    · apply StreamingAt.payload 0
      intro s n hn
      unfold bulkValue at hn
      split_ifs at hn
      · exact (Option.some.inj hn).symm
      · cases hn

/-- The loop of `parse_array`, where the calls on the rest of the stream are streaming. -/
theorem streams_readElements (n : ℕ) {offset : ℕ} {elements : List RespValue} {buf : Bytes}
    (h : ∀ view, view.length ≤ buf.length → Streams 0 read view) :
    Streams offset (readElements n offset elements) buf := by
  induction n generalizing offset elements buf with
  | zero => exact streams_counted rfl
  | succ n ih =>
    change Streams offset
      (thenRest read RespValue.numRespBytes (fun _ => .error (lit "ERR invalid array element") none)
      fun v count => readElements n (offset + count) (elements ++ [v])) buf
    apply StreamingAt.andThen (h buf (le_refl _))
    · exact fun _ _ => rfl
    · intro v count _ _
      apply ih
      intro view hview
      exact h view (Nat.le_trans hview (by rw [List.length_drop]; omega))
    · intro v count _
      apply ih
      intro view hview
      exact h view (Nat.le_trans hview (Nat.zero_le _))

theorem streams_afterHeader {b : UInt8} {buf : Bytes}
    (ih : ∀ view, view.length ≤ buf.length → Streams 0 read view) (h : Bytes) :
    Streams (h.length + 2) (afterHeader b h) buf := by
  unfold afterHeader
  split_ifs
  · exact streams_counted rfl
  · exact streams_counted rfl
  · exact streams_afterInteger h buf
  · exact streams_afterBulk h buf
  · unfold afterArray
    cases parseStringAsInt h.tail with
    | none => exact streams_error
    | some n =>
      dsimp only
      split_ifs
      · exact streams_counted rfl
      · exact streams_error
      · exact streams_readElements n.toNat ih

theorem streams_nil : Streams 0 read [] where
  stable v hv := absurd hv (by simp [read_nil])
  counted v n hv := absurd hv (by simp [read_nil])
  settled v n hv := absurd hv (by simp [read_nil])
  completes _ := ⟨[0], .error (lit "ERR unknown RESP type byte") none, fun t => read_other rfl t,
    fun n hn => by cases hn⟩

/-- `parse` is streaming, by induction on the length of what has arrived. -/
theorem streams_read (buf : Bytes) : Streams 0 read buf := by
  generalize hn : buf.length = n
  induction n using Nat.strongRecOn generalizing buf with
  | ind n ih =>
    cases buf with
    | nil => exact streams_nil
    | cons b buf =>
      cases hb : isTypeByte b with
      | false =>
        have herror : Streams 0 (fun _ => some (.error (lit "ERR unknown RESP type byte") none))
            (b :: buf) :=
          streams_error
        apply herror.congr_head
        · intro v k hv hk
          obtain rfl := Option.some.inj hv
          cases hk
        · simp
        · intro buf' hhead
          obtain ⟨t, rfl⟩ := List.head?_eq_some_iff.mp hhead
          exact read_other hb t
      | true =>
        have hline : Streams 0 (fun buf => (findCrlf buf).bind fun pos =>
            afterHeader b (buf.take pos) (buf.drop (pos + 2))) (b :: buf) := by
          apply StreamingAt.line (by decide)
          intro h rest hrest
          apply streams_afterHeader
          intro view hview
          have hshort : view.length < n := by
            rw [← hn, List.length_cons] at *
            rcases hrest with rfl | hrest
            · rw [List.length_nil] at hview
              omega
            · omega
          exact ih view.length hshort view rfl
        apply hline.congr_head
        · intro v k hv hk
          exact hline.positive rfl hv hk
        · simp
        · intro buf' hhead
          obtain ⟨t, rfl⟩ := List.head?_eq_some_iff.mp hhead
          exact read_cons hb t

/-- For every buffer: what was parsed stays parsed, whatever follows; a value that counts `n`
bytes was read from the first `n` alone, and not from less; and where more input is
wanted, some input completes a value. -/
theorem parse_streaming (b : Bytes) :
    (∀ v, parse b = .ok (some v) → ∀ s, parse (b ++ s) = .ok (some v)) ∧
      (∀ v n, parse b = .ok (some v) → v.numRespBytes = some n →
        n ≤ b.length ∧ parse (b.take n) = .ok (some v) ∧ ∀ m < n, parse (b.take m) = .ok none) ∧
      (parse b = .ok none → ∃ s v, parse (b ++ s) = .ok (some v)) := by
  have hb := streams_read b
  refine ⟨?_, ?_, ?_⟩
  · intro v hv s
    rw [parse_eq_read, hb.stable v (read_eq_of_parse hv) s]
  · intro v n hv hn
    have hread := read_eq_of_parse hv
    have hle := (hb.counted v n hread hn).2
    refine ⟨by omega, ?_, ?_⟩
    · rw [parse_eq_read, hb.settled v n hread hn n (by omega)]
    · intro m hm
      rw [parse_eq_read, StreamingAt.shorter streams_read hread hn hm]
  · intro hnone
    obtain ⟨s, v, hs, -⟩ := hb.completes (read_eq_of_parse hnone)
    refine ⟨s, v, ?_⟩
    have hread := hs []
    rw [List.append_nil] at hread
    rw [parse_eq_read, hread]

end RespParser
end Chrono
