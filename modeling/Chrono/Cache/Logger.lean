import Chrono.Cache.Event
import Chrono.KvStore.Table

/-!
# The event logger and the topic it produces to

Every event takes the next sequence number of its key before the producer
serialises it; `dump()` of the JSON library throws on a string that is not
valid UTF-8, in which case nothing is produced.
-/
namespace Chrono

private def isContinuation (b : UInt8) : Bool := 0x80 ≤ b && b < 0xC0

/-- Second byte of a three-byte sequence: no overlong form, no surrogate. -/
private def secondOfThree (a b : UInt8) : Bool :=
  isContinuation b && (a != 0xE0 || 0xA0 ≤ b) && (a != 0xED || b < 0xA0)

/-- Second byte of a four-byte sequence: no overlong form, at most U+10FFFF. -/
private def secondOfFour (a b : UInt8) : Bool :=
  isContinuation b && (a != 0xF0 || 0x90 ≤ b) && (a != 0xF4 || b < 0x90)

def validUtf8 : Bytes → Bool
  | [] => true
  | a :: s₁ =>
    if a < 0x80 then validUtf8 s₁
    else match s₁ with
      | [] => false
      | b :: s₂ =>
        if 0xC2 ≤ a && a < 0xE0 then isContinuation b && validUtf8 s₂
        else match s₂ with
          | [] => false
          | c :: s₃ =>
            if 0xE0 ≤ a && a < 0xF0 then secondOfThree a b && isContinuation c && validUtf8 s₃
            else match s₃ with
              | [] => false
              | d :: s₄ =>
                0xF0 ≤ a && a < 0xF5 && secondOfFour a b && isContinuation c && isContinuation d &&
                  validUtf8 s₄

theorem validUtf8_one {a : UInt8} (ha : a.toNat < 0x80) (s : Bytes) :
    validUtf8 (a :: s) = validUtf8 s := by
  rw [validUtf8.eq_def]
  simp only [UInt8.lt_iff_toNat_lt, UInt8.reduceToNat, ha, if_true]

theorem validUtf8_two {a b : UInt8} (ha : 0xC2 ≤ a.toNat ∧ a.toNat < 0xE0)
    (hb : 0x80 ≤ b.toNat ∧ b.toNat < 0xC0) (s : Bytes) : validUtf8 (a :: b :: s) = validUtf8 s := by
  have h₁ : ¬ a.toNat < 0x80 := by omega
  rw [validUtf8.eq_def]
  simp [isContinuation, UInt8.lt_iff_toNat_lt, UInt8.le_iff_toNat_le, h₁, ha, hb]

theorem validUtf8_three {a b c : UInt8} (ha : 0xE0 ≤ a.toNat ∧ a.toNat < 0xF0)
    (hb : 0x80 ≤ b.toNat ∧ b.toNat < 0xC0) (hlow : a.toNat = 0xE0 → 0xA0 ≤ b.toNat)
    (hhigh : a.toNat = 0xED → b.toNat < 0xA0) (hc : 0x80 ≤ c.toNat ∧ c.toNat < 0xC0) (s : Bytes) :
    validUtf8 (a :: b :: c :: s) = validUtf8 s := by
  have h₁ : ¬ a.toNat < 0x80 := by omega
  have h₂ : ¬ a.toNat < 0xE0 := by omega
  have hsecond : secondOfThree a b = true := by
    simp only [secondOfThree, isContinuation, UInt8.le_iff_toNat_le, UInt8.lt_iff_toNat_lt,
      UInt8.reduceToNat, Bool.and_eq_true, Bool.or_eq_true, bne_iff_ne, decide_eq_true_eq, ne_eq,
      ← UInt8.toNat_inj]
    omega
  rw [validUtf8.eq_def]
  simp [isContinuation, hsecond, UInt8.lt_iff_toNat_lt, UInt8.le_iff_toNat_le, h₁, h₂, ha, hc]

theorem validUtf8_four {a b c d : UInt8} (ha : 0xF0 ≤ a.toNat ∧ a.toNat < 0xF5)
    (hb : 0x80 ≤ b.toNat ∧ b.toNat < 0xC0) (hlow : a.toNat = 0xF0 → 0x90 ≤ b.toNat)
    (hhigh : a.toNat = 0xF4 → b.toNat < 0x90) (hc : 0x80 ≤ c.toNat ∧ c.toNat < 0xC0)
    (hd : 0x80 ≤ d.toNat ∧ d.toNat < 0xC0) (s : Bytes) :
    validUtf8 (a :: b :: c :: d :: s) = validUtf8 s := by
  have h₁ : ¬ a.toNat < 0x80 := by omega
  have h₂ : ¬ a.toNat < 0xE0 := by omega
  have h₃ : ¬ a.toNat < 0xF0 := by omega
  have hsecond : secondOfFour a b = true := by
    simp only [secondOfFour, isContinuation, UInt8.le_iff_toNat_le, UInt8.lt_iff_toNat_lt,
      UInt8.reduceToNat, Bool.and_eq_true, Bool.or_eq_true, bne_iff_ne, decide_eq_true_eq, ne_eq,
      ← UInt8.toNat_inj]
    omega
  rw [validUtf8.eq_def]
  simp [isContinuation, hsecond, UInt8.lt_iff_toNat_lt, UInt8.le_iff_toNat_le, h₁, h₂, h₃, ha, hc, hd]

theorem validUtf8_utf8EncodeChar (c : Char) (s : Bytes) :
    validUtf8 (String.utf8EncodeChar c ++ s) = validUtf8 s := by
  have hvalid : c.val.toNat < 0xD800 ∨ 0xDFFF < c.val.toNat ∧ c.val.toNat < 0x110000 := c.valid
  rw [String.utf8EncodeChar]
  generalize c.val.toNat = v at hvalid ⊢
  split_ifs with h₁ h₂ h₃
  · apply validUtf8_one
    simp
    omega
  · apply validUtf8_two <;> simp <;> omega
  · apply validUtf8_three <;> simp <;> omega
  · apply validUtf8_four <;> simp <;> omega

/-- The JSON library: the text of the `type_error` that `dump()` throws on a
string, which it does exactly when the string is not valid UTF-8. -/
structure JsonLib where
  typeError : Bytes → Option Bytes
  typeError_eq_none : ∀ s, typeError s = none ↔ validUtf8 s = true

namespace JsonLib

/-- A library that reports every invalid string with one text. -/
def reference : JsonLib where
  typeError s :=
    if validUtf8 s then none else some (lit "[json.exception.type_error.316] invalid UTF-8 byte")
  typeError_eq_none s := by cases validUtf8 s <;> simp

/-- The object's strings are visited in key order, `"key"` before `"value"`; the
type name is ASCII. -/
def dumpStrings (json : JsonLib) (key value : Bytes) : Except Fault Unit :=
  match json.typeError key with
  | some what => .error (.exception what)
  | none =>
    match json.typeError value with
    | some what => .error (.exception what)
    | none => .ok ()

def dump (json : JsonLib) (event : CacheEvent) : Except Fault Unit :=
  json.dumpStrings event.key event.value

/-- `dump()` accepts a key and a value. -/
def dumpable (json : JsonLib) (key value : Bytes) : Bool :=
  (json.typeError key).isNone && (json.typeError value).isNone

theorem dumpStrings_of_dumpable {json : JsonLib} {key value : Bytes}
    (h : json.dumpable key value = true) : json.dumpStrings key value = .ok () := by
  simp only [dumpable, Bool.and_eq_true, Option.isNone_iff_eq_none] at h
  simp [dumpStrings, h.1, h.2]

theorem dumpStrings_of_not_dumpable {json : JsonLib} {key value : Bytes}
    (h : json.dumpable key value = false) :
    ∃ what, json.dumpStrings key value = .error (.exception what) := by
  cases hk : json.typeError key with
  | some what => exact ⟨what, by simp [dumpStrings, hk]⟩
  | none =>
    cases hv : json.typeError value with
    | some what => exact ⟨what, by simp [dumpStrings, hk, hv]⟩
    | none => simp [dumpable, hk, hv] at h

end JsonLib

/-- What the environment decides about one call: its clock readings, and
whether the broker takes the event it produces. -/
structure Env where
  clock : Clock
  delivered : Bool

/-- `CacheEventsKafkaProducer::produce_cache_event`. A failed `produce` is only
reported on `stderr`. -/
def produceCacheEvent (json : JsonLib) (delivered : Bool) (event : CacheEvent)
    (topic : List CacheEvent) : Except Fault Unit × List CacheEvent :=
  match json.dump event with
  | .error e => (.error e, topic)
  | .ok _ => (.ok (), if delivered then topic ++ [event] else topic)

structure CacheEventLogger where
  seqCounters : Table Bytes ℕ

namespace CacheEventLogger

def fresh : CacheEventLogger := ⟨fun _ => none⟩

/-- The counter of a key; `get_or_add` starts it at 0. -/
def counter (l : CacheEventLogger) (key : Bytes) : ℕ := (l.seqCounters key).getD 0

def setSeqCounters (l : CacheEventLogger) (lastAppliedSeq : Table Bytes ℕ) : CacheEventLogger :=
  ⟨fun key => (lastAppliedSeq key).or (l.seqCounters key)⟩

def nextSeq (l : CacheEventLogger) (key : Bytes) : ℕ × CacheEventLogger :=
  (l.counter key + 1, ⟨l.seqCounters.insert key (l.counter key + 1)⟩)

@[simp] theorem counter_nextSeq_same (l : CacheEventLogger) (key : Bytes) :
    (l.nextSeq key).2.counter key = l.counter key + 1 := by simp [nextSeq, counter]

@[simp] theorem counter_nextSeq_other (l : CacheEventLogger) {key k : Bytes} (h : k ≠ key) :
    (l.nextSeq key).2.counter k = l.counter k := by simp [nextSeq, counter, h]

end CacheEventLogger

/-- What a `log_*` call does to the logger and the topic. -/
abbrev LogFn :=
  CacheEventLogger → List CacheEvent → Except Fault Unit × CacheEventLogger × List CacheEvent

namespace CacheEventLogger

/-- The event that a `log_*` call builds. -/
def event (l : CacheEventLogger) (type : EventType) (key value : Bytes) (ttlMs : ℤ) (now : ℕ) :
    CacheEvent :=
  { type, key, value, ttlMs, seq := (l.nextSeq key).1, timestamp := toMillis now }

def log (json : JsonLib) (delivered : Bool) (now : ℕ) (type : EventType) (key value : Bytes)
    (ttlMs : ℤ) : LogFn := fun l topic =>
  let (r, topic') := produceCacheEvent json delivered (l.event type key value ttlMs now) topic
  (r, (l.nextSeq key).2, topic')

def logSet (json : JsonLib) (delivered : Bool) (now : ℕ) (key value : Bytes) (ttlMs : ℤ) : LogFn :=
  log json delivered now .set key value ttlMs

def logDel (json : JsonLib) (delivered : Bool) (now : ℕ) (key : Bytes) : LogFn :=
  log json delivered now .delete key [] (-1)

def logExpire (json : JsonLib) (delivered : Bool) (now : ℕ) (key value : Bytes) (ttlMs : ℤ) :
    LogFn :=
  log json delivered now .expire key value ttlMs

def logPersist (json : JsonLib) (delivered : Bool) (now : ℕ) (key value : Bytes) : LogFn :=
  log json delivered now .persist key value (-1)

end CacheEventLogger

/-- `cache_event_logger` together with the topic behind its producer. -/
structure EventStream where
  logger : Option CacheEventLogger
  topic : List CacheEvent

end Chrono
