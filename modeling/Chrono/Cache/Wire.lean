import Chrono.Cache.Consumer

/-!
# Events on the wire

The producer writes an event as a JSON object, from which the consumer reads it back. Of the
JSON library it is assumed that an object that it has written is read with the same members.
-/
namespace Chrono
open Library

/-- A member of an object that the producer writes. -/
inductive JsonScalar where
  | string (s : Bytes)
  | int64 (n : ℤ)
  | uint64 (n : ℕ)
deriving DecidableEq

/-- A number is one of its type. -/
def JsonScalar.InRange : JsonScalar → Prop
  | .string _ => True
  | .int64 n => toInt64 n = n
  | .uint64 n => n < 2 ^ 64

/-- The JSON library, writing: `dump` of an object, or the text with which it throws. -/
structure JsonWriter where
  dump : List (Bytes × JsonScalar) → Except Bytes Bytes

def CacheEvent.members (event : CacheEvent) : List (Bytes × JsonScalar) :=
  [(lit "type", .string event.type.name), (lit "key", .string event.key),
    (lit "value", .string event.value), (lit "ttl_ms", .int64 event.ttlMs),
    (lit "seq", .uint64 event.seq), (lit "timestamp", .int64 event.timestamp)]

def JsonWriter.payload (writer : JsonWriter) (event : CacheEvent) : Except Bytes Bytes :=
  writer.dump event.members

/-- The numbers of an event are of the types of their fields. -/
structure CacheEvent.InRange (event : CacheEvent) : Prop where
  ttlMs : toInt64 event.ttlMs = event.ttlMs
  seq : event.seq < 2 ^ 64
  timestamp : toInt64 event.timestamp = event.timestamp

variable {Json : Type}

/-- The conversion to the type of a member gives its value. -/
def JsonScalar.ReadAs (reader : JsonReader Json) (j : Json) : JsonScalar → Prop
  | .string s => reader.getString j = .ok s
  | .int64 n => reader.getInt64 j = .ok n
  | .uint64 n => reader.getUint64 j = .ok n

/-- The text of an object is parsed to an object with its members. -/
def JsonReader.Reads (reader : JsonReader Json) (writer : JsonWriter) : Prop :=
  ∀ members text, writer.dump members = .ok text → (members.map Prod.fst).Nodup →
    (∀ m ∈ members, m.2.InRange) → ∃ j, reader.parse text = .ok j ∧
      ∀ m ∈ members, ∃ v, reader.atKey j m.1 = .ok v ∧ m.2.ReadAs reader v

variable {reader : JsonReader Json} {writer : JsonWriter}

theorem JsonReader.Reads.readEvent (h : reader.Reads writer) {event : CacheEvent}
    (hrange : event.InRange) {text : Bytes} (htext : writer.payload event = .ok text) :
    reader.readEvent text = .ok event := by
  have hnames : (event.members.map Prod.fst).Nodup := by
    change [lit "type", lit "key", lit "value", lit "ttl_ms", lit "seq", lit "timestamp"].Nodup
    decide
  have hranges : ∀ m ∈ event.members, m.2.InRange := by
    simp only [CacheEvent.members, List.forall_mem_cons]
    exact ⟨trivial, trivial, trivial, hrange.ttlMs, hrange.seq, hrange.timestamp, by simp⟩
  obtain ⟨j, hparse, hmembers⟩ := h event.members text htext hnames hranges
  simp only [CacheEvent.members, List.forall_mem_cons] at hmembers
  obtain ⟨⟨t, htype, htype'⟩, ⟨k, hkey, hkey'⟩, ⟨v, hvalue, hvalue'⟩,
      ⟨l, httl, httl'⟩, ⟨n, hseq, hseq'⟩,
    ⟨s, hstamp, hstamp'⟩, -⟩ := hmembers
  simp only [JsonScalar.ReadAs] at htype' hkey' hvalue' httl' hseq' hstamp'
  simp only [JsonReader.readEvent, hparse, htype, htype', hkey, hkey', hvalue, hvalue', httl, httl',
    hseq, hseq', hstamp, hstamp', eventTypeFromString_name, bind, Except.bind, pure, Except.pure]

/-! ## A library for two events -/

def sampleWriter : JsonWriter where
  dump members :=
    if members = (sampleEvent (lit "j")).members then .ok (sampleText (lit "j"))
    else if members = (sampleEvent (lit "k")).members then .ok (sampleText (lit "k"))
    else .error (lit "type_error")

theorem sampleReader_reads : sampleReader.Reads sampleWriter := by
  intro members text hdump _ _
  unfold sampleWriter at hdump
  dsimp only at hdump
  split_ifs at hdump with hj hk
  · subst hj
    obtain rfl := Except.ok.inj hdump
    refine ⟨.event (lit "j"), rfl, ?_⟩
    simp only [CacheEvent.members, List.forall_mem_cons]
    exact ⟨⟨_, rfl, rfl⟩, ⟨_, rfl, rfl⟩, ⟨_, rfl, rfl⟩, ⟨_, rfl, rfl⟩, ⟨_, rfl, rfl⟩,
      ⟨_, rfl, rfl⟩, by simp⟩
  · subst hk
    obtain rfl := Except.ok.inj hdump
    refine ⟨.event (lit "k"), rfl, ?_⟩
    simp only [CacheEvent.members, List.forall_mem_cons]
    exact ⟨⟨_, rfl, rfl⟩, ⟨_, rfl, rfl⟩, ⟨_, rfl, rfl⟩, ⟨_, rfl, rfl⟩, ⟨_, rfl, rfl⟩,
      ⟨_, rfl, rfl⟩, by simp⟩

end Chrono
