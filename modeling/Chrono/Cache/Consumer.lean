import Chrono.Cache.Partitions
import Mathlib.Data.Fintype.Card

/-!
# Consuming the topic

The consumer polls all partitions at once and stops after as many end-of-partition
results as there are partitions, whichever partitions they are of.
-/
namespace Chrono

def EventType.name : EventType → Bytes
  | .set => lit "SET"
  | .delete => lit "DELETE"
  | .expire => lit "EXPIRE"
  | .persist => lit "PERSIST"

/-- `event_type_from_string`, with the text of its exception. -/
def eventTypeFromString (s : Bytes) : Except Bytes EventType :=
  if s = lit "SET" then .ok .set
  else if s = lit "DELETE" then .ok .delete
  else if s = lit "EXPIRE" then .ok .expire
  else if s = lit "PERSIST" then .ok .persist
  else .error (lit "Unknown EventType: " ++ s)

theorem eventTypeFromString_name (t : EventType) : eventTypeFromString t.name = .ok t := by
  cases t <;> rfl

/-- The JSON library, reading: every call answers or throws with a text. -/
structure JsonReader (Json : Type) where
  parse : Bytes → Except Bytes Json
  atKey : Json → Bytes → Except Bytes Json
  getString : Json → Except Bytes Bytes
  getInt64 : Json → Except Bytes ℤ
  getUint64 : Json → Except Bytes ℕ

variable {Json : Type}

/-- The fields of an event, in the order in which they are read. -/
def JsonReader.readEvent (reader : JsonReader Json) (jsonStr : Bytes) : Except Bytes CacheEvent := do
  let j ← reader.parse jsonStr
  let type ← eventTypeFromString (← reader.getString (← reader.atKey j (lit "type")))
  let key ← reader.getString (← reader.atKey j (lit "key"))
  let value ← reader.getString (← reader.atKey j (lit "value"))
  let ttlMs ← reader.getInt64 (← reader.atKey j (lit "ttl_ms"))
  let seq ← reader.getUint64 (← reader.atKey j (lit "seq"))
  let timestamp ← reader.getInt64 (← reader.atKey j (lit "timestamp"))
  return { type, key, value, ttlMs, seq, timestamp }

abbrev getNumPartitions : ℕ := 4

abbrev Partition := Fin getNumPartitions

/-- What `consume` hands out, by its error code. -/
inductive ConsumeResult where
  | message (partition : Partition) (payload : Bytes)
  | partitionEof (partition : Partition)
  | timedOut
  | error
deriving DecidableEq

def ConsumeResult.isOf (p : Partition) : ConsumeResult → Bool
  | .message q _ => q = p
  | .partitionEof q => q = p
  | .timedOut => false
  | .error => false

inductive Consumption where
  | done (consumed : Except Fault (List CacheEvent))
  /-- `exit(1)` -/
  | exited
  /-- The loop waits for another result. -/
  | waiting

/-- `assign_all_partitions`, given whether `assign` succeeds. -/
def assignAllPartitions (assigned : Bool) : Option ℕ :=
  if getNumPartitions ≤ 0 then none
  else if assigned then some getNumPartitions
  else none

structure ConsumerLocals where
  events : List CacheEvent
  countReachedEof : ℕ
  consecutiveTimeouts : ℕ

def maxConsecutiveTimeouts : ℕ := 3

variable (reader : JsonReader Json)

def handleResult (msg : ConsumeResult) (s : ConsumerLocals) : Except Fault ConsumerLocals :=
  match msg with
  | .message _ payload =>
    match reader.readEvent payload with
    | .ok event => .ok { s with events := s.events ++ [event], consecutiveTimeouts := 0 }
    -- the exception is caught and reported on `stderr`
    | .error _ => .ok { s with consecutiveTimeouts := 0 }
  | .partitionEof _ =>
    .ok { s with countReachedEof := s.countReachedEof + 1, consecutiveTimeouts := 0 }
  | .timedOut =>
    if s.consecutiveTimeouts + 1 ≥ maxConsecutiveTimeouts then
      .error (.exception (lit "Kafka broker unreachable: timed out after 3 consecutive timeouts"))
    else .ok { s with consecutiveTimeouts := s.consecutiveTimeouts + 1 }
  | .error => .ok s

/-- The loop, and the results that it leaves unread. -/
def consumeLoop (numPartitions : ℕ) : List ConsumeResult → ConsumerLocals →
    Consumption × List ConsumeResult
  | [], s => (if s.countReachedEof < numPartitions then .waiting else .done (.ok s.events), [])
  | msg :: msgs, s =>
    if s.countReachedEof < numPartitions then
      match handleResult reader msg s with
      | .error e => (.done (.error e), msgs)
      | .ok s => consumeLoop numPartitions msgs s
    else (.done (.ok s.events), msg :: msgs)

/-- `consume_all_events`, on the results that the consumer hands out. -/
def consumeAllEvents (assigned : Bool) (msgs : List ConsumeResult) :
    Consumption × List ConsumeResult :=
  match assignAllPartitions assigned with
  | none => (.exited, msgs)
  | some numPartitions => consumeLoop reader numPartitions msgs ⟨[], 0, 0⟩

/-! ## What the loop has read -/

def partitionEnds (msgs : List ConsumeResult) : List Partition :=
  msgs.filterMap fun msg =>
    match msg with
    | .partitionEof p => some p
    | _ => none

def readEvents (msgs : List ConsumeResult) : List CacheEvent :=
  msgs.filterMap fun msg =>
    match msg with
    | .message _ payload => (reader.readEvent payload).toOption
    | _ => none

theorem partitionEnds_append (used rest : List ConsumeResult) :
    partitionEnds (used ++ rest) = partitionEnds used ++ partitionEnds rest := List.filterMap_append

theorem readEvents_append (used rest : List ConsumeResult) :
    readEvents reader (used ++ rest) =
      readEvents reader used ++ readEvents reader rest := List.filterMap_append

theorem mem_partitionEnds {p : Partition} {msgs : List ConsumeResult} :
    p ∈ partitionEnds msgs ↔ ConsumeResult.partitionEof p ∈ msgs := by
  rw [partitionEnds, List.mem_filterMap]
  constructor
  · rintro ⟨msg, hmem, hmsg⟩
    cases msg with
    | partitionEof q =>
      obtain rfl := Option.some.inj hmsg
      exact hmem
    | message => cases hmsg
    | timedOut => cases hmsg
    | error => cases hmsg
  · exact fun hmem => ⟨_, hmem, rfl⟩

variable {reader}

theorem handleResult_ok {msg : ConsumeResult} {s s' : ConsumerLocals}
    (h : handleResult reader msg s = .ok s') :
    s'.events = s.events ++ readEvents reader [msg] ∧
      s'.countReachedEof = s.countReachedEof + (partitionEnds [msg]).length := by
  cases msg with
  | message p payload =>
    simp only [handleResult] at h
    cases hread : reader.readEvent payload with
    | ok event =>
      simp only [hread, Except.ok.injEq] at h
      simp [← h, readEvents, partitionEnds, hread, Except.toOption]
    | error what =>
      simp only [hread, Except.ok.injEq] at h
      simp [← h, readEvents, partitionEnds, hread, Except.toOption]
  | partitionEof p =>
    simp only [handleResult, Except.ok.injEq] at h
    simp [← h, readEvents, partitionEnds]
  | timedOut =>
    simp only [handleResult] at h
    split_ifs at h
    simp only [Except.ok.injEq] at h
    simp [← h, readEvents, partitionEnds]
  | error =>
    simp only [handleResult, Except.ok.injEq] at h
    simp [← h, readEvents, partitionEnds]

/-- The loop returns what it read, and stops at the last of `numPartitions` ends. -/
theorem consumeLoop_returned {numPartitions : ℕ} {msgs rest : List ConsumeResult} {s : ConsumerLocals}
    {events : List CacheEvent} (hs : s.countReachedEof ≤ numPartitions)
    (h : consumeLoop reader numPartitions msgs s = (.done (.ok events), rest)) :
    ∃ used, msgs = used ++ rest ∧ events = s.events ++ readEvents reader used ∧
      s.countReachedEof + (partitionEnds used).length = numPartitions := by
  induction msgs generalizing s with
  | nil =>
    simp only [consumeLoop, Prod.mk.injEq] at h
    obtain ⟨hdone, rfl⟩ := h
    split_ifs at hdone with hlt
    simp only [Consumption.done.injEq, Except.ok.injEq] at hdone
    refine ⟨[], rfl, ?_, ?_⟩
    · simp [hdone, readEvents]
    · simp only [partitionEnds, List.filterMap_nil, List.length_nil]
      omega
  | cons msg msgs ih =>
    rw [consumeLoop] at h
    split_ifs at h with hlt
    · cases hstep : handleResult reader msg s with
      | error e => simp [hstep] at h
      | ok s' =>
        simp only [hstep] at h
        obtain ⟨hevents, hcount⟩ := handleResult_ok hstep
        have hone : (partitionEnds [msg]).length ≤ 1 := List.length_filterMap_le _ [msg]
        obtain ⟨used, rfl, rfl, htotal⟩ := ih (by omega) h
        refine ⟨msg :: used, rfl, ?_, ?_⟩
        · rw [hevents, List.append_assoc, ← readEvents_append, List.singleton_append]
        · rw [← List.singleton_append, partitionEnds_append, List.length_append]
          omega
    · simp only [Prod.mk.injEq, Consumption.done.injEq, Except.ok.injEq] at h
      obtain ⟨rfl, rfl⟩ := h
      refine ⟨[], rfl, ?_, ?_⟩
      · simp [readEvents]
      · simp only [partitionEnds, List.filterMap_nil, List.length_nil]
        omega

/-- Some partitions are left out exactly when another reports its end twice. -/
theorem nodup_iff_forall_mem {n : ℕ} {l : List (Fin n)} (h : l.length = n) :
    l.Nodup ↔ ∀ p, p ∈ l := by
  constructor
  · intro hnodup p
    have huniv : l.toFinset = Finset.univ := by
      apply Finset.eq_univ_of_card
      rw [List.toFinset_card_of_nodup hnodup, h, Fintype.card_fin]
    rw [← List.mem_toFinset, huniv]
    exact Finset.mem_univ p
  · intro hall
    have huniv : l.toFinset = Finset.univ := by
      ext p
      simp [hall p]
    have hcard : l.toFinset.card = l.length := by rw [huniv, Finset.card_univ, Fintype.card_fin, h]
    exact Multiset.toFinset_card_eq_card_iff_nodup.mp hcard

variable (reader)

/-- Every partition has reported its end in what was read, and the events in front of its first
end are returned. -/
structure CompleteInput (msgs rest : List ConsumeResult) (events : List CacheEvent) : Prop where
  ends : ∃ used, msgs = used ++ rest ∧ ∀ p, ConsumeResult.partitionEof p ∈ used
  events : ∀ p before after, msgs = before ++ .partitionEof p :: after → .partitionEof p ∉ before →
    (readEvents reader (before.filter (·.isOf p))).Sublist events

/-- A partition reports its end again only after further messages. -/
def EndsAfterMessages (msgs : List ConsumeResult) : Prop :=
  ∀ p, (msgs.filter (·.isOf p)).IsChain fun a b => ¬ (a = .partitionEof p ∧ b = .partitionEof p)

instance (msgs : List ConsumeResult) : Decidable (EndsAfterMessages msgs) :=
  inferInstanceAs (Decidable (∀ p, (msgs.filter (·.isOf p)).IsChain fun a b =>
    ¬ (a = .partitionEof p ∧ b = .partitionEof p)))

variable {reader}

/-- What precedes the first end of a partition was read, once an end of it was. -/
theorem prefix_of_end {p : Partition} {msgs used rest before after : List ConsumeResult}
    (hused : msgs = used ++ rest) (hmem : ConsumeResult.partitionEof p ∈ used)
    (hmsgs : msgs = before ++ .partitionEof p :: after)
    (hbefore : ConsumeResult.partitionEof p ∉ before) : before <+: used := by
  rcases List.append_eq_append_iff.mp (hused.symm.trans hmsgs) with ⟨c, rfl, -⟩ | ⟨c, rfl, -⟩
  · exact absurd (List.mem_append_left c hmem) hbefore
  · exact List.prefix_append before c

/-- Where the call returns, its input is complete exactly when no partition occurs twice among
the first `num_partitions` ends. -/
theorem completeInput_iff {assigned : Bool} {msgs rest : List ConsumeResult}
    {events : List CacheEvent}
    (h : consumeAllEvents reader assigned msgs = (.done (.ok events), rest)) :
    CompleteInput reader msgs rest events ↔ ((partitionEnds msgs).take getNumPartitions).Nodup := by
  cases assigned with
  | false => simp [consumeAllEvents, assignAllPartitions] at h
  | true =>
    obtain ⟨used, hused, rfl, hcount⟩ := consumeLoop_returned (Nat.zero_le _) h
    simp only [Nat.zero_add] at hcount
    have htake : (partitionEnds msgs).take getNumPartitions = partitionEnds used := by
      rw [hused, partitionEnds_append, List.take_left' hcount]
    rw [htake, nodup_iff_forall_mem hcount]
    constructor
    · rintro ⟨⟨used', hused', hall⟩, -⟩ p
      obtain rfl := List.append_cancel_right (hused'.symm.trans hused)
      exact mem_partitionEnds.mpr (hall p)
    · intro hall
      refine ⟨⟨used, hused, fun p => mem_partitionEnds.mp (hall p)⟩, ?_⟩
      intro p before after hmsgs hbefore
      have hprefix := prefix_of_end hused (mem_partitionEnds.mp (hall p)) hmsgs hbefore
      exact (List.filter_sublist.trans hprefix.sublist).filterMap _

/-- A `SET` of the key to `v`, as the producer writes it. -/
def sampleText (key : Bytes) : Bytes :=
  lit "\x7b\"key\":\"" ++ key ++ lit "\",\"seq\":1,\"timestamp\":0,\"ttl_ms\":-1,\"type\":\"SET\",\"value\":\"v\"\x7d"

inductive SampleJson where
  | event (key : Bytes)
  | string (s : Bytes)
  | number (n : ℤ)

def sampleReader : JsonReader SampleJson where
  parse text :=
    if text = sampleText (lit "j") then .ok (.event (lit "j"))
    else if text = sampleText (lit "k") then .ok (.event (lit "k"))
    else .error (lit "parse_error")
  atKey j field :=
    match j with
    | .event key =>
      if field = lit "key" then .ok (.string key)
      else if field = lit "seq" then .ok (.number 1)
      else if field = lit "timestamp" then .ok (.number 0)
      else if field = lit "ttl_ms" then .ok (.number (-1))
      else if field = lit "type" then .ok (.string (lit "SET"))
      else if field = lit "value" then .ok (.string (lit "v"))
      else .error (lit "out_of_range")
    | _ => .error (lit "type_error")
  getString j :=
    match j with
    | .string s => .ok s
    | _ => .error (lit "type_error")
  getInt64 j :=
    match j with
    | .number n => .ok n
    | _ => .error (lit "type_error")
  getUint64 j :=
    match j with
    | .number n => .ok n.toNat
    | _ => .error (lit "type_error")

def sampleEvent (key : Bytes) : CacheEvent := ⟨.set, key, lit "v", -1, 1, 0⟩

example :
    sampleReader.readEvent (sampleText (lit "j")) = .ok (sampleEvent (lit "j")) ∧
      sampleReader.readEvent (sampleText (lit "k")) = .ok (sampleEvent (lit "k")) := by
  constructor <;> rfl

/-- Every partition reports its end once. -/
theorem completeInput_witness :
    CompleteInput sampleReader
      [.partitionEof 0, .message 1 (sampleText (lit "k")), .timedOut, .partitionEof 1,
        .error, .partitionEof 3, .partitionEof 2, .message 0 (sampleText (lit "j"))]
      [.message 0 (sampleText (lit "j"))] [sampleEvent (lit "k")] :=
  (completeInput_iff (show consumeAllEvents sampleReader true _ = _ from rfl)).mpr (by decide)

/-- The end of partition 0 is counted four times, and nothing is read of partition 1. -/
theorem completeInput_counterexample :
    let unread : List ConsumeResult :=
      [.message 1 (sampleText (lit "k")), .partitionEof 1, .partitionEof 2, .partitionEof 3]
    let msgs : List ConsumeResult :=
      [.partitionEof 0, .message 0 (sampleText (lit "j")), .partitionEof 0,
        .message 0 (sampleText (lit "j")), .partitionEof 0, .message 0 (sampleText (lit "j")),
        .partitionEof 0] ++ unread
    let events := [sampleEvent (lit "j"), sampleEvent (lit "j"), sampleEvent (lit "j")]
    EndsAfterMessages msgs ∧ consumeAllEvents sampleReader true msgs = (.done (.ok events), unread) ∧
      ¬ CompleteInput sampleReader msgs unread events := by
  intro unread msgs events
  refine ⟨by decide, rfl, fun h => ?_⟩
  have hlost := h.events 1 (msgs.take 8) (msgs.drop 9) rfl (by decide)
  exact absurd hlost (by decide)

end Chrono
