import Chrono.Cache.ReplayByKey
import Chrono.Library.Machine

/-!
# Sessions over one event log

A server process builds a cache that logs its events, initialises it from the
log that the earlier processes left, and serves operations until the next
process replaces it. Every run of sessions keeps the numbers of each key
increasing, as long as no session that skipped the replay logs a key that the
log already had.
-/
namespace Chrono
open ChronoCache Library

/-- A new process initialises itself from what is left of the log, or a client
operation is carried out. -/
inductive Step where
  | restart (withReplay : Bool) (kept : List CacheEvent) (clock : Clock)
  | client (op : Op) (env : Env)

/-- An acknowledged mutation: the entry of its key right after it, and what it
added to the log. -/
structure Ack where
  op : Op
  entry : Option CacheEntry
  logged : List CacheEvent

/-- The running process, next to what an observer remembers: the acknowledged
mutations, how the session began, and the last clock reading. -/
structure Sys (α : Type) where
  cache : ChronoCache α
  history : List Ack
  replayed : Bool
  logAtStart : List CacheEvent
  now : ℕ

namespace Sys
variable {α : Type}

abbrev log (s : Sys α) : List CacheEvent := s.cache.events.topic

def lastAck (s : Sys α) (k : Bytes) : Option Ack := KeyedLog.last (·.op.key) k s.history

variable [LinearOrder α]

/-- Before the first session: an empty log and a cache that accepts nothing. -/
def start : Sys α := ⟨create false [], [], false, [], 0⟩

def restart (json : JsonLib) (withReplay : Bool) (kept : List CacheEvent) (clock : Clock)
    (s : Sys α) :
    Sys α :=
  { s with
    cache := ((create false kept).init json withReplay (.ok kept) clock).2
    replayed := withReplay
    logAtStart := kept
    now := clock kept.length }

end Sys

/-- A client operation; it is acknowledged as a mutation by the answer `true`. -/
def Sys.client {α : Type} (json : JsonLib) (op : Op) (env : Env) (s : Sys α) : Sys α :=
  let (r, c) := op.run json env s.cache
  { s with
    cache := c
    history :=
      if r = .ok (.flag true) then
        s.history ++ [⟨op, c.hashMap op.key, c.events.topic.drop s.log.length⟩]
      else s.history
    now := env.clock 2 }

/-- The machine of all sessions; an operation is answered with its result. -/
def sessions (α : Type) [LinearOrder α] (json : JsonLib) :
    Machine (Sys α) Step (Option (Except Fault Result)) where
  step s
    | .restart withReplay kept clock => (none, s.restart json withReplay kept clock)
    | .client op env => (some (op.run json env s.cache).1, s.client json op env)

/-- Between sessions the log is retained, up to compaction. -/
def Compacted {α : Type} (s : Sys α) : Step → Prop
  | .restart _ kept _ => KeyedLog.Compacts CacheEvent.key s.log kept
  | .client _ _ => True

variable {α : Type}

/-- The cache of a process that logs: not yet initialised, or `READY` with its
logger. -/
structure ChronoCache.Serving (c : ChronoCache α) : Prop where
  enabled : c.disableEventLogging = false
  state : c.state = .uninitialized ∨ c.state = .ready
  logger : c.state = .ready → c.events.logger.isSome = true

theorem ChronoCache.Serving.of_accepting {c : ChronoCache α} (h : c.Serving)
    (ha : c.isAcceptingOps = true) :
    c.logging = true ∧ ∃ l, c.events.logger = some l := by
  rcases h.state with hs | hs
  · simp [isAcceptingOps, hs] at ha
  · exact ⟨by simp [logging, h.enabled, hs], Option.isSome_iff_exists.mp (h.logger hs)⟩

/-- A key that the log had before a session that skipped the replay. -/
def Sys.Stale (s : Sys α) (k : Bytes) : Prop :=
  s.replayed = false ∧ ∃ e ∈ s.logAtStart, e.key = k

/-- The log is well numbered, and the counters of the session are at least the
numbers in the log, except for stale keys. -/
structure Sys.Counted (s : Sys α) : Prop where
  serving : s.cache.Serving
  numbered : WellNumbered s.log
  counted : ∀ l, s.cache.events.logger = some l →
    ∀ e ∈ s.log, ¬ s.Stale e.key → e.seq ≤ l.counter e.key

/-- The operation adds an event to the log. -/
def Produces (json : JsonLib) (c : ChronoCache α) (op : Op) (env : Env) : Prop :=
  ∃ m, (op.outcome env.clock (c.hashMap op.key)).mutation = some m ∧
    json.dumpable op.key m.value = true ∧ env.delivered = true

/-- Between sessions the log is kept up to compaction, and no operation adds an
event of a stale key. -/
def NoStaleKey (json : JsonLib) (s : Sys α) : Step → Prop
  | .restart _ kept _ => KeyedLog.Compacts CacheEvent.key s.log kept
  | .client op env => s.Stale op.key → ¬ Produces json s.cache op env

theorem CacheEventLogger.counter_le_nextSeq (l : CacheEventLogger) (key k : Bytes) :
    l.counter k ≤ (l.nextSeq key).2.counter k := by
  by_cases h : k = key
  · simp [h]
  · simp [h]

section
variable [LinearOrder α]

theorem restart_cache (json : JsonLib) (withReplay : Bool) (kept : List CacheEvent) (clock : Clock) :
    ((create false kept : ChronoCache α).init json withReplay (.ok kept) clock).2 =
      { create false kept with
        state := .ready
        hashMap := if withReplay then replayedEntry clock kept else fun _ => none
        events := ⟨some ⟨if withReplay then replayedSeq clock kept else fun _ => none⟩, kept⟩ } := by
  cases withReplay with
  | false =>
    rw [init_without_replay (create_fresh _ _)]
    rfl
  | true =>
    rw [init_with_replay (create_fresh _ _)]
    rfl

theorem restart_serving (json : JsonLib) (withReplay : Bool) (kept : List CacheEvent)
    (clock : Clock) :
    ((create false kept : ChronoCache α).init json withReplay (.ok kept) clock).2.Serving := by
  rw [restart_cache]
  exact ⟨rfl, .inr rfl, fun _ => rfl⟩

/-- Replay restores, for every key, a counter that no number of the log exceeds. -/
theorem seq_le_replayedSeq {kept : List CacheEvent} (h : WellNumbered kept) (clock : Clock)
    {e : CacheEvent} (he : e ∈ kept) : e.seq ≤ (replayedSeq clock kept e.key).getD 0 := by
  rw [replayedSeq_eq h]
  cases hm : KeyedLog.last CacheEvent.key e.key kept with
  | none => exact absurd rfl (KeyedLog.last_eq_none.mp hm e he)
  | some m => exact h.increasing.le_last hm e he rfl

theorem Sys.Counted.restart {s : Sys α} (h : s.Counted) {kept : List CacheEvent}
    (hkept : KeyedLog.Compacts CacheEvent.key s.log kept) (json : JsonLib) (withReplay : Bool)
    (clock : Clock) : (s.restart json withReplay kept clock).Counted := by
  have hn : WellNumbered kept := h.numbered.sublist hkept.sublist
  have hcache : (s.restart json withReplay kept clock).cache = _ :=
    restart_cache json withReplay kept clock
  have hlog : (s.restart json withReplay kept clock).log = kept := by rw [Sys.log, hcache]
  refine ⟨restart_serving json withReplay kept clock, by rwa [hlog], ?_⟩
  intro l hl e he hfresh
  rw [hlog] at he
  rw [hcache] at hl
  obtain rfl := Option.some.inj hl
  cases withReplay with
  | false => exact absurd ⟨rfl, e, he, rfl⟩ hfresh
  | true => exact seq_le_replayedSeq hn clock he

end

theorem Sys.Counted.concat {s : Sys α} (h : s.Counted) {l : CacheEventLogger}
    (hl : s.cache.events.logger = some l) {k : Bytes} (hk : ¬ s.Stale k) (m : Mutation) :
    WellNumbered (s.log ++ [m.event l k]) := by
  constructor
  · apply h.numbered.increasing.concat
    intro x hx hxk
    have hle := h.counted l hl x hx (hxk ▸ hk)
    have heq : (m.event l k).seq = l.counter k + 1 := rfl
    rw [heq, show l.counter k = l.counter x.key from congrArg _ hxk.symm]
    omega
  · intro x hx
    rcases List.mem_append.mp hx with hx | hx
    · exact h.numbered.positive x hx
    · obtain rfl := List.mem_singleton.mp hx
      exact Nat.succ_pos _

theorem Sys.Counted.client {s : Sys α} (h : s.Counted) {json : JsonLib} {op : Op} {env : Env}
    (hstale : s.Stale op.key → ¬ Produces json s.cache op env) : (s.client json op env).Counted := by
  have hsame (c : ChronoCache α) (hc : c.Serving) (hn : WellNumbered c.events.topic)
      (hcount : ∀ l, c.events.logger = some l →
        ∀ e ∈ c.events.topic, ¬ s.Stale e.key → e.seq ≤ l.counter e.key)
      (heq : (op.run json env s.cache).2 = c) : (s.client json op env).Counted := by
    subst heq
    exact ⟨hc, hn, hcount⟩
  cases ha : s.cache.isAcceptingOps with
  | false => exact hsame s.cache h.serving h.numbered h.counted (by rw [Op.run_refused ha])
  | true =>
    obtain ⟨hlog, l, hl⟩ := h.serving.of_accepting ha
    rcases Op.run_logged hlog hl json env op with ⟨m, y, hm, heq, -⟩ | ⟨y, heq, -⟩
    · refine hsame _ ?_ ?_ ?_ heq
      · exact ⟨h.serving.enabled, h.serving.state, fun _ => rfl⟩
      · dsimp only
        split_ifs with hp
        · simp only [Bool.and_eq_true] at hp
          have hfresh : ¬ s.Stale op.key := fun hs =>
            hstale hs ⟨m, by rw [hm.outcome_eq], hp.1, hp.2⟩
          exact h.concat hl hfresh m
        · exact h.numbered
      · intro l' hl' e he hfresh
        obtain rfl := Option.some.inj hl'
        have hold (e : CacheEvent) (he : e ∈ s.log) (hfresh : ¬ s.Stale e.key) :
            e.seq ≤ (l.nextSeq op.key).2.counter e.key :=
          (h.counted l hl e he hfresh).trans (l.counter_le_nextSeq op.key e.key)
        dsimp only at he
        split_ifs at he with hp
        · rcases List.mem_append.mp he with he | he
          · exact hold e he hfresh
          · obtain rfl := List.mem_singleton.mp he
            simp [Mutation.event, CacheEventLogger.event, CacheEventLogger.nextSeq,
              CacheEventLogger.counter]
        · exact hold e he hfresh
    · refine hsame _ ?_ ?_ ?_ heq
      · exact ⟨h.serving.enabled, h.serving.state, h.serving.logger⟩
      · exact h.numbered
      · exact h.counted

section
variable [LinearOrder α]

theorem start_counted : (Sys.start : Sys α).Counted :=
  ⟨⟨rfl, .inl rfl, by simp [Sys.start, create]⟩,
    ⟨List.Pairwise.nil, by simp [Sys.start, Sys.log, create]⟩, by simp [Sys.start, Sys.log, create]⟩

theorem sessions_counted {json : JsonLib} {run : List Step}
    (h : (sessions α json).Admits (NoStaleKey json) Sys.start run) :
    ((sessions α json).after Sys.start run).Counted := by
  refine (sessions α json).invariant ?_ start_counted h
  intro s i hs hi
  cases i with
  | restart withReplay kept clock => exact hs.restart hi json withReplay clock
  | client op env => exact hs.client hi

/-- The number that the filter of `replay` holds against an event of a key, after
the events before it. -/
def lastAppliedBefore (α : Type) [LinearOrder α] (json : JsonLib) (clock : Clock)
    (pre : List CacheEvent) (k : Bytes) : ℕ :=
  ((replayEvents json (toMillis (clock 0)) clock 1 pre
    ⟨{ (create false [] : ChronoCache α) with state := .replaying }, fun _ => none⟩).2.lastAppliedSeq
      k).getD 0

/-- The filter accepts every event of a well numbered log. -/
theorem lastAppliedBefore_lt {log pre post : List CacheEvent} {e : CacheEvent} (h : WellNumbered log)
    (hlog : log = pre ++ e :: post) (json : JsonLib) (clock : Clock) :
    lastAppliedBefore α json clock pre e.key < e.seq := by
  subst hlog
  obtain ⟨hpre, -, hcross⟩ := List.pairwise_append.mp h.increasing
  rw [lastAppliedBefore, replayEvents_eq rfl]
  change (replayedSeq clock pre e.key).getD 0 < e.seq
  rw [replayedSeq_eq (h.sublist (List.sublist_append_left _ _))]
  cases hm : KeyedLog.last CacheEvent.key e.key pre with
  | none => exact h.positive e (by simp)
  | some m =>
    obtain ⟨hmem, hk⟩ := KeyedLog.last_mem hm
    exact hcross m hmem e (by simp) hk

/-- In every run in which no session that skipped the replay logs a key that the
log had before it, the numbers of each key strictly increase along the log, and
the filter of a replay of the log discards no event. -/
theorem log_increasing (json : JsonLib) (run : List Step)
    (h : (sessions α json).Admits (NoStaleKey json) Sys.start run) :
    KeyedLog.Increasing CacheEvent.key CacheEvent.seq ((sessions α json).after Sys.start run).log ∧
      ∀ pre e post, ((sessions α json).after Sys.start run).log = pre ++ e :: post →
        ∀ clock, lastAppliedBefore α json clock pre e.key < e.seq := by
  have hc := sessions_counted h
  exact ⟨hc.numbered.increasing, fun pre e post hlog clock =>
    lastAppliedBefore_lt hc.numbered hlog json clock⟩

end

def stopped (t : ℕ) : Clock := fun _ => t

def setEvent (value : Bytes) (seq : ℕ) : CacheEvent := ⟨.set, lit "k", value, -1, seq, 0⟩

/-- Two sessions, both without replay: two `SET`s of a key, then one more. -/
def staleRun : List Step :=
  [.restart false [] (stopped 0),
    .client (.set (lit "k") (lit "a") none) ⟨stopped 0, true⟩,
    .client (.set (lit "k") (lit "b") none) ⟨stopped 0, true⟩,
    .restart false [setEvent (lit "a") 1, setEvent (lit "b") 2] (stopped 0),
    .client (.set (lit "k") (lit "c") none) ⟨stopped 0, true⟩]

/-- The third `SET` takes the number 1 again, and the next replay discards it. -/
theorem log_increasing_counterexample :
    let log := ((sessions ℤ .reference).after Sys.start staleRun).log
    (sessions ℤ .reference).Admits Compacted Sys.start staleRun ∧
      ¬ KeyedLog.Increasing CacheEvent.key CacheEvent.seq log ∧
      ∃ pre e post, log = pre ++ e :: post ∧
        e.seq ≤ lastAppliedBefore ℤ .reference (stopped 0) pre e.key := by
  have hlog : ((sessions ℤ .reference).after Sys.start staleRun).log =
      [setEvent (lit "a") 1, setEvent (lit "b") 2, setEvent (lit "c") 1] := rfl
  simp only [hlog]
  refine ⟨⟨.refl _, trivial, trivial, .refl _, trivial, trivial⟩, ?_, ?_⟩
  · simp [KeyedLog.Increasing, setEvent]
  · exact ⟨[setEvent (lit "a") 1, setEvent (lit "b") 2], setEvent (lit "c") 1, [], rfl, by decide⟩

/-- A session without replay that writes another key, then one with replay. -/
theorem log_increasing_witness :
    let run : List Step :=
      [.restart false [] (stopped 0),
        .client (.set (lit "k") (lit "a") none) ⟨stopped 0, true⟩,
        .restart false [setEvent (lit "a") 1] (stopped 0),
        .client (.set (lit "j") (lit "b") none) ⟨stopped 0, true⟩]
    let log := ((sessions ℤ .reference).after Sys.start run).log
    KeyedLog.Increasing CacheEvent.key CacheEvent.seq log ∧
      ∀ pre e post, log = pre ++ e :: post →
        ∀ clock, lastAppliedBefore ℤ .reference clock pre e.key < e.seq := by
  refine log_increasing .reference _ ⟨.refl _, ?_, .refl _, ?_, trivial⟩
  · rintro ⟨-, e, he, -⟩
    have he : e ∈ ([] : List CacheEvent) := he
    cases he
  · rintro ⟨-, e, he, hk⟩
    have he : e ∈ [setEvent (lit "a") 1] := he
    obtain rfl := List.mem_singleton.mp he
    exact absurd hk (by decide)

end Chrono
