import Chrono.Cache.Operations
import Chrono.Library.KeyedLog

/-!
# Replay of the event log and initialisation

`replayEvent` is one iteration of the loop of `ChronoCache::replay`: the loop
reads the clock once for `now_ms` and once more in each entry it rebuilds.
-/
namespace Chrono
open ChronoCache Library

namespace CacheEvent

/-- `int64_t expires_at_ms = event.timestamp + ttl_ms` -/
def expiresAtMs (e : CacheEvent) : ℤ := toInt64 (e.timestamp + e.ttlMs)

/-- The event carries a deadline: an `EXPIRE`, or a `SET` with a positive TTL. -/
def hasDeadline (e : CacheEvent) : Bool :=
  match e.type with
  | .set => decide (e.ttlMs > 0)
  | .expire => true
  | .delete => false
  | .persist => false

/-- The event is one that replay skips as "expired during downtime". -/
def expiredAt (e : CacheEvent) (nowMs : ℤ) : Bool :=
  e.hasDeadline && decide (e.expiresAtMs ≤ nowMs)

/-- The TTL that replay gives to the entry it rebuilds. -/
def remainingAt (e : CacheEvent) (nowMs : ℤ) : Option ℤ :=
  if e.hasDeadline then some (toInt64 (e.expiresAtMs - nowMs)) else none

end CacheEvent

structure ReplayState (α : Type) where
  cache : ChronoCache α
  lastAppliedSeq : Table Bytes ℕ

namespace ReplayState
variable {α : Type}

/-- A call whose returned flag is dropped. -/
def call (f : ChronoCache α → Except Fault Bool × ChronoCache α) (s : ReplayState α) :
    Except Fault Unit × ReplayState α :=
  ((f s.cache).1.map (fun _ => ()), { s with cache := (f s.cache).2 })

end ReplayState

variable {α : Type}

def replayEvent (json : JsonLib) (nowMs : ℤ) (now : ℕ) (event : CacheEvent) (s : ReplayState α) :
    Except Fault Unit × ReplayState α :=
  let env : Env := ⟨fun _ => now, true⟩
  -- `operator[]` inserts a zero for a key that is not there
  let last := (s.lastAppliedSeq event.key).getD 0
  if last ≥ event.seq then
    (.ok (), { s with lastAppliedSeq := s.lastAppliedSeq.insert event.key last })
  else
    let s := { s with lastAppliedSeq := s.lastAppliedSeq.insert event.key event.seq }
    match event.type with
    | .set =>
      if event.ttlMs > 0 then
        if event.expiresAtMs ≤ nowMs then (.ok (), s)
        else s.call (set json env event.key event.value (some (toInt64 (event.expiresAtMs - nowMs))))
      else s.call (set json env event.key event.value none)
    | .delete => s.call (del json env event.key)
    | .expire =>
      if event.expiresAtMs ≤ nowMs then (.ok (), s)
      else s.call (set json env event.key event.value (some (toInt64 (event.expiresAtMs - nowMs))))
    | .persist => s.call (set json env event.key event.value none)

/-- The loop from reading `i` of the clock on. -/
def replayEvents (json : JsonLib) (nowMs : ℤ) (clock : Clock) :
    ℕ → List CacheEvent → ReplayState α → Except Fault Unit × ReplayState α
  | _, [], s => (.ok (), s)
  | i, event :: events, s =>
    match replayEvent json nowMs (clock i) event s with
    | (.error e, s) => (.error e, s)
    | (.ok _, s) => replayEvents json nowMs clock (i + 1) events s

namespace ChronoCache

/-- The end of `replay`: the logger, if any, takes over the sequence numbers. -/
def restoreSeqCounters (lastAppliedSeq : Table Bytes ℕ) (c : ChronoCache α) : ChronoCache α :=
  { c with events :=
      { c.events with logger := c.events.logger.map (·.setSeqCounters lastAppliedSeq) } }

/-- `ChronoCache::replay`; `consumed` is what `consume_all_events` answered. -/
def replay (json : JsonLib) (consumed : Except Fault (List CacheEvent)) (clock : Clock)
    (c : ChronoCache α) : Except Fault Unit × ChronoCache α :=
  match consumed with
  | .error e => (.error e, c)
  | .ok events =>
    match replayEvents json (toMillis (clock 0)) clock 1 events ⟨c, fun _ => none⟩ with
    | (.error e, s) => (.error e, s.cache)
    | (.ok _, s) => (.ok (), s.cache.restoreSeqCounters s.lastAppliedSeq)

/-- `init` up to the point where the two modes part. -/
def openLogger (c : ChronoCache α) : ChronoCache α :=
  if c.disableEventLogging then c
  else { c with events := { c.events with logger := some CacheEventLogger.fresh } }

def init (json : JsonLib) (withReplay : Bool) (consumed : Except Fault (List CacheEvent))
    (clock : Clock) (c : ChronoCache α) : Except Fault Bool × ChronoCache α :=
  if c.state = .ready then (.ok true, c)
  else if c.state ≠ .uninitialized then
    (.error (.exception (lit "ChronoCache::init() requires UNINITIALIZED state")), c)
  else
    let c := c.openLogger
    if withReplay = false then (.ok true, { c with state := .ready })
    else
      match replay json consumed clock { c with state := .replaying } with
      | (.error e, c) => (.error e, { c with state := .replayFailed })
      | (.ok _, c) =>
        let c := { c with state := .replaySuccess }
        if c.state = .replaySuccess then (.ok true, { c with state := .ready })
        else (.error (.exception (lit "Replay failed")), c)

end ChronoCache

/-! The effect of replay on one key. -/

namespace CacheEvent

/-- The entry that an event leaves, unless it is skipped as expired. -/
def restored (e : CacheEvent) (nowMs : ℤ) (now : ℕ) : Option CacheEntry :=
  match e.type with
  | .delete => none
  | _ => some (.make e.value (e.remainingAt nowMs) now)

/-- The effect of an event that passes the sequence filter. -/
def applyTo (e : CacheEvent) (nowMs : ℤ) (now : ℕ) (entry : Option CacheEntry) : Option CacheEntry :=
  if e.expiredAt nowMs then entry else e.restored nowMs now

/-- One iteration as seen by the key of the event: its entry and the number
last applied for it. -/
def keyStep (e : CacheEvent) (nowMs : ℤ) (now : ℕ) (x : Option CacheEntry × Option ℕ) :
    Option CacheEntry × Option ℕ :=
  if x.2.getD 0 ≥ e.seq then (x.1, some (x.2.getD 0)) else (e.applyTo nowMs now x.1, some e.seq)

end CacheEvent

/-- The loop as seen by one key. -/
def keyReplay (nowMs : ℤ) (clock : Clock) (k : Bytes) :
    ℕ → List CacheEvent → Option CacheEntry × Option ℕ → Option CacheEntry × Option ℕ
  | _, [], x => x
  | i, e :: es, x =>
    keyReplay nowMs clock k (i + 1) es (if e.key = k then e.keyStep nowMs (clock i) x else x)

namespace ChronoCache

theorem isAcceptingOps_of_replaying {c : ChronoCache α} (h : c.state = .replaying) :
    c.isAcceptingOps = true := by simp [isAcceptingOps, h]

theorem logging_of_replaying {c : ChronoCache α} (h : c.state = .replaying) :
    c.logging = false := by simp [logging, h]

theorem set_replaying {c : ChronoCache α} (h : c.state = .replaying) (json : JsonLib) (env : Env)
    (key value : Bytes) (ttl : Option ℤ) :
    c.set json env key value ttl =
      (.ok true, { c with hashMap := c.hashMap.insert key (.make value ttl (env.clock 0)) }) := by
  simp [ChronoCache.set, checkAcceptingOps, isAcceptingOps_of_replaying h, Table.set,
    logIfAllowed_off (logging_of_replaying h)]

theorem del_replaying {c : ChronoCache α} (h : c.state = .replaying) (json : JsonLib) (env : Env)
    (key : Bytes) :
    ∃ b, c.del json env key = (.ok b, { c with hashMap := c.hashMap.erase key }) := by
  simp only [del, checkAcceptingOps, isAcceptingOps_of_replaying h, if_true, Table.remove,
    logIfAllowed_off (logging_of_replaying h)]
  cases he : c.hashMap key with
  | none =>
    refine ⟨false, ?_⟩
    have hm : c.hashMap.erase key = c.hashMap := by
      rw [Table.erase, ← he, Function.update_eq_self]
    simp [hm]
  | some e => exact ⟨true, rfl⟩

end ChronoCache

theorem replayEvent_eq {s : ReplayState α} (h : s.cache.state = .replaying) (json : JsonLib)
    (nowMs : ℤ) (now : ℕ) (e : CacheEvent) :
    replayEvent json nowMs now e s =
      let x := e.keyStep nowMs now (s.cache.hashMap e.key, s.lastAppliedSeq e.key)
      (.ok (), ⟨{ s.cache with hashMap := Function.update s.cache.hashMap e.key x.1 },
        Function.update s.lastAppliedSeq e.key x.2⟩) := by
  obtain ⟨c, last⟩ := s
  have hset := set_replaying (c := c) h json ⟨fun _ => now, true⟩ e.key e.value
  unfold replayEvent CacheEvent.keyStep
  by_cases hseq : (last e.key).getD 0 ≥ e.seq
  · simp [hseq, Table.insert]
  · cases ht : e.type with
    | set =>
      by_cases hpos : e.ttlMs > 0
      · by_cases hexp : e.expiresAtMs ≤ nowMs <;>
          simp [hseq, ht, hpos, hexp, ReplayState.call, hset, CacheEvent.applyTo,
            CacheEvent.expiredAt, CacheEvent.hasDeadline, CacheEvent.restored,
            CacheEvent.remainingAt, Table.insert, Except.map]
      · simp [hseq, ht, hpos, ReplayState.call, hset, CacheEvent.applyTo, CacheEvent.expiredAt,
          CacheEvent.hasDeadline, CacheEvent.restored, CacheEvent.remainingAt, Table.insert,
          Except.map]
    | delete =>
      obtain ⟨b, hdel⟩ := del_replaying (c := c) h json ⟨fun _ => now, true⟩ e.key
      simp [hseq, ht, ReplayState.call, hdel, CacheEvent.applyTo, CacheEvent.expiredAt,
        CacheEvent.hasDeadline, CacheEvent.restored, Table.insert, Table.erase, Except.map]
    | expire =>
      by_cases hexp : e.expiresAtMs ≤ nowMs <;>
        simp [hseq, ht, hexp, ReplayState.call, hset, CacheEvent.applyTo, CacheEvent.expiredAt,
          CacheEvent.hasDeadline, CacheEvent.restored, CacheEvent.remainingAt, Table.insert,
          Except.map]
    | persist =>
      simp [hseq, ht, ReplayState.call, hset, CacheEvent.applyTo, CacheEvent.expiredAt,
        CacheEvent.hasDeadline, CacheEvent.restored, CacheEvent.remainingAt, Table.insert,
        Except.map]

end Chrono
