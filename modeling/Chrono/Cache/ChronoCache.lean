import Chrono.Cache.Logger
import Chrono.SortedSets.SortedSet

/-!
# The cache: state, gates and client operations
-/
namespace Chrono

inductive ChronoCacheState where
  | uninitialized
  | replaying
  | replayFailed
  | replaySuccess
  | ready
deriving DecidableEq, Repr

/-- `class ChronoCache`. `α` orders the scores of the sorted sets. -/
structure ChronoCache (α : Type) where
  state : ChronoCacheState
  hashMap : Table Bytes CacheEntry
  sortedSets : SortedSetsAPI α
  disableEventLogging : Bool
  events : EventStream

namespace ChronoCache
variable {α : Type}

/-- `ChronoCache::ChronoCache`, for a process that finds the given topic. -/
def create [LinearOrder α] (disableEventLogging : Bool) (topic : List CacheEvent) :
    ChronoCache α where
  state := .uninitialized
  hashMap := fun _ => none
  sortedSets := SortedSetsAPI.empty
  disableEventLogging := disableEventLogging
  events := ⟨none, topic⟩

def checkLoggingAllowed (c : ChronoCache α) : Except Fault Bool :=
  if c.disableEventLogging || c.state != .ready then .ok false
  else if c.events.logger.isNone then
    .error (.exception (lit "Event logging is enabled but logger was not initialized"))
  else .ok true

def isAcceptingOps (c : ChronoCache α) : Bool := c.state == .ready || c.state == .replaying

def checkAcceptingOps (c : ChronoCache α) : Except Fault Unit :=
  if c.isAcceptingOps then .ok ()
  else .error (.exception (lit "ChronoCache is not ready to accept operations"))

/-- `if (check_logging_allowed()) cache_event_logger->log_*(...)` -/
def logIfAllowed (c : ChronoCache α) (logFn : LogFn) : Action EventStream Unit := fun s =>
  match c.checkLoggingAllowed, s.logger with
  | .error e, _ => (.error e, s)
  | .ok true, some l =>
    let (r, l', topic) := logFn l s.topic
    (r, ⟨some l', topic⟩)
  | .ok _, _ => (.ok (), s)

variable (json : JsonLib) (env : Env)

/-- `ChronoCache::set`; the entry is built at the first clock reading. -/
def set (key value : Bytes) (ttl : Option ℤ) (c : ChronoCache α) :
    Except Fault Bool × ChronoCache α :=
  match c.checkAcceptingOps with
  | .error e => (.error e, c)
  | .ok _ =>
    let entry := CacheEntry.make value ttl (env.clock 0)
    let (r, m, s) := c.hashMap.set key entry
      (c.logIfAllowed
        (CacheEventLogger.logSet json env.delivered (env.clock 1) key value (ttl.getD (-1)))) c.events
    (r, { c with hashMap := m, events := s })

def getFn (now : ℕ) : CondFn CacheEntry (Option Bytes) where
  absent := fun result => (.ok false, result)
  present := fun e result =>
    if e.isExpired now then (.ok true, e, result) else (.ok false, e, some e.value)

def get (key : Bytes) (c : ChronoCache α) : Except Fault (Option Bytes) × ChronoCache α :=
  match c.checkAcceptingOps with
  | .error e => (.error e, c)
  | .ok _ =>
    let (r, m, result) := c.hashMap.processAndRemoveIf key (getFn (env.clock 0)) none
    (r.map (fun _ => result), { c with hashMap := m })

def del (key : Bytes) (c : ChronoCache α) : Except Fault Bool × ChronoCache α :=
  match c.checkAcceptingOps with
  | .error e => (.error e, c)
  | .ok _ =>
    let (r, m, s) := c.hashMap.remove key
      (c.logIfAllowed (CacheEventLogger.logDel json env.delivered (env.clock 0) key)) c.events
    (r, { c with hashMap := m, events := s })

def expireFn (c : ChronoCache α) (key : Bytes) (ttl : ℤ) :
    CondFn CacheEntry (Bool × EventStream) where
  absent := fun s => (.ok false, s)
  present := fun e s =>
    if e.isExpired (env.clock 0) then (.ok true, e, s)
    else
      let e' := e.updateTtl ttl (env.clock 1)
      let (r, s') := c.logIfAllowed
        (CacheEventLogger.logExpire json env.delivered (env.clock 2) key e'.value ttl) s.2
      (r.map (fun _ => false), e', (true, s'))

def expire (key : Bytes) (ttl : ℤ) (c : ChronoCache α) : Except Fault Bool × ChronoCache α :=
  match c.checkAcceptingOps with
  | .error e => (.error e, c)
  | .ok _ =>
    if ttl ≤ 0 then (.error (.exception (lit "TTL must be greater than 0")), c)
    else
      let (r, m, updatedTtl, s) :=
        c.hashMap.processAndRemoveIf key (expireFn json env c key ttl) (false, c.events)
      (r.map (fun _ => updatedTtl), { c with hashMap := m, events := s })

/-- The callback of `pttl`: the expiry test and the remaining time read the
clock separately. -/
def pttlFn : CondFn CacheEntry ℤ where
  absent := fun result => (.ok false, result)
  present := fun e result =>
    if e.isExpired (env.clock 0) then (.ok true, e, result)
    else (.ok false, e, (e.remainingTtl (env.clock 1)).getD (-1))

def pttl (key : Bytes) (c : ChronoCache α) : Except Fault ℤ × ChronoCache α :=
  match c.checkAcceptingOps with
  | .error e => (.error e, c)
  | .ok _ =>
    let (r, m, result) := c.hashMap.processAndRemoveIf key (pttlFn env) (-2)
    (r.map (fun _ => result), { c with hashMap := m })

def persistFn (c : ChronoCache α) (key : Bytes) : CondFn CacheEntry (Bool × EventStream) where
  absent := fun s => (.ok false, s)
  present := fun e s =>
    if e.isExpired (env.clock 0) then (.ok true, e, s)
    else if e.hasTtl then
      let e' := e.removeTtl
      let (r, s') := c.logIfAllowed
        (CacheEventLogger.logPersist json env.delivered (env.clock 1) key e'.value) s.2
      (r.map (fun _ => false), e', (true, s'))
    else (.ok false, e, s)

def persist (key : Bytes) (c : ChronoCache α) : Except Fault Bool × ChronoCache α :=
  match c.checkAcceptingOps with
  | .error e => (.error e, c)
  | .ok _ =>
    let (r, m, ttlRemoved, s) :=
      c.hashMap.processAndRemoveIf key (persistFn json env c key) (false, c.events)
    (r.map (fun _ => ttlRemoved), { c with hashMap := m, events := s })

variable [LinearOrder α]

def zadd (key : Bytes) (score : Score α) (member : Bytes) (c : ChronoCache α) :
    Except Fault Bool × ChronoCache α :=
  match c.checkAcceptingOps with
  | .error e => (.error e, c)
  | .ok _ =>
    let (added, api) := c.sortedSets.zadd key score member
    (.ok added, { c with sortedSets := api })

def zscore (key member : Bytes) (c : ChronoCache α) : Except Fault (Option (Score α)) :=
  match c.checkAcceptingOps with
  | .error e => .error e
  | .ok _ => .ok (c.sortedSets.zscore key member)

def zrem (key member : Bytes) (c : ChronoCache α) : Except Fault Bool × ChronoCache α :=
  match c.checkAcceptingOps with
  | .error e => (.error e, c)
  | .ok _ =>
    let (removed, api) := c.sortedSets.zrem key member
    (.ok removed, { c with sortedSets := api })

def zrank (key member : Bytes) (c : ChronoCache α) : Except Fault (Option ℕ) :=
  match c.checkAcceptingOps with
  | .error e => .error e
  | .ok _ => .ok (c.sortedSets.zrank key member)

end ChronoCache
end Chrono
