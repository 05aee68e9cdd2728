import Chrono.Cache.ChronoCache

/-!
# What a client operation does to the entry of its key

Every operation touches one key. `Op.outcome` is its effect on the entry of
that key and `Op.run_eq` says that running the operation is exactly that: the
entry of the key is replaced, the mutation is handed to the logger, and an
exception of the logger replaces the result.
-/
namespace Chrono
open ChronoCache

inductive Op where
  | set (key value : Bytes) (ttl : Option ℤ)
  | get (key : Bytes)
  | del (key : Bytes)
  | expire (key : Bytes) (ttl : ℤ)
  | pttl (key : Bytes)
  | persist (key : Bytes)
deriving DecidableEq, Repr

inductive Result where
  | flag (b : Bool)
  | value (v : Option Bytes)
  | millis (n : ℤ)
deriving DecidableEq, Repr

/-- What an operation hands to the logger. -/
structure Mutation where
  type : EventType
  value : Bytes
  ttlMs : ℤ
  now : ℕ

/-- The effect of an operation on the entry of its key. -/
structure Outcome where
  result : Except Fault Result
  entry : Option CacheEntry
  mutation : Option Mutation

namespace Mutation

def logFn (m : Mutation) (json : JsonLib) (delivered : Bool) (key : Bytes) : LogFn :=
  CacheEventLogger.log json delivered m.now m.type key m.value m.ttlMs

def event (m : Mutation) (l : CacheEventLogger) (key : Bytes) : CacheEvent :=
  l.event m.type key m.value m.ttlMs m.now

end Mutation

namespace Op

def key : Op → Bytes
  | set key _ _ => key
  | get key => key
  | del key => key
  | expire key _ => key
  | pttl key => key
  | persist key => key

variable {α : Type}

def run (json : JsonLib) (env : Env) (op : Op) (c : ChronoCache α) :
    Except Fault Result × ChronoCache α :=
  match op with
  | set key value ttl => let (r, c') := c.set json env key value ttl; (r.map .flag, c')
  | get key => let (r, c') := c.get env key; (r.map .value, c')
  | del key => let (r, c') := c.del json env key; (r.map .flag, c')
  | expire key ttl => let (r, c') := c.expire json env key ttl; (r.map .flag, c')
  | pttl key => let (r, c') := c.pttl env key; (r.map .millis, c')
  | persist key => let (r, c') := c.persist json env key; (r.map .flag, c')

def outcome (clock : Clock) : Op → Option CacheEntry → Outcome
  | set _ value ttl, _ =>
    ⟨.ok (.flag true), some (.make value ttl (clock 0)),
      some ⟨.set, value, ttl.getD (-1), clock 1⟩⟩
  | get _, none => ⟨.ok (.value none), none, none⟩
  | get _, some e =>
    if e.isExpired (clock 0) then ⟨.ok (.value none), none, none⟩
    else ⟨.ok (.value (some e.value)), some e, none⟩
  | del _, none => ⟨.ok (.flag false), none, none⟩
  | del _, some _ => ⟨.ok (.flag true), none, some ⟨.delete, [], -1, clock 0⟩⟩
  | expire _ ttl, entry =>
    if ttl ≤ 0 then
      ⟨.error (.exception (lit "TTL must be greater than 0")), entry, none⟩
    else match entry with
      | none => ⟨.ok (.flag false), none, none⟩
      | some e =>
        if e.isExpired (clock 0) then ⟨.ok (.flag false), none, none⟩
        else ⟨.ok (.flag true), some (e.updateTtl ttl (clock 1)),
          some ⟨.expire, e.value, ttl, clock 2⟩⟩
  | pttl _, none => ⟨.ok (.millis (-2)), none, none⟩
  | pttl _, some e =>
    if e.isExpired (clock 0) then ⟨.ok (.millis (-2)), none, none⟩
    else ⟨.ok (.millis ((e.remainingTtl (clock 1)).getD (-1))), some e, none⟩
  | persist _, none => ⟨.ok (.flag false), none, none⟩
  | persist _, some e =>
    if e.isExpired (clock 0) then ⟨.ok (.flag false), none, none⟩
    else if e.hasTtl then
      ⟨.ok (.flag true), some e.removeTtl, some ⟨.persist, e.value, -1, clock 1⟩⟩
    else ⟨.ok (.flag false), some e, none⟩

/-- An operation that mutates: the entry it finds, what it hands to the logger
and the entry it leaves. -/
inductive Mutates (clock : Clock) :
    Op → Option CacheEntry → Mutation → Option CacheEntry → Prop where
  | set (key value : Bytes) (ttl : Option ℤ) (x : Option CacheEntry) :
    Mutates clock (.set key value ttl) x ⟨.set, value, ttl.getD (-1), clock 1⟩
      (some (.make value ttl (clock 0)))
  | del (key : Bytes) (e : CacheEntry) :
    Mutates clock (.del key) (some e) ⟨.delete, [], -1, clock 0⟩ none
  | expire (key : Bytes) {ttl : ℤ} (e : CacheEntry) (ht : 0 < ttl)
    (hx : e.isExpired (clock 0) = false) :
    Mutates clock (.expire key ttl) (some e) ⟨.expire, e.value, ttl, clock 2⟩
      (some (e.updateTtl ttl (clock 1)))
  | persist (key : Bytes) (e : CacheEntry) (ht : e.hasTtl = true)
    (hx : e.isExpired (clock 0) = false) :
    Mutates clock (.persist key) (some e) ⟨.persist, e.value, -1, clock 1⟩ (some e.removeTtl)

theorem Mutates.outcome_eq {clock : Clock} {op : Op} {x y : Option CacheEntry} {m : Mutation}
    (h : Mutates clock op x m y) : op.outcome clock x = ⟨.ok (.flag true), y, some m⟩ := by
  cases h with
  | set | del => rfl
  | expire key e ht hx => simp [outcome, Int.not_le.mpr ht, hx]
  | persist key e ht hx => simp [outcome, ht, hx]

/-- An operation mutates, or it hands nothing to the logger, reports no success
and at most drops an expired entry. -/
theorem outcome_cases (clock : Clock) (op : Op) (x : Option CacheEntry) :
    (∃ m y, Mutates clock op x m y) ∨
      ((op.outcome clock x).mutation = none ∧ (op.outcome clock x).result ≠ .ok (.flag true) ∧
        ((op.outcome clock x).entry = x ∨ ((op.outcome clock x).entry = none ∧
          ∃ e, x = some e ∧ e.isExpired (clock 0) = true))) := by
  cases op with
  | set key value ttl => exact .inl ⟨_, _, .set key value ttl x⟩
  | del key =>
    cases x with
    | none => simp [outcome]
    | some e => exact .inl ⟨_, _, .del key e⟩
  | get key | pttl key =>
    cases x with
    | none => simp [outcome]
    | some e => by_cases hx : e.isExpired (clock 0) = true <;> simp [outcome, hx]
  | expire key ttl =>
    by_cases ht : ttl ≤ 0
    · simp [outcome, ht]
    · cases x with
      | none => simp [outcome, ht]
      | some e =>
        cases hx : e.isExpired (clock 0) with
        | true => simp [outcome, ht, hx]
        | false => exact .inl ⟨_, _, .expire key e (Int.not_le.mp ht) hx⟩
  | persist key =>
    cases x with
    | none => simp [outcome]
    | some e =>
      cases hx : e.isExpired (clock 0) with
      | true => simp [outcome, hx]
      | false =>
        cases ht : e.hasTtl with
        | true => exact .inl ⟨_, _, .persist key e ht hx⟩
        | false => simp [outcome, hx, ht]

/-- Only a TTL that is not positive is an error of the operation itself. -/
theorem outcome_ok {op : Op} (h : ∀ key ttl, op = .expire key ttl → 0 < ttl) (clock : Clock)
    (x : Option CacheEntry) : ∃ r, (op.outcome clock x).result = .ok r := by
  cases op with
  | set key value ttl => exact ⟨_, rfl⟩
  | del key => cases x <;> exact ⟨_, rfl⟩
  | get key | pttl key =>
    cases x with
    | none => exact ⟨_, rfl⟩
    | some e => by_cases hx : e.isExpired (clock 0) = true <;> simp [outcome, hx]
  | expire key ttl =>
    have ht : ¬ ttl ≤ 0 := Int.not_le.mpr (h key ttl rfl)
    cases x with
    | none => simp [outcome, ht]
    | some e => by_cases hx : e.isExpired (clock 0) = true <;> simp [outcome, ht, hx]
  | persist key =>
    cases x with
    | none => exact ⟨_, rfl⟩
    | some e =>
      by_cases hx : e.isExpired (clock 0) = true
      · simp [outcome, hx]
      · by_cases ht : e.hasTtl = true <;> simp [outcome, hx, ht]

theorem outcome_result_of_mutation {clock : Clock} {op : Op} {x : Option CacheEntry} {m : Mutation}
    (h : (op.outcome clock x).mutation = some m) :
    (op.outcome clock x).result = .ok (.flag true) := by
  rcases op.outcome_cases clock x with ⟨m', y, hm⟩ | ⟨hn, -, -⟩
  · rw [hm.outcome_eq]
  · simp [hn] at h

end Op

namespace ChronoCache
variable {α : Type}

def logMutation (json : JsonLib) (delivered : Bool) (key : Bytes) (m : Option Mutation)
    (c : ChronoCache α) : Except Fault Unit × EventStream :=
  match m with
  | none => (.ok (), c.events)
  | some m => c.logIfAllowed (m.logFn json delivered key) c.events

def logging (c : ChronoCache α) : Bool := !c.disableEventLogging && c.state == .ready

/-- Whenever events are logged, the logger is there. -/
def LoggerReady (c : ChronoCache α) : Prop := c.logging = true → c.events.logger.isSome = true

theorem checkLoggingAllowed_eq {c : ChronoCache α} (h : c.LoggerReady) :
    c.checkLoggingAllowed = .ok c.logging := by
  rw [checkLoggingAllowed]
  unfold LoggerReady logging at *
  cases hd : c.disableEventLogging with
  | true => simp
  | false =>
    by_cases hs : c.state = .ready
    · have hl := h (by simp [hd, hs])
      cases hl' : c.events.logger with
      | none => simp [hl'] at hl
      | some l => simp [hs]
    · simp [hs]

theorem logIfAllowed_off {c : ChronoCache α} (h : c.logging = false) (f : LogFn)
    (s : EventStream) : c.logIfAllowed f s = (.ok (), s) := by
  have hl : c.LoggerReady := by intro ht; simp [h] at ht
  rw [logIfAllowed]
  rw [checkLoggingAllowed_eq hl, h]

theorem logIfAllowed_on {c : ChronoCache α} (h : c.logging = true) {l : CacheEventLogger}
    (hl : c.events.logger = some l) (f : LogFn) :
    c.logIfAllowed f c.events =
      ((f l c.events.topic).1, ⟨some (f l c.events.topic).2.1, (f l c.events.topic).2.2⟩) := by
  have hr : c.LoggerReady := by intro _; simp [hl]
  rw [logIfAllowed]
  rw [checkLoggingAllowed_eq hr, h, hl]

end ChronoCache

namespace CacheEventLogger

/-- A `log_*` call always takes a number; it throws what `dump` throws, and
produces the event otherwise. -/
theorem log_eq (json : JsonLib) (delivered : Bool) (now : ℕ) (type : EventType) (key value : Bytes)
    (ttlMs : ℤ) (l : CacheEventLogger) (topic : List CacheEvent) :
    log json delivered now type key value ttlMs l topic =
      (json.dumpStrings key value, (l.nextSeq key).2,
        if json.dumpable key value && delivered then topic ++ [l.event type key value ttlMs now]
        else topic) := by
  cases h : json.dumpable key value with
  | true =>
    simp [log, produceCacheEvent, JsonLib.dump, event, JsonLib.dumpStrings_of_dumpable h]
  | false =>
    obtain ⟨what, hw⟩ := JsonLib.dumpStrings_of_not_dumpable h
    simp [log, produceCacheEvent, JsonLib.dump, event, hw]

end CacheEventLogger

namespace ChronoCache
variable {α : Type}

def logAnswer (json : JsonLib) (key : Bytes) (c : ChronoCache α) : Option Mutation → Except Fault Unit
  | none => .ok ()
  | some m => if c.logging then json.dumpStrings key m.value else .ok ()

/-- Whether handing over a mutation throws depends on its strings only. -/
theorem logMutation_fst {c : ChronoCache α} (h : c.LoggerReady) (json : JsonLib) (delivered : Bool)
    (key : Bytes) (m : Option Mutation) :
    (c.logMutation json delivered key m).1 = c.logAnswer json key m := by
  cases m with
  | none => rfl
  | some m =>
    cases hl : c.logging with
    | false => simp [logMutation, logAnswer, logIfAllowed_off hl, hl]
    | true =>
      obtain ⟨l, hsome⟩ := Option.isSome_iff_exists.mp (h hl)
      simp [logMutation, logAnswer, logIfAllowed_on hl hsome, Mutation.logFn, CacheEventLogger.log_eq,
        hl]

/-- Handing over a mutation throws exactly when it serialises a string that `dump` rejects. -/
theorem logAnswer_cases (json : JsonLib) (key : Bytes) (c : ChronoCache α) (m : Option Mutation) :
    (c.logAnswer json key m = .ok () ∧
        ¬ (c.logging = true ∧ ∃ m', m = some m' ∧ json.dumpable key m'.value = false)) ∨
      (∃ what, c.logAnswer json key m = .error (.exception what)) ∧
        c.logging = true ∧ ∃ m', m = some m' ∧ json.dumpable key m'.value = false := by
  cases m with
  | none => simp [logAnswer]
  | some m =>
    cases hl : c.logging with
    | false => simp [logAnswer, hl]
    | true =>
      cases hd : json.dumpable key m.value with
      | true => simp [logAnswer, hl, hd, JsonLib.dumpStrings_of_dumpable hd]
      | false =>
        obtain ⟨what, hw⟩ := JsonLib.dumpStrings_of_not_dumpable hd
        simp [logAnswer, hl, hd, hw]

/-- Without logging, or without a mutation, the event stream stays. -/
theorem logMutation_snd_off {c : ChronoCache α} {m : Option Mutation}
    (h : c.logging = false ∨ m = none) (json : JsonLib) (delivered : Bool) (key : Bytes) :
    (c.logMutation json delivered key m).2 = c.events := by
  rcases h with hl | rfl
  · cases m with
    | none => rfl
    | some m => simp [logMutation, logIfAllowed_off hl]
  · rfl

/-- A logged mutation takes the next number and produces its event. -/
theorem logMutation_snd_on {c : ChronoCache α} (h : c.logging = true) {l : CacheEventLogger}
    (hl : c.events.logger = some l) (json : JsonLib) (delivered : Bool) (key : Bytes) (m : Mutation) :
    (c.logMutation json delivered key (some m)).2 =
      ⟨some (l.nextSeq key).2,
        if json.dumpable key m.value && delivered then c.events.topic ++ [m.event l key]
        else c.events.topic⟩ := by
  simp [logMutation, logIfAllowed_on h hl, Mutation.logFn, CacheEventLogger.log_eq, Mutation.event]

theorem logMutation_logger {c : ChronoCache α} (h : c.LoggerReady) (json : JsonLib)
    (delivered : Bool) (key : Bytes) (m : Option Mutation) (hl : c.logging = true) :
    (c.logMutation json delivered key m).2.logger.isSome = true := by
  obtain ⟨l, hsome⟩ := Option.isSome_iff_exists.mp (h hl)
  cases m with
  | none => simp [logMutation_snd_off (.inr rfl), hsome]
  | some m => simp [logMutation_snd_on hl hsome]

end ChronoCache

namespace Op
variable {α : Type}

private theorem update_of_eq {m : Table Bytes CacheEntry} {k : Bytes} {o : Option CacheEntry}
    (h : m k = o) : Function.update m k o = m := by
  rw [← h, Function.update_eq_self]

theorem run_refused {c : ChronoCache α} (h : c.isAcceptingOps = false) (json : JsonLib) (env : Env)
    (op : Op) :
    op.run json env c =
      (.error (.exception (lit "ChronoCache is not ready to accept operations")), c) := by
  cases op <;>
    simp [run, ChronoCache.set, ChronoCache.get, ChronoCache.del, ChronoCache.expire,
      ChronoCache.pttl, ChronoCache.persist, checkAcceptingOps, h, Except.map]

theorem run_eq {c : ChronoCache α} (h : c.isAcceptingOps = true) (json : JsonLib) (env : Env)
    (op : Op) :
    op.run json env c =
      let o := op.outcome env.clock (c.hashMap op.key)
      let (r, s) := c.logMutation json env.delivered op.key o.mutation
      (r.bind (fun _ => o.result),
        { c with hashMap := Function.update c.hashMap op.key o.entry, events := s }) := by
  have hgate : c.checkAcceptingOps = .ok () := by simp [checkAcceptingOps, h]
  cases op with
  | set key value ttl =>
    simp only [run, ChronoCache.set, hgate, Op.key, outcome, logMutation, Table.set, Table.insert,
      Mutation.logFn, CacheEventLogger.logSet]
    rcases c.logIfAllowed _ c.events with ⟨_ | _, s⟩ <;> rfl
  | get key =>
    simp only [run, ChronoCache.get, hgate, Op.key, Table.processAndRemoveIf, getFn]
    cases he : c.hashMap key with
    | none => simp [outcome, logMutation, update_of_eq he, Except.map, Except.bind]
    | some e =>
      by_cases hx : e.isExpired (env.clock 0) = true <;>
        simp [outcome, logMutation, hx, Table.insert, Table.erase, Except.map, Except.bind]
  | del key =>
    simp only [run, ChronoCache.del, hgate, Op.key, Table.remove]
    cases he : c.hashMap key with
    | none => simp [outcome, logMutation, update_of_eq he, Except.map, Except.bind]
    | some e =>
      simp only [outcome, logMutation, Mutation.logFn, CacheEventLogger.logDel, Table.erase]
      rcases c.logIfAllowed _ c.events with ⟨_ | _, s⟩ <;> rfl
  | expire key ttl =>
    simp only [run, ChronoCache.expire, hgate, Op.key, Table.processAndRemoveIf, expireFn, outcome]
    by_cases ht : ttl ≤ 0
    · simp [ht, logMutation, Function.update_eq_self, Except.map, Except.bind]
    · cases he : c.hashMap key with
      | none => simp [ht, logMutation, update_of_eq he, Except.map, Except.bind]
      | some e =>
        by_cases hx : e.isExpired (env.clock 0) = true
        · simp [ht, hx, logMutation, Table.erase, Except.map, Except.bind]
        · simp only [ht, if_false, hx, logMutation, Mutation.logFn, CacheEventLogger.logExpire,
            CacheEntry.updateTtl, Table.insert, Bool.false_eq_true]
          rcases c.logIfAllowed _ c.events with ⟨_ | _, s⟩ <;> rfl
  | pttl key =>
    simp only [run, ChronoCache.pttl, hgate, Op.key, Table.processAndRemoveIf, pttlFn]
    cases he : c.hashMap key with
    | none => simp [outcome, logMutation, update_of_eq he, Except.map, Except.bind]
    | some e =>
      by_cases hx : e.isExpired (env.clock 0) = true <;>
        simp [outcome, logMutation, hx, Table.insert, Table.erase, Except.map, Except.bind]
  | persist key =>
    simp only [run, ChronoCache.persist, hgate, Op.key, Table.processAndRemoveIf, persistFn, outcome]
    cases he : c.hashMap key with
    | none => simp [logMutation, update_of_eq he, Except.map, Except.bind]
    | some e =>
      by_cases hx : e.isExpired (env.clock 0) = true
      · simp [hx, logMutation, Table.erase, Except.map, Except.bind]
      · by_cases ht : e.hasTtl = true
        · simp only [ht, if_true, hx, logMutation, Mutation.logFn, CacheEventLogger.logPersist,
            CacheEntry.removeTtl, Table.insert, Bool.false_eq_true, if_false]
          rcases c.logIfAllowed _ c.events with ⟨_ | _, s⟩ <;> rfl
        · simp [hx, ht, logMutation, Table.insert, Except.map, Except.bind]

theorem run_hashMap {c : ChronoCache α} (h : c.isAcceptingOps = true) (json : JsonLib) (env : Env)
    (op : Op) :
    (op.run json env c).2.hashMap =
      Function.update c.hashMap op.key (op.outcome env.clock (c.hashMap op.key)).entry := by
  rw [run_eq h]

theorem run_events {c : ChronoCache α} (h : c.isAcceptingOps = true) (json : JsonLib) (env : Env)
    (op : Op) :
    (op.run json env c).2.events = (c.logMutation json env.delivered op.key
      (op.outcome env.clock (c.hashMap op.key)).mutation).2 := by
  rw [run_eq h]

theorem run_result {c : ChronoCache α} (h : c.isAcceptingOps = true) (hl : c.LoggerReady)
    (json : JsonLib) (env : Env) (op : Op) :
    (op.run json env c).1 =
      (c.logAnswer json op.key (op.outcome env.clock (c.hashMap op.key)).mutation).bind
        (fun _ => (op.outcome env.clock (c.hashMap op.key)).result) := by
  rw [run_eq h, ← logMutation_fst hl json env.delivered]

theorem run_config (json : JsonLib) (env : Env) (op : Op) (c : ChronoCache α) :
    (op.run json env c).2.state = c.state ∧
      (op.run json env c).2.disableEventLogging = c.disableEventLogging := by
  cases h : c.isAcceptingOps with
  | true => rw [run_eq h]; exact ⟨rfl, rfl⟩
  | false => rw [run_refused h]; exact ⟨rfl, rfl⟩

theorem run_logging (json : JsonLib) (env : Env) (op : Op) (c : ChronoCache α) :
    (op.run json env c).2.logging = c.logging := by
  obtain ⟨hs, hd⟩ := run_config json env op c
  simp [logging, hs, hd]

/-- An accepted operation on a cache that logs: it mutates, taking the next number
of its key and, unless `dump` throws, producing an event and reporting success;
or the log stays, and at most an expired entry is dropped. -/
theorem run_logged {c : ChronoCache α} (h : c.logging = true) {l : CacheEventLogger}
    (hl : c.events.logger = some l) (json : JsonLib) (env : Env) (op : Op) :
    (∃ m y, Mutates env.clock op (c.hashMap op.key) m y ∧
        (op.run json env c).2 = { c with
          hashMap := Function.update c.hashMap op.key y
          events := ⟨some (l.nextSeq op.key).2,
            if json.dumpable op.key m.value && env.delivered then c.events.topic ++ [m.event l op.key]
            else c.events.topic⟩ } ∧
        ((op.run json env c).1 = .ok (.flag true) ↔ json.dumpable op.key m.value = true)) ∨
      (∃ y, (op.run json env c).2 = { c with hashMap := Function.update c.hashMap op.key y } ∧
        (op.run json env c).1 ≠ .ok (.flag true) ∧
        (y = c.hashMap op.key ∨ (y = none ∧
          ∃ e, c.hashMap op.key = some e ∧ e.isExpired (env.clock 0) = true))) := by
  have hready : c.LoggerReady := by intro _; simp [hl]
  have hacc : c.isAcceptingOps = true := by
    simp only [logging, Bool.and_eq_true, beq_iff_eq] at h
    simp [isAcceptingOps, h.2]
  rcases op.outcome_cases env.clock (c.hashMap op.key) with ⟨m, y, hm⟩ | ⟨hn, hr, hy⟩
  · refine .inl ⟨m, y, hm, ?_, ?_⟩
    · rw [run_eq hacc, hm.outcome_eq]
      simp only [logMutation_snd_on h hl]
    · rw [run_result hacc hready, hm.outcome_eq]
      cases hd : json.dumpable op.key m.value with
      | true => simp [logAnswer, h, JsonLib.dumpStrings_of_dumpable hd, Except.bind]
      | false =>
        obtain ⟨what, hw⟩ := JsonLib.dumpStrings_of_not_dumpable hd
        simp [logAnswer, h, hw, Except.bind]
  · refine .inr ⟨_, ?_, ?_, hy⟩
    · simp only [run_eq hacc, hn, logMutation]
    · rw [run_result hacc hready, hn]
      exact hr

theorem run_loggerReady {c : ChronoCache α} (h : c.LoggerReady) (json : JsonLib) (env : Env)
    (op : Op) : (op.run json env c).2.LoggerReady := by
  intro hl
  rw [run_logging] at hl
  cases ha : c.isAcceptingOps with
  | true =>
    rw [run_events ha]
    exact logMutation_logger h json _ _ _ hl
  | false =>
    rw [run_refused ha]
    exact h hl

theorem run_get {c : ChronoCache α} (ha : c.isAcceptingOps = true) (json : JsonLib) (env : Env)
    (k : Bytes) : ((Op.get k).run json env c).1 =
      .ok (.value (((c.hashMap k).filter (fun e => !e.isExpired (env.clock 0))).map (·.value))) := by
  have hkey : (Op.get k).key = k := rfl
  rw [Op.run_eq ha, hkey]
  cases hx : c.hashMap k with
  | none => simp [Op.outcome, logMutation, Except.bind]
  | some e =>
    by_cases he : e.isExpired (env.clock 0) = true <;>
      simp [Op.outcome, logMutation, he, Option.filter, Except.bind]

theorem run_topic_prefix {c : ChronoCache α} (h : c.LoggerReady) (json : JsonLib) (env : Env)
    (op : Op) :
    c.events.topic <+: (op.run json env c).2.events.topic := by
  have hsame (heq : (op.run json env c).2.events.topic = c.events.topic) :
      c.events.topic <+: (op.run json env c).2.events.topic := heq.symm ▸ List.prefix_refl _
  cases ha : c.isAcceptingOps with
  | false => exact hsame (by rw [run_refused ha])
  | true =>
    cases hl : c.logging with
    | false => exact hsame (by rw [run_events ha, logMutation_snd_off (.inl hl)])
    | true =>
      obtain ⟨l, hsome⟩ := Option.isSome_iff_exists.mp (h hl)
      rcases run_logged hl hsome json env op with ⟨m, y, -, heq, -⟩ | ⟨y, heq, -⟩
      · rw [heq]
        dsimp only
        split_ifs
        · exact List.prefix_append _ _
        · exact List.prefix_refl _
      · exact hsame (by rw [heq])

end Op
end Chrono
