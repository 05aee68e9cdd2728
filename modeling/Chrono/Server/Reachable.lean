import Chrono.Cache.Expiry
import Chrono.Server.EventLoop
import Chrono.Server.Handlers

/-!
# The caches that a server can reach

Any worker may answer a request, and between two requests a worker that runs
`init(true)` may make a step.
-/
namespace Chrono
open ChronoCache CommandHandler Connection

/-- What `consume_all_events` answers: events read from messages, whose lengths are
`int32_t`, or its one exception. -/
def Consumes : Except Fault (List CacheEvent) → Prop
  | .ok events => ∀ e ∈ events, e.value.length < 2 ^ 31
  | .error e =>
    e = .exception (lit "Kafka broker unreachable: timed out after 3 consecutive timeouts")

theorem consumes_quietEnv : Consumes quietEnv.consumed := fun _ he => absurd he List.not_mem_nil

section
variable {α : Type} [LinearOrder α] (json : JsonLib) (text : DoubleText α)

inductive Reachable : ChronoCache α → Prop where
  | create (disableEventLogging : Bool) (topic : List CacheEvent) :
    Reachable (create disableEventLogging topic)
  | request {c : ChronoCache α} (h : Reachable c) (env : CommandEnv) (henv : Consumes env.consumed)
    (payload : Bytes) (hfits : Fits payload) :
    Reachable (EventLoop.answer json text env payload c).2
  | beginReplay {c : ChronoCache α} (h : Reachable c) (hs : c.state = .uninitialized) :
    Reachable { c.openLogger with state := .replaying }
  | replayEvent {c : ChronoCache α} (h : Reachable c) (hs : c.state = .replaying) (nowMs : ℤ) (now : ℕ)
    (event : CacheEvent) (hvalue : event.value.length < 2 ^ 31) (lastAppliedSeq : Table Bytes ℕ) :
    Reachable (replayEvent json nowMs now event ⟨c, lastAppliedSeq⟩).2.cache
  | restore {c : ChronoCache α} (h : Reachable c) (hs : c.state = .replaying)
    (lastAppliedSeq : Table Bytes ℕ) : Reachable (c.restoreSeqCounters lastAppliedSeq)
  | endReplay {c : ChronoCache α} (h : Reachable c) (hs : c.state = .replaying) (success : Bool) :
    Reachable { c with state := if success then .replaySuccess else .replayFailed }
  | becomeReady {c : ChronoCache α} (h : Reachable c) (hs : c.state = .replaySuccess) :
    Reachable { c with state := .ready }

end

variable {α : Type}

/-- The values of all entries are shorter than 2³¹ bytes. -/
def ShortValues (c : ChronoCache α) : Prop := ∀ k, ∀ e ∈ c.hashMap k, e.value.length < 2 ^ 31

/-- The logger is there once `init` was entered, unless logging is disabled. -/
def Configured (c : ChronoCache α) : Prop :=
  c.disableEventLogging = false → c.state ≠ .uninitialized → c.events.logger.isSome = true

namespace Configured
variable {c : ChronoCache α}

theorem loggerReady (h : Configured c) : c.LoggerReady := by
  intro hl
  simp only [logging, Bool.and_eq_true, Bool.not_eq_true', beq_iff_eq] at hl
  exact h hl.1 (by simp [hl.2])

theorem run (h : Configured c) (json : JsonLib) (env : Env) (op : Op) :
    Configured (op.run json env c).2 := by
  obtain ⟨hstate, hdisable⟩ := Op.run_config json env op c
  intro hd hs
  rw [hdisable] at hd
  rw [hstate] at hs
  cases ha : c.isAcceptingOps with
  | false =>
    rw [Op.run_refused ha]
    exact h hd hs
  | true =>
    rw [Op.run_events ha]
    cases hl : c.logging with
    | true => exact logMutation_logger h.loggerReady json _ _ _ hl
    | false =>
      rw [logMutation_snd_off (.inl hl)]
      exact h hd hs

theorem openLogger (c : ChronoCache α) (state : ChronoCacheState) :
    Configured { c.openLogger with state := state } := by
  intro hd _
  unfold ChronoCache.openLogger at hd ⊢
  split_ifs at hd ⊢ with hdisable
  · exact absurd hd (by simp [hdisable])
  · rfl

theorem restore (h : Configured c) (hs : c.state ≠ .uninitialized) (lastAppliedSeq : Table Bytes ℕ)
    (state : ChronoCacheState) :
    Configured { c.restoreSeqCounters lastAppliedSeq with state := state } := by
  intro hd _
  simpa [restoreSeqCounters] using h hd hs

end Configured

/-- A property of the entry of a key that holds where there is none, and that operations with
short values and replayed events with short values preserve. -/
structure EntryInvariant (P : Option CacheEntry → Prop) : Prop where
  absent : P none
  outcome : ∀ (clock : Clock) (op : Op) (x : Option CacheEntry),
    (∀ key value ttl, op = .set key value ttl → value.length < 2 ^ 31) → P x →
      P (op.outcome clock x).entry
  restored : ∀ e : CacheEvent, e.value.length < 2 ^ 31 → ∀ nowMs now, P (e.restored nowMs now)

/-- Every key of the cache has the property. -/
def Entries (P : Option CacheEntry → Prop) (c : ChronoCache α) : Prop := ∀ k, P (c.hashMap k)

namespace EntryInvariant
variable {P : Option CacheEntry → Prop} {c : ChronoCache α}

theorem run (hP : EntryInvariant P) (h : Entries P c) (json : JsonLib) (env : Env) {op : Op}
    (hop : ∀ key value ttl, op = .set key value ttl → value.length < 2 ^ 31) :
    Entries P (op.run json env c).2 := by
  cases ha : c.isAcceptingOps with
  | false =>
    rw [Op.run_refused ha]
    exact h
  | true =>
    intro k
    rw [Op.run_hashMap ha]
    by_cases hk : k = op.key
    · rw [hk, Function.update_self]
      exact hP.outcome env.clock op _ hop (h op.key)
    · rw [Function.update_of_ne hk]
      exact h k

theorem replayEvent (hP : EntryInvariant P) (h : Entries P c) (hs : c.state = .replaying)
    (json : JsonLib) (nowMs : ℤ) (now : ℕ) {event : CacheEvent}
    (hvalue : event.value.length < 2 ^ 31) (lastAppliedSeq : Table Bytes ℕ) :
    Entries P (Chrono.replayEvent json nowMs now event ⟨c, lastAppliedSeq⟩).2.cache := by
  rw [replayEvent_eq hs]
  intro k
  change P (Function.update c.hashMap event.key _ k)
  by_cases hk : k = event.key
  · rw [hk, Function.update_self]
    unfold CacheEvent.keyStep CacheEvent.applyTo
    split_ifs
    · exact h event.key
    · exact h event.key
    · exact hP.restored event hvalue nowMs now
  · rw [Function.update_of_ne hk]
    exact h k

end EntryInvariant

theorem shortValues_invariant : EntryInvariant fun x => ∀ e ∈ x, e.value.length < 2 ^ 31 where
  absent := by simp
  outcome clock op x hop hx := by
    rcases op.outcome_cases clock x with ⟨m, y, hm⟩ | ⟨-, -, hy | ⟨hy, -⟩⟩
    · rw [hm.outcome_eq]
      cases hm with
      | set key value ttl => simpa [CacheEntry.make] using hop key value ttl rfl
      | del => simp
      | expire => simpa [CacheEntry.updateTtl] using hx
      | persist => simpa [CacheEntry.removeTtl] using hx
    · rw [hy]
      exact hx
    · simp [hy]
  restored e he nowMs now := by
    rw [CacheEvent.restored]
    cases e.type with
    | delete => simp
    | set | expire | persist =>
      intro x hx
      obtain rfl := Option.some.inj hx
      exact he

theorem deadlines_invariant : EntryInvariant fun x => ∀ e ∈ x, ∀ d ∈ e.expiresAt, d < 2 ^ 63 where
  absent := by simp
  outcome clock op _ _ hx := op.outcome_deadlines hx clock
  restored e _ nowMs now := e.restored_deadlines nowMs now

theorem init_uninitialized {c : ChronoCache α} (h : c.state = .uninitialized) (json : JsonLib)
    (withReplay : Bool) (consumed : Except Fault (List CacheEvent)) (clock : Clock) :
    c.init json withReplay consumed clock =
      if withReplay = false then (.ok true, { c.openLogger with state := .ready })
      else match consumed with
        | .error e => (.error e, { c.openLogger with state := .replayFailed })
        | .ok events =>
          let after (k : Bytes) :=
            keyReplay (toMillis (clock 0)) clock k 1 events (c.openLogger.hashMap k, none)
          (.ok true, { (({ c.openLogger with state := .replaying, hashMap := fun k => (after k).1 } :
            ChronoCache α).restoreSeqCounters fun k => (after k).2) with state := .ready }) := by
  unfold ChronoCache.init
  rw [if_neg (by simp [h]), if_neg (by simp [h])]
  cases withReplay with
  | false => rfl
  | true =>
    cases consumed with
    | error e => rfl
    | ok events =>
      simp only [replay, Bool.true_eq_false, if_false]
      rw [replayEvents_eq rfl]
      rfl

theorem init_initialized {c : ChronoCache α} (h : c.state ≠ .uninitialized) (json : JsonLib)
    (withReplay : Bool) (consumed : Except Fault (List CacheEvent)) (clock : Clock) :
    c.init json withReplay consumed clock =
      (if c.state = .ready then .ok true
        else .error (.exception (lit "ChronoCache::init() requires UNINITIALIZED state")), c) := by
  unfold ChronoCache.init
  by_cases hready : c.state = .ready
  · rw [if_pos hready, if_pos hready]
  · rw [if_neg hready, if_pos h, if_neg hready]

/-- `init` preserves what opening the logger, replaying events and changes of state do. -/
theorem init_cases (json : JsonLib) (withReplay : Bool) (consumed : Except Fault (List CacheEvent))
    (clock : Clock) (c : ChronoCache α) :
    (c.init json withReplay consumed clock).2 = c ∨
      c.state = .uninitialized ∧
        ((∃ state, (c.init json withReplay consumed clock).2 = { c.openLogger with state := state }) ∨
          ∃ events lastAppliedSeq, consumed = .ok events ∧
            (c.init json withReplay consumed clock).2 =
              { (({ c.openLogger with
                  state := .replaying
                  hashMap := fun k =>
                    (keyReplay (toMillis (clock 0)) clock k 1 events
                      (c.openLogger.hashMap k, none)).1 } :
                  ChronoCache α).restoreSeqCounters lastAppliedSeq) with state := .ready }) := by
  by_cases huninit : c.state = .uninitialized
  · refine .inr ⟨huninit, ?_⟩
    rw [init_uninitialized huninit]
    cases withReplay with
    | false => exact .inl ⟨.ready, rfl⟩
    | true =>
      cases consumed with
      | error e => exact .inl ⟨.replayFailed, rfl⟩
      | ok events => exact .inr ⟨events, _, rfl, rfl⟩
  · exact .inl (by rw [init_initialized huninit])

theorem openLogger_hashMap (c : ChronoCache α) : c.openLogger.hashMap = c.hashMap := by
  unfold ChronoCache.openLogger
  split_ifs <;> rfl

theorem Configured.init {c : ChronoCache α} (h : Configured c) (json : JsonLib) (withReplay : Bool)
    (consumed : Except Fault (List CacheEvent)) (clock : Clock) :
    Configured (c.init json withReplay consumed clock).2 := by
  rcases init_cases json withReplay consumed clock c with
    heq | ⟨-, ⟨state, heq⟩ | ⟨events, last, -, heq⟩⟩
  · rw [heq]
    exact h
  · rw [heq]
    exact Configured.openLogger c state
  · rw [heq]
    exact Configured.restore (c := { c.openLogger with state := .replaying, hashMap := _ })
      (Configured.openLogger c .replaying) (by simp) last .ready

theorem EntryInvariant.init {P : Option CacheEntry → Prop} (hP : EntryInvariant P)
    {c : ChronoCache α} (h : Entries P c) (json : JsonLib) (withReplay : Bool)
    {consumed : Except Fault (List CacheEvent)} (hconsumed : Consumes consumed)
    (clock : Clock) : Entries P (c.init json withReplay consumed clock).2 := by
  rcases init_cases json withReplay consumed clock c with
    heq | ⟨-, ⟨state, heq⟩ | ⟨events, last, rfl, heq⟩⟩
  · rw [heq]
    exact h
  · rw [heq]
    intro k
    change P (c.openLogger.hashMap k)
    rw [openLogger_hashMap]
    exact h k
  · rw [heq]
    intro k
    apply keyReplay_entry
    · change P (c.openLogger.hashMap k)
      rw [openLogger_hashMap]
      exact h k
    · exact fun e he => hP.restored e (hconsumed e he)

/-! ## Requests -/

theorem requestsOf_set {name : Bytes} {args : List RespValue} {key value : Bytes} {ttl : Option ℤ}
    (h : .set key value ttl ∈ requestsOf name args) : ∃ a ∈ args, a.strValue = value := by
  unfold requestsOf at h
  split_ifs at h with hset hget hdel hexpire hpersist hpttl
  · split at h
    · next k v =>
      obtain ⟨-, rfl, -⟩ := Op.set.inj (List.mem_singleton.mp h)
      exact ⟨v, by simp, rfl⟩
    · next k v opt ms =>
      split_ifs at h with hopt
      · exact absurd h List.not_mem_nil
      · split at h
        · exact absurd h List.not_mem_nil
        · split_ifs at h
          · exact absurd h List.not_mem_nil
          · obtain ⟨-, rfl, -⟩ := Op.set.inj (List.mem_singleton.mp h)
            exact ⟨v, by simp, rfl⟩
    · exact absurd h List.not_mem_nil
  · split at h <;> simp at h
  · simp at h
  · split at h
    · split at h
      · simp at h
      · split_ifs at h <;> simp at h
    · simp at h
  · split at h <;> simp at h
  · split at h <;> simp at h
  · exact absurd h List.not_mem_nil

theorem requests_set {command : RespValue} {key value : Bytes} {ttl : Option ℤ}
    (h : .set key value ttl ∈ requests command) : ∃ a ∈ command.array, a.strValue = value := by
  unfold requests at h
  split at h
  · next head args htype harray =>
    obtain ⟨a, ha, hvalue⟩ := requestsOf_set h
    exact ⟨a, harray ▸ List.mem_cons_of_mem _ ha, hvalue⟩
  · exact absurd h List.not_mem_nil

section
variable [LinearOrder α] (json : JsonLib) (text : DoubleText α) (env : CommandEnv)

theorem EventLoop.answer_eq (payload : Bytes) :
    ∃ command, RespParser.parse payload = .ok command ∧
      (∀ v, command = some v → RespParser.ReadFrom payload v) ∧
      EventLoop.answer (α := α) json text env payload = EventLoop.respond json text env command := by
  obtain ⟨command, hparse, hread⟩ := RespParser.within_parse payload
  refine ⟨command, hparse, hread, ?_⟩
  unfold EventLoop.answer
  rw [hparse]

theorem respond_state (command : RespValue) (c : ChronoCache α) :
    (EventLoop.respond json text env (some command) c).2 = (execute json text env command c).2 := by
  unfold EventLoop.respond
  dsimp only
  split
  · next h => rw [h]
  · rfl

theorem preserves_answer_of {I : ChronoCache α → Prop} {payload : Bytes}
    (hop : ∀ command, RespParser.ReadFrom payload command → OpsPreserve json (requests command) I)
    (hinit : ∀ withReplay clock c, I c → I (c.init json withReplay env.consumed clock).2)
    (hsets : ∀ (c : ChronoCache α) api, I c → I { c with sortedSets := api }) :
    Preserves I (EventLoop.answer json text env payload) := by
  obtain ⟨command, -, hread, heq⟩ := EventLoop.answer_eq json text env payload
  rw [heq]
  cases command with
  | none => exact preserves_answer _
  | some command =>
    intro c h
    rw [respond_state]
    exact preserves_execute (hop command (hread command rfl)) hinit hsets c h

theorem EntryInvariant.answer {P : Option CacheEntry → Prop} (hP : EntryInvariant P)
    {env : CommandEnv} (henv : Consumes env.consumed) {payload : Bytes} (hfits : Fits payload) :
    Preserves (Entries P) (EventLoop.answer (α := α) json text env payload) := by
  apply preserves_answer_of
  · intro command hread op hmem env c h
    refine hP.run h json env ?_
    rintro key value ttl rfl
    obtain ⟨a, ha, rfl⟩ := requests_set hmem
    have hlen := hread.elements a ha
    have hmax : payload.length ≤ 2 ^ 25 := hfits
    omega
  · exact fun withReplay clock c h => hP.init h json withReplay henv clock
  · exact fun c api h => h

theorem Configured.answer (payload : Bytes) :
    Preserves Configured (EventLoop.answer (α := α) json text env payload) := by
  apply preserves_answer_of
  · exact fun command _ op _ env c h => h.run json env op
  · exact fun withReplay clock c h => h.init json withReplay env.consumed clock
  · exact fun c api h => h

variable {json text} {c : ChronoCache α}

theorem Reachable.entries {P : Option CacheEntry → Prop} (hP : EntryInvariant P)
    (h : Reachable json text c) :
    Entries P c := by
  induction h with
  | create => exact fun k => hP.absent
  | request h env henv payload hfits ih => exact hP.answer json text henv hfits _ ih
  | beginReplay h hs ih =>
    intro k
    change P ((ChronoCache.openLogger _).hashMap k)
    rw [openLogger_hashMap]
    exact ih k
  | replayEvent h hs nowMs now event hvalue last ih =>
    exact hP.replayEvent ih hs json nowMs now hvalue last
  | restore h hs last ih => exact ih
  | endReplay h hs success ih => exact ih
  | becomeReady h hs ih => exact ih

theorem Reachable.shortValues (h : Reachable json text c) : ShortValues c :=
  h.entries shortValues_invariant

theorem Reachable.deadlines (h : Reachable json text c) :
    ∀ k, ∀ e ∈ c.hashMap k, ∀ d ∈ e.expiresAt, d < 2 ^ 63 :=
  h.entries deadlines_invariant

theorem Reachable.configured (h : Reachable json text c) : Configured c := by
  induction h with
  | create => exact fun hd hs => absurd rfl hs
  | request h env henv payload hfits ih => exact Configured.answer json text env payload _ ih
  | beginReplay h hs ih => exact Configured.openLogger _ _
  | replayEvent h hs nowMs now event hvalue last ih =>
    rw [replayEvent_eq hs]
    exact fun hd _ => ih hd (by rw [hs]; decide)
  | restore h hs last ih => exact ih.restore (by rw [hs]; decide) last _
  | endReplay h hs success ih => exact fun hd _ => ih hd (by rw [hs]; decide)
  | becomeReady h hs ih => exact fun hd _ => ih hd (by rw [hs]; decide)

end
end Chrono
