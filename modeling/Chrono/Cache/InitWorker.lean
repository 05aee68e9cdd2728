import Chrono.Cache.ReplayByKey
import Chrono.Library.Machine

/-!
# Client operations during `INIT`

One worker runs `init(true)`, one step at a time; the operations of the other
workers fall between its steps. In state `REPLAYING` they are accepted and not
logged, and the events that replay still has to apply win over them.
-/
namespace Chrono
open ChronoCache Library

/-- Where the worker that runs `init(true)` stands. -/
inductive InitPhase where
  | idle
  | consuming
  | applying (nowMs : ℤ) (rest : List CacheEvent) (lastAppliedSeq : Table Bytes ℕ)
  | restored
  | succeeded
  | done

/-- The cache that all workers share, and the worker that initialises it. -/
structure Server (α : Type) where
  cache : ChronoCache α
  phase : InitPhase

/-- Either the initialising worker or a client makes the next step. -/
inductive Move where
  | work (now : ℕ)
  | client (op : Op) (env : Env)

variable {α : Type}

namespace Server

/-- One step of `init(true)`: to open the logger and enter `REPLAYING`, to
consume the log and read the clock, to apply one event, to restore the sequence
counters, or to pass through `REPLAY_SUCCESS` to `READY`. -/
def work (json : JsonLib) (consumed : Except Fault (List CacheEvent)) (now : ℕ) (s : Server α) :
    Server α :=
  match s.phase with
  | .idle => ⟨{ s.cache.openLogger with state := .replaying }, .consuming⟩
  | .consuming =>
    match consumed with
    | .error _ => ⟨{ s.cache with state := .replayFailed }, .done⟩
    | .ok events => ⟨s.cache, .applying (toMillis now) events (fun _ => none)⟩
  | .applying nowMs (event :: rest) lastAppliedSeq =>
    match replayEvent json nowMs now event ⟨s.cache, lastAppliedSeq⟩ with
    | (.error _, r) => ⟨{ r.cache with state := .replayFailed }, .done⟩
    | (.ok _, r) => ⟨r.cache, .applying nowMs rest r.lastAppliedSeq⟩
  | .applying _ [] lastAppliedSeq => ⟨s.cache.restoreSeqCounters lastAppliedSeq, .restored⟩
  | .restored => ⟨{ s.cache with state := .replaySuccess }, .succeeded⟩
  | .succeeded => ⟨{ s.cache with state := .ready }, .done⟩
  | .done => s

abbrev log (s : Server α) : List CacheEvent := s.cache.events.topic

end Server

/-- All workers together; a client's move is answered with its result. -/
def initMachine (α : Type) (json : JsonLib) (consumed : Except Fault (List CacheEvent)) :
    Machine (Server α) Move (Option (Except Fault Result)) where
  step s
    | .work now => (none, s.work json consumed now)
    | .client op env =>
      (some (op.run json env s.cache).1, { s with cache := (op.run json env s.cache).2 })

def InitPhase.Shows : InitPhase → ChronoCacheState → Prop
  | .idle, state => state = .uninitialized
  | .consuming, state => state = .replaying
  | .applying _ _ _, state => state = .replaying
  | .restored, state => state = .replaying
  | .succeeded, state => state = .replaySuccess
  | .done, state => state = .ready ∨ state = .replayFailed

/-- What holds whenever a step is about to be made. -/
structure Server.Sound (s : Server α) : Prop where
  shows_ : s.phase.Shows s.cache.state
  logger : s.phase ≠ .idle → s.cache.disableEventLogging = false → s.cache.events.logger.isSome = true

def Server.workMap (now : ℕ) (s : Server α) : Table Bytes CacheEntry :=
  match s.phase with
  | .applying nowMs (event :: _) lastAppliedSeq =>
    Function.update s.cache.hashMap event.key
      (event.keyStep nowMs now (s.cache.hashMap event.key, lastAppliedSeq event.key)).1
  | _ => s.cache.hashMap

theorem Server.Sound.work {s : Server α} (h : s.Sound) (json : JsonLib)
    (consumed : Except Fault (List CacheEvent)) (now : ℕ) :
    (s.work json consumed now).Sound ∧ (s.work json consumed now).log = s.log ∧
      (s.work json consumed now).cache.hashMap = s.workMap now := by
  obtain ⟨c, phase⟩ := s
  obtain ⟨hshows, hlogger⟩ := h
  cases phase with
  | idle =>
    cases hd : c.disableEventLogging with
    | true =>
      simp only [Server.work, Server.workMap, Server.log, openLogger, hd, if_true, and_self, and_true]
      exact ⟨rfl, fun _ hf => absurd hf (by simp)⟩
    | false =>
      simp only [Server.work, Server.workMap, Server.log, openLogger, hd, Bool.false_eq_true,
        if_false, and_self, and_true]
      exact ⟨rfl, fun _ _ => rfl⟩
  | consuming =>
    cases consumed with
    | error e => exact ⟨⟨.inr rfl, fun _ => hlogger (by simp)⟩, rfl, rfl⟩
    | ok events => exact ⟨⟨hshows, fun _ => hlogger (by simp)⟩, rfl, rfl⟩
  | applying nowMs rest last =>
    cases rest with
    | nil =>
      refine ⟨⟨hshows, fun _ hd => ?_⟩, rfl, rfl⟩
      simpa [Server.work, restoreSeqCounters] using hlogger (by simp) hd
    | cons event rest =>
      have heq := replayEvent_eq (s := ⟨c, last⟩) hshows json nowMs now event
      simp only [Server.work, Server.workMap, Server.log, heq, and_self, and_true]
      exact ⟨hshows, fun _ => hlogger (by simp)⟩
  | restored => exact ⟨⟨rfl, fun _ => hlogger (by simp)⟩, rfl, rfl⟩
  | succeeded => exact ⟨⟨.inl rfl, fun _ => hlogger (by simp)⟩, rfl, rfl⟩
  | done => exact ⟨⟨hshows, hlogger⟩, rfl, rfl⟩

theorem Server.Sound.loggerReady {s : Server α} (h : s.Sound) : s.cache.LoggerReady := by
  intro hl
  simp only [logging, Bool.and_eq_true, Bool.not_eq_true', beq_iff_eq] at hl
  refine h.logger ?_ hl.1
  rintro hidle
  have hstate := h.shows_
  rw [hidle, hl.2] at hstate
  cases hstate

theorem Server.Sound.client {s : Server α} (h : s.Sound) (json : JsonLib) (op : Op) (env : Env) :
    (⟨(op.run json env s.cache).2, s.phase⟩ : Server α).Sound := by
  obtain ⟨hstate, hdisable⟩ := Op.run_config json env op s.cache
  constructor
  · exact hstate ▸ h.shows_
  · intro hidle hd
    have hlogger := h.logger hidle (hdisable ▸ hd)
    cases ha : s.cache.isAcceptingOps with
    | false => rw [Op.run_refused ha]; exact hlogger
    | true =>
      rw [Op.run_events ha]
      cases hl : s.cache.logging with
      | true => exact logMutation_logger h.loggerReady json _ _ _ hl
      | false => rw [logMutation_snd_off (.inl hl)]; exact hlogger

/-- A step that neither writes or deletes `k`, nor finds the entry of `k` expired,
nor applies an event of `k`. -/
def Undisturbed (k : Bytes) (s : Server α) : Move → Prop
  | .work _ =>
    match s.phase with
    | .applying nowMs (event :: _) lastAppliedSeq =>
      event.key = k → event.seq ≤ (lastAppliedSeq k).getD 0 ∨ event.expiredAt nowMs = true
    | _ => True
  | .client op env =>
    op.key = k → (∀ value ttl, op ≠ .set k value ttl) ∧ op ≠ .del k ∧
      ∀ x, s.cache.hashMap k = some x → x.isExpired (env.clock 0) = false

theorem workMap_undisturbed {k : Bytes} {s : Server α} {now : ℕ} (h : Undisturbed k s (.work now)) :
    s.workMap now k = s.cache.hashMap k := by
  obtain ⟨c, phase⟩ := s
  cases phase with
  | applying nowMs rest last =>
    cases rest with
    | nil => rfl
    | cons event rest =>
      simp only [Server.workMap]
      by_cases hk : k = event.key
      · subst hk
        rw [Function.update_self, CacheEvent.keyStep]
        split_ifs with hseq
        · rfl
        · rcases h rfl with hle | hexp
          · exact absurd hle hseq
          · simp [CacheEvent.applyTo, hexp]
      · rw [Function.update_of_ne hk]
  | idle | consuming | restored | succeeded | done => rfl

theorem run_undisturbed {k : Bytes} {s : Server α} {op : Op} {env : Env}
    (h : Undisturbed k s (.client op env)) (json : JsonLib) {x : CacheEntry}
    (hx : s.cache.hashMap k = some x) :
    ∃ y, (op.run json env s.cache).2.hashMap k = some y ∧ y.value = x.value := by
  cases ha : s.cache.isAcceptingOps with
  | false => exact ⟨x, by rw [Op.run_refused ha, hx], rfl⟩
  | true =>
    rw [Op.run_hashMap ha]
    by_cases hk : op.key = k
    · subst hk
      obtain ⟨hset, hdel, hlive⟩ := h rfl
      rw [Function.update_self, hx]
      rcases op.outcome_cases env.clock (some x) with ⟨m, y, hm⟩ | ⟨-, -, heq | ⟨-, e, he, hexp⟩⟩
      · rw [hm.outcome_eq]
        cases hm with
        | set key value ttl => exact absurd rfl (hset value ttl)
        | del => exact absurd rfl hdel
        | expire key e ht hexp => exact ⟨_, rfl, rfl⟩
        | persist key e ht hexp => exact ⟨_, rfl, rfl⟩
      · exact ⟨x, heq, rfl⟩
      · obtain rfl := Option.some.inj he
        simp [hlive x hx] at hexp
    · rw [Function.update_of_ne (Ne.symm hk)]
      exact ⟨x, hx, rfl⟩

section
variable {json : JsonLib} {consumed : Except Fault (List CacheEvent)}

theorem Server.Sound.step {s : Server α} (h : s.Sound) (i : Move) :
    ((initMachine α json consumed).step s i).2.Sound := by
  cases i with
  | work now => exact (h.work json consumed now).1
  | client op env => exact h.client json op env

theorem undisturbed_run {k value : Bytes} {s : Server α} {later : List Move} (hs : s.Sound)
    (hk : ∃ x, s.cache.hashMap k = some x ∧ x.value = value)
    (h : (initMachine α json consumed).Admits (Undisturbed k) s later) :
    ∃ x, ((initMachine α json consumed).after s later).cache.hashMap k =
      some x ∧ x.value = value := by
  have hinv := (initMachine α json consumed).invariant
    (I := fun s' => s'.Sound ∧ ∃ x, s'.cache.hashMap k = some x ∧ x.value = value) ?_ ⟨hs, hk⟩ h
  · exact hinv.2
  · rintro s' i ⟨hs', x, hx, hval⟩ hi
    refine ⟨hs'.step i, ?_⟩
    cases i with
    | work now =>
      obtain ⟨-, -, hmap⟩ := hs'.work json consumed now
      exact ⟨x, by rw [← hx, ← workMap_undisturbed hi, ← hmap]; rfl, hval⟩
    | client op env =>
      obtain ⟨y, hy, hyval⟩ := run_undisturbed hi json hx
      exact ⟨y, hy, hyval.trans hval⟩

theorem Server.Sound.log_step {s : Server α} (h : s.Sound) (i : Move) :
    s.log <+: ((initMachine α json consumed).step s i).2.log := by
  cases i with
  | work now =>
    obtain ⟨-, hlog, -⟩ := h.work json consumed now
    exact hlog.symm ▸ List.prefix_refl _
  | client op env => exact Op.run_topic_prefix h.loggerReady json env op

theorem Server.Sound.log_prefix {s : Server α} (h : s.Sound) (later : List Move) :
    s.log <+: ((initMachine α json consumed).after s later).log := by
  induction later generalizing s with
  | nil => exact List.prefix_refl _
  | cons i later ih => exact (h.log_step i).trans (ih (h.step i))

/-- An acknowledged `SET` that is logged adds its own event at the end of the log. -/
theorem run_set_logged {c : ChronoCache α} (hready : c.LoggerReady) (hl : c.logging = true)
    {k value : Bytes} {ttl : Option ℤ} {env : Env} (hd : env.delivered = true)
    (hr : ((Op.set k value ttl).run json env c).1 = .ok (.flag true)) :
    ∃ e : CacheEvent, ((Op.set k value ttl).run json env c).2.events.topic = c.events.topic ++ [e] ∧
      e.type = .set ∧ e.key = k ∧ e.value = value ∧ e.ttlMs = ttl.getD (-1) := by
  obtain ⟨l, hsome⟩ := Option.isSome_iff_exists.mp (hready hl)
  rcases Op.run_logged hl hsome json env (.set k value ttl) with ⟨m, y, hm, heq, hok⟩ | ⟨y, -, hne, -⟩
  · have hdump := hok.mp hr
    refine ⟨m.event l k, ?_, ?_⟩
    · rw [heq]
      simp only [hdump, hd, Bool.and_self, if_true]
      rfl
    · cases hm
      exact ⟨rfl, rfl, rfl, rfl⟩
  · exact absurd hr hne

end

section
variable [LinearOrder α]

def Server.boot (disable : Bool) (topic : List CacheEvent) : Server α := ⟨create disable topic, .idle⟩

theorem boot_sound (disable : Bool) (topic : List CacheEvent) :
    (Server.boot disable topic : Server α).Sound := ⟨rfl, fun h => absurd rfl h⟩

/-- A `SET` that was acknowledged while `INIT` ran, or after it: as long as the key
is undisturbed an accepted `GET` before its deadline returns the value. Made while events are
logged, the write adds its event to the log, which no later step takes away; made in
state `REPLAYING` it adds nothing to the log. -/
theorem set_during_init (json : JsonLib) (consumed : Except Fault (List CacheEvent)) (disable : Bool)
    (topic : List CacheEvent) (before : List Move) {k value : Bytes} {ttl : Option ℤ} {env : Env}
    {s₀ s₁ : Server α}
    (hbefore : (initMachine α json consumed).after (.boot disable topic) before = s₀)
    (hset : (initMachine α json consumed).step s₀ (.client (.set k value ttl) env) =
      (some (.ok (.flag true)), s₁)) :
    (∀ later s₂, (initMachine α json consumed).Admits (Undisturbed k) s₁ later →
      (initMachine α json consumed).after s₁ later = s₂ →
        ∀ env', s₂.cache.isAcceptingOps = true →
          (∀ x, s₂.cache.hashMap k = some x → x.isExpired (env'.clock 0) = false) →
          ((Op.get k).run json env' s₂.cache).1 = .ok (.value (some value))) ∧
      (s₀.cache.logging = true → env.delivered = true →
        ∃ e : CacheEvent, s₁.log = s₀.log ++ [e] ∧ e.type = .set ∧ e.key = k ∧ e.value = value ∧
          e.ttlMs = ttl.getD (-1) ∧
            ∀ later, s₀.log ++ [e] <+: ((initMachine α json consumed).after s₁ later).log) ∧
      (s₀.cache.state = .replaying → s₁.log = s₀.log) := by
  have hs₀ : s₀.Sound := by
    rw [← hbefore]
    exact (initMachine α json consumed).preserved (fun s i h => h.step i)
      (boot_sound disable topic) before
  obtain ⟨hr, hs₁⟩ := Prod.mk.inj hset
  have hr := Option.some.inj hr
  have hkey : (Op.set k value ttl).key = k := rfl
  have ha : s₀.cache.isAcceptingOps = true := by
    by_contra hno
    rw [Op.run_refused (by simpa using hno)] at hr
    cases hr
  have hentry : ∃ x, s₁.cache.hashMap k = some x ∧ x.value = value := by
    refine ⟨.make value ttl (env.clock 0), ?_, rfl⟩
    rw [← hs₁]
    simp only [Op.run_hashMap ha, hkey, Function.update_self]
    rfl
  have hs₁' : s₁.Sound := hs₁ ▸ hs₀.client json _ env
  refine ⟨fun later s₂ hlater hs₂ env' hacc hlive => ?_, fun hl hd => ?_, fun hrep => ?_⟩
  · obtain ⟨x, hx, hval⟩ := undisturbed_run hs₁' hentry hlater
    rw [hs₂] at hx
    rw [Op.run_get hacc, hx]
    simp [Option.filter, hlive x hx, hval]
  · obtain ⟨e, hlog, htype, hkey, hvalue, httl⟩ := run_set_logged hs₀.loggerReady hl hd hr
    have hadded : s₁.log = s₀.log ++ [e] := by
      rw [← hs₁]
      exact hlog
    exact ⟨e, hadded, htype, hkey, hvalue, httl, fun later => hadded ▸ hs₁'.log_prefix later⟩
  · rw [← hs₁]
    simp only [Server.log, Op.run_events ha, logMutation_snd_off (.inl (logging_of_replaying hrep))]

/-- `SET k new` between the steps of an `INIT` that still has to apply the event
`SET k old`: `GET k` then answers `old`, and `new` is in no event of the log. -/
theorem set_during_init_counterexample :
    let old : CacheEvent := ⟨.set, lit "k", lit "old", -1, 1, 0⟩
    let M := initMachine ℤ .reference (.ok [old])
    let env : Env := ⟨fun _ => 0, true⟩
    let s₀ := M.after (.boot false [old]) [.work 0, .work 0]
    let s₁ := (M.step s₀ (.client (.set (lit "k") (lit "new") none) env)).2
    let s₂ := M.after s₁ [.work 0, .work 0, .work 0, .work 0]
    (M.step s₀ (.client (.set (lit "k") (lit "new") none) env)).1 = some (.ok (.flag true)) ∧
      s₂.cache.state = .ready ∧
      ((Op.get (lit "k")).run .reference env s₂.cache).1 = .ok (.value (some (lit "old"))) ∧
      ∀ e ∈ s₂.log, e.value ≠ lit "new" := by
  refine ⟨rfl, rfl, rfl, ?_⟩
  decide

def sampleInit : Machine (Server ℤ) Move (Option (Except Fault Result)) :=
  initMachine ℤ .reference (.ok [⟨.set, lit "k", lit "old", -1, 1, 0⟩])

def sampleSet (value : Bytes) (ttl : Option ℤ) : Move :=
  .client (.set (lit "k") value ttl) ⟨fun _ => 0, true⟩

/-- The event of `k` was applied. -/
def sampleApplied : Server ℤ :=
  sampleInit.after (.boot false [⟨.set, lit "k", lit "old", -1, 1, 0⟩]) [.work 0, .work 0, .work 0]

def sampleLater : List Move :=
  [.work 0, .client (.pttl (lit "k")) ⟨fun _ => 0, true⟩, .work 0, .work 0]

/-- Then `SET k new` was carried out, and `INIT` ended. -/
def sampleReady : Server ℤ :=
  sampleInit.after (sampleInit.step sampleApplied (sampleSet (lit "new") none)).2 sampleLater

/-- `SET k new` after the event of `k` was applied, and `SET k newer` in state `READY`. -/
theorem set_during_init_witness :
    (sampleInit.step sampleApplied (sampleSet (lit "new") none)).2.log = sampleApplied.log ∧
      ((Op.get (lit "k")).run .reference ⟨fun _ => 0, true⟩ sampleReady.cache).1 =
        .ok (.value (some (lit "new"))) ∧
      ∃ e : CacheEvent, (sampleInit.step sampleReady (sampleSet (lit "newer") (some 9))).2.log =
        sampleReady.log ++ [e] ∧
        e.type = .set ∧ e.key = lit "k" ∧ e.value = lit "newer" ∧ e.ttlMs = 9 ∧
          ∀ later, sampleReady.log ++ [e] <+:
            (sampleInit.after (sampleInit.step sampleReady
              (sampleSet (lit "newer") (some 9))).2 later).log := by
  have hfirst : (sampleInit.step sampleApplied (sampleSet (lit "new") none)).1 =
      some (.ok (.flag true)) := by
    decide +kernel
  have hsecond : (sampleInit.step sampleReady (sampleSet (lit "newer") (some 9))).1 =
      some (.ok (.flag true)) := by
    decide +kernel
  have hentry : sampleReady.cache.hashMap (lit "k") = some ⟨lit "new", none⟩ := by decide +kernel
  have hlater : sampleInit.Admits (Undisturbed (lit "k"))
      (sampleInit.step sampleApplied (sampleSet (lit "new") none)).2 sampleLater := by
    have hbefore : (sampleInit.after (sampleInit.step sampleApplied (sampleSet (lit "new") none)).2
      [.work 0]).cache.hashMap (lit "k") = some ⟨lit "new", none⟩ := by decide +kernel
    refine ⟨trivial, fun _ => ⟨by simp, by simp, fun x hx => ?_⟩, trivial, trivial, trivial⟩
    obtain rfl := Option.some.inj (hbefore.symm.trans hx)
    rfl
  obtain ⟨hget, -, hquiet⟩ := set_during_init .reference _ _ _ _ rfl (Prod.ext hfirst rfl)
  obtain ⟨-, hlogged, -⟩ :=
    set_during_init .reference (.ok [⟨.set, lit "k", lit "old", -1, 1, 0⟩]) false
      [⟨.set, lit "k", lit "old", -1, 1, 0⟩]
      ([.work 0, .work 0, .work 0, sampleSet (lit "new") none] ++ sampleLater) rfl
        (Prod.ext hsecond rfl)
  refine ⟨hquiet (by decide +kernel), hget _ _ hlater rfl _ (by decide +kernel) ?_,
    hlogged (by decide +kernel) rfl⟩
  intro x hx
  obtain rfl := Option.some.inj (hentry.symm.trans hx)
  rfl

end

/-- The steps that apply the events are the loop of `replay`. -/
theorem work_events {c : ChronoCache α} (h : c.state = .replaying) (json : JsonLib)
    (consumed : Except Fault (List CacheEvent)) (nowMs : ℤ) (clock : Clock) (i : ℕ)
    (es : List CacheEvent) (last : Table Bytes ℕ) :
    (initMachine α json consumed).after ⟨c, .applying nowMs es last⟩
        ((List.range' i es.length).map (fun j => .work (clock j))) =
      ⟨(replayEvents json nowMs clock i es ⟨c, last⟩).2.cache,
        .applying nowMs [] (replayEvents json nowMs clock i es ⟨c, last⟩).2.lastAppliedSeq⟩ := by
  induction es generalizing c i last with
  | nil => rfl
  | cons e es ih =>
    have heq := replayEvent_eq (s := ⟨c, last⟩) h json nowMs (clock i) e
    have hstep : ((initMachine α json consumed).step ⟨c, .applying nowMs (e :: es) last⟩
        (.work (clock i))).2 =
      ⟨(replayEvent json nowMs (clock i) e ⟨c, last⟩).2.cache,
        .applying nowMs es (replayEvent json nowMs (clock i) e ⟨c, last⟩).2.lastAppliedSeq⟩ := by
      simp only [initMachine, Server.work, heq]
    rw [List.length_cons, List.range'_succ, List.map_cons, Machine.after_cons, hstep, replayEvents, heq]
    exact ih (by exact h) (i + 1) _

/-- Without other workers in between, the steps are `init(true)`. -/
theorem work_uninterrupted [LinearOrder α] (json : JsonLib) (disable : Bool)
    (topic es : List CacheEvent) (clock : Clock) (t : ℕ) :
    (initMachine α json (.ok es)).after (.boot disable topic)
        (.work t :: .work (clock 0) :: ((List.range' 1 es.length).map (fun j => .work (clock j)) ++
          [.work t, .work t, .work t])) =
      ⟨((create disable topic : ChronoCache α).init json true (.ok es) clock).2, .done⟩ := by
  have hloop :=
    work_events (α := α) (c := { (create disable topic).openLogger with state := .replaying })
      rfl json (.ok es) (toMillis (clock 0)) clock 1 es (fun _ => none)
  have hstart : ((initMachine α json (.ok es)).step ((initMachine α json (.ok es)).step
        (.boot disable topic) (.work t)).2 (.work (clock 0))).2 =
      ⟨{ (create disable topic).openLogger with state := .replaying },
        .applying (toMillis (clock 0)) es (fun _ => none)⟩ := rfl
  rw [Machine.after_cons, Machine.after_cons, Machine.after_append, hstart, hloop]
  simp only [init, create, replay, Bool.true_eq_false, if_false, if_true]
  rw [replayEvents_eq rfl]
  rfl

end Chrono
