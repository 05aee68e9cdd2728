import Chrono.Library.Machine
import Chrono.Server.Handlers

/-!
# When an error reply means that nothing happened

A command reaches the main map through the operations it requests of the cache.
Those change an entry first and log the change afterwards, so an exception of the
logger is reported after the change: this is the only way in which an error reply
follows a change.
-/
namespace Chrono
open ChronoCache CommandHandler Library

def eventLoop {α : Type} [LinearOrder α] (json : JsonLib) (text : DoubleText α) :
    Machine (ChronoCache α) (CommandEnv × Option RespValue) (Except Fault Bytes) where
  step c i := EventLoop.respond json text i.1 i.2 c

variable {α : Type}

/-- The operation changes the entry of its key and hands the logger a key or a
value that `dump` rejects. -/
def FailsMidway (json : JsonLib) (clock : Clock) (c : ChronoCache α) (op : Op) : Prop :=
  ∃ m y, op.Mutates clock (c.hashMap op.key) m y ∧ json.dumpable op.key m.value = false ∧
    y ≠ c.hashMap op.key

/-- The map and the log are as before. -/
def Unchanged (c c' : ChronoCache α) : Prop :=
  c'.hashMap = c.hashMap ∧ c'.events.topic = c.events.topic

theorem OnlySortedSets.unchanged {c c' : ChronoCache α} (h : OnlySortedSets c c') :
    Unchanged c c' := by
  rw [h]
  exact ⟨rfl, rfl⟩

/-- A `READY` cache that logs. -/
structure Logging (c : ChronoCache α) : Prop where
  logging : c.logging = true
  logger : c.events.logger.isSome = true

namespace Logging
variable {c : ChronoCache α}

theorem accepting (h : Logging c) : c.isAcceptingOps = true := by
  have hl := h.logging
  simp only [ChronoCache.logging, Bool.and_eq_true, beq_iff_eq] at hl
  simp [isAcceptingOps, hl.2]

theorem loggerReady (h : Logging c) : c.LoggerReady := fun _ => h.logger

theorem run (h : Logging c) (json : JsonLib) (env : Env) (op : Op) :
    Logging (op.run json env c).2 := by
  have hl : (op.run json env c).2.logging = true := (Op.run_logging json env op c).trans h.logging
  exact ⟨hl, Op.run_loggerReady h.loggerReady json env op hl⟩

/-- An operation with valid arguments throws exactly when it hands the logger a
string that `dump` rejects; the change of the entry then stays. -/
theorem run_cases (h : Logging c) (op : Op) (hop : ∀ key ttl, op = .expire key ttl → 0 < ttl)
    (json : JsonLib) (env : Env) :
    ((∃ r, (op.run json env c).1 = .ok r) ∧
        ¬ ∃ m y, op.Mutates env.clock (c.hashMap op.key) m y ∧ json.dumpable op.key m.value = false) ∨
      ∃ what m y, (op.run json env c).1 = .error (.exception what) ∧
        op.Mutates env.clock (c.hashMap op.key) m y ∧ json.dumpable op.key m.value = false ∧
        (op.run json env c).2.hashMap = Function.update c.hashMap op.key y ∧
        (op.run json env c).2.events.topic = c.events.topic := by
  obtain ⟨l, hl⟩ := Option.isSome_iff_exists.mp h.logger
  obtain ⟨r, hr⟩ := Op.outcome_ok hop env.clock (c.hashMap op.key)
  rw [Op.run_result h.accepting h.loggerReady, hr]
  rcases logAnswer_cases json op.key c (op.outcome env.clock (c.hashMap op.key)).mutation with
    ⟨hans, hno⟩ | ⟨⟨what, hans⟩, -, m, hm, hd⟩
  · refine .inl ⟨⟨r, by simp [hans, Except.bind]⟩, ?_⟩
    rintro ⟨m, y, hm, hd⟩
    exact hno ⟨h.logging, m, by rw [hm.outcome_eq], hd⟩
  · rcases op.outcome_cases env.clock (c.hashMap op.key) with ⟨m', y, hm'⟩ | ⟨hn, -⟩
    · obtain rfl : m' = m := by simpa [hm'.outcome_eq] using hm
      refine .inr ⟨what, m', y, by simp [hans, Except.bind], hm', hd, ?_, ?_⟩
      · rw [Op.run_hashMap h.accepting, hm'.outcome_eq]
      · rw [Op.run_events h.accepting, hm'.outcome_eq, logMutation_snd_on h.logging hl]
        simp [hd]
    · simp [hn] at hm

end Logging

/-- A result that the event loop turns into an error reply. -/
def Reports : Except Fault Bytes → Prop
  | .ok reply => isErrorReply reply = true
  | .error (.exception _) => True
  | .error .undefined => False

/-- An error means that nothing happened exactly when no requested operation
fails midway. -/
def SafeIff (json : JsonLib) (clock : Clock) (c : ChronoCache α) (ops : List Op)
    (r : Except Fault Bytes × ChronoCache α) : Prop :=
  (Reports r.1 → Unchanged c r.2) ↔ ∀ op ∈ ops, ¬ FailsMidway json clock c op

theorem safeIff_of_unchanged (json : JsonLib) (clock : Clock) {c : ChronoCache α}
    {r : Except Fault Bytes × ChronoCache α} (h : Unchanged c r.2) : SafeIff json clock c [] r :=
  ⟨fun _ _ hop => absurd hop List.not_mem_nil, fun _ _ => h⟩

theorem safeIff_call {c : ChronoCache α} (h : Logging c) (json : JsonLib) (env : Env) (op : Op)
    (hop : ∀ key ttl, op = .expire key ttl → 0 < ttl) {ρ : Type} {f : Action (ChronoCache α) ρ}
    (inj : ρ → Result) (hf : op.run json env c = ((f c).1.map inj, (f c).2)) {serialize : ρ → Bytes}
    (hser : ∀ r, isErrorReply (serialize r) = false) :
    SafeIff json env.clock c [op] (call f serialize c) := by
  have hstate : (call f serialize c).2 = (op.run json env c).2 := by rw [hf]; rfl
  rw [SafeIff]
  rw [hstate]
  simp only [List.mem_singleton, forall_eq]
  rcases h.run_cases op hop json env with ⟨⟨r, hr⟩, hno⟩ | ⟨what, m, y, hr, hm, hd, hmap, htopic⟩
  · have hquiet : ¬ Reports (call f serialize c).1 := by
      rw [hf] at hr
      cases hfc : (f c).1 with
      | error e => simp [hfc, Except.map] at hr
      | ok x => simp [call, hfc, Except.map, Reports, hser]
    refine iff_of_true (fun hrep => absurd hrep hquiet) ?_
    rintro ⟨m, y, hm, hd, -⟩
    exact hno ⟨m, y, hm, hd⟩
  · have hrep : Reports (call f serialize c).1 := by
      rw [hf] at hr
      cases hfc : (f c).1 with
      | error e => simp_all [call, Except.map, Reports]
      | ok x => simp [hfc, Except.map] at hr
    constructor
    · rintro hsame ⟨m', y', hm', -, hne⟩
      have heq := (hsame hrep).1
      have hy : y' = y := congrArg Outcome.entry (hm'.outcome_eq.symm.trans hm.outcome_eq)
      rw [hmap] at heq
      have := congrFun heq op.key
      rw [Function.update_self] at this
      exact hne (hy.trans this)
    · intro hsafe _
      have hy : y = c.hashMap op.key := by
        by_contra hne
        exact hsafe ⟨m, y, hm, hd, hne⟩
      exact ⟨by rw [hmap, hy, Function.update_eq_self], htopic⟩

/-- One deletion throws exactly when the key is present and `dump` rejects it. In
either case the key is gone. -/
theorem Logging.del_cases {c : ChronoCache α} (h : Logging c) (json : JsonLib) (env : Env)
    (key : Bytes) :
    ∃ r c', c.del json env key = (r, c') ∧ Logging c' ∧ c'.hashMap = c.hashMap.erase key ∧
      ((∃ removed, r = .ok removed) ∧ (json.dumpable key [] = true ∨ c.hashMap key = none) ∨
        (∃ what, r = .error (.exception what)) ∧ json.dumpable key [] = false ∧
        c.hashMap key ≠ none) := by
  have hrun : (Op.del key).run json env c =
    ((c.del json env key).1.map .flag, (c.del json env key).2) := rfl
  have hkey : (Op.del key).key = key := rfl
  refine ⟨(c.del json env key).1, (c.del json env key).2, rfl, h.run json env (.del key), ?_, ?_⟩
  · refine (Op.run_hashMap h.accepting json env (.del key)).trans ?_
    cases hx : c.hashMap key <;> simp [hkey, Op.outcome, hx, Table.erase]
  · rcases h.run_cases (.del key) (by simp) json env with
      ⟨⟨r, hr⟩, hno⟩ | ⟨what, m, y, hr, hm, hd, -, -⟩
    · refine .inl ⟨?_, ?_⟩
      · rw [hrun] at hr
        cases hx : (c.del json env key).1 with
        | error e => simp [hx, Except.map] at hr
        | ok removed => exact ⟨removed, rfl⟩
      · by_contra hbad
        obtain ⟨hd, hx⟩ := not_or.mp hbad
        obtain ⟨e, he⟩ := Option.ne_none_iff_exists'.mp hx
        refine hno ⟨⟨.delete, [], -1, env.clock 0⟩, none, ?_, by simpa [hkey] using hd⟩
        rw [hkey, he]
        exact .del key e
    · rw [hkey] at hm hd
      refine .inr ⟨⟨what, ?_⟩, ?_⟩
      · rw [hrun] at hr
        cases hx : (c.del json env key).1 with
        | error e => simpa [hx, Except.map] using hr
        | ok removed => simp [hx, Except.map] at hr
      · generalize c.hashMap key = x at hm
        cases hm with
        | del key e => exact ⟨hd, by simp⟩

/-- The loop of `DEL`: it throws exactly when it comes to a key that is present and
that `dump` rejects, and that key is then gone. -/
theorem delLoop_cases {c : ChronoCache α} (h : Logging c) (json : JsonLib) (env : CommandEnv)
    (args : List RespValue) (i : ℕ) (count : ℤ) :
    ((∃ n, (delLoop json env i count args c).1 = .ok n) ∧
        ∀ arg ∈ args, json.dumpable arg.strValue [] = true ∨ c.hashMap arg.strValue = none) ∨
      (∃ what, (delLoop json env i count args c).1 = .error (.exception what)) ∧
        ∃ arg ∈ args, json.dumpable arg.strValue [] = false ∧ c.hashMap arg.strValue ≠ none ∧
          (delLoop json env i count args c).2.hashMap arg.strValue = none := by
  induction args generalizing c i count with
  | nil => exact .inl ⟨⟨count, rfl⟩, by simp⟩
  | cons arg args ih =>
    obtain ⟨r, c', hdel, hlog, hmap, ⟨⟨removed, rfl⟩, harg⟩ | ⟨⟨what, rfl⟩, hd, hx⟩⟩ :=
      h.del_cases json (env.calls i) arg.strValue
    · simp only [delLoop, hdel]
      -- a key that is present after the deletion is another one, and was present before
      have hback (a : RespValue) : c'.hashMap a.strValue = none ↔
          a.strValue = arg.strValue ∨ c.hashMap a.strValue = none := by
        rw [hmap]
        by_cases hk : a.strValue = arg.strValue
        · simp [hk]
        · simp [hk]
      rcases ih hlog (i + 1) (if removed then count + 1 else count) with
        ⟨hn, hall⟩ | ⟨hwhat, a, ha, hd, hx, hy⟩
      · refine .inl ⟨hn, fun a ha => ?_⟩
        rcases List.mem_cons.mp ha with rfl | ha
        · exact harg
        · rcases hall a ha with hd | hx
          · exact .inl hd
          · rcases (hback a).mp hx with hk | hx
            · exact hk ▸ harg
            · exact .inr hx
      · refine .inr ⟨hwhat, a, List.mem_cons_of_mem _ ha, hd, fun hx' => hx ?_, hy⟩
        exact (hback a).mpr (.inr hx')
    · simp only [delLoop, hdel]
      exact .inr ⟨⟨what, rfl⟩, arg, List.mem_cons_self, hd, hx, by simp [hmap]⟩

theorem safeIff_del {c : ChronoCache α} (h : Logging c) (json : JsonLib) (env : CommandEnv)
    (args : List RespValue) :
    SafeIff json (env.calls 0).clock c (args.map (fun arg => .del arg.strValue))
      (call (delLoop json env 0 0 args) RespSerializer.integer c) := by
  rw [SafeIff]
  have hmid (arg : RespValue) : FailsMidway json (env.calls 0).clock c (.del arg.strValue) ↔
      json.dumpable arg.strValue [] = false ∧ c.hashMap arg.strValue ≠ none := by
    constructor
    · rintro ⟨m, y, hm, hd, -⟩
      change Op.Mutates _ _ (c.hashMap arg.strValue) _ _ at hm
      generalize c.hashMap arg.strValue = x at *
      cases hm with
      | del key e => exact ⟨hd, by simp⟩
    · rintro ⟨hd, hx⟩
      obtain ⟨e, he⟩ := Option.ne_none_iff_exists'.mp hx
      refine ⟨⟨.delete, [], -1, (env.calls 0).clock 0⟩, none, ?_, hd, Ne.symm hx⟩
      change Op.Mutates _ _ (c.hashMap arg.strValue) _ _
      exact he ▸ Op.Mutates.del arg.strValue e
  simp only [List.forall_mem_map, hmid]
  rcases delLoop_cases h json env args 0 0 with ⟨⟨n, hn⟩, hall⟩ | ⟨⟨what, hw⟩, arg, harg, hd, hx, hy⟩
  · refine iff_of_true (fun hrep => ?_) (fun arg harg hbad => ?_)
    · simp [call, hn, Except.map, Reports] at hrep
    · rcases hall arg harg with hd | hx
      · simp [hd] at hbad
      · exact hbad.2 hx
  · refine iff_of_false (fun hsame => ?_) (fun hsafe => hsafe arg harg ⟨hd, hx⟩)
    have heq := (hsame (by simp [call, hw, Except.map, Reports])).1
    exact hx ((congrFun heq arg.strValue).symm.trans hy)

section
variable {c : ChronoCache α} (json : JsonLib) (text : DoubleText α) (env : CommandEnv)

theorem safeIff_cmdSet (h : Logging c) (args : List RespValue) :
    SafeIff json (env.calls 0).clock c (requestsOf (lit "SET") args) (cmdSet json env args c) := by
  have hset (key value : RespValue) (ttl : Option ℤ) :
      SafeIff json (env.calls 0).clock c [.set key.strValue value.strValue ttl]
        (call (ChronoCache.set json (env.calls 0) key.strValue value.strValue ttl)
          (fun _ => RespSerializer.ok) c) :=
    safeIff_call h json (env.calls 0) (.set key.strValue value.strValue ttl)
      (by simp) .flag rfl (fun _ => rfl)
  rcases args with _ | ⟨key, _ | ⟨value, _ | ⟨opt, _ | ⟨ms, _ | ⟨extra, args⟩⟩⟩⟩⟩
  · exact safeIff_of_unchanged json _ ⟨rfl, rfl⟩
  · exact safeIff_of_unchanged json _ ⟨rfl, rfl⟩
  · exact hset key value none
  · exact safeIff_of_unchanged json _ ⟨rfl, rfl⟩
  · change SafeIff json _ c (if opt.strValue ≠ lit "EX" ∧ opt.strValue ≠ lit "ex" then [] else _) _
    rw [cmdSet]
    by_cases hopt : opt.strValue ≠ lit "EX" ∧ opt.strValue ≠ lit "ex"
    · rw [if_pos hopt, if_pos hopt]
      exact safeIff_of_unchanged json _ ⟨rfl, rfl⟩
    · rw [if_neg hopt, if_neg hopt]
      cases hms : stoll ms.strValue with
      | error e => exact safeIff_of_unchanged json _ ⟨rfl, rfl⟩
      | ok n =>
        by_cases hn : n ≤ 0
        · simp only [if_pos hn]
          exact safeIff_of_unchanged json _ ⟨rfl, rfl⟩
        · simp only [if_neg hn]
          exact hset key value (some n)
  · exact safeIff_of_unchanged json _ ⟨rfl, rfl⟩

theorem safeIff_cmdGet (h : Logging c) (args : List RespValue) :
    SafeIff json (env.calls 0).clock c (requestsOf (lit "GET") args) (cmdGet env args c) := by
  have hser (r : Option Bytes) : isErrorReply (bulkOrNull r) = false := by cases r <;> rfl
  rcases args with _ | ⟨key, _ | ⟨extra, args⟩⟩
  · exact safeIff_of_unchanged json _ ⟨rfl, rfl⟩
  · exact safeIff_call h json (env.calls 0) (.get key.strValue) (by simp) .value rfl hser
  · exact safeIff_of_unchanged json _ ⟨rfl, rfl⟩

theorem safeIff_cmdDel (h : Logging c) (args : List RespValue) :
    SafeIff json (env.calls 0).clock c (requestsOf (lit "DEL") args) (cmdDel json env args c) := by
  cases args with
  | nil => exact safeIff_of_unchanged json _ ⟨rfl, rfl⟩
  | cons arg args => exact safeIff_del h json env (arg :: args)

theorem safeIff_cmdExpire (h : Logging c) (args : List RespValue) :
    SafeIff json (env.calls 0).clock c (requestsOf (lit "EXPIRE") args)
      (cmdExpire json env args c) := by
  rcases args with _ | ⟨key, _ | ⟨ms, _ | ⟨extra, args⟩⟩⟩
  · exact safeIff_of_unchanged json _ ⟨rfl, rfl⟩
  · exact safeIff_of_unchanged json _ ⟨rfl, rfl⟩
  · rw [cmdExpire]
    cases hms : stoll ms.strValue with
    | error e =>
      rw [requestsOf_expire_error hms]
      exact safeIff_of_unchanged json _ ⟨rfl, rfl⟩
    | ok n =>
      rw [requestsOf_expire_ok hms]
      by_cases hn : n ≤ 0
      · simp only [if_pos hn]
        exact safeIff_of_unchanged json _ ⟨rfl, rfl⟩
      · simp only [if_neg hn]
        refine safeIff_call h json (env.calls 0) (.expire key.strValue n) ?_ .flag rfl
          (fun _ => rfl)
        intro k ttl hop
        obtain ⟨-, rfl⟩ := Op.expire.inj hop
        exact Int.not_le.mp hn
  · exact safeIff_of_unchanged json _ ⟨rfl, rfl⟩

theorem safeIff_cmdPersist (h : Logging c) (args : List RespValue) :
    SafeIff json (env.calls 0).clock c (requestsOf (lit "PERSIST") args)
      (cmdPersist json env args c) := by
  rcases args with _ | ⟨key, _ | ⟨extra, args⟩⟩
  · exact safeIff_of_unchanged json _ ⟨rfl, rfl⟩
  · exact safeIff_call h json (env.calls 0) (.persist key.strValue) (by simp) .flag rfl
      (fun _ => rfl)
  · exact safeIff_of_unchanged json _ ⟨rfl, rfl⟩

theorem safeIff_cmdPttl (h : Logging c) (args : List RespValue) :
    SafeIff json (env.calls 0).clock c (requestsOf (lit "PTTL") args) (cmdPttl env args c) := by
  rcases args with _ | ⟨key, _ | ⟨extra, args⟩⟩
  · exact safeIff_of_unchanged json _ ⟨rfl, rfl⟩
  · exact safeIff_call h json (env.calls 0) (.pttl key.strValue) (by simp) .millis rfl
      (fun _ => rfl)
  · exact safeIff_of_unchanged json _ ⟨rfl, rfl⟩

variable [LinearOrder α]

theorem safeIff_execute (h : Logging c) (command : RespValue) (hinit : ¬ isInit command) :
    SafeIff json (env.calls 0).clock c (requests command) (execute json text env command c) := by
  by_cases hcmd : command.type = .array ∧ command.array ≠ []
  · obtain ⟨htype, hne⟩ := hcmd
    obtain ⟨head, args, harray⟩ := List.exists_cons_of_ne_nil hne
    have hreq : requests command = requestsOf (toUpper head.strValue) args := by
      unfold requests
      rw [htype, harray]
    have hname : toUpper head.strValue ≠ lit "INIT" := fun hn => hinit ⟨htype, head, args, harray, hn⟩
    have hunchanged {r : Except Fault Bytes × ChronoCache α}
        (hnone : requestsOf (toUpper head.strValue) args = []) (hr : Unchanged c r.2) :
        SafeIff json (env.calls 0).clock c (requestsOf (toUpper head.strValue) args) r := by
      rw [hnone]
      exact safeIff_of_unchanged json _ hr
    rw [hreq, execute_array json text env htype harray]
    rcases dispatch_cases json text env head args with ⟨handler, hmem, heq⟩ | ⟨hunknown, heq⟩
    · rw [heq]
      simp only [handlers, List.mem_cons, Prod.mk.injEq, List.not_mem_nil, or_false] at hmem
      rcases hmem with ⟨hn, -⟩ | ⟨hn, rfl⟩ | ⟨hn, rfl⟩ | ⟨hn, rfl⟩ | ⟨hn, rfl⟩ | ⟨hn, rfl⟩ | ⟨hn, rfl⟩ |
        ⟨hn, rfl⟩ | ⟨hn, rfl⟩ | ⟨hn, rfl⟩ | ⟨hn, rfl⟩ | ⟨hn, rfl⟩
      · exact absurd hn hname
      · exact hunchanged (by rw [hn]; rfl) (by rw [cmdPing_state]; exact ⟨rfl, rfl⟩)
      · rw [hn]
        exact safeIff_cmdSet json env h args
      · rw [hn]
        exact safeIff_cmdGet json env h args
      · rw [hn]
        exact safeIff_cmdDel json env h args
      · rw [hn]
        exact safeIff_cmdExpire json env h args
      · rw [hn]
        exact safeIff_cmdPersist json env h args
      · rw [hn]
        exact safeIff_cmdPttl json env h args
      · exact hunchanged (by rw [hn]; rfl) (onlySortedSets_cmdZadd text args).unchanged
      · exact hunchanged (by rw [hn]; rfl) (onlySortedSets_cmdZscore text args).unchanged
      · exact hunchanged (by rw [hn]; rfl) (onlySortedSets_cmdZrem args).unchanged
      · exact hunchanged (by rw [hn]; rfl) (onlySortedSets_cmdZrank args).unchanged
    · rw [heq]
      refine hunchanged ?_ ⟨rfl, rfl⟩
      -- a name outside the table requests no operation
      have hne (name : Bytes) (hmem : name ∈ commandNames) : toUpper head.strValue ≠ name :=
        fun hn => hunknown (hn ▸ hmem)
      simp [requestsOf, hne (lit "SET") (by simp [commandNames]),
        hne (lit "GET") (by simp [commandNames]), hne (lit "DEL") (by simp [commandNames]),
        hne (lit "EXPIRE") (by simp [commandNames]), hne (lit "PERSIST") (by simp [commandNames]),
        hne (lit "PTTL") (by simp [commandNames])]
  · have hnone : requests command = [] := by
      unfold requests
      split
      · next htype harray => exact absurd ⟨htype, by simp [harray]⟩ hcmd
      · rfl
    rw [hnone, execute_invalid json text env hcmd]
    exact safeIff_of_unchanged json _ ⟨rfl, rfl⟩

end

/-- The configuration logs, and the logger is there once `init` was entered. -/
structure Opened (c : ChronoCache α) : Prop where
  enabled : c.disableEventLogging = false
  logger : c.state ≠ .uninitialized → c.events.logger.isSome = true

namespace Opened
variable {c : ChronoCache α}

theorem run (h : Opened c) (json : JsonLib) (env : Env) (op : Op) : Opened (op.run json env c).2 := by
  obtain ⟨hstate, hdisable⟩ := Op.run_config json env op c
  constructor
  · exact hdisable.trans h.enabled
  · intro hs
    rw [hstate] at hs
    have hl := h.logger hs
    cases ha : c.isAcceptingOps with
    | false => rw [Op.run_refused ha]; exact hl
    | true =>
      rw [Op.run_events ha]
      cases hlog : c.logging with
      | true => exact logMutation_logger (fun _ => hl) json _ _ _ hlog
      | false => rw [logMutation_snd_off (.inl hlog)]; exact hl

theorem init (h : Opened c) (json : JsonLib) (withReplay : Bool)
    (consumed : Except Fault (List CacheEvent)) (clock : Clock) :
    Opened (c.init json withReplay consumed clock).2 := by
  rw [ChronoCache.init]
  by_cases hready : c.state = .ready
  · simp only [hready, if_true]
    exact h
  by_cases huninit : c.state = .uninitialized
  · have hopen : c.openLogger = { c with events := ⟨some .fresh, c.events.topic⟩ } := by
      simp [openLogger, h.enabled]
    simp only [huninit, reduceCtorEq, if_false, hopen, ne_eq, not_true_eq_false]
    cases withReplay with
    | false => exact ⟨h.enabled, fun _ => rfl⟩
    | true =>
      cases consumed with
      | error e => exact ⟨h.enabled, fun _ => rfl⟩
      | ok es =>
        simp only [replay, Bool.true_eq_false, if_false]
        rw [replayEvents_eq rfl]
        exact ⟨h.enabled, fun _ => rfl⟩
  · simp only [hready, huninit, if_false, ne_eq, not_false_eq_true, if_true]
    exact h

end Opened

section
variable [LinearOrder α] (json : JsonLib) (text : DoubleText α)

theorem opened_execute (env : CommandEnv) (command : RespValue) :
    Preserves Opened (execute json text env command) := by
  apply preserves_execute
  · exact fun op _ env c h => h.run json env op
  · exact fun withReplay clock c h => h.init json withReplay env.consumed clock
  · exact fun c api h => ⟨h.enabled, h.logger⟩

/-- The answer of the event loop is an error reply exactly when the handler
reports one; the cache is the one the handler leaves. -/
theorem respond_some (env : CommandEnv) (command : RespValue) (c : ChronoCache α) :
    (EventLoop.respond json text env (some command) c).2 = (execute json text env command c).2 ∧
      ((∃ reply, (EventLoop.respond json text env (some command) c).1 = .ok reply ∧
        isErrorReply reply = true) ↔ Reports (execute json text env command c).1) := by
  rcases hx : execute json text env command c with ⟨(⟨what⟩ | _) | reply, c'⟩ <;>
    simp [EventLoop.respond, hx, Reports]

theorem eventLoop_opened (topic : List CacheEvent) (run : List (CommandEnv × Option RespValue)) :
    Opened ((eventLoop json text).after (create false topic) run) := by
  apply (eventLoop json text).preserved
  · rintro c ⟨env, command⟩ h
    cases command with
    | none => exact h
    | some command =>
      change Opened (EventLoop.respond json text env (some command) c).2
      rw [(respond_some json text env command c).1]
      exact opened_execute json text env command c h
  · exact ⟨rfl, fun h => absurd rfl h⟩

/-- In every reachable `READY` state of a server that logs, an error reply to a
request other than `INIT` means that map and log are as before, exactly when no
operation that the request makes fails midway. -/
theorem errorReply_iff (topic : List CacheEvent) (run : List (CommandEnv × Option RespValue))
    {c : ChronoCache α} (hc : (eventLoop json text).after (create false topic) run = c)
    (hready : c.state = .ready) (env : CommandEnv) (command : RespValue) (hinit : ¬ isInit command) :
    ((∃ reply, (EventLoop.respond json text env (some command) c).1 = .ok reply ∧
        isErrorReply reply = true) →
      Unchanged c (EventLoop.respond json text env (some command) c).2) ↔
    ∀ op ∈ requests command, ¬ FailsMidway json (env.calls 0).clock c op := by
  have hopen : Opened c := hc ▸ eventLoop_opened json text topic run
  have hlog : Logging c := by
    refine ⟨by simp [ChronoCache.logging, hopen.enabled, hready], hopen.logger ?_⟩
    simp [hready]
  obtain ⟨hstate, hrep⟩ := respond_some json text env command c
  rw [hstate, hrep]
  exact safeIff_execute json text env hlog command hinit

end

def initialised : ChronoCache ℤ :=
  (eventLoop .reference noDoubles).after (create false [])
    [(quietEnv, some (.command [lit "INIT"]))]

/-- `SET` of a key that is not UTF-8 answers with an error and stores the entry. -/
theorem errorReply_counterexample :
    let command := RespValue.command [lit "SET", [0xFF], lit "x"]
    let r := EventLoop.respond .reference noDoubles quietEnv (some command) initialised
    initialised.state = .ready ∧ ¬ isInit command ∧
      (∃ reply, r.1 = .ok reply ∧ isErrorReply reply = true) ∧
      initialised.hashMap [0xFF] = none ∧ r.2.hashMap [0xFF] = some ⟨lit "x", none⟩ := by
  refine ⟨rfl, ?_, ⟨_, rfl, rfl⟩, rfl, rfl⟩
  rintro ⟨-, head, args, harr, hname⟩
  obtain ⟨rfl, -⟩ := List.cons.inj harr
  exact absurd hname (by decide)

/-- The same `SET` once more is an error again, and finds the entry as it leaves it. -/
theorem errorReply_witness :
    let command := RespValue.command [lit "SET", [0xFF], lit "x"]
    let c := (EventLoop.respond .reference noDoubles quietEnv (some command) initialised).2
    let r := EventLoop.respond .reference noDoubles quietEnv (some command) c
    requests command = [.set [0xFF] (lit "x") none] ∧
      (∃ reply, r.1 = .ok reply ∧ isErrorReply reply = true) ∧
      Unchanged c r.2 := by
  intro command c r
  have herror : ∃ reply, r.1 = .ok reply ∧ isErrorReply reply = true := ⟨_, rfl, rfl⟩
  have hinit : ¬ isInit command := by
    rintro ⟨-, head, args, harr, hname⟩
    obtain ⟨rfl, -⟩ := List.cons.inj harr
    exact absurd hname (by decide)
  have hmid : ∀ op ∈ requests command, ¬ FailsMidway .reference (quietEnv.calls 0).clock c op := by
    intro op hop
    obtain rfl : op = .set [0xFF] (lit "x") none := List.mem_singleton.mp hop
    rintro ⟨m, y, hm, -, hne⟩
    cases hm
    exact hne rfl
  exact ⟨rfl, herror, (errorReply_iff .reference noDoubles []
    [(quietEnv, some (.command [lit "INIT"])),
      (quietEnv, some command)] rfl rfl quietEnv command hinit).mpr hmid herror⟩

end Chrono
