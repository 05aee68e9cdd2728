import Chrono.Cache.ReplayByKey
import Chrono.Library.Machine

/-!
# Lazy expiry implements eager expiry

The cache removes an expired entry when an operation comes across it. `EagerMap`
is what clients are to see: a map whose entries carry an exact deadline and are
visible up to it. Stale entries on one side match invisible ones on the other,
and only an exception of the logger can tell the two apart.
-/
namespace Chrono
open ChronoCache Library

/-- What clients are to see of a key: a value and, possibly, the last
nanosecond at which it is visible. -/
structure EagerEntry where
  value : Bytes
  deadline : Option ℤ
deriving DecidableEq, Repr

abbrev EagerMap := Table Bytes EagerEntry

def EagerEntry.visible (t : ℕ) (e : EagerEntry) : Bool :=
  match e.deadline with
  | none => true
  | some d => decide ((t : ℤ) ≤ d)

/-- What `pttl` is to answer for a visible entry. -/
def EagerEntry.millisLeft (t : ℕ) (e : EagerEntry) : ℤ :=
  match e.deadline with
  | none => -1
  | some d => (d - t) / nsPerMs

namespace Op

/-- The reference answer to an operation at time `t`, and the entry it leaves. -/
def eager (t : ℕ) : Op → Option EagerEntry → Except Fault Result × Option EagerEntry
  | set _ value ttl, _ => (.ok (.flag true), some ⟨value, ttl.map (fun ms => t + ms * nsPerMs)⟩)
  | get _, y => (.ok (.value ((y.filter (·.visible t)).map (·.value))), y)
  | del _, y => (.ok (.flag (y.filter (·.visible t)).isSome), none)
  | expire _ ttl, y =>
    if ttl ≤ 0 then (.error (.exception (lit "TTL must be greater than 0")), y)
    else match y.filter (·.visible t) with
      | none => (.ok (.flag false), y)
      | some e => (.ok (.flag true), some { e with deadline := some (t + ttl * nsPerMs) })
  | pttl _, y =>
    match y.filter (·.visible t) with
    | none => (.ok (.millis (-2)), y)
    | some e => (.ok (.millis (e.millisLeft t)), y)
  | persist _, y =>
    match y.filter (·.visible t) with
    | none => (.ok (.flag false), y)
    | some e =>
      if e.deadline.isSome then (.ok (.flag true), some { e with deadline := none })
      else (.ok (.flag false), y)

/-- The operations whose results are compared: all but `set` and `del`. -/
def observed : Op → Bool
  | set _ _ _ => false
  | del _ => false
  | get _ => true
  | expire _ _ => true
  | pttl _ => true
  | persist _ => true

def observe (op : Op) (r : Except Fault Result) : Option (Except Fault Result) :=
  if op.observed then some r else none

/-- A TTL given to `set` is positive, and the deadlines that `set` and `expire`
compute are within the clock's range. -/
def Valid (t : ℕ) : Op → Prop
  | set _ _ (some ttl) => 0 < ttl ∧ DeadlineInRange t ttl
  | expire _ ttl => 0 < ttl → DeadlineInRange t ttl
  | _ => True

end Op

/-- An operation, its clock reading and the broker's answer to its event. -/
structure TimedOp where
  op : Op
  now : ℕ
  delivered : Bool

namespace TimedOp

def env (i : TimedOp) : Env := ⟨fun _ => i.now, i.delivered⟩

abbrev key (i : TimedOp) : Bytes := i.op.key

end TimedOp

def cacheMachine (α : Type) (json : JsonLib) :
    Machine (ChronoCache α) TimedOp (Option (Except Fault Result)) where
  step c i := (i.op.observe (i.op.run json i.env c).1, (i.op.run json i.env c).2)

def eagerMachine : Machine EagerMap TimedOp (Option (Except Fault Result)) where
  step m i := (i.op.observe (i.op.eager i.now (m i.key)).1,
    Function.update m i.key (i.op.eager i.now (m i.key)).2)

/-- A key of the cache and of the reference at time `t`: the same entry, or none
in the cache and none or an outdated one in the reference. -/
inductive Agrees (t : ℕ) : Option CacheEntry → Option EagerEntry → Prop where
  | same (e : CacheEntry) (h : ∀ d ∈ e.expiresAt, d < 2 ^ 63) :
    Agrees t (some e) (some ⟨e.value, e.expiresAt⟩)
  | absent : Agrees t none none
  | purged (value : Bytes) {d : ℤ} (h : d < t) : Agrees t none (some ⟨value, some d⟩)

theorem Agrees.mono {t t' : ℕ} (h : t ≤ t') {x : Option CacheEntry} {y : Option EagerEntry}
    (hxy : Agrees t x y) : Agrees t' x y := by
  cases hxy with
  | same e hd => exact .same e hd
  | absent => exact .absent
  | purged value hd => exact .purged value (by omega)

theorem visible_eq_not_isExpired (t : ℕ) (e : CacheEntry) :
    (⟨e.value, e.expiresAt⟩ : EagerEntry).visible t = !e.isExpired t := by
  unfold EagerEntry.visible CacheEntry.isExpired
  cases e.expiresAt with
  | none => rfl
  | some d =>
    by_cases h : (t : ℤ) ≤ d
    · simp [h, Int.not_lt.mpr h]
    · simp [h, Int.not_le.mp h]

/-- What the callbacks of the cache distinguish: a key is live, with the same
entry on both sides, or it is seen on neither side. -/
theorem Agrees.live_or_hidden {t : ℕ} {x : Option CacheEntry} {y : Option EagerEntry}
    (h : Agrees t x y) :
    (∃ e, x = some e ∧ e.isExpired t = false ∧ (∀ d ∈ e.expiresAt, d < 2 ^ 63) ∧
        y = some ⟨e.value, e.expiresAt⟩ ∧ y.filter (·.visible t) = y) ∨
      ((x = none ∨ ∃ e, x = some e ∧ e.isExpired t = true) ∧ y.filter (·.visible t) = none ∧
        Agrees t none y) := by
  cases h with
  | same e hd =>
    have hv := visible_eq_not_isExpired t e
    cases hx : e.isExpired t with
    | false => exact .inl ⟨e, rfl, hx, hd, rfl, by simp [Option.filter, hv, hx]⟩
    | true =>
      refine .inr ⟨.inr ⟨e, rfl, hx⟩, by simp [Option.filter, hv, hx], ?_⟩
      cases hexp : e.expiresAt with
      | none => simp [CacheEntry.isExpired, hexp] at hx
      | some d => exact .purged e.value (by simpa [CacheEntry.isExpired, hexp] using hx)
  | absent => exact .inr ⟨.inl rfl, rfl, .absent⟩
  | purged value hd =>
    refine .inr ⟨.inl rfl, ?_, .purged value hd⟩
    simp [Option.filter, EagerEntry.visible, Int.not_le.mpr hd]

theorem remainingTtl_eq {e : CacheEntry} {t : ℕ} (hd : ∀ d ∈ e.expiresAt, d < 2 ^ 63)
    (hx : e.isExpired t = false) :
    (e.remainingTtl t).getD (-1) = (⟨e.value, e.expiresAt⟩ : EagerEntry).millisLeft t := by
  unfold CacheEntry.remainingTtl EagerEntry.millisLeft CacheEntry.isExpired at *
  cases hexp : e.expiresAt with
  | none => rfl
  | some d =>
    have hlt := hd d (by simp [hexp])
    simp only [hexp, decide_eq_false_iff_not, Int.not_lt, gt_iff_lt] at hx
    have hwrap : toInt64 (d - t) = d - t := toInt64_eq_self (by omega) (by omega)
    simp only [Option.map_some, Option.getD_some, hwrap]
    exact Int.tdiv_eq_ediv_of_nonneg (by omega)

theorem agrees_make {t : ℕ} (value : Bytes) {ttl : Option ℤ}
    (h : ∀ ms ∈ ttl, 0 ≤ ms ∧ DeadlineInRange t ms) :
    Agrees t (some (.make value ttl t)) (some ⟨value, ttl.map (fun ms => t + ms * nsPerMs)⟩) := by
  have hmap : ttl.map (fun ms => (t : ℤ) + ms * nsPerMs) = ttl.map (deadlineAfter t) := by
    cases ttl with
    | none => rfl
    | some ms =>
      obtain ⟨hpos, hr⟩ := h ms rfl
      simp [deadlineAfter_eq hpos hr]
  rw [hmap]
  apply Agrees.same (.make value ttl t)
  intro d hd
  obtain ⟨ms, -, rfl⟩ := Option.map_eq_some_iff.mp hd
  exact toInt64_lt _

namespace Op

/-- One operation keeps a key of the cache and of the reference in agreement,
and its result, before any exception of the logger, is the reference's. -/
theorem outcome_agrees {t : ℕ} {x : Option CacheEntry} {y : Option EagerEntry} (h : Agrees t x y)
    (op : Op) (hv : op.Valid t) :
    Agrees t (op.outcome (fun _ => t) x).entry (op.eager t y).2 ∧
      (op.observed = true → (op.outcome (fun _ => t) x).result = (op.eager t y).1) := by
  cases op with
  | set key value ttl =>
    refine ⟨agrees_make value ?_, by simp [observed]⟩
    intro ms hms
    obtain rfl := Option.mem_def.mp hms
    exact ⟨hv.1.le, hv.2⟩
  | del key => cases x <;> exact ⟨.absent, by simp [observed]⟩
  | get key =>
    rcases h.live_or_hidden with ⟨e, rfl, hx, hd, rfl, hy⟩ | ⟨hx, hy, hn⟩
    · simp [outcome, eager, hx, hy, Agrees.same e hd]
    · rcases hx with rfl | ⟨e, rfl, hx⟩
      · simp [outcome, eager, hy, hn]
      · simp [outcome, eager, hx, hy, hn]
  | expire key ttl =>
    by_cases ht : ttl ≤ 0
    · simp [outcome, eager, ht, h]
    · have hmake (v : Bytes) : Agrees t (some (.make v (some ttl) t))
          (some ⟨v, some (t + ttl * nsPerMs)⟩) :=
        agrees_make v (fun ms hms => by cases hms; exact ⟨by omega, hv (by omega)⟩)
      rcases h.live_or_hidden with ⟨e, rfl, hx, hd, rfl, hy⟩ | ⟨hx, hy, hn⟩
      · simp only [outcome, eager, ht, if_false, hx, hy, Bool.false_eq_true]
        exact ⟨hmake e.value, by simp⟩
      · rcases hx with rfl | ⟨e, rfl, hx⟩
        · simp [outcome, eager, ht, hy, hn]
        · simp [outcome, eager, ht, hx, hy, hn]
  | pttl key =>
    rcases h.live_or_hidden with ⟨e, rfl, hx, hd, rfl, hy⟩ | ⟨hx, hy, hn⟩
    · simp [outcome, eager, hx, hy, Agrees.same e hd, remainingTtl_eq hd hx]
    · rcases hx with rfl | ⟨e, rfl, hx⟩
      · simp [outcome, eager, hy, hn]
      · simp [outcome, eager, hx, hy, hn]
  | persist key =>
    rcases h.live_or_hidden with ⟨e, rfl, hx, hd, rfl, hy⟩ | ⟨hx, hy, hn⟩
    · cases hexp : e.hasTtl with
      | true =>
        have hsome : e.expiresAt.isSome = true := hexp
        simp only [outcome, eager, hx, hy, hexp, hsome, if_true, if_false, Bool.false_eq_true]
        exact ⟨.same e.removeTtl (by simp [CacheEntry.removeTtl]), by simp⟩
      | false =>
        have hnone : e.expiresAt.isSome = false := hexp
        simp [outcome, eager, hx, hy, hexp, hnone, Agrees.same e hd]
    · rcases hx with rfl | ⟨e, rfl, hx⟩
      · simp [outcome, eager, hy, hn]
      · simp [outcome, eager, hx, hy, hn]

end Op

/-- A `READY` cache whose logger is there when it logs, and whose deadlines are
`int64` time points. -/
structure ChronoCache.Ready {α : Type} (c : ChronoCache α) : Prop where
  state : c.state = .ready
  loggerReady : c.LoggerReady
  deadlines : ∀ k, ∀ e ∈ c.hashMap k, ∀ d ∈ e.expiresAt, d < 2 ^ 63

/-- The operation gets as far as the logger with a key or a value that `dump`
rejects, and reports the exception instead of its result. -/
def LogThrows {α : Type} (json : JsonLib) (c : ChronoCache α) (i : TimedOp) : Prop :=
  c.logging = true ∧ ∃ e, c.hashMap i.key = some e ∧ e.isExpired i.now = false ∧
    json.dumpable i.key e.value = false ∧
    match i.op with
    | .expire _ ttl => 0 < ttl
    | .persist _ => e.hasTtl = true
    | _ => False

variable {α : Type}

theorem ChronoCache.Ready.isAcceptingOps {c : ChronoCache α} (h : c.Ready) :
    c.isAcceptingOps = true := by simp [ChronoCache.isAcceptingOps, h.state]

namespace Op

theorem outcome_deadlines {x : Option CacheEntry} (h : ∀ e ∈ x, ∀ d ∈ e.expiresAt, d < 2 ^ 63)
    (clock : Clock) (op : Op) :
    ∀ e ∈ (op.outcome clock x).entry, ∀ d ∈ e.expiresAt, d < 2 ^ 63 := by
  rcases op.outcome_cases clock x with ⟨m, y, hm⟩ | ⟨-, -, hx | ⟨hx, -⟩⟩
  · rw [hm.outcome_eq]
    cases hm with
    | set key value ttl =>
      rintro e he d hd
      obtain rfl := Option.some.inj he
      obtain ⟨ms, -, rfl⟩ := Option.map_eq_some_iff.mp hd
      exact toInt64_lt _
    | del => simp
    | expire =>
      rintro e he d hd
      obtain rfl := Option.some.inj he
      obtain rfl := Option.some.inj hd
      exact toInt64_lt _
    | persist => simp [CacheEntry.removeTtl]
  · rw [hx]
    exact h
  · simp [hx]

theorem run_ready {c : ChronoCache α} (h : c.Ready) (json : JsonLib) (env : Env) (op : Op) :
    (op.run json env c).2.Ready where
  state := (run_config json env op c).1.trans h.state
  loggerReady := run_loggerReady h.loggerReady json env op
  deadlines k := by
    rw [run_hashMap h.isAcceptingOps]
    by_cases hk : k = op.key
    · subst hk
      rw [Function.update_self]
      exact outcome_deadlines (h.deadlines op.key) env.clock op
    · rw [Function.update_of_ne hk]
      exact h.deadlines k

/-- An operation with an observed result mutates exactly when it gets as far as
the logger. -/
theorem logThrows_iff {c : ChronoCache α} (json : JsonLib) (i : TimedOp) (ho : i.op.observed = true) :
    LogThrows json c i ↔ c.logging = true ∧
      ∃ m, (i.op.outcome i.env.clock (c.hashMap i.key)).mutation = some m ∧
        json.dumpable i.key m.value = false := by
  rw [LogThrows]
  refine and_congr_right fun _ => ?_
  obtain ⟨op, now, delivered⟩ := i
  generalize c.hashMap (TimedOp.key ⟨op, now, delivered⟩) = x
  constructor
  · rintro ⟨e, rfl, hx, hd, hop⟩
    cases op with
    | expire key ttl => exact ⟨_, congrArg _ (Mutates.expire key e hop hx).outcome_eq, hd⟩
    | persist key => exact ⟨_, congrArg _ (Mutates.persist key e hop hx).outcome_eq, hd⟩
    | set | del | get | pttl => exact hop.elim
  · rintro ⟨m, hm, hd⟩
    rcases op.outcome_cases (fun _ => now) x with ⟨m', y, h⟩ | ⟨hn, -⟩
    · obtain rfl : m' = m := by simpa [TimedOp.env, h.outcome_eq] using hm
      cases h with
      | set | del => simp [observed] at ho
      | expire key e ht hexp => exact ⟨e, rfl, hexp, hd, ht⟩
      | persist key e ht hexp => exact ⟨e, rfl, hexp, hd, ht⟩
    · simp [TimedOp.env, hn] at hm

end Op

/-- Cache and reference before the operations `is`: they agree at a time that no
reading precedes, the readings do not decrease, and the operations are valid. -/
structure Simulates (c : ChronoCache α) (m : EagerMap) (is : List TimedOp) : Prop where
  ready : c.Ready
  agrees : ∃ t, (∀ k, Agrees t (c.hashMap k) (m k)) ∧ ∀ i ∈ is, t ≤ i.now
  sorted : is.Pairwise (fun i j => i.now ≤ j.now)
  valid : ∀ i ∈ is, i.op.Valid i.now

/-- The result of an observed operation is its outcome, unless the logger throws. -/
theorem run_result_iff {c : ChronoCache α} (h : c.Ready) (json : JsonLib) (i : TimedOp)
    (ho : i.op.observed = true) :
    (i.op.run json i.env c).1 = (i.op.outcome i.env.clock (c.hashMap i.key)).result ↔
      ¬ LogThrows json c i := by
  rw [Op.logThrows_iff json i ho, Op.run_result h.isAcceptingOps h.loggerReady]
  change (c.logAnswer json i.key (i.op.outcome i.env.clock (c.hashMap i.key)).mutation).bind
    (fun _ => (i.op.outcome i.env.clock (c.hashMap i.key)).result) = _ ↔ _
  rcases logAnswer_cases json i.key c (i.op.outcome i.env.clock (c.hashMap i.key)).mutation with
    ⟨hok, hno⟩ | ⟨⟨what, hthrow⟩, hyes⟩
  · simp only [hok, Except.bind, true_iff]
    exact hno
  · obtain ⟨m, hm, -⟩ := hyes.2
    rw [hthrow, Op.outcome_result_of_mutation hm]
    simp only [Except.bind, reduceCtorEq, false_iff, not_not]
    exact hyes

theorem Simulates.next {c : ChronoCache α} {m : EagerMap} {i : TimedOp} {is : List TimedOp}
    (h : Simulates c m (i :: is)) (json : JsonLib) :
    Simulates ((cacheMachine α json).step c i).2 (eagerMachine.step m i).2 is := by
  obtain ⟨t, hag, hle⟩ := h.agrees
  obtain ⟨hhead, htail⟩ := List.pairwise_cons.mp h.sorted
  refine ⟨Op.run_ready h.ready json i.env i.op, ⟨i.now, fun k => ?_, hhead⟩, htail,
    fun j hj => h.valid j (List.mem_cons_of_mem _ hj)⟩
  have hstep := Op.outcome_agrees ((hag i.key).mono (hle i List.mem_cons_self)) i.op
    (h.valid i List.mem_cons_self)
  simp only [cacheMachine, eagerMachine, Op.run_hashMap h.ready.isAcceptingOps]
  by_cases hk : k = i.key
  · subst hk
    rw [Function.update_self, Function.update_self]
    exact hstep.1
  · rw [Function.update_of_ne hk, Function.update_of_ne hk]
    exact (hag k).mono (hle i List.mem_cons_self)

theorem Simulates.output_iff {c : ChronoCache α} {m : EagerMap} {i : TimedOp} {is : List TimedOp}
    (h : Simulates c m (i :: is)) (json : JsonLib) :
    ((cacheMachine α json).step c i).1 = (eagerMachine.step m i).1 ↔ ¬ LogThrows json c i := by
  obtain ⟨t, hag, hle⟩ := h.agrees
  have hstep := Op.outcome_agrees ((hag i.key).mono (hle i List.mem_cons_self)) i.op
    (h.valid i List.mem_cons_self)
  cases ho : i.op.observed with
  | true =>
    simp only [cacheMachine, eagerMachine, Op.observe, ho, if_true, Option.some.injEq,
      ← run_result_iff h.ready json i ho, ← hstep.2 ho]
    rfl
  | false =>
    have hno : ¬ LogThrows json c i := by
      rintro ⟨-, e, -, -, -, hop⟩
      cases hi : i.op <;> simp [hi, Op.observed] at ho hop
    simp [cacheMachine, eagerMachine, Op.observe, ho, hno]

/-- Two caches that answer the operations on one key alike. -/
structure SameKey (k : Bytes) (c d : ChronoCache α) : Prop where
  left : c.Ready
  right : d.Ready
  logging : c.logging = d.logging
  entry : c.hashMap k = d.hashMap k

/-- An operation on the key is answered alike and leaves the key alike. -/
theorem SameKey.hit {k : Bytes} {c d : ChronoCache α} (h : SameKey k c d) (json : JsonLib)
    {i : TimedOp} (hk : i.key = k) :
    ((cacheMachine α json).step c i).1 = ((cacheMachine α json).step d i).1 ∧
      SameKey k ((cacheMachine α json).step c i).2 ((cacheMachine α json).step d i).2 := by
  subst hk
  have hentry : c.hashMap i.op.key = d.hashMap i.op.key := h.entry
  have hanswer (m : Option Mutation) : c.logAnswer json i.op.key m = d.logAnswer json i.op.key m := by
    cases m <;> simp [logAnswer, h.logging]
  constructor
  · simp only [cacheMachine, Op.run_result h.left.isAcceptingOps h.left.loggerReady,
      Op.run_result h.right.isAcceptingOps h.right.loggerReady, hentry, hanswer]
  · refine ⟨Op.run_ready h.left json _ _, Op.run_ready h.right json _ _, ?_, ?_⟩
    · simpa only [cacheMachine, Op.run_logging] using h.logging
    · simp only [cacheMachine, Op.run_hashMap h.left.isAcceptingOps,
        Op.run_hashMap h.right.isAcceptingOps, TimedOp.key, Function.update_self, hentry]

theorem SameKey.miss {k : Bytes} {c d : ChronoCache α} (h : SameKey k c d) (json : JsonLib)
    {i : TimedOp} (hk : i.key ≠ k) : SameKey k ((cacheMachine α json).step c i).2 d := by
  refine ⟨Op.run_ready h.left json _ _, h.right, ?_, ?_⟩
  · simpa only [cacheMachine, Op.run_logging] using h.logging
  · simp only [cacheMachine, Op.run_hashMap h.left.isAcceptingOps]
    rw [Function.update_of_ne (Ne.symm hk)]
    exact h.entry

/-- What the reference starts from, for a cache that holds entries. -/
def ChronoCache.eagerMap (c : ChronoCache α) : EagerMap :=
  fun k => (c.hashMap k).map (fun e => ⟨e.value, e.expiresAt⟩)

/-- On a `READY` cache, whatever it holds, lazy expiry answers like eager expiry
exactly on the runs in which no operation makes the logger throw; and the results
for a key are always those of the run that makes only the operations on it. -/
theorem lazyExpiry_iff (json : JsonLib) {c : ChronoCache α} (h : c.Ready) (is : List TimedOp)
    (hsorted : is.Pairwise (fun i j => i.now ≤ j.now)) (hvalid : ∀ i ∈ is, i.op.Valid i.now) :
    ((cacheMachine α json).outputs c is = eagerMachine.outputs c.eagerMap is ∧
        ∀ k, (cacheMachine α json).outputsOn (fun i => decide (i.key = k)) c is =
          (cacheMachine α json).outputs c (is.filter (fun i => decide (i.key = k)))) ↔
      (cacheMachine α json).Admits (fun c i => ¬ LogThrows json c i) c is := by
  have hstart : Simulates c c.eagerMap is := by
    refine ⟨h, ⟨0, fun k => ?_, fun i _ => Nat.zero_le _⟩, hsorted, hvalid⟩
    rw [eagerMap]
    cases hk : c.hashMap k with
    | none => exact .absent
    | some e => exact .same e (h.deadlines k e hk)
  have hframe : ∀ k, (cacheMachine α json).outputsOn (fun i => decide (i.key = k)) c is =
      (cacheMachine α json).outputs c (is.filter (fun i => decide (i.key = k))) := by
    intro k
    apply Machine.outputsOn_eq_outputs_filter (E := SameKey k)
    · intro c d i hcd hk
      exact hcd.hit json (by simpa using hk)
    · intro c d i hcd hk
      exact hcd.miss json (by simpa using hk)
    · exact ⟨h, h, rfl, rfl⟩
  rw [and_iff_left hframe]
  apply Machine.outputs_eq_iff _ _ (R := Simulates)
  · intro c m i is hcm
    exact hcm.output_iff json
  · intro c m i is hcm _
    exact hcm.next json
  · exact hstart

theorem CacheEvent.restored_deadlines (e : CacheEvent) (nowMs : ℤ) (now : ℕ) :
    ∀ x ∈ e.restored nowMs now, ∀ d ∈ x.expiresAt, d < 2 ^ 63 := by
  rw [CacheEvent.restored]
  cases e.type with
  | delete => simp
  | set | expire | persist =>
    intro x hx d hd
    obtain rfl := Option.some.inj hx
    obtain ⟨ms, -, rfl⟩ := Option.map_eq_some_iff.mp hd
    exact toInt64_lt _

section
variable [LinearOrder α]

theorem replayedEntry_deadlines (clock : Clock) (es : List CacheEvent) (k : Bytes) :
    ∀ e ∈ replayedEntry clock es k, ∀ d ∈ e.expiresAt, d < 2 ^ 63 := by
  apply keyReplay_entry (P := fun x => ∀ e ∈ x, ∀ d ∈ e.expiresAt, d < 2 ^ 63)
  · simp
  · exact fun e _ nowMs now => e.restored_deadlines nowMs now

theorem init_ready (json : JsonLib) (disable withReplay : Bool) (topic es : List CacheEvent)
    (clock : Clock) :
    ((create disable topic : ChronoCache α).init json withReplay (.ok es) clock).2.Ready := by
  have hf := create_fresh (α := α) disable topic
  cases withReplay with
  | false =>
    rw [init_without_replay hf]
    refine ⟨rfl, ?_, ?_⟩
    · intro hl
      cases disable <;> simp_all [openLogger, create, logging]
    · cases disable <;> simp [openLogger, create]
  | true =>
    rw [init_with_replay hf]
    refine ⟨rfl, ?_, replayedEntry_deadlines clock es⟩
    intro hl
    cases disable <;> simp_all [create, logging]

end

def expiringRun : List TimedOp :=
  [⟨.set (lit "k") (lit "v") none, 0, true⟩, ⟨.expire (lit "k") 100, 5, true⟩,
    ⟨.get (lit "k"), 10 ^ 9, true⟩, ⟨.persist (lit "k"), 10 ^ 9, true⟩]

theorem lazyExpiry_witness :
    let c : ChronoCache ℤ := ((create false []).init .reference false (.ok []) (fun _ => 0)).2
    (cacheMachine ℤ .reference).outputs c expiringRun = eagerMachine.outputs c.eagerMap expiringRun ∧
      ∀ k, (cacheMachine ℤ .reference).outputsOn (fun i => decide (i.key = k)) c expiringRun =
        (cacheMachine ℤ .reference).outputs c (expiringRun.filter (fun i => decide (i.key = k))) := by
  apply (lazyExpiry_iff .reference (init_ready _ _ _ _ _ _) expiringRun ?_ ?_).mpr
  · refine ⟨?_, ?_, ?_, ?_, trivial⟩
    · rintro ⟨-, e, -, -, -, h⟩
      exact h
    · rintro ⟨-, e, he, -, hd, -⟩
      obtain rfl := Option.some.inj he
      exact absurd hd (by decide)
    · rintro ⟨-, e, -, -, -, h⟩
      exact h
    · rintro ⟨-, e, he, -, -, -⟩
      cases he
  · simp [expiringRun]
  · simp [expiringRun, Op.Valid, DeadlineInRange, nsPerMs]

/-- The byte `0xFF`, which no UTF-8 text contains. -/
def badKey : Bytes := [0xFF]

def setThenExpireBad : List TimedOp :=
  [⟨.set badKey (lit "x") none, 0, true⟩, ⟨.expire badKey 1000, 0, true⟩]

/-- `EXPIRE` of a visible entry answers with an exception, not with success. -/
theorem lazyExpiry_counterexample :
    ∃ c : ChronoCache ℤ, c = ((create false []).init .reference false (.ok []) (fun _ => 0)).2 ∧
      c.Ready ∧ setThenExpireBad.Pairwise (fun i j => i.now ≤ j.now) ∧
      (∀ i ∈ setThenExpireBad, i.op.Valid i.now) ∧
      (cacheMachine ℤ .reference).outputs c setThenExpireBad ≠
        eagerMachine.outputs c.eagerMap setThenExpireBad := by
  refine ⟨_, rfl, init_ready _ _ _ _ _ _, by simp [setThenExpireBad], ?_, by decide⟩
  simp [setThenExpireBad, Op.Valid, DeadlineInRange, nsPerMs]

end Chrono
