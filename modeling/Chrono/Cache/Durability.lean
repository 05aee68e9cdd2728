import Chrono.Cache.Sessions
import Mathlib.Order.Monotone.Defs

/-!
# What a restart preserves

When every session replays the log and every event is delivered, the last event
of a key in the log is the one that the last acknowledged mutation of the key
added. From there on replay decides: what it restores for a key, and what it
may restore by mistake when the last event is skipped as expired.
-/
namespace Chrono
open ChronoCache Library

/-- Every session replays what is left of the log, and every event is delivered. -/
def Replaying {α : Type} (s : Sys α) : Step → Prop
  | .restart withReplay kept _ => withReplay = true ∧ KeyedLog.Compacts CacheEvent.key s.log kept
  | .client _ env => env.delivered = true

def Timely {α : Type} (s : Sys α) : Step → Prop
  | .restart _ _ clock => Monotone clock ∧ s.now ≤ clock 0
  | .client _ env => Monotone env.clock ∧ s.now ≤ env.clock 0

/-- The commands that write: all but `GET` and `PTTL`. -/
def Op.writes : Op → Bool
  | .get _ => false
  | .pttl _ => false
  | .set _ _ _ => true
  | .del _ => true
  | .expire _ _ => true
  | .persist _ => true

def LeavesKey {α : Type} (k : Bytes) (_ : Sys α) : Step → Prop
  | .restart _ _ _ => False
  | .client op _ => op.key = k → op.writes = false

def CacheEvent.deadlineMs (e : CacheEvent) : ℤ := e.timestamp + e.ttlMs

/-- An acknowledged mutation and the one event it logged: the event says whether
the key was deleted or else the value it had. -/
structure Ack.Recorded (m : Ack) (e : CacheEvent) : Prop where
  logged : m.logged = [e]
  key : e.key = m.op.key
  deleted : m.op = .del m.op.key → e.type = .delete
  entry : ∀ x ∈ m.entry, e.type ≠ .delete ∧ x.value = e.value
  timestamp : 0 ≤ e.timestamp
  ttl : e.hasDeadline = true → 0 < e.ttlMs

variable {α : Type}

/-- The last event of each key is the one of its last acknowledged mutation. -/
structure Sys.Linked (s : Sys α) : Prop where
  recorded : ∀ m ∈ s.history, ∃ e, m.Recorded e
  last_eq : ∀ k, KeyedLog.last CacheEvent.key k s.log =
    (s.lastAck k).bind (fun m => m.logged.getLast?)

theorem Op.Mutates.recorded {clock : Clock} {op : Op} {x y : Option CacheEntry} {m : Mutation}
    (h : op.Mutates clock x m y) (l : CacheEventLogger) :
    Ack.Recorded ⟨op, y, [m.event l op.key]⟩ (m.event l op.key) := by
  have hts (now : ℕ) : 0 ≤ toMillis now := Int.natCast_nonneg _
  cases h with
  | set key value ttl x =>
    refine ⟨rfl, rfl, by simp, ?_, hts _, ?_⟩
    · simp [Mutation.event, CacheEventLogger.event, CacheEntry.make]
    · simp [Mutation.event, CacheEventLogger.event, CacheEvent.hasDeadline]
  | del key e =>
    exact ⟨rfl, rfl, fun _ => rfl, by simp, hts _, by
      simp [Mutation.event, CacheEventLogger.event, CacheEvent.hasDeadline]⟩
  | expire key e ht hx =>
    refine ⟨rfl, rfl, by simp, ?_, hts _, fun _ => ht⟩
    simp [Mutation.event, CacheEventLogger.event, CacheEntry.updateTtl]
  | persist key e ht hx =>
    refine ⟨rfl, rfl, by simp, ?_, hts _, ?_⟩
    · simp [Mutation.event, CacheEventLogger.event, CacheEntry.removeTtl]
    · simp [Mutation.event, CacheEventLogger.event, CacheEvent.hasDeadline]

theorem Sys.Linked.lastAck_recorded {s : Sys α} (h : s.Linked) {k : Bytes} {m : Ack}
    (hm : s.lastAck k = some m) :
    ∃ e, m.Recorded e ∧ m.op.key = k ∧ KeyedLog.last CacheEvent.key k s.log = some e := by
  obtain ⟨hmem, hk⟩ := KeyedLog.last_mem hm
  obtain ⟨e, he⟩ := h.recorded m hmem
  refine ⟨e, he, hk, ?_⟩
  rw [h.last_eq, hm]
  simp [he.logged]

/-- One acknowledged mutation: one more event, of its key. -/
theorem Sys.Linked.concat {s : Sys α} (h : s.Linked) {m : Ack} {e : CacheEvent} (hm : m.Recorded e)
    {s' : Sys α} (hhist : s'.history = s.history ++ [m]) (hlog : s'.log = s.log ++ [e]) :
    s'.Linked := by
  constructor
  · intro a ha
    rw [hhist] at ha
    rcases List.mem_append.mp ha with ha | ha
    · exact h.recorded a ha
    · obtain rfl := List.mem_singleton.mp ha
      exact ⟨e, hm⟩
  · intro k
    rw [hlog, Sys.lastAck, hhist]
    by_cases hk : e.key = k
    · rw [KeyedLog.last_concat_same hk, KeyedLog.last_concat_same (hm.key ▸ hk)]
      simp [hm.logged]
    · rw [KeyedLog.last_concat_other hk, KeyedLog.last_concat_other (hm.key ▸ hk)]
      exact h.last_eq k

theorem Sys.Linked.client {s : Sys α} (h : s.Linked) (hs : s.cache.Serving) (json : JsonLib) (op : Op)
    {env : Env} (hd : env.delivered = true) : (s.client json op env).Linked := by
  have hsame (hlog : (op.run json env s.cache).2.events.topic = s.log)
      (hr : (op.run json env s.cache).1 ≠ .ok (.flag true)) : (s.client json op env).Linked := by
    have hhist : (s.client json op env).history = s.history := by simp [Sys.client, hr]
    constructor
    · exact hhist ▸ h.recorded
    · intro k
      rw [Sys.lastAck, hhist]
      exact (congrArg _ hlog).trans (h.last_eq k)
  cases ha : s.cache.isAcceptingOps with
  | false =>
    apply hsame
    · rw [Op.run_refused ha]
    · rw [Op.run_refused ha]
      simp
  | true =>
    obtain ⟨hlogging, l, hl⟩ := hs.of_accepting ha
    rcases Op.run_logged hlogging hl json env op with ⟨m, y, hm, heq, hr⟩ | ⟨y, heq, hr, -⟩
    · cases hdump : json.dumpable op.key m.value with
      | false =>
        apply hsame
        · rw [heq]
          simp [hdump]
        · simp [hr, hdump]
      | true =>
        have hlog : (s.client json op env).log = s.log ++ [m.event l op.key] := by
          change (op.run json env s.cache).2.events.topic = _
          rw [heq]
          simp [hdump, hd]
        refine h.concat (hm.recorded l) ?_ hlog
        have hack : (op.run json env s.cache).1 = .ok (.flag true) := hr.mpr hdump
        simp only [Sys.client, hack, if_true, heq]
        simp [hdump, hd]
    · apply hsame
      · rw [heq]
      · exact hr

section
variable [LinearOrder α]

/-- The last event of a key survives compaction and stays that of its last
acknowledged mutation. -/
theorem Sys.Linked.restart {s : Sys α} (h : s.Linked) {kept : List CacheEvent}
    (hkept : KeyedLog.Compacts CacheEvent.key s.log kept) (json : JsonLib) (withReplay : Bool)
    (clock : Clock) : (s.restart json withReplay kept clock).Linked := by
  constructor
  · exact h.recorded
  · intro k
    have hlog : (s.restart json withReplay kept clock).log = kept := by
      rw [Sys.log, Sys.restart, restart_cache]
    rw [hlog, hkept.last_eq]
    exact h.last_eq k

/-- What holds of every run of replaying sessions. -/
structure Sys.Durable (s : Sys α) : Prop where
  counted : s.Counted
  linked : s.Linked
  fresh : ∀ k, ¬ s.Stale k

theorem sessions_durable {json : JsonLib} {run : List Step}
    (h : (sessions α json).Admits Replaying Sys.start run) :
    ((sessions α json).after Sys.start run).Durable := by
  refine (sessions α json).invariant ?_ ?_ h
  · intro s i hs hi
    cases i with
    | restart withReplay kept clock =>
      refine ⟨hs.counted.restart hi.2 json withReplay clock,
        hs.linked.restart hi.2 json withReplay clock, fun k hk => ?_⟩
      have hno : withReplay = false := hk.1
      simp [hi.1] at hno
    | client op env =>
      exact ⟨hs.counted.client (fun hk => absurd hk (hs.fresh op.key)),
        hs.linked.client hs.counted.serving json op hi, hs.fresh⟩
  · refine ⟨start_counted, ⟨by simp [Sys.start], fun k => rfl⟩, fun k hk => ?_⟩
    obtain ⟨-, e, he, -⟩ := hk
    cases he

/-- The entry of a key right after a restart with replay. -/
theorem restart_hashMap (s : Sys α) (json : JsonLib) (kept : List CacheEvent) (clock : Clock) :
    (s.restart json true kept clock).cache.hashMap = replayedEntry clock kept := by
  rw [Sys.restart, restart_cache]
  rfl

end

theorem run_leaves {c : ChronoCache α} {k : Bytes} {op : Op} (h : op.key = k → op.writes = false)
    (json : JsonLib) (env : Env) :
    (op.run json env c).2.hashMap k = c.hashMap k ∨ ((op.run json env c).2.hashMap k = none ∧
      ∃ e, c.hashMap k = some e ∧ e.isExpired (env.clock 0) = true) := by
  cases ha : c.isAcceptingOps with
  | false => exact .inl (by rw [Op.run_refused ha])
  | true =>
    rw [Op.run_hashMap ha]
    by_cases hk : op.key = k
    · subst hk
      rw [Function.update_self]
      rcases op.outcome_cases env.clock (c.hashMap op.key) with ⟨m, y, hm⟩ | ⟨-, -, hx⟩
      · generalize c.hashMap op.key = x at hm
        cases hm <;> simp [Op.writes] at h
      · exact hx
    · rw [Function.update_of_ne (Ne.symm hk)]
      exact .inl rfl

section
variable [LinearOrder α]

/-- Steps that leave the key cannot bring an entry into being. -/
theorem later_none {json : JsonLib} {k : Bytes} {s : Sys α} {later : List Step}
    (h : (sessions α json).Admits (LeavesKey k) s later) (hs : s.cache.state = .ready)
    (hk : s.cache.hashMap k = none) :
    ((sessions α json).after s later).cache.state = .ready ∧
      ((sessions α json).after s later).cache.hashMap k = none := by
  refine (sessions α json).invariant (I := fun s => s.cache.state = .ready ∧ s.cache.hashMap k = none)
    ?_ ⟨hs, hk⟩ h
  rintro s i ⟨hs, hk⟩ hi
  cases i with
  | restart => exact hi.elim
  | client op env =>
    constructor
    · exact (Op.run_config json env op s.cache).1.trans hs
    · rcases run_leaves (c := s.cache) hi json env with hsame | ⟨hnone, -⟩
      · exact hsame.trans hk
      · exact hnone

theorem now_le_after {json : JsonLib} {s : Sys α} {run : List Step}
    (h : (sessions α json).Admits Timely s run) : s.now ≤ ((sessions α json).after s run).now := by
  refine (sessions α json).invariant (I := fun s' => s.now ≤ s'.now) ?_ (Nat.le_refl _) h
  intro s' i hs hi
  cases i with
  | restart withReplay kept clock => exact hs.trans (hi.2.trans (hi.1 (Nat.zero_le _)))
  | client op env => exact hs.trans (hi.2.trans (hi.1 (Nat.zero_le _)))

/-- Steps without a write of the key keep an entry that is not expired when they end. -/
theorem later_some {json : JsonLib} {k : Bytes} {s : Sys α} {later : List Step} {e : CacheEntry}
    (h : (sessions α json).Admits (fun s i => LeavesKey k s i ∧ Timely s i) s later)
    (hs : s.cache.state = .ready) (hk : s.cache.hashMap k = some e) {t : ℕ}
    (ht : ((sessions α json).after s later).now ≤ t) (he : e.isExpired t = false) :
    ((sessions α json).after s later).cache.state = .ready ∧
      ((sessions α json).after s later).cache.hashMap k = some e := by
  induction later generalizing s with
  | nil => exact ⟨hs, hk⟩
  | cons i later ih =>
    obtain ⟨⟨hi, htime⟩, hrest⟩ := h
    cases i with
    | restart => exact hi.elim
    | client op env =>
      -- the reading of this step is not after `t`
      have hle : env.clock 2 ≤ t := (now_le_after (hrest.mono fun s i h => h.2)).trans ht
      have hread : env.clock 0 ≤ t := (htime.1 (Nat.zero_le 2)).trans hle
      refine ih hrest ((Op.run_config json env op s.cache).1.trans hs) ?_ ht
      rcases run_leaves (c := s.cache) hi json env with hsame | ⟨-, e', he', hexp⟩
      · exact hsame.trans hk
      · obtain rfl : e = e' := Option.some.inj (hk.symm.trans he')
        rw [CacheEntry.isExpired_mono hread hexp] at he
        cases he

/-- When the last event of `k` is skipped as expired, what is left of the key is
nothing or a `DELETE`. -/
def NothingLiveBefore (k : Bytes) (nowMs : ℤ) (log : List CacheEvent) : Prop :=
  ∀ m, KeyedLog.last CacheEvent.key k log = some m → m.expiredAt nowMs = true →
    ∀ e, survivor nowMs k log = some e → e.type = .delete

/-- A deadline that has passed is recognised, whatever the 64-bit sum does. -/
theorem expiredAt_of_deadlineMs_le {e : CacheEvent} {nowMs : ℤ} (hd : e.hasDeadline = true)
    (hts : 0 ≤ e.timestamp) (hpos : 0 < e.ttlMs) (h : e.deadlineMs ≤ nowMs) :
    e.expiredAt nowMs = true := by
  have hle : e.expiresAtMs ≤ e.deadlineMs := toInt64_le (by omega)
  simp only [CacheEvent.expiredAt, hd, Bool.true_and, decide_eq_true_eq]
  omega

/-- No resurrection: after a restart, a key whose last acknowledged mutation is a
`DEL`, or logged a deadline that has passed, is gone and stays gone until it is
written, if replay finds nothing live of the key before its expired event. -/
theorem no_resurrection (json : JsonLib) {run : List Step}
    (hrun : (sessions α json).Admits Replaying Sys.start run) {kept : List CacheEvent} {clock : Clock}
    (hkept : KeyedLog.Compacts CacheEvent.key ((sessions α json).after Sys.start run).log kept)
    {k : Bytes} {m : Ack} (hm : ((sessions α json).after Sys.start run).lastAck k = some m)
    (hdead : m.op = .del k ∨
      ∃ e ∈ m.logged, e.hasDeadline = true ∧ e.deadlineMs ≤ toMillis (clock 0))
    (hlive : NothingLiveBefore k (toMillis (clock 0)) kept) {later : List Step}
    (hlater : (sessions α json).Admits (LeavesKey k)
      (((sessions α json).after Sys.start run).restart json true kept clock) later) (env : Env) :
    ((Op.get k).run json env ((sessions α json).after
        (((sessions α json).after Sys.start run).restart json true kept clock) later).cache).1 =
      .ok (.value none) := by
  have hs := sessions_durable hrun
  generalize (sessions α json).after Sys.start run = s at *
  obtain ⟨e, hrec, hmk, hlast⟩ := hs.linked.lastAck_recorded hm
  have hlast' : KeyedLog.last CacheEvent.key k kept = some e := (hkept.last_eq k).trans hlast
  have hsurv : ∀ x, survivor (toMillis (clock 0)) k kept = some x → x.type = .delete := by
    intro x hx
    rcases hdead with hdel | ⟨e', he', hd, hle⟩
    · have htype : e.type = .delete := hrec.deleted (hmk.symm ▸ hdel)
      have heff : e.expiredAt (toMillis (clock 0)) = false := by
        simp [CacheEvent.expiredAt, CacheEvent.hasDeadline, htype]
      have heq : survivor (toMillis (clock 0)) k kept = some e :=
        KeyedLog.lastOf_of_last hlast' (by simp [heff])
      rw [heq] at hx
      exact Option.some.inj hx ▸ htype
    · rw [hrec.logged] at he'
      obtain rfl := List.mem_singleton.mp he'
      exact hlive _ hlast' (expiredAt_of_deadlineMs_le hd hrec.timestamp (hrec.ttl hd) hle) x hx
  have hnone : (s.restart json true kept clock).cache.hashMap k = none := by
    rw [restart_hashMap]
    exact replayedEntry_eq_none (hs.counted.numbered.sublist hkept.sublist) hsurv
  have hready : (s.restart json true kept clock).cache.state = .ready := by
    rw [Sys.restart, restart_cache]
  obtain ⟨hst, hgone⟩ := later_none hlater hready hnone
  rw [Op.run_get (by simp [isAcceptingOps, hst]), hgone]
  rfl

/-- A session in which the operations are carried out at time 0 and delivered. -/
def sessionAtZero (ops : List Op) : List Step :=
  .restart true [] (stopped 0) :: ops.map (fun op => .client op ⟨stopped 0, true⟩)

/-- `SET k v`, then `EXPIRE k 100`; one second later a new process answers `GET k`
with the value, and will always do so. -/
theorem no_resurrection_counterexample :
    let run := sessionAtZero [.set (lit "k") (lit "v") none, .expire (lit "k") 100]
    let s := (sessions ℤ .reference).after Sys.start run
    let event : CacheEvent := ⟨.expire, lit "k", lit "v", 100, 2, 0⟩
    (sessions ℤ .reference).Admits Replaying Sys.start run ∧
      s.lastAck (lit "k") =
        some ⟨.expire (lit "k") 100, some ⟨lit "v", some 100000000⟩, [event]⟩ ∧
      event.deadlineMs ≤ toMillis (10 ^ 9) ∧
      ((Op.get (lit "k")).run .reference ⟨stopped (10 ^ 9), true⟩
        (s.restart .reference true s.log (stopped (10 ^ 9))).cache).1 =
          .ok (.value (some (lit "v"))) := by
  exact ⟨⟨⟨rfl, .refl _⟩, rfl, rfl, trivial⟩, rfl, by decide, by decide⟩

/-- `SET k v`, then `DEL k`, and then, in a second run, `SET k w EX 100` with a restart one
second later: the last event that is not skipped is the one of the `DEL`. -/
theorem no_resurrection_witness :
    let deleted : List Op := [.set (lit "k") (lit "v") none, .del (lit "k")]
    let passed : List Op := deleted ++ [.set (lit "k") (lit "w") (some 100)]
    let after (ops : List Op) := (sessions ℤ .reference).after Sys.start (sessionAtZero ops)
    let reread (ops : List Op) (start : ℕ) :=
      ((Op.get (lit "k")).run .reference ⟨stopped (start + 2), true⟩
        ((sessions ℤ .reference).after ((after ops).restart .reference true
          (after ops).log (stopped start))
          [.client (.get (lit "k")) ⟨stopped (start + 1), true⟩]).cache).1
    reread deleted 5 = .ok (.value none) ∧ reread passed (10 ^ 9) = .ok (.value none) := by
  intro deleted passed after reread
  constructor
  · refine @no_resurrection ℤ _ .reference (sessionAtZero deleted)
      ⟨⟨rfl, .refl _⟩, rfl, rfl, trivial⟩ _ (stopped 5)
      (.refl _) (lit "k") ⟨.del (lit "k"), none, [⟨.delete, lit "k", [], -1, 2, 0⟩]⟩ rfl (.inl rfl) ?_
      [.client (.get (lit "k")) ⟨stopped 6, true⟩] ⟨fun _ => rfl, trivial⟩ _
    intro m hm hexp
    have hlast : KeyedLog.last CacheEvent.key (lit "k") (after deleted).log =
      some ⟨.delete, lit "k", [], -1, 2, 0⟩ := rfl
    obtain rfl := Option.some.inj (hlast.symm.trans hm)
    exact absurd hexp (by decide)
  · refine @no_resurrection ℤ _ .reference (sessionAtZero passed)
      ⟨⟨rfl, .refl _⟩, rfl, rfl, rfl, trivial⟩ _
      (stopped (10 ^ 9)) (.refl _) (lit "k")
      ⟨.set (lit "k") (lit "w") (some 100), some ⟨lit "w", some 100000000⟩,
        [⟨.set, lit "k", lit "w", 100, 3, 0⟩]⟩ rfl
      (.inr ⟨_, List.mem_singleton_self _, rfl, by decide⟩) ?_
      [.client (.get (lit "k")) ⟨stopped (10 ^ 9 + 1), true⟩] ⟨fun _ => rfl, trivial⟩ _
    intro m _ _ e he
    have hsurvivor : survivor (toMillis (10 ^ 9)) (lit "k") (after passed).log =
      some ⟨.delete, lit "k", [], -1, 2, 0⟩ := by decide +kernel
    obtain rfl := Option.some.inj (hsurvivor.symm.trans he)
    rfl

/-- The entry that replay rebuilds from an event whose deadline has not passed
lives at least until that deadline, when its 64-bit arithmetic stays in range. -/
theorem restored_live {e : CacheEvent} {nowMs : ℤ} {now t : ℕ} (htype : e.type ≠ .delete)
    (hpos : e.hasDeadline = true → 0 < e.ttlMs) (hnow : nowMs * nsPerMs ≤ now) (hnow0 : 0 ≤ nowMs)
    (hlive : e.hasDeadline = true → nowMs < e.deadlineMs ∧ t < e.deadlineMs * nsPerMs)
    (hrange : e.hasDeadline = true → DeadlineInRange now (e.deadlineMs - nowMs)) :
    e.expiredAt nowMs = false ∧
      ∃ x, e.restored nowMs now = some x ∧ x.value = e.value ∧ x.isExpired t = false := by
  have hrest (ttl : Option ℤ) (h : e.remainingAt nowMs = ttl) :
      e.restored nowMs now = some (.make e.value ttl now) := by
    rw [CacheEvent.restored]
    rw [h]
    cases hty : e.type <;> first | exact absurd hty htype | rfl
  cases hd : e.hasDeadline with
  | false =>
    refine ⟨by simp [CacheEvent.expiredAt, hd], _, hrest none (by simp [CacheEvent.remainingAt, hd]), rfl, ?_⟩
    rfl
  | true =>
    obtain ⟨hms, ht⟩ := hlive hd
    have hr := hrange hd
    have hsum : e.expiresAtMs = e.deadlineMs := by
      apply toInt64_eq_self <;> unfold DeadlineInRange nsPerMs CacheEvent.deadlineMs at * <;>
        have := hpos hd <;> omega
    have hrem : e.remainingAt nowMs = some (e.deadlineMs - nowMs) := by
      rw [CacheEvent.remainingAt, if_pos hd, hsum]
      congr 1
      apply toInt64_eq_self <;> unfold DeadlineInRange nsPerMs CacheEvent.deadlineMs at * <;> omega
    refine ⟨?_, _, hrest _ hrem, rfl, ?_⟩
    · simp [CacheEvent.expiredAt, hsum, hms]
    · have hdl := deadlineAfter_eq (by omega) hr
      simp only [CacheEntry.isExpired, CacheEntry.make, Option.map_some, hdl, decide_eq_false_iff_not]
      unfold nsPerMs at *
      omega

/-- No lost write: after a restart, and until the key is written, a `GET` before
the logged deadline returns the value that the key had right after its last
acknowledged mutation, if the deadline that replay computes from its event is in range. -/
theorem no_lost_write (json : JsonLib) {run : List Step}
    (hrun : (sessions α json).Admits Replaying Sys.start run) {kept : List CacheEvent} {clock : Clock}
    (hclock : Monotone clock)
    (hkept : KeyedLog.Compacts CacheEvent.key ((sessions α json).after Sys.start run).log kept)
    {k : Bytes} {m : Ack} (hm : ((sessions α json).after Sys.start run).lastAck k = some m)
    {x : CacheEntry} (hx : m.entry = some x) {later : List Step}
    (hlater : (sessions α json).Admits (fun s i => LeavesKey k s i ∧ Timely s i)
      (((sessions α json).after Sys.start run).restart json true kept clock) later) {env : Env}
    (hget : ((sessions α json).after
      (((sessions α json).after Sys.start run).restart json true kept clock) later).now ≤ env.clock 0)
    (hlive : ∀ e ∈ m.logged, e.hasDeadline = true → env.clock 0 < e.deadlineMs * nsPerMs)
    (hrange : ∀ e ∈ m.logged, e.hasDeadline = true → ∀ i, kept[i]? = some e →
      DeadlineInRange (clock (i + 1)) (e.deadlineMs - toMillis (clock 0))) :
    ((Op.get k).run json env ((sessions α json).after
        (((sessions α json).after Sys.start run).restart json true kept clock) later).cache).1 =
      .ok (.value (some x.value)) := by
  have hs := sessions_durable hrun
  generalize (sessions α json).after Sys.start run = s at *
  obtain ⟨e, hrec, hmk, hlast⟩ := hs.linked.lastAck_recorded hm
  obtain ⟨htype, hval⟩ := hrec.entry x hx
  have he : e ∈ m.logged := by simp [hrec.logged]
  obtain ⟨pre, post, hsplit, hpost⟩ := KeyedLog.lastOf_split ((hkept.last_eq k).trans hlast)
  have hstart : clock kept.length ≤ env.clock 0 :=
    (now_le_after (hlater.mono fun s i h => h.2)).trans hget
  have hi : kept[pre.length]? = some e := by simp [hsplit]
  have hnow : toMillis (clock 0) * nsPerMs ≤ clock 0 := toMillis_le _
  have hmono : (clock 0 : ℤ) ≤ clock (pre.length + 1) := by exact_mod_cast hclock (Nat.zero_le _)
  have hread : (clock 0 : ℤ) ≤ env.clock 0 := by
    exact_mod_cast (hclock (Nat.zero_le kept.length)).trans hstart
  obtain ⟨heff, y, hy, hyval, hylive⟩ := restored_live (t := env.clock 0) htype hrec.ttl
    (hnow.trans hmono) (Int.natCast_nonneg _)
    (fun hd => ⟨by have := hlive e he hd; unfold nsPerMs at *; omega, hlive e he hd⟩)
    (fun hd => hrange e he hd _ hi)
  have hentry : (s.restart json true kept clock).cache.hashMap k = some y := by
    rw [restart_hashMap, hsplit, replayedEntry_of_effective
      (hsplit ▸ hs.counted.numbered.sublist hkept.sublist) (hrec.key.trans hmk) heff
      (fun e' he' hk' => by simpa using hpost e' he' hk'), Nat.add_comm 1]
    exact hy
  have hready : (s.restart json true kept clock).cache.state = .ready := by
    rw [Sys.restart, restart_cache]
  obtain ⟨hst, hheld⟩ := later_some hlater hready hentry hget hylive
  rw [Op.run_get (by simp [isAcceptingOps, hst]), hheld]
  simp [Option.filter, hylive, hyval, hval]

/-- The longest TTL that fits the clock at time 0: the entry lives for 292 years. A
process that starts in the same millisecond adds what is left to a later reading,
the sum wraps, and the entry that it rebuilds is expired at once. -/
theorem no_lost_write_counterexample :
    let ttl := 9223372036854
    let run := sessionAtZero [.set (lit "k") (lit "v") (some ttl)]
    let s := (sessions ℤ .reference).after Sys.start run
    let event : CacheEvent := ⟨.set, lit "k", lit "v", ttl, 1, 0⟩
    let clock := stopped 999999
    (sessions ℤ .reference).Admits Replaying Sys.start run ∧
      s.lastAck (lit "k") =
        some ⟨.set (lit "k") (lit "v") (some ttl), some ⟨lit "v", some (ttl * nsPerMs)⟩, [event]⟩ ∧
      ((Op.get (lit "k")).run .reference ⟨clock, true⟩ s.cache).1 = .ok (.value (some (lit "v"))) ∧
      (clock 0 : ℤ) < event.deadlineMs * nsPerMs ∧
      ((Op.get (lit "k")).run .reference ⟨clock, true⟩
        (s.restart .reference true s.log clock).cache).1 = .ok (.value none) := by
  exact ⟨⟨⟨rfl, .refl _⟩, rfl, trivial⟩, rfl, by decide, by decide, by decide⟩

/-- `SET k v EX 1000`, read again after a restart. -/
theorem no_lost_write_witness :
    let s := (sessions ℤ .reference).after Sys.start
      (sessionAtZero [.set (lit "k") (lit "v") (some 1000)])
    ((Op.get (lit "k")).run .reference ⟨stopped 7, true⟩ ((sessions ℤ .reference).after
        (s.restart .reference true s.log (stopped 5)) [.client (.pttl (lit "k"))
          ⟨stopped 6, true⟩]).cache).1 =
      .ok (.value (some (lit "v"))) := by
  refine @no_lost_write ℤ _ .reference (sessionAtZero [.set (lit "k") (lit "v") (some 1000)])
    ⟨⟨rfl, .refl _⟩, rfl, trivial⟩ _ (stopped 5) (fun _ _ _ => Nat.le_refl _) (.refl _) (lit "k")
    ⟨.set (lit "k") (lit "v") (some 1000), some ⟨lit "v", some 1000000000⟩,
      [⟨.set, lit "k", lit "v", 1000, 1, 0⟩]⟩ rfl ⟨lit "v", some 1000000000⟩ rfl
    [.client (.pttl (lit "k")) ⟨stopped 6, true⟩]
    ⟨⟨fun _ => rfl, fun _ _ _ => Nat.le_refl _, by decide⟩, trivial⟩
      ⟨stopped 7, true⟩ (by decide) ?_ ?_
  · intro e he _
    obtain rfl := List.mem_singleton.mp he
    decide
  · intro e he _ i _
    obtain rfl := List.mem_singleton.mp he
    change DeadlineInRange 5 (1000 - 0)
    decide

end
end Chrono
