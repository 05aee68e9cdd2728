import Chrono.Cache.Durability
import Chrono.Server.ErrorReply
import Chrono.Server.Reachable
import Chrono.Server.RoundTrip

/-!
# Deadlines as clients see them

A TTL is turned into a time point when a command is accepted, and compared with the clock
by later commands.
-/
namespace Chrono
open ChronoCache CommandHandler Library

variable {α : Type} {c c' : ChronoCache α} {json : JsonLib}

/-! ## TTLs that are accepted -/

theorem accepting_of_ok {env : Env} {op : Op} {r : Result} (h : op.run json env c = (.ok r, c')) :
    c.isAcceptingOps = true := by
  by_contra hrefused
  rw [Op.run_refused (Bool.eq_false_iff.mpr hrefused)] at h
  cases h

theorem run_of_ok {env : Env} {op : Op} {r : Result} (h : op.run json env c = (.ok r, c')) :
    c'.isAcceptingOps = true ∧ (op.outcome env.clock (c.hashMap op.key)).result = .ok r ∧
      c'.hashMap =
        Function.update c.hashMap op.key (op.outcome env.clock (c.hashMap op.key)).entry := by
  have ha := accepting_of_ok h
  have hc' : c' = (op.run json env c).2 := by rw [h]
  refine ⟨?_, ?_, ?_⟩
  · unfold isAcceptingOps at ha ⊢
    rw [hc', (Op.run_config json env op c).1]
    exact ha
  · have hr : (op.run json env c).1 = .ok r := by rw [h]
    rw [Op.run_eq ha] at hr
    dsimp only at hr
    cases hlog : (c.logMutation json env.delivered op.key (op.outcome env.clock (c.hashMap op.key)).mutation).1 with
    | error e => simp [hlog, Except.bind] at hr
    | ok _ => simpa [hlog, Except.bind] using hr
  · rw [hc', Op.run_hashMap ha]

theorem init_accepting (h : c.isAcceptingOps = true) (withReplay : Bool)
    (consumed : Except Fault (List CacheEvent)) (clock : Clock) :
    (c.init json withReplay consumed clock).2 = c := by
  simp only [isAcceptingOps, Bool.or_eq_true, beq_iff_eq] at h
  rcases h with h | h <;> simp [ChronoCache.init, h]

variable [LinearOrder α] {text : DoubleText α} {env : CommandEnv}

theorem execute_of_respond {command : RespValue} {reply : Bytes} (hreply : isErrorReply reply = false)
    (h : EventLoop.respond json text env (some command) c = (.ok reply, c')) :
    execute json text env command c = (.ok reply, c') := by
  unfold EventLoop.respond at h
  dsimp only at h
  split at h
  · next what c'' _ =>
    simp only [Prod.mk.injEq, Except.ok.injEq] at h
    rw [← h.1] at hreply
    simp at hreply
  · exact h

omit [LinearOrder α] in
theorem call_eq {ρ : Type} {f : Action (ChronoCache α) ρ} {serialize : ρ → Bytes} {reply : Bytes}
    (h : call f serialize c = (.ok reply, c')) : ∃ r, f c = (.ok r, c') ∧ serialize r = reply := by
  rcases hf : f c with ⟨_ | r, c''⟩
  · simp [call, hf, Except.map] at h
  · simp only [call, hf, Except.map, Prod.mk.injEq, Except.ok.injEq] at h
    exact ⟨r, by rw [h.2], h.1⟩

omit [LinearOrder α] in
theorem run_of_call {ρ : Type} {f : Action (ChronoCache α) ρ} {serialize : ρ → Bytes}
    {reply : Bytes} {env : Env} (op : Op) (inj : ρ → Result)
    (hf : op.run json env c = ((f c).1.map inj, (f c).2))
    (h : call f serialize c = (.ok reply, c')) :
    ∃ r, op.run json env c = (.ok (inj r), c') ∧ serialize r = reply := by
  obtain ⟨r, hr, hreply⟩ := call_eq h
  refine ⟨r, ?_, hreply⟩
  rw [hf, hr]
  rfl

variable (json text)

/-- A `SET` with an expire time or an `EXPIRE` that reports success: the key, its value, the TTL
and the clock reading that the TTL is added to. -/
inductive GivesTtl (env : CommandEnv) (c c' : ChronoCache α) : Bytes → Bytes → ℤ → ℕ → Prop where
  | set {command head key value opt ms : RespValue} {ttl : ℤ}
    (h : EventLoop.respond json text env (some command) c = (.ok RespSerializer.ok, c'))
    (htype : command.type = .array) (harray : command.array = [head, key, value, opt, ms])
    (hname : toUpper head.strValue = lit "SET") (httl : stoll ms.strValue = .ok ttl) :
    GivesTtl env c c' key.strValue value.strValue ttl ((env.calls 0).clock 0)
  | expire {command head key ms : RespValue} {ttl : ℤ} {e : CacheEntry}
    (h : EventLoop.respond json text env (some command) c = (.ok (flag true), c'))
    (htype : command.type = .array) (harray : command.array = [head, key, ms])
    (hname : toUpper head.strValue = lit "EXPIRE") (httl : stoll ms.strValue = .ok ttl)
    (hentry : c.hashMap key.strValue = some e) :
    GivesTtl env c c' key.strValue e.value ttl ((env.calls 0).clock 1)

variable {json text}

theorem GivesTtl.entry {k v : Bytes} {ttl : ℤ} {now : ℕ}
    (h : GivesTtl json text env c c' k v ttl now) :
    0 < ttl ∧ c'.isAcceptingOps = true ∧ c'.hashMap k = some ⟨v, some (deadlineAfter now ttl)⟩ := by
  cases h with
  | @set command head key value opt ms _ h htype harray hname httl =>
    have hrun := execute_of_respond isErrorReply_ok h
    rw [execute_named json text _ htype harray hname rfl, cmdSet] at hrun
    dsimp only at hrun
    split_ifs at hrun with hopt
    · exact absurd (congrArg Prod.fst hrun)
        (by simp [answer, RespSerializer.error, RespSerializer.ok, lit])
    · simp only [httl] at hrun
      split_ifs at hrun with hpos
      · exact absurd (congrArg Prod.fst hrun)
          (by simp [answer, RespSerializer.error, RespSerializer.ok, lit])
      · obtain ⟨r, hop, -⟩ := run_of_call (.set key.strValue value.strValue (some ttl)) .flag rfl hrun
        obtain ⟨ha, -, hmap⟩ := run_of_ok hop
        refine ⟨Int.not_le.mp hpos, ha, ?_⟩
        rw [hmap]
        exact Function.update_self _ _ _
  | @expire command head key ms _ e h htype harray hname httl hentry =>
    have hrun := execute_of_respond (isErrorReply_integer 1) h
    rw [execute_named json text _ htype harray hname rfl, cmdExpire] at hrun
    simp only [httl] at hrun
    split_ifs at hrun with hpos
    · exact absurd (congrArg Prod.fst hrun)
        (by simp [answer, RespSerializer.error, RespSerializer.integer, lit])
    · obtain ⟨r, hop, hflag⟩ := run_of_call (.expire key.strValue ttl) .flag rfl hrun
      obtain rfl : r = true := by
        cases r with
        | true => rfl
        | false => exact absurd hflag (by decide)
      obtain ⟨ha, hresult, hmap⟩ := run_of_ok hop
      refine ⟨Int.not_le.mp hpos, ha, ?_⟩
      rw [hmap]
      refine (Function.update_self _ _ _).trans ?_
      simp only [Op.key, Op.outcome, hpos, if_false, hentry] at hresult ⊢
      split_ifs at hresult ⊢ with hexpired
      · simp at hresult
      · rfl

/-- Up to `t` only, and without a write of the key. -/
def LeavesUntil (k : Bytes) (t : ℕ) (_ : ChronoCache α) (i : CommandEnv × Option RespValue) : Prop :=
  (∀ n m, (i.1.calls n).clock m ≤ t) ∧
    ∀ command, i.2 = some command → ∀ op ∈ requests command, op.key = k → op.writes = false

/-- Such commands keep an entry that is not expired at `t`. -/
theorem entry_after {k : Bytes} {t : ℕ} {e : CacheEntry} (he : e.isExpired t = false)
    {later : List (CommandEnv × Option RespValue)}
    (hlater : (eventLoop json text).Admits (LeavesUntil k t) c later) (ha : c.isAcceptingOps = true)
    (hk : c.hashMap k = some e) :
    ((eventLoop json text).after c later).isAcceptingOps = true ∧
      ((eventLoop json text).after c later).hashMap k = some e := by
  refine (eventLoop json text).invariant (I := fun c => c.isAcceptingOps = true ∧
    c.hashMap k = some e)
    ?_ ⟨ha, hk⟩ hlater
  rintro c ⟨env, command⟩ hc ⟨hclock, hwrites⟩
  cases command with
  | none => exact hc
  | some command =>
    rw [show ((eventLoop json text).step c (env, some command)).2 = (execute json text env command c).2 from
      respond_state json text env command c]
    refine preserves_execute_within (I := fun c => c.isAcceptingOps = true ∧ c.hashMap k =
      some e) ?_ ?_ ?_ c hc
    · rintro op hop n c ⟨ha, hk⟩
      refine ⟨?_, ?_⟩
      · unfold isAcceptingOps at ha ⊢
        rw [(Op.run_config json (env.calls n) op c).1]
        exact ha
      · rcases run_leaves (fun hkey => hwrites command rfl op hop hkey) json (env.calls n) with
          hsame | ⟨-, e', he', hexp⟩
        · exact hsame.trans hk
        · obtain rfl : e = e' := Option.some.inj (hk.symm.trans he')
          rw [CacheEntry.isExpired_mono (hclock n 0) hexp] at he
          cases he
    · rintro withReplay clock c ⟨ha, hk⟩
      rw [init_accepting ha]
      exact ⟨ha, hk⟩
    · exact fun c api h => h

theorem respond_get (ha : c.isAcceptingOps = true) (k : Bytes) :
    (EventLoop.respond json text env (some (.command [lit "GET", k])) c).1 =
      .ok (bulkOrNull (((c.hashMap k).filter (fun e => !e.isExpired ((env.calls 0).clock 0))).map
        (·.value))) := by
  have hget := Op.run_get ha json (env.calls 0) k
  change (c.get (env.calls 0) k).1.map Result.value = _ at hget
  have hrun : execute json text env (.command [lit "GET", k]) c =
      ((c.get (env.calls 0) k).1.map bulkOrNull, (c.get (env.calls 0) k).2) := rfl
  cases hx : (c.get (env.calls 0) k).1 with
  | error e => simp [hx, Except.map] at hget
  | ok v =>
    simp only [hx, Except.map, Except.ok.injEq, Result.value.injEq] at hget
    simp only [EventLoop.respond, hrun, hx, Except.map]
    rw [hget]

theorem nullBulk_ne_bulkString (v : Bytes) :
    RespSerializer.nullBulk ≠ RespSerializer.bulkString v := by
  intro h
  have htail : 0x2D :: (0x31 :: RespSerializer.crlf) =
      RespSerializer.decimal v.length ++ (RespSerializer.crlf ++ (v ++ RespSerializer.crlf)) := by
    simpa [RespSerializer.nullBulk, RespSerializer.bulkString, lit] using h
  rw [decimal_nat] at htail
  cases hd : Decimal.digits v.length with
  | nil => exact Decimal.digits_ne_nil _ hd
  | cons b s =>
    have hdigit : Decimal.IsDigit b := Decimal.isDigit_of_mem_digits (n := v.length) (by simp [hd])
    rw [hd, List.cons_append] at htail
    exact (not_sign hdigit).1 (List.cons.inj htail).1.symm

/-- At every reading from `now` on and before `now + ttl`, `GET` returns the value, whatever
was done until then that does not write the key. -/
def ShownFor (json : JsonLib) (text : DoubleText α) (c : ChronoCache α) (k v : Bytes) (ttl : ℤ)
    (now : ℕ) : Prop :=
  ∀ t : ℕ, now ≤ t → (t : ℤ) < now + ttl * nsPerMs → t < 2 ^ 63 →
    ∀ later, (eventLoop json text).Admits (LeavesUntil k t) c later →
      ∀ env : CommandEnv, (env.calls 0).clock 0 = t →
        (EventLoop.respond json text env (some (.command [lit "GET", k]))
          ((eventLoop json text).after c later)).1 =
          .ok (RespSerializer.bulkString v)

/-- The TTL is in effect, and its deadline is the exact sum. -/
structure TtlEffective (json : JsonLib) (text : DoubleText α) (c : ChronoCache α) (k v : Bytes)
    (ttl : ℤ) (now : ℕ) :
    Prop where
  shown : ShownFor json text c k v ttl now
  exact : deadlineAfter now ttl = now + ttl * nsPerMs

/-- A deadline shows the entry up to the end of its TTL, or of the clock's range. -/
theorem shownFor_iff {k v : Bytes} {d ttl : ℤ} {now : ℕ} (ha : c.isAcceptingOps = true)
    (hk : c.hashMap k = some ⟨v, some d⟩) :
    ShownFor json text c k v ttl now ↔ ∀ t : ℕ, now ≤ t → (t : ℤ) < now + ttl * nsPerMs →
    t < 2 ^ 63 → (t : ℤ) ≤ d := by
  have hexpired (t : ℕ) : (⟨v, some d⟩ : CacheEntry).isExpired t = false ↔ (t : ℤ) ≤ d := by
    simp [CacheEntry.isExpired]
  constructor
  · intro h t hle hlt hmax
    have hreply := h t hle hlt hmax [] trivial ⟨fun _ => ⟨fun _ => t, true⟩, .ok []⟩ rfl
    rw [Machine.after_nil, respond_get ha, hk] at hreply
    rw [← hexpired]
    cases hx : (⟨v, some d⟩ : CacheEntry).isExpired t with
    | false => rfl
    | true =>
      simp only [Option.filter, hx, Bool.not_true] at hreply
      exact absurd (Except.ok.inj hreply) (nullBulk_ne_bulkString v)
  · intro h t hle hlt hmax later hlater env henv
    have he := (hexpired t).mpr (h t hle hlt hmax)
    obtain ⟨ha', hk'⟩ := entry_after he hlater ha hk
    rw [respond_get ha', hk', henv]
    simp [Option.filter, he, bulkOrNull]

/-- A TTL that is accepted takes effect exactly as long as its deadline is within the clock's
range; beyond it the entry is shown only if the wrapped deadline is the last of all. -/
theorem ttlEffective_iff {k v : Bytes} {ttl : ℤ} {now : ℕ}
    (h : GivesTtl json text env c c' k v ttl now) (hnow : now < 2 ^ 63) :
    (ShownFor json text c' k v ttl now ↔
        DeadlineInRange now ttl ∨ ((now : ℤ) + ttl * nsPerMs + 1) % 2 ^ 64 = 2 ^ 63) ∧
      (TtlEffective json text c' k v ttl now ↔ DeadlineInRange now ttl) := by
  obtain ⟨hpos, ha, hk⟩ := h.entry
  have hsum : (now : ℤ) ≤ now + ttl * nsPerMs := by
    have := Int.mul_nonneg hpos.le (Int.natCast_nonneg nsPerMs)
    omega
  have hwrap := deadlineAfter_wraps now ttl
  have hbound : deadlineAfter now ttl < 2 ^ 63 := toInt64_lt _
  have hin : DeadlineInRange now ttl → deadlineAfter now ttl = now + ttl * nsPerMs :=
    deadlineAfter_eq hpos.le
  have hshown : ShownFor json text c' k v ttl now ↔
      DeadlineInRange now ttl ∨ ((now : ℤ) + ttl * nsPerMs + 1) % 2 ^ 64 = 2 ^ 63 := by
    rw [shownFor_iff ha hk]
    unfold DeadlineInRange at hin ⊢
    generalize (now : ℤ) + ttl * nsPerMs = sum at *
    generalize deadlineAfter now ttl = d at *
    -- a sum beyond the range is wrapped to at most the last time point
    have hlast : d = 2 ^ 63 - 1 ↔ (sum + 1) % 2 ^ 64 = 2 ^ 63 := by
      rw [hwrap, toInt64_eq_ite]
      split_ifs <;> omega
    rw [← hlast]
    constructor
    · intro h
      by_contra hout
      obtain ⟨hsum, hne⟩ := not_or.mp hout
      have := h (2 ^ 63 - 1) (by omega) (by omega) (by omega)
      omega
    · rintro (hrange | heq) t hle hlt hmax
      · rw [hin hrange]
        omega
      · omega
  refine ⟨hshown, fun h => ?_, fun h => ⟨hshown.mpr (.inl h), hin h⟩⟩
  rw [h.exact] at hbound
  exact hbound

/-- All readings of the clock are `now`. -/
def envAt (now : ℕ) : CommandEnv := ⟨fun _ => ⟨fun _ => now, true⟩, .ok []⟩

/-- A second. -/
theorem ttlEffective_witness :
    let command := RespValue.command [lit "SET", lit "k", lit "v", lit "EX", lit "1000"]
    let r :=
      EventLoop.respond .reference noDoubles (envAt 1700000000000000000) (some command) initialised
    r.1 = .ok RespSerializer.ok ∧
      TtlEffective .reference noDoubles r.2 (lit "k") (lit "v") 1000 1700000000000000000 := by
  intro command r
  have hrespond : EventLoop.respond .reference noDoubles (envAt 1700000000000000000)
      (some command) initialised =
      (.ok RespSerializer.ok, r.2) := rfl
  have hgives : GivesTtl .reference noDoubles (envAt 1700000000000000000) initialised r.2
      (lit "k") (lit "v") 1000
      1700000000000000000 := .set hrespond rfl rfl rfl rfl
  exact ⟨rfl, (ttlEffective_iff hgives (by decide)).2.mpr (by decide)⟩

/-- The longest TTL of all is accepted, and the key is gone at the same reading. -/
theorem ttlEffective_counterexample :
    let env := envAt 1700000000000000000
    let command :=
      RespValue.command [lit "SET", lit "k", lit "v", lit "EX", lit "9223372036854775807"]
    let r := EventLoop.respond .reference noDoubles env (some command) initialised
    r.1 = .ok RespSerializer.ok ∧
      (EventLoop.respond .reference noDoubles env (some (.command [lit "GET", lit "k"])) r.2).1 =
        .ok RespSerializer.nullBulk ∧
      ¬ ShownFor .reference noDoubles r.2 (lit "k")
        (lit "v") 9223372036854775807 1700000000000000000 := by
  intro env command r
  have hentry : r.2.hashMap (lit "k") =
      some ⟨lit "v", some (deadlineAfter 1700000000000000000 9223372036854775807)⟩ := rfl
  have hdeadline : deadlineAfter 1700000000000000000 9223372036854775807 = 1699999999999000000 := by
    decide
  have hget : (EventLoop.respond .reference noDoubles env
      (some (.command [lit "GET", lit "k"])) r.2).1 =
      .ok RespSerializer.nullBulk := by
    rw [respond_get rfl, hentry, hdeadline]
    rfl
  refine ⟨rfl, hget, fun h => ?_⟩
  have hshown :=
    h 1700000000000000000 (by omega) (by unfold nsPerMs; omega) (by omega) [] trivial env rfl
  exact nullBulk_ne_bulkString _ (Except.ok.inj (hget.symm.trans hshown))

/-! ## The codes of `pttl` -/

/-- What the answer of `pttl` says of the entry of a key at the first reading: -2 that it is not
there, -1 that it has no deadline, and anything else a time that is left. -/
structure PttlExact (clock : Clock) (x : Option CacheEntry) (n : ℤ) : Prop where
  missing : n = -2 → x = none ∨ ∃ e, x = some e ∧ e.isExpired (clock 0) = true
  persistent : n = -1 → ∃ e, x = some e ∧ e.expiresAt = none
  left : n ≠ -2 → n ≠ -1 → 0 ≤ n ∧ ∃ e d, x = some e ∧ e.expiresAt = some d ∧
    n * nsPerMs ≤ d - clock 0

/-- The remaining time of an entry that was not expired is negative once a millisecond has
passed since its deadline. -/
theorem remaining_iff {d : ℤ} {now later : ℕ} (hlive : (now : ℤ) ≤ d) (hd : d < 2 ^ 63)
    (hle : now ≤ later) (hmax : later < 2 ^ 63) :
    (0 ≤ (toInt64 (d - later)).tdiv nsPerMs ↔ ¬ d + nsPerMs ≤ later) ∧
      (0 ≤ (toInt64 (d - later)).tdiv nsPerMs →
        (toInt64 (d - later)).tdiv nsPerMs * nsPerMs ≤ d - now) := by
  rw [toInt64_eq_self (by omega) (by omega)]
  by_cases hpassed : (later : ℤ) ≤ d
  · rw [Int.tdiv_eq_ediv_of_nonneg (by omega)]
    unfold nsPerMs
    omega
  · -- the division truncates toward zero
    have hneg : (d - later).tdiv nsPerMs = -((later - d) / nsPerMs) := by
      rw [← Int.neg_sub, Int.neg_tdiv, Int.tdiv_eq_ediv_of_nonneg (by omega)]
    rw [hneg]
    unfold nsPerMs
    omega

/-- For an entry that shows a deadline, the answer is right exactly when it is not negative. -/
theorem pttlExact_of_deadline {clock : Clock} {e : CacheEntry} {d n : ℤ} (hd : e.expiresAt = some d)
    (hlive : e.isExpired (clock 0) = false) (hbound : 0 ≤ n → n * nsPerMs ≤ d - clock 0) :
    PttlExact clock (some e) n ↔ 0 ≤ n := by
  constructor
  · intro h
    by_contra hneg
    by_cases htwo : n = -2
    · rcases h.missing htwo with habsent | ⟨e', he', hexpired⟩
      · cases habsent
      · obtain rfl := Option.some.inj he'
        simp [hlive] at hexpired
    · by_cases hone : n = -1
      · obtain ⟨e', he', hnone⟩ := h.persistent hone
        obtain rfl := Option.some.inj he'
        simp [hd] at hnone
      · exact hneg (h.left htwo hone).1
  · intro hn
    exact ⟨fun h => by omega, fun h => by omega, fun _ _ => ⟨hn, e, d, rfl, hd, hbound hn⟩⟩

variable (hc : Reachable json text c)
include hc

/-- The codes of `pttl` are unambiguous exactly when the deadline does not pass, by a millisecond
or more, between its two readings. -/
theorem pttlExact_iff {env : Env} {k : Bytes} {n : ℤ} (h : (c.pttl env k).1 = .ok n)
    (hle : env.clock 0 ≤ env.clock 1) (hmax : env.clock 1 < 2 ^ 63) :
    PttlExact env.clock (c.hashMap k) n ↔
      ¬ ∃ e d, c.hashMap k = some e ∧ e.expiresAt = some d ∧ (env.clock 0 : ℤ) ≤ d ∧
        d + nsPerMs ≤ env.clock 1 := by
  have hop : (Op.pttl k).run json env c = (.ok (.millis n), (c.pttl env k).2) := by
    change ((c.pttl env k).1.map Result.millis, (c.pttl env k).2) = _
    rw [h]
    rfl
  have hresult := (run_of_ok hop).2.1
  have hdeadline := hc.deadlines k
  rw [show (Op.pttl k).key = k from rfl] at hresult
  cases hx : c.hashMap k with
  | none =>
    simp only [hx, Op.outcome, Except.ok.injEq, Result.millis.injEq] at hresult
    subst hresult
    exact iff_of_true ⟨fun _ => .inl rfl, by simp, by simp⟩ (by simp)
  | some e =>
    simp only [hx, Op.outcome] at hresult
    cases hexpired : e.isExpired (env.clock 0) with
    | true =>
      simp only [hexpired, if_true, Except.ok.injEq, Result.millis.injEq] at hresult
      subst hresult
      refine iff_of_true ⟨fun _ => .inr ⟨e, rfl, hexpired⟩, by simp, by simp⟩ ?_
      rintro ⟨e', d, he', hd, hlive, -⟩
      obtain rfl := Option.some.inj he'
      simp only [CacheEntry.isExpired, hd, decide_eq_true_eq] at hexpired
      omega
    | false =>
      simp only [hexpired, Bool.false_eq_true, if_false, Except.ok.injEq,
        Result.millis.injEq] at hresult
      cases hd : e.expiresAt with
      | none =>
        simp only [CacheEntry.remainingTtl, hd, Option.map_none, Option.getD_none] at hresult
        subst hresult
        refine iff_of_true ⟨by simp, fun _ => ⟨e, rfl, hd⟩, by simp⟩ ?_
        rintro ⟨e', d, he', hd', -⟩
        obtain rfl := Option.some.inj he'
        simp [hd] at hd'
      | some d =>
        have hlive : (env.clock 0 : ℤ) ≤ d := by
          simpa [CacheEntry.isExpired, hd] using hexpired
        obtain ⟨hsign, hbound⟩ := remaining_iff hlive (hdeadline e hx d hd) hle hmax
        simp only [CacheEntry.remainingTtl, hd, Option.map_some, Option.getD_some] at hresult
        rw [hresult] at hsign hbound
        rw [pttlExact_of_deadline hd hexpired hbound, hsign]
        refine not_congr ⟨fun h => ⟨e, d, rfl, hd, hlive, h⟩, ?_⟩
        rintro ⟨e', d', he', hd', -, h⟩
        obtain rfl := Option.some.inj he'
        obtain rfl := Option.some.inj (hd.symm.trans hd')
        exact h

omit hc

/-- A key that expires after a second, restored from the log. -/
def expiringCache : ChronoCache ℤ :=
  let c : ChronoCache ℤ := { (create false []).openLogger with state := .replaying }
  { (replayEvent .reference 0 0 ⟨.set, lit "k", lit "v", 1000, 1, 0⟩
    ⟨c, fun _ => none⟩).2.cache with state := .ready }

theorem expiringCache_reachable : Reachable .reference noDoubles expiringCache := by
  have hreplayed :=
    Reachable.replayEvent (.beginReplay (.create false []) rfl : Reachable .reference noDoubles _) rfl
      0 0 ⟨.set, lit "k", lit "v", 1000, 1, 0⟩ (by decide) (fun _ => none)
  have hended := Reachable.endReplay hreplayed rfl true
  have hready := Reachable.becomeReady hended rfl
  exact hready

/-- The deadline is the first reading, and `after` nanoseconds pass until the second. -/
def envAcross (after : ℕ) : Env := ⟨fun i => if i = 0 then 1000000000 else 1000000000 + after, true⟩

/-- Half a millisecond passes. -/
theorem pttlExact_witness :
    (expiringCache.pttl (envAcross 500000) (lit "k")).1 = .ok 0 ∧
      PttlExact (envAcross 500000).clock (expiringCache.hashMap (lit "k")) 0 := by
  refine ⟨rfl, (pttlExact_iff expiringCache_reachable rfl (by decide) (by decide)).mpr ?_⟩
  rintro ⟨e, d, he, hd, -, hpassed⟩
  obtain rfl := Option.some.inj he
  obtain rfl := Option.some.inj hd
  exact absurd hpassed (by decide)

/-- A millisecond passes, and the answer is that the key has no deadline. -/
theorem pttlExact_counterexample :
    (expiringCache.pttl (envAcross 1000000) (lit "k")).1 = .ok (-1) ∧
      expiringCache.hashMap (lit "k") = some ⟨lit "v", some 1000000000⟩ ∧
      ¬ PttlExact (envAcross 1000000).clock (expiringCache.hashMap (lit "k")) (-1) := by
  refine ⟨rfl, rfl, fun h => ?_⟩
  obtain ⟨e, he, hnone⟩ := h.persistent rfl
  obtain rfl := Option.some.inj he
  cases hnone

end Chrono
