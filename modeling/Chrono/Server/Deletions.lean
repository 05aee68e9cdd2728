import Chrono.Server.Deadlines
import Mathlib.Data.Set.Card

/-!
# What DEL counts

`GET` and `PTTL` drop an entry that they find expired, `DEL` counts it as removed. So its
reply tells whether some earlier command came across the entry.
-/
namespace Chrono
open ChronoCache CommandHandler Library

variable {α : Type} {c d : ChronoCache α} {json : JsonLib} {env : CommandEnv}

/-! ## One command -/

theorem integer_inj {m : ℕ} {n : ℤ} (h : RespSerializer.integer m = RespSerializer.integer n) :
    n = m := by
  have hdecimal : RespSerializer.decimal m = RespSerializer.decimal n := by
    simpa [RespSerializer.integer, lit] using h
  rw [decimal_nat] at hdecimal
  rcases Int.eq_nat_or_neg n with ⟨k, rfl | rfl⟩
  · rw [decimal_nat] at hdecimal
    rw [← Decimal.value_digits m, hdecimal, Decimal.value_digits]
  · rcases Nat.eq_zero_or_pos k with rfl | hk
    · change Decimal.digits m = RespSerializer.decimal (0 : ℕ) at hdecimal
      rw [decimal_nat] at hdecimal
      rw [← Decimal.value_digits m, hdecimal, Decimal.value_digits]
      rfl
    · rw [decimal_neg hk] at hdecimal
      have hdigit : Decimal.IsDigit 0x2D :=
        Decimal.isDigit_of_mem_digits (n := m) (by simp [hdecimal])
      exact absurd hdigit.1 (by decide)

def presentKeys (c : ChronoCache α) (keys : List Bytes) : Finset Bytes :=
  keys.toFinset.filter fun k => (c.hashMap k).isSome

theorem del_of_ok {env : Env} {key : Bytes} {removed : Bool} {c' : ChronoCache α}
    (h : c.del json env key = (.ok removed, c')) :
    c.isAcceptingOps = true ∧ removed = (c.hashMap key).isSome ∧
    c'.hashMap = c.hashMap.erase key := by
  have hop : (Op.del key).run json env c = (.ok (.flag removed), c') := by
    rw [Op.run, h]
    rfl
  obtain ⟨-, hresult, hmap⟩ := run_of_ok hop
  rw [show (Op.del key).key = key from rfl] at hresult hmap
  refine ⟨accepting_of_ok hop, ?_, ?_⟩
  · cases hx : c.hashMap key <;> simp_all [Op.outcome]
  · rw [hmap]
    cases hx : c.hashMap key <;> simp [Op.outcome, Table.erase]

theorem presentKeys_erase {c' : ChronoCache α} {key : Bytes} (h : c'.hashMap = c.hashMap.erase key)
    (keys : List Bytes) :
    presentKeys c' keys = (presentKeys c keys).erase key := by
  ext k
  by_cases hk : k = key <;> simp [presentKeys, h, Table.erase, hk]

theorem presentKeys_cons (key : Bytes) (keys : List Bytes) : presentKeys c (key :: keys) =
    if (c.hashMap key).isSome then insert key (presentKeys c keys) else presentKeys c keys := by
  rw [presentKeys, List.toFinset_cons, Finset.filter_insert]
  rfl

theorem card_presentKeys_cons {c' : ChronoCache α} {key : Bytes}
    (h : c'.hashMap = c.hashMap.erase key) (keys : List Bytes) :
    (presentKeys c (key :: keys)).card =
      (if (c.hashMap key).isSome then 1 else 0) + (presentKeys c' keys).card := by
  rw [presentKeys_cons, presentKeys_erase h]
  by_cases hkey : (c.hashMap key).isSome = true
  · rw [if_pos hkey, if_pos hkey]
    calc
      (insert key (presentKeys c keys)).card =
        ((insert key (presentKeys c keys)).erase key).card + 1 :=
        (Finset.card_erase_add_one (Finset.mem_insert_self _ _)).symm
      _ = 1 + ((presentKeys c keys).erase key).card := by rw [Finset.erase_insert_eq_erase, Nat.add_comm]
  · have habsent : key ∉ presentKeys c keys := fun hmem => hkey (Finset.mem_filter.mp hmem).2
    rw [if_neg hkey, if_neg hkey, Finset.erase_eq_of_notMem habsent, Nat.zero_add]

/-- The loop of `DEL` counts the distinct listed keys that have an entry. -/
theorem delLoop_count {args : List RespValue} {i : ℕ} {count n : ℤ}
    (h : (delLoop json env i count args c).1 = .ok n) :
    n = count + (presentKeys c (args.map RespValue.strValue)).card := by
  induction args generalizing c i count with
  | nil =>
    obtain rfl := Except.ok.inj h
    simp [presentKeys]
  | cons arg args ih =>
    rcases hdel : c.del json (env.calls i) arg.strValue with ⟨_ | removed, c'⟩
    · simp [delLoop, hdel] at h
    · simp only [delLoop, hdel] at h
      obtain ⟨-, rfl, hmap⟩ := del_of_ok hdel
      rw [List.map_cons, card_presentKeys_cons hmap, ih h]
      split_ifs
      · push_cast
        omega
      · push_cast
        omega

variable [LinearOrder α] {text : DoubleText α}

/-- A `GET` of the key at the reading `t` returns a value. -/
def Shown (json : JsonLib) (text : DoubleText α) (c : ChronoCache α) (t : ℕ) (k : Bytes) : Prop :=
  ∃ v, (EventLoop.respond json text (envAt t) (some (.command [lit "GET", k])) c).1 =
    .ok (RespSerializer.bulkString v)

theorem shown_iff (ha : c.isAcceptingOps = true) (t : ℕ) (k : Bytes) :
    Shown json text c t k ↔ ∃ e, c.hashMap k = some e ∧ e.isExpired t = false := by
  unfold Shown
  rw [respond_get ha]
  simp only [show ((envAt t).calls 0).clock 0 = t from rfl, Except.ok.injEq]
  constructor
  · rintro ⟨v, hv⟩
    cases hx : c.hashMap k with
    | none => exact absurd (by simpa [hx, bulkOrNull] using hv) (nullBulk_ne_bulkString v)
    | some e =>
      refine ⟨e, rfl, ?_⟩
      cases hexpired : e.isExpired t with
      | false => rfl
      | true =>
        exact absurd (by simpa [hx, hexpired, Option.filter, bulkOrNull] using hv)
          (nullBulk_ne_bulkString v)
  · rintro ⟨e, he, hlive⟩
    exact ⟨e.value, by simp [he, hlive, Option.filter, bulkOrNull]⟩

theorem respond_del {command head : RespValue} {args : List RespValue} {n : ℤ}
    (htype : command.type = .array) (harray : command.array = head :: args)
    (hname : toUpper head.strValue = lit "DEL")
    (h : (EventLoop.respond json text env (some command) c).1 = .ok (RespSerializer.integer n)) :
    c.isAcceptingOps = true ∧ n = (presentKeys c (args.map RespValue.strValue)).card := by
  have hrun := execute_of_respond (isErrorReply_integer n) (Prod.ext h rfl)
  rw [execute_named json text _ htype harray hname rfl] at hrun
  cases args with
  | nil =>
    have hreply := congrArg Prod.fst hrun
    simp [cmdDel, wrongNumber, answer, RespSerializer.error, RespSerializer.integer, lit] at hreply
  | cons arg args =>
    obtain ⟨m, hloop, hm⟩ := call_eq hrun
    have hcount := delLoop_count (congrArg Prod.fst hloop)
    rw [Int.zero_add] at hcount
    refine ⟨?_, integer_inj (hcount ▸ hm)⟩
    rcases hdel : c.del json (env.calls 0) arg.strValue with ⟨_ | removed, c'⟩
    · simp [delLoop, hdel] at hloop
    · exact (del_of_ok hdel).1

/-- What is counted is what is shown exactly when none of the listed keys has an expired entry. -/
theorem card_presentKeys_iff (ha : c.isAcceptingOps = true) (t : ℕ) (keys : List Bytes) :
    (presentKeys c keys).card = Set.ncard {k | k ∈ keys ∧ Shown json text c t k} ↔
      ∀ k ∈ keys, ∀ e ∈ c.hashMap k, e.isExpired t = false := by
  have hshown : {k | k ∈ keys ∧ Shown json text c t k} =
      ↑((presentKeys c keys).filter fun k => ∀ e ∈ c.hashMap k, e.isExpired t = false) := by
    ext k
    rw [Set.mem_ofPred_eq, shown_iff ha]
    simp only [presentKeys, Finset.coe_filter, Finset.mem_filter, List.mem_toFinset,
      Set.mem_ofPred_eq, Option.isSome_iff_exists]
    constructor
    · rintro ⟨hmem, e, he, hlive⟩
      exact ⟨⟨hmem, e, he⟩, fun e' he' => Option.some.inj (he.symm.trans he') ▸ hlive⟩
    · rintro ⟨⟨hmem, e, he⟩, hlive⟩
      exact ⟨hmem, e, he, hlive e he⟩
  rw [hshown, Set.ncard_coe_finset, eq_comm, Finset.card_filter_eq_iff]
  constructor
  · intro h k hk e he
    exact h k (by simp [presentKeys, hk, Option.mem_def.mp he]) e he
  · intro h k hk
    simp only [presentKeys, Finset.mem_filter, List.mem_toFinset] at hk
    exact h k hk.1

theorem respond_get_state (ha : c.isAcceptingOps = true) (t : ℕ) (k : Bytes) :
    (EventLoop.respond json text (envAt t) (some (.command [lit "GET", k])) c).2 =
      { c with
        hashMap := Function.update c.hashMap k ((c.hashMap k).filter fun e => !e.isExpired t) } := by
  rw [respond_state]
  change ((Op.get k).run json ((envAt t).calls 0) c).2 = _
  rw [Op.run_eq ha]
  rw [show (Op.get k).key = k from rfl]
  cases hx : c.hashMap k with
  | none => rfl
  | some e =>
    by_cases he : e.isExpired t = true <;> simp [Op.outcome, envAt, he, Option.filter, logMutation]

/-- A `GET` just before changes the count exactly when it drops a listed key. -/
theorem del_after_get_iff {command head : RespValue} {args : List RespValue} {n : ℤ}
    (htype : command.type = .array) (harray : command.array = head :: args)
    (hname : toUpper head.strValue = lit "DEL")
    (h : (EventLoop.respond json text env (some command) c).1 = .ok (RespSerializer.integer n))
    (t : ℕ) :
    (∀ k ∈ args.map RespValue.strValue, (EventLoop.respond json text env (some command)
        (EventLoop.respond json text (envAt t) (some (.command [lit "GET", k])) c).2).1 =
          .ok (RespSerializer.integer n)) ↔
      ∀ k ∈ args.map RespValue.strValue, ∀ e ∈ c.hashMap k, e.isExpired t = false := by
  obtain ⟨ha, hn⟩ := respond_del htype harray hname h
  refine forall₂_congr fun k hk => ?_
  rw [respond_get_state ha]
  constructor
  · intro hsame e he
    obtain ⟨-, hn'⟩ := respond_del htype harray hname hsame
    by_contra hexpired
    have hdropped : (c.hashMap k).filter (fun e => !e.isExpired t) = none := by
      simp [Option.mem_def.mp he, Option.filter, Bool.eq_true_of_not_eq_false hexpired]
    have hmem : k ∈ presentKeys c (args.map RespValue.strValue) := by
      simp only [presentKeys, Finset.mem_filter, List.mem_toFinset, Option.mem_def.mp he]
      exact ⟨hk, rfl⟩
    rw [hdropped, presentKeys_erase (c := c) rfl] at hn'
    have hlt := Finset.card_erase_lt_of_mem hmem
    omega
  · intro hlive
    have hkept : (c.hashMap k).filter (fun e => !e.isExpired t) = c.hashMap k := by
      cases hx : c.hashMap k with
      | none => rfl
      | some e => simp [Option.filter, hlive e hx]
    rw [hkept, Function.update_eq_self]
    exact h

/-! ## Runs with more reads -/

/-- The entry of a key in a run and in the same run with more reads: the same, or one that is
expired at `t` and that a read has dropped. -/
inductive Purged (t : ℕ) : Option CacheEntry → Option CacheEntry → Prop where
  | same (x : Option CacheEntry) : Purged t x x
  | dropped {e : CacheEntry} (h : e.isExpired t = true) : Purged t (some e) none

theorem Purged.mono {t t' : ℕ} (h : t ≤ t') {x y : Option CacheEntry} (hxy : Purged t x y) :
    Purged t' x y := by
  cases hxy with
  | same => exact .same x
  | dropped he => exact .dropped (CacheEntry.isExpired_mono h he)

/-- Only a `DEL` of the key tells the two apart. -/
theorem Purged.outcome {t : ℕ} {x y : Option CacheEntry} (h : Purged t x y) {clock : Clock}
    (hle : t ≤ clock 0) {op : Op} (hdel : ∀ key, op = .del key → x = y) :
    (op.outcome clock x).result = (op.outcome clock y).result ∧
      (op.outcome clock x).mutation = (op.outcome clock y).mutation ∧
      Purged t (op.outcome clock x).entry (op.outcome clock y).entry := by
  cases h with
  | same => exact ⟨rfl, rfl, .same _⟩
  | @dropped e he =>
    have hexpired := CacheEntry.isExpired_mono hle he
    cases op with
    | set key value ttl => exact ⟨rfl, rfl, .same _⟩
    | del key => cases hdel key rfl
    | get key => simp [Op.outcome, hexpired, Purged.same]
    | pttl key => simp [Op.outcome, hexpired, Purged.same]
    | persist key => simp [Op.outcome, hexpired, Purged.same]
    | expire key ttl =>
      by_cases ht : ttl ≤ 0
      · simp [Op.outcome, ht, Purged.dropped he]
      · simp [Op.outcome, ht, hexpired, Purged.same]

/-- Two caches that differ in expired entries only. -/
structure SameButPurged (t : ℕ) (c d : ChronoCache α) : Prop where
  rest : d = { c with hashMap := d.hashMap }
  entries : ∀ k, Purged t (c.hashMap k) (d.hashMap k)

/-- The same, with the listed keys alike. -/
structure AlikeOn (keys : Bytes → Prop) (t : ℕ) (c d : ChronoCache α) :
    Prop extends SameButPurged t c d where
  alike : ∀ k, keys k → c.hashMap k = d.hashMap k

omit [LinearOrder α] in
theorem AlikeOn.run {keys : Bytes → Prop} {t : ℕ} {op : Op} (hop : ∀ key, op = .del key → keys key)
    {env : Env} (hle : t ≤ env.clock 0) :
    Respects (AlikeOn keys t : ChronoCache α → ChronoCache α → Prop) (op.run json env) := by
  intro c d h
  have hd : d = { c with hashMap := d.hashMap } := h.rest
  have hgate : d.isAcceptingOps = c.isAcceptingOps := by rw [hd]; rfl
  cases ha : c.isAcceptingOps with
  | false =>
    rw [Op.run_refused ha, Op.run_refused (hgate.trans ha)]
    exact ⟨rfl, h⟩
  | true =>
    have hlog (m : Option Mutation) : d.logMutation json env.delivered op.key m =
        c.logMutation json env.delivered op.key m := by rw [hd]; rfl
    have hdel : ∀ key, op = .del key → c.hashMap op.key = d.hashMap op.key := by
      rintro key rfl
      exact h.alike key (hop key rfl)
    obtain ⟨hresult, hmutation, hentry⟩ := (h.entries op.key).outcome hle hdel
    rw [Op.run_eq ha, Op.run_eq (hgate.trans ha)]
    dsimp only
    rw [hlog, hresult, hmutation]
    refine ⟨rfl, ⟨?_, ?_⟩, ?_⟩
    · conv_lhs => rw [hd]
    · intro k
      by_cases hk : k = op.key
      · subst hk
        simpa only [Function.update_self] using hentry
      · simpa only [Function.update_of_ne hk] using h.entries k
    · intro k hkeys
      by_cases hk : k = op.key
      · subst hk
        simp only [Function.update_self, h.alike op.key hkeys]
      · simpa only [Function.update_of_ne hk] using h.alike k hkeys

/-- Replay keeps an entry or replaces it, whatever it is. -/
theorem keyReplay_purged {t : ℕ} {x y : Option CacheEntry} (h : Purged t x y) (nowMs : ℤ)
    (clock : Clock) (k : Bytes) (i : ℕ) (es : List CacheEvent) (last : Option ℕ) :
    Purged t (keyReplay nowMs clock k i es (x, last)).1 (keyReplay nowMs clock k i es (y, last)).1 ∧
      (keyReplay nowMs clock k i es (x, last)).2 = (keyReplay nowMs clock k i es (y, last)).2 := by
  induction es generalizing i x y last with
  | nil => exact ⟨h, rfl⟩
  | cons e es ih =>
    rw [keyReplay, keyReplay]
    by_cases hk : e.key = k
    · rw [if_pos hk, if_pos hk]
      unfold CacheEvent.keyStep CacheEvent.applyTo
      dsimp only
      split_ifs
      · exact ih h _ _
      · exact ih h _ _
      · exact ih (.same _) _ _
    · rw [if_neg hk, if_neg hk]
      exact ih h _ _

omit [LinearOrder α] in
theorem AlikeOn.init {keys : Bytes → Prop} {t : ℕ} (withReplay : Bool)
    (consumed : Except Fault (List CacheEvent)) (clock : Clock) :
    Respects (AlikeOn keys t : ChronoCache α → ChronoCache α → Prop)
      (ChronoCache.init json withReplay consumed clock) := by
  intro c d h
  have hstate : d.state = c.state := by rw [h.rest]
  by_cases huninit : c.state = .uninitialized
  · -- opening the logger leaves the maps alone
    have hopen : d.openLogger = { c.openLogger with hashMap := d.hashMap } := by
      rw [h.rest]
      unfold openLogger
      split_ifs <;> rfl
    have hmap (state : ChronoCacheState) : AlikeOn keys t { c.openLogger with state := state }
        { d.openLogger with state := state } := by
      rw [hopen]
      refine ⟨⟨rfl, fun k => ?_⟩, fun k hk => ?_⟩
      · change Purged t (c.openLogger.hashMap k) _
        rw [openLogger_hashMap]
        exact h.entries k
      · change c.openLogger.hashMap k = _
        rw [openLogger_hashMap]
        exact h.alike k hk
    rw [init_uninitialized huninit, init_uninitialized (hstate.trans huninit)]
    cases withReplay with
    | false => exact ⟨rfl, hmap .ready⟩
    | true =>
      cases consumed with
      | error e => exact ⟨rfl, hmap .replayFailed⟩
      | ok events =>
        simp only [Bool.true_eq_false, if_false, openLogger_hashMap]
        have hreplay (k : Bytes) :=
          keyReplay_purged (h.entries k) (toMillis (clock 0)) clock k 1 events none
        simp only [hopen, (hreplay _).2]
        refine ⟨trivial, ⟨rfl, fun k => (hreplay k).1⟩, fun k hk => ?_⟩
        change (keyReplay _ _ _ _ _ (c.hashMap k, none)).1 =
          (keyReplay _ _ _ _ _ (d.hashMap k, none)).1
        rw [h.alike k hk]
  · rw [init_initialized huninit, init_initialized (by rw [hstate]; exact huninit), hstate]
    exact ⟨rfl, h⟩

omit [LinearOrder α] in
theorem AlikeOn.sets {keys : Bytes → Prop} {t : ℕ} :
    SetsRespect (AlikeOn keys t : ChronoCache α → ChronoCache α → Prop) := by
  intro c d h
  have hd := h.rest
  refine ⟨by rw [hd], by rw [hd]; rfl, fun api => ⟨⟨?_, h.entries⟩, h.alike⟩⟩
  conv_lhs => rw [hd]

/-- Every key that a `DEL` lists is without an expired entry when the `DEL` arrives. -/
def DelsShown (c : ChronoCache α) (i : CommandEnv × Option RespValue) : Prop :=
  ∀ command, i.2 = some command → ∀ k, Op.del k ∈ requests command →
    ∀ e ∈ c.hashMap k, e.isExpired ((i.1.calls 0).clock 0) = false

/-- The readings of the clock are not before `t`. -/
def ReadsFrom (t : ℕ) (i : CommandEnv × Option RespValue) : Prop := ∀ n m, t ≤ (i.1.calls n).clock m

theorem SameButPurged.step {t : ℕ} (h : SameButPurged t c d) {i : CommandEnv × Option RespValue}
    (hfrom : ReadsFrom t i) (hshown : DelsShown c i) :
    ((eventLoop json text).step c i).1 = ((eventLoop json text).step d i).1 ∧
      SameButPurged t ((eventLoop json text).step c i).2 ((eventLoop json text).step d i).2 := by
  obtain ⟨env, command⟩ := i
  cases command with
  | none => exact ⟨rfl, h⟩
  | some command =>
    have halike : AlikeOn (fun k => Op.del k ∈ requests command) t c d := by
      refine ⟨h, fun k hk => ?_⟩
      have hentry := h.entries k
      have hlive := hshown command rfl k hk
      generalize c.hashMap k = x at hentry hlive
      generalize d.hashMap k = y at hentry
      cases hentry with
      | same => rfl
      | @dropped e he =>
        have hexpired := CacheEntry.isExpired_mono (hfrom 0 0) he
        simp [hlive e rfl] at hexpired
    have hrespond : Respects (AlikeOn (fun k => Op.del k ∈ requests command) t)
        (EventLoop.respond json text env (some command)) := by
      refine Respects.respond (respects_execute ?_ ?_ AlikeOn.sets)
      · intro op hop n
        refine AlikeOn.run ?_ (hfrom n 0)
        rintro key rfl
        exact hop
      · exact fun withReplay clock => AlikeOn.init withReplay env.consumed clock
    obtain ⟨hreply, hstate⟩ := hrespond c d halike
    exact ⟨hreply, hstate.toSameButPurged⟩

/-- A `GET` or a `PTTL`. -/
def IsRead (i : CommandEnv × Option RespValue) : Prop :=
  ∃ command head args, i.2 = some command ∧ command.type = .array ∧ command.array = head :: args ∧
    (toUpper head.strValue = lit "GET" ∨ toUpper head.strValue = lit "PTTL")

omit [LinearOrder α] in
/-- An operation that does not write drops an entry that is expired, and nothing else. -/
theorem SameButPurged.read {t : ℕ} (h : SameButPurged t c d) {op : Op} (hop : op.writes = false)
    (json : JsonLib) {env : Env} (hle : t ≤ env.clock 0) :
    SameButPurged (env.clock 0) c (op.run json env d).2 := by
  have hrest : (op.run json env d).2 = { d with hashMap := (op.run json env d).2.hashMap } := by
    cases ha : d.isAcceptingOps with
    | false => rw [Op.run_refused ha]
    | true =>
      rcases op.outcome_cases env.clock (d.hashMap op.key) with ⟨m, y, hm⟩ | ⟨hnone, -⟩
      · generalize d.hashMap op.key = x at hm
        cases hm <;> simp [Op.writes] at hop
      · rw [Op.run_eq ha]
        simp only [hnone, logMutation]
  refine ⟨?_, fun k => ?_⟩
  · rw [hrest, h.rest]
  · have hentry := (h.entries k).mono hle
    rcases run_leaves (k := k) (fun _ => hop) json env with hsame | ⟨hnone, e, he, hexpired⟩
    · rw [hsame]
      exact hentry
    · rw [hnone]
      rw [he] at hentry
      generalize c.hashMap k = x at hentry
      cases hentry with
      | same => exact .dropped hexpired

theorem SameButPurged.read_step {t : ℕ} (h : SameButPurged t c d) {i : CommandEnv × Option RespValue}
    (hfrom : ReadsFrom t i) (hread : IsRead i) :
    SameButPurged ((i.1.calls 0).clock 0) c ((eventLoop json text).step d i).2 := by
  obtain ⟨env, command⟩ := i
  obtain ⟨command, head, args, rfl, htype, harray, hname⟩ := hread
  have hstays : SameButPurged ((env.calls 0).clock 0) c d :=
    ⟨h.rest, fun k => (h.entries k).mono (hfrom 0 0)⟩
  change SameButPurged _ c (EventLoop.respond json text env (some command) d).2
  rw [respond_state]
  rcases hname with hname | hname
  · rw [execute_named json text env htype harray hname rfl]
    rcases args with _ | ⟨key, _ | ⟨extra, args⟩⟩
    · exact hstays
    · have hget : (Op.get key.strValue).writes = false := rfl
      exact h.read hget json (hfrom 0 0)
    · exact hstays
  · rw [execute_named json text env htype harray hname rfl]
    rcases args with _ | ⟨key, _ | ⟨extra, args⟩⟩
    · exact hstays
    · have hpttl : (Op.pttl key.strValue).writes = false := rfl
      exact h.read hpttl json (hfrom 0 0)
    · exact hstays

/-- A run, and the run with reads inserted. -/
inductive Inserted : List (CommandEnv × Option RespValue) →
    List (CommandEnv × Option RespValue) → Prop where
  | done : Inserted [] []
  | keep (i : CommandEnv × Option RespValue) {is js : List (CommandEnv × Option RespValue)}
    (h : Inserted is js) : Inserted (i :: is) (i :: js)
  | read {i : CommandEnv × Option RespValue} (hread : IsRead i)
    {is js : List (CommandEnv × Option RespValue)} (h : Inserted is js) : Inserted is (i :: js)

/-- No reading of the first command is after one of the second. -/
def NotAfter (i j : CommandEnv × Option RespValue) : Prop :=
  ∀ n m, ReadsFrom ((i.1.calls n).clock m) j

/-- Inserted reads are noticed by no later command, as long as every `DEL` lists keys without
expired entries. -/
theorem Inserted.reply {is js : List (CommandEnv × Option RespValue)} (h : Inserted is js) {t : ℕ}
    (hsame : SameButPurged t c d) {i : CommandEnv × Option RespValue}
    (hfrom : ∀ j ∈ js ++ [i], ReadsFrom t j) (hsorted : (js ++ [i]).Pairwise NotAfter)
    (hshown : (eventLoop json text).Admits DelsShown c (is ++ [i])) :
    ((eventLoop json text).step ((eventLoop json text).after c is) i).1 =
      ((eventLoop json text).step ((eventLoop json text).after d js) i).1 := by
  induction h generalizing t c d with
  | done => exact (hsame.step (hfrom i (by simp)) hshown.1).1
  | keep j h ih =>
    obtain ⟨hhead, hrest⟩ := hshown
    obtain ⟨-, hnext⟩ := hsame.step (hfrom j (by simp)) hhead
    exact ih hnext (fun j' hj' => hfrom j' (List.mem_cons_of_mem _ hj'))
      (List.pairwise_cons.mp hsorted).2 hrest
  | @read j hread _ _ h ih =>
    obtain ⟨hafter, hlater⟩ := List.pairwise_cons.mp hsorted
    exact ih (hsame.read_step (hfrom j (by simp)) hread)
      (fun j' hj' => hafter j' hj' 0 0) hlater hshown

/-- `DEL` counts the listed keys that a `GET` shows, and does so after any of these `GET`s,
exactly when none of them has an expired entry; and reads that are inserted into a run change
no reply as long as that holds at every `DEL`. -/
theorem del_counts_iff (json : JsonLib) (text : DoubleText α) :
    (∀ c, Reachable json text c → ∀ (env : CommandEnv) (command head : RespValue)
      (args : List RespValue) (n : ℤ)
    (t : ℕ), command.type = .array → command.array = head :: args →
    toUpper head.strValue = lit "DEL" →
      (EventLoop.respond json text env (some command) c).1 = .ok (RespSerializer.integer n) →
      (n = Set.ncard {k | k ∈ args.map RespValue.strValue ∧ Shown json text c t k} ↔
          ∀ k ∈ args.map RespValue.strValue, ∀ e ∈ c.hashMap k, e.isExpired t = false) ∧
        ((∀ k ∈ args.map RespValue.strValue, (EventLoop.respond json text env (some command)
            (EventLoop.respond json text (envAt t) (some (.command [lit "GET", k])) c).2).1 =
              .ok (RespSerializer.integer n)) ↔
          ∀ k ∈ args.map RespValue.strValue, ∀ e ∈ c.hashMap k, e.isExpired t = false)) ∧
    ∀ (c : ChronoCache α) (is js : List (CommandEnv × Option RespValue))
      (i : CommandEnv × Option RespValue), Inserted is js → (js ++ [i]).Pairwise NotAfter →
      (eventLoop json text).Admits DelsShown c (is ++ [i]) →
      ((eventLoop json text).step ((eventLoop json text).after c is) i).1 =
        ((eventLoop json text).step ((eventLoop json text).after c js) i).1 := by
  constructor
  · intro c _ env command head args n t htype harray hname h
    refine ⟨?_, del_after_get_iff htype harray hname h t⟩
    obtain ⟨ha, rfl⟩ := respond_del htype harray hname h
    rw [Int.natCast_inj]
    exact card_presentKeys_iff ha t _
  · intro c is js i hinserted hsorted hshown
    have hsame : SameButPurged 0 c c := ⟨rfl, fun k => .same _⟩
    exact hinserted.reply hsame (fun _ _ _ _ => Nat.zero_le _) hsorted hshown

/-- A command at the deadline of the key. -/
def atDeadline (words : List String) : CommandEnv × Option RespValue :=
  (envAt 1000000000, some (.command (words.map lit)))

/-- A `DEL` at the deadline of the key, which reads before it, and between it and a `SET`, do
not change. -/
theorem del_counts_witness :
    (1 : ℤ) = Set.ncard {k | k ∈ [lit "k", lit "k"] ∧
      Shown .reference noDoubles expiringCache 1000000000 k} ∧
      ((eventLoop .reference noDoubles).step ((eventLoop .reference noDoubles).after expiringCache
          [atDeadline ["SET", "j", "w"]]) (atDeadline ["DEL", "k", "j"])).1 =
        ((eventLoop .reference noDoubles).step ((eventLoop .reference noDoubles).after expiringCache
          [atDeadline ["GET", "k"], atDeadline ["SET", "j", "w"], atDeadline ["PTTL", "k"]])
            (atDeadline ["DEL", "k", "j"])).1 := by
  constructor
  · have hreply : (EventLoop.respond .reference noDoubles (envAt 1000000000)
        (some (.command [lit "DEL", lit "k", lit "k"])) expiringCache).1 =
          .ok (RespSerializer.integer 1) := rfl
    refine ((del_counts_iff .reference noDoubles).1 expiringCache expiringCache_reachable
      _ _ _ _ _ 1000000000 rfl rfl rfl hreply).1.mpr ?_
    intro k hk e he
    obtain rfl : k = lit "k" := by
      simpa [RespValue.command, RespValue.bulkString, RespValue.strValue] using hk
    obtain rfl := Option.some.inj he
    decide
  · have hread (name : String) (hname : toUpper (lit name) = lit "GET" ∨
        toUpper (lit name) = lit "PTTL") :
        IsRead (atDeadline [name, "k"]) := ⟨_, _, _, rfl, rfl, rfl, hname⟩
    apply (del_counts_iff .reference noDoubles).2
    · exact .read (hread "GET" (.inl rfl)) (.keep _ (.read (hread "PTTL" (.inr rfl)) .done))
    · have hnotAfter (words words' : List String) : NotAfter (atDeadline words) (atDeadline words') :=
        fun _ _ _ _ => Nat.le_refl _
      simp [hnotAfter]
    · have hset : DelsShown expiringCache (atDeadline ["SET", "j", "w"]) := by
        rintro command ⟨⟩ k hk
        have hrequests : requests (.command (["SET", "j", "w"].map lit)) =
            [.set (lit "j") (lit "w") none] := rfl
        rw [hrequests, List.mem_singleton] at hk
        cases hk
      have hdel : DelsShown
          ((eventLoop .reference noDoubles).after expiringCache [atDeadline ["SET", "j", "w"]])
          (atDeadline ["DEL", "k", "j"]) := by
        rintro command ⟨⟩ k hk e he
        have hrequests : requests (.command (["DEL", "k", "j"].map lit)) =
            [.del (lit "k"), .del (lit "j")] := rfl
        rw [hrequests] at hk
        obtain rfl | rfl : k = lit "k" ∨ k = lit "j" := by simpa using hk
        · obtain rfl := Option.some.inj he
          decide
        · obtain rfl := Option.some.inj he
          rfl
      exact ⟨hset, hdel, trivial⟩

/-- A second later `DEL` counts a key that `GET` does not show, unless a `GET` came before. -/
theorem del_counts_counterexample :
    let env := envAt 2000000000
    let del := some (RespValue.command [lit "DEL", lit "k"])
    let get := some (RespValue.command [lit "GET", lit "k"])
    Reachable .reference noDoubles expiringCache ∧
      (EventLoop.respond .reference noDoubles env del expiringCache).1 =
        .ok (RespSerializer.integer 1) ∧
      ¬ Shown .reference noDoubles expiringCache 2000000000 (lit "k") ∧
      (EventLoop.respond .reference noDoubles env del
        (EventLoop.respond .reference noDoubles env get expiringCache).2).1 =
          .ok (RespSerializer.integer 0) := by
  refine ⟨expiringCache_reachable, rfl, fun h => ?_, rfl⟩
  obtain ⟨e, he, hlive⟩ := (shown_iff rfl _ _).mp h
  obtain rfl := Option.some.inj he
  exact absurd hlive (by decide)

end Chrono
