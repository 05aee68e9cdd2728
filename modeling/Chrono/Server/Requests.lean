import Mathlib.Algebra.BigOperators.Group.List.Basic
import Chrono.Server.ErrorReply
import Chrono.Server.SingleReply

/-!
# Which payloads take effect

The dispatcher and the handlers read the bytes of the elements and nothing else: not
their types, not whether they are null, and not how much of the payload the
array covers.
-/
namespace Chrono
open ChronoCache CommandHandler Connection RespParser RespSerializer Library

/-! ## Well-formed requests -/

/-- The number that a header denotes: decimal digits after an optional sign. -/
inductive Denotes : Bytes → ℤ → Prop where
  | digits {d : Bytes} (hne : d ≠ []) (h : ∀ b ∈ d, Decimal.IsDigit b) : Denotes d (Decimal.value 0 d)
  | plus {d : Bytes} (hne : d ≠ []) (h : ∀ b ∈ d, Decimal.IsDigit b) :
    Denotes (0x2B :: d) (Decimal.value 0 d)
  | minus {d : Bytes} (hne : d ≠ []) (h : ∀ b ∈ d, Decimal.IsDigit b) :
    Denotes (0x2D :: d) (-Decimal.value 0 d)

/-- The encodings of a non-null string: a line, or its length and its bytes. -/
inductive StringElement : Bytes → Prop where
  | simple {s : Bytes} (h : findCrlf s = none) : StringElement (0x2B :: (s ++ crlf))
  | bulk {len s : Bytes} (h : Denotes len s.length) : StringElement (0x24 :: (len ++ crlf ++ (s ++ crlf)))

/-- The payload is, to its end, one array of non-null strings. -/
def WellFormed (payload : Bytes) : Prop :=
  ∃ (count : Bytes) (elements : List Bytes), Denotes count elements.length ∧
    (∀ e ∈ elements, StringElement e) ∧ payload = 0x2A :: (count ++ crlf ++ elements.flatten)

theorem Denotes.parseStringAsInt {t : Bytes} {n : ℤ} (h : Denotes t n) :
    parseStringAsInt t = some (toInt32 n) := by
  have hdigits {d : Bytes} (hd : ∀ b ∈ d, Decimal.IsDigit b) :
      parseDigits d 0 = some (toInt32 (Decimal.value 0 d)) := parseDigits_eq hd 0
  cases h with
  | digits hne hd =>
    cases t with
    | nil => exact absurd rfl hne
    | cons b s =>
      obtain ⟨hminus, hplus, -⟩ := not_sign (hd b (by simp))
      simp only [Chrono.parseStringAsInt, hminus, hplus, if_false]
      exact hdigits hd
  | plus hne hd =>
    rw [Chrono.parseStringAsInt, if_neg (by decide), if_pos rfl, if_neg hne]
    exact hdigits hd
  | minus hne hd =>
    rw [Chrono.parseStringAsInt, if_pos rfl, if_neg hne, hdigits hd, Option.map_some, toInt32_neg]

theorem Denotes.cr_not_mem {t : Bytes} {n : ℤ} (h : Denotes t n) : (0x0D : UInt8) ∉ t := by
  have hdigits {d : Bytes} (hd : ∀ b ∈ d, Decimal.IsDigit b) : (0x0D : UInt8) ∉ d :=
    fun hmem => (not_sign (hd _ hmem)).2.2 rfl
  cases h with
  | digits hne hd => exact hdigits hd
  | plus hne hd =>
    rw [List.mem_cons, not_or]
    exact ⟨by decide, hdigits hd⟩
  | minus hne hd =>
    rw [List.mem_cons, not_or]
    exact ⟨by decide, hdigits hd⟩

/-- A non-null string. -/
def IsString (v : RespValue) : Prop :=
  (v.type = .simpleString ∨ v.type = .bulkString) ∧ v.isNull = false

theorem StringElement.encodes {e : Bytes} (h : StringElement e) (hlen : e.length < 2 ^ 31) :
    ∃ v, Encodes e v ∧ IsString v := by
  cases h with
  | simple hs => exact ⟨_, encodes_simpleString hs, .inl rfl, rfl⟩
  | @bulk len s hs =>
    have hshort : s.length < 2 ^ 31 := by
      simp only [List.length_cons, List.length_append] at hlen
      omega
    have hn := hs.parseStringAsInt
    rw [toInt32_eq_self (by omega) (by omega)] at hn
    exact ⟨_, encodes_bulk hs.cr_not_mem hn, .inr rfl, rfl⟩

/-- A well-formed payload is read to its end, as an array of non-null strings. -/
theorem WellFormed.parse_eq {payload : Bytes} (h : WellFormed payload) (hfits : Fits payload) :
    ∃ v, parse payload = .ok (some v) ∧ v.numRespBytes = some payload.length ∧ v.type = .array ∧
      v.isNull = false ∧ ∀ e ∈ v.array, IsString e := by
  obtain ⟨count, elements, hcount, helements, rfl⟩ := h
  have hmax : (0x2A :: (count ++ crlf ++ elements.flatten)).length ≤ 2 ^ 25 := hfits
  simp only [List.length_cons, List.length_append] at hmax
  have hshort : ∀ e ∈ elements, e.length < 2 ^ 31 := by
    intro e he
    have := (List.sublist_flatten_of_mem he).length_le
    omega
  have hnonempty : ∀ n ∈ elements.map List.length, 1 ≤ n := by
    intro n hn
    obtain ⟨e, he, rfl⟩ := List.mem_map.mp hn
    cases helements e he <;> simp
  have hmany : elements.length ≤ elements.flatten.length := by
    calc elements.length = (elements.map List.length).length := (List.length_map _).symm
      _ ≤ (elements.map List.length).sum := List.length_le_sum_of_one_le _ hnonempty
      _ = elements.flatten.length := List.length_flatten.symm
  have hread : ∀ e, ∃ v, e ∈ elements → Encodes e v ∧ IsString v := by
    intro e
    by_cases he : e ∈ elements
    · obtain ⟨v, hv⟩ := (helements e he).encodes (hshort e he)
      exact ⟨v, fun _ => hv⟩
    · exact ⟨.nullBulk 0, fun hmem => absurd hmem he⟩
  choose val hval using hread
  have hn := hcount.parseStringAsInt
  rw [toInt32_eq_self (by omega) (by omega)] at hn
  have harray : Encodes (0x2A :: (count ++ crlf ++ elements.flatMap id)) _ :=
    encodes_array (fun e he => (hval e he).1) hcount.cr_not_mem hn
  rw [List.flatMap_id] at harray
  have hparse := harray.parse_append []
  rw [List.append_nil] at hparse
  refine ⟨_, hparse, harray.count, rfl, rfl, ?_⟩
  intro v hv
  obtain ⟨e, he, rfl⟩ := List.mem_map.mp hv
  exact (hval e he).2

/-! ## What the code checks instead -/

/-- The text of a positive number, as an expiry time has to be. -/
def positive (s : Bytes) : Bool :=
  match stoll s with
  | .error _ => false
  | .ok n => decide (0 < n)

/-- The conversion does not throw. -/
def DoubleText.converts {α : Type} (text : DoubleText α) (s : Bytes) : Bool :=
  match text.stod s with
  | .error _ => false
  | .ok _ => true

/-- The checks of the handlers on the bytes of their arguments. -/
def checksArgs {α : Type} (text : DoubleText α) (name : Bytes) (args : List RespValue) : Bool :=
  if name = lit "INIT" then
    match args with
    | [] => true
    | [arg] => arg.strValue = lit "true" || arg.strValue = lit "false"
    | _ => false
  else if name = lit "PING" then true
  else if name = lit "SET" then
    match args with
    | [_, _] => true
    | [_, _, opt, ms] => (opt.strValue = lit "EX" || opt.strValue = lit "ex") && positive ms.strValue
    | _ => false
  else if name = lit "DEL" then !args.isEmpty
  else if name = lit "EXPIRE" then
    match args with
    | [_, ms] => positive ms.strValue
    | _ => false
  else if name = lit "ZADD" then
    match args with
    | [_, score, _] => text.converts score.strValue
    | _ => false
  else if name = lit "GET" ∨ name = lit "PERSIST" ∨ name = lit "PTTL" then args.length = 1
  else if name = lit "ZSCORE" ∨ name = lit "ZREM" ∨ name = lit "ZRANK" then args.length = 2
  else false

/-- The states in which the cache serves a command. -/
def servedIn {α : Type} (c : ChronoCache α) (name : Bytes) : Bool :=
  if name = lit "INIT" then c.state == .ready || c.state == .uninitialized
  else name = lit "PING" || c.isAcceptingOps

/-- A command passes every check that the code makes. -/
def Admits {α : Type} (text : DoubleText α) (c : ChronoCache α) (name : Bytes)
    (args : List RespValue) : Prop :=
  checksArgs text name args = true ∧ servedIn c name = true

/-- The array at the front of the payload passes every check that the code makes. -/
def Passes {α : Type} (text : DoubleText α) (c : ChronoCache α) (payload : Bytes) : Prop :=
  ∃ command head args, parse payload = .ok (some command) ∧ command.type = .array ∧
    command.array = head :: args ∧ Admits text c (toUpper head.strValue) args

/-! ## Refusals -/

/-- The reply will be an error, and the cache is as before. -/
def Refused {α : Type} (c : ChronoCache α) (r : Except Fault Bytes × ChronoCache α) : Prop :=
  Reports r.1 ∧ r.2 = c

/-- A call behind the gate: refused, it throws and changes nothing; accepted, it returns or
it has changed the cache. -/
structure Gated {α ρ : Type} (f : Action (ChronoCache α) ρ) (c : ChronoCache α) : Prop where
  closed : c.isAcceptingOps = false → (∃ what, (f c).1 = .error (.exception what)) ∧ (f c).2 = c
  opened : c.isAcceptingOps = true → (∃ r, (f c).1 = .ok r) ∨ (f c).2 ≠ c

section
variable {α : Type} {json : JsonLib} {text : DoubleText α} {env : CommandEnv} {c : ChronoCache α}

theorem refused_error (msg : Bytes) : Refused c (answer (RespSerializer.error msg) c) := ⟨rfl, rfl⟩

theorem Gated.refused_call {ρ : Type} {f : Action (ChronoCache α) ρ} (h : Gated f c)
    {serialize : ρ → Bytes} (hser : ∀ r, isErrorReply (serialize r) = false) :
    Refused c (call f serialize c) ↔ c.isAcceptingOps = false := by
  constructor
  · rintro ⟨hreports, hsame⟩
    by_contra ha
    rw [Bool.not_eq_false] at ha
    rcases h.opened ha with ⟨r, hr⟩ | hchanged
    · simp [call, hr, Except.map, Reports, hser] at hreports
    · exact hchanged hsame
  · intro ha
    obtain ⟨⟨what, hwhat⟩, hsame⟩ := h.closed ha
    refine ⟨?_, hsame⟩
    simp [call, hwhat, Except.map, Reports]

/-- The logger counts an event before it serialises it. -/
theorem nextSeq_ne (l : CacheEventLogger) (key : Bytes) : (l.nextSeq key).2 ≠ l := by
  intro h
  have := congrArg (fun l => l.counter key) h
  simp at this

theorem gated_op (hc : Configured c) {env : Env} (op : Op)
    (hop : ∀ key ttl, op = .expire key ttl → 0 < ttl) {ρ : Type} {f : Action (ChronoCache α) ρ}
    (inj : ρ → Result) (hf : op.run json env c = ((f c).1.map inj, (f c).2)) : Gated f c where
  closed ha := by
    rw [Op.run_refused ha] at hf
    obtain ⟨hresult, hstate⟩ := Prod.mk.inj hf
    refine ⟨?_, hstate.symm⟩
    cases hfc : (f c).1 with
    | ok r => simp [hfc, Except.map] at hresult
    | error e =>
      rw [hfc] at hresult
      exact ⟨_, congrArg _ (Except.error.inj hresult).symm⟩
  opened ha := by
    obtain ⟨hresult, hstate⟩ := Prod.mk.inj hf
    obtain ⟨r, hr⟩ := Op.outcome_ok hop env.clock (c.hashMap op.key)
    have hrun := Op.run_result ha hc.loggerReady json env op
    rw [hr] at hrun
    rcases logAnswer_cases json op.key c (op.outcome env.clock (c.hashMap op.key)).mutation with
      ⟨hans, -⟩ | ⟨-, hlog, m, hm, -⟩
    · rw [hans, hf] at hrun
      cases hfc : (f c).1 with
      | ok x => exact .inl ⟨x, rfl⟩
      | error e => simp [hfc, Except.map, Except.bind] at hrun
    · obtain ⟨l, hl⟩ := Option.isSome_iff_exists.mp (hc.loggerReady hlog)
      refine .inr fun hsame => nextSeq_ne l op.key ?_
      have hevents := Op.run_events ha json env op
      rw [hm, logMutation_snd_on hlog hl, hf, hsame] at hevents
      have hlogger := congrArg EventStream.logger hevents
      rw [hl] at hlogger
      exact (Option.some.inj hlogger).symm

theorem delLoop_quiet (ha : c.isAcceptingOps = true) (hlog : c.logging = false)
    (args : List RespValue) (i : ℕ) (count : ℤ) :
    ∃ n, (delLoop json env i count args c).1 = .ok n := by
  induction args generalizing c i count with
  | nil => exact ⟨count, rfl⟩
  | cons arg args ih =>
    have hrun : (Op.del arg.strValue).run json (env.calls i) c =
      ((c.del json (env.calls i) arg.strValue).1.map .flag,
        (c.del json (env.calls i) arg.strValue).2) := rfl
    have hready : c.LoggerReady := fun h => by simp [hlog] at h
    obtain ⟨r, hr⟩ : ∃ r,
        ((Op.del arg.strValue).outcome (env.calls i).clock (c.hashMap arg.strValue)).result = .ok r :=
      Op.outcome_ok (by simp) (env.calls i).clock (c.hashMap arg.strValue)
    have hresult := Op.run_result ha hready json (env.calls i) (.del arg.strValue)
    have hquiet (m : Option Mutation) : c.logAnswer json arg.strValue m = .ok () := by
      cases m <;> simp [logAnswer, hlog]
    have hconfig := Op.run_config json (env.calls i) (.del arg.strValue) c
    rw [hrun] at hresult hconfig
    rcases hx : c.del json (env.calls i) arg.strValue with ⟨e | removed, c'⟩
    · rw [hx] at hresult
      change _ = (c.logAnswer json arg.strValue _).bind _ at hresult
      rw [hquiet] at hresult
      exact absurd (hresult.trans hr) (by simp [Except.map])
    · simp only [delLoop, hx] at hconfig ⊢
      apply ih
      · rw [isAcceptingOps, hconfig.1]
        exact ha
      · rw [logging, hconfig.1, hconfig.2]
        exact hlog

theorem gated_delLoop (hc : Configured c) (arg : RespValue) (args : List RespValue) :
    Gated (delLoop json env 0 0 (arg :: args)) c where
  closed ha := by
    have hdel : c.del json (env.calls 0) arg.strValue =
        (.error (.exception (lit "ChronoCache is not ready to accept operations")), c) := by
      simp [ChronoCache.del, checkAcceptingOps, ha]
    simp only [delLoop, hdel]
    exact ⟨⟨_, rfl⟩, trivial⟩
  opened ha := by
    cases hlog : c.logging with
    | false => exact .inl (delLoop_quiet ha hlog _ _ _)
    | true =>
      rcases delLoop_cases ⟨hlog, hc.loggerReady hlog⟩ json env (arg :: args) 0 0 with
        ⟨hok, -⟩ | ⟨-, a, -, -, hpresent, habsent⟩
      · exact .inl hok
      · refine .inr fun hsame => hpresent ?_
        rw [← habsent, hsame]

theorem gated_of_gate {ρ : Type} {f : Action (ChronoCache α) ρ}
    {g : ChronoCache α → ρ × ChronoCache α} (h : GuardedBy f g) : Gated f c where
  closed ha := by
    have hf := h c
    have hgate : c.checkAcceptingOps =
        .error (.exception (lit "ChronoCache is not ready to accept operations")) := by
      simp [checkAcceptingOps, ha]
    rw [hgate] at hf
    rw [hf]
    exact ⟨⟨_, rfl⟩, rfl⟩
  opened ha := by
    have hf := h c
    have hgate : c.checkAcceptingOps = .ok () := by simp [checkAcceptingOps, ha]
    rw [hgate] at hf
    rw [hf]
    exact .inl ⟨_, rfl⟩

/-! ## The handlers -/

theorem refused_of_check {name : Bytes} {args : List RespValue}
    (hcheck : checksArgs text name args = false) {r : Except Fault Bytes × ChronoCache α}
    (h : Refused c r) :
    Refused c r ↔ ¬ Admits text c name args := by
  apply iff_of_true h
  rintro ⟨hbad, -⟩
  exact Bool.false_ne_true (hcheck.symm.trans hbad)

theorem Gated.refused_iff {ρ : Type} {f : Action (ChronoCache α) ρ} (h : Gated f c) {name : Bytes}
    {args : List RespValue} (hcheck : checksArgs text name args = true)
    (hserved : servedIn c name = c.isAcceptingOps) {serialize : ρ → Bytes}
    (hser : ∀ r, isErrorReply (serialize r) = false) :
    Refused c (call f serialize c) ↔ ¬ Admits text c name args := by
  rw [h.refused_call hser, Admits, hserved]
  simp [hcheck]

theorem refused_cmdPing (args : List RespValue) :
    Refused c (cmdPing args c) ↔ ¬ Admits text c (lit "PING") args := by
  have hadmits : Admits text c (lit "PING") args := ⟨rfl, rfl⟩
  apply iff_of_false _ (not_not_intro hadmits)
  cases args with
  | nil => exact fun h => absurd h.1 (by simp [cmdPing, answer, Reports, isErrorReply, lit])
  | cons arg args => exact fun h => absurd h.1 (by simp [cmdPing, answer, Reports])

theorem refused_cmdSet (hc : Configured c) (args : List RespValue) :
    Refused c (cmdSet json env args c) ↔ ¬ Admits text c (lit "SET") args := by
  have hset (key value : RespValue) (ttl : Option ℤ) :
      Gated (ChronoCache.set json (env.calls 0) key.strValue value.strValue ttl) c :=
    gated_op hc (.set key.strValue value.strValue ttl) (by simp) .flag rfl
  rcases args with _ | ⟨key, _ | ⟨value, _ | ⟨opt, _ | ⟨ms, _ | ⟨extra, args⟩⟩⟩⟩⟩
  · exact refused_of_check rfl (refused_error _)
  · exact refused_of_check rfl (refused_error _)
  · exact (hset key value none).refused_iff rfl rfl (fun _ => rfl)
  · exact refused_of_check rfl (refused_error _)
  · have hcheck : checksArgs text (lit "SET") [key, value, opt, ms] =
        ((opt.strValue = lit "EX" || opt.strValue = lit "ex") && positive ms.strValue) := rfl
    rw [cmdSet]
    by_cases hopt : opt.strValue ≠ lit "EX" ∧ opt.strValue ≠ lit "ex"
    · rw [if_pos hopt]
      apply refused_of_check _ (refused_error _)
      simp [hcheck, hopt.1, hopt.2]
    · rw [if_neg hopt]
      rw [show (opt.strValue = lit "EX" || opt.strValue = lit "ex") = true by simp; tauto,
        Bool.true_and, positive] at hcheck
      cases hms : stoll ms.strValue with
      | error e =>
        rw [hms] at hcheck
        obtain ⟨what, rfl, -⟩ := plain_stoll hms
        exact refused_of_check hcheck ⟨trivial, rfl⟩
      | ok n =>
        rw [hms] at hcheck
        by_cases hn : n ≤ 0
        · simp only [if_pos hn]
          exact refused_of_check (by simp [hcheck, hn]) (refused_error _)
        · simp only [if_neg hn]
          exact (hset key value (some n)).refused_iff (by simp [hcheck]; omega) rfl (fun _ => rfl)
  · exact refused_of_check rfl (refused_error _)

theorem refused_cmdDel (hc : Configured c) (args : List RespValue) :
    Refused c (cmdDel json env args c) ↔ ¬ Admits text c (lit "DEL") args := by
  cases args with
  | nil => exact refused_of_check rfl (refused_error _)
  | cons arg args => exact (gated_delLoop hc arg args).refused_iff rfl rfl (fun _ => rfl)

theorem refused_cmdExpire (hc : Configured c) (args : List RespValue) :
    Refused c (cmdExpire json env args c) ↔ ¬ Admits text c (lit "EXPIRE") args := by
  rcases args with _ | ⟨key, _ | ⟨ms, _ | ⟨extra, args⟩⟩⟩
  · exact refused_of_check rfl (refused_error _)
  · exact refused_of_check rfl (refused_error _)
  · have hcheck : checksArgs text (lit "EXPIRE") [key, ms] = positive ms.strValue := rfl
    rw [positive] at hcheck
    rw [cmdExpire]
    cases hms : stoll ms.strValue with
    | error e =>
      rw [hms] at hcheck
      obtain ⟨what, rfl, -⟩ := plain_stoll hms
      exact refused_of_check hcheck ⟨trivial, rfl⟩
    | ok n =>
      rw [hms] at hcheck
      by_cases hn : n ≤ 0
      · simp only [if_pos hn]
        exact refused_of_check (by simp [hcheck, hn]) (refused_error _)
      · simp only [if_neg hn]
        have hexpire : Gated (ChronoCache.expire json (env.calls 0) key.strValue n) c := by
          apply gated_op hc (.expire key.strValue n) _ .flag rfl
          intro k ttl hop
          obtain ⟨-, rfl⟩ := Op.expire.inj hop
          exact Int.not_le.mp hn
        exact hexpire.refused_iff (by simp [hcheck]; omega) rfl (fun _ => rfl)
  · exact refused_of_check rfl (refused_error _)

theorem refused_cmdGet (hc : Configured c) (json : JsonLib) (args : List RespValue) :
    Refused c (cmdGet env args c) ↔ ¬ Admits text c (lit "GET") args := by
  have hser (r : Option Bytes) : isErrorReply (bulkOrNull r) = false := by cases r <;> rfl
  rcases args with _ | ⟨key, _ | ⟨extra, args⟩⟩
  · exact refused_of_check rfl (refused_error _)
  · have hrun : (Op.get key.strValue).run json (env.calls 0) c =
        ((c.get (env.calls 0) key.strValue).1.map .value, (c.get (env.calls 0) key.strValue).2) := rfl
    have hget : Gated (ChronoCache.get (env.calls 0) key.strValue) c :=
      gated_op hc _ (by simp) .value hrun
    exact hget.refused_iff rfl rfl hser
  · exact refused_of_check (by simp [checksArgs, lit]) (refused_error _)

theorem refused_cmdPersist (hc : Configured c) (args : List RespValue) :
    Refused c (cmdPersist json env args c) ↔ ¬ Admits text c (lit "PERSIST") args := by
  rcases args with _ | ⟨key, _ | ⟨extra, args⟩⟩
  · exact refused_of_check rfl (refused_error _)
  · have hpersist : Gated (ChronoCache.persist json (env.calls 0) key.strValue) c :=
      gated_op hc (.persist key.strValue) (by simp) .flag rfl
    exact hpersist.refused_iff rfl rfl (fun _ => rfl)
  · exact refused_of_check (by simp [checksArgs, lit]) (refused_error _)

theorem refused_cmdPttl (hc : Configured c) (json : JsonLib) (args : List RespValue) :
    Refused c (cmdPttl env args c) ↔ ¬ Admits text c (lit "PTTL") args := by
  rcases args with _ | ⟨key, _ | ⟨extra, args⟩⟩
  · exact refused_of_check rfl (refused_error _)
  · have hrun : (Op.pttl key.strValue).run json (env.calls 0) c =
        ((c.pttl (env.calls 0) key.strValue).1.map .millis,
          (c.pttl (env.calls 0) key.strValue).2) := rfl
    have hpttl : Gated (ChronoCache.pttl (env.calls 0) key.strValue) c :=
      gated_op hc _ (by simp) .millis hrun
    exact hpttl.refused_iff rfl rfl (fun _ => rfl)
  · exact refused_of_check (by simp [checksArgs, lit]) (refused_error _)

theorem refused_cmdZscore (args : List RespValue) :
    Refused c (cmdZscore text args c) ↔ ¬ Admits text c (lit "ZSCORE") args := by
  have hser (score : Option (Score α)) :
      isErrorReply (bulkOrNull (score.map text.toText)) = false := by
    cases score <;> rfl
  rcases args with _ | ⟨key, _ | ⟨member, _ | ⟨extra, args⟩⟩⟩
  · exact refused_of_check rfl (refused_error _)
  · exact refused_of_check rfl (refused_error _)
  · exact (gated_of_gate (guarded_zscore key.strValue member.strValue)).refused_iff rfl rfl hser
  · exact refused_of_check (by simp [checksArgs, lit]) (refused_error _)

/-- Whatever the replay does, `init` leaves `UNINITIALIZED`. -/
theorem init_leaves (huninit : c.state = .uninitialized) (json : JsonLib) (withReplay : Bool)
    (consumed : Except Fault (List CacheEvent)) (clock : Clock) :
    (c.init json withReplay consumed clock).2.state ≠ .uninitialized := by
  unfold ChronoCache.init
  rw [if_neg (by simp [huninit]), if_neg (by simp [huninit])]
  cases withReplay with
  | false => simp
  | true =>
    simp only [Bool.true_eq_false, if_false]
    split <;> simp

theorem refused_cmdInit (args : List RespValue) :
    Refused c (cmdInit json env args c) ↔ ¬ Admits text c (lit "INIT") args := by
  have hinit (withReplay : Bool) {args : List RespValue}
      (hcheck : checksArgs text (lit "INIT") args = true) :
      Refused c (call (ChronoCache.init json withReplay env.consumed (env.calls 0).clock)
        (fun result =>
          if result then RespSerializer.ok else RespSerializer.error (lit "ERR replay failed")) c) ↔
      ¬ Admits text c (lit "INIT") args := by
    have hadmits : Admits text c (lit "INIT") args ↔ c.state = .ready ∨ c.state = .uninitialized := by
      rw [Admits, hcheck,
        show servedIn c (lit "INIT") = (c.state == .ready || c.state == .uninitialized) from rfl]
      simp
    rw [hadmits]
    by_cases hready : c.state = .ready
    · apply iff_of_false _ (not_not_intro (.inl hready))
      rintro ⟨hreports, -⟩
      simp [call, ChronoCache.init, hready, Except.map, Reports] at hreports
    by_cases huninit : c.state = .uninitialized
    · apply iff_of_false _ (not_not_intro (.inr huninit))
      rintro ⟨-, hsame⟩
      apply init_leaves huninit json withReplay env.consumed (env.calls 0).clock
      change (c.init json withReplay env.consumed (env.calls 0).clock).2 = c at hsame
      rw [hsame, huninit]
    · apply iff_of_true
      · refine ⟨?_, ?_⟩ <;> simp [call, ChronoCache.init, hready, huninit, Except.map, Reports]
      · simp [hready, huninit]
  rcases args with _ | ⟨arg, _ | ⟨extra, args⟩⟩
  · exact hinit false rfl
  · have hcheck : checksArgs text (lit "INIT") [arg] =
        (arg.strValue = lit "true" || arg.strValue = lit "false") := rfl
    rw [cmdInit]
    split_ifs with harg
    · exact refused_of_check (by simp [hcheck, harg.1, harg.2]) (refused_error _)
    · exact hinit _ (by rw [hcheck]; simp; tauto)
  · exact refused_of_check rfl (refused_error _)

/-- A name that is not in the table passes no check. -/
theorem not_admits_of_unknown {name : Bytes} (h : name ∉ commandNames) (args : List RespValue) :
    ¬ Admits text c name args := by
  simp only [commandNames, List.map_cons, List.map_nil, List.mem_cons, List.not_mem_nil, or_false,
    not_or] at h
  obtain ⟨hinit, hping, hset, hget, hdel, hexpire, hpersist, hpttl, hzadd,
      hzscore, hzrem, hzrank⟩ := h
  have hcheck : checksArgs text name args = false := by
    simp only [checksArgs, hinit, hping, hset, hget, hdel, hexpire, hpersist, hpttl, hzadd, hzscore,
      hzrem, hzrank, if_false, or_self]
  rintro ⟨hpassed, -⟩
  exact Bool.false_ne_true (hcheck.symm.trans hpassed)

variable [LinearOrder α]

theorem refused_cmdZadd (hstod : ∀ s e, text.stod s = .error e → ∃ what, e = .exception what)
    (args : List RespValue) :
    Refused c (cmdZadd text args c) ↔ ¬ Admits text c (lit "ZADD") args := by
  rcases args with _ | ⟨key, _ | ⟨score, _ | ⟨member, _ | ⟨extra, args⟩⟩⟩⟩
  · exact refused_of_check rfl (refused_error _)
  · exact refused_of_check rfl (refused_error _)
  · exact refused_of_check rfl (refused_error _)
  · have hcheck : checksArgs text (lit "ZADD") [key, score, member] =
        text.converts score.strValue := rfl
    rw [DoubleText.converts] at hcheck
    rw [cmdZadd]
    cases hx : text.stod score.strValue with
    | error e =>
      rw [hx] at hcheck
      obtain ⟨what, rfl⟩ := hstod _ _ hx
      exact refused_of_check hcheck ⟨trivial, rfl⟩
    | ok x =>
      rw [hx] at hcheck
      exact (gated_of_gate (guarded_zadd key.strValue x member.strValue)).refused_iff hcheck rfl
        (fun _ => rfl)
  · exact refused_of_check rfl (refused_error _)

theorem refused_cmdZrem (args : List RespValue) :
    Refused c (cmdZrem args c) ↔ ¬ Admits text c (lit "ZREM") args := by
  rcases args with _ | ⟨key, _ | ⟨member, _ | ⟨extra, args⟩⟩⟩
  · exact refused_of_check rfl (refused_error _)
  · exact refused_of_check rfl (refused_error _)
  · exact (gated_of_gate (guarded_zrem key.strValue member.strValue)).refused_iff rfl rfl
      (fun _ => rfl)
  · exact refused_of_check (by simp [checksArgs, lit]) (refused_error _)

theorem refused_cmdZrank (args : List RespValue) :
    Refused c (cmdZrank args c) ↔ ¬ Admits text c (lit "ZRANK") args := by
  rcases args with _ | ⟨key, _ | ⟨member, _ | ⟨extra, args⟩⟩⟩
  · exact refused_of_check rfl (refused_error _)
  · exact refused_of_check rfl (refused_error _)
  · apply (gated_of_gate (guarded_zrank key.strValue member.strValue)).refused_iff rfl rfl
    intro rank
    cases rank <;> rfl
  · exact refused_of_check (by simp [checksArgs, lit]) (refused_error _)

/-! ## The answer to a payload -/

theorem refused_handler (hc : Configured c)
    (hstod : ∀ s e, text.stod s = .error e → ∃ what, e = .exception what) {name : Bytes}
    {handler : Handler α} (hmem : (name, handler) ∈ handlers json text env) (args : List RespValue) :
    Refused c (handler args c) ↔ ¬ Admits text c name args := by
  simp only [handlers, List.mem_cons, Prod.mk.injEq, List.not_mem_nil, or_false] at hmem
  rcases hmem with ⟨rfl, rfl⟩ | ⟨rfl, rfl⟩ | ⟨rfl, rfl⟩ | ⟨rfl, rfl⟩ | ⟨rfl, rfl⟩ | ⟨rfl, rfl⟩ |
    ⟨rfl, rfl⟩ | ⟨rfl, rfl⟩ | ⟨rfl, rfl⟩ | ⟨rfl, rfl⟩ | ⟨rfl, rfl⟩ | ⟨rfl, rfl⟩
  · exact refused_cmdInit args
  · exact refused_cmdPing args
  · exact refused_cmdSet hc args
  · exact refused_cmdGet hc json args
  · exact refused_cmdDel hc args
  · exact refused_cmdExpire hc args
  · exact refused_cmdPersist hc args
  · exact refused_cmdPttl hc json args
  · exact refused_cmdZadd hstod args
  · exact refused_cmdZscore args
  · exact refused_cmdZrem args
  · exact refused_cmdZrank args

/-- An error reply, and the cache is as before. -/
def Rejected (c : ChronoCache α) (r : Except Fault Bytes × ChronoCache α) : Prop :=
  (∃ reply, r.1 = .ok reply ∧ isErrorReply reply = true) ∧ r.2 = c

theorem rejected_respond (command : RespValue) :
    Rejected c (EventLoop.respond json text env (some command) c) ↔
      Refused c (execute json text env command c) := by
  unfold EventLoop.respond
  rcases hx : execute json text env command c with ⟨(what | _) | reply, c'⟩
  · simp [hx, Rejected, Refused, Reports]
  · simp [hx, Rejected, Refused, Reports]
  · simp [hx, Rejected, Refused, Reports]

/-- A payload is rejected exactly when the array that is read from its front fails a check. -/
theorem rejected_answer (hc : Configured c)
    (hstod : ∀ s e, text.stod s = .error e → ∃ what, e = .exception what) (payload : Bytes) :
    Rejected c (EventLoop.answer json text env payload c) ↔ ¬ Passes text c payload := by
  obtain ⟨command, hparse, -, heq⟩ := EventLoop.answer_eq json text env payload
  rw [heq]
  cases command with
  | none =>
    apply iff_of_true
    · exact ⟨⟨_, rfl, rfl⟩, rfl⟩
    · rintro ⟨command, head, args, hparse', -⟩
      rw [hparse] at hparse'
      cases hparse'
  | some command =>
    rw [rejected_respond]
    by_cases hvalid : command.type = .array ∧ command.array ≠ []
    · obtain ⟨htype, hne⟩ := hvalid
      obtain ⟨head, args, harray⟩ := List.exists_cons_of_ne_nil hne
      have hpasses : Passes text c payload ↔ Admits text c (toUpper head.strValue) args := by
        constructor
        · rintro ⟨command', head', args', hparse', -, harray', hadmits⟩
          rw [hparse] at hparse'
          obtain rfl := Option.some.inj (Except.ok.inj hparse')
          rw [harray] at harray'
          obtain ⟨rfl, rfl⟩ := List.cons.inj harray'
          exact hadmits
        · exact fun hadmits => ⟨command, head, args, hparse, htype, harray, hadmits⟩
      rw [hpasses, execute_array json text env htype harray]
      rcases dispatch_cases json text env head args with ⟨handler, hmem, hcall⟩ | ⟨hname, hcall⟩
      · rw [hcall]
        exact refused_handler hc hstod hmem args
      · rw [hcall]
        exact iff_of_true (refused_error _) (not_admits_of_unknown hname args)
    · rw [execute_invalid json text env hvalid]
      apply iff_of_true (refused_error _)
      rintro ⟨command', head, args, hparse', htype, harray, -⟩
      rw [hparse] at hparse'
      obtain rfl := Option.some.inj (Except.ok.inj hparse')
      exact hvalid ⟨htype, by simp [harray]⟩

/-- Only well-formed payloads take effect, except those whose first elements carry, whatever
their types, the bytes of a command that passes the checks. -/
theorem wellFormed_only_iff (hc : Reachable json text c)
    (hstod : ∀ s e, text.stod s = .error e → ∃ what, e = .exception what) (env : CommandEnv)
    (payload : Bytes) :
    (¬ WellFormed payload → Rejected c (EventLoop.answer json text env payload c)) ↔
      WellFormed payload ∨ ¬ Passes text c payload := by
  rw [rejected_answer hc.configured hstod]
  tauto

end

/-- Bytes after a command make the payload ill-formed. -/
theorem not_wellFormed_trailing {words : List Bytes} {r : Bytes}
    (hfits : Fits (RespSerializer.array words ++ r)) (hr : r ≠ []) :
    ¬ WellFormed (RespSerializer.array words ++ r) := by
  intro h
  have hmax : (RespSerializer.array words ++ r).length ≤ 2 ^ 25 := hfits
  rw [List.length_append] at hmax
  have hcount := words_le_array words
  have hread : Encodes (RespSerializer.array words) (.command words) :=
    encodes_command (by omega) fun w hw => by
      have := word_le_array hw
      omega
  obtain ⟨v, hparse, hbytes, -⟩ := h.parse_eq hfits
  rw [hread.parse_append] at hparse
  obtain rfl := Option.some.inj (Except.ok.inj hparse)
  have hlen := Option.some.inj (hread.count.symm.trans hbytes)
  rw [List.length_append] at hlen
  have := List.length_pos_of_ne_nil hr
  omega

/-- A `GET` with a byte after it, before `INIT`. -/
theorem wellFormed_only_witness :
    ¬ WellFormed (RespSerializer.array [lit "GET", lit "k"] ++ [0x58]) ∧
      Rejected (create true [] : ChronoCache ℤ) (EventLoop.answer JsonLib.reference noDoubles quietEnv
        (RespSerializer.array [lit "GET", lit "k"] ++ [0x58]) (create true [])) := by
  have hill : ¬ WellFormed (RespSerializer.array [lit "GET", lit "k"] ++ [0x58]) :=
    not_wellFormed_trailing (by unfold Fits; decide) (by decide)
  refine ⟨hill, ?_⟩
  refine (wellFormed_only_iff (.create true [])
    (fun _ e h => ⟨_, (Except.error.inj h).symm⟩) quietEnv _).mpr ?_ hill
  refine .inr ?_
  rintro ⟨command, head, args, hparse, -, harray, -, hserved⟩
  have hread : Encodes (RespSerializer.array [lit "GET", lit "k"]) (.command [lit "GET", lit "k"]) :=
    encodes_command (by decide) (by decide)
  rw [hread.parse_append] at hparse
  rw [← Option.some.inj (Except.ok.inj hparse)] at harray
  obtain ⟨rfl, -⟩ := List.cons.inj harray
  exact absurd hserved (by decide)

theorem not_wellFormed_integer : ¬ WellFormed (lit "*2\r\n+PING\r\n:1\r\n") := by
  intro h
  obtain ⟨v, hparse, -, -, -, hstrings⟩ := h.parse_eq (by unfold Fits; decide)
  have hread : parse (lit "*2\r\n+PING\r\n:1\r\n") =
      .ok (some (.arrayFromParts [.simpleString (lit "PING") 7, .integer 1 4] 15)) := by rfl
  rw [hread] at hparse
  obtain rfl := Option.some.inj (Except.ok.inj hparse)
  obtain ⟨htype | htype, -⟩ :=
    hstrings (.integer 1 4) (by simp [RespValue.arrayFromParts, RespValue.array])
  · cases htype
  · cases htype

/-- On a fresh server an `INIT` with a byte after it makes the cache ready, and a `PING` of an
integer is answered. -/
theorem wellFormed_only_counterexample :
    let c : ChronoCache ℤ := create true []
    let answer := EventLoop.answer JsonLib.reference noDoubles quietEnv
    Reachable JsonLib.reference noDoubles c ∧
      ¬ WellFormed (RespSerializer.array [lit "INIT"] ++ [0x58]) ∧
      (answer (RespSerializer.array [lit "INIT"] ++ [0x58]) c).1 = .ok RespSerializer.ok ∧
      (answer (RespSerializer.array [lit "INIT"] ++ [0x58]) c).2.state = .ready ∧
      ¬ WellFormed (lit "*2\r\n+PING\r\n:1\r\n") ∧
      (answer (lit "*2\r\n+PING\r\n:1\r\n") c).1 = .ok (lit "$0\r\n\r\n") :=
  ⟨.create true [], not_wellFormed_trailing (by unfold Fits; decide) (by decide), rfl, rfl,
    not_wellFormed_integer, rfl⟩

end Chrono
