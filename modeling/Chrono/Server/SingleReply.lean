import Chrono.Server.Reachable
import Chrono.Server.RoundTrip

/-!
# Replies are single values

A length-delimited reply may carry any bytes. A line-delimited one ends at the
first terminator in its text, so it is one value exactly when its text has none.
-/
namespace Chrono
open ChronoCache CommandHandler Connection RespParser RespSerializer Library

/-- A reply that is read as one value, to its end. -/
def Single (reply : Bytes) : Prop :=
  ∃ v, parse reply = .ok (some v) ∧ v.numRespBytes = some reply.length

theorem single_of_encodes {reply : Bytes} {v : RespValue} (h : Encodes reply v) : Single reply := by
  have hparse := h.parse_append []
  rw [List.append_nil] at hparse
  exact ⟨v, hparse, h.count⟩

theorem single_ok : Single RespSerializer.ok :=
  single_of_encodes (encodes_simpleString (s := lit "OK") (by decide))

theorem single_pong : Single (lit "+PONG\r\n") :=
  single_of_encodes (encodes_simpleString (s := lit "PONG") (by decide))

theorem single_integer (n : ℤ) : Single (integer n) := single_of_encodes (encodes_integer n)

theorem single_bulkString {s : Bytes} (h : s.length < 2 ^ 31) : Single (bulkString s) :=
  single_of_encodes (encodes_bulkString h)

theorem single_nullBulk : Single nullBulk := single_of_encodes encodes_nullBulk

/-! ## Line-delimited replies -/

/-- An error reply is one value exactly when its text has no terminator. -/
theorem single_error_iff (msg : Bytes) : Single (RespSerializer.error msg) ↔ findCrlf msg = none := by
  have hcons : RespSerializer.error msg = 0x2D :: (msg ++ crlf) := rfl
  have hlen : (RespSerializer.error msg).length = msg.length + 3 := by
    simp [hcons, crlf, lit]
  constructor
  · rintro ⟨v, hparse, hv⟩
    by_contra hsome
    obtain ⟨pos, hpos⟩ := Option.ne_none_iff_exists'.mp hsome
    have hbound := findCrlf_bound hpos
    have hfirst : findCrlf (msg ++ crlf) = some pos := Terminator.find_append_some hpos crlf
    rw [hcons, parse_eq, parseBody, if_neg (by decide), if_pos rfl, parseError, parseLine_cons,
      findCrlf_cons (by decide), hfirst] at hparse
    simp only [Option.map_some, Except.ok.injEq, Option.some.injEq] at hparse
    rw [← hparse, hlen] at hv
    have : pos + 1 + 2 = msg.length + 3 := Option.some.inj hv
    omega
  · exact fun h => single_of_encodes (encodes_error h)

/-- The echoed name is the only part of the reply that the client writes. -/
theorem single_unknownCommand_iff (name : Bytes) :
    Single (unknownCommand name) ↔ findCrlf name = none := by
  rw [unknownCommand, single_error_iff, List.append_assoc]
  calc findCrlf (lit "ERR unknown command '" ++ (name ++ lit "'")) = none
      ↔ findCrlf (name ++ lit "'") = none := Terminator.find_prefix (by decide) _
    _ ↔ findCrlf name = none := Terminator.find_concat (by decide) name

/-! ## The result of a command -/

/-- The library's texts: the `what()` of its exceptions are lines, and a `double` is
printed in fewer than 2³¹ characters. -/
structure PlainTexts {α : Type} (json : JsonLib) (text : DoubleText α) : Prop where
  typeError : ∀ s what, json.typeError s = some what → findCrlf what = none
  stod : ∀ s e, text.stod s = .error e → e = .exception (lit "stod")
  toText : ∀ x, (text.toText x).length < 2 ^ 31

/-- An exception whose text is a line. -/
def Plain (e : Fault) : Prop := ∃ what, e = .exception what ∧ findCrlf what = none

/-- A result that the event loop turns into a single value. -/
def Proper : Except Fault Bytes → Prop
  | .ok reply => Single reply
  | .error e => Plain e

theorem plain_lit {text : String} (h : findCrlf (lit text) = none) : Plain (.exception (lit text)) :=
  ⟨_, rfl, h⟩

theorem plain_stoll {s : Bytes} {e : Fault} (h : stoll s = .error e) : Plain e := by
  have hlit : e = .exception (lit "stoll") := by
    unfold stoll at h
    dsimp only at h
    split_ifs at h <;> exact (Except.error.inj h).symm
  rw [hlit]
  exact plain_lit (by decide)

section
variable {α : Type} {json : JsonLib} {text : DoubleText α} {env : CommandEnv} {c : ChronoCache α}

theorem proper_error {msg : String} (h : findCrlf (lit msg) = none) :
    Proper (answer (RespSerializer.error (lit msg)) c).1 := (single_error_iff _).mpr h

theorem proper_call {ρ : Type} {f : Action (ChronoCache α) ρ} {serialize : ρ → Bytes}
    (herror : ∀ e, (f c).1 = .error e → Plain e) (hok : ∀ r, (f c).1 = .ok r → Single (serialize r)) :
    Proper (call f serialize c).1 := by
  cases h : (f c).1 with
  | error e => simpa [call, h, Except.map, Proper] using herror e h
  | ok r => simpa [call, h, Except.map, Proper] using hok r h

theorem plain_dumpStrings (h : PlainTexts json text) {key value : Bytes} {e : Fault}
    (he : json.dumpStrings key value = .error e) : Plain e := by
  unfold JsonLib.dumpStrings at he
  split at he
  · next what hkey => exact ⟨what, (Except.error.inj he).symm, h.typeError _ _ hkey⟩
  · split at he
    · next what hvalue => exact ⟨what, (Except.error.inj he).symm, h.typeError _ _ hvalue⟩
    · cases he

/-- An operation throws the gate's exception, the check of the TTL or what `dump` throws. -/
theorem plain_run (h : PlainTexts json text) (hc : Configured c) (env : Env) (op : Op) {e : Fault}
    (he : (op.run json env c).1 = .error e) : Plain e := by
  cases ha : c.isAcceptingOps with
  | false =>
    rw [Op.run_refused ha] at he
    obtain rfl := Except.error.inj he
    exact plain_lit (by decide)
  | true =>
    rw [Op.run_result ha hc.loggerReady] at he
    cases hlog : c.logAnswer json op.key (op.outcome env.clock (c.hashMap op.key)).mutation with
    | error e' =>
      rw [hlog] at he
      obtain rfl : e' = e := Except.error.inj he
      unfold logAnswer at hlog
      split at hlog
      · cases hlog
      · split_ifs at hlog
        exact plain_dumpStrings h hlog
    | ok _ =>
      rw [hlog] at he
      change (op.outcome env.clock (c.hashMap op.key)).result = _ at he
      by_cases hop : ∀ key ttl, op = .expire key ttl → 0 < ttl
      · obtain ⟨r, hr⟩ := Op.outcome_ok hop env.clock (c.hashMap op.key)
        rw [hr] at he
        cases he
      · push Not at hop
        obtain ⟨key, ttl, rfl, hle⟩ := hop
        simp only [Op.outcome, hle, if_true, Except.error.injEq] at he
        rw [← he]
        exact plain_lit (by decide)

theorem plain_of_run (h : PlainTexts json text) (hc : Configured c) {env : Env} (op : Op) {ρ : Type}
    {f : Action (ChronoCache α) ρ} (inj : ρ → Result)
    (hf : op.run json env c = ((f c).1.map inj, (f c).2)) : ∀ e, (f c).1 = .error e → Plain e := by
  intro e he
  apply plain_run h hc env op
  rw [hf]
  simp [he, Except.map]

theorem single_flag (b : Bool) : Single (flag b) := single_integer _

theorem proper_wrongNumber {name : String}
    (h : findCrlf (lit ("ERR wrong number of arguments for '" ++ name ++ "' command")) = none) :
    Proper (wrongNumber name c).1 := (single_error_iff _).mpr h

theorem proper_throw {e : Fault} (h : Plain e) :
    Proper ((fun c => (.error e, c) : Action (ChronoCache α) Bytes) c).1 := h

/-! ## The handlers -/

/-- `init` throws the consumer's exception or asks for another state. -/
theorem plain_init (henv : Consumes env.consumed) (withReplay : Bool) (clock : Clock) {e : Fault}
    (he : (c.init json withReplay env.consumed clock).1 = .error e) : Plain e := by
  unfold ChronoCache.init at he
  by_cases hready : c.state = .ready
  · simp [hready] at he
  by_cases huninit : c.state = .uninitialized
  · rw [if_neg hready, if_neg (by simp [huninit])] at he
    cases withReplay with
    | false => cases he
    | true =>
      cases hcons : env.consumed with
      | error e' =>
        rw [hcons] at he henv
        obtain rfl : e' = e := Except.error.inj he
        rw [henv]
        exact plain_lit (by decide)
      | ok events =>
        simp only [hcons, replay, Bool.true_eq_false, if_false] at he
        rw [replayEvents_eq rfl] at he
        cases he
  · rw [if_neg hready, if_pos huninit] at he
    obtain rfl := Except.error.inj he
    exact plain_lit (by decide)

theorem proper_cmdInit (henv : Consumes env.consumed) (args : List RespValue) :
    Proper (cmdInit json env args c).1 := by
  have hinit (withReplay : Bool) : Proper (call
      (ChronoCache.init json withReplay env.consumed (env.calls 0).clock) (fun result =>
        if result then RespSerializer.ok else RespSerializer.error (lit "ERR replay failed")) c).1 := by
    apply proper_call
    · exact fun e he => plain_init henv withReplay _ he
    · intro r _
      cases r
      · exact (single_error_iff _).mpr (by decide)
      · exact single_ok
  rcases args with _ | ⟨arg, _ | ⟨extra, args⟩⟩
  · exact hinit false
  · rw [cmdInit]
    split_ifs
    · exact proper_error (by decide)
    · exact hinit _
  · exact proper_wrongNumber (by decide)

theorem proper_cmdPing {args : List RespValue} (hargs : ∀ a ∈ args, a.strValue.length < 2 ^ 31) :
    Proper (cmdPing args c).1 := by
  cases args with
  | nil => exact single_pong
  | cons arg args => exact single_bulkString (hargs arg (by simp))

theorem proper_cmdSet (h : PlainTexts json text) (hc : Configured c) (args : List RespValue) :
    Proper (cmdSet json env args c).1 := by
  have hset (key value : RespValue) (ttl : Option ℤ) : Proper (call
      (ChronoCache.set json (env.calls 0) key.strValue value.strValue ttl)
        (fun _ => RespSerializer.ok) c).1 := by
    apply proper_call
    · exact plain_of_run h hc (.set key.strValue value.strValue ttl) .flag rfl
    · exact fun _ _ => single_ok
  rcases args with _ | ⟨key, _ | ⟨value, _ | ⟨opt, _ | ⟨ms, _ | ⟨extra, args⟩⟩⟩⟩⟩
  · exact proper_wrongNumber (by decide)
  · exact proper_wrongNumber (by decide)
  · exact hset key value none
  · exact proper_error (by decide)
  · rw [cmdSet]
    split_ifs
    · exact proper_error (by decide)
    · cases hms : stoll ms.strValue with
      | error e => exact proper_throw (plain_stoll hms)
      | ok n =>
        dsimp only
        split_ifs
        · exact proper_error (by decide)
        · exact hset key value (some n)
  · exact proper_error (by decide)

theorem proper_cmdGet (h : PlainTexts json text) (hc : Configured c) (hshort : ShortValues c)
    (args : List RespValue) : Proper (cmdGet env args c).1 := by
  rcases args with _ | ⟨key, _ | ⟨extra, args⟩⟩
  · exact proper_wrongNumber (by decide)
  · have hrun : (Op.get key.strValue).run json (env.calls 0) c =
        ((c.get (env.calls 0) key.strValue).1.map .value, (c.get (env.calls 0) key.strValue).2) := rfl
    apply proper_call
    · exact plain_of_run h hc (.get key.strValue) .value hrun
    · intro r hr
      cases r with
      | none => exact single_nullBulk
      | some v =>
        apply single_bulkString
        cases ha : c.isAcceptingOps with
        | false => simp [ChronoCache.get, checkAcceptingOps, ha] at hr
        | true =>
          have hget := Op.run_get ha json (env.calls 0) key.strValue
          rw [hrun, hr] at hget
          obtain ⟨e, he, rfl⟩ :=
            Option.map_eq_some_iff.mp (Result.value.inj (Except.ok.inj hget)).symm
          exact hshort _ e (Option.filter_eq_some_iff.mp he).1
  · exact proper_wrongNumber (by decide)

theorem plain_delLoop (h : PlainTexts json text) (hc : Configured c) (args : List RespValue) (i : ℕ)
    (count : ℤ) {e : Fault} (he : (delLoop json env i count args c).1 = .error e) : Plain e := by
  induction args generalizing c i count with
  | nil => cases he
  | cons arg args ih =>
    have hrun : (Op.del arg.strValue).run json (env.calls i) c =
      ((c.del json (env.calls i) arg.strValue).1.map .flag,
        (c.del json (env.calls i) arg.strValue).2) := rfl
    have hnext : Configured (c.del json (env.calls i) arg.strValue).2 :=
      hc.run json (env.calls i) (.del arg.strValue)
    have hthis := plain_of_run h hc (.del arg.strValue) .flag hrun
    rcases hx : c.del json (env.calls i) arg.strValue with ⟨_ | removed, c'⟩
    · simp only [delLoop, hx] at he hthis
      exact hthis e (congrArg _ (Except.error.inj he))
    · simp only [delLoop, hx] at he hnext
      exact ih hnext _ _ he

theorem proper_cmdDel (h : PlainTexts json text) (hc : Configured c) (args : List RespValue) :
    Proper (cmdDel json env args c).1 := by
  cases args with
  | nil => exact proper_wrongNumber (by decide)
  | cons arg args =>
    apply proper_call
    · exact fun e he => plain_delLoop h hc _ _ _ he
    · exact fun n _ => single_integer n

theorem proper_cmdExpire (h : PlainTexts json text) (hc : Configured c) (args : List RespValue) :
    Proper (cmdExpire json env args c).1 := by
  rcases args with _ | ⟨key, _ | ⟨ms, _ | ⟨extra, args⟩⟩⟩
  · exact proper_wrongNumber (by decide)
  · exact proper_wrongNumber (by decide)
  · rw [cmdExpire]
    cases hms : stoll ms.strValue with
    | error e => exact proper_throw (plain_stoll hms)
    | ok n =>
      dsimp only
      split_ifs
      · exact proper_error (by decide)
      · apply proper_call
        · exact plain_of_run h hc (.expire key.strValue n) .flag rfl
        · exact fun b _ => single_flag b
  · exact proper_wrongNumber (by decide)

theorem proper_cmdPersist (h : PlainTexts json text) (hc : Configured c) (args : List RespValue) :
    Proper (cmdPersist json env args c).1 := by
  rcases args with _ | ⟨key, _ | ⟨extra, args⟩⟩
  · exact proper_wrongNumber (by decide)
  · apply proper_call
    · exact plain_of_run h hc (.persist key.strValue) .flag rfl
    · exact fun b _ => single_flag b
  · exact proper_wrongNumber (by decide)

theorem proper_cmdPttl (h : PlainTexts json text) (hc : Configured c) (args : List RespValue) :
    Proper (cmdPttl env args c).1 := by
  rcases args with _ | ⟨key, _ | ⟨extra, args⟩⟩
  · exact proper_wrongNumber (by decide)
  · apply proper_call
    · exact plain_of_run h hc (.pttl key.strValue) .millis rfl
    · exact fun n _ => single_integer n
  · exact proper_wrongNumber (by decide)

theorem plain_gate {e : Fault} (he : c.checkAcceptingOps = .error e) : Plain e := by
  unfold checkAcceptingOps at he
  split_ifs at he
  obtain rfl := Except.error.inj he
  exact plain_lit (by decide)

theorem proper_cmdZscore (h : PlainTexts json text) (args : List RespValue) :
    Proper (cmdZscore text args c).1 := by
  rcases args with _ | ⟨key, _ | ⟨member, _ | ⟨extra, args⟩⟩⟩
  · exact proper_wrongNumber (by decide)
  · exact proper_wrongNumber (by decide)
  · apply proper_call
    · exact fun e he => plain_gate ((guarded_zscore key.strValue member.strValue).gate_of_error he)
    · intro score _
      cases score with
      | none => exact single_nullBulk
      | some x => exact single_bulkString (h.toText x)
  · exact proper_wrongNumber (by decide)

variable [LinearOrder α]

theorem proper_cmdZadd (h : PlainTexts json text) (args : List RespValue) :
    Proper (cmdZadd text args c).1 := by
  unfold cmdZadd
  split
  · next key score member =>
    cases hx : text.stod score.strValue with
    | error e =>
      rw [h.stod _ e hx]
      exact proper_throw (plain_lit (by decide))
    | ok x =>
      apply proper_call
      · exact fun e he => plain_gate ((guarded_zadd key.strValue x member.strValue).gate_of_error he)
      · exact fun b _ => single_flag b
  · exact proper_wrongNumber (by decide)

theorem proper_cmdZrem (args : List RespValue) : Proper (cmdZrem args c).1 := by
  unfold cmdZrem
  split
  · next key member =>
    apply proper_call
    · exact fun e he => plain_gate ((guarded_zrem key.strValue member.strValue).gate_of_error he)
    · exact fun b _ => single_flag b
  · exact proper_wrongNumber (by decide)

theorem proper_cmdZrank (args : List RespValue) : Proper (cmdZrank args c).1 := by
  unfold cmdZrank
  split
  · next key member =>
    apply proper_call
    · exact fun e he => plain_gate ((guarded_zrank key.strValue member.strValue).gate_of_error he)
    · intro rank _
      cases rank with
      | none => exact single_nullBulk
      | some n => exact single_integer n
  · exact proper_wrongNumber (by decide)

end

/-! ## The reply to a payload -/

/-- The payload is a command with an unknown name that contains a terminator. -/
def EchoesTerminator (payload : Bytes) : Prop :=
  ∃ command head args, parse payload = .ok (some command) ∧ command.type = .array ∧
    command.array = head :: args ∧ toUpper head.strValue ∉ commandNames ∧
      findCrlf head.strValue ≠ none

section
variable {α : Type} [LinearOrder α] {json : JsonLib} {text : DoubleText α} {env : CommandEnv}
  {c : ChronoCache α}

theorem proper_handler (h : PlainTexts json text) (hc : Configured c) (hshort : ShortValues c)
    (henv : Consumes env.consumed) {name : Bytes} {handler : Handler α}
    (hmem : (name, handler) ∈ handlers json text env) {args : List RespValue}
    (hargs : ∀ a ∈ args, a.strValue.length < 2 ^ 31) : Proper (handler args c).1 := by
  simp only [handlers, List.mem_cons, Prod.mk.injEq, List.not_mem_nil, or_false] at hmem
  rcases hmem with ⟨-, rfl⟩ | ⟨-, rfl⟩ | ⟨-, rfl⟩ | ⟨-, rfl⟩ | ⟨-, rfl⟩ | ⟨-, rfl⟩ | ⟨-, rfl⟩ |
    ⟨-, rfl⟩ | ⟨-, rfl⟩ | ⟨-, rfl⟩ | ⟨-, rfl⟩ | ⟨-, rfl⟩
  · exact proper_cmdInit henv args
  · exact proper_cmdPing hargs
  · exact proper_cmdSet h hc args
  · exact proper_cmdGet h hc hshort args
  · exact proper_cmdDel h hc args
  · exact proper_cmdExpire h hc args
  · exact proper_cmdPersist h hc args
  · exact proper_cmdPttl h hc args
  · exact proper_cmdZadd h args
  · exact proper_cmdZscore h args
  · exact proper_cmdZrem args
  · exact proper_cmdZrank args

def RepliesSingle (r : Except Fault Bytes) : Prop := ∃ reply, r = .ok reply ∧ Single reply

theorem repliesSingle_respond {command : RespValue} (h : Proper (execute json text env command c).1) :
    RepliesSingle (EventLoop.respond json text env (some command) c).1 := by
  unfold EventLoop.respond
  rcases hx : execute json text env command c with ⟨e | reply, c'⟩
  · rw [hx] at h
    obtain ⟨what, rfl, hwhat⟩ := h
    simp only [hx]
    exact ⟨_, rfl, (single_error_iff _).mpr ((Terminator.find_prefix (by decide) what).mpr hwhat)⟩
  · rw [hx] at h
    simp only [hx]
    exact ⟨reply, rfl, h⟩

/-- Every reply is read as one value, to its end, except that an unknown command name is
echoed with the terminators that the client put into it. -/
theorem reply_single_iff (h : PlainTexts json text) (hc : Reachable json text c)
    (henv : Consumes env.consumed) (payload : Bytes) (hfits : Fits payload) :
    RepliesSingle (EventLoop.answer json text env payload c).1 ↔ ¬ EchoesTerminator payload := by
  obtain ⟨command, hparse, hread, heq⟩ := EventLoop.answer_eq json text env payload
  have hmax : payload.length ≤ 2 ^ 25 := hfits
  rw [heq]
  cases command with
  | none =>
    apply iff_of_true
    · exact ⟨_, rfl, (single_error_iff _).mpr (by decide)⟩
    · rintro ⟨command, head, args, hparse', -⟩
      rw [hparse] at hparse'
      cases hparse'
  | some command =>
    by_cases hvalid : command.type = .array ∧ command.array ≠ []
    · obtain ⟨htype, hne⟩ := hvalid
      obtain ⟨head, args, harray⟩ := List.exists_cons_of_ne_nil hne
      have hshort : ∀ a ∈ args, a.strValue.length < 2 ^ 31 := by
        intro a ha
        have := (hread command rfl).elements a (by simp [harray, ha])
        omega
      have hecho : EchoesTerminator payload ↔
          toUpper head.strValue ∉ commandNames ∧ findCrlf head.strValue ≠ none := by
        constructor
        · rintro ⟨command', head', args', hparse', -, harray', hname, hcrlf⟩
          rw [hparse] at hparse'
          obtain rfl := Option.some.inj (Except.ok.inj hparse')
          rw [harray] at harray'
          obtain ⟨rfl, -⟩ := List.cons.inj harray'
          exact ⟨hname, hcrlf⟩
        · rintro ⟨hname, hcrlf⟩
          exact ⟨command, head, args, hparse, htype, harray, hname, hcrlf⟩
      have hexec := execute_array json text env htype harray
      rw [hecho]
      rcases dispatch_cases json text env head args with ⟨handler, hmem, hcall⟩ | ⟨hname, hcall⟩
      · have hknown : toUpper head.strValue ∈ commandNames := List.mem_map_of_mem (f := Prod.fst) hmem
        apply iff_of_true _ (fun hbad => hbad.1 hknown)
        apply repliesSingle_respond
        rw [hexec, hcall]
        exact proper_handler h hc.configured hc.shortValues henv hmem hshort
      · have hreply : (EventLoop.respond json text env (some command) c).1 =
            .ok (unknownCommand head.strValue) := by
          unfold EventLoop.respond
          simp only [hexec, hcall, answer]
        rw [hreply]
        constructor
        · rintro ⟨reply, hok, hsingle⟩ ⟨-, hcrlf⟩
          obtain rfl := Except.ok.inj hok
          exact hcrlf ((single_unknownCommand_iff _).mp hsingle)
        · intro hok
          refine ⟨_, rfl, (single_unknownCommand_iff _).mpr ?_⟩
          by_contra hcrlf
          exact hok ⟨hname, hcrlf⟩
    · apply iff_of_true
      · apply repliesSingle_respond
        rw [execute_invalid json text env hvalid]
        exact (single_error_iff _).mpr (by decide)
      · rintro ⟨command', head, args, hparse', htype, harray, -⟩
        rw [hparse] at hparse'
        obtain rfl := Option.some.inj (Except.ok.inj hparse')
        exact hvalid ⟨htype, by simp [harray]⟩

end

theorem plainTexts_reference : PlainTexts JsonLib.reference noDoubles where
  typeError := by
    intro s what h
    unfold JsonLib.reference at h
    dsimp only at h
    split_ifs at h
    obtain rfl := Option.some.inj h
    decide
  stod := fun _ _ h => (Except.error.inj h).symm
  toText := fun _ => Nat.two_pow_pos 31

/-- A `PING` echoes a terminator in a bulk string. -/
theorem reply_single_witness :
    RepliesSingle (EventLoop.answer JsonLib.reference noDoubles quietEnv
      (RespSerializer.array [lit "PING", lit "\r\n+OK\r\n"]) (create true [])).1 := by
  refine (reply_single_iff plainTexts_reference (.create true []) consumes_quietEnv
    _ (by unfold Fits; decide)).mpr ?_
  rintro ⟨command, head, args, hparse, -, harray, hname, -⟩
  have hping : Encodes (RespSerializer.array [lit "PING", lit "\r\n+OK\r\n"])
      (.command [lit "PING", lit "\r\n+OK\r\n"]) := encodes_command (by decide) (by decide)
  replace hping := hping.parse_append []
  rw [List.append_nil, hparse] at hping
  rw [Option.some.inj (Except.ok.inj hping)] at harray
  obtain ⟨rfl, -⟩ := List.cons.inj harray
  exact hname (by decide)

/-- The reply to an unknown command `X\r\n+OK\r\n` is an error that stops after `X`, and
starts a second value. -/
theorem reply_single_counterexample :
    let c : ChronoCache ℤ := create true []
    let payload := RespSerializer.array [lit "X\r\n+OK\r\n"]
    Reachable JsonLib.reference noDoubles c ∧ Fits payload ∧
      (EventLoop.answer JsonLib.reference noDoubles quietEnv payload c).1 =
        .ok (lit "-ERR unknown command 'X\r\n+OK\r\n'\r\n") ∧
      ¬ Single (lit "-ERR unknown command 'X\r\n+OK\r\n'\r\n") := by
  refine ⟨.create true [], by unfold Fits; decide, rfl, ?_⟩
  exact fun h => absurd ((single_unknownCommand_iff (lit "X\r\n+OK\r\n")).mp h) (by decide)

end Chrono
