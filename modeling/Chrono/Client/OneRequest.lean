import Chrono.Client.Calls
import Chrono.Server.Numerals

/-!
# One request of the client

A command that calls the cache is answered by the result or by the text of a fault, which
the client turns into a value of the type it expects or into an exception.
-/
namespace Chrono.Client
open ChronoCache CommandHandler Connection Library Library.Framing Library.Longest

/-! ## Faults -/

/-- The library's texts are lines that fit a frame. -/
structure BriefTexts {α : Type} (json : JsonLib) (text : DoubleText α) :
    Prop extends PlainTexts json text where
  brief : ∀ s what, json.typeError s = some what → what.length < 2 ^ 31

def Brief (e : Fault) : Prop :=
  ∃ what, e = .exception what ∧ Chrono.RespParser.findCrlf what = none ∧ what.length < 2 ^ 31

theorem brief_lit {s : String} (h : Chrono.RespParser.findCrlf (lit s) = none)
    (hlen : (lit s).length < 2 ^ 31) :
    Brief (.exception (lit s)) := ⟨_, rfl, h, hlen⟩

section
variable {α : Type} {json : JsonLib} {text : DoubleText α} {env : CommandEnv} {c : ChronoCache α}

theorem brief_dumpStrings (h : BriefTexts json text) {key value : Bytes} {e : Fault}
    (he : json.dumpStrings key value = .error e) : Brief e := by
  unfold JsonLib.dumpStrings at he
  split at he
  · next what hkey => exact ⟨what, (Except.error.inj he).symm, h.typeError _ _ hkey, h.brief _ _ hkey⟩
  · split at he
    · next what hvalue => exact ⟨what, (Except.error.inj he).symm, h.typeError _ _ hvalue,
        h.brief _ _ hvalue⟩
    · cases he

theorem brief_stoll {s : Bytes} {e : Fault} (h : stoll s = .error e) : Brief e := by
  rw [stoll_eq] at h
  dsimp only at h
  split_ifs at h
  obtain rfl := Except.error.inj h
  exact brief_lit (by decide) (by decide)

/-- An operation that its state does not refuse fails on its time to live only. -/
theorem outcome_fault {op : Op} {clock : Clock} {x : Option CacheEntry} {e : Fault}
    (h : (op.outcome clock x).result = .error e) :
    e = .exception (lit "TTL must be greater than 0") := by
  by_cases hop : ∀ key ttl, op = .expire key ttl → 0 < ttl
  · obtain ⟨r, hr⟩ := Op.outcome_ok hop clock x
    rw [hr] at h
    cases h
  · push Not at hop
    obtain ⟨key, ttl, rfl, hle⟩ := hop
    simp only [Op.outcome, hle, if_true] at h
    exact (Except.error.inj h).symm

theorem brief_run (h : BriefTexts json text) (hc : Configured c) (env : Env) (op : Op) {e : Fault}
    (he : (op.run json env c).1 = .error e) : Brief e := by
  cases ha : c.isAcceptingOps with
  | false =>
    rw [Op.run_refused ha] at he
    obtain rfl := Except.error.inj he
    exact brief_lit (by decide) (by decide)
  | true =>
    rw [Op.run_result ha hc.loggerReady] at he
    cases hlog : c.logAnswer json op.key (op.outcome env.clock (c.hashMap op.key)).mutation with
    | error e' =>
      rw [hlog] at he
      obtain rfl : e' = e := Except.error.inj he
      unfold logAnswer at hlog
      split at hlog
      · cases hlog
      · split_ifs at hlog
        exact brief_dumpStrings h hlog
    | ok _ =>
      rw [hlog] at he
      rw [outcome_fault he]
      exact brief_lit (by decide) (by decide)

theorem brief_of_run (h : BriefTexts json text) (hc : Configured c) {env : Env} (op : Op) {ρ : Type}
    {f : Action (ChronoCache α) ρ} (inj : ρ → Result)
    (hf : op.run json env c = ((f c).1.map inj, (f c).2)) : ∀ e, (f c).1 = .error e → Brief e := by
  intro e he
  apply brief_run h hc env op
  rw [hf]
  simp [he, Except.map]

theorem brief_init (henv : Consumes env.consumed) (withReplay : Bool) (clock : Clock) {e : Fault}
    (he : (c.init json withReplay env.consumed clock).1 = .error e) : Brief e := by
  unfold ChronoCache.init at he
  by_cases hready : c.state = .ready
  · simp [hready] at he
  by_cases huninit : c.state = .uninitialized
  · rw [if_neg hready, if_neg (by simp [huninit])] at he
    cases withReplay with
    | false => cases he
    | true =>
      cases hcons : env.consumed with
      | error e' =>
        rw [hcons] at he henv
        obtain rfl : e' = e := Except.error.inj he
        rw [henv]
        exact brief_lit (by decide) (by decide)
      | ok events =>
        simp only [hcons, replay, Bool.true_eq_false, if_false] at he
        rw [replayEvents_eq rfl] at he
        cases he
  · rw [if_neg hready, if_pos huninit] at he
    obtain rfl := Except.error.inj he
    exact brief_lit (by decide) (by decide)

variable (c) in
theorem brief_gated {ρ : Type} {r : Except Fault ρ}
    (hrefused : ∀ e, c.checkAcceptingOps = .error e → r = .error e)
    (haccepted : c.checkAcceptingOps = .ok () → ∃ x, r = .ok x) : ∀ e, r = .error e → Brief e := by
  intro e he
  cases hgate : c.checkAcceptingOps with
  | error e' =>
    obtain rfl : e' = e := Except.error.inj ((hrefused e' hgate).symm.trans he)
    unfold checkAcceptingOps at hgate
    split_ifs at hgate
    obtain rfl := Except.error.inj hgate
    exact brief_lit (by decide) (by decide)
  | ok _ =>
    obtain ⟨x, rfl⟩ := haccepted hgate
    cases he

theorem brief_withTtl {command : String} (hline : Chrono.RespParser.findCrlf
      (lit ("invalid expire time in '" ++ command ++ "' command")) = none)
    (hlen : (lit ("invalid expire time in '" ++ command ++ "' command")).length < 2 ^ 31)
    {ttlMs : ℤ} {ρ : Type} {f : Action (ChronoCache α) ρ} (hf : ∀ e, (f c).1 = .error e → Brief e) :
    ∀ e, (withTtl command ttlMs f c).1 = .error e → Brief e := by
  intro e he
  unfold withTtl at he
  split_ifs at he
  · obtain rfl := Except.error.inj he
    exact brief_lit hline hlen
  · exact hf e he
  · obtain rfl := Except.error.inj he
    exact brief_lit (by decide) (by decide)

theorem brief_deleteAll (h : BriefTexts json text) (hc : Configured c) (keys : List Text) (i : ℕ) :
    ∀ e, (deleteAll json env i keys c).1 = .error e → Brief e := by
  induction keys generalizing c i with
  | nil =>
    intro e he
    cases he
  | cons key keys ih =>
    intro e he
    have hrun : (Op.del (encode key)).run json (env.calls i) c =
      ((c.del json (env.calls i) (encode key)).1.map .flag,
        (c.del json (env.calls i) (encode key)).2) := rfl
    have hnext : Configured (c.del json (env.calls i) (encode key)).2 :=
      hc.run json (env.calls i) (.del (encode key))
    have hthis := brief_of_run h hc (.del (encode key)) .flag hrun
    rcases hx : c.del json (env.calls i) (encode key) with ⟨_ | removed, c'⟩
    · simp only [deleteAll, hx] at he hthis
      exact hthis e (congrArg _ (Except.error.inj he))
    · simp only [deleteAll, hx] at he hnext
      cases hrest : (deleteAll json env (i + 1) keys c').1 with
      | error e' =>
        rw [hrest] at he
        obtain rfl : e' = e := Except.error.inj he
        exact ih hnext _ _ hrest
      | ok n =>
        rw [hrest] at he
        cases he

end

/-! ## One request -/

theorem denotes_decimal (n : ℤ) : Denotes (RespSerializer.decimal n) n := by
  rcases Int.eq_nat_or_neg n with ⟨m, rfl | rfl⟩
  · rw [decimal_nat]
    exact denotes_digits m
  · rcases Nat.eq_zero_or_pos m with rfl | hm
    · exact denotes_digits 0
    · rw [decimal_neg hm]
      have h := Denotes.minus (Decimal.digits_ne_nil m) (fun b hb => Decimal.isDigit_of_mem_digits hb)
      rwa [Decimal.value_digits] at h

/-- `std::stoll` on `str(n)`. -/
theorem stoll_decimal (n : ℤ) :
    stoll (RespSerializer.decimal n) =
      if InInt64 n then .ok n else .error (.exception (lit "stoll")) := by
  have hleads : Leads decimalInteger ((RespSerializer.decimal n).dropWhile Chrono.isSpace) n :=
    leads_of_full decimalInteger_space (decimalInteger_iff_denotes.mpr (denotes_decimal n))
  obtain ⟨hne, hvalue⟩ := leads_decimalInteger_iff.mp hleads
  rw [stoll_eq]
  dsimp only
  rw [hvalue]
  exact if_congr (and_iff_right hne) rfl rfl

section
variable {α : Type} [LinearOrder α] {json : JsonLib} {text : DoubleText α} {env : CommandEnv}
  {deliver : Bytes → List ReadResult} {c : ChronoCache α} {ρ β γ : Type}

omit [LinearOrder α] in
variable (c) in
def replied (f : Action (ChronoCache α) ρ) (serialize : ρ → Bytes) :
    Except Fault Bytes × ChronoCache α :=
  match f c with
  | (.error (.exception what), c) => (.ok (RespSerializer.error (lit "ERR " ++ what)), c)
  | (.error .undefined, c) => (.error .undefined, c)
  | (.ok r, c) => (.ok (serialize r), c)

theorem respond_call {words : List Bytes} {f : Action (ChronoCache α) ρ} {serialize : ρ → Bytes}
    (hexec : execute json text env (.command words) c = call f serialize c) :
    EventLoop.respond json text env (some (.command words)) c = replied c f serialize := by
  rw [EventLoop.respond, replied]
  dsimp only
  rw [hexec, call]
  rcases f c with ⟨(_ | _) | r, c'⟩ <;> rfl

theorem respond_ttl {words : List Bytes} {name : String} {ttlMs : ℤ}
    {f : ℤ → Action (ChronoCache α) ρ} {serialize : ρ → Bytes}
    (hexec : execute json text env (.command words) =
      match stoll (RespSerializer.decimal ttlMs) with
      | .error e => fun c => (.error e, c)
      | .ok ms =>
        if ms ≤ 0 then
          answer (RespSerializer.error
            (lit ("ERR " ++ ("invalid expire time in '" ++ name ++ "' command"))))
        else call (f ms) serialize) :
    EventLoop.respond json text env (some (.command words)) c =
      replied c (withTtl name ttlMs (f ttlMs)) serialize := by
  rw [stoll_decimal] at hexec
  rw [EventLoop.respond]
  dsimp only
  rw [hexec]
  by_cases hint : InInt64 ttlMs
  · simp only [hint, if_true]
    by_cases hpos : ttlMs ≤ 0
    · have hmessage (s : String) : lit ("ERR " ++ s) = lit "ERR " ++ lit s := by simp [lit]
      simp only [hpos, if_true, answer, replied, withTtl, hint, not_true_eq_false, if_false, hmessage]
    · simp only [hpos, if_false, replied, withTtl, hint, not_true_eq_false, call]
      rcases f ttlMs c with ⟨(_ | _) | r, c'⟩ <;> rfl
  · simp only [hint, if_false, replied, withTtl, not_false_eq_true, if_true]

/-- A request whose command calls the cache, once it is known how the client reads each result. -/
theorem request_call (hdeliver : Cuts deliver) {tokens : List Text}
    (hfits : Fits (RespSerializer.serializeToBulkString tokens)) {f : Action (ChronoCache α) ρ}
    {serialize : ρ → Bytes} {value : ρ → Except Raised RespResult}
    (hreply : EventLoop.respond json text env (some (.command (tokens.map encode))) c =
      replied c f serialize)
    (hfault : ∀ e, (f c).1 = .error e → Brief e)
    (hread : ∀ r, (f c).1 = .ok r → readReply (frame (serialize r)) = value r) :
    request json text env deliver tokens (accepted, c) =
      ((caught f value c).1, accepted, (caught f value c).2) := by
  have hanswer : EventLoop.answer json text env (RespSerializer.serializeToBulkString tokens) c =
      replied c f serialize := by
    rw [← hreply, serializeToBulkString_eq] at *
    exact congrFun (answer_words hfits) c
  rcases hf : f c with ⟨e | r, c'⟩
  · obtain ⟨what, rfl, hline, hlen⟩ := hfault e (by rw [hf])
    have herror : replied c f serialize = (.ok (RespSerializer.error (lit "ERR " ++ what)), c') := by
      simp only [replied, hf]
    rw [request_answer hdeliver hfits (hanswer.trans herror), readReply_error]
    · simp only [caught, hf]
    · exact (Terminator.find_prefix (by decide) what).mpr hline
    · simp only [RespSerializer.error, RespSerializer.crlf, lit, List.length_append, List.length_map]
      simp
      omega
  · have hok : replied c f serialize = (.ok (serialize r), c') := by
      simp only [replied, hf]
    rw [request_answer hdeliver hfits (hanswer.trans hok), hread r (by rw [hf])]
    simp only [caught, hf]

omit [LinearOrder α] in
/-- What is done with the value of a call is done with each of its results. -/
theorem caught_bind (f : Action (ChronoCache α) ρ) (value : ρ → Except Raised β)
    (next : β → Except Raised γ) :
    ((caught f value c).1.bind next, (caught f value c).2) =
      caught f (fun r => (value r).bind next) c := by
  rcases hf : f c with ⟨(_ | _) | r, c'⟩ <;> simp only [caught, hf] <;> rfl

/-! The type checks of the four kinds of requests. -/

def asStr : RespResult → Except Raised Text
  | .str s => .ok s
  | result => .error (.valueError ("Expected str response, got ".toList ++ result.typeName))

def asInt : RespResult → Except Raised ℤ
  | .int n => .ok n
  | result => .error (.valueError ("Expected int response, got ".toList ++ result.typeName))

def asOptionalStr : RespResult → Except Raised (Option Text)
  | .none => .ok none
  | .str s => .ok (some s)
  | result => .error (.valueError ("Expected str or null response, got ".toList ++ result.typeName))

def asOptionalInt : RespResult → Except Raised (Option ℤ)
  | .none => .ok none
  | .int n => .ok (some n)
  | result => .error (.valueError ("Expected int or null response, got ".toList ++ result.typeName))

theorem requestStr_eq (tokens : List Text) (peer : Peer α) :
    requestStr json text env deliver tokens peer =
    ((request json text env deliver tokens peer).1.bind asStr,
      (request json text env deliver tokens peer).2) := by
  rw [requestStr]
  rcases request json text env deliver tokens peer with ⟨_ | (_ | _ | _ | _), peer'⟩ <;> rfl

theorem requestInt_eq (tokens : List Text) (peer : Peer α) :
    requestInt json text env deliver tokens peer =
    ((request json text env deliver tokens peer).1.bind asInt,
      (request json text env deliver tokens peer).2) := by
  rw [requestInt]
  rcases request json text env deliver tokens peer with ⟨_ | (_ | _ | _ | _), peer'⟩ <;> rfl

theorem requestOptionalStr_eq (tokens : List Text) (peer : Peer α) :
    requestOptionalStr json text env deliver tokens peer =
      ((request json text env deliver tokens peer).1.bind asOptionalStr,
        (request json text env deliver tokens peer).2) := by
  rw [requestOptionalStr]
  rcases request json text env deliver tokens peer with ⟨_ | (_ | _ | _ | _), peer'⟩ <;> rfl

theorem requestOptionalInt_eq (tokens : List Text) (peer : Peer α) :
    requestOptionalInt json text env deliver tokens peer =
      ((request json text env deliver tokens peer).1.bind asOptionalInt,
        (request json text env deliver tokens peer).2) := by
  rw [requestOptionalInt]
  rcases request json text env deliver tokens peer with ⟨_ | (_ | _ | _ | _), peer'⟩ <;> rfl

/-- A request that calls the cache passes its type check if each reply it reads does. -/
theorem request_typed (typed : RespResult → Except Raised β) (inj : β → RespResult)
    (htyped : ∀ b, typed (inj b) = .ok b) (f : Action (ChronoCache α) ρ) (serialize : ρ → Bytes)
    (value : ρ → Except Raised β) (hdeliver : Cuts deliver) {tokens : List Text}
    (hfits : Fits (RespSerializer.serializeToBulkString tokens))
    (hreply : EventLoop.respond json text env (some (.command (tokens.map encode))) c =
      replied c f serialize)
    (hfault : ∀ e, (f c).1 = .error e → Brief e)
    (hread : ∀ r, (f c).1 = .ok r → readReply (frame (serialize r)) = (value r).map inj) :
    (request json text env deliver tokens (accepted, c)).1.bind typed = (caught f value c).1 ∧
      (request json text env deliver tokens (accepted, c)).2 = (accepted, (caught f value c).2) := by
  have hpass : (fun r => ((value r).map inj).bind typed) = value := by
    funext r
    cases value r with
    | error e => rfl
    | ok b => exact htyped b
  have hbind := caught_bind (c := c) f (fun r => (value r).map inj) typed
  rw [hpass] at hbind
  rw [request_call hdeliver hfits hreply hfault hread, ← hbind]
  exact ⟨rfl, rfl⟩

end

end Chrono.Client
