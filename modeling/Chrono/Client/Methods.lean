import Chrono.Client.OneRequest

/-!
# Calls are transparent

On a connection of its own, a client's calls come to what they come to on the cache,
however the network cuts the requests, and leave the connection as it was.
-/
namespace Chrono.Client
open ChronoCache CommandHandler Connection Library Library.Framing

def orNone {β : Type} (inj : β → RespResult) : Option β → RespResult
  | none => .none
  | some b => inj b

section
variable {α : Type} [LinearOrder α] {json : JsonLib} {text : DoubleText α} {py : FloatText α}
  {env : CommandEnv}
  {deliver : Bytes → List ReadResult} {c : ChronoCache α}

variable (json text py env deliver c) in
/-- The call comes to what it comes to on the cache, and the connection is left in sync. -/
def Transparent (call : Call α) : Prop :=
  call.run json text py env deliver (accepted, c) =
    ((call.perform json text py env c).1, accepted, (call.perform json text py env c).2)

theorem short_of_mem {tokens : List Text}
    (hfits : Fits (RespSerializer.serializeToBulkString tokens)) {t : Text}
    (ht : t ∈ tokens) : (RespSerializer.bulkString (encode t)).length < 2 ^ 32 := by
  rw [serializeToBulkString_eq] at hfits
  have hmax : (RespSerializer.array (tokens.map encode)).length ≤ 2 ^ 25 := hfits
  have hbulk := bulkString_le_array (List.mem_map_of_mem (f := encode) ht)
  omega

theorem transparent_ping (hdeliver : Cuts deliver)
    (hfits : Fits (RespSerializer.serializeToBulkString ["PING".toList])) :
    Transparent json text py env deliver c (.ping none) := by
  have hexec : execute json text env (.command (["PING".toList].map encode)) c =
      call (fun c => (.ok (), c)) (fun _ : Unit => lit "+PONG\r\n") c := rfl
  obtain ⟨hvalue, hpeer⟩ :=
    request_typed asStr .str (fun _ => rfl) _ _ (fun _ => .ok "PONG".toList) hdeliver hfits
      (respond_call hexec) (fun _ h => nomatch h) (fun _ _ => readReply_pong)
  simp only [Transparent, Call.run, ping, requestStr_eq, hvalue, hpeer]
  rfl

theorem transparent_ping_message (hdeliver : Cuts deliver) (message : Text)
    (hfits : Fits (RespSerializer.serializeToBulkString ["PING".toList, message])) :
    Transparent json text py env deliver c (.ping (some message)) := by
  have hexec : execute json text env (.command (["PING".toList, message].map encode)) c =
      call (fun c => (.ok (), c)) (fun _ : Unit =>
        RespSerializer.bulkString (encode message)) c := rfl
  obtain ⟨hvalue, hpeer⟩ :=
    request_typed asStr .str (fun _ => rfl) _ _ (fun _ => received (encode message)) hdeliver
      hfits (respond_call hexec) (fun _ h => nomatch h)
        (fun _ _ => readReply_bulkString (short_of_mem hfits (by simp)))
  simp only [Transparent, Call.run, ping, requestStr_eq, hvalue, hpeer]
  rfl

theorem transparent_init (hdeliver : Cuts deliver) (henv : Consumes env.consumed) (withReplay : Bool)
    (hfits : Fits (RespSerializer.serializeToBulkString
      ["INIT".toList, if withReplay then "true".toList else "false".toList])) :
    Transparent json text py env deliver c (.init withReplay) := by
  have hexec : execute json text env
      (.command (["INIT".toList, if withReplay then "true".toList else "false".toList].map encode)) c =
        call (ChronoCache.init json withReplay env.consumed (env.calls 0).clock) (fun success =>
          if success then RespSerializer.ok else RespSerializer.error (lit "ERR replay failed")) c := by
    cases withReplay <;> rfl
  have hread (success : Bool) : readReply (frame (if success then RespSerializer.ok
      else RespSerializer.error (lit "ERR replay failed"))) = (initialized success).map .str := by
    cases success with
    | true => exact readReply_ok
    | false =>
      have hfailed : readReply (frame (RespSerializer.error (lit "ERR replay failed"))) =
        .error (raised (lit "ERR replay failed")) := readReply_error (by decide) (by decide)
      exact hfailed
  obtain ⟨hvalue, hpeer⟩ :=
    request_typed asStr .str (fun _ => rfl) _ _ _ hdeliver hfits (respond_call hexec)
      (fun e he => brief_init henv withReplay _ he) (fun success _ => hread success)
  simp only [Transparent, Call.run, init, requestStr_eq, hvalue, hpeer]
  rfl

theorem length_bulkString {s : Bytes} (h : s.length < 2 ^ 31) :
    (RespSerializer.bulkString s).length < 2 ^ 32 := by
  have hdigits : (RespSerializer.decimal s.length).length ≤ 10 + 1 := length_decimal (by omega)
  have hlen : (RespSerializer.bulkString s).length =
      (RespSerializer.decimal s.length).length + s.length + 5 := by
    simp only [RespSerializer.bulkString, List.length_append]
    change 1 + _ + 2 + _ + 2 = _
    omega
  omega

theorem readReply_bulkOrNull {r : Option Bytes} (h : ∀ s ∈ r, s.length < 2 ^ 31) :
    readReply (frame (bulkOrNull r)) = (receivedOrNone r).map (orNone .str) := by
  cases r with
  | none => exact readReply_nullBulk
  | some s =>
    rw [bulkOrNull, readReply_bulkString (length_bulkString (h s rfl)), receivedOrNone]
    cases received s <;> rfl

theorem readReply_flag (b : Bool) : readReply (frame (flag b)) = (flagInt b).map .int := by
  cases b with
  | true => exact readReply_integer (by decide)
  | false => exact readReply_integer (by decide)

omit [LinearOrder α] in
theorem short_of_get (hshort : ShortValues c) {env : Env} {key : Bytes} {r : Option Bytes}
    (hr : (c.get env key).1 = .ok r) : ∀ s ∈ r, s.length < 2 ^ 31 := by
  rintro s rfl
  cases ha : c.isAcceptingOps with
  | false => simp [ChronoCache.get, checkAcceptingOps, ha] at hr
  | true =>
    have hget := Op.run_get ha JsonLib.reference env key
    have hrun : (Op.get key).run JsonLib.reference env c =
        ((c.get env key).1.map .value, (c.get env key).2) := rfl
    rw [hrun, hr] at hget
    obtain ⟨e, he, rfl⟩ := Option.map_eq_some_iff.mp (Result.value.inj (Except.ok.inj hget)).symm
    exact hshort _ e (Option.filter_eq_some_iff.mp he).1

theorem remainingTtl_bound (e : CacheEntry) (now : ℕ) :
    ((e.remainingTtl now).getD (-1)).natAbs ≤ 2 ^ 63 := by
  rw [CacheEntry.remainingTtl]
  cases e.expiresAt with
  | none => simp
  | some d =>
    have hlow : -((2 ^ 64 : ℕ) / 2 : ℤ) ≤ toInt64 (d - now) := Int.le_bmod (by decide)
    have hhigh := toInt64_lt (d - now)
    have hdiv : ((toInt64 (d - now)).tdiv nsPerMs).natAbs ≤ (toInt64 (d - now)).natAbs := by
      rw [Int.natAbs_tdiv]
      exact Nat.div_le_self _ _
    simp only [Option.map_some, Option.getD_some]
    omega

omit [LinearOrder α] in
theorem pttl_bound (hl : c.LoggerReady) {env : Env} {key : Bytes} {n : ℤ}
    (hn : (c.pttl env key).1 = .ok n) :
    n.natAbs ≤ 2 ^ 63 := by
  have hrun : (Op.pttl key).run JsonLib.reference env c =
      ((c.pttl env key).1.map .millis, (c.pttl env key).2) := rfl
  cases ha : c.isAcceptingOps with
  | false => simp [ChronoCache.pttl, checkAcceptingOps, ha] at hn
  | true =>
    have hresult := Op.run_result ha hl JsonLib.reference env (.pttl key)
    have hkey : (Op.pttl key).key = key := rfl
    rw [hrun, hn, hkey] at hresult
    cases he : c.hashMap key with
    | none =>
      rw [he] at hresult
      obtain rfl : n = -2 := Result.millis.inj (Except.ok.inj hresult)
      decide
    | some e =>
      rw [he] at hresult
      cases hx : e.isExpired (env.clock 0) with
      | true =>
        simp only [Op.outcome, hx, if_true] at hresult
        obtain rfl : n = -2 := Result.millis.inj (Except.ok.inj hresult)
        decide
      | false =>
        simp only [Op.outcome, hx, Bool.false_eq_true, if_false] at hresult
        obtain rfl : n = (e.remainingTtl (env.clock 1)).getD (-1) :=
          Result.millis.inj (Except.ok.inj hresult)
        exact remainingTtl_bound e _

omit [LinearOrder α] in
theorem delLoop_eq (args : List Chrono.RespValue) (keys : List Text)
    (hargs : args.map Chrono.RespValue.strValue = keys.map encode) (i : ℕ) (count : ℤ)
    (c : ChronoCache α) :
    delLoop json env i count args c =
      ((deleteAll json env i keys c).1.map (count + ·), (deleteAll json env i keys c).2) := by
  induction args generalizing keys i count c with
  | nil =>
    obtain rfl : keys = [] := by simpa using hargs.symm
    simp [delLoop, deleteAll, Except.map]
  | cons arg args ih =>
    cases keys with
    | nil => simp at hargs
    | cons key keys =>
      obtain ⟨hkey, hrest⟩ := List.cons.inj hargs
      simp only [delLoop, deleteAll, hkey]
      rcases hx : c.del json (env.calls i) (encode key) with ⟨_ | removed, c'⟩
      · rfl
      · simp only [ih keys hrest]
        cases (deleteAll json env (i + 1) keys c').1 with
        | error e => rfl
        | ok n =>
          cases removed
          · simp [Except.map]
          · simp [Except.map, Int.add_assoc]

omit [LinearOrder α] in
theorem deleteAll_count (keys : List Text) (i : ℕ) (c : ChronoCache α) {n : ℤ}
    (hn : (deleteAll json env i keys c).1 = .ok n) : 0 ≤ n ∧ n ≤ keys.length := by
  induction keys generalizing i c n with
  | nil =>
    obtain rfl := Except.ok.inj hn
    simp
  | cons key keys ih =>
    simp only [deleteAll] at hn
    rcases hx : c.del json (env.calls i) (encode key) with ⟨_ | removed, c'⟩
    · rw [hx] at hn
      cases hn
    · rw [hx] at hn
      dsimp only at hn
      cases hrest : (deleteAll json env (i + 1) keys c').1 with
      | error e =>
        rw [hrest] at hn
        cases hn
      | ok m =>
        rw [hrest] at hn
        have hm := ih _ _ hrest
        have hsum : (if removed then 1 else 0) + m = n := Except.ok.inj hn
        rw [List.length_cons]
        cases removed <;> simp at hsum <;> omega

section
variable (h : BriefTexts json text) (hc : Reachable json text c) (hdeliver : Cuts deliver)
include h hc hdeliver

theorem transparent_get (key : Text)
    (hfits : Fits (RespSerializer.serializeToBulkString ["GET".toList, key])) :
    Transparent json text py env deliver c (.get key) := by
  have hexec : execute json text env (.command (["GET".toList, key].map encode)) c =
      call (ChronoCache.get (env.calls 0) (encode key)) bulkOrNull c := rfl
  obtain ⟨hvalue, hpeer⟩ :=
    request_typed asOptionalStr (orNone .str) (fun b => by cases b <;> rfl) _ _ _ hdeliver hfits
      (respond_call hexec) (brief_of_run h hc.configured (.get (encode key)) .value rfl)
      (fun r hr => readReply_bulkOrNull (short_of_get hc.shortValues hr))
  simp only [Transparent, Call.run, get, requestOptionalStr_eq, hvalue, hpeer]
  rfl

theorem transparent_set (key value : Text)
    (hfits : Fits (RespSerializer.serializeToBulkString ["SET".toList, key, value])) :
    Transparent json text py env deliver c (.set key value none) := by
  have hexec : execute json text env (.command (["SET".toList, key, value].map encode)) c =
      call (ChronoCache.set json (env.calls 0) (encode key) (encode value) none)
        (fun _ => RespSerializer.ok) c := rfl
  obtain ⟨hvalue, hpeer⟩ :=
    request_typed asStr .str (fun _ => rfl) _ _ (fun _ => .ok "OK".toList) hdeliver hfits
      (respond_call hexec)
        (brief_of_run h hc.configured (.set (encode key) (encode value) none) .flag rfl)
      (fun _ _ => readReply_ok)
  simp only [Transparent, Call.run, set, setTokens, requestStr_eq, hvalue, hpeer]
  rfl

theorem transparent_set_ttl (key value : Text) (ttlMs : ℤ)
    (hfits : Fits (RespSerializer.serializeToBulkString (setTokens key value (some ttlMs)))) :
    Transparent json text py env deliver c (.set key value (some ttlMs)) := by
  have hreply : EventLoop.respond json text env
      (some (.command ((setTokens key value (some ttlMs)).map encode))) c =
      replied c (withTtl "SET" ttlMs
        (ChronoCache.set json (env.calls 0) (encode key) (encode value) (some ttlMs)))
        (fun _ => RespSerializer.ok) := by
    apply respond_ttl
    rw [← encode_numeral]
    rfl
  obtain ⟨hvalue, hpeer⟩ :=
    request_typed asStr .str (fun _ => rfl) _ _ (fun _ => .ok "OK".toList) hdeliver hfits
      hreply (brief_withTtl (by decide) (by decide)
        (brief_of_run h hc.configured (.set (encode key) (encode value) (some ttlMs)) .flag rfl))
      (fun _ _ => readReply_ok)
  simp only [Transparent, Call.run, set, requestStr_eq, hvalue, hpeer]
  rfl

theorem transparent_expire (key : Text) (ttlMs : ℤ)
    (hfits : Fits (RespSerializer.serializeToBulkString ["EXPIRE".toList, key, numeral ttlMs])) :
    Transparent json text py env deliver c (.expire key ttlMs) := by
  have hreply : EventLoop.respond json text env
      (some (.command (["EXPIRE".toList, key, numeral ttlMs].map encode))) c =
      replied c (withTtl "EXPIRE" ttlMs
        (ChronoCache.expire json (env.calls 0) (encode key) ttlMs)) flag := by
    apply respond_ttl
    rw [← encode_numeral]
    rfl
  obtain ⟨hvalue, hpeer⟩ := request_typed asInt .int (fun _ => rfl) _ _ flagInt hdeliver hfits
    hreply (brief_withTtl (by decide) (by decide)
      (brief_of_run h hc.configured (.expire (encode key) ttlMs) .flag rfl))
    (fun b _ => readReply_flag b)
  simp only [Transparent, Call.run, expire, requestInt_eq, hvalue, hpeer]
  rfl

theorem transparent_persist (key : Text)
    (hfits : Fits (RespSerializer.serializeToBulkString ["PERSIST".toList, key])) :
    Transparent json text py env deliver c (.persist key) := by
  have hexec : execute json text env (.command (["PERSIST".toList, key].map encode)) c =
      call (ChronoCache.persist json (env.calls 0) (encode key)) flag c := rfl
  obtain ⟨hvalue, hpeer⟩ := request_typed asInt .int (fun _ => rfl) _ _ flagInt hdeliver hfits
    (respond_call hexec) (brief_of_run h hc.configured (.persist (encode key)) .flag rfl)
    (fun b _ => readReply_flag b)
  simp only [Transparent, Call.run, persist, requestInt_eq, hvalue, hpeer]
  rfl

theorem transparent_pttl (key : Text)
    (hfits : Fits (RespSerializer.serializeToBulkString ["PTTL".toList, key])) :
    Transparent json text py env deliver c (.pttl key) := by
  have hexec : execute json text env (.command (["PTTL".toList, key].map encode)) c =
      call (ChronoCache.pttl (env.calls 0) (encode key)) RespSerializer.integer c := rfl
  obtain ⟨hvalue, hpeer⟩ :=
    request_typed asInt .int (fun _ => rfl) _ _ .ok hdeliver hfits (respond_call hexec)
      (brief_of_run h hc.configured (.pttl (encode key)) .millis rfl)
      (fun _ hn => readReply_integer (pttl_bound hc.configured.loggerReady hn))
  simp only [Transparent, Call.run, pttl, requestInt_eq, hvalue, hpeer]
  rfl

theorem transparent_delete (keys : List Text)
    (hfits : Fits (RespSerializer.serializeToBulkString ("DEL".toList :: keys))) :
    Transparent json text py env deliver c (.delete keys) := by
  cases keys with
  | nil => rfl
  | cons key keys =>
    have hexec : execute json text env (.command (("DEL".toList :: key :: keys).map encode)) c =
        call (deleteAll json env 0 (key :: keys)) RespSerializer.integer c := by
      let args := ((key :: keys).map encode).map fun s =>
        Chrono.RespValue.bulkString s (RespSerializer.bulkString s).length
      have hargs : args.map Chrono.RespValue.strValue = (key :: keys).map encode := by
        simp [args, Function.comp_def, Chrono.RespValue.strValue, Chrono.RespValue.bulkString]
      have hloop : delLoop json env 0 0 args c =
        ((deleteAll json env 0 (key :: keys) c).1.map (0 + ·),
          (deleteAll json env 0 (key :: keys) c).2) :=
          delLoop_eq args _ hargs 0 0 c
      have hdel : execute json text env (.command (("DEL".toList :: key :: keys).map encode)) c =
        call (delLoop json env 0 0 args) RespSerializer.integer c := rfl
      rw [hdel, call, hloop, call]
      cases (deleteAll json env 0 (key :: keys) c).1 with
      | error e => rfl
      | ok n => simp [Except.map]
    have hcount (n : ℤ) (hn : (deleteAll json env 0 (key :: keys) c).1 = .ok n) :
        n.natAbs ≤ 2 ^ 63 := by
      have hbound := deleteAll_count _ _ _ hn
      rw [serializeToBulkString_eq] at hfits
      have hmax : (RespSerializer.array (("DEL".toList :: key :: keys).map encode)).length ≤
          2 ^ 25 := hfits
      have hwords := words_le_array (("DEL".toList :: key :: keys).map encode)
      simp only [List.length_map, List.length_cons] at hwords hbound
      omega
    obtain ⟨hvalue, hpeer⟩ :=
      request_typed asInt .int (fun _ => rfl) _ _ .ok hdeliver hfits (respond_call hexec)
        (brief_deleteAll h hc.configured (key :: keys) 0)
          (fun n hn => readReply_integer (hcount n hn))
    simp only [Transparent, Call.run, delete, requestInt_eq, hvalue, hpeer]
    rfl

omit hc in
theorem transparent_zadd (key : Text) (score : Score α) (member : Text)
    (hfits : Fits (RespSerializer.serializeToBulkString ["ZADD".toList, key, py.str score, member])) :
    Transparent json text py env deliver c (.zadd key score member) := by
  let add : Action (ChronoCache α) Bool :=
    withScore text (py.str score) fun score => ChronoCache.zadd (encode key) score (encode member)
  have hexec : execute json text env
      (.command (["ZADD".toList, key, py.str score, member].map encode)) c =
      call add flag c := by
    change cmdZadd text ([key, py.str score, member].map fun s =>
      Chrono.RespValue.bulkString (encode s)
        (Chrono.RespSerializer.bulkString (encode s)).length) c = _
    simp only [List.map_cons, List.map_nil, cmdZadd, Chrono.RespValue.bulkString,
      Chrono.RespValue.strValue, call, add, withScore]
    cases text.stod (encode (py.str score)) with
    | error e => rfl
    | ok score => rfl
  have hfault : ∀ e, (add c).1 = .error e → Brief e := by
    cases hs : text.stod (encode (py.str score)) with
    | error e' =>
      intro e he
      simp only [add, withScore, hs] at he
      obtain rfl := Except.error.inj he
      rw [h.stod _ _ hs]
      exact brief_lit (by decide) (by decide)
    | ok score =>
      simp only [add, withScore, hs]
      exact brief_gated c (fun e hgate => by simp [ChronoCache.zadd, hgate])
        (fun hgate => by simp [ChronoCache.zadd, hgate])
  obtain ⟨hvalue, hpeer⟩ :=
    request_typed asInt .int (fun _ => rfl) _ _ flagInt hdeliver hfits (respond_call hexec)
      hfault (fun b _ => readReply_flag b)
  simp only [Transparent, Call.run, zadd, requestInt_eq, hvalue, hpeer]
  rfl

omit hc in
theorem transparent_zscore (key member : Text)
    (hfits : Fits (RespSerializer.serializeToBulkString ["ZSCORE".toList, key, member])) :
    Transparent json text py env deliver c (.zscore key member) := by
  have hexec : execute json text env (.command (["ZSCORE".toList, key, member].map encode)) c =
      call (fun c => (c.zscore (encode key) (encode member), c))
        (fun score => bulkOrNull (score.map text.toText)) c :=
    rfl
  have hshort (score : Option (Score α)) : ∀ s ∈ score.map text.toText, s.length < 2 ^ 31 := by
    intro s hs
    obtain ⟨x, -, rfl⟩ := Option.map_eq_some_iff.mp hs
    exact h.toText x
  obtain ⟨hvalue, hpeer⟩ :=
    request_typed asOptionalStr (orNone .str) (fun b => by cases b <;> rfl) _ _
      (fun score => receivedOrNone (score.map text.toText)) hdeliver hfits (respond_call hexec)
      (brief_gated c (fun e hgate => by simp [ChronoCache.zscore, hgate])
        (fun hgate => by simp [ChronoCache.zscore, hgate]))
      (fun score _ => readReply_bulkOrNull (hshort score))
  have hfloat := caught_bind (c := c) (fun c => (c.zscore (encode key) (encode member), c))
    (fun score => receivedOrNone (score.map text.toText)) (optionalFloat py)
  simp only [Transparent, Call.run, zscore, requestOptionalStr_eq, hvalue, hpeer, Call.perform,
    onCache, ← hfloat]

omit h hc in
theorem transparent_zrem (key member : Text)
    (hfits : Fits (RespSerializer.serializeToBulkString ["ZREM".toList, key, member])) :
    Transparent json text py env deliver c (.zrem key member) := by
  have hexec : execute json text env (.command (["ZREM".toList, key, member].map encode)) c =
      call (ChronoCache.zrem (encode key) (encode member)) flag c := rfl
  obtain ⟨hvalue, hpeer⟩ :=
    request_typed asInt .int (fun _ => rfl) _ _ flagInt hdeliver hfits (respond_call hexec)
      (brief_gated c (fun e hgate => by simp [ChronoCache.zrem, hgate])
        (fun hgate => by simp [ChronoCache.zrem, hgate]))
      (fun b _ => readReply_flag b)
  simp only [Transparent, Call.run, zrem, requestInt_eq, hvalue, hpeer]
  rfl

omit h hc in
theorem transparent_zrank (key member : Text)
    (hrank : ∀ n ∈ c.sortedSets.zrank (encode key) (encode member), n < 2 ^ 31)
    (hfits : Fits (RespSerializer.serializeToBulkString ["ZRANK".toList, key, member])) :
    Transparent json text py env deliver c (.zrank key member) := by
  let serialize (rank : Option ℕ) : Bytes :=
    rank.elim RespSerializer.nullBulk fun rank => RespSerializer.integer rank
  have hexec : execute json text env (.command (["ZRANK".toList, key, member].map encode)) c =
      call (fun c => (c.zrank (encode key) (encode member), c)) serialize c := by
    change call (fun c => (c.zrank (encode key) (encode member), c)) _ c = _
    congr 1
    funext rank
    cases rank <;> rfl
  have hread (rank : Option ℕ) (hr : c.zrank (encode key) (encode member) = .ok rank) :
      readReply (frame (serialize rank)) =
        (Except.ok (rank.map fun n : ℕ => (n : ℤ))).map (orNone .int) := by
    cases rank with
    | none => exact readReply_nullBulk
    | some n =>
      have hn : c.sortedSets.zrank (encode key) (encode member) = some n := by
        rw [ChronoCache.zrank] at hr
        split at hr
        · cases hr
        · exact Except.ok.inj hr
      have hlt := hrank n hn
      exact readReply_integer (by omega)
  obtain ⟨hvalue, hpeer⟩ :=
    request_typed asOptionalInt (orNone .int) (fun b => by cases b <;> rfl) _ _
      (fun rank => .ok (rank.map fun n : ℕ => (n : ℤ))) hdeliver hfits (respond_call hexec)
      (brief_gated c (fun e hgate => by simp [ChronoCache.zrank, hgate])
        (fun hgate => by simp [ChronoCache.zrank, hgate]))
      (fun rank hr => hread rank hr)
  simp only [Transparent, Call.run, zrank, requestOptionalInt_eq, hvalue, hpeer]
  rfl

end
/-! ## Runs of calls -/

/-- The cache behind a request that fits is left as the event loop leaves it. -/
theorem request_cache (hdeliver : Cuts deliver) {tokens : List Text}
    (hfits : Fits (RespSerializer.serializeToBulkString tokens)) :
    (request json text env deliver tokens (accepted, c)).2.2 =
      (EventLoop.answer json text env (RespSerializer.serializeToBulkString tokens) c).2 := by
  rcases hanswer : EventLoop.answer json text env (RespSerializer.serializeToBulkString tokens) c
    with ⟨e | response, c'⟩
  · obtain ⟨hbytes, hreads⟩ := hdeliver (frame (RespSerializer.serializeToBulkString tokens))
    obtain ⟨payloads, rest, hfront, hread⟩ := settled_accepted.handleReads hreads
    rw [hbytes] at hfront
    have hone : Front frame Fits (frame (RespSerializer.serializeToBulkString tokens) ++ [])
        [RespSerializer.serializeToBulkString tokens] [] :=
      Front.cons hfits (Front.stuck (noFrame_of_short (by decide)))
    rw [List.append_nil] at hone
    obtain ⟨rfl, rfl⟩ := hfront.unique prefixFree_frame hone
    have hsize : ¬ 2 ^ 32 ≤ (RespSerializer.serializeToBulkString tokens).length := by
      have hmax : (RespSerializer.serializeToBulkString tokens).length ≤ 2 ^ 25 := hfits
      omega
    have hread' : accepted.handleReads
        (deliver (frame (RespSerializer.serializeToBulkString tokens))) =
      .ok ([RespSerializer.serializeToBulkString tokens], accepted) := hread
    rw [frame] at hread'
    simp only [request, if_neg hsize, serve, hread', reply, hanswer]
    rfl
  · rw [request_answer hdeliver hfits hanswer]

variable (py) in
theorem run_reachable (hc : Reachable json text c) (henv : Consumes env.consumed)
    (hdeliver : Cuts deliver) (call : Call α)
    (hfits : Fits (RespSerializer.serializeToBulkString (call.tokens py))) :
    Reachable json text (call.run json text py env deliver (accepted, c)).2.2 := by
  have hnext {tokens : List Text} (hfits : Fits (RespSerializer.serializeToBulkString tokens)) :
      Reachable json text (request json text env deliver tokens (accepted, c)).2.2 := by
    rw [request_cache hdeliver hfits]
    exact hc.request env henv _ hfits
  cases call with
  | ping message =>
    simp only [Call.run, ping, requestStr_eq]
    cases message with
    | none => exact hnext hfits
    | some message => exact hnext hfits
  | init withReplay =>
    simp only [Call.run, init, requestStr_eq]
    exact hnext hfits
  | get key =>
    simp only [Call.run, get, requestOptionalStr_eq]
    exact hnext hfits
  | set key value ttlMs =>
    simp only [Call.run, set, requestStr_eq]
    exact hnext hfits
  | delete keys =>
    cases keys with
    | nil => exact hc
    | cons key keys =>
      simp only [Call.run, delete, requestInt_eq, List.isEmpty_cons, Bool.false_eq_true, if_false]
      exact hnext hfits
  | expire key ttlMs =>
    simp only [Call.run, expire, requestInt_eq]
    exact hnext hfits
  | persist key =>
    simp only [Call.run, persist, requestInt_eq]
    exact hnext hfits
  | pttl key =>
    simp only [Call.run, pttl, requestInt_eq]
    exact hnext hfits
  | zadd key score member =>
    simp only [Call.run, zadd, requestInt_eq]
    exact hnext hfits
  | zscore key member =>
    simp only [Call.run, zscore, requestOptionalStr_eq]
    exact hnext hfits
  | zrem key member =>
    simp only [Call.run, zrem, requestInt_eq]
    exact hnext hfits
  | zrank key member =>
    simp only [Call.run, zrank, requestOptionalInt_eq]
    exact hnext hfits

/-- A call, what the environment does during it, and how the network cuts its request. -/
structure Issued (α : Type) where
  call : Call α
  env : CommandEnv
  deliver : Bytes → List ReadResult

variable (json text py)

/-- The calls of a client, over its connection. -/
def clientMachine : Machine (Peer α) (Issued α) (Except Raised (Returned α)) where
  step peer i := i.call.run json text py i.env i.deliver peer

def cacheMachine : Machine (ChronoCache α) (Issued α) (Except Raised (Returned α)) where
  step c i := i.call.perform json text py i.env c

/-- The request fits a frame and arrives whole, in whatever chunks; a rank is an `int`. -/
structure Legal (c : ChronoCache α) (i : Issued α) : Prop where
  deliver : Cuts i.deliver
  env : Consumes i.env.consumed
  fits : Fits (RespSerializer.serializeToBulkString (i.call.tokens py))
  rank : ∀ key member, i.call = .zrank key member →
    ∀ n ∈ c.sortedSets.zrank (encode key) (encode member), n < 2 ^ 31

variable {json text py}

theorem Legal.transparent (h : BriefTexts json text) (hc : Reachable json text c) {i : Issued α}
    (hi : Legal py c i) :
    Transparent json text py i.env i.deliver c i.call := by
  obtain ⟨call, env, deliver⟩ := i
  obtain ⟨hdeliver, henv, hfits, hrank⟩ := hi
  cases call with
  | ping message =>
    cases message with
    | none => exact transparent_ping hdeliver hfits
    | some message => exact transparent_ping_message hdeliver message hfits
  | init withReplay => exact transparent_init hdeliver henv withReplay hfits
  | get key => exact transparent_get h hc hdeliver key hfits
  | set key value ttlMs =>
    cases ttlMs with
    | none => exact transparent_set h hc hdeliver key value hfits
    | some ttlMs => exact transparent_set_ttl h hc hdeliver key value ttlMs hfits
  | delete keys => exact transparent_delete h hc hdeliver keys hfits
  | expire key ttlMs => exact transparent_expire h hc hdeliver key ttlMs hfits
  | persist key => exact transparent_persist h hc hdeliver key hfits
  | pttl key => exact transparent_pttl h hc hdeliver key hfits
  | zadd key score member => exact transparent_zadd h hdeliver key score member hfits
  | zscore key member => exact transparent_zscore h hdeliver key member hfits
  | zrem key member => exact transparent_zrem hdeliver key member hfits
  | zrank key member => exact transparent_zrank hdeliver key member (hrank key member rfl) hfits

end

theorem briefTexts_reference : BriefTexts JsonLib.reference noDoubles where
  toPlainTexts := plainTexts_reference
  brief s what h := by
    unfold JsonLib.reference at h
    dsimp only at h
    split_ifs at h
    obtain rfl := Option.some.inj h
    decide

def sampleCalls : List (Issued ℤ) :=
  [.set "k".toList "a\r\nb".toList none, .get "k".toList, .zrank "z".toList "m".toList,
    .delete ["k".toList, "j".toList], .get "k".toList].map fun call => ⟨call, quietEnv, atOnce⟩

def noFloats : FloatText ℤ :=
  ⟨fun _ => [], fun _ => .error (.valueError "could not convert string to float".toList)⟩

end Chrono.Client
