import Chrono.Client.ReadBack
import Chrono.Server.Reachable

/-!
# The client

A call sends one framed request, waits for one framed reply and turns it into a value
or an exception.
-/
namespace Chrono.Client
open ChronoCache CommandHandler Connection Library.Framing

inductive Raised where
  | structError
  | eofError
  | unicodeDecodeError
  | valueError (message : Text)

inductive RespResult where
  | str (s : Text)
  | int (n : ℤ)
  | list (l : List RespResult)
  | none

/-- `type(result).__name__` -/
def RespResult.typeName : RespResult → Text
  | .str _ => "str".toList
  | .int _ => "int".toList
  | .list _ => "list".toList
  | .none => "NoneType".toList

mutual

/-- `_get_value_from_resp_value` on a value. -/
def valueOf : RespValue → Except Raised RespResult
  | .mk type strValue intValue array _ _ =>
    match type with
    | .simpleString => .ok (.str strValue)
    | .error => .error (.valueError strValue)
    | .bulkString => .ok (.str strValue)
    | .integer => .ok (.int intValue)
    | .array => (valuesOf array).map .list
    | .null => .ok .none

def valuesOf : List RespValue → Except Raised (List RespResult)
  | [] => .ok []
  | token :: tokens =>
    match valueOf token with
    | .error e => .error e
    | .ok value => (valuesOf tokens).map (value :: ·)

end

def getValueFromRespValue : Option RespValue → Except Raised RespResult
  | none => .error (.valueError "Invalid response from server".toList)
  | some value => valueOf value

/-- `_recv_response`, from what the server sends before it closes the connection. -/
def recvResponse (stream : Bytes) : Except Raised Bytes :=
  if stream.length < 4 then .error .eofError
  else if (stream.drop 4).length < (ntohl stream).toNat then .error .eofError
  else .ok ((stream.drop 4).take (ntohl stream).toNat)

/-- The part of `_request` after the request was sent. -/
def readReply (stream : Bytes) : Except Raised RespResult :=
  match recvResponse stream with
  | .error e => .error e
  | .ok response =>
    match RespParser.parse response with
    | none => .error .unicodeDecodeError
    | some value => getValueFromRespValue value

section
variable {α : Type} [LinearOrder α] (json : JsonLib) (text : DoubleText α) (env : CommandEnv)

/-- A client's connection, as the server has it, and the cache behind it. -/
abbrev Peer (α : Type) := Connection × ChronoCache α

def reply : List Bytes → Connection → ChronoCache α → Peer α
  | [], conn, c => (conn, c)
  | payload :: payloads, conn, c =>
    match EventLoop.answer json text env payload c with
    | (.error _, c) => ({ conn with wantClose := true }, c)
    | (.ok response, c) => reply payloads (conn.enqueueResponse response) c

/-- What the server sends on a connection on which the given reads arrive. A connection that
wants to be closed is not written to any more, and not read from again. -/
def serve (reads : List ReadResult) : Peer α → Bytes × Peer α := fun (conn, c) =>
  if conn.wantClose then ([], conn, c)
  else
    match conn.handleReads reads with
    | .error _ => ([], { conn with wantClose := true }, c)
    | .ok (payloads, conn) =>
      let (conn, c) := reply json text env payloads conn c
      if conn.wantClose then ([], conn, c)
      else
        match conn.handleWrite (.accepted conn.outgoing.length) with
        | none => ([], conn, c)
        | some written => (conn.outgoing, written, c)

/-- `_request`; `deliver` is how the network cuts the bytes into the server's reads. -/
def request (deliver : Bytes → List ReadResult) (tokens : List Text) (peer : Peer α) :
    Except Raised RespResult × Peer α :=
  let payload := RespSerializer.serializeToBulkString tokens
  -- `struct.pack("!I", ...)` takes 32 bits
  if 2 ^ 32 ≤ payload.length then (.error .structError, peer)
  else
    let (stream, peer) :=
      serve json text env (deliver (htonl (.ofNat payload.length) ++ payload)) peer
    (readReply stream, peer)

def requestStr (deliver : Bytes → List ReadResult) (tokens : List Text) (peer : Peer α) :
    Except Raised Text × Peer α :=
  match request json text env deliver tokens peer with
  | (.error e, peer) => (.error e, peer)
  | (.ok (.str s), peer) => (.ok s, peer)
  | (.ok result, peer) =>
    (.error (.valueError ("Expected str response, got ".toList ++ result.typeName)), peer)

def requestOptionalStr (deliver : Bytes → List ReadResult) (tokens : List Text) (peer : Peer α) :
    Except Raised (Option Text) × Peer α :=
  match request json text env deliver tokens peer with
  | (.error e, peer) => (.error e, peer)
  | (.ok .none, peer) => (.ok none, peer)
  | (.ok (.str s), peer) => (.ok (some s), peer)
  | (.ok result, peer) =>
    (.error (.valueError ("Expected str or null response, got ".toList ++ result.typeName)), peer)

def setTokens (key value : Text) (ttlMs : Option ℤ) : List Text :=
  match ttlMs with
  | none => ["SET".toList, key, value]
  | some ttlMs => ["SET".toList, key, value, "EX".toList, numeral ttlMs]

def set (deliver : Bytes → List ReadResult) (key value : Text) (ttlMs : Option ℤ) (peer : Peer α) :
    Except Raised Text × Peer α :=
  requestStr json text env deliver (setTokens key value ttlMs) peer

def get (deliver : Bytes → List ReadResult) (key : Text) (peer : Peer α) :
    Except Raised (Option Text) × Peer α :=
  requestOptionalStr json text env deliver ["GET".toList, key] peer

end

theorem set_ready {α : Type} (json : JsonLib) {c : ChronoCache α} (hl : c.LoggerReady)
    (ha : c.isAcceptingOps = true) (env : Env) {key value : Bytes}
    (hkey : validUtf8 key = true) (hvalue : validUtf8 value = true) :
    (c.set json env key value none).1 = .ok true ∧
      (c.set json env key value none).2.isAcceptingOps = true ∧
      (c.set json env key value none).2.hashMap key = some (.make value none (env.clock 0)) := by
  have hrun : (Op.set key value none).run json env c =
    ((c.set json env key value none).1.map .flag, (c.set json env key value none).2) := rfl
  have hresult := Op.run_result ha hl json env (.set key value none)
  have hmap := Op.run_hashMap ha json env (.set key value none)
  have hstate := (Op.run_config json env (.set key value none) c).1
  rw [hrun] at hresult hmap hstate
  refine ⟨?_, ?_, ?_⟩
  · have hanswer : c.logAnswer json key
        (some ⟨.set, value, (none : Option ℤ).getD (-1), env.clock 1⟩) = .ok () := by
      rw [logAnswer]
      split_ifs
      · rw [JsonLib.dumpStrings, (json.typeError_eq_none key).mpr hkey]
        dsimp only
        rw [(json.typeError_eq_none value).mpr hvalue]
      · rfl
    change _ = (c.logAnswer json key
      (some ⟨.set, value, (none : Option ℤ).getD (-1), env.clock 1⟩)).bind _ at hresult
    rw [hanswer] at hresult
    cases hx : (c.set json env key value none).1 with
    | error e => simp [hx, Except.map, Except.bind, Op.outcome] at hresult
    | ok b =>
      rw [hx] at hresult
      obtain rfl : b = true := by simpa [Except.map, Except.bind, Op.outcome] using hresult
      rfl
  · rw [isAcceptingOps, hstate]
    exact ha
  · rw [hmap]
    exact Function.update_self _ _ _

/-- The reads deliver the bytes, in whatever chunks. -/
def Cuts (deliver : Bytes → List ReadResult) : Prop :=
  ∀ b, (deliver b).flatMap ReadResult.bytes = b ∧ ∀ r ∈ deliver b, r.Delivers

section
variable {α : Type} [LinearOrder α] {json : JsonLib} {text : DoubleText α} {env : CommandEnv}
  {deliver : Bytes → List ReadResult} (hdeliver : Cuts deliver) {c c' : ChronoCache α}

theorem recvResponse_frame {data : Bytes} (h : data.length < 2 ^ 32) :
    recvResponse (frame data) = .ok data := by
  have hlen : (ntohl (frame data)).toNat = data.length := by
    rw [frame, ntohl_htonl]
    exact Nat.mod_eq_of_lt h
  have hdrop : (frame data).drop 4 = data := List.drop_left' rfl
  rw [recvResponse, hlen, hdrop, if_neg (by simp), if_neg (Nat.lt_irrefl _), List.take_length]

include hdeliver

/-- A request that fits is answered, and the connection is then as it was. -/
theorem serve_frame {payload response : Bytes} (hfits : Fits payload)
    (hanswer : EventLoop.answer json text env payload c = (.ok response, c')) :
    serve json text env (deliver (frame payload)) (accepted, c) = (frame response, accepted, c') := by
  obtain ⟨hbytes, hreads⟩ := hdeliver (frame payload)
  obtain ⟨payloads, rest, hfront, hread⟩ := settled_accepted.handleReads hreads
  rw [hbytes] at hfront
  have hone : Front frame Fits (frame payload ++ []) [payload] [] :=
    Front.cons hfits (Front.stuck (noFrame_of_short (by decide)))
  rw [List.append_nil] at hone
  obtain ⟨rfl, rfl⟩ := hfront.unique prefixFree_frame hone
  have hread' : accepted.handleReads (deliver (frame payload)) = .ok ([payload], accepted) := hread
  have hwrite : (accepted.enqueueResponse response).handleWrite
      (.accepted (accepted.enqueueResponse response).outgoing.length) = some accepted := by
    simp [handleWrite, enqueueResponse, accepted, frame, htonl]
  simp only [serve, hread', reply, hanswer, hwrite]
  rfl

theorem serve_oversized {payload : Bytes} (hfits : ¬ Fits payload) (hsize : payload.length < 2 ^ 32) :
    (serve json text env (deliver (frame payload)) (accepted, c)).1 = [] := by
  obtain ⟨hbytes, hreads⟩ := hdeliver (frame payload)
  obtain ⟨payloads, rest, hfront, hread⟩ := settled_accepted.handleReads hreads
  rw [hbytes] at hfront
  have hover : kMaxMsg < (ntohl (frame payload)).toNat := by
    rw [frame, ntohl_htonl]
    change kMaxMsg < payload.length % 2 ^ 32
    rw [Nat.mod_eq_of_lt hsize]
    exact Nat.not_le.mp hfits
  obtain ⟨rfl, -⟩ := hfront.unique prefixFree_frame (Front.stuck (noFrame_of_oversized hover))
  rw [serve, hread, if_neg (by decide)]
  by_cases hclose : Oversized rest
  · simp [reply, hclose]
  · simp [reply, hclose, handleWrite, accepted]

omit hdeliver

theorem readReply_frame {response : Bytes} (h : response.length < 2 ^ 32) {value : Option RespValue}
    (hparse : RespParser.parse response = some value) :
    readReply (frame response) = getValueFromRespValue value := by
  rw [readReply, recvResponse_frame h]
  dsimp only
  rw [hparse]

include hdeliver in
theorem request_answer {tokens : List Text}
    (hfits : Fits (RespSerializer.serializeToBulkString tokens)) {response : Bytes}
    (hanswer : EventLoop.answer json text env
      (RespSerializer.serializeToBulkString tokens) c = (.ok response, c')) :
    request json text env deliver tokens (accepted, c) =
      (readReply (frame response), accepted, c') := by
  have hsize : ¬ 2 ^ 32 ≤ (RespSerializer.serializeToBulkString tokens).length := by
    have hmax : (RespSerializer.serializeToBulkString tokens).length ≤ 2 ^ 25 := hfits
    omega
  have hserve := serve_frame hdeliver hfits hanswer
  rw [frame] at hserve
  rw [request]
  simp only [if_neg hsize, hserve]

include hdeliver in
theorem request_oversized {tokens : List Text}
    (hfits : ¬ Fits (RespSerializer.serializeToBulkString tokens)) :
    ∃ e, (request json text env deliver tokens (accepted, c)).1 = .error e := by
  by_cases hsize : 2 ^ 32 ≤ (RespSerializer.serializeToBulkString tokens).length
  · refine ⟨.structError, ?_⟩
    rw [request]
    simp only [if_pos hsize]
  · refine ⟨.eofError, ?_⟩
    have hserve : (serve json text env
        (deliver (frame (RespSerializer.serializeToBulkString tokens))) (accepted, c)).1 = [] :=
      serve_oversized hdeliver hfits (Nat.not_le.mp hsize)
    rw [frame] at hserve
    rw [request]
    simp only [if_neg hsize, hserve]
    rfl

/-! ## `set`, then `get` -/

theorem answer_words {words : List Bytes} (hfits : Fits (RespSerializer.array words)) :
    EventLoop.answer (α := α) json text env (RespSerializer.array words) =
      EventLoop.respond json text env (some (.command words)) := by
  have hmax : (RespSerializer.array words).length ≤ 2 ^ 25 := hfits
  have hcount := words_le_array words
  have hread : Encodes (RespSerializer.array words) (.command words) := by
    apply encodes_command
    · omega
    · intro w hw
      have := word_le_array hw
      omega
  have hparse := hread.parse_append []
  rw [List.append_nil] at hparse
  unfold EventLoop.answer
  rw [hparse]

/-- On a new connection the call returns, and the next one reads the value back. -/
def SetThenGet (json : JsonLib) (text : DoubleText α) (env env' : CommandEnv)
    (deliver : Bytes → List ReadResult) (key value : Text) (c : ChronoCache α) : Prop :=
  (set json text env deliver key value none (accepted, c)).1 = .ok "OK".toList ∧
    (get json text env' deliver key (set json text env deliver key value none (accepted, c)).2).1 =
      .ok (some value)

theorem setTokens_array (key value : Text) :
    RespSerializer.serializeToBulkString (setTokens key value none) =
    RespSerializer.array [lit "SET", encode key, encode value] :=
  serializeToBulkString_eq (setTokens key value none)

theorem getTokens_array (key : Text) : RespSerializer.serializeToBulkString ["GET".toList, key] =
    RespSerializer.array [lit "GET", encode key] :=
  serializeToBulkString_eq ["GET".toList, key]

theorem fits_get {key value : Bytes} (h : Fits (RespSerializer.array [lit "SET", key, value])) :
    Fits (RespSerializer.array [lit "GET", key]) := by
  have hheader : (lit "*" ++ RespSerializer.decimal (2 : ℕ) ++ RespSerializer.crlf).length =
      (lit "*" ++ RespSerializer.decimal (3 : ℕ) ++ RespSerializer.crlf).length := by decide
  have hname : (RespSerializer.bulkString (lit "GET")).length =
      (RespSerializer.bulkString (lit "SET")).length := by
    decide
  have hlen : (RespSerializer.array [lit "GET", key]).length ≤
      (RespSerializer.array [lit "SET", key, value]).length := by
    calc (RespSerializer.array [lit "GET", key]).length
        = (lit "*" ++ RespSerializer.decimal (2 : ℕ) ++ RespSerializer.crlf).length +
            ((RespSerializer.bulkString (lit "GET")).length +
              (RespSerializer.bulkString key).length) := by
          rw [← List.length_append, ← List.length_append]
          simp [RespSerializer.array]
      _ ≤ (lit "*" ++ RespSerializer.decimal (3 : ℕ) ++ RespSerializer.crlf).length +
            ((RespSerializer.bulkString (lit "SET")).length +
              ((RespSerializer.bulkString key).length +
              (RespSerializer.bulkString value).length)) := by omega
      _ = (RespSerializer.array [lit "SET", key, value]).length := by
          rw [← List.length_append, ← List.length_append, ← List.length_append]
          simp [RespSerializer.array]
  exact Nat.le_trans hlen h

variable (json text) in
theorem answer_set (hl : c.LoggerReady) (ha : c.isAcceptingOps = true) (env : CommandEnv)
    (key value : Text)
    (hfits : Fits (RespSerializer.serializeToBulkString (setTokens key value none))) :
    ∃ c' : ChronoCache α,
      EventLoop.answer json text env
        (RespSerializer.serializeToBulkString (setTokens key value none)) c =
        (.ok RespSerializer.ok, c') ∧ c'.isAcceptingOps = true ∧
      c'.hashMap (encode key) = some (.make (encode value) none ((env.calls 0).clock 0)) := by
  obtain ⟨hset, haccepting, hentry⟩ :=
    set_ready json hl ha (env.calls 0) (validUtf8_encode key) (validUtf8_encode value)
  refine ⟨(c.set json (env.calls 0) (encode key) (encode value) none).2, ?_, haccepting, hentry⟩
  rw [setTokens_array] at hfits ⊢
  rw [answer_words hfits]
  have hexec : execute json text env (.command [lit "SET", encode key, encode value]) c =
      call (ChronoCache.set json (env.calls 0) (encode key) (encode value) none)
        (fun _ => RespSerializer.ok) c := rfl
  rw [EventLoop.respond]
  dsimp only
  rw [hexec, call, hset]
  rfl

variable (json text) in
theorem answer_get (ha : c.isAcceptingOps = true) (env : CommandEnv) (key : Text) {value : Bytes}
    {now : ℕ} (hentry : c.hashMap (encode key) = some (.make value none now))
    (hfits : Fits (RespSerializer.serializeToBulkString ["GET".toList, key])) :
    (EventLoop.answer json text env (RespSerializer.serializeToBulkString ["GET".toList, key]) c).1 =
      .ok (RespSerializer.bulkString value) := by
  have hget := Op.run_get ha json (env.calls 0) (encode key)
  have hrun : (Op.get (encode key)).run json (env.calls 0) c =
    ((c.get (env.calls 0) (encode key)).1.map .value, (c.get (env.calls 0) (encode key)).2) := rfl
  have hlive : (CacheEntry.make value none now).isExpired ((env.calls 0).clock 0) = false := rfl
  rw [hrun, hentry, Option.filter_some, hlive] at hget
  rw [getTokens_array] at hfits ⊢
  rw [answer_words hfits]
  have hexec : execute json text env (.command [lit "GET", encode key]) c =
      call (ChronoCache.get (env.calls 0) (encode key)) bulkOrNull c := rfl
  rw [EventLoop.respond]
  dsimp only
  rw [hexec, call]
  cases hx : (c.get (env.calls 0) (encode key)).1 with
  | error e => simp [hx, Except.map] at hget
  | ok r =>
    rw [hx] at hget
    obtain rfl : r = some value := by simpa [Except.map, CacheEntry.make] using hget
    rfl

theorem parse_ok : RespParser.parse RespSerializer.ok =
    some (some (.simpleString "OK".toList 5)) := by
  have htext : RespSerializer.ok = encode "+OK\r\n".toList := rfl
  rw [htext, RespParser.parse_encode]
  rfl

theorem short_of_fits {key value : Text}
    (hfits : Fits (RespSerializer.serializeToBulkString (setTokens key value none))) :
    (RespSerializer.bulkString (encode value)).length < 2 ^ 32 ∧
      (encode value).length < 10 ^ maxStrDigits := by
  rw [setTokens_array] at hfits
  have hmax : (RespSerializer.array [lit "SET", encode key, encode value]).length ≤ 2 ^ 25 := hfits
  have hmem : encode value ∈ [lit "SET", encode key, encode value] := by simp
  have hbulk := bulkString_le_array hmem
  have hword := word_le_array hmem
  have hpow : 10 ^ 8 ≤ 10 ^ maxStrDigits := Nat.pow_le_pow_right (by decide) (by decide)
  omega

variable (json text) in
theorem get_after_set (hdeliver : Cuts deliver) (hl : c.LoggerReady) (ha : c.isAcceptingOps = true)
    (env env' : CommandEnv) {key value : Text}
    (hfits : Fits (RespSerializer.serializeToBulkString (setTokens key value none))) :
    (set json text env deliver key value none (accepted, c)).1 = .ok "OK".toList ∧
      (get json text env' deliver key (set json text env deliver key value none (accepted, c)).2).1 =
        if Ascii value then .ok (some value)
        else .error (.valueError "Invalid response from server".toList) := by
  obtain ⟨c', hanswer, ha', hentry⟩ := answer_set json text hl ha env key value hfits
  have hset : set json text env deliver key value none (accepted, c) =
      (.ok "OK".toList, accepted, c') := by
    rw [set, requestStr, request_answer hdeliver hfits hanswer, readReply_frame (by decide) parse_ok]
    rfl
  have hfitsGet : Fits (RespSerializer.serializeToBulkString ["GET".toList, key]) := by
    rw [setTokens_array] at hfits
    rw [getTokens_array]
    exact fits_get hfits
  obtain ⟨hreply, hint⟩ := short_of_fits hfits
  have hanswer' := answer_get json text ha' env' key hentry hfitsGet
  rw [hset]
  refine ⟨rfl, ?_⟩
  rw [get, requestOptionalStr, request_answer hdeliver hfitsGet (Prod.ext hanswer' rfl),
    readReply_frame hreply (RespParser.parse_bulkString hint)]
  by_cases hascii : Ascii value
  · rw [if_pos hascii, if_pos hascii]
    rfl
  · rw [if_neg hascii, if_neg hascii]
    rfl

theorem fits_of_setThenGet (hdeliver : Cuts deliver) {env env' : CommandEnv} {key value : Text}
    (h : SetThenGet json text env env' deliver key value c) :
    Fits (RespSerializer.serializeToBulkString (setTokens key value none)) := by
  by_contra hfits
  have hraised : ∃ e, (request json text env deliver (setTokens key value none)
      (accepted, c)).1 = .error e :=
    request_oversized hdeliver hfits
  obtain ⟨e, he⟩ := hraised
  have hset := h.1
  rw [set, requestStr] at hset
  rcases hx : request json text env deliver (setTokens key value none) (accepted, c) with ⟨r, peer⟩
  rw [hx] at he hset
  obtain rfl : r = .error e := he
  cases hset

/-- The client reads back what the server wrote, and its own values from a `READY` cache,
exactly for ASCII strings in requests that fit. Measured in bytes, the errors have to be
ASCII, too. -/
theorem read_back_iff (hc : Reachable json text c) (hready : c.state = .ready) (env env' : CommandEnv)
    (hdeliver : Cuts deliver) (k s e : Text) {n : ℤ} (hn : -2 ^ 63 ≤ n ∧ n < 2 ^ 63)
    (he : RespParser.findCrlf e = none) :
    (ReadsBack List.length s n e ∧ SetThenGet json text env env' deliver k s c ↔
      Ascii s ∧ Ascii e ∧ Fits (RespSerializer.serializeToBulkString (setTokens k s none))) ∧
    (ReadsBack characters s n e ∧ SetThenGet json text env env' deliver k s c ↔
      Ascii s ∧ Fits (RespSerializer.serializeToBulkString (setTokens k s none))) := by
  have hint : n.natAbs < 10 ^ maxStrDigits := by
    have hpow : 10 ^ 19 ≤ 10 ^ maxStrDigits := Nat.pow_le_pow_right (by decide) (by decide)
    omega
  have ha : c.isAcceptingOps = true := by simp [isAcceptingOps, hready]
  have hget (hascii : Ascii s)
      (hfits : Fits (RespSerializer.serializeToBulkString (setTokens k s none))) :
      SetThenGet json text env env' deliver k s c := by
    have h := get_after_set json text hdeliver hc.configured.loggerReady ha env env' hfits
    rwa [if_pos hascii] at h
  constructor
  · constructor
    · rintro ⟨hread, hset⟩
      have hfits := fits_of_setThenGet hdeliver hset
      obtain ⟨hs, he'⟩ := (readsBack_bytes (short_of_fits hfits).2 hint he).mp hread
      exact ⟨hs, he', hfits⟩
    · rintro ⟨hs, he', hfits⟩
      exact ⟨(readsBack_bytes (short_of_fits hfits).2 hint he).mpr ⟨hs, he'⟩, hget hs hfits⟩
  · constructor
    · rintro ⟨hread, hset⟩
      have hfits := fits_of_setThenGet hdeliver hset
      exact ⟨(readsBack_characters (short_of_fits hfits).2 hint he).mp hread, hfits⟩
    · rintro ⟨hs, hfits⟩
      exact ⟨(readsBack_characters (short_of_fits hfits).2 hint he).mpr hs, hget hs hfits⟩

end

def afterInit : ChronoCache ℤ :=
  (EventLoop.answer JsonLib.reference noDoubles quietEnv (RespSerializer.array [lit "INIT"])
    (create false [])).2

theorem reachable_afterInit : Reachable JsonLib.reference noDoubles afterInit :=
  .request (.create false []) quietEnv consumes_quietEnv _ (by unfold Fits; decide)

def atOnce : Bytes → List ReadResult
  | [] => []
  | head :: tail => [.data head tail]

theorem cuts_atOnce : Cuts atOnce := by
  intro b
  cases b with
  | nil => exact ⟨rfl, by simp [atOnce]⟩
  | cons head tail =>
    exact ⟨by simp [atOnce, ReadResult.bytes], by simp [atOnce, ReadResult.Delivers]⟩

/-- An ASCII value with a terminator in it. -/
theorem read_back_witness :
    ReadsBack List.length "a\r\nb".toList (-7) "ERR".toList ∧
      SetThenGet JsonLib.reference noDoubles quietEnv quietEnv atOnce "k".toList "a\r\nb".toList
        afterInit := by
  refine (read_back_iff reachable_afterInit rfl quietEnv quietEnv cuts_atOnce _ _ _ (by decide)
    (by decide)).1.mpr ?_
  refine ⟨by decide, by decide, ?_⟩
  unfold Fits
  decide

/-- The reply with `é` in it is not read at all, and `get` raises after `set`. -/
theorem read_back_counterexample :
    let s : Text := ['é']
    RespParser.parse (RespSerializer.bulkString (encode s)) = some none ∧
      Reachable JsonLib.reference noDoubles afterInit ∧
      (set JsonLib.reference noDoubles quietEnv atOnce "k".toList s none (accepted, afterInit)).1 =
        .ok "OK".toList ∧
      (get JsonLib.reference noDoubles quietEnv atOnce "k".toList
        (set JsonLib.reference noDoubles quietEnv atOnce "k".toList s none
          (accepted, afterInit)).2).1 =
          .error (.valueError "Invalid response from server".toList) := by
  have hfits : Fits (RespSerializer.serializeToBulkString (setTokens "k".toList ['é'] none)) := by
    unfold Fits
    decide
  have hascii : ¬ Ascii ['é'] := by decide
  have hparse := RespParser.parse_bulkString (short_of_fits hfits).2
  obtain ⟨hset, hget⟩ := get_after_set JsonLib.reference noDoubles cuts_atOnce
    reachable_afterInit.configured.loggerReady rfl quietEnv quietEnv hfits
  rw [if_neg hascii] at hparse hget
  exact ⟨hparse, reachable_afterInit, hset, hget⟩

end Chrono.Client
