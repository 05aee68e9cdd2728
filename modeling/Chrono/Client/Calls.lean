import Chrono.Client.Replies
import Chrono.Server.Conversions
import Chrono.Server.SingleReply

/-!
# The client's calls

A call sends one command and gives the reply a type. `perform` states what the same call
does to the cache, with no text, frame or connection between them.
-/
namespace Chrono.Client
open ChronoCache CommandHandler Connection Library Library.Framing

/-- `str(score)` and `float(result)` -/
structure FloatText (α : Type) where
  str : Score α → Text
  float : Text → Except Raised (Score α)

inductive Call (α : Type) where
  | ping (message : Option Text)
  | init (withReplay : Bool)
  | get (key : Text)
  | set (key value : Text) (ttlMs : Option ℤ)
  | delete (keys : List Text)
  | expire (key : Text) (ttlMs : ℤ)
  | persist (key : Text)
  | pttl (key : Text)
  | zadd (key : Text) (score : Score α) (member : Text)
  | zscore (key member : Text)
  | zrem (key member : Text)
  | zrank (key member : Text)

inductive Returned (α : Type) where
  | str (s : Text)
  | optionalStr (s : Option Text)
  | int (n : ℤ)
  | optionalInt (n : Option ℤ)
  | optionalFloat (x : Option (Score α))

namespace Call
variable {α : Type} (py : FloatText α)

def tokens : Call α → List Text
  | ping none => ["PING".toList]
  | ping (some message) => ["PING".toList, message]
  | init withReplay => ["INIT".toList, if withReplay then "true".toList else "false".toList]
  | get key => ["GET".toList, key]
  | set key value ttlMs => setTokens key value ttlMs
  | delete keys => "DEL".toList :: keys
  | expire key ttlMs => ["EXPIRE".toList, key, numeral ttlMs]
  | persist key => ["PERSIST".toList, key]
  | pttl key => ["PTTL".toList, key]
  | zadd key score member => ["ZADD".toList, key, py.str score, member]
  | zscore key member => ["ZSCORE".toList, key, member]
  | zrem key member => ["ZREM".toList, key, member]
  | zrank key member => ["ZRANK".toList, key, member]

end Call

section
variable {α : Type} [LinearOrder α] (json : JsonLib) (text : DoubleText α) (py : FloatText α)
  (env : CommandEnv)
  (deliver : Bytes → List ReadResult)

def requestInt (tokens : List Text) (peer : Peer α) : Except Raised ℤ × Peer α :=
  match request json text env deliver tokens peer with
  | (.error e, peer) => (.error e, peer)
  | (.ok (.int n), peer) => (.ok n, peer)
  | (.ok result, peer) =>
    (.error (.valueError ("Expected int response, got ".toList ++ result.typeName)), peer)

def requestOptionalInt (tokens : List Text) (peer : Peer α) : Except Raised (Option ℤ) × Peer α :=
  match request json text env deliver tokens peer with
  | (.error e, peer) => (.error e, peer)
  | (.ok .none, peer) => (.ok none, peer)
  | (.ok (.int n), peer) => (.ok (some n), peer)
  | (.ok result, peer) =>
    (.error (.valueError ("Expected int or null response, got ".toList ++ result.typeName)), peer)

def ping (message : Option Text) (peer : Peer α) : Except Raised Text × Peer α :=
  requestStr json text env deliver
    (match message with
      | none => ["PING".toList]
      | some message => ["PING".toList, message]) peer

def init (withReplay : Bool) (peer : Peer α) : Except Raised Text × Peer α :=
  requestStr json text env deliver
    ["INIT".toList, if withReplay then "true".toList else "false".toList] peer

def delete (keys : List Text) (peer : Peer α) : Except Raised ℤ × Peer α :=
  if keys.isEmpty then (.error (.valueError "delete() requires at least one key".toList), peer)
  else requestInt json text env deliver ("DEL".toList :: keys) peer

def expire (key : Text) (ttlMs : ℤ) (peer : Peer α) : Except Raised ℤ × Peer α :=
  requestInt json text env deliver ["EXPIRE".toList, key, numeral ttlMs] peer

def persist (key : Text) (peer : Peer α) : Except Raised ℤ × Peer α :=
  requestInt json text env deliver ["PERSIST".toList, key] peer

def pttl (key : Text) (peer : Peer α) : Except Raised ℤ × Peer α :=
  requestInt json text env deliver ["PTTL".toList, key] peer

def zadd (key : Text) (score : Score α) (member : Text) (peer : Peer α) : Except Raised ℤ × Peer α :=
  requestInt json text env deliver ["ZADD".toList, key, py.str score, member] peer

/-- `float(result) if result is not None else None` -/
def optionalFloat : Option Text → Except Raised (Option (Score α))
  | none => .ok none
  | some result => (py.float result).map some

def zscore (key member : Text) (peer : Peer α) : Except Raised (Option (Score α)) × Peer α :=
  let (result, peer) := requestOptionalStr json text env deliver ["ZSCORE".toList, key, member] peer
  (result.bind (optionalFloat py), peer)

def zrem (key member : Text) (peer : Peer α) : Except Raised ℤ × Peer α :=
  requestInt json text env deliver ["ZREM".toList, key, member] peer

def zrank (key member : Text) (peer : Peer α) : Except Raised (Option ℤ) × Peer α :=
  requestOptionalInt json text env deliver ["ZRANK".toList, key, member] peer

def Call.run (call : Call α) (peer : Peer α) : Except Raised (Returned α) × Peer α :=
  let returns {β : Type} (inj : β → Returned α) (r : Except Raised β × Peer α) := (r.1.map inj, r.2)
  match call with
  | .ping message => returns .str (Client.ping json text env deliver message peer)
  | .init withReplay => returns .str (Client.init json text env deliver withReplay peer)
  | .get key => returns .optionalStr (Client.get json text env deliver key peer)
  | .set key value ttlMs => returns .str (Client.set json text env deliver key value ttlMs peer)
  | .delete keys => returns .int (Client.delete json text env deliver keys peer)
  | .expire key ttlMs => returns .int (Client.expire json text env deliver key ttlMs peer)
  | .persist key => returns .int (Client.persist json text env deliver key peer)
  | .pttl key => returns .int (Client.pttl json text env deliver key peer)
  | .zadd key score member =>
    returns .int (Client.zadd json text py env deliver key score member peer)
  | .zscore key member =>
    returns .optionalFloat (Client.zscore json text py env deliver key member peer)
  | .zrem key member => returns .int (Client.zrem json text env deliver key member peer)
  | .zrank key member => returns .optionalInt (Client.zrank json text env deliver key member peer)

end

/-! ## The same calls on the cache -/

section
variable {α : Type} {ρ β γ : Type}

/-- An operation of the cache as the client sees it: a result is a value, or is one that raises;
an exception raises with its text. -/
def caught (f : Action (ChronoCache α) ρ) (value : ρ → Except Raised β) :
    ChronoCache α → Except Raised β × ChronoCache α := fun c =>
  match f c with
  | (.error (.exception what), c) => (.error (raised (lit "ERR " ++ what)), c)
  | (.error .undefined, c) => (.error .eofError, c)
  | (.ok result, c) => (value result, c)

def onCache (f : Action (ChronoCache α) ρ) (wrap : β → γ) (value : ρ → Except Raised β) :
    ChronoCache α → Except Raised γ × ChronoCache α := fun c =>
  ((caught f value c).1.map wrap, (caught f value c).2)

/-- A time to live that the server accepts, and the operation that has it. -/
def withTtl (command : String) (ttlMs : ℤ) (f : Action (ChronoCache α) ρ) :
    Action (ChronoCache α) ρ := fun c =>
  if ¬ InInt64 ttlMs then (.error (.exception (lit "stoll")), c)
  else if ttlMs ≤ 0 then
    (.error (.exception (lit ("invalid expire time in '" ++ command ++ "' command"))), c)
  else f c

/-- The number of keys that were there; a fault ends the deletions. -/
def deleteAll (json : JsonLib) (env : CommandEnv) : ℕ → List Text → Action (ChronoCache α) ℤ
  | _, [] => fun c => (.ok 0, c)
  | i, key :: keys => fun c =>
    match ChronoCache.del json (env.calls i) (encode key) c with
    | (.error e, c) => (.error e, c)
    | (.ok removed, c) =>
      let (result, c) := deleteAll json env (i + 1) keys c
      (result.map ((if removed then 1 else 0) + ·), c)

def receivedOrNone : Option Bytes → Except Raised (Option Text)
  | none => .ok none
  | some s => (received s).map some

def initialized (success : Bool) : Except Raised Text :=
  if success then .ok "OK".toList else .error (raised (lit "ERR replay failed"))

def flagInt (b : Bool) : Except Raised ℤ := .ok (if b then 1 else 0)

variable [LinearOrder α] (json : JsonLib) (text : DoubleText α) (py : FloatText α) (env : CommandEnv)

/-- A score that the server reads, and the operation that has it. -/
def withScore (score : Text) (f : Score α → Action (ChronoCache α) ρ) :
    Action (ChronoCache α) ρ := fun c =>
  match text.stod (encode score) with
  | .error e => (.error e, c)
  | .ok score => f score c

/-- What a call does to the cache, and what it returns or raises. -/
def Call.perform : Call α → ChronoCache α → Except Raised (Returned α) × ChronoCache α
  | .ping none => fun c => (.ok (.str "PONG".toList), c)
  | .ping (some message) => fun c => ((received (encode message)).map .str, c)
  | .init withReplay =>
    onCache (ChronoCache.init json withReplay env.consumed (env.calls 0).clock) .str initialized
  | .get key => onCache (ChronoCache.get (env.calls 0) (encode key)) .optionalStr receivedOrNone
  | .set key value none =>
    onCache (ChronoCache.set json (env.calls 0) (encode key) (encode value) none) .str fun _ =>
      .ok "OK".toList
  | .set key value (some ttlMs) =>
    onCache (withTtl "SET" ttlMs
      (ChronoCache.set json (env.calls 0) (encode key) (encode value) (some ttlMs)))
      .str fun _ => .ok "OK".toList
  | .delete [] => fun c => (.error (.valueError "delete() requires at least one key".toList), c)
  | .delete (key :: keys) => onCache (deleteAll json env 0 (key :: keys)) .int .ok
  | .expire key ttlMs =>
    onCache (withTtl "EXPIRE" ttlMs
      (ChronoCache.expire json (env.calls 0) (encode key) ttlMs)) .int flagInt
  | .persist key => onCache (ChronoCache.persist json (env.calls 0) (encode key)) .int flagInt
  | .pttl key => onCache (ChronoCache.pttl (env.calls 0) (encode key)) .int .ok
  | .zadd key score member =>
    onCache (withScore text (py.str score) fun score =>
      ChronoCache.zadd (encode key) score (encode member)) .int flagInt
  | .zscore key member =>
    onCache (fun c => (c.zscore (encode key) (encode member), c)) .optionalFloat fun score =>
      (receivedOrNone (score.map text.toText)).bind (optionalFloat py)
  | .zrem key member => onCache (ChronoCache.zrem (encode key) (encode member)) .int flagInt
  | .zrank key member =>
    onCache (fun c => (c.zrank (encode key) (encode member), c)) .optionalInt fun rank =>
      .ok (rank.map fun n : ℕ => (n : ℤ))

end

end Chrono.Client
