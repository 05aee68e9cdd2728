import Chrono.Server.Resp
import Chrono.Cache.Replay

/-!
# Command handler

Every command checks its arguments, calls the cache and serializes the result.
An exception of the cache or of a conversion leaves the handler.
-/
namespace Chrono
open ChronoCache

/-- `::toupper` in the C locale. -/
def toUpper (s : Bytes) : Bytes := s.map (fun b => if 0x61 ≤ b ∧ b ≤ 0x7A then b - 0x20 else b)

def isSpace (b : UInt8) : Bool := b == 0x20 || (0x09 ≤ b && b ≤ 0x0D)

def isDigit (b : UInt8) : Bool := 0x30 ≤ b && b ≤ 0x39

/-- `std::stoll`: leading white space, a sign, and as many digits as follow. -/
def stoll (s : Bytes) : Except Fault ℤ :=
  let t := s.dropWhile isSpace
  let negative := t.head? == some 0x2D
  let u := if negative || t.head? == some 0x2B then t.tail else t
  let digits := u.takeWhile isDigit
  let magnitude : ℤ := digits.foldl (fun n d => n * 10 + (d.toNat - 0x30)) 0
  let n := if negative then -magnitude else magnitude
  if digits = [] then .error (.exception (lit "stoll"))
  else if -2 ^ 63 ≤ n ∧ n < 2 ^ 63 then .ok n
  else .error (.exception (lit "stoll"))

structure DoubleText (α : Type) where
  stod : Bytes → Except Fault (Score α)
  toText : Score α → Bytes

/-- What the environment decides about one command: for each call of the cache
in turn, and for the consumer of an `INIT`. -/
structure CommandEnv where
  calls : ℕ → Env
  consumed : Except Fault (List CacheEvent)

namespace CommandHandler
variable {α : Type} [LinearOrder α]
variable (json : JsonLib) (text : DoubleText α) (env : CommandEnv)

abbrev Handler (α : Type) := List RespValue → Action (ChronoCache α) Bytes

/-- A reply that leaves the cache alone. -/
def answer (reply : Bytes) : Action (ChronoCache α) Bytes := fun c => (.ok reply, c)

def wrongNumber (name : String) : Action (ChronoCache α) Bytes :=
  answer (RespSerializer.error (lit ("ERR wrong number of arguments for '" ++ name ++ "' command")))

/-- A call of the cache, its result serialized. -/
def call {ρ : Type} (f : Action (ChronoCache α) ρ) (serialize : ρ → Bytes) :
    Action (ChronoCache α) Bytes := fun c => ((f c).1.map serialize, (f c).2)

def flag (b : Bool) : Bytes := RespSerializer.integer (if b then 1 else 0)

def bulkOrNull : Option Bytes → Bytes
  | none => RespSerializer.nullBulk
  | some s => RespSerializer.bulkString s

def cmdInit : Handler α := fun args =>
  let init (withReplay : Bool) : Action (ChronoCache α) Bytes :=
    call (ChronoCache.init json withReplay env.consumed (env.calls 0).clock) (fun result =>
      if result then RespSerializer.ok else RespSerializer.error (lit "ERR replay failed"))
  match args with
  | [] => init false
  | [arg] =>
    if arg.strValue ≠ lit "true" ∧ arg.strValue ≠ lit "false" then
      answer (RespSerializer.error (lit "ERR invalid argument for 'INIT' command"))
    else init (arg.strValue = lit "true")
  | _ => wrongNumber "INIT"

def cmdPing : Handler α := fun args =>
  match args with
  | [] => answer (lit "+PONG\r\n")
  | arg :: _ => answer (RespSerializer.bulkString arg.strValue)

def cmdSet : Handler α := fun args =>
  let set (key value : RespValue) (ttl : Option ℤ) : Action (ChronoCache α) Bytes :=
    call (ChronoCache.set json (env.calls 0) key.strValue value.strValue ttl)
      (fun _ => RespSerializer.ok)
  match args with
  | [] => wrongNumber "SET"
  | [_] => wrongNumber "SET"
  | [key, value] => set key value none
  | [key, value, opt, ms] =>
    if opt.strValue ≠ lit "EX" ∧ opt.strValue ≠ lit "ex" then
      answer (RespSerializer.error (lit "ERR syntax error"))
    else match stoll ms.strValue with
      | .error e => fun c => (.error e, c)
      | .ok ms =>
        if ms ≤ 0 then answer (RespSerializer.error (lit "ERR invalid expire time in 'SET' command"))
        else set key value (some ms)
  | _ => answer (RespSerializer.error (lit "ERR syntax error"))

def cmdGet : Handler α := fun args =>
  match args with
  | [key] => call (ChronoCache.get (env.calls 0) key.strValue) bulkOrNull
  | _ => wrongNumber "GET"

/-- The loop of `cmd_del`. -/
def delLoop : ℕ → ℤ → List RespValue → Action (ChronoCache α) ℤ
  | _, count, [] => fun c => (.ok count, c)
  | i, count, arg :: args => fun c =>
    match ChronoCache.del json (env.calls i) arg.strValue c with
    | (.error e, c) => (.error e, c)
    | (.ok removed, c) => delLoop (i + 1) (if removed then count + 1 else count) args c

def cmdDel : Handler α := fun args =>
  match args with
  | [] => wrongNumber "DEL"
  | args => call (delLoop json env 0 0 args) RespSerializer.integer

def cmdExpire : Handler α := fun args =>
  match args with
  | [key, ms] =>
    match stoll ms.strValue with
    | .error e => fun c => (.error e, c)
    | .ok ms =>
      if ms ≤ 0 then answer (RespSerializer.error (lit "ERR invalid expire time in 'EXPIRE' command"))
      else call (ChronoCache.expire json (env.calls 0) key.strValue ms) flag
  | _ => wrongNumber "EXPIRE"

def cmdPersist : Handler α := fun args =>
  match args with
  | [key] => call (ChronoCache.persist json (env.calls 0) key.strValue) flag
  | _ => wrongNumber "PERSIST"

def cmdPttl : Handler α := fun args =>
  match args with
  | [key] => call (ChronoCache.pttl (env.calls 0) key.strValue) RespSerializer.integer
  | _ => wrongNumber "PTTL"

def cmdZadd : Handler α := fun args =>
  match args with
  | [key, score, member] =>
    match text.stod score.strValue with
    | .error e => fun c => (.error e, c)
    | .ok score => call (ChronoCache.zadd key.strValue score member.strValue) flag
  | _ => wrongNumber "ZADD"

def cmdZscore : Handler α := fun args =>
  match args with
  | [key, member] =>
    call (fun c => (c.zscore key.strValue member.strValue, c))
      (fun score => bulkOrNull (score.map text.toText))
  | _ => wrongNumber "ZSCORE"

def cmdZrem : Handler α := fun args =>
  match args with
  | [key, member] => call (ChronoCache.zrem key.strValue member.strValue) flag
  | _ => wrongNumber "ZREM"

def cmdZrank : Handler α := fun args =>
  match args with
  | [key, member] =>
    call (fun c => (c.zrank key.strValue member.strValue, c)) (fun rank =>
      match rank with
      | none => RespSerializer.nullBulk
      | some rank => RespSerializer.integer rank)
  | _ => wrongNumber "ZRANK"

def execute (command : RespValue) : Action (ChronoCache α) Bytes :=
  match command.type, command.array with
  | .array, head :: args =>
    let name := toUpper head.strValue
    if name = lit "INIT" then cmdInit json env args
    else if name = lit "PING" then cmdPing args
    else if name = lit "SET" then cmdSet json env args
    else if name = lit "GET" then cmdGet env args
    else if name = lit "DEL" then cmdDel json env args
    else if name = lit "EXPIRE" then cmdExpire json env args
    else if name = lit "PERSIST" then cmdPersist json env args
    else if name = lit "PTTL" then cmdPttl env args
    else if name = lit "ZADD" then cmdZadd text args
    else if name = lit "ZSCORE" then cmdZscore text args
    else if name = lit "ZREM" then cmdZrem args
    else if name = lit "ZRANK" then cmdZrank args
    else answer (RespSerializer.error (lit "ERR unknown command '" ++ head.strValue ++ lit "'"))
  | _, _ => answer (RespSerializer.error (lit "ERR invalid command format"))

end CommandHandler

/-- The part of `EventLoop::run` that answers one request: a payload that does not
parse, or a command, whose exceptions become error replies. -/
def EventLoop.respond {α : Type} [LinearOrder α] (json : JsonLib) (text : DoubleText α)
    (env : CommandEnv) (command : Option RespValue) : Action (ChronoCache α) Bytes :=
  match command with
  | none => CommandHandler.answer (RespSerializer.error (lit "ERR invalid RESP message"))
  | some command => fun c =>
    match CommandHandler.execute json text env command c with
    | (.error (.exception what), c) => (.ok (RespSerializer.error (lit "ERR " ++ what)), c)
    | r => r

/-- Conversions for commands that carry no `double`. -/
def noDoubles : DoubleText ℤ := ⟨fun _ => .error (.exception (lit "stod")), fun _ => []⟩

def quietEnv : CommandEnv := ⟨fun _ => ⟨fun _ => 0, true⟩, .ok []⟩

end Chrono
