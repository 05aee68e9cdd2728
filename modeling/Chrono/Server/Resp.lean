import Chrono.Basic

/-!
# RESP values and the serializer of replies
-/
namespace Chrono

inductive RespType where
  | simpleString
  | error
  | integer
  | bulkString
  | array
  | null
deriving DecidableEq, Repr

/-- `struct RespValue`. The count of bytes read is `none` where the source has
`kUnsetRespBytes`. -/
inductive RespValue where
  | mk (type : RespType) (strValue : Bytes) (intValue : ℤ) (array : List RespValue)
    (numRespBytes : Option ℕ) (isNull : Bool)

namespace RespValue

def type : RespValue → RespType
  | mk type _ _ _ _ _ => type

def strValue : RespValue → Bytes
  | mk _ strValue _ _ _ _ => strValue

def intValue : RespValue → ℤ
  | mk _ _ intValue _ _ _ => intValue

def array : RespValue → List RespValue
  | mk _ _ _ array _ _ => array

def numRespBytes : RespValue → Option ℕ
  | mk _ _ _ _ numRespBytes _ => numRespBytes

def isNull : RespValue → Bool
  | mk _ _ _ _ _ isNull => isNull

def simpleString (s : Bytes) (numRespBytes : ℕ) : RespValue :=
  mk .simpleString s 0 [] (some numRespBytes) false

def error (msg : Bytes) (numRespBytes : Option ℕ) : RespValue :=
  mk .error msg 0 [] numRespBytes false

def integer (n : ℤ) (numRespBytes : ℕ) : RespValue := mk .integer [] n [] (some numRespBytes) false

def bulkString (s : Bytes) (numRespBytes : ℕ) : RespValue :=
  mk .bulkString s 0 [] (some numRespBytes) false

def nullBulk (numRespBytes : ℕ) : RespValue := mk .bulkString [] 0 [] (some numRespBytes) true

def nullArray (numRespBytes : ℕ) : RespValue := mk .array [] 0 [] (some numRespBytes) true

def arrayFromParts (elements : List RespValue) (numRespBytes : ℕ) : RespValue :=
  mk .array [] 0 elements (some numRespBytes) false

end RespValue

namespace RespSerializer

def crlf : Bytes := lit "\r\n"

def decimal (n : ℤ) : Bytes := lit (toString n)

def ok : Bytes := lit "+OK" ++ crlf

def error (msg : Bytes) : Bytes := lit "-" ++ msg ++ crlf

def integer (n : ℤ) : Bytes := lit ":" ++ decimal n ++ crlf

def bulkString (s : Bytes) : Bytes := lit "$" ++ decimal s.length ++ crlf ++ s ++ crlf

def nullBulk : Bytes := lit "$-1" ++ crlf

def array (items : List Bytes) : Bytes :=
  lit "*" ++ decimal items.length ++ crlf ++ items.flatMap bulkString

end RespSerializer

/-- A command as clients send it, read back: an array of bulk strings. -/
def RespValue.command (words : List Bytes) : RespValue :=
  arrayFromParts (words.map (fun s => bulkString s (RespSerializer.bulkString s).length))
    (RespSerializer.array words).length

/-- A reply that clients read as an error. -/
def isErrorReply (reply : Bytes) : Bool := reply.head? = some 0x2D

@[simp] theorem isErrorReply_error (msg : Bytes) :
    isErrorReply (RespSerializer.error msg) = true := rfl
@[simp] theorem isErrorReply_ok : isErrorReply RespSerializer.ok = false := rfl
@[simp] theorem isErrorReply_integer (n : ℤ) : isErrorReply (RespSerializer.integer n) = false := rfl
@[simp] theorem isErrorReply_bulkString (s : Bytes) :
    isErrorReply (RespSerializer.bulkString s) = false := rfl
@[simp] theorem isErrorReply_nullBulk : isErrorReply RespSerializer.nullBulk = false := rfl

end Chrono
