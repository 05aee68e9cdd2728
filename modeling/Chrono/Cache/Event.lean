import Chrono.Cache.Entry

/-!
# Cache events
-/
namespace Chrono

inductive EventType where
  | set
  | delete
  | expire
  | persist
deriving DecidableEq, Repr

structure CacheEvent where
  type : EventType
  key : Bytes
  value : Bytes
  ttlMs : ℤ
  seq : ℕ
  timestamp : ℤ
deriving DecidableEq, Repr

end Chrono
