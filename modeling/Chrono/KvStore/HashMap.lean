import Chrono.KvStore.Store
import Chrono.KvStore.Table

/-!
# The hash map

A call of `ChronCacheHashMap` holds the lock of its slice from the lookup to the
end of its callback, so that only the store and the state the callbacks work on
are modelled. `set` and `get_or_add` double the capacity when the load factor
has passed the threshold.
-/
namespace Chrono

namespace ChronCacheHashMap
variable {K V τ : Type}

/-- `capacity * 2` must fit in an `int`. -/
def maybeResize : Action (KVStore K V) Unit := fun s =>
  if s.needsResize then
    if 2 * s.capacity ≤ intMax then KVStore.resize (Int32.ofNat (2 * s.capacity)) s
    else (.error .undefined, s)
  else (.ok (), s)

def resize (newCapacity : Int32) : Action (KVStore K V × τ) Unit := fun (s, t) =>
  match KVStore.resize newCapacity s with
  | (r, s) => (r, s, t)

variable [DecidableEq K] (hash : K → UInt64)

def set (key : K) (value : V) (postFn : Action τ Unit) : Action (KVStore K V × τ) Bool :=
  fun (s, t) =>
  match s.set hash key value with
  | none => (.error .undefined, s, t)
  | some (setSuccess, s) =>
    match postFn t with
    | (.error e, t) => (.error e, s, t)
    | (.ok _, t) =>
      match maybeResize s with
      | (.error e, s) => (.error e, s, t)
      | (.ok _, s) => (.ok setSuccess, s, t)

def get (key : K) : Action (KVStore K V × τ) (Option V) := fun (s, t) =>
  match s.get hash key with
  | none => (.error .undefined, s, t)
  | some v => (.ok v, s, t)

def getOrAdd (init : V) (key : K) : Action (KVStore K V × τ) Addr := fun (s, t) =>
  match s.getOrAdd hash init key with
  | none => (.error .undefined, s, t)
  | some (result, s) =>
    match maybeResize s with
    | (.error e, s) => (.error e, s, t)
    | (.ok _, s) => (.ok result, s, t)

def remove (key : K) (postFn : Action τ Unit) : Action (KVStore K V × τ) Bool := fun (s, t) =>
  match s.remove hash key with
  | none => (.error .undefined, s, t)
  | some (false, s) => (.ok false, s, t)
  | some (true, s) =>
    match postFn t with
    | (.error e, t) => (.error e, s, t)
    | (.ok _, t) => (.ok true, s, t)

/-- `cond_fn` may overwrite the entry it is handed, also when it throws. -/
def processAndRemoveIf (key : K) (condFn : CondFn V τ) : Action (KVStore K V × τ) Unit :=
  fun (s, t) =>
  match s.getPtr hash key with
  | none => (.error .undefined, s, t)
  | some none =>
    match condFn.absent t with
    | (.error e, t) => (.error e, s, t)
    | (.ok _, t) => (.ok (), s, t)
  | some (some entry) =>
    match s.heap entry with
    | none => (.error .undefined, s, t)
    | some node =>
      match condFn.present node.value t with
      | (.error e, value, t) => (.error e, s.write entry { node with value := value }, t)
      | (.ok false, value, t) => (.ok (), s.write entry { node with value := value }, t)
      | (.ok true, value, t) =>
        match (s.write entry { node with value := value }).remove hash key with
        | none => (.error .undefined, s.write entry { node with value := value }, t)
        | some (_, s) => (.ok (), s, t)

end ChronCacheHashMap

/-- The calls of the map, with their callbacks on a state `τ`. -/
inductive MapOp (K V τ : Type) where
  | set (key : K) (value : V) (postFn : Action τ Unit)
  | get (key : K)
  | getOrAdd (key : K)
  | remove (key : K) (postFn : Action τ Unit)
  | processAndRemoveIf (key : K) (condFn : CondFn V τ)
  | resize (newCapacity : Int32)

inductive MapResult (V : Type) where
  | none
  | flag (b : Bool)
  | found (v : Option V)
  | pointee (v : V)
deriving DecidableEq, Repr

namespace MapOp
variable {K V τ : Type} [DecidableEq K] (hash : K → UInt64) (init : V)

/-- A call on the hash table. Of a pointer the caller sees what it points to. -/
def run : MapOp K V τ → Action (KVStore K V × τ) (MapResult V)
  | .set key value postFn => fun m =>
    let (r, m) := ChronCacheHashMap.set hash key value postFn m
    (r.map .flag, m)
  | .get key => fun m =>
    let (r, m) := ChronCacheHashMap.get hash key m
    (r.map .found, m)
  | .getOrAdd key => fun m =>
    match ChronCacheHashMap.getOrAdd hash init key m with
    | (.error e, m) => (.error e, m)
    | (.ok result, m) =>
      match m.1.heap result with
      | Option.none => (.error .undefined, m)
      | some node => (.ok (.pointee node.value), m)
  | .remove key postFn => fun m =>
    let (r, m) := ChronCacheHashMap.remove hash key postFn m
    (r.map .flag, m)
  | .processAndRemoveIf key condFn => fun m =>
    let (r, m) := ChronCacheHashMap.processAndRemoveIf hash key condFn m
    (r.map fun _ => .none, m)
  | .resize newCapacity => fun m =>
    let (r, m) := ChronCacheHashMap.resize newCapacity m
    (r.map fun _ => .none, m)

/-- Looking at what the pointer leads to changes nothing. -/
theorem run_getOrAdd_snd (key : K) (m : KVStore K V × τ) :
    ((MapOp.getOrAdd key).run hash init m).2 = (ChronCacheHashMap.getOrAdd hash init key m).2 := by
  simp only [run]
  generalize ChronCacheHashMap.getOrAdd hash init key m = answer
  obtain ⟨r, m'⟩ := answer
  cases r with
  | error e => rfl
  | ok result =>
    dsimp only
    cases m'.1.heap result <;> rfl

/-- The same call on the abstract map, which has no capacity to change. -/
def onTable : MapOp K V τ → Action (Table K V × τ) (MapResult V)
  | .set key value postFn => fun (m, t) =>
    let (r, m, t) := m.set key value postFn t
    (r.map .flag, m, t)
  | .get key => fun (m, t) => (.ok (.found (m key)), m, t)
  | .getOrAdd key => fun (m, t) =>
    let (v, m) := m.getOrAdd key init
    (.ok (.pointee v), m, t)
  | .remove key postFn => fun (m, t) =>
    let (r, m, t) := m.remove key postFn t
    (r.map .flag, m, t)
  | .processAndRemoveIf key condFn => fun (m, t) =>
    let (r, m, t) := m.processAndRemoveIf key condFn t
    (r.map fun _ => .none, m, t)
  | .resize _ => fun (m, t) => (.ok .none, m, t)

end MapOp
end Chrono
