import Chrono.Basic

/-!
# What the hash map is for: a finite map with callbacks

`Table` is the abstract map that `ChronCacheHashMap` maintains, with the same
entry points: `set` and `remove` run a callback after the change and inside the
lock, `process_and_remove_if` hands the entry (or a null pointer) to a callback
that may mutate it and decides whether it is removed. A callback that throws
leaves the change in place.
-/
namespace Chrono

abbrev Table (K V : Type) := K → Option V

/-- The `cond_fn` argument of `process_and_remove_if`: what it does with a null
pointer, and with a pointer to an entry, which it may overwrite. -/
structure CondFn (V σ : Type) where
  absent : Action σ Bool
  present : V → σ → Except Fault Bool × V × σ

namespace Table
variable {K V σ : Type} [DecidableEq K]

def insert (m : Table K V) (key : K) (value : V) : Table K V := Function.update m key (some value)

def erase (m : Table K V) (key : K) : Table K V := Function.update m key none

@[simp] theorem insert_same (m : Table K V) (key : K) (value : V) :
    m.insert key value key = some value := by simp [insert]

@[simp] theorem insert_other (m : Table K V) (value : V) {key k : K} (h : k ≠ key) :
    m.insert key value k = m k := by simp [insert, h]

@[simp] theorem erase_same (m : Table K V) (key : K) : m.erase key key = none := by simp [erase]

@[simp] theorem erase_other (m : Table K V) {key k : K} (h : k ≠ key) :
    m.erase key k = m k := by simp [erase, h]

def set (m : Table K V) (key : K) (value : V) (postFn : Action σ Unit) (s : σ) :
    Except Fault Bool × Table K V × σ :=
  match postFn s with
  | (.ok _, s') => (.ok true, m.insert key value, s')
  | (.error e, s') => (.error e, m.insert key value, s')

/-- `ChronCacheHashMap::remove`: `post_fn` runs only when the key was found. -/
def remove (m : Table K V) (key : K) (postFn : Action σ Unit) (s : σ) :
    Except Fault Bool × Table K V × σ :=
  match m key with
  | none => (.ok false, m, s)
  | some _ =>
    match postFn s with
    | (.ok _, s') => (.ok true, m.erase key, s')
    | (.error e, s') => (.error e, m.erase key, s')

def processAndRemoveIf (m : Table K V) (key : K) (condFn : CondFn V σ) (s : σ) :
    Except Fault Unit × Table K V × σ :=
  match m key with
  | none =>
    match condFn.absent s with
    | (.ok _, s') => (.ok (), m, s')
    | (.error e, s') => (.error e, m, s')
  | some v =>
    match condFn.present v s with
    | (.ok true, _, s') => (.ok (), m.erase key, s')
    | (.ok false, v', s') => (.ok (), m.insert key v', s')
    | (.error e, v', s') => (.error e, m.insert key v', s')

/-- `KVStore::get_or_add`: the value behind the returned pointer, and the map. -/
def getOrAdd (m : Table K V) (key : K) (init : V) : V × Table K V :=
  match m key with
  | some v => (v, m)
  | none => (init, m.insert key init)

end Table
end Chrono
