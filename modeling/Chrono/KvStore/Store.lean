import Mathlib.Data.Rat.Defs
import Mathlib.Algebra.Order.Ring.Unbundled.Rat
import Chrono.Basic

/-!
# The hash table

Buckets are singly linked chains of heap nodes, with the head, the tail and the
length of each chain kept in a vector. Nodes live at addresses; `new` takes a
fresh one and `delete` frees it. Load factors are rationals: a count divided by a
power of two is exact in a `double`.
-/
namespace Chrono

def intMax : ℕ := 2 ^ 31 - 1

abbrev Addr := ℕ

/-- A computation on the heap; `none` is undefined behaviour. -/
abbrev Defined (α : Type) := Option α

structure ChronCacheNode (K V : Type) where
  key : K
  hashedKey : UInt64
  value : V
  nextInBucket : Option Addr
deriving DecidableEq, Repr

structure ChronCacheHashMapMetrics where
  numBuckets : ℤ
  numEntries : ℤ
  numCollisions : ℤ
  numResizes : ℤ
  maxChainLength : ℤ
  loadFactorVal : ℚ
deriving DecidableEq, Repr

namespace ChronCacheHashMapMetrics

def create (numBuckets : ℤ) : ChronCacheHashMapMetrics := ⟨numBuckets, 0, 0, 0, 0, 0⟩

def recalculateLoadFactor (m : ChronCacheHashMapMetrics) : ChronCacheHashMapMetrics :=
  { m with loadFactorVal := m.numEntries / m.numBuckets }

def newElementEvent (m : ChronCacheHashMapMetrics) (isCollision : Bool) (chainLength : ℤ) :
    ChronCacheHashMapMetrics :=
  let m := if isCollision then { m with numCollisions := m.numCollisions + 1 } else m
  let m := if chainLength > m.maxChainLength then { m with maxChainLength := chainLength } else m
  { m with numEntries := m.numEntries + 1 }.recalculateLoadFactor

def removeElementEvent (m : ChronCacheHashMapMetrics) : ChronCacheHashMapMetrics :=
  { m with numEntries := m.numEntries - 1 }.recalculateLoadFactor

def resizeEventTriggered (currCapacity newCapacity : ℤ) :
    Action ChronCacheHashMapMetrics Unit := fun m =>
  if m.numBuckets ≠ currCapacity then
    (.error (.exception (lit "Current capacity does not match the number of buckets")), m)
  else
    (.ok (), { m with
      numBuckets := newCapacity
      numEntries := 0
      numCollisions := 0
      maxChainLength := 0
      numResizes := m.numResizes + 1 }.recalculateLoadFactor)

section
variable (m : ChronCacheHashMapMetrics) (isCollision : Bool) (chainLength : ℤ)

@[simp] theorem newElementEvent_numBuckets :
    (m.newElementEvent isCollision chainLength).numBuckets = m.numBuckets := by
  simp only [newElementEvent, recalculateLoadFactor]
  split_ifs <;> rfl

@[simp] theorem newElementEvent_numEntries :
    (m.newElementEvent isCollision chainLength).numEntries = m.numEntries + 1 := by
  simp only [newElementEvent, recalculateLoadFactor]
  split_ifs <;> rfl

@[simp] theorem removeElementEvent_numBuckets : m.removeElementEvent.numBuckets = m.numBuckets := rfl

@[simp] theorem removeElementEvent_numEntries :
    m.removeElementEvent.numEntries = m.numEntries - 1 := rfl

end

end ChronCacheHashMapMetrics

structure KVStore (K V : Type) where
  capacity : ℕ
  loadFactorThreshold : ℚ
  metrics : ChronCacheHashMapMetrics
  bucketHeads : List (Option Addr)
  bucketTails : List (Option Addr)
  bucketChainLengths : List ℤ
  heap : Addr → Option (ChronCacheNode K V)
  nextAddr : Addr

/-- `(capacity_val > 0) && ((capacity_val & (capacity_val - 1)) == 0)` -/
def isPowerOf2 (capacityVal : Int32) : Bool :=
  decide (0 < capacityVal) && capacityVal &&& (capacityVal - 1) == 0

namespace KVStore
variable {K V : Type}

def resetToCapacity (capacityVal : Int32) : Action (KVStore K V) Unit := fun s =>
  if isPowerOf2 capacityVal = false then
    (.error (.exception (lit "Capacity must be a power of 2")), s)
  else
    let capacity := capacityVal.toNatClampNeg
    (.ok (), { s with
      capacity := capacity
      bucketHeads := List.replicate capacity none
      bucketTails := List.replicate capacity none
      bucketChainLengths := List.replicate capacity 0 })

def create (capacityVal : Int32) (loadFactorThreshold : ℚ) : Except Fault (KVStore K V) :=
  match resetToCapacity capacityVal
      ⟨0, loadFactorThreshold, .create capacityVal.toInt, [], [], [], fun _ => none, 0⟩ with
  | (.ok _, s) => .ok s
  | (.error e, _) => .error e

/-- `hashed_key & (capacity - 1)` -/
def computeBucketIndex (s : KVStore K V) (hashedKey : UInt64) : ℕ :=
  (hashedKey &&& (UInt64.ofNat s.capacity - 1)).toNat

/-- `new Node`: a fresh address. -/
def allocate (s : KVStore K V) (node : ChronCacheNode K V) : Addr × KVStore K V :=
  (s.nextAddr, { s with
    heap := Function.update s.heap s.nextAddr (some node)
    nextAddr := s.nextAddr + 1 })

def write (s : KVStore K V) (a : Addr) (node : ChronCacheNode K V) : KVStore K V :=
  { s with heap := Function.update s.heap a (some node) }

@[simp] theorem write_heap (s : KVStore K V) (a : Addr) (node : ChronCacheNode K V) :
    (s.write a node).heap = Function.update s.heap a (some node) := rfl

@[simp] theorem computeBucketIndex_write (s : KVStore K V) (a : Addr) (node : ChronCacheNode K V)
    (hashedKey : UInt64) :
    (s.write a node).computeBucketIndex hashedKey = s.computeBucketIndex hashedKey := rfl

def needsResize (s : KVStore K V) : Bool := decide (s.metrics.loadFactorVal > s.loadFactorThreshold)

/-- The fuel of the loops over a chain: more steps than there are nodes mean that
the loop has no end. -/
def fuel (s : KVStore K V) : ℕ := s.nextAddr + 1

def unlinkFromBucketChain (s : KVStore K V) (a : Addr) (prevInBucket : Option Addr)
    (bucketIndex : ℕ) :
    Defined (KVStore K V) := do
  let node ← s.heap a
  let s ← match prevInBucket with
    | some prev => do
      let prevNode ← s.heap prev
      some (s.write prev { prevNode with nextInBucket := node.nextInBucket })
    | none => some { s with bucketHeads := s.bucketHeads.set bucketIndex node.nextInBucket }
  let tails :=
    if node.nextInBucket = none then s.bucketTails.set bucketIndex prevInBucket else s.bucketTails
  let length ← s.bucketChainLengths[bucketIndex]?
  some { s with
    bucketTails := tails
    bucketChainLengths := s.bucketChainLengths.set bucketIndex (length - 1) }

def insertIntoBucket (s : KVStore K V) (bucketIndex : ℕ) (a : Addr) : Defined (KVStore K V) := do
  let head ← s.bucketHeads[bucketIndex]?
  let s ← match head with
    | none => some { s with bucketHeads := s.bucketHeads.set bucketIndex (some a) }
    | some _ => do
      let oldTail ← (← s.bucketTails[bucketIndex]?)
      let tailNode ← s.heap oldTail
      some (s.write oldTail { tailNode with nextInBucket := some a })
  let length ← s.bucketChainLengths[bucketIndex]?
  some { s with
    bucketTails := s.bucketTails.set bucketIndex (some a)
    bucketChainLengths := s.bucketChainLengths.set bucketIndex (length + 1)
    metrics := s.metrics.newElementEvent head.isSome (length + 1) }

def collectFrom (s : KVStore K V) : ℕ → Option Addr → Defined (List Addr)
  | 0, _ => none
  | _ + 1, none => some []
  | fuel + 1, some cur => do
    let node ← s.heap cur
    let rest ← s.collectFrom fuel node.nextInBucket
    some (cur :: rest)

/-- The loop of `resize` that gathers the nodes of the buckets in order. -/
def collectNodes (s : KVStore K V) : List ℕ → Defined (List Addr)
  | [] => some []
  | i :: is => do
    let head ← s.bucketHeads[i]?
    let nodes ← s.collectFrom s.fuel head
    let rest ← s.collectNodes is
    some (nodes ++ rest)

/-- The loop of `resize` that puts the nodes into the new buckets. -/
def rehash (s : KVStore K V) : List Addr → Defined (KVStore K V)
  | [] => some s
  | a :: nodes => do
    let node ← s.heap a
    let s := s.write a { node with nextInBucket := none }
    let s ← s.insertIntoBucket (s.computeBucketIndex node.hashedKey) a
    s.rehash nodes

def resize (newCapacity : Int32) : Action (KVStore K V) Unit := fun s =>
  if newCapacity.toInt ≤ s.capacity then
    (.error (.exception (lit "New capacity must be greater than current capacity")), s)
  else if isPowerOf2 newCapacity = false then
    (.error (.exception (lit "New capacity must be a power of 2")), s)
  else
    match s.collectNodes (List.range s.capacity) with
    | none => (.error .undefined, s)
    | some nodes =>
      match ChronCacheHashMapMetrics.resizeEventTriggered s.capacity newCapacity.toInt s.metrics with
      | (.error e, metrics) => (.error e, { s with metrics := metrics })
      | (.ok _, metrics) =>
        match resetToCapacity newCapacity { s with metrics := metrics } with
        | (.error e, s) => (.error e, s)
        | (.ok _, s) =>
          match s.rehash nodes with
          | none => (.error .undefined, s)
          | some s => (.ok (), s)

variable [DecidableEq K]

def findFrom (s : KVStore K V) (key : K) : ℕ → Option Addr → Defined (Option Addr)
  | 0, _ => none
  | _ + 1, none => some none
  | fuel + 1, some current => do
    let node ← s.heap current
    if node.key = key then some (some current) else s.findFrom key fuel node.nextInBucket

def findInBucket (s : KVStore K V) (bucketIndex : ℕ) (key : K) : Defined (Option Addr) := do
  let head ← s.bucketHeads[bucketIndex]?
  s.findFrom key s.fuel head

def removeFrom (s : KVStore K V) (key : K) (bucketIndex : ℕ) :
    ℕ → Option Addr → Option Addr → Defined (Bool × KVStore K V)
  | 0, _, _ => none
  | _ + 1, none, _ => some (false, s)
  | fuel + 1, some current, prevInBucket => do
    let node ← s.heap current
    if node.key = key then do
      let s ← s.unlinkFromBucketChain current prevInBucket bucketIndex
      some (true, { s with
        heap := Function.update s.heap current none
        metrics := s.metrics.removeElementEvent })
    else s.removeFrom key bucketIndex fuel node.nextInBucket (some current)

variable (hash : K → UInt64)

def set (s : KVStore K V) (key : K) (value : V) : Defined (Bool × KVStore K V) := do
  let bucketIndex := s.computeBucketIndex (hash key)
  match ← s.findInBucket bucketIndex key with
  | some existing => do
    let node ← s.heap existing
    some (true, s.write existing { node with value := value })
  | none => do
    let (a, s) := s.allocate ⟨key, hash key, value, none⟩
    let s ← s.insertIntoBucket bucketIndex a
    some (true, s)

def getPtr (s : KVStore K V) (key : K) : Defined (Option Addr) :=
  s.findInBucket (s.computeBucketIndex (hash key)) key

def get (s : KVStore K V) (key : K) : Defined (Option V) := do
  match ← s.getPtr hash key with
  | some a => do
    let node ← s.heap a
    some (some node.value)
  | none => some none

/-- `init` is the default value of the value type. -/
def getOrAdd (s : KVStore K V) (init : V) (key : K) : Defined (Addr × KVStore K V) := do
  let bucketIndex := s.computeBucketIndex (hash key)
  match ← s.findInBucket bucketIndex key with
  | some existing => some (existing, s)
  | none => do
    let (a, s) := s.allocate ⟨key, hash key, init, none⟩
    let s ← s.insertIntoBucket bucketIndex a
    some (a, s)

def remove (s : KVStore K V) (key : K) : Defined (Bool × KVStore K V) := do
  let bucketIndex := s.computeBucketIndex (hash key)
  let head ← s.bucketHeads[bucketIndex]?
  s.removeFrom key bucketIndex s.fuel head none

end KVStore
end Chrono
