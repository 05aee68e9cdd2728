import Chrono.KvStore.Refinement

/-!
# A node stays where it is

`get_ptr` and `get_or_add` hand out the address of a node, and their callers keep
it when the locks are released. Calls on other keys, assignments to the key itself
and resizes leave the node at its address; the value there changes by assignments
to the key and by writes through the pointer.
-/
namespace Chrono
open Library Library.Chain

def ChronCacheHashMap.getPtr {K V τ : Type} [DecidableEq K] (hash : K → UInt64) (key : K) :
    Action (KVStore K V × τ) (Option Addr) := fun (s, t) =>
  match s.getPtr hash key with
  | none => (.error .undefined, s, t)
  | some p => (.ok p, s, t)

/-- The two calls that return a pointer. -/
inductive PtrCall where
  | getPtr
  | getOrAdd
deriving DecidableEq, Repr

/-- A step of the program on one hash map: a call, or a write through a pointer that
some call has returned. -/
inductive MapStep (K V τ : Type) where
  | call (op : MapOp K V τ)
  | write (a : Addr) (f : V → V)

variable {K V τ : Type} [DecidableEq K]

def PtrCall.run (hash : K → UInt64) (init : V) (key : K) :
    PtrCall → Action (KVStore K V × τ) (Option Addr)
  | .getPtr => ChronCacheHashMap.getPtr hash key
  | .getOrAdd => fun m =>
    let (r, m) := ChronCacheHashMap.getOrAdd hash init key m
    (r.map some, m)

namespace MapStep

def run (hash : K → UInt64) (init : V) : MapStep K V τ → Action (KVStore K V × τ) (MapResult V)
  | .call op => op.run hash init
  | .write a f => fun (s, t) =>
    match s.heap a with
    | none => (.error .undefined, s, t)
    | some node => (.ok .none, s.write a { node with value := f node.value }, t)

/-- The step is a call that removes nothing, a removal of another key, or a write. -/
def Keeps (key : K) : MapStep K V τ → Prop
  | .call (.remove k _) => k ≠ key
  | .call (.processAndRemoveIf k _) => k ≠ key
  | _ => True

/-- What a step makes of the value of `key`, which is at `p`. -/
def effect (key : K) (p : Addr) (v : V) : MapStep K V τ → V
  | .call (.set k value _) => if k = key then value else v
  | .write a f => if a = p then f v else v
  | _ => v

end MapStep

def pointerMachine (hash : K → UInt64) (init : V) :
    Machine (KVStore K V × τ) (MapStep K V τ) (Except Fault (MapResult V)) where
  step s step := step.run hash init s

namespace KVStore
variable {hash : K → UInt64} {init : V} {s : KVStore K V} {c : ℕ → Chain K V} {m : Table K V}

def NodeAt (hash : K → UInt64) (key : K) (p : Addr) (v : V) (s : KVStore K V) : Prop :=
  ∃ c m, Represents hash s c m ∧
    ∃ d : Item K V, Contains s.capacity c (p, d) ∧ d.key = key ∧ d.value = v

omit [DecidableEq K] in
/-- The automatic doubling moves cells to other buckets only, or cannot be taken. -/
theorem Represents.maybeResize_cells (h : Represents hash s c m) :
    ∃ r s' c', ChronCacheHashMap.maybeResize s = (r, s') ∧ Represents hash s' c' m ∧
      ∀ x, Contains s'.capacity c' x ↔ Contains s.capacity c x := by
  by_cases hfit : s.needsResize = true → 2 * s.capacity ≤ intMax
  · obtain ⟨s', c', hrun, hrep, hcells⟩ := h.maybeResize hfit
    exact ⟨_, s', c', hrun, hrep, hcells⟩
  · obtain ⟨hneeds, hle⟩ := Classical.not_imp.mp hfit
    refine ⟨.error .undefined, s, c, ?_, h, fun _ => Iff.rfl⟩
    rw [ChronCacheHashMap.maybeResize, if_pos hneeds, if_neg hle]

theorem NodeAt.getPtr {key : K} {p : Addr} {v : V} (h : NodeAt hash key p v s) :
    s.getPtr hash key = some (some p) ∧
      ∃ node, s.heap p = some node ∧ node.key = key ∧ node.value = v := by
  obtain ⟨c, m, hrep, d, hd, rfl, rfl⟩ := h
  constructor
  · rcases hrep.getPtr_cases d.key with ⟨-, hnone⟩ | ⟨a, n, hptr, hn, hkey, -, hx⟩
    · simp [hrep.eq_some hd] at hnone
    · have heq : a = p := congrArg Prod.fst (hrep.inv.eq_of_key hx hd hkey)
      rw [hptr, heq]
  · obtain ⟨n, hn, hitem⟩ := hrep.inv.heap_of_contains hd
    exact ⟨n, hn, congrArg Item.key hitem, congrArg Item.value hitem⟩

theorem NodeAt.of_getPtr {key : K} {p : Addr} (h : Represents hash s c m)
    (hptr : s.getPtr hash key = some (some p)) :
    ∃ v, NodeAt hash key p v s := by
  rcases h.getPtr_cases key with ⟨hnone, -⟩ | ⟨a, n, ha, hn, hkey, -, hx⟩
  · rw [hnone] at hptr
    cases hptr
  · rw [ha] at hptr
    cases hptr
    exact ⟨n.value, c, m, h, n.item, hx, hkey, rfl⟩

end KVStore

namespace MapStep
open KVStore
variable {hash : K → UInt64} (init : V) {s : KVStore K V} {c : ℕ → Chain K V} {m : Table K V} (t : τ)

def moved (step : MapStep K V τ) (x : Addr × Item K V) : Addr × Item K V :=
  (x.1, { x.2 with value := step.effect x.2.key x.1 x.2.value })

/-- What a step does to the table: it stays well formed, and the cells of the keys that
the step does not remove stay where they are. -/
def KeepsCells (hash : K → UInt64) (s : KVStore K V) (c : ℕ → Chain K V) (step : MapStep K V τ)
    (s' : KVStore K V) : Prop :=
  ∃ c' m', Represents hash s' c' m' ∧
    ∀ x, Contains s.capacity c x → step.Keeps x.2.key → Contains s'.capacity c' (step.moved x)

theorem set_keepsCells (h : Represents hash s c m) (key : K) (value : V) (postFn : Action τ Unit) :
    (call (.set key value postFn)).KeepsCells hash s c
      ((MapOp.set key value postFn).run hash init (s, t)).2.1 := by
  obtain ⟨s₁, c₁, hset, hrep₁, -, -, hcells₁⟩ := h.set key value
  have hmoved (x : Addr × Item K V) (hx : Contains s.capacity c x) :
      Contains s₁.capacity c₁ ((call (.set key value postFn)).moved x) := by
    have hcell := hcells₁ x hx
    by_cases hkey : x.2.key = key
    · simpa [moved, effect, hkey] using hcell
    · simpa [moved, effect, hkey, Ne.symm hkey] using hcell
  obtain ⟨r', s', c', hresize, hrep, hcells⟩ := hrep₁.maybeResize_cells
  cases hpost : postFn t with
  | mk r t' =>
    cases r with
    | error e =>
      simp only [MapOp.run, ChronCacheHashMap.set, hset, hpost]
      exact ⟨c₁, _, hrep₁, fun x hx _ => hmoved x hx⟩
    | ok _ =>
      simp only [MapOp.run, ChronCacheHashMap.set, hset, hpost, hresize]
      have hfinal : (call (.set key value postFn) : MapStep K V τ).KeepsCells hash s c s' :=
        ⟨c', _, hrep, fun x hx _ => (hcells _).mpr (hmoved x hx)⟩
      cases r' <;> exact hfinal

theorem getOrAdd_keepsCells (h : Represents hash s c m) (key : K) :
    (call (.getOrAdd key) : MapStep K V τ).KeepsCells hash s c
      (ChronCacheHashMap.getOrAdd hash init key (s, t)).2.1 := by
  obtain ⟨a, d, s₁, c₁, hget, -, -, hrep₁, -, -, -, hcells₁⟩ := h.getOrAdd init key
  obtain ⟨r', s', c', hresize, hrep, hcells⟩ := hrep₁.maybeResize_cells
  simp only [ChronCacheHashMap.getOrAdd, hget, hresize]
  have hfinal : (call (.getOrAdd key) : MapStep K V τ).KeepsCells hash s c s' :=
    ⟨c', _, hrep, fun x hx _ => (hcells _).mpr (hcells₁ x hx)⟩
  cases r' <;> exact hfinal

theorem remove_keepsCells (h : Represents hash s c m) (key : K) (postFn : Action τ Unit) :
    (call (.remove key postFn)).KeepsCells hash s c
      ((MapOp.remove key postFn).run hash init (s, t)).2.1 := by
  cases hm : m key with
  | none =>
    simp only [MapOp.run, ChronCacheHashMap.remove, h.remove_absent hm]
    exact ⟨c, m, h, fun x hx _ => hx⟩
  | some v =>
    obtain ⟨s', c', hremove, hrep, -, -, hcells⟩ := h.remove_present hm
    have hfinal : (call (.remove key postFn)).KeepsCells hash s c s' :=
      ⟨c', _, hrep, fun x hx hkeeps => hcells x hx (Ne.symm hkeeps)⟩
    simp only [MapOp.run, ChronCacheHashMap.remove, hremove]
    cases hpost : postFn t with
    | mk r t' => cases r <;> exact hfinal

omit [DecidableEq K] in
theorem contains_rewrite_other (h : Represents hash s c m) {a : Addr} {n : ChronCacheNode K V}
    (hn : Contains s.capacity c (a, n.item)) {v : V} {x : Addr × Item K V}
    (hx : Contains s.capacity c x)
    (hkey : x.2.key ≠ n.key) :
    Contains s.capacity (fun j => rewrite a { n.item with value := v } (c j)) x := by
  have hxa : x.1 ≠ a := fun heq => hkey (congrArg (fun x => x.2.key) (h.inv.eq_of_addr hx hn heq))
  exact contains_rewrite.mpr ⟨x, hx, (if_neg hxa).symm⟩

theorem processAndRemoveIf_keepsCells (h : Represents hash s c m) (key : K) (condFn : CondFn V τ) :
    (call (.processAndRemoveIf key condFn)).KeepsCells hash s c
      ((MapOp.processAndRemoveIf key condFn).run hash init (s, t)).2.1 := by
  rcases h.getPtr_cases key with ⟨hptr, -⟩ | ⟨a, n, hptr, hn, rfl, -, hx⟩
  · simp only [MapOp.run, ChronCacheHashMap.processAndRemoveIf, hptr]
    cases hcond : condFn.absent t with
    | mk r t' => cases r <;> exact ⟨c, m, h, fun x hx _ => hx⟩
  · simp only [MapOp.run, ChronCacheHashMap.processAndRemoveIf, hptr, hn]
    cases hcond : condFn.present n.value t with
    | mk r vt =>
      obtain ⟨v, t'⟩ := vt
      have hrep := h.rewrite hx hn v
      have hkept : (call (.processAndRemoveIf n.key condFn)).KeepsCells hash s c
          (s.write a { n with value := v }) :=
        ⟨_, _, hrep, fun x hx' hkeeps => contains_rewrite_other h hx hx' (Ne.symm hkeeps)⟩
      cases r with
      | error e => exact hkept
      | ok b =>
        cases b with
        | false => exact hkept
        | true =>
          obtain ⟨s', c', hremove, hrep', -, -, hcells⟩ :=
            hrep.remove_present (Table.insert_same m n.key v)
          simp only [hremove]
          refine ⟨c', _, hrep', fun x hx' hkeeps => ?_⟩
          exact hcells x (contains_rewrite_other h hx hx' (Ne.symm hkeeps)) (Ne.symm hkeeps)

theorem resize_keepsCells (h : Represents hash s c m) (newCapacity : Int32) :
    (call (.resize newCapacity) : MapStep K V τ).KeepsCells hash s c
      (ChronCacheHashMap.resize newCapacity (s, t)).2.1 := by
  by_cases hvalid : ValidCapacity s newCapacity
  · obtain ⟨s', c', hrun, hrep, -, -, hcells⟩ := h.resize hvalid
    simp only [ChronCacheHashMap.resize, hrun]
    exact ⟨c', m, hrep, fun x hx _ => (hcells x).mpr hx⟩
  · obtain ⟨what, hrun⟩ := resize_invalid hvalid
    simp only [ChronCacheHashMap.resize, hrun]
    exact ⟨c, m, h, fun x hx _ => hx⟩

theorem write_keepsCells (h : Represents hash s c m) (a : Addr) (f : V → V) :
    (write a f : MapStep K V τ).KeepsCells hash s c ((write a f).run hash init (s, t)).2.1 := by
  simp only [run]
  cases hn : s.heap a with
  | none =>
    refine ⟨c, m, h, fun x hx _ => ?_⟩
    have hxa : a ≠ x.1 := by
      rintro rfl
      obtain ⟨n, hn', -⟩ := h.inv.heap_of_contains hx
      rw [hn] at hn'
      cases hn'
    have hsame : (write a f : MapStep K V τ).moved x = x := by simp [moved, effect, hxa]
    exact hsame.symm ▸ hx
  | some n =>
    by_cases hout : ∀ j < s.capacity, a ∉ addrs (c j)
    · refine ⟨c, m, ⟨h.inv.write hn hout _, h.holds⟩, fun x hx _ => ?_⟩
      have hxa : a ≠ x.1 := by
        rintro rfl
        obtain ⟨i, hi, hx⟩ := hx
        exact hout i hi (List.mem_map_of_mem hx)
      have hsame : (write a f : MapStep K V τ).moved x = x := by simp [moved, effect, hxa]
      exact hsame.symm ▸ hx
    · push Not at hout
      obtain ⟨j, hj, hmem⟩ := hout
      obtain ⟨⟨a, d⟩, hx, rfl⟩ := List.mem_map.mp hmem
      have hcell : Contains s.capacity c (a, n.item) := by
        obtain ⟨n', hn', hitem⟩ := h.inv.heap_of_contains ⟨j, hj, hx⟩
        rw [Option.some.inj (hn.symm.trans hn'), hitem]
        exact ⟨j, hj, hx⟩
      refine ⟨_, _, h.rewrite hcell hn (f n.value), fun y hy _ => contains_rewrite.mpr ⟨y, hy, ?_⟩⟩
      by_cases hya : y.1 = a
      · rw [h.inv.eq_of_addr hy hcell hya]
        simp [moved, effect, ChronCacheNode.item]
      · simp [moved, effect, hya, Ne.symm hya]

theorem keepsCells (h : Represents hash s c m) (step : MapStep K V τ) :
    step.KeepsCells hash s c (step.run hash init (s, t)).2.1 := by
  cases step with
  | write a f => exact write_keepsCells init t h a f
  | call op =>
    cases op with
    | set key value postFn => exact set_keepsCells init t h key value postFn
    | get key =>
      simp only [run, MapOp.run, ChronCacheHashMap.get, h.get key]
      exact ⟨c, m, h, fun x hx _ => hx⟩
    | getOrAdd key =>
      rw [run, MapOp.run_getOrAdd_snd]
      exact getOrAdd_keepsCells init t h key
    | remove key postFn => exact remove_keepsCells init t h key postFn
    | processAndRemoveIf key condFn => exact processAndRemoveIf_keepsCells init t h key condFn
    | resize newCapacity => exact resize_keepsCells t h newCapacity

theorem nodeAt {key : K} {p : Addr} {v : V} {step : MapStep K V τ} (hkeeps : step.Keeps key)
    (h : NodeAt hash key p v s) :
    NodeAt hash key p (step.effect key p v) (step.run hash init (s, t)).2.1 := by
  obtain ⟨c, m, hrep, d, hd, rfl, rfl⟩ := h
  obtain ⟨c', m', hrep', hcells⟩ := keepsCells init t hrep step
  exact ⟨c', m', hrep', _, hcells (p, d) hd hkeeps, rfl, rfl⟩

end MapStep

open KVStore
variable {hash : K → UInt64} {init : V}

theorem nodeAt_after {key : K} {p : Addr} {steps : List (MapStep K V τ)}
    (hkeeps : ∀ step ∈ steps, step.Keeps key)
    {v : V} {s : KVStore K V × τ} (h : NodeAt hash key p v s.1) :
    NodeAt hash key p (steps.foldl (MapStep.effect key p) v)
      ((pointerMachine hash init).after s steps).1 := by
  induction steps generalizing s v with
  | nil => exact h
  | cons step steps ih =>
    exact ih (fun step' hmem => hkeeps step' (by simp [hmem]))
      (MapStep.nodeAt init s.2 (hkeeps step (by simp)) h)

theorem PtrCall.nodeAt {key : K} {p : Addr} {c : ℕ → Chain K V} {m : Table K V} {s : KVStore K V}
    {t : τ} (h : Represents hash s c m) {call : PtrCall}
    (hcall : (call.run hash init key (s, t)).1 = .ok (some p)) :
    ∃ v, NodeAt hash key p v (call.run hash init key (s, t)).2.1 := by
  cases call with
  | getPtr =>
    simp only [PtrCall.run, ChronCacheHashMap.getPtr] at hcall ⊢
    split at hcall
    · cases hcall
    · rename_i o hptr
      cases hcall
      exact NodeAt.of_getPtr h hptr
  | getOrAdd =>
    obtain ⟨a, d, s₁, c₁, hget, hcell, -, hrep₁, -, -, hkey, -⟩ := h.getOrAdd init key
    obtain ⟨r', s₂, c₂, hresize, hrep₂, hcells⟩ := hrep₁.maybeResize_cells
    simp only [PtrCall.run, ChronCacheHashMap.getOrAdd, hget, hresize] at hcall ⊢
    cases r' with
    | error e => cases hcall
    | ok _ =>
      cases hcall
      exact ⟨d.value, c₂, _, hrep₂, d, (hcells _).mpr hcell, hkey, rfl⟩

/-- In every state of a hash map that has been constructed, and whatever callbacks do: if
`get_ptr` or `get_or_add` of a key returned `p`, then after any calls that do not remove
the key, and any writes through pointers, `get_ptr` of the key still returns `p`. What
is stored there is what was, changed by the assignments to the key and the
writes through `p` alone. -/
theorem node_identity (hash : K → UInt64) (init : V) {capacity : Int32} {threshold : ℚ}
    {s₀ : KVStore K V}
    (hcreate : KVStore.create capacity threshold = .ok s₀) (t : τ)
    (before steps : List (MapStep K V τ))
    (call : PtrCall) (key : K) (p : Addr)
    (hcall : (call.run hash init key ((pointerMachine hash init).after (s₀, t) before)).1 =
      .ok (some p))
    (hkeeps : ∀ step ∈ steps, step.Keeps key) :
    let returned := (call.run hash init key ((pointerMachine hash init).after (s₀, t) before)).2
    let later := (pointerMachine hash init).after returned steps
    ∃ v, (∃ node, returned.1.heap p = some node ∧ node.key = key ∧ node.value = v) ∧
      (ChronCacheHashMap.getPtr hash key later).1 = .ok (some p) ∧
      ∃ node, later.1.heap p = some node ∧ node.key = key ∧
        node.value = steps.foldl (MapStep.effect key p) v := by
  intro returned later
  have hwell : ∃ c m, Represents hash ((pointerMachine hash init).after (s₀, t) before).1 c m := by
    apply Machine.preserved (I := fun s : KVStore K V × τ => ∃ c m, Represents hash s.1 c m)
    · rintro ⟨s, t⟩ step ⟨c, m, h⟩
      obtain ⟨c', m', h', -⟩ := MapStep.keepsCells init t h step
      exact ⟨c', m', h'⟩
    · obtain ⟨c, h⟩ := KVStore.represents_of_create hash hcreate
      exact ⟨c, _, h⟩
  obtain ⟨c, m, hrep⟩ := hwell
  obtain ⟨v, hv⟩ := PtrCall.nodeAt hrep hcall
  have hlater : NodeAt hash key p (steps.foldl (MapStep.effect key p) v) later.1 :=
    nodeAt_after hkeeps hv
  refine ⟨v, hv.getPtr.2, ?_, hlater.getPtr.2⟩
  rw [ChronCacheHashMap.getPtr, hlater.getPtr.1]

/-- A pointer from a `get_or_add` that doubles the capacity, and then an assignment, a
resize, a removal of another key and two writes. -/
theorem node_identity_witness :
    let before : List (MapStep ℕ ℕ Unit) := [.call (.set 1 10 fun t => (.ok (), t))]
    let steps : List (MapStep ℕ ℕ Unit) :=
      [.write 1 (· + 1), .call (.set 2 20 fun t => (.ok (), t)), .call (.resize 16),
        .call (.remove 1 fun t => (.ok (), t)), .write 1 (· + 5)]
    ∃ s₀, KVStore.create 2 (3 / 4) = .ok s₀ ∧
      let returned :=
        (PtrCall.getOrAdd.run (fun _ => 0) 7 2
          ((pointerMachine (fun _ => 0) 7).after (s₀, ()) before)).2
      let later := (pointerMachine (fun _ => 0) 7).after returned steps
      ∃ v, (∃ node, returned.1.heap 1 = some node ∧ node.key = 2 ∧ node.value = v) ∧
        (ChronCacheHashMap.getPtr (fun _ => 0) 2 later).1 = .ok (some 1) ∧
        ∃ node, later.1.heap 1 = some node ∧ node.key = 2 ∧
          node.value = steps.foldl (MapStep.effect 2 1) v :=
  ⟨_, rfl, node_identity (fun _ => 0) 7 (rfl : KVStore.create 2 (3 / 4) = .ok _)
    () [.call (.set 1 10 fun t => (.ok (), t))]
    [.write 1 (· + 1), .call (.set 2 20 fun t => (.ok (), t)), .call (.resize 16),
      .call (.remove 1 fun t => (.ok (), t)), .write 1 (· + 5)] .getOrAdd 2 1 (by decide +kernel)
    (by simp [MapStep.Keeps])⟩

end Chrono
