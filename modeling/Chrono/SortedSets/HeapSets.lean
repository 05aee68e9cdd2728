import Chrono.SortedSets.Agreement
import Chrono.SortedSets.Arena

/-!
# The sorted sets on their nodes

The API with every tree in the heap: a re-score deletes a node and makes a new one, a
removal deletes one. All runs answer as those on trees that are values, NaN scores
included, and destroying the sets at the end leaves no node behind.
-/
namespace Chrono
open Library

/-- The score maps of the sets, and their trees, named by the keys of the sets. -/
structure HeapSets (α : Type) where
  memberScores : Table Bytes (Table Bytes (Score α))
  trees : TreeArena Bytes (AVLTreeNodeValue α)

namespace HeapSets
variable {α : Type} [LinearOrder α]

def empty : HeapSets α := ⟨fun _ => none, TreeArena.empty⟩

def zadd (api : HeapSets α) (key : Bytes) (score : Score α) (member : Bytes) :
    Defined (Bool × HeapSets α) :=
  let (memberScore, store) := api.memberScores.getOrAdd key fun _ => none
  match memberScore member with
  | some existing =>
    if existing.eq score then some (false, ⟨store, api.trees⟩)
    else do
      let (_, trees) ← api.trees.erase key ⟨member, existing⟩
      let (_, trees) ← trees.insert key ⟨member, score⟩
      some (false, ⟨store.insert key (memberScore.insert member score), trees⟩)
  | none => do
    let (_, trees) ← api.trees.insert key ⟨member, score⟩
    some (true, ⟨store.insert key (memberScore.insert member score), trees⟩)

def zscore (api : HeapSets α) (key member : Bytes) : Option (Score α) :=
  do (← api.memberScores key) member

def zrem (api : HeapSets α) (key member : Bytes) : Defined (Bool × HeapSets α) :=
  match api.memberScores key with
  | none => some (false, api)
  | some memberScore =>
    match memberScore member with
    | none => some (false, api)
    | some score => do
      let (_, trees) ← api.trees.erase key ⟨member, score⟩
      some (true, ⟨api.memberScores.insert key (memberScore.erase member), trees⟩)

def zrank (api : HeapSets α) (key member : Bytes) : Defined (Option ℕ) :=
  match api.zscore key member with
  | none => some none
  | some score => do some (some (← api.trees.rank key ⟨member, score⟩))

/-- The destructors of the sets, in the order in which the nodes of the store are deleted. -/
def destroy (api : HeapSets α) : List Bytes → Defined (HeapSets α)
  | [] => some api
  | key :: keys => do
    let trees ← api.trees.destroy key
    destroy ⟨api.memberScores.erase key, trees⟩ keys

end HeapSets

namespace SetOp
variable {α : Type} [LinearOrder α]

def runHeap : SetOp (Score α) → HeapSets α → Defined (SetResult (Score α) × HeapSets α)
  | zadd key score member, api => do
    let (b, api) ← api.zadd key score member
    some (.flag b, api)
  | zscore key member, api => some (.score (api.zscore key member), api)
  | zrem key member, api => do
    let (b, api) ← api.zrem key member
    some (.flag b, api)
  | zrank key member, api => do some (.rank (← api.zrank key member), api)

end SetOp

def heapSetsMachine (α : Type) [LinearOrder α] :
    Machine (HeapSets α) (SetOp (Score α)) (Defined (SetResult (Score α))) where
  step api op := match op.runHeap api with
    | some (result, api) => (some result, api)
    | none => (none, api)

/-- The heap holds the trees of the sets; a set that does not exist has an empty tree. -/
structure HeapSets.Keeps {α : Type} (api : HeapSets α) (sets : SortedSetsAPI α)
    (layouts : Bytes → AVLTreeNode (Addr × AVLTreeNodeValue α)) : Prop where
  scores : ∀ key, api.memberScores key = (sets.sortedSetStore key).map SortedSet.memberScore
  trees : api.trees.Keeps (fun key => (sets.setAt key).tree) layouts

namespace HeapSets
variable {α : Type} {api : HeapSets α} {sets : SortedSetsAPI α}
  {layouts : Bytes → AVLTreeNode (Addr × AVLTreeNodeValue α)}

theorem keeps_empty : (empty : HeapSets α).Keeps SortedSetsAPI.empty fun _ => .nullptr :=
  ⟨fun _ => rfl, TreeArena.keeps_empty⟩

/-- A set that was looked up or created is replaced by one with other scores and another tree. -/
theorem Keeps.insert (hs : api.Keeps sets layouts) {key : Bytes} {zset : SortedSet α}
    {store : Table Bytes (Table Bytes (Score α))} {trees : TreeArena Bytes (AVLTreeNodeValue α)}
    {layouts' : Bytes → AVLTreeNode (Addr × AVLTreeNodeValue α)}
    (hkey : store key = some zset.memberScore) (hother : ∀ k, k ≠ key → store k = api.memberScores k)
    (htrees : trees.Keeps
      (Function.update (fun key => (sets.setAt key).tree) key zset.tree) layouts') :
    Keeps ⟨store, trees⟩ ⟨sets.sortedSetStore.insert key zset⟩ layouts' where
  scores k := by
    by_cases hk : k = key
    · subst hk
      simp [hkey]
    · simp [hk, hother, hs.scores]
  trees := by
    convert htrees using 1
    funext k
    by_cases hk : k = key
    · subst hk
      simp [SortedSetsAPI.setAt]
    · simp [hk, SortedSetsAPI.setAt]

theorem Keeps.getOrAdd (hs : api.Keeps sets layouts) (key : Bytes) :
    ∃ store, api.memberScores.getOrAdd key (fun _ => none) = ((sets.setAt key).memberScore, store) ∧
      store key = some (sets.setAt key).memberScore ∧ ∀ k, k ≠ key →
      store k = api.memberScores k := by
  have hscores := hs.scores key
  cases hset : sets.sortedSetStore key with
  | none =>
    rw [hset] at hscores
    refine ⟨api.memberScores.insert key fun _ => none, ?_, ?_, fun k hk => Table.insert_other _ _ hk⟩
    · simp [Table.getOrAdd, hscores, SortedSetsAPI.setAt, hset, SortedSet.empty]
    · simp [SortedSetsAPI.setAt, hset, SortedSet.empty]
  | some zset =>
    rw [hset] at hscores
    refine ⟨api.memberScores, ?_, ?_, fun _ _ => rfl⟩
    · simp [Table.getOrAdd, hscores, SortedSetsAPI.setAt, hset]
    · simp [hscores, SortedSetsAPI.setAt, hset]

variable [LinearOrder α]

/-- The set of the key is looked up or created, changed and put back. -/
theorem zadd_eq (sets : SortedSetsAPI α) (key : Bytes) (score : Score α) (member : Bytes) :
    sets.zadd key score member = (((sets.setAt key).zadd score member).1,
      ⟨sets.sortedSetStore.insert key ((sets.setAt key).zadd score member).2⟩) := by
  cases hset : sets.sortedSetStore key with
  | none =>
    simp [SortedSetsAPI.zadd, SortedSetsAPI.getOrCreateSet, Table.getOrAdd, SortedSetsAPI.setAt,
      hset, Table.insert]
  | some zset =>
    simp [SortedSetsAPI.zadd, SortedSetsAPI.getOrCreateSet, Table.getOrAdd, SortedSetsAPI.setAt, hset]

theorem Keeps.zadd (hs : api.Keeps sets layouts) (key : Bytes) (score : Score α) (member : Bytes) :
    ∃ api' layouts', api.zadd key score member = some ((sets.zadd key score member).1, api') ∧
      api'.Keeps (sets.zadd key score member).2 layouts' := by
  obtain ⟨store, hstore, hkey, hother⟩ := hs.getOrAdd key
  have hinsert : ∀ scores k, k ≠ key → store.insert key scores k = api.memberScores k := by
    intro scores k hk
    rw [Table.insert_other _ _ hk, hother k hk]
  rw [zadd_eq]
  cases hmember : (sets.setAt key).memberScore member with
  | none =>
    obtain ⟨trees, layouts', hcall, htrees⟩ := hs.trees.insert key ⟨member, score⟩
    refine ⟨⟨store.insert key ((sets.setAt key).memberScore.insert member score), trees⟩,
      layouts', ?_, ?_⟩
    · simp [HeapSets.zadd, hstore, hmember, hcall, SortedSet.zadd]
    · refine hs.insert ?_ (hinsert _) ?_
      · simp [SortedSet.zadd, hmember]
      · simpa [SortedSet.zadd, hmember] using htrees
  | some existing =>
    by_cases heq : existing.eq score
    · refine ⟨⟨store, api.trees⟩, layouts, ?_, ?_⟩
      · simp [HeapSets.zadd, hstore, hmember, heq, SortedSet.zadd]
      · refine hs.insert ?_ hother ?_
        · simpa [SortedSet.zadd, hmember, heq] using hkey
        · simpa [SortedSet.zadd, hmember, heq] using hs.trees
    · obtain ⟨trees, layouts₁, hcall, htrees⟩ := hs.trees.erase key ⟨member, existing⟩
      obtain ⟨trees', layouts₂, hcall', htrees'⟩ := htrees.insert key ⟨member, score⟩
      refine ⟨⟨store.insert key ((sets.setAt key).memberScore.insert member score), trees'⟩,
        layouts₂, ?_, ?_⟩
      · simp [HeapSets.zadd, hstore, hmember, heq, hcall, hcall', SortedSet.zadd]
      · refine hs.insert ?_ (hinsert _) ?_
        · simp [SortedSet.zadd, hmember, heq]
        · simpa [SortedSet.zadd, hmember, heq] using htrees'

omit [LinearOrder α] in
theorem Keeps.zscore (hs : api.Keeps sets layouts) (key member : Bytes) :
    api.zscore key member = (sets.setAt key).memberScore member := by
  cases hset : sets.sortedSetStore key with
  | none => simp [HeapSets.zscore, hs.scores, hset, SortedSetsAPI.setAt, SortedSet.empty]
  | some zset => simp [HeapSets.zscore, hs.scores, hset, SortedSetsAPI.setAt]

theorem Keeps.zrem (hs : api.Keeps sets layouts) (key member : Bytes) :
    ∃ api' layouts', api.zrem key member = some ((sets.zrem key member).1, api') ∧
      api'.Keeps (sets.zrem key member).2 layouts' := by
  cases hset : sets.sortedSetStore key with
  | none =>
    refine ⟨api, layouts, ?_, ?_⟩
    · simp [HeapSets.zrem, hs.scores, hset, SortedSetsAPI.zrem]
    · simpa [SortedSetsAPI.zrem, hset] using hs
  | some zset =>
    have hat : sets.setAt key = zset := by simp [SortedSetsAPI.setAt, hset]
    have hkey : api.memberScores key = some zset.memberScore := by simp [hs.scores, hset]
    cases hmember : zset.memberScore member with
    | none =>
      refine ⟨api, layouts, ?_, ?_⟩
      · simp [HeapSets.zrem, hkey, hmember, SortedSetsAPI.zrem, hset, SortedSet.zrem]
      · simp only [SortedSetsAPI.zrem, hset, SortedSet.zrem, hmember]
        refine hs.insert hkey (fun _ _ => rfl) ?_
        simpa [← hat] using hs.trees
    | some score =>
      obtain ⟨trees, layouts', hcall, htrees⟩ := hs.trees.erase key ⟨member, score⟩
      refine ⟨⟨api.memberScores.insert key (zset.memberScore.erase member), trees⟩, layouts', ?_, ?_⟩
      · simp [HeapSets.zrem, hkey, hmember, hcall, SortedSetsAPI.zrem, hset, SortedSet.zrem]
      · simp only [SortedSetsAPI.zrem, hset, SortedSet.zrem, hmember]
        refine hs.insert (by simp) (fun k hk => Table.insert_other _ _ hk) ?_
        simpa [hat] using htrees

theorem Keeps.zrank (hs : api.Keeps sets layouts) (key member : Bytes) :
    api.zrank key member = some (sets.zrank key member) := by
  rw [HeapSets.zrank, hs.zscore, SortedSetsAPI.zrank_eq, SortedSet.zrank]
  cases (sets.setAt key).memberScore member with
  | none => rfl
  | some score => simp [hs.trees.rank]

theorem Keeps.step (hs : api.Keeps sets layouts) (op : SetOp (Score α)) :
    ((heapSetsMachine α).step api op).1 = some ((setsMachine α).step sets op).1 ∧
      ∃ layouts', ((heapSetsMachine α).step api op).2.Keeps
        ((setsMachine α).step sets op).2 layouts' := by
  cases op with
  | zadd key score member =>
    obtain ⟨api', layouts', hcall, hs'⟩ := hs.zadd key score member
    simp only [heapSetsMachine, setsMachine, SetOp.runHeap, SetOp.run, hcall]
    exact ⟨rfl, layouts', hs'⟩
  | zscore key member =>
    simp only [heapSetsMachine, setsMachine, SetOp.runHeap, SetOp.run, hs.zscore,
      SortedSetsAPI.zscore_eq]
    exact ⟨trivial, layouts, hs⟩
  | zrem key member =>
    obtain ⟨api', layouts', hcall, hs'⟩ := hs.zrem key member
    simp only [heapSetsMachine, setsMachine, SetOp.runHeap, SetOp.run, hcall]
    exact ⟨rfl, layouts', hs'⟩
  | zrank key member =>
    simp only [heapSetsMachine, setsMachine, SetOp.runHeap, SetOp.run, hs.zrank]
    exact ⟨rfl, layouts, hs⟩

omit [LinearOrder α] in
theorem Keeps.destroy (hs : api.Keeps sets layouts) (keys : List Bytes) :
    ∃ api' layouts', api.destroy keys = some api' ∧
      api'.Keeps ⟨fun key => if key ∈ keys then none else sets.sortedSetStore key⟩ layouts' := by
  induction keys generalizing api sets layouts with
  | nil =>
    simp only [List.not_mem_nil, if_false]
    exact ⟨api, layouts, rfl, hs⟩
  | cons key keys ih =>
    obtain ⟨trees, layouts₁, hcall, -, htrees⟩ := hs.trees.destroy key
    have hs₁ : Keeps ⟨api.memberScores.erase key, trees⟩
        ⟨sets.sortedSetStore.erase key⟩ layouts₁ := by
      constructor
      · intro k
        by_cases hk : k = key
        · simp [hk]
        · simp [hk, hs.scores]
      · convert htrees using 1
        funext k
        by_cases hk : k = key
        · simp [hk, SortedSetsAPI.setAt, SortedSet.empty]
        · simp [hk, SortedSetsAPI.setAt]
    obtain ⟨api', layouts', hrest, hs'⟩ := ih hs₁
    refine ⟨api', layouts', by simp [HeapSets.destroy, hcall, hrest], ?_⟩
    convert hs' using 2
    funext k
    by_cases hk : k = key <;> simp [hk]

omit [LinearOrder α] in
theorem Keeps.cells_eq_none (hs : api.Keeps sets layouts)
    (hgone : ∀ key, sets.sortedSetStore key = none) (a : Addr) :
    api.trees.heap.cells a = none := by
  rw [← Option.not_isSome_iff_eq_none, hs.trees.ledger.live]
  rintro ⟨key, ha⟩
  have hvalues := hs.trees.values key
  have hlayout : layouts key = .nullptr := by
    cases hl : layouts key with
    | nullptr => rfl
    | node v l r k s =>
      simp [hl, SortedSetsAPI.setAt, hgone, SortedSet.empty, AVLTree.empty] at hvalues
  simp [hlayout, AVLTreeNode.footprint_nullptr] at ha

end HeapSets

section
variable {α : Type} [LinearOrder α]

theorem HeapSets.keeps_after (ops : List (SetOp (Score α))) :
    ∃ layouts, ((heapSetsMachine α).after HeapSets.empty ops).Keeps
      ((setsMachine α).after SortedSetsAPI.empty ops) layouts := by
  apply (heapSetsMachine α).after_related (R := fun api sets =>
    ∃ layouts, HeapSets.Keeps api sets layouts)
  · rintro api sets op ⟨layouts, hs⟩
    exact (hs.step op).2
  · exact ⟨_, HeapSets.keeps_empty⟩

/-- Over every run, whatever the scores, the sets answer on their nodes as on trees that
are values, and no operation does anything undefined. -/
theorem sorted_sets_pointers (ops : List (SetOp (Score α))) :
    (heapSetsMachine α).outputs HeapSets.empty ops =
      ((setsMachine α).outputs SortedSetsAPI.empty ops).map some := by
  have houtputs := (heapSetsMachine α).outputs_map (N := setsMachine α) id some
    (R := fun api sets => ∃ layouts, HeapSets.Keeps api sets layouts)
    (fun api sets op ⟨layouts, hs⟩ => hs.step op) ⟨_, HeapSets.keeps_empty⟩ ops
  rwa [List.map_id] at houtputs

/-- After every run, destroying the sets that exist, in any order, deletes every node. -/
theorem sorted_sets_freed (ops : List (SetOp (Score α))) {keys : List Bytes}
    (hkeys : ∀ key, (((heapSetsMachine α).after HeapSets.empty ops).memberScores key).isSome →
      key ∈ keys) :
    ∃ api, ((heapSetsMachine α).after HeapSets.empty ops).destroy keys = some api ∧
      ∀ a, api.trees.heap.cells a = none := by
  obtain ⟨layouts, hs⟩ := HeapSets.keeps_after ops
  obtain ⟨api, layouts', hdestroy, hs'⟩ := hs.destroy keys
  refine ⟨api, hdestroy, hs'.cells_eq_none fun key => ?_⟩
  by_cases hkey : key ∈ keys
  · simp [hkey]
  · have hnone := mt (hkeys key) hkey
    rw [hs.scores] at hnone
    simpa [hkey] using hnone

end

/-- Two sets, one with a NaN, a re-score and a removal. -/
def sampleHeapOps : List (SetOp (Score ℤ)) :=
  [.zadd (lit "s") (.num 3) (lit "a"), .zadd (lit "s") (.num 1) (lit "b"),
    .zadd (lit "t") .nan (lit "a"), .zadd (lit "s") (.num 5) (lit "b"), .zrem (lit "s") (lit "a")]

theorem sorted_sets_freed_witness :
    ∃ api, ((heapSetsMachine ℤ).after HeapSets.empty sampleHeapOps).destroy [lit "t", lit "s"] =
      some api ∧
      ∀ a, api.trees.heap.cells a = none := by
  apply sorted_sets_freed
  intro key hkey
  by_contra hnot
  simp only [List.mem_cons, List.not_mem_nil, or_false, not_or] at hnot
  obtain ⟨layouts, hs⟩ := HeapSets.keeps_after sampleHeapOps
  have hnone : ((setsMachine ℤ).after SortedSetsAPI.empty sampleHeapOps).sortedSetStore key =
      none := by
    simp [sampleHeapOps, setsMachine, SetOp.run, HeapSets.zadd_eq, SortedSetsAPI.zrem, hnot,
      SortedSetsAPI.empty]
  simp [hs.scores, hnone] at hkey

end Chrono
