import Mathlib.Logic.Relation
import Chrono.KvStore.Locks
import Chrono.Library.Transactions

/-!
# Sections are serializable

In every interleaving the hash map is what the write sections leave when each is one step,
in the order in which they were left. A worker in a section sees its own changes on top of
the sections that were left before, and a reader sees those.
-/
namespace Chrono
open Library

variable {W K V : Type}

def StoreOp.onEntry : StoreOp V → Option V → Option V
  | .set value, _ => some value
  | .getOrAdd init, entry => some (entry.getD init)
  | .remove, _ => none
  | .overwrite value, entry => entry.map fun _ => value

theorem StoreOp.onTable_eq [DecidableEq K] (op : StoreOp V) (key : K) (m : Table K V) :
    op.onTable key m = Function.update m key (op.onEntry (m key)) := by
  cases op with
  | set value => rfl
  | remove => rfl
  | getOrAdd init =>
    rw [onTable, Table.getOrAdd]
    cases hkey : m key with
    | none => rfl
    | some v => exact (Function.update_eq_self_iff.mpr hkey.symm).symm
  | overwrite value =>
    rw [onTable]
    cases hkey : m key with
    | none =>
      rw [if_pos rfl]
      exact (Function.update_eq_self_iff.mpr hkey.symm).symm
    | some v =>
      rw [if_neg (by simp)]
      rfl

/-- The key whose entry a worker may change. -/
def Pc.section? : Pc K → Option K
  | .writing key _ | .measured key _ _ => some key
  | _ => none

theorem Pc.section?_eq_some {p : Pc K} {key : K} : p.section? = some key ↔ p.Writes key := by
  cases p <;> simp [section?, Writes]

namespace LockedMap

/-- The map, the sections that were left, and those that are open. -/
structure History (W K V : Type) where
  map : LockedMap W K V
  finished : List (Transaction K (StoreOp V))
  opened : W → Option (Transaction K (StoreOp V))

namespace History

def start (store : KVStore K V) : History W K V := ⟨.create store, [], fun _ => none⟩

variable [DecidableEq W]

/-- A worker goes on: it may enter a section, or leave one. -/
def advance (h : History W K V) (w : W) (map : LockedMap W K V) : History W K V :=
  match (h.map.pc w).section?, (map.pc w).section? with
  | none, some key => ⟨map, h.finished, Function.update h.opened w (some ⟨key, []⟩)⟩
  | some _, none => ⟨map, h.finished ++ (h.opened w).toList, Function.update h.opened w none⟩
  | _, _ => ⟨map, h.finished, h.opened⟩

@[simp] theorem advance_map (h : History W K V) (w : W) (map : LockedMap W K V) :
    (h.advance w map).map = map := by
  rw [advance]
  split <;> rfl

variable [DecidableEq K] (hash : K → UInt64)

inductive Step : History W K V → History W K V → Prop
  | move {h : History W K V} {w : W} {map : LockedMap W K V} (hstep : Moves hash w h.map map) :
      Step h (h.advance w map)
  | mutate {h : History W K V} {w : W} {key : K} {i : Fin numSlices} {store : KVStore K V} (op : StoreOp V)
      (hpc : h.map.pc w = .writing key i) (hrun : op.run hash key h.map.store = some store) :
      Step h { h with
        map := { h.map with store := store }
        opened := Function.update h.opened w ((h.opened w).map fun t => ⟨t.key, t.ops ++ [op]⟩) }

variable {hash}

/-- Recording leaves the steps of the workers as they are. -/
theorem step_iff {h : History W K V} {map : LockedMap W K V} :
    (∃ h', Step hash h h' ∧ h'.map = map) ↔ ∃ w, Moves hash w h.map map ∨
    ∃ key, Mutates hash w key h.map map := by
  constructor
  · rintro ⟨h', hstep, rfl⟩
    cases hstep with
    | @move w map hstep => exact ⟨w, .inl (by rwa [advance_map])⟩
    | @mutate w key i store op hpc hrun => exact ⟨w, .inr ⟨key, .run op hpc hrun⟩⟩
  · rintro ⟨w, hstep | ⟨key, hstep⟩⟩
    · exact ⟨_, .move hstep, advance_map h w map⟩
    · cases hstep with
      | run op hpc hrun => exact ⟨_, .mutate op hpc hrun, rfl⟩

/-- The locks are in order, each open section is that of its worker, and the map has the open
sections on top of those that were left. -/
structure Consistent (hash : K → UInt64) (h : History W K V) : Prop where
  locks : Inv hash h.map
  opened : ∀ w, (h.opened w).map (·.key) = (h.map.pc w).section?
  store : ∃ c m, h.map.store.Represents hash c m ∧
    Transaction.InPlace StoreOp.onEntry
      (Transaction.serial StoreOp.onEntry (fun _ => none) h.finished) m h.opened

omit [DecidableEq W] in
theorem consistent_start {capacity : Int32} {threshold : ℚ} {store : KVStore K V}
    (hcreate : KVStore.create capacity threshold = .ok store) :
    Consistent hash (start store : History W K V) where
  locks := Inv.create hcreate
  opened _ := rfl
  store := by
    obtain ⟨c, hrep⟩ := KVStore.represents_of_create hash hcreate
    exact ⟨c, _, hrep, Transaction.InPlace.start⟩

omit [DecidableEq K] in
/-- A step that changes no chain leaves the entries as they are. -/
theorem Moves.represents {s s' : LockedMap W K V} {w : W} {c : ℕ → Chain K V} {m : Table K V}
    (hstep : Moves hash w s s') (hrep : s.store.Represents hash c m) :
    ∃ c', s'.store.Represents hash c' m := by
  cases hstep with
  | @rehash newCapacity hpc => exact hrep.rehashTo newCapacity
  | _ => exact ⟨c, hrep⟩

omit [DecidableEq K] in
/-- No step goes from one section to another. -/
theorem Moves.section?_eq {s s' : LockedMap W K V} {w : W} {key key' : K} (hstep : Moves hash w s s')
    (hkey : (s.pc w).section? = some key) (hkey' : (s'.pc w).section? = some key') : key' = key := by
  cases hstep with
  | measure hpc =>
    rw [hpc] at hkey
    rw [goto_pc_self] at hkey'
    exact (Option.some.inj hkey').symm.trans (Option.some.inj hkey)
  | lockSlice hpc =>
    rw [hpc] at hkey
    cases hkey
  | unshareResize | check =>
    rw [goto_pc_self] at hkey'
    split_ifs at hkey' <;> cases hkey'
  | shareResize | locate | lockSliceShared | unlockSliceShared | unlockSlice | unlockMeasured | lockResize
  | requestResize | rehash | unlockResize =>
    rw [goto_pc_self] at hkey'
    cases hkey'

omit [DecidableEq W] in
theorem Consistent.key_of_opened {h : History W K V} (hc : Consistent hash h) {w : W}
    {t : Transaction K (StoreOp V)} (ht : h.opened w = some t) :
    (h.map.pc w).section? = some t.key := by
  rw [← hc.opened w, ht]
  rfl

theorem Consistent.move {h : History W K V} (hc : Consistent hash h) {w : W} {map : LockedMap W K V}
    (hstep : Moves hash w h.map map) : Consistent hash (h.advance w map) := by
  have hlocks := hc.locks.moves hstep
  obtain ⟨c, m, hrep, hplace⟩ := hc.store
  obtain ⟨c', hrep'⟩ := Moves.represents hstep hrep
  have hothers {v : W} (hv : v ≠ w) : (map.pc v).section? = (h.opened v).map (·.key) := by
    rw [hstep.pc_other hv, hc.opened v]
  cases hbefore : (h.map.pc w).section? with
  | none =>
    have hclosed : h.opened w = none := by
      have := hc.opened w
      rwa [hbefore, Option.map_eq_none_iff] at this
    cases hafter : (map.pc w).section? with
    | none =>
      have hadvance : h.advance w map = ⟨map, h.finished, h.opened⟩ := by
        simp [advance, hbefore, hafter]
      rw [hadvance]
      refine ⟨hlocks, fun v => ?_, c', m, hrep', hplace⟩
      by_cases hv : v = w
      · rw [hv, hafter, hclosed]
        rfl
      · exact (hothers hv).symm
    | some key =>
      have hadvance : h.advance w map =
        ⟨map, h.finished, Function.update h.opened w
          (some ⟨key, []⟩)⟩ := by simp [advance, hbefore, hafter]
      rw [hadvance]
      refine ⟨hlocks, fun v => ?_, c', m, hrep', hplace.opens hclosed fun v t ht hkey => ?_⟩
      · by_cases hv : v = w
        · simp [hv, hafter]
        · simp [hv, hothers hv]
      · -- two writers of one key would share its slice
        have hv : v ≠ w := by
          rintro rfl
          rw [hclosed] at ht
          cases ht
        have hwrites : (map.pc v).Writes key := by
          rw [← Pc.section?_eq_some, hothers hv, ht, ← hkey]
          rfl
        exact hv (hlocks.writers_eq hwrites (Pc.section?_eq_some.mp hafter) rfl)
  | some key =>
    obtain ⟨t, ht, rfl⟩ := Option.map_eq_some_iff.mp ((hc.opened w).trans hbefore)
    cases hafter : (map.pc w).section? with
    | none =>
      have hadvance : h.advance w map =
        ⟨map, h.finished ++ [t],
          Function.update h.opened w none⟩ := by simp [advance, hbefore, hafter, ht]
      rw [hadvance]
      refine ⟨hlocks, fun v => ?_, c', m, hrep', ?_⟩
      · by_cases hv : v = w
        · simp [hv, hafter]
        · simp [hv, hothers hv]
      · rw [Transaction.serial_concat]
        exact hplace.closes ht
    | some key =>
      have hadvance : h.advance w map = ⟨map, h.finished, h.opened⟩ := by
        simp [advance, hbefore, hafter]
      rw [hadvance]
      refine ⟨hlocks, fun v => ?_, c', m, hrep', hplace⟩
      by_cases hv : v = w
      · rw [hv, hafter, Moves.section?_eq hstep hbefore hafter, ht]
        rfl
      · exact (hothers hv).symm

theorem Consistent.mutate {h : History W K V} (hc : Consistent hash h) {w : W} {key : K}
    {i : Fin numSlices} {store : KVStore K V} (op : StoreOp V) (hpc : h.map.pc w = .writing key i)
    (hrun : op.run hash key h.map.store = some store) :
    Consistent hash { h with
      map := { h.map with store := store }
      opened := Function.update h.opened w ((h.opened w).map fun t => ⟨t.key, t.ops ++ [op]⟩) } := by
  obtain ⟨c, m, hrep, hplace⟩ := hc.store
  have hsection : (h.map.pc w).section? = some key := by
    rw [hpc]
    rfl
  obtain ⟨t, ht, rfl⟩ := Option.map_eq_some_iff.mp ((hc.opened w).trans hsection)
  obtain ⟨store', c', hrun', hrep', -⟩ := op.run_represents hrep t.key
  obtain rfl : store = store' := Option.some.inj (hrun.symm.trans hrun')
  refine ⟨hc.locks.mutates (.run op hpc hrun), fun v => ?_, c', _, hrep', ?_⟩
  · by_cases hv : v = w
    · simp [hv, ht, hsection]
    · simp [hv, hc.opened v]
  · rw [ht]
    exact hplace.acts ht op (op.onTable_eq t.key m)

theorem Consistent.step {h h' : History W K V} (hc : Consistent hash h) (hstep : Step hash h h') :
    Consistent hash h' := by
  cases hstep with
  | move hstep => exact hc.move hstep
  | mutate op hpc hrun => exact hc.mutate op hpc hrun

theorem Step.finished_prefix {h h' : History W K V} (hstep : Step hash h h') :
    h.finished <+: h'.finished := by
  cases hstep with
  | @move w map hstep =>
    rw [advance]
    split
    · exact List.prefix_rfl
    · exact List.prefix_append _ _
    · exact List.prefix_rfl
  | mutate => exact List.prefix_rfl

/-- The sections that were left, each as one step. -/
def committed (h : History W K V) : Table K V :=
  Transaction.serial StoreOp.onEntry (fun _ => none) h.finished

/-- In every interleaving the write sections are serializable in the order in which they are
left, which later steps keep: outside the open sections the map has what the sections left so
far leave one after the other, and inside a section its worker finds that with its own changes. -/
theorem sections_serialize {capacity : Int32} {threshold : ℚ} {store : KVStore K V}
    (hcreate : KVStore.create capacity threshold = .ok store) {h h' : History W K V}
    (hrun : Relation.ReflTransGen (Step hash) (start store) h)
    (hlater : Relation.ReflTransGen (Step hash) h h') :
    (∀ w key, (h.map.pc w).Reads key → h.map.store.get hash key = some (h.committed key)) ∧
      (∀ w key, (h.map.pc w).Writes key → ∃ ops, h.opened w = some ⟨key, ops⟩ ∧
        h.map.store.get hash key =
          some (ops.foldl (fun entry op => op.onEntry entry) (h.committed key))) ∧
      (∀ key, (∀ w, ¬ (h.map.pc w).Writes key) → h.map.store.get hash key = some (h.committed key)) ∧
      h.finished <+: h'.finished := by
  have hconsistent : Consistent hash h := by
    clear hlater
    induction hrun with
    | refl => exact consistent_start hcreate
    | tail _ hstep ih => exact ih.step hstep
  obtain ⟨c, m, hrep, hplace⟩ := hconsistent.store
  have hquiet (key : K) (hkey : ∀ w, ¬ (h.map.pc w).Writes key) :
      h.map.store.get hash key = some (h.committed key) := by
    rw [hrep.get key, committed]
    refine congrArg some (hplace.closed key fun w t ht heq => hkey w ?_)
    rw [← Pc.section?_eq_some, hconsistent.key_of_opened ht, heq]
  refine ⟨fun w key hw => ?_, fun w key hw => ?_, hquiet, ?_⟩
  · exact hquiet key fun v hv => hconsistent.locks.not_reads hv rfl hw
  · obtain ⟨⟨k, ops⟩, ht, rfl⟩ : ∃ t, h.opened w = some t ∧ t.key = key :=
      Option.map_eq_some_iff.mp ((hconsistent.opened w).trans (Pc.section?_eq_some.mpr hw))
    refine ⟨ops, ht, ?_⟩
    have hnow := hplace.current w _ ht
    rw [Transaction.apply, Function.update_self] at hnow
    rw [hrep.get k]
    exact congrArg some hnow
  · induction hlater with
    | refl => exact List.prefix_rfl
    | tail _ hstep ih => exact ih.trans hstep.finished_prefix

/-- One worker has left its section, another one is inside the section of another key. -/
theorem sections_serialize_witness : ∃ h : History Bool ℕ ℕ,
    h.finished = [⟨0, [.set 7]⟩] ∧ (h.map.pc false).Writes 1 ∧
      h.map.store.get Nat.toUInt64 0 = some (h.committed 0) ∧
      ∃ ops, h.opened false = some ⟨1, ops⟩ ∧ h.map.store.get Nat.toUInt64 1 =
        some (ops.foldl (fun entry op => op.onEntry entry) (h.committed 1)) := by
  have hstart {store : KVStore ℕ ℕ} (_ : KVStore.create 2 (3 / 4) = .ok store) :
    Relation.ReflTransGen (Step Nat.toUInt64) (start store : History Bool ℕ ℕ) (start store) := .refl
  have h := hstart (rfl : KVStore.create 2 (3 / 4) = .ok _)
  have h := h.tail (.move (w := true) (.shareResize .write 0 rfl rfl))
  have h := h.tail (.move (w := true) (.locate rfl))
  have h := h.tail (.move (w := true) (.lockSlice rfl rfl))
  have h := h.tail (.move (w := false) (.shareResize .write 1 rfl rfl))
  have h := h.tail (.move (w := false) (.locate rfl))
  have h := h.tail (.move (w := false) (.lockSlice rfl rfl))
  have h := h.tail (.mutate (w := true) (.set 7) rfl rfl)
  have h := h.tail (.mutate (w := false) (.set 8) rfl rfl)
  have h := h.tail (.move (w := true) (.unlockSlice rfl))
  obtain ⟨-, hopen, hquiet, -⟩ := sections_serialize (rfl : KVStore.create 2 (3 / 4) = .ok _) h .refl
  refine ⟨_, ?_, ?_, hquiet 0 ?_, hopen false 1 ?_⟩
  · rfl
  · rfl
  · intro w
    cases w with
    | true => exact id
    | false => exact Nat.one_ne_zero
  · rfl

end History
end LockedMap
end Chrono
