import Chrono.Cache.Logger
import Chrono.KvStore.Locks

/-!
# Logging inside the write sections

While the cache is `READY`, a call changes its key inside a write section of the
hash map and logs the change there. `next_seq` looks the counter up and then
increments it through the pointer, in two accesses that no lock of its own
holds together.
-/
namespace Chrono

namespace CacheEventLogger

def getOrAddCounter (l : CacheEventLogger) (key : Bytes) : CacheEventLogger :=
  ⟨(l.seqCounters.getOrAdd key 0).2⟩

def storeCounter (l : CacheEventLogger) (key : Bytes) (seq : ℕ) : CacheEventLogger :=
  ⟨l.seqCounters.insert key seq⟩

@[simp] theorem counter_getOrAddCounter (l : CacheEventLogger) (key k : Bytes) :
    (l.getOrAddCounter key).counter k = l.counter k := by
  unfold getOrAddCounter counter Table.getOrAdd
  cases hkey : l.seqCounters key with
  | some seq => rfl
  | none =>
    by_cases hk : k = key
    · simp [hk, hkey]
    · simp [hk]

@[simp] theorem counter_storeCounter_same (l : CacheEventLogger) (key : Bytes) (seq : ℕ) :
    (l.storeCounter key seq).counter key = seq := by simp [storeCounter, counter]

@[simp] theorem counter_storeCounter_other (l : CacheEventLogger) {key k : Bytes} (seq : ℕ)
    (h : k ≠ key) :
    (l.storeCounter key seq).counter k = l.counter k := by simp [storeCounter, counter, h]

/-- `next_seq`, when nothing comes between its accesses. -/
theorem nextSeq_eq (l : CacheEventLogger) (key : Bytes) :
    l.nextSeq key =
      (l.counter key + 1, (l.getOrAddCounter key).storeCounter key (l.counter key + 1)) := by
  unfold nextSeq storeCounter getOrAddCounter Table.getOrAdd
  cases l.seqCounters key with
  | some seq => rfl
  | none => simp [Table.insert]

end CacheEventLogger

/-- How far a worker is with the change that it makes inside its write section, and with
logging it; `effect` is the time at which the change took effect. -/
inductive Stage where
  | entered
  | mutated (effect : ℕ)
  | counted (effect : ℕ)
  | loaded (effect value : ℕ)
  | stored (effect seq : ℕ)
  | logged
deriving DecidableEq, Repr

/-- Outside of a `log_*` call. -/
def Stage.Calm : Stage → Prop
  | .entered | .mutated _ | .logged => True
  | _ => False

/-- An event of the topic, with the time at which the change it reports took effect. -/
structure Logged where
  event : CacheEvent
  effect : ℕ

/-- The hash map of a cache that is `READY`, its workers and its event log. -/
structure LoggedMap (W V : Type) where
  map : LockedMap W Bytes V
  stage : W → Stage
  logger : CacheEventLogger
  clock : ℕ
  log : List Logged

namespace LoggedMap
variable {W V : Type}

def create (store : KVStore Bytes V) (logger : CacheEventLogger) : LoggedMap W V :=
  ⟨.create store, fun _ => .entered, logger, 0, []⟩

section
variable [DecidableEq W] (hash : Bytes → UInt64)

def enter (s : LoggedMap W V) (w : W) (stage : Stage) : LoggedMap W V :=
  { s with stage := Function.update s.stage w stage }

/-- One step of one worker. A callback may throw, so that a section can be left at every stage. -/
inductive Step (w : W) : LoggedMap W V → LoggedMap W V → Prop
  | move {s : LoggedMap W V} {m : LockedMap W Bytes V} (hmove : s.map.Moves hash w m) :
      Step w s ({ s with map := m }.enter w .entered)
  | mutate {s : LoggedMap W V} {m : LockedMap W Bytes V} {key : Bytes} (hstage : (s.stage w).Calm)
      (hmutate : s.map.Mutates hash w key m) :
      Step w s ({ s with map := m, clock := s.clock + 1 }.enter w (.mutated s.clock))
  | count {s : LoggedMap W V} {key : Bytes} {i : Fin numSlices} {effect : ℕ} (hpc : s.map.pc w = .writing key i)
      (hstage : s.stage w = .mutated effect) :
      Step w s ({ s with logger := s.logger.getOrAddCounter key }.enter w (.counted effect))
  | load {s : LoggedMap W V} {key : Bytes} {i : Fin numSlices} {effect : ℕ} (hpc : s.map.pc w = .writing key i)
      (hstage : s.stage w = .counted effect) :
      Step w s (s.enter w (.loaded effect (s.logger.counter key)))
  | store {s : LoggedMap W V} {key : Bytes} {i : Fin numSlices} {effect value : ℕ}
      (hpc : s.map.pc w = .writing key i) (hstage : s.stage w = .loaded effect value) :
      Step w s ({ s with logger := s.logger.storeCounter key (value + 1) }.enter w
        (.stored effect (value + 1)))
  | produce {s : LoggedMap W V} {key : Bytes} {i : Fin numSlices} {effect seq : ℕ} (event : CacheEvent)
      (hpc : s.map.pc w = .writing key i) (hstage : s.stage w = .stored effect seq)
      (hkey : event.key = key)
      (hseq : event.seq = seq) :
      Step w s ({ s with log := s.log ++ [Logged.mk event effect] }.enter w .logged)
  /-- `dump()` threw, or the broker did not take the event. -/
  | lose {s : LoggedMap W V} {key : Bytes} {i : Fin numSlices} {effect seq : ℕ}
      (hpc : s.map.pc w = .writing key i) (hstage : s.stage w = .stored effect seq) :
      Step w s (s.enter w .logged)

/-- The states of every interleaving of the workers. -/
inductive Reachable : LoggedMap W V → Prop
  | create {capacity : Int32} {threshold : ℚ} {store : KVStore Bytes V} (logger : CacheEventLogger)
      (h : KVStore.create capacity threshold = .ok store) : Reachable (create store logger)
  | step {s s' : LoggedMap W V} {w : W} (hs : Reachable s) (hstep : Step hash w s s') : Reachable s'

end

/-! ## The numbers of the events -/

/-- The change at `effect` came after all changes of the key that are in the log. -/
def After (s : LoggedMap W V) (key : Bytes) (effect : ℕ) : Prop :=
  effect < s.clock ∧ ∀ x ∈ s.log, x.event.key = key → x.effect < effect

/-- What is known at a stage inside a write section of the key. -/
def Agrees (s : LoggedMap W V) (key : Bytes) : Stage → Prop
  | .entered | .logged => True
  | .mutated effect | .counted effect => s.After key effect
  | .loaded effect value => s.After key effect ∧ value = s.logger.counter key
  | .stored effect seq =>
    s.After key effect ∧ seq = s.logger.counter key ∧
      ∀ x ∈ s.log, x.event.key = key → x.event.seq < seq

/-- Two events of one key carry their numbers in the order of the changes that they report. -/
def Ordered (x y : Logged) : Prop :=
  x.event.key = y.event.key → x.event.seq < y.event.seq ∧ x.effect < y.effect

structure Numbered (s : LoggedMap W V) : Prop where
  bounded : ∀ x ∈ s.log, x.event.seq ≤ s.logger.counter x.event.key ∧ x.effect < s.clock
  ordered : s.log.Pairwise Ordered
  stages : ∀ w key i, s.map.pc w = .writing key i → s.Agrees key (s.stage w)

section
variable {s s' : LoggedMap W V} {w : W} {key : Bytes}

/-- What is known in a section stays known while the counter and the events of its key stay. -/
theorem Agrees.frame {stage : Stage} (h : s.Agrees key stage) (hclock : s.clock ≤ s'.clock)
    (hcounter : s'.logger.counter key = s.logger.counter key)
    (hlog : ∀ x ∈ s'.log, x.event.key = key → x ∈ s.log) : s'.Agrees key stage := by
  have hafter {effect : ℕ} (ha : s.After key effect) : s'.After key effect :=
    ⟨lt_of_lt_of_le ha.1 hclock, fun x hx hkey => ha.2 x (hlog x hx hkey) hkey⟩
  cases stage with
  | entered | logged => trivial
  | mutated effect | counted effect => exact hafter h
  | loaded effect value => exact ⟨hafter h.1, h.2.trans hcounter.symm⟩
  | stored effect seq =>
    exact ⟨hafter h.1, h.2.1.trans hcounter.symm, fun x hx hkey => h.2.2 x (hlog x hx hkey) hkey⟩

theorem Numbered.stages_of [DecidableEq W] (h : Numbered s) {stage : Stage}
    (hstage : s'.stage = Function.update s.stage w stage)
    (hpc : ∀ v, v ≠ w → s'.map.pc v = s.map.pc v) (hclock : s.clock ≤ s'.clock)
    (hself : ∀ key i, s'.map.pc w = .writing key i → s'.Agrees key stage)
    (hframe : ∀ v key i, v ≠ w → s.map.pc v = .writing key i → s'.logger.counter key =
      s.logger.counter key ∧
      ∀ x ∈ s'.log, x.event.key = key → x ∈ s.log)
    (v : W) (key : Bytes) (i : Fin numSlices) (hv : s'.map.pc v = .writing key i) :
    s'.Agrees key (s'.stage v) := by
  rw [hstage]
  by_cases hvw : v = w
  · subst hvw
    rw [Function.update_self]
    exact hself key i hv
  · rw [Function.update_of_ne hvw]
    rw [hpc v hvw] at hv
    obtain ⟨hcounter, hlog⟩ := hframe v key i hvw hv
    exact (h.stages v key i hv).frame hclock hcounter hlog

variable {hash : Bytes → UInt64}

theorem key_ne (hlocks : s.map.Inv hash) {i : Fin numSlices} (hw : s.map.pc w = .writing key i)
    {v : W} {k : Bytes} {j : Fin numSlices} (hvw : v ≠ w) (hv : s.map.pc v = .writing k j) :
    k ≠ key := by
  rintro rfl
  exact hvw (hlocks.writers_eq (by rw [hv]; rfl) (by rw [hw]; rfl) rfl)

/-- A step of a worker inside its write section: the other sections are of other keys. -/
theorem Numbered.stages_within [DecidableEq W] (hlocks : s.map.Inv hash) (h : Numbered s)
    {i : Fin numSlices} (hpc : s.map.pc w = .writing key i) {stage : Stage} (hmap : s'.map = s.map)
    (hclock : s'.clock = s.clock) (hstage : s'.stage = Function.update s.stage w stage)
    (hself : s'.Agrees key stage) (hcounter : ∀ k, k ≠ key → s'.logger.counter k = s.logger.counter k)
    (hlog : ∀ x ∈ s'.log, x.event.key ≠ key → x ∈ s.log) (v : W) (k : Bytes) (j : Fin numSlices)
    (hv : s'.map.pc v = .writing k j) : s'.Agrees k (s'.stage v) := by
  apply h.stages_of hstage (fun v _ => by rw [hmap]) hclock.ge
  · intro k j hw
    rw [hmap, hpc] at hw
    cases hw
    exact hself
  · intro v k j hvw hv
    have hne := key_ne hlocks hpc hvw hv
    exact ⟨hcounter k hne, fun x hx hkey => hlog x hx (hkey ▸ hne)⟩
  · exact hv

/-- Storing the increment of a counter that was read inside the same section. -/
theorem Numbered.store [DecidableEq W] (hlocks : s.map.Inv hash) (h : Numbered s) {i : Fin numSlices}
    {effect value : ℕ} (hpc : s.map.pc w = .writing key i)
    (hstage : s.stage w = .loaded effect value) :
    Numbered ({ s with logger := s.logger.storeCounter key (value + 1) }.enter w
      (.stored effect (value + 1))) := by
  obtain ⟨hafter, rfl⟩ : s.After key effect ∧ value = s.logger.counter key := by
    have hw := h.stages w key i hpc
    rwa [hstage] at hw
  refine ⟨fun x hx => ⟨?_, (h.bounded x hx).2⟩, h.ordered, ?_⟩
  · have hle := (h.bounded x hx).1
    change x.event.seq ≤ (s.logger.storeCounter key (s.logger.counter key + 1)).counter x.event.key
    by_cases hkey : x.event.key = key
    · rw [hkey] at hle ⊢
      rw [CacheEventLogger.counter_storeCounter_same]
      exact Nat.le_succ_of_le hle
    · rwa [CacheEventLogger.counter_storeCounter_other _ _ hkey]
  · refine h.stages_within hlocks hpc rfl rfl rfl ?_ ?_ ?_
    · refine ⟨hafter, (CacheEventLogger.counter_storeCounter_same _ _ _).symm, fun x hx hkey => ?_⟩
      exact Nat.lt_succ_of_le (hkey ▸ (h.bounded x hx).1)
    · exact fun k hk => CacheEventLogger.counter_storeCounter_other _ _ hk
    · exact fun x hx _ => hx

/-- The event of a section is the last of its key, by its number and by its change. -/
theorem Numbered.produce [DecidableEq W] (hlocks : s.map.Inv hash) (h : Numbered s)
    {i : Fin numSlices} {effect seq : ℕ} {event : CacheEvent} (hpc : s.map.pc w = .writing key i)
    (hstage : s.stage w = .stored effect seq) (hkey : event.key = key) (hseq : event.seq = seq) :
    Numbered ({ s with log := s.log ++ [Logged.mk event effect] }.enter w .logged) := by
  obtain ⟨⟨hclock, hlast⟩, hcounter, habove⟩ : s.After key effect ∧ seq = s.logger.counter key ∧
      ∀ x ∈ s.log, x.event.key = key → x.event.seq < seq := by
    have hw := h.stages w key i hpc
    rwa [hstage] at hw
  refine ⟨fun x hx => ?_, ?_, ?_⟩
  · rcases List.mem_append.mp hx with hx | hx
    · exact h.bounded x hx
    · obtain rfl := List.mem_singleton.mp hx
      exact ⟨le_of_eq (by rw [hseq, hcounter, hkey]; rfl), hclock⟩
  · refine List.pairwise_append.mpr ⟨h.ordered, List.pairwise_singleton _ _,
      fun x hx y hy hsame => ?_⟩
    obtain rfl := List.mem_singleton.mp hy
    have hxkey : x.event.key = key := hsame.trans hkey
    exact ⟨hseq ▸ habove x hx hxkey, hlast x hx hxkey⟩
  · refine h.stages_within hlocks hpc rfl rfl rfl trivial (fun _ _ => rfl) fun x hx hne => ?_
    refine (List.mem_append.mp hx).resolve_right fun hx => hne ?_
    rw [List.mem_singleton.mp hx, hkey]

theorem Numbered.step [DecidableEq W] (hlocks : s.map.Inv hash) (h : Numbered s)
    (hstep : Step hash w s s') :
    Numbered s' := by
  cases hstep with
  | move hmove =>
    refine ⟨h.bounded, h.ordered, h.stages_of rfl (fun v hv => hmove.pc_other hv) le_rfl
      (fun _ _ _ => trivial) ?_⟩
    exact fun _ _ _ _ _ => ⟨rfl, fun _ hx _ => hx⟩
  | mutate hstage hmutate =>
    refine ⟨fun x hx => ⟨(h.bounded x hx).1, Nat.lt_succ_of_lt (h.bounded x hx).2⟩, h.ordered, ?_⟩
    refine h.stages_of rfl (fun v _ => by rw [← hmutate.pc_eq]; rfl) (Nat.le_succ _) ?_ ?_
    · exact fun _ _ _ => ⟨Nat.lt_succ_self _, fun x hx _ => (h.bounded x hx).2⟩
    · exact fun _ _ _ _ _ => ⟨rfl, fun _ hx _ => hx⟩
  | @count key i effect hpc hstage =>
    have hw := h.stages w key i hpc
    rw [hstage] at hw
    have hcounter (k : Bytes) := CacheEventLogger.counter_getOrAddCounter s.logger key k
    refine ⟨fun x hx => ⟨(h.bounded x hx).1.trans (hcounter _).ge, (h.bounded x hx).2⟩, h.ordered, ?_⟩
    exact h.stages_within hlocks hpc rfl rfl rfl hw (fun k _ => hcounter k) fun _ hx _ => hx
  | @load key i effect hpc hstage =>
    have hw := h.stages w key i hpc
    rw [hstage] at hw
    refine ⟨h.bounded, h.ordered, ?_⟩
    exact h.stages_within hlocks hpc rfl rfl rfl ⟨hw, rfl⟩ (fun _ _ => rfl) fun _ hx _ => hx
  | store hpc hstage => exact h.store hlocks hpc hstage
  | produce event hpc hstage hkey hseq => exact h.produce hlocks hpc hstage hkey hseq
  | lose hpc hstage =>
    refine ⟨h.bounded, h.ordered, ?_⟩
    exact h.stages_within hlocks hpc rfl rfl rfl trivial (fun _ _ => rfl) fun _ hx _ => hx

/-- The locks agree with the workers, and the events with the counters, in every reachable state. -/
theorem Reachable.invariant [DecidableEq W] (h : Reachable hash s) : s.map.Inv hash ∧ Numbered s := by
  induction h with
  | create logger hstore =>
    exact ⟨.create hstore, fun _ hx => absurd hx List.not_mem_nil, .nil, fun _ _ _ _ => trivial⟩
  | step _ hstep ih =>
    refine ⟨?_, ih.2.step ih.1 hstep⟩
    cases hstep with
    | move hmove => exact ih.1.moves hmove
    | mutate _ hmutate => exact ih.1.mutates hmutate
    | count | load | store | produce | lose => exact ih.1

/-- In every interleaving: one worker writes in a chain at a time, and nobody reads in it
meanwhile; nobody is inside a section while a worker rehashes; and the events of a key carry
increasing numbers in the order in which its changes took effect. -/
theorem striped_exclusion [DecidableEq W] (h : Reachable hash s) :
    (∀ w w' key key', (s.map.pc w).Writes key → (s.map.pc w').Writes key' →
        s.map.store.computeBucketIndexForKey hash key =
          s.map.store.computeBucketIndexForKey hash key' → w = w') ∧
      (∀ w w' key key', (s.map.pc w).Writes key → (s.map.pc w').Reads key' →
        s.map.store.computeBucketIndexForKey hash key ≠
          s.map.store.computeBucketIndexForKey hash key') ∧
      (∀ w w' key, (s.map.pc w).ownsResize → ¬ (s.map.pc w').Reads key ∧ ¬ (s.map.pc w').Writes key) ∧
      s.log.Pairwise fun x y =>
        x.event.key = y.event.key → x.event.seq < y.event.seq ∧ x.effect < y.effect := by
  obtain ⟨hlocks, hnumbered⟩ := h.invariant
  refine ⟨?_, ?_, ?_, hnumbered.ordered⟩
  · exact fun w w' key key' hw hw' hbucket => hlocks.writers_eq hw hw' hbucket
  · exact fun w w' key key' hw hr hbucket => hlocks.not_reads hw hbucket hr
  · exact fun w w' key hw => hlocks.not_inside hw

def sampleHash (key : Bytes) : UInt64 := if key.head? = some 97 then 0 else 1

theorem striped_exclusion_witness : ∃ s : LoggedMap Bool ℕ,
    (s.map.pc true).Writes (lit "a") ∧ (s.map.pc false).Writes (lit "b") ∧ s.log.length = 1 ∧
      (∀ w w' key key', (s.map.pc w).Writes key → (s.map.pc w').Writes key' →
        s.map.store.computeBucketIndexForKey sampleHash key =
          s.map.store.computeBucketIndexForKey sampleHash key' →
          w = w') ∧
      (∀ w w' key key', (s.map.pc w).Writes key → (s.map.pc w').Reads key' →
        s.map.store.computeBucketIndexForKey sampleHash key ≠
          s.map.store.computeBucketIndexForKey sampleHash key') ∧
      (∀ w w' key, (s.map.pc w).ownsResize → ¬ (s.map.pc w').Reads key ∧ ¬ (s.map.pc w').Writes key) ∧
      s.log.Pairwise fun x y =>
        x.event.key = y.event.key → x.event.seq < y.event.seq ∧ x.effect < y.effect := by
  have h : Reachable sampleHash (create _ .fresh : LoggedMap Bool ℕ) :=
    .create .fresh (rfl : KVStore.create 2 (3 / 4) = .ok _)
  -- one worker sets `a` and logs it
  have h := h.step (.move (w := true) (.shareResize .write (lit "a") rfl rfl))
  have h := h.step (.move (w := true) (.locate rfl))
  have h := h.step (.move (w := true) (.lockSlice rfl rfl))
  have h := h.step (.mutate (w := true) trivial (.run (.set 7) rfl rfl))
  have h := h.step (.count (w := true) rfl rfl)
  have h := h.step (.load (w := true) rfl rfl)
  have h := h.step (.store (w := true) rfl rfl)
  have h := h.step (.produce (w := true) ⟨.set, lit "a", [], -1, 1, 0⟩ rfl rfl rfl rfl)
  -- the other one enters the section of `b`
  have h := h.step (.move (w := false) (.shareResize .write (lit "b") rfl rfl))
  have h := h.step (.move (w := false) (.locate rfl))
  have h := h.step (.move (w := false) (.lockSlice rfl rfl))
  refine ⟨_, ?_, ?_, ?_, striped_exclusion h⟩
  · rfl
  · rfl
  · rfl

end
end LoggedMap
end Chrono
