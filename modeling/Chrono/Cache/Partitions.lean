import Chrono.Cache.ReplayByKey

/-!
# Replay and the partitions of the topic

The consumer reads the partitions of the topic in any interleaving. A key lies in one
partition, and replay treats every key on its own, so at a fixed clock reading the
interleaving does not matter.
-/
namespace Chrono
open ChronoCache Library

/-- At a fixed clock reading the loop sees, for a key, the events of that key only. -/
theorem keyReplay_select (nowMs : ℤ) (now : ℕ) (k : Bytes) (i : ℕ) (es : List CacheEvent)
    (x : Option CacheEntry × Option ℕ) :
    keyReplay nowMs (fun _ => now) k i es x =
      keyReplay nowMs (fun _ => now) k 0 (KeyedLog.select CacheEvent.key (fun _ => true) k es) x := by
  have hshift (i j : ℕ) (es : List CacheEvent) (x : Option CacheEntry × Option ℕ) :
      keyReplay nowMs (fun _ => now) k i es x = keyReplay nowMs (fun _ => now) k j es x := by
    induction es generalizing i j x with
    | nil => rfl
    | cons e es ih => exact ih (i + 1) (j + 1) _
  induction es generalizing i x with
  | nil => rfl
  | cons e es ih =>
    rw [keyReplay, ih]
    by_cases hk : e.key = k
    · have hsel : KeyedLog.select CacheEvent.key (fun _ => true) k (e :: es) =
          e :: KeyedLog.select CacheEvent.key (fun _ => true) k es := by simp [KeyedLog.select, hk]
      rw [hsel, keyReplay, if_pos hk]
      exact hshift 0 1 _ _
    · have hsel : KeyedLog.select CacheEvent.key (fun _ => true) k (e :: es) =
          KeyedLog.select CacheEvent.key (fun _ => true) k es := by simp [KeyedLog.select, hk]
      rw [hsel, if_neg hk]

variable {α ι : Type} [DecidableEq ι]

/-- The loop over two merges of the same partitions ends in the same cache with the same
numbers last applied. -/
theorem replayEvents_merge {s : ReplayState α} (hs : s.cache.state = .replaying) (json : JsonLib)
    (now : ℕ) {parts : ι → List CacheEvent}
    (hkeys : ∀ i j, ∀ e ∈ parts i, ∀ e' ∈ parts j, e.key = e'.key → i = j)
    {log log' : List CacheEvent} (h : KeyedLog.Merge parts log) (h' : KeyedLog.Merge parts log') :
    replayEvents json (toMillis now) (fun _ => now) 1 log s =
      replayEvents json (toMillis now) (fun _ => now) 1 log' s := by
  have hkey (k : Bytes) (x : Option CacheEntry × Option ℕ) :
      keyReplay (toMillis now) (fun _ => now) k 1 log x =
        keyReplay (toMillis now) (fun _ => now) k 1 log' x := by
    rw [keyReplay_select, keyReplay_select _ _ _ _ log', h.select_congr h' hkeys]
  rw [replayEvents_eq hs, replayEvents_eq hs]
  simp only [hkey]

/-- Replay does not depend on how the partitions are interleaved: at one clock reading any
two merges leave the same cache and the same numbers last applied. -/
theorem replay_merge {c : ChronoCache α} (hc : c.state = .replaying) (json : JsonLib) (now : ℕ)
    {parts : ι → List CacheEvent}
    (hkeys : ∀ i j, ∀ e ∈ parts i, ∀ e' ∈ parts j, e.key = e'.key → i = j)
    {log log' : List CacheEvent} (h : KeyedLog.Merge parts log) (h' : KeyedLog.Merge parts log') :
    replay json (.ok log) (fun _ => now) c = replay json (.ok log') (fun _ => now) c ∧
      (replayEvents json (toMillis now) (fun _ => now) 1 log ⟨c, fun _ => none⟩).2.lastAppliedSeq =
        (replayEvents json (toMillis now) (fun _ => now) 1 log'
          ⟨c, fun _ => none⟩).2.lastAppliedSeq := by
  have hloop := replayEvents_merge (s := ⟨c, fun _ => none⟩) hc json now hkeys h h'
  constructor
  · simp only [replay, hloop]
  · rw [hloop]

/-- Two partitions: one with a duplicate and a stale event of `k`, one with events of `j`. -/
def samplePartitions (b : Bool) : List CacheEvent :=
  if b then
    [⟨.set, lit "k", lit "a", -1, 2, 0⟩, ⟨.set, lit "k", lit "a", -1, 2, 0⟩,
      ⟨.delete, lit "k", [], -1, 1, 0⟩]
  else [⟨.set, lit "j", lit "b", 10, 1, 0⟩, ⟨.expire, lit "j", lit "b", 20, 2, 0⟩]

theorem replay_merge_witness :
    let c : ChronoCache ℤ := { create false [] with state := .replaying }
    let log := samplePartitions true ++ samplePartitions false
    let log' := samplePartitions false ++ samplePartitions true
    replay .reference (.ok log) (fun _ => 7) c = replay .reference (.ok log') (fun _ => 7) c ∧
      (replayEvents .reference (toMillis 7) (fun _ => 7) 1 log ⟨c, fun _ => none⟩).2.lastAppliedSeq =
        (replayEvents .reference (toMillis 7) (fun _ => 7) 1 log'
          ⟨c, fun _ => none⟩).2.lastAppliedSeq := by
  intro c log log'
  have hkeys : ∀ i j, ∀ e ∈ samplePartitions i, ∀ e' ∈
      samplePartitions j, e.key = e'.key → i = j := by decide
  have hlog : KeyedLog.Merge samplePartitions log :=
    .take (i := true) rfl <| .take (i := true) rfl <| .take (i := true) rfl <|
      .take (i := false) rfl <|
      .take (i := false) rfl <| .done (by decide)
  have hlog' : KeyedLog.Merge samplePartitions log' :=
    .take (i := false) rfl <| .take (i := false) rfl <| .take (i := true) rfl <|
      .take (i := true) rfl <|
      .take (i := true) rfl <| .done (by decide)
  exact replay_merge rfl .reference 7 hkeys hlog hlog'

end Chrono
