import Chrono.Cache.ReplayByKey

/-!
# Replay and log compaction

At a fixed clock reading the entry of a key is decided by its last event that
replay does not skip as expired. Compaction keeps the last event of each key,
so replay can tell a compacted log from the full one only through a key whose
last event is skipped.
-/
namespace Chrono
open ChronoCache Library

/-- Replay at one clock reading: the entry left by the surviving event. -/
theorem replayedEntry_frozen {es : List CacheEvent} (hw : WellNumbered es) (t : ℕ) (k : Bytes) :
    replayedEntry (fun _ => t) es k =
      (survivor (toMillis t) k es).bind (fun e => e.restored (toMillis t) t) := by
  cases hs : survivor (toMillis t) k es with
  | none => exact replayedEntry_eq_none hw (by simp [hs])
  | some e =>
    obtain ⟨pre, post, rfl, hpost⟩ := KeyedLog.lastOf_split hs
    obtain ⟨-, hk, heff⟩ := KeyedLog.lastOf_mem hs
    exact replayedEntry_of_effective hw hk (by simpa using heff)
      (fun e' he' hk' => by simpa using hpost e' he' hk')

theorem CacheEvent.restored_eq_none (e : CacheEvent) (nowMs : ℤ) (now : ℕ) :
    e.restored nowMs now = none ↔ e.type = .delete := by
  rw [CacheEvent.restored]
  cases e.type <;> simp

/-- Every event of a key whose last event is expired is expired too, or is a
`DELETE`. -/
def NoLiveBeforeExpired (nowMs : ℤ) (log : List CacheEvent) : Prop :=
  ∀ k m, KeyedLog.last CacheEvent.key k log = some m → m.expiredAt nowMs = true →
    ∀ e ∈ log, e.key = k → e.expiredAt nowMs = true ∨ e.type = .delete

/-- Under the condition, a compaction of the log leaves every entry as it was. -/
theorem replayedEntry_compacts {full kept : List CacheEvent} (hw : WellNumbered full) {t : ℕ}
    (hsafe : NoLiveBeforeExpired (toMillis t) full)
    (hc : KeyedLog.Compacts CacheEvent.key full kept) (k : Bytes) :
    replayedEntry (fun _ => t) kept k = replayedEntry (fun _ => t) full k := by
  rw [replayedEntry_frozen (hw.sublist hc.sublist), replayedEntry_frozen hw]
  have hkept := hc.last_eq k
  cases hm : KeyedLog.last CacheEvent.key k full with
  | none =>
    have hnone (log : List CacheEvent) (h : KeyedLog.last CacheEvent.key k log = none) :
        survivor (toMillis t) k log = none :=
      KeyedLog.lastOf_eq_none.mpr (fun e he hk => absurd hk (KeyedLog.last_eq_none.mp h e he))
    rw [hnone full hm, hnone kept (hkept.trans hm)]
  | some m =>
    rw [hm] at hkept
    cases hx : m.expiredAt (toMillis t) with
    | false =>
      rw [survivor, survivor, KeyedLog.lastOf_of_last hm (by simp [hx]),
        KeyedLog.lastOf_of_last hkept (by simp [hx])]
    | true =>
      -- whatever survives in either log is a `DELETE`
      have hdel (log : List CacheEvent) (h : log.Sublist full) :
          (survivor (toMillis t) k log).bind (fun e => e.restored (toMillis t) t) = none := by
        cases hs : survivor (toMillis t) k log with
        | none => rfl
        | some e =>
          obtain ⟨he, hk, heff⟩ := KeyedLog.lastOf_mem hs
          rcases hsafe k m hm hx e (h.subset he) hk with hexp | htype
          · simp [hexp] at heff
          · simpa using (CacheEvent.restored_eq_none e _ _).mpr htype
      rw [hdel kept hc.sublist, hdel full (List.Sublist.refl _)]

theorem exists_compaction_differs {full : List CacheEvent} (hw : WellNumbered full) {t : ℕ}
    (h : ∀ kept, KeyedLog.Compacts CacheEvent.key full kept → ∀ k,
      replayedEntry (fun _ => t) kept k = replayedEntry (fun _ => t) full k) :
    NoLiveBeforeExpired (toMillis t) full := by
  intro k m hm hx e he hk
  by_contra hlive
  obtain ⟨heff, htype⟩ := not_or.mp hlive
  have hmk := (KeyedLog.last_mem hm).2
  -- keep, of the key `k`, only the last event; or only it and the live event
  let q₁ : CacheEvent → Bool := fun x => decide (x.key ≠ k ∨ x = m)
  let q₂ : CacheEvent → Bool := fun x => decide (x.key ≠ k ∨ x = m ∨ x = e)
  have hlast (k' : Bytes) (m' : CacheEvent) (hm' : KeyedLog.last CacheEvent.key k' full = some m') :
      m'.key ≠ k ∨ m' = m := by
    by_cases hkk : k' = k
    · subst hkk
      rw [hm] at hm'
      exact .inr (Option.some.inj hm').symm
    · exact .inl (by rw [(KeyedLog.last_mem hm').2]; exact hkk)
  have hc₁ : KeyedLog.Compacts CacheEvent.key full (full.filter q₁) :=
    .filter (fun k' m' hm' => by simpa [q₁] using hlast k' m' hm')
  have hc₂ : KeyedLog.Compacts CacheEvent.key full (full.filter q₂) :=
    .filter (fun k' m' hm' => by
      rcases hlast k' m' hm' with h' | h' <;> simp [q₂, h'])
  have hnone : survivor (toMillis t) k (full.filter q₁) = none := by
    refine KeyedLog.lastOf_eq_none.mpr (fun x hx' hxk => ?_)
    have hq := (List.mem_filter.mp hx').2
    have hxm : x = m := by simpa [q₁, hxk] using hq
    simp [hxm, hx]
  have hsome : survivor (toMillis t) k (full.filter q₂) = some e := by
    cases hs : survivor (toMillis t) k (full.filter q₂) with
    | none =>
      have := KeyedLog.lastOf_eq_none.mp hs e (List.mem_filter.mpr ⟨he, by simp [q₂]⟩) hk
      simp [heff] at this
    | some x =>
      obtain ⟨hx', hxk, hxeff⟩ := KeyedLog.lastOf_mem hs
      have hq := (List.mem_filter.mp hx').2
      have hxme : x = m ∨ x = e := by simpa [q₂, hxk] using hq
      rcases hxme with rfl | rfl
      · simp [hx] at hxeff
      · rfl
  have heq := (h _ hc₁ k).trans (h _ hc₂ k).symm
  rw [replayedEntry_frozen (hw.sublist hc₁.sublist), replayedEntry_frozen (hw.sublist hc₂.sublist),
    hnone, hsome] at heq
  exact htype ((CacheEvent.restored_eq_none e _ _).mp heq.symm)

section
variable {α : Type} [LinearOrder α]

/-- Replaying two logs at one clock reading on a cache that was just built
leaves the same cache: the same entries and the same sequence counters. -/
def ReplayAgrees (α : Type) [LinearOrder α] (json : JsonLib) (disable : Bool)
    (topic : List CacheEvent) (t : ℕ) (log log' : List CacheEvent) : Prop :=
  ((create disable topic : ChronoCache α).init json true (.ok log) (fun _ => t)).2 =
    ((create disable topic : ChronoCache α).init json true (.ok log') (fun _ => t)).2

/-- Replay cannot tell a log from any of its compactions exactly when no live
event stands before an expired last one. -/
theorem replay_compaction_iff (json : JsonLib) (disable : Bool) (topic : List CacheEvent) (t : ℕ)
    (full : List CacheEvent) (hw : WellNumbered full) :
    (∀ kept, KeyedLog.Compacts CacheEvent.key full kept →
        ReplayAgrees α json disable topic t full kept) ↔
      NoLiveBeforeExpired (toMillis t) full := by
  have hinit (log : List CacheEvent) :=
    init_with_replay (create_fresh (α := α) disable topic) json (fun _ => t) log
  constructor
  · intro h
    apply exists_compaction_differs hw
    intro kept hc k
    have hagree := h kept hc
    rw [ReplayAgrees, hinit, hinit] at hagree
    exact (congrFun (congrArg ChronoCache.hashMap hagree) k).symm
  · intro hsafe kept hc
    have hentry : replayedEntry (fun _ => t) kept = replayedEntry (fun _ => t) full :=
      funext (replayedEntry_compacts hw hsafe hc)
    have hseq : replayedSeq (fun _ => t) kept = replayedSeq (fun _ => t) full := by
      funext k
      rw [replayedSeq_eq (hw.sublist hc.sublist), replayedSeq_eq hw, hc.last_eq]
    rw [ReplayAgrees, hinit, hinit, hentry, hseq]

/-- `SET k v` without a TTL, then `EXPIRE k 100`, both at time 0. -/
def setThenExpire : List CacheEvent :=
  [⟨.set, lit "k", lit "v", -1, 1, 0⟩, ⟨.expire, lit "k", lit "v", 100, 2, 0⟩]

theorem setThenExpire_wellNumbered : WellNumbered setThenExpire := by
  constructor
  · simp [KeyedLog.Increasing, setThenExpire]
  · simp [setThenExpire]

/-- One second later the full log brings the value back, without a deadline; the
compacted log, which keeps the `EXPIRE` only, does not. -/
theorem replay_compaction_counterexample :
    WellNumbered setThenExpire ∧
      KeyedLog.Compacts CacheEvent.key setThenExpire setThenExpire.tail ∧
      ¬ ReplayAgrees ℤ JsonLib.reference false [] (10 ^ 9) setThenExpire setThenExpire.tail := by
  refine ⟨setThenExpire_wellNumbered, ⟨List.tail_sublist _, fun k => ?_⟩, fun h => ?_⟩
  · by_cases hk : lit "k" = k <;>
      simp [KeyedLog.last, KeyedLog.lastOf, KeyedLog.select, setThenExpire, hk]
  · have hinit (log : List CacheEvent) :=
      init_with_replay (create_fresh (α := ℤ) false []) JsonLib.reference (fun _ => 10 ^ 9) log
    rw [ReplayAgrees, hinit, hinit] at h
    have hk := congrFun (congrArg ChronoCache.hashMap h) (lit "k")
    exact absurd hk (by decide)

/-- A `SET` followed by a `DEL`: every compaction is replayed alike. -/
theorem replay_compaction_witness :
    let log : List CacheEvent := [⟨.set, lit "k", lit "v", -1, 1, 0⟩,
      ⟨.delete, lit "k", [], -1, 2, 0⟩]
    NoLiveBeforeExpired (toMillis (10 ^ 9)) log ∧
      ∀ kept, KeyedLog.Compacts CacheEvent.key log kept →
        ReplayAgrees ℤ JsonLib.reference false [] (10 ^ 9) log kept := by
  intro log
  have hnumbered : WellNumbered log := by constructor <;> simp [log, KeyedLog.Increasing]
  have hsafe : NoLiveBeforeExpired (toMillis (10 ^ 9)) log := by
    intro k m hm hx
    have hmem := (KeyedLog.last_mem hm).1
    simp only [log, List.mem_cons, List.not_mem_nil, or_false] at hmem
    rcases hmem with rfl | rfl <;> simp [CacheEvent.expiredAt, CacheEvent.hasDeadline] at hx
  exact ⟨hsafe, (replay_compaction_iff JsonLib.reference false [] (10 ^ 9) log hnumbered).mpr hsafe⟩

end
end Chrono
