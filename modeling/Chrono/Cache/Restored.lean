import Chrono.Cache.Sessions

/-!
# Deadlines that replay restores

Replay turns the deadline of an event into a remaining time with its first reading of the
clock, and back into a deadline with a later one.
-/
namespace Chrono
open ChronoCache Library

/-! ## The event that leaves an entry -/

/-- After `pre` the filter accepts `e`, which carries a deadline and is not expired; every later
event of the key that it accepts is skipped as expired. -/
structure LeftBy (nowMs : ℤ) (pre : List CacheEvent) (e : CacheEvent) (post : List CacheEvent) :
    Prop where
  hasDeadline : e.hasDeadline = true
  live : e.expiredAt nowMs = false
  accepted : appliedFrom 0 e.key pre < e.seq
  last : ∀ a e' b, post = a ++ e' :: b → e'.key = e.key →
    appliedFrom 0 e.key (pre ++ e :: a) < e'.seq →
    e'.expiredAt nowMs = true

theorem CacheEvent.restored_of_hasDeadline {e : CacheEvent} (h : e.hasDeadline = true) (nowMs : ℤ)
    (now : ℕ) :
    e.restored nowMs now =
      some ⟨e.value, some (deadlineAfter now (toInt64 (e.expiresAtMs - nowMs)))⟩ := by
  have hremaining : e.remainingAt nowMs = some (toInt64 (e.expiresAtMs - nowMs)) := by
    rw [remainingAt, if_pos h]
  rw [restored, hremaining]
  cases htype : e.type with
  | delete => simp [hasDeadline, htype] at h
  | set | expire | persist => rfl

theorem CacheEvent.hasDeadline_of_restored {e : CacheEvent} {nowMs d : ℤ} {now : ℕ} {v : Bytes}
    (h : e.restored nowMs now = some ⟨v, some d⟩) : e.hasDeadline = true := by
  by_contra hnone
  have hremaining : e.remainingAt nowMs = none := by rw [remainingAt, if_neg hnone]
  rw [restored, hremaining] at h
  cases htype : e.type <;> simp [htype, CacheEntry.make] at h

theorem LeftBy.entry {clock : Clock} {pre post : List CacheEvent} {e : CacheEvent}
    (h : LeftBy (toMillis (clock 0)) pre e post) :
    replayedEntry clock (pre ++ e :: post) e.key =
      some ⟨e.value, some (deadlineAfter (clock (1 + pre.length))
        (toInt64 (e.expiresAtMs - toMillis (clock 0))))⟩ := by
  have hpre := keyReplay_applied (toMillis (clock 0)) clock e.key 1 pre (none, none)
  rw [replayedEntry, keyReplay_append, keyReplay, if_pos rfl, CacheEvent.keyStep, if_neg]
  · rw [keyReplay_skips]
    · simp only [CacheEvent.applyTo, h.live, Bool.false_eq_true, if_false]
      exact CacheEvent.restored_of_hasDeadline h.hasDeadline _ _
    · intro a e' b hpost hk hlt
      refine h.last a e' b hpost hk ?_
      have hmax : appliedFrom 0 e.key (pre ++ e :: a) =
          appliedFrom (max (appliedFrom 0 e.key pre) e.seq) e.key a := by
        rw [appliedFrom_append, appliedFrom, List.foldl_cons, if_pos rfl]
        rfl
      rw [hmax, Nat.max_eq_right h.accepted.le]
      exact hlt
  · rw [hpre]
    exact Nat.not_le.mpr h.accepted

/-- One more event that the filter discards, or that is skipped, leaves the entry. -/
theorem LeftBy.concat {nowMs : ℤ} {pre post : List CacheEvent} {e x : CacheEvent}
    (h : LeftBy nowMs pre e post)
    (hx : x.key = e.key → appliedFrom 0 e.key (pre ++ e :: post) < x.seq → x.expiredAt nowMs = true) :
    LeftBy nowMs pre e (post ++ [x]) := by
  refine ⟨h.hasDeadline, h.live, h.accepted, ?_⟩
  intro a e' b hpost hk hlt
  cases b using List.reverseRecOn with
  | nil =>
    obtain ⟨rfl, hxe⟩ := List.append_inj' hpost rfl
    obtain rfl : x = e' := by simpa using hxe
    exact hx hk hlt
  | append_singleton b y =>
    rw [← List.cons_append, ← List.append_assoc] at hpost
    exact h.last a e' b (List.append_inj' hpost rfl).1 hk hlt

theorem exists_leftBy {clock : Clock} {es : List CacheEvent} {k v : Bytes} {d : ℤ}
    (h : replayedEntry clock es k = some ⟨v, some d⟩) :
    ∃ pre e post, es = pre ++ e :: post ∧ e.key = k ∧ LeftBy (toMillis (clock 0)) pre e post := by
  induction es using List.reverseRecOn with
  | nil => cases h
  | append_singleton es x ih =>
    -- an event that does not change the entry
    have hskip (hentry : replayedEntry clock es k = some ⟨v, some d⟩)
        (hx : x.key = k → appliedFrom 0 k es < x.seq → x.expiredAt (toMillis (clock 0)) = true) :
        ∃ pre e post, es ++ [x] = pre ++ e :: post ∧ e.key = k ∧
          LeftBy (toMillis (clock 0)) pre e post := by
      obtain ⟨pre, e, post, rfl, rfl, hleft⟩ := ih hentry
      exact ⟨pre, e, post ++ [x], by simp, rfl, hleft.concat hx⟩
    have happlied := keyReplay_applied (toMillis (clock 0)) clock k 1 es (none, none)
    rw [replayedEntry, keyReplay_append, keyReplay, keyReplay] at h
    split_ifs at h with hk
    · rw [CacheEvent.keyStep, happlied] at h
      split_ifs at h with hseq
      · exact hskip h (fun _ hlt => absurd hlt (Nat.not_lt.mpr hseq))
      · rw [CacheEvent.applyTo] at h
        cases hexp : x.expiredAt (toMillis (clock 0)) with
        | true =>
          rw [hexp] at h
          exact hskip h (fun _ _ => hexp)
        | false =>
          rw [hexp] at h
          subst hk
          refine ⟨es, x, [], rfl, rfl, ?_, hexp, Nat.lt_of_not_le hseq, by simp⟩
          exact CacheEvent.hasDeadline_of_restored h
    · exact hskip h (fun hk' => absurd hk' hk)

/-! ## Its deadline -/

/-- The deadline that is restored, but for wrapping: late by what the clock shows more than
`nowMs`. -/
theorem deadlineAfter_remaining (e : CacheEvent) (nowMs : ℤ) (now : ℕ) :
    deadlineAfter now (toInt64 (e.expiresAtMs - nowMs)) =
      toInt64 ((e.timestamp + e.ttlMs) * nsPerMs + (now - nowMs * nsPerMs)) := by
  have hremaining : toInt64 (e.expiresAtMs - nowMs) = toInt64 (e.timestamp + e.ttlMs - nowMs) :=
    Int.bmod_sub_bmod
  calc
    deadlineAfter now (toInt64 (e.expiresAtMs - nowMs))
        = toInt64 (now + toInt64
          (toInt64 (e.timestamp + e.ttlMs - nowMs) * nsPerMs)) := by rw [hremaining]; rfl
    _ = toInt64 (now + toInt64 ((e.timestamp + e.ttlMs - nowMs) * nsPerMs)) :=
      congrArg (fun x => toInt64 (now + x)) Int.bmod_mul_bmod
    _ = toInt64 (now + (e.timestamp + e.ttlMs - nowMs) * nsPerMs) := Int.add_bmod_bmod
    _ = toInt64 ((e.timestamp + e.ttlMs) * nsPerMs + (now - nowMs * nsPerMs)) := by
      rw [Int.sub_mul]
      congr 1
      omega

/-- Adding a difference of two readings wraps to the same time point only if it is zero. -/
theorem toInt64_add_eq_iff {x y : ℤ} (hlo : -2 ^ 63 < y) (hhi : y < 2 ^ 63) :
    toInt64 (x + y) = x ↔ y = 0 ∧ -2 ^ 63 ≤ x ∧ x < 2 ^ 63 := by
  rw [toInt64_eq_ite]
  split_ifs <;> omega

theorem restart_entry {α : Type} [LinearOrder α] (json : JsonLib) (s : Sys α) (clock : Clock)
    (es : List CacheEvent) (k : Bytes) :
    (s.restart json true es clock).cache.hashMap k = replayedEntry clock es k := by
  rw [Sys.restart, restart_cache]
  rfl

/-- After a restart with replay, the entry that an event left has the deadline of the event
exactly when the clock, read while the entry was rebuilt, showed the very beginning of the
millisecond in which the replay began, and that deadline is a time point of the clock. -/
theorem replayed_deadline_iff {α : Type} [LinearOrder α] (json : JsonLib) (s : Sys α) {clock : Clock}
    (hclock : ∀ i, clock i < 2 ^ 63) {pre post : List CacheEvent} {e : CacheEvent}
    (hleft : LeftBy (toMillis (clock 0)) pre e post) :
    ∃ d, (s.restart json true (pre ++ e :: post) clock).cache.hashMap e.key = some ⟨e.value, some d⟩ ∧
      (d = (e.timestamp + e.ttlMs) * nsPerMs ↔
        (clock (1 + pre.length) : ℤ) = toMillis (clock 0) * nsPerMs ∧
          -2 ^ 63 ≤ (e.timestamp + e.ttlMs) * nsPerMs ∧
          (e.timestamp + e.ttlMs) * nsPerMs < 2 ^ 63) := by
  refine ⟨_, (restart_entry json s _ _ _).trans hleft.entry, ?_⟩
  have hfirst := toMillis_le (clock 0)
  have hstart : 0 ≤ toMillis (clock 0) * nsPerMs :=
    Int.mul_nonneg (Int.natCast_nonneg _) (Int.natCast_nonneg _)
  have h0 := hclock 0
  have hi := hclock (1 + pre.length)
  rw [deadlineAfter_remaining, toInt64_add_eq_iff (by omega) (by omega), Int.sub_eq_zero]

/-- The clock stands at the beginning of a millisecond. -/
theorem replayed_deadline_witness :
    ((Sys.start : Sys ℕ).restart .reference true [⟨.set, lit "k", lit "v", 1000, 1, 0⟩]
      (fun _ => 0)).cache.hashMap (lit "k") = some ⟨lit "v", some 1000000000⟩ := by
  let e : CacheEvent := ⟨.set, lit "k", lit "v", 1000, 1, 0⟩
  have hleft : LeftBy (toMillis 0) [] e [] := ⟨rfl, by decide, by decide, by simp⟩
  have hclock : ∀ i, (fun _ => 0 : Clock) i < 2 ^ 63 := fun _ => Nat.two_pow_pos 63
  obtain ⟨d, hentry, hd⟩ := replayed_deadline_iff .reference (Sys.start : Sys ℕ) hclock hleft
  rw [hd.mpr (by decide)] at hentry
  exact hentry

/-- Five milliseconds pass before the entry is rebuilt, and it lives five milliseconds longer. -/
theorem replayed_deadline_counterexample :
    let e : CacheEvent := ⟨.set, lit "k", lit "v", 1000, 1, 0⟩
    let clock : Clock := fun i => if i = 0 then 0 else 5000000
    LeftBy (toMillis (clock 0)) [] e [] ∧
      ((Sys.start : Sys ℕ).restart .reference true [e] clock).cache.hashMap (lit "k") =
        some ⟨lit "v", some 1005000000⟩ ∧
      (e.timestamp + e.ttlMs) * nsPerMs = 1000000000 := by
  intro e clock
  have hleft : LeftBy (toMillis (clock 0)) [] e [] := ⟨rfl, by decide, by decide, by simp⟩
  refine ⟨hleft, ?_, by decide⟩
  have hdeadline : deadlineAfter (clock 1) (toInt64 (e.expiresAtMs - toMillis (clock 0))) =
      1005000000 := by decide
  rw [restart_entry, ← hdeadline]
  exact hleft.entry

end Chrono
