import Chrono.Cache.Replay

/-!
# Replay, one key at a time

The loop of `replay` treats every key on its own. On a log whose numbers are
positive and strictly increasing for each key the filter accepts every event,
so the entry of a key is the one left by its last event that is not skipped as
expired.
-/
namespace Chrono
open ChronoCache Library

variable {α : Type}

theorem replayEvents_eq {s : ReplayState α} (h : s.cache.state = .replaying) (json : JsonLib)
    (nowMs : ℤ) (clock : Clock) (i : ℕ) (es : List CacheEvent) :
    replayEvents json nowMs clock i es s =
      (.ok (), ⟨{ s.cache with hashMap := fun k =>
          (keyReplay nowMs clock k i es (s.cache.hashMap k, s.lastAppliedSeq k)).1 },
        fun k => (keyReplay nowMs clock k i es (s.cache.hashMap k, s.lastAppliedSeq k)).2⟩) := by
  induction es generalizing i s with
  | nil => rfl
  | cons e es ih =>
    let x := e.keyStep nowMs (clock i) (s.cache.hashMap e.key, s.lastAppliedSeq e.key)
    let s' : ReplayState α :=
      ⟨{ s.cache with hashMap := Function.update s.cache.hashMap e.key x.1 },
        Function.update s.lastAppliedSeq e.key x.2⟩
    rw [replayEvents, replayEvent_eq h]
    refine (ih (s := s') h (i + 1)).trans ?_
    have hstep (k : Bytes) : (s'.cache.hashMap k, s'.lastAppliedSeq k) =
        if e.key = k then e.keyStep nowMs (clock i) (s.cache.hashMap k, s.lastAppliedSeq k)
        else (s.cache.hashMap k, s.lastAppliedSeq k) := by
      by_cases hk : e.key = k
      · subst hk
        simp [s', x]
      · simp [s', hk, Ne.symm hk]
    simp only [hstep, keyReplay]
    rfl

theorem keyReplay_append (nowMs : ℤ) (clock : Clock) (k : Bytes) (i : ℕ) (a b : List CacheEvent)
    (x : Option CacheEntry × Option ℕ) :
    keyReplay nowMs clock k i (a ++ b) x =
      keyReplay nowMs clock k (i + a.length) b (keyReplay nowMs clock k i a x) := by
  induction a generalizing i x with
  | nil => rfl
  | cons e a ih =>
    rw [List.cons_append, keyReplay, ih, keyReplay, List.length_cons]
    congr 1
    omega

/-- What holds of the entry before the loop and of every entry that an event leaves, holds
of the entry after it. -/
theorem keyReplay_entry {P : Option CacheEntry → Prop} {x : Option CacheEntry × Option ℕ} (hx : P x.1)
    {es : List CacheEvent} (hstep : ∀ e ∈ es, ∀ nowMs now, P (e.restored nowMs now)) (nowMs : ℤ)
    (clock : Clock) (k : Bytes) (i : ℕ) : P (keyReplay nowMs clock k i es x).1 := by
  induction es generalizing i x with
  | nil => exact hx
  | cons e es ih =>
    rw [keyReplay]
    apply ih _ (fun e' he' => hstep e' (by simp [he']))
    unfold CacheEvent.keyStep CacheEvent.applyTo
    split_ifs <;> first | exact hx | exact hstep e (by simp) nowMs (clock i)

/-- The number that the filter holds against a key, from a number `n` on. -/
def appliedFrom (n : ℕ) (k : Bytes) (es : List CacheEvent) : ℕ :=
  es.foldl (fun n e => if e.key = k then max n e.seq else n) n

theorem appliedFrom_append (n : ℕ) (k : Bytes) (a b : List CacheEvent) :
    appliedFrom n k (a ++ b) = appliedFrom (appliedFrom n k a) k b := List.foldl_append

/-- The filter holds the greatest number so far. -/
theorem keyReplay_applied (nowMs : ℤ) (clock : Clock) (k : Bytes) (i : ℕ) (es : List CacheEvent)
    (x : Option CacheEntry × Option ℕ) :
    (keyReplay nowMs clock k i es x).2.getD 0 = appliedFrom (x.2.getD 0) k es := by
  induction es generalizing i x with
  | nil => rfl
  | cons e es ih =>
    rw [keyReplay, ih, appliedFrom, appliedFrom, List.foldl_cons]
    by_cases hk : e.key = k
    · rw [if_pos hk, if_pos hk, CacheEvent.keyStep]
      split_ifs with hseq
      · rw [Nat.max_eq_left hseq]
        rfl
      · rw [Nat.max_eq_right (Nat.le_of_not_le hseq)]
        rfl
    · rw [if_neg hk, if_neg hk]

/-- Events that the filter discards or that are skipped as expired leave the entry alone. -/
theorem keyReplay_skips {nowMs : ℤ} {k : Bytes} {es : List CacheEvent}
    {x : Option CacheEntry × Option ℕ}
    (h : ∀ a e b, es = a ++ e :: b → e.key = k → appliedFrom (x.2.getD 0) k a < e.seq →
      e.expiredAt nowMs = true)
    (clock : Clock) (i : ℕ) : (keyReplay nowMs clock k i es x).1 = x.1 := by
  induction es generalizing i x with
  | nil => rfl
  | cons e es ih =>
    rw [keyReplay]
    have hone := keyReplay_applied nowMs clock k i [e] x
    rw [keyReplay, keyReplay] at hone
    rw [ih]
    · by_cases hk : e.key = k
      · rw [if_pos hk, CacheEvent.keyStep]
        split_ifs with hseq
        · rfl
        · simp only [CacheEvent.applyTo, h [] e es rfl hk (Nat.lt_of_not_le hseq), if_true]
      · rw [if_neg hk]
    · intro a e' b hes hk' hlt
      rw [hone] at hlt
      refine h (e :: a) e' b (by rw [hes]; rfl) hk' ?_
      rw [← List.singleton_append, appliedFrom_append]
      exact hlt

theorem keyReplay_of_expired {nowMs : ℤ} {k : Bytes} {es : List CacheEvent}
    (h : ∀ e ∈ es, e.key = k → e.expiredAt nowMs = true) (clock : Clock) (i : ℕ)
    (x : Option CacheEntry × Option ℕ) : (keyReplay nowMs clock k i es x).1 = x.1 :=
  keyReplay_skips (fun a e b hes hk _ => h e (by simp [hes]) hk) clock i

/-- The filter accepts a log of increasing numbers, so the number last applied
is that of the last event of the key. -/
theorem keyReplay_seq {k : Bytes} {es : List CacheEvent}
    (hinc : KeyedLog.Increasing CacheEvent.key CacheEvent.seq es) (nowMs : ℤ) (clock : Clock)
    (i : ℕ) {x : Option CacheEntry × Option ℕ}
    (hx : ∀ e ∈ es, e.key = k → x.2.getD 0 < e.seq) :
    (keyReplay nowMs clock k i es x).2 =
      ((KeyedLog.last CacheEvent.key k es).map CacheEvent.seq).or x.2 := by
  induction es generalizing i x with
  | nil => rfl
  | cons e es ih =>
    obtain ⟨hhead, htail⟩ := List.pairwise_cons.mp hinc
    have hsplit : KeyedLog.last CacheEvent.key k (e :: es) =
        (KeyedLog.last CacheEvent.key k es).or (KeyedLog.last CacheEvent.key k [e]) :=
      KeyedLog.lastOf_append _ k [e] es
    rw [keyReplay, hsplit]
    by_cases hk : e.key = k
    · have hlt := hx e List.mem_cons_self hk
      have hstep : (e.keyStep nowMs (clock i) x).2 = some e.seq := by
        simp [CacheEvent.keyStep, Nat.not_le.mpr hlt]
      rw [if_pos hk, ih htail (i + 1) (x := e.keyStep nowMs (clock i) x), hstep]
      · cases KeyedLog.last CacheEvent.key k es <;>
          simp [KeyedLog.last, KeyedLog.lastOf_singleton, hk]
      · intro e' he' hk'
        rw [hstep]
        exact hhead e' he' (hk.trans hk'.symm)
    · rw [if_neg hk, ih htail (i + 1) (fun e' he' => hx e' (List.mem_cons_of_mem _ he'))]
      cases KeyedLog.last CacheEvent.key k es <;>
        simp [KeyedLog.last, KeyedLog.lastOf_singleton, hk]

/-- The last event of a key that is not skipped decides its entry. -/
theorem keyReplay_of_effective {nowMs : ℤ} {k : Bytes} {pre post : List CacheEvent} {e : CacheEvent}
    (hinc : KeyedLog.Increasing CacheEvent.key CacheEvent.seq (pre ++ e :: post))
    (hk : e.key = k) (heff : e.expiredAt nowMs = false)
    (hpost : ∀ e' ∈ post, e'.key = k → e'.expiredAt nowMs = true) (clock : Clock) (i : ℕ)
    {x : Option CacheEntry × Option ℕ}
    (hx : ∀ e' ∈ pre ++ e :: post, e'.key = k → x.2.getD 0 < e'.seq) :
    (keyReplay nowMs clock k i (pre ++ e :: post) x).1 =
      e.restored nowMs (clock (i + pre.length)) := by
  obtain ⟨hpre, -, hcross⟩ := List.pairwise_append.mp hinc
  have hseq : (keyReplay nowMs clock k i pre x).2.getD 0 < e.seq := by
    rw [keyReplay_seq hpre nowMs clock i
      (fun e' he' => hx e' (List.mem_append_left _ he'))]
    cases hl : KeyedLog.last CacheEvent.key k pre with
    | none => simpa using hx e (by simp) hk
    | some m =>
      obtain ⟨hm, hmk⟩ := KeyedLog.last_mem hl
      simpa using hcross m hm e (by simp) (hmk.trans hk.symm)
  rw [keyReplay_append, keyReplay, if_pos hk, keyReplay_of_expired hpost, CacheEvent.keyStep,
    if_neg (Nat.not_le.mpr hseq)]
  simp [CacheEvent.applyTo, heff]

/-- Numbers positive and strictly increasing for each key. -/
structure WellNumbered (log : List CacheEvent) : Prop where
  increasing : KeyedLog.Increasing CacheEvent.key CacheEvent.seq log
  positive : ∀ e ∈ log, 0 < e.seq

theorem WellNumbered.sublist {a b : List CacheEvent} (h : a.Sublist b) (hb : WellNumbered b) :
    WellNumbered a := ⟨hb.increasing.sublist h, fun e he => hb.positive e (h.subset he)⟩

def replayedEntry (clock : Clock) (es : List CacheEvent) (k : Bytes) : Option CacheEntry :=
  (keyReplay (toMillis (clock 0)) clock k 1 es (none, none)).1

def replayedSeq (clock : Clock) (es : List CacheEvent) (k : Bytes) : Option ℕ :=
  (keyReplay (toMillis (clock 0)) clock k 1 es (none, none)).2

theorem replayedSeq_eq {es : List CacheEvent} (h : WellNumbered es) (clock : Clock) (k : Bytes) :
    replayedSeq clock es k = (KeyedLog.last CacheEvent.key k es).map CacheEvent.seq := by
  rw [replayedSeq, keyReplay_seq h.increasing (x := (none, none)) _ _ _
    (fun e he _ => h.positive e he)]
  simp

theorem replayedEntry_of_expired {es : List CacheEvent} {clock : Clock} {k : Bytes}
    (h : ∀ e ∈ es, e.key = k → e.expiredAt (toMillis (clock 0)) = true) :
    replayedEntry clock es k = none := keyReplay_of_expired h clock 1 (none, none)

theorem replayedEntry_of_effective {pre post : List CacheEvent} {e : CacheEvent} {clock : Clock}
    {k : Bytes} (hw : WellNumbered (pre ++ e :: post)) (hk : e.key = k)
    (heff : e.expiredAt (toMillis (clock 0)) = false)
    (hpost : ∀ e' ∈ post, e'.key = k → e'.expiredAt (toMillis (clock 0)) = true) :
    replayedEntry clock (pre ++ e :: post) k =
      e.restored (toMillis (clock 0)) (clock (1 + pre.length)) :=
  keyReplay_of_effective hw.increasing hk heff hpost clock 1 (fun e' he' _ => hw.positive e' he')

/-- The last event of a key that is not skipped at `nowMs`. -/
def survivor (nowMs : ℤ) (k : Bytes) (log : List CacheEvent) : Option CacheEvent :=
  KeyedLog.lastOf CacheEvent.key (fun e => !e.expiredAt nowMs) k log

/-- Replay leaves no entry for a key whose last event that counts is missing or
a `DELETE`. -/
theorem replayedEntry_eq_none {es : List CacheEvent} (hw : WellNumbered es) {clock : Clock}
    {k : Bytes} (h : ∀ e, survivor (toMillis (clock 0)) k es = some e → e.type = .delete) :
    replayedEntry clock es k = none := by
  cases hs : survivor (toMillis (clock 0)) k es with
  | none =>
    refine replayedEntry_of_expired (fun e he hk => ?_)
    simpa using KeyedLog.lastOf_eq_none.mp hs e he hk
  | some e =>
    obtain ⟨pre, post, rfl, hpost⟩ := KeyedLog.lastOf_split hs
    obtain ⟨-, hk, heff⟩ := KeyedLog.lastOf_mem hs
    rw [replayedEntry_of_effective hw hk (by simpa using heff)
      (fun e' he' hk' => by simpa using hpost e' he' hk'), CacheEvent.restored, h e hs]

namespace ChronoCache

/-- A cache as the constructor leaves it. -/
structure Fresh (c : ChronoCache α) : Prop where
  state : c.state = .uninitialized
  hashMap : c.hashMap = fun _ => none

theorem create_fresh [LinearOrder α] (disable : Bool) (topic : List CacheEvent) :
    (create disable topic : ChronoCache α).Fresh := ⟨rfl, rfl⟩

theorem init_without_replay {c : ChronoCache α} (h : c.Fresh) (json : JsonLib)
    (consumed : Except Fault (List CacheEvent)) (clock : Clock) :
    c.init json false consumed clock = (.ok true, { c.openLogger with state := .ready }) := by
  simp [init, h.state]

theorem init_with_replay {c : ChronoCache α} (h : c.Fresh) (json : JsonLib) (clock : Clock)
    (es : List CacheEvent) :
    c.init json true (.ok es) clock =
      (.ok true, { c with
        state := .ready
        hashMap := replayedEntry clock es
        events := if c.disableEventLogging then
            ⟨c.events.logger.map (·.setSeqCounters (replayedSeq clock es)), c.events.topic⟩
          else ⟨some ⟨replayedSeq clock es⟩, c.events.topic⟩ }) := by
  have hmap : c.openLogger.hashMap = fun _ => none := by
    rw [openLogger]
    split_ifs <;> exact h.hashMap
  simp only [init, h.state, replay, Bool.true_eq_false, if_false]
  rw [replayEvents_eq rfl]
  simp only [hmap, restoreSeqCounters]
  cases hd : c.disableEventLogging with
  | true =>
    simp only [openLogger, hd, if_true]
    rfl
  | false =>
    simp [openLogger, hd, CacheEventLogger.fresh, CacheEventLogger.setSeqCounters]
    exact ⟨rfl, rfl⟩

end ChronoCache
end Chrono
