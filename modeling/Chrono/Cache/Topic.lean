import Chrono.Cache.Durability
import Chrono.Cache.Wire
import Chrono.Library.Redelivery

/-!
# Sessions over the topic

What the sessions leave in the log lies in the partitions of the topic, each of which may
hold an event several times, and comes back as the payloads that `consume` hands out. Replay
of what comes back is replay of the log.
-/
namespace Chrono
open ChronoCache Library KeyedLog

/-! ## Replay of copies -/

/-- At a fixed clock reading the loop goes through the events of a key, one step each. -/
theorem keyReplay_foldl (nowMs : ℤ) (now : ℕ) (k : Bytes) (i : ℕ) (es : List CacheEvent)
    (x : Option CacheEntry × Option ℕ) : keyReplay nowMs (fun _ => now) k i es x =
      (select CacheEvent.key (fun _ => true) k es).foldl (fun x e => e.keyStep nowMs now x) x := by
  induction es generalizing i x with
  | nil => rfl
  | cons e es ih =>
    rw [keyReplay, ih, ← List.singleton_append, select_append, List.foldl_append]
    congr 1
    by_cases hk : e.key = k
    · simp [select, hk]
    · simp [select, hk]

/-- The filter on sequence numbers lets an event of the number, or one before it, not pass. -/
def Absorbed (x : Option CacheEntry × Option ℕ) (e : CacheEvent) : Prop :=
  ∃ n, x.2 = some n ∧ e.seq ≤ n

theorem keyStep_absorbed {x : Option CacheEntry × Option ℕ} {e : CacheEvent} (h : Absorbed x e)
    (nowMs : ℤ) (now : ℕ) :
    e.keyStep nowMs now x = x := by
  obtain ⟨entry, last⟩ := x
  obtain ⟨n, rfl, hle⟩ := h
  rw [CacheEvent.keyStep, if_pos (by simpa using hle)]
  rfl

theorem absorbed_keyStep (x : Option CacheEntry × Option ℕ) (e : CacheEvent) (nowMs : ℤ) (now : ℕ) :
    Absorbed (e.keyStep nowMs now x) e := by
  rw [CacheEvent.keyStep]
  split_ifs with h
  · exact ⟨_, rfl, h⟩
  · exact ⟨_, rfl, Nat.le_refl _⟩

theorem Absorbed.keyStep {x : Option CacheEntry × Option ℕ} {e : CacheEvent} (h : Absorbed x e)
    (e' : CacheEvent) (nowMs : ℤ) (now : ℕ) : Absorbed (e'.keyStep nowMs now x) e := by
  obtain ⟨n, hx, hle⟩ := h
  rw [CacheEvent.keyStep, hx]
  split_ifs with hlt
  · exact ⟨n, rfl, hle⟩
  · exact ⟨e'.seq, rfl, hle.trans (Nat.le_of_not_le hlt)⟩

/-- Where a key lies in one part, the loop over copies of the parts ends for it as over the log. -/
theorem keyReplay_copies {ι : Type} [DecidableEq ι] {parts stored : ι → List CacheEvent}
    {log read : List CacheEvent}
    (hkeys : ∀ i j, ∀ e ∈ parts i, ∀ e' ∈ parts j, e.key = e'.key → i = j) (hlog : Merge parts log)
    (hcopies : ∀ i, Repeats [] (parts i) (stored i)) (hread : Merge stored read) (nowMs : ℤ)
    (now : ℕ) (k : Bytes) (i : ℕ) (x : Option CacheEntry × Option ℕ) :
    keyReplay nowMs (fun _ => now) k i read x = keyReplay nowMs (fun _ => now) k i log x := by
  have hmem (j : ι) (e : CacheEvent) (he : e ∈ stored j) : e ∈ parts j :=
    ((hcopies j).mem_or_mem he).resolve_left List.not_mem_nil
  rw [keyReplay_foldl, keyReplay_foldl]
  by_cases hpart : ∃ j, ∃ e ∈ parts j, e.key = k
  · obtain ⟨j, e, he, rfl⟩ := hpart
    have hone (l : ι) (e' : CacheEvent) (he' : e' ∈ parts l) (hkey : e'.key = e.key) : l = j :=
      hkeys l j e' he' e he hkey
    rw [hlog.select_eq hone, hread.select_eq fun l e' he' => hone l e' (hmem l e' he')]
    apply ((hcopies j).filter _).foldl_eq (fun x e (h : Absorbed x e) => keyStep_absorbed h nowMs now)
    · simp
    · exact fun x e => absorbed_keyStep x e nowMs now
    · exact fun x e e' h => h.keyStep e' nowMs now
  · have hnone {parts' : ι → List CacheEvent} {l : List CacheEvent} (h : Merge parts' l)
        (hsub : ∀ j, ∀ e ∈ parts' j, e ∈ parts j) :
        select CacheEvent.key (fun _ => true) k l = [] := by
      rw [select_eq_nil]
      intro e he hkey
      obtain ⟨j, hj⟩ := h.exists_mem he
      exact absurd ⟨j, e, hsub j e hj, hkey⟩ hpart
    rw [hnone hread hmem, hnone hlog fun _ _ he => he]

/-! ## Consumption -/

variable {Json : Type} {reader : JsonReader Json}

def ConsumeResult.payload? : ConsumeResult → Option (Partition × Bytes)
  | .message p payload => some (p, payload)
  | _ => none

/-- No three timeouts with nothing but errors in between. -/
def Responsive (msgs : List ConsumeResult) : Prop :=
  ¬ List.replicate maxConsecutiveTimeouts .timedOut <:+: msgs.filter (· ≠ .error)

/-- What `consume` hands out while it reads partitions with these payloads: those of each
partition in order and then, once, the end of the partition. -/
structure Polls (payloads : Partition → List Bytes) (msgs : List ConsumeResult) : Prop where
  results : ∀ p, msgs.filter (·.isOf p) = (payloads p).map (.message p) ++ [.partitionEof p]
  responsive : Responsive msgs

/-- The results to come, after the timeouts counted last. -/
def ConsumerLocals.pending (s : ConsumerLocals) (msgs : List ConsumeResult) : List ConsumeResult :=
  List.replicate s.consecutiveTimeouts .timedOut ++ msgs.filter (· ≠ .error)

/-- A result does not make the loop throw while no three timeouts come in a row. -/
theorem handleResult_responsive (reader : JsonReader Json) {msg : ConsumeResult}
    {msgs : List ConsumeResult} {s : ConsumerLocals}
    (h : ¬ List.replicate maxConsecutiveTimeouts .timedOut <:+: s.pending (msg :: msgs)) :
    ∃ s', handleResult reader msg s = .ok s' ∧
      ¬ List.replicate maxConsecutiveTimeouts .timedOut <:+: s'.pending msgs := by
  have hanswered (hmsg : msg ≠ .error) :
      ¬ List.replicate maxConsecutiveTimeouts .timedOut <:+: msgs.filter (· ≠ .error) := by
    intro hthree
    apply h
    rw [ConsumerLocals.pending, List.filter_cons_of_pos (by simpa using hmsg)]
    exact (hthree.trans (List.suffix_cons msg _).isInfix).trans (List.suffix_append _ _).isInfix
  cases msg with
  | message p payload =>
    cases hread : reader.readEvent payload with
    | ok event =>
      refine ⟨{ s with events := s.events ++ [event], consecutiveTimeouts := 0 }, ?_,
        hanswered (by simp)⟩
      rw [handleResult, hread]
    | error what =>
      refine ⟨{ s with consecutiveTimeouts := 0 }, ?_, hanswered (by simp)⟩
      rw [handleResult, hread]
  | partitionEof p => exact ⟨_, rfl, hanswered (by simp)⟩
  | timedOut =>
    have hpending : s.pending (.timedOut :: msgs) =
        List.replicate (s.consecutiveTimeouts + 1) .timedOut ++ msgs.filter (· ≠ .error) := by
      rw [ConsumerLocals.pending, List.filter_cons_of_pos (by simp), List.replicate_succ']
      simp
    rw [hpending] at h
    have hfew : ¬ s.consecutiveTimeouts + 1 ≥ maxConsecutiveTimeouts := by
      intro hmany
      apply h
      obtain ⟨d, hd⟩ := Nat.exists_eq_add_of_le hmany
      rw [hd, List.replicate_add, List.append_assoc]
      exact (List.prefix_append _ _).isInfix
    exact ⟨{ s with consecutiveTimeouts := s.consecutiveTimeouts + 1 },
      by rw [handleResult, if_neg hfew], h⟩
  | error =>
    refine ⟨s, rfl, ?_⟩
    rwa [ConsumerLocals.pending, List.filter_cons_of_neg (by simp)] at h

/-- The loop does not throw, and returns when it has seen enough ends. -/
theorem consumeLoop_returns {numPartitions : ℕ} {msgs : List ConsumeResult} {s : ConsumerLocals}
    (htimeouts : ¬ List.replicate maxConsecutiveTimeouts .timedOut <:+: s.pending msgs)
    (hends : numPartitions ≤ s.countReachedEof + (partitionEnds msgs).length) :
    ∃ events rest, consumeLoop reader numPartitions msgs s = (.done (.ok events), rest) := by
  induction msgs generalizing s with
  | nil =>
    simp only [partitionEnds, List.filterMap_nil, List.length_nil, Nat.add_zero] at hends
    exact ⟨s.events, [], by rw [consumeLoop, if_neg (Nat.not_lt.mpr hends)]⟩
  | cons msg msgs ih =>
    rw [consumeLoop]
    split_ifs with hlt
    · obtain ⟨s', hstep, hpending⟩ := handleResult_responsive reader htimeouts
      have hcount := (handleResult_ok hstep).2
      rw [hstep]
      apply ih hpending
      rwa [hcount, Nat.add_assoc, ← List.length_append, ← partitionEnds_append, List.singleton_append]
    · exact ⟨_, _, rfl⟩

/-! ## What the consumer returns -/

variable (reader) in
def readTagged (msgs : List ConsumeResult) : List (Partition × CacheEvent) :=
  msgs.filterMap fun msg =>
    match msg with
    | .message p payload => (reader.readEvent payload).toOption.map (p, ·)
    | _ => none

theorem map_readTagged (msgs : List ConsumeResult) :
    (readTagged reader msgs).map Prod.snd = readEvents reader msgs := by
  rw [readTagged, readEvents, List.map_filterMap]
  congr 1
  funext msg
  cases msg with
  | message p payload => simp [Function.comp_def]
  | _ => rfl

theorem filter_readTagged (p : Partition) (msgs : List ConsumeResult) :
    (readTagged reader msgs).filter (fun x => x.1 = p) =
      readTagged reader (msgs.filter (·.isOf p)) := by
  rw [readTagged, readTagged, List.filter_filterMap, List.filterMap_filter]
  congr 1
  funext msg
  cases msg with
  | message q payload =>
    dsimp only
    cases (reader.readEvent payload).toOption with
    | some event => by_cases hq : q = p <;> simp [ConsumeResult.isOf, hq]
    | none => simp
  | _ => simp

theorem filter_partitionEnds (p : Partition) (msgs : List ConsumeResult) :
    (partitionEnds msgs).filter (· = p) = partitionEnds (msgs.filter (·.isOf p)) := by
  rw [partitionEnds, partitionEnds, List.filter_filterMap, List.filterMap_filter]
  congr 1
  funext msg
  cases msg with
  | partitionEof q => by_cases hq : q = p <;> simp [ConsumeResult.isOf, hq]
  | _ => simp

theorem readEvents_messages (p : Partition) {es : List CacheEvent} {payloads : List Bytes}
    (h : List.Forall₂ (fun e payload => reader.readEvent payload = .ok e) es payloads) :
    readEvents reader (payloads.map (.message p)) = es := by
  induction h with
  | nil => rfl
  | cons hread _ ih => simpa [readEvents, hread, Except.toOption] using ih

namespace Polls
variable {payloads : Partition → List Bytes} {msgs : List ConsumeResult}

theorem length_ends (h : Polls payloads msgs) : (partitionEnds msgs).length = getNumPartitions := by
  have hone (p : Partition) : (partitionEnds msgs).count p = 1 := by
    have hmessages : partitionEnds ((payloads p).map (.message p)) = [] := by simp [partitionEnds]
    have hfilter : (partitionEnds msgs).filter (· = p) = [p] := by
      rw [filter_partitionEnds, h.results, partitionEnds_append, hmessages]
      rfl
    rw [List.count_eq_length_filter]
    exact congrArg List.length hfilter
  have hnodup : (partitionEnds msgs).Nodup := List.nodup_iff_count_le_one.mpr fun p => (hone p).le
  have huniv : (partitionEnds msgs).toFinset = Finset.univ := by
    ext p
    simp [← List.count_pos_iff, hone p]
  rw [← List.toFinset_card_of_nodup hnodup, huniv, Finset.card_univ, Fintype.card_fin]

theorem readEvents_rest (h : Polls payloads msgs) {used rest : List ConsumeResult}
    (hused : msgs = used ++ rest) (hends : (partitionEnds used).length = getNumPartitions) :
    readEvents reader rest = [] := by
  have hnone : partitionEnds rest = [] := by
    have hlength := h.length_ends
    rw [hused, partitionEnds_append, List.length_append, hends] at hlength
    exact List.eq_nil_of_length_eq_zero (by omega)
  have hfilter (p : Partition) : rest.filter (·.isOf p) = [] := by
    by_contra hne
    have hlast : (rest.filter (·.isOf p)).getLast hne = .partitionEof p := by
      have hend : (msgs.filter (·.isOf p)).getLast? = some (.partitionEof p) := by simp [h.results]
      rw [hused, List.filter_append, List.getLast?_append, List.getLast?_eq_some_getLast hne] at hend
      exact Option.some.inj hend
    have hmem := List.mem_of_mem_filter (List.getLast_mem hne)
    rw [hlast, ← mem_partitionEnds, hnone] at hmem
    cases hmem
  rw [readEvents, List.filterMap_eq_nil_iff]
  intro msg hmsg
  cases msg with
  | message p payload =>
    have hmem : ConsumeResult.message p payload ∈ rest.filter (·.isOf p) :=
      List.mem_filter.mpr ⟨hmsg, by simp [ConsumeResult.isOf]⟩
    rw [hfilter p] at hmem
    cases hmem
  | _ => rfl

theorem consumed (h : Polls payloads msgs) {stored : Partition → List CacheEvent}
    (hread : ∀ p, List.Forall₂ (fun e payload => reader.readEvent payload = .ok e)
      (stored p) (payloads p)) :
    ∃ events rest, consumeAllEvents reader true msgs = (.done (.ok events), rest) ∧
      Merge stored events := by
  obtain ⟨events, rest, hreturn⟩ :
      ∃ events rest, consumeAllEvents reader true msgs = (.done (.ok events), rest) := by
    apply consumeLoop_returns
    · exact h.responsive
    · rw [h.length_ends, Nat.zero_add]
  obtain ⟨used, hused, hevents, hends⟩ := consumeLoop_returned (Nat.zero_le _) hreturn
  refine ⟨events, rest, hreturn, ?_⟩
  have hall : events = (readTagged reader msgs).map Prod.snd := by
    rw [map_readTagged, hused, readEvents_append, h.readEvents_rest hused (by simpa using hends),
      List.append_nil]
    exact hevents
  have hparts : stored =
      fun p => ((readTagged reader msgs).filter fun x => x.1 = p).map Prod.snd := by
    funext p
    rw [filter_readTagged, h.results, map_readTagged, readEvents_append,
      readEvents_messages p (hread p)]
    simp [readEvents]
  rw [hall, hparts]
  exact Merge.of_tagged _

end Polls

/-! ## Sessions -/

/-- What the broker holds of a log, and what the consumer gets of it: every key lies in one
partition, where its events may be held several times, as the producer wrote them. -/
structure Held (writer : JsonWriter) (log : List CacheEvent)
    (parts stored : Partition → List CacheEvent) (payloads : Partition → List Bytes)
    (msgs : List ConsumeResult) : Prop where
  merge : Merge parts log
  keys : ∀ i j, ∀ e ∈ parts i, ∀ e' ∈ parts j, e.key = e'.key → i = j
  copies : ∀ p, Repeats [] (parts p) (stored p)
  written : ∀ p, List.Forall₂ (fun e payload => writer.payload e = .ok payload)
    (stored p) (payloads p)
  inRange : ∀ p, ∀ e ∈ stored p, e.InRange
  polls : Polls payloads msgs

/-- The results hand out a log. -/
def Delivers (writer : JsonWriter) (log : List CacheEvent) (msgs : List ConsumeResult) : Prop :=
  ∃ parts stored payloads, Held writer log parts stored payloads msgs

variable {writer : JsonWriter}

/-- The consumer returns events that replay, for every key, like the log. -/
theorem Delivers.consumed (hjson : reader.Reads writer) {log : List CacheEvent}
    {msgs : List ConsumeResult} (h : Delivers writer log msgs) :
    ∃ events rest, consumeAllEvents reader true msgs = (.done (.ok events), rest) ∧
      ∀ nowMs now k i x, keyReplay nowMs (fun _ => now) k i events x =
        keyReplay nowMs (fun _ => now) k i log x := by
  obtain ⟨parts, stored, payloads, h⟩ := h
  have hread (p : Partition) :
      List.Forall₂ (fun e payload => reader.readEvent payload = .ok e) (stored p) (payloads p) :=
    ((List.forall₂_and_left _ _).mpr ⟨h.inRange p, h.written p⟩).imp fun _ _ hpayload =>
      hjson.readEvent hpayload.1 hpayload.2
  obtain ⟨events, rest, hreturn, hmerge⟩ := h.polls.consumed hread
  exact ⟨events, rest, hreturn, keyReplay_copies h.keys h.merge h.copies hmerge⟩

/-- A new process initialises itself from the topic, which `kept` is left of, or a client operation
is carried out. -/
inductive TopicStep where
  | restart (kept : List CacheEvent) (withReplay assigned : Bool) (msgs : List ConsumeResult)
    (clock : Clock)
  | client (op : Op) (env : Env)

/-- The same on the log itself. -/
def TopicStep.onLog : TopicStep → Step
  | .restart kept withReplay _ _ clock => .restart withReplay kept clock
  | .client op env => .client op env

/-- The results of a replay hand out what is left of the log, at one clock reading. -/
def TopicStep.Faithful (writer : JsonWriter) : TopicStep → Prop
  | .restart kept withReplay assigned msgs clock =>
    withReplay = true → assigned = true ∧ (∃ now, clock = fun _ => now) ∧ Delivers writer kept msgs
  | .client _ _ => True

section
variable {α : Type} [LinearOrder α] (json : JsonLib) (reader)

def Sys.restartFrom (kept : List CacheEvent) (consumed : Except Fault (List CacheEvent))
    (clock : Clock) (s : Sys α) :
    Sys α :=
  { s with
    cache := ((create false kept).init json true consumed clock).2
    replayed := true
    logAtStart := kept
    now := clock (consumed.toOption.getD []).length }

/-- A process that replays the topic; none where it exits or waits for ever. -/
def Sys.restartFromTopic (kept : List CacheEvent) (assigned : Bool) (msgs : List ConsumeResult)
    (clock : Clock) (s : Sys α) : Option (Sys α) :=
  match (consumeAllEvents reader assigned msgs).1 with
  | .done consumed => some (s.restartFrom json kept consumed clock)
  | .exited => none
  | .waiting => none

def topicSessions (α : Type) [LinearOrder α] (json : JsonLib) (reader : JsonReader Json) :
    Machine (Option (Sys α)) TopicStep (Option (Except Fault Result)) where
  step
    | none, _ => (none, none)
    | some s, .restart kept withReplay assigned msgs clock =>
      (none, if withReplay then s.restartFromTopic reader json kept assigned msgs clock
        else some (s.restart json false kept clock))
    | some s, .client op env => (some (op.run json env s.cache).1, some (s.client json op env))

variable {reader}

theorem Sys.restartFromTopic_eq (hjson : reader.Reads writer) (s : Sys α) {kept : List CacheEvent}
    {msgs : List ConsumeResult} (h : Delivers writer kept msgs) (now : ℕ) :
    s.restartFromTopic reader json kept true msgs (fun _ => now) =
      some (s.restart json true kept fun _ => now) := by
  obtain ⟨events, rest, hreturn, hreplay⟩ := h.consumed hjson
  have hentry : replayedEntry (fun _ => now) events = replayedEntry (fun _ => now) kept :=
    funext fun k => congrArg Prod.fst (hreplay _ now k 1 (none, none))
  have hseq : replayedSeq (fun _ => now) events = replayedSeq (fun _ => now) kept :=
    funext fun k => congrArg Prod.snd (hreplay _ now k 1 (none, none))
  rw [Sys.restartFromTopic, hreturn]
  simp only [Sys.restartFrom, Sys.restart, init_with_replay (create_fresh _ _), hentry, hseq]

/-- Sessions over the topic are sessions over the log: however the partitions are interleaved,
and whatever is delivered again, every operation answers alike, and the process ends alike. -/
theorem topic_transparent (hjson : reader.Reads writer) (s : Sys α) {run : List TopicStep}
    (hrun : ∀ i ∈ run, i.Faithful writer) :
    (topicSessions α json reader).outputs (some s) run =
      (sessions α json).outputs s (run.map TopicStep.onLog) ∧
      (topicSessions α json reader).after (some s) run =
        some ((sessions α json).after s (run.map TopicStep.onLog)) := by
  rw [← Machine.outputs_comap, ← Machine.after_comap]
  have hadmits := ((sessions α json).comap TopicStep.onLog).admits_of_forall s hrun
  refine Machine.lockstep (R := fun t s => t = some s) ?_ rfl hadmits
  rintro t s i rfl hi
  cases i with
  | restart kept withReplay assigned msgs clock =>
    cases withReplay with
    | true =>
      obtain ⟨rfl, ⟨now, rfl⟩, hdelivers⟩ := hi rfl
      exact ⟨rfl, s.restartFromTopic_eq json hjson hdelivers now⟩
    | false => exact ⟨rfl, rfl⟩
  | client op env => exact ⟨rfl, rfl⟩

end

/-! ## A replay with a repeated event -/

def sampleParts (p : Partition) : List CacheEvent :=
  if p = 0 then [sampleEvent (lit "j")] else if p = 2 then [sampleEvent (lit "k")] else []

def sampleStored (p : Partition) : List CacheEvent :=
  if p = 0 then [sampleEvent (lit "j"), sampleEvent (lit "j")]
  else if p = 2 then [sampleEvent (lit "k")]
  else []

def samplePayloads (p : Partition) : List Bytes :=
  if p = 0 then [sampleText (lit "j"), sampleText (lit "j")]
  else if p = 2 then [sampleText (lit "k")]
  else []

def sampleResults : List ConsumeResult :=
  [.partitionEof 1, .message 0 (sampleText (lit "j")), .timedOut, .message 2 (sampleText (lit "k")),
    .timedOut, .error, .message 0 (sampleText (lit "j")), .partitionEof 0, .partitionEof 2,
    .timedOut, .partitionEof 3]

theorem sampleResults_delivers :
    Delivers sampleWriter [sampleEvent (lit "k"), sampleEvent (lit "j")] sampleResults := by
  refine ⟨sampleParts, sampleStored, samplePayloads, ?_, by decide, ?_, ?_, ?_, ?_, ?_⟩
  · exact .take (i := 2) rfl <| .take (i := 0) rfl <| .done (by decide)
  · intro p
    match p with
    | 0 => exact .first (.again List.mem_cons_self .done)
    | 1 => exact .done
    | 2 => exact .first .done
    | 3 => exact .done
  · intro p
    match p with
    | 0 => exact .cons rfl (.cons rfl .nil)
    | 1 => exact .nil
    | 2 => exact .cons rfl .nil
    | 3 => exact .nil
  · have hsample : ∀ p, ∀ e ∈ sampleStored p, e = sampleEvent (lit "j") ∨
        e = sampleEvent (lit "k") := by decide
    intro p e he
    obtain rfl | rfl := hsample p e he
    · exact ⟨rfl, by decide, rfl⟩
    · exact ⟨rfl, by decide, rfl⟩
  · decide
  · unfold Responsive
    decide

/-- A replay that reads one event twice, and a command. -/
def sampleRun : List TopicStep :=
  [.restart [sampleEvent (lit "k"), sampleEvent (lit "j")] true true sampleResults fun _ => 0,
    .client (.get (lit "j")) ⟨fun _ => 0, true⟩]

theorem topic_transparent_witness :
    (topicSessions ℤ .reference sampleReader).outputs (some Sys.start) sampleRun =
      [none, some (.ok (.value (some (lit "v"))))] := by
  have hfaithful : ∀ i ∈ sampleRun, i.Faithful sampleWriter := by
    intro i hi
    obtain rfl | hi := List.mem_cons.mp hi
    · exact fun _ => ⟨rfl, ⟨0, rfl⟩, sampleResults_delivers⟩
    · obtain rfl := List.mem_singleton.mp hi
      trivial
  rw [(topic_transparent .reference sampleReader_reads (Sys.start : Sys ℤ) hfaithful).1]
  rfl

end Chrono
