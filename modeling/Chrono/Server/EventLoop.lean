import Chrono.Library.Machine
import Chrono.Server.CommandHandler
import Chrono.Server.Connection
import Chrono.Server.RespParser

/-!
# The event loop, as one connection sees it

Each turn of the loop that finds the connection ready reads, answers every
request that the read completes, or writes; then it may close the connection.
-/
namespace Chrono
open Library Library.Framing

section
variable {α : Type} [LinearOrder α] (json : JsonLib) (text : DoubleText α)

def EventLoop.answer (env : CommandEnv) (payload : Bytes) : Action (ChronoCache α) Bytes :=
  match RespParser.parse payload with
  | .error e => fun c => (.error e, c)
  | .ok command => EventLoop.respond json text env command

end

def WriteResult.taken (w : WriteResult) (buf : Bytes) : Bytes :=
  match w with
  | .accepted n => buf.take n
  | .again | .error => []

/-- The `revents` of a connection. -/
structure Ready where
  pollin : Bool
  pollout : Bool
  pollerr : Bool
  pollhup : Bool
deriving DecidableEq, Repr

/-- What the environment decides about one turn: the events that `poll` reports, what
`read` and `write` return if they are called, and the cache that the requests
meet, in the environment of each. -/
structure Turn (α : Type) where
  ready : Ready
  read : ReadResult
  write : WriteResult
  cache : ChronoCache α
  env : ℕ → CommandEnv

/-- A connection with its history: the bytes received and written, and each request
payload answered so far with its reply. -/
structure Session where
  conn : Connection
  received : Bytes
  written : Bytes
  answered : List (Bytes × Bytes)

inductive Halt where
  | assertion
  | fault (e : Fault)

/-- Where a connection stands between two polls. -/
inductive EventLoop where
  | running (s : Session)
  | closed (s : Session)
  | halted (why : Halt)

namespace EventLoop
variable {α : Type} [LinearOrder α] (json : JsonLib) (text : DoubleText α)

def accepted : Session := ⟨Connection.accepted, [], [], []⟩

def serve (env : ℕ → CommandEnv) : ℕ → List ReadResponse → ChronoCache α → Session →
    Except Halt Session
  | _, [], _, s => .ok s
  | i, request :: requests, cache, s =>
    match request.success, request.data with
    | true, some payload =>
      match answer json text (env i) payload cache with
      | (.error e, _) => .error (.fault e)
      | (.ok resp, cache) =>
        serve env (i + 1) requests cache
          { s with
            conn := s.conn.enqueueResponse resp
            answered := s.answered ++ [(payload, resp)] }
    | _, _ => serve env (i + 1) requests cache s

/-- `if (ready & POLLIN)` -/
def readTurn (t : Turn α) (s : Session) : Except Halt Session :=
  if !t.ready.pollin then .ok s
  else if !s.conn.wantRead then .error .assertion
  else
    match s.conn.handleRead t.read with
    | .error e => .error (.fault e)
    | .ok (requests, conn) =>
      serve json text t.env 0 requests t.cache
        { s with conn := conn, received := s.received ++ t.read.bytes }

/-- `if (!conn->want_close && (ready & POLLOUT))` -/
def writeTurn (t : Turn α) (s : Session) : Except Halt Session :=
  if s.conn.wantClose || !t.ready.pollout then .ok s
  else if !s.conn.wantWrite then .error .assertion
  else
    match s.conn.handleWrite t.write with
    | none => .error .assertion
    | some conn => .ok { s with conn := conn, written := s.written ++ t.write.taken s.conn.outgoing }

def turn (t : Turn α) (s : Session) : EventLoop :=
  if t.ready = ⟨false, false, false, false⟩ then .running s
  else
    match readTurn json text t s with
    | .error why => .halted why
    | .ok s =>
      match writeTurn t s with
      | .error why => .halted why
      | .ok s =>
        if t.ready.pollerr || t.ready.pollhup || s.conn.wantClose then .closed s else .running s

/-- The turns of the loop; a connection that was closed is no longer polled. -/
def run : Machine EventLoop (Turn α) Unit where
  step l t :=
    match l with
    | .running s => ((), turn json text t s)
    | l => ((), l)

/-- `poll` reports requested events only, and `write` takes a nonempty part of the
buffer. -/
def Legal (l : EventLoop) (t : Turn α) : Prop :=
  match l with
  | .running s =>
    (t.ready.pollin = true → s.conn.wantRead = true) ∧
      (t.ready.pollout = true → s.conn.wantWrite = true ∧
        ∀ n, t.write = .accepted n → 1 ≤ n ∧ n ≤ s.conn.outgoing.length)
  | _ => True

/-- The flags say whether there is something to write. -/
structure Flags (c : Connection) : Prop where
  exclusive : c.wantRead = !c.wantWrite
  pending : c.wantWrite = true ↔ c.outgoing ≠ []

/-- The bytes written and queued are the replies, framed and in order, to the payloads of
the complete frames received so far, one each, and each is the reply the server
computes. -/
structure Replied (s : Session) : Prop where
  replies : s.written ++ s.conn.outgoing = s.answered.flatMap (fun a => Connection.frame a.2)
  requests : Front Connection.frame Connection.Fits s.received
    (s.answered.map Prod.fst) s.conn.incoming
  computed : ∀ a ∈ s.answered, ∃ env cache, (answer json text env a.1 cache).1 = .ok a.2

/-- Where a connection stands at the end of a turn. -/
def Conforms : EventLoop → Prop
  | .running s => Flags s.conn ∧ s.conn.wantClose = false ∧ Replied json text s
  | .closed s => Replied json text s
  | .halted why =>
    ∃ e env payload cache, why = .fault e ∧ (answer json text env payload cache).1 = .error e

variable {json text}

theorem flags_enqueueResponse (c : Connection) (resp : Bytes) : Flags (c.enqueueResponse resp) := by
  refine ⟨rfl, iff_of_true rfl ?_⟩
  simp [Connection.enqueueResponse, Connection.frame, htonl]

/-- What the loop over the requests does to a session. -/
structure Served (json : JsonLib) (text : DoubleText α) (s : Session) (payloads : List Bytes)
    (s' : Session) : Prop where
  received : s'.received = s.received
  written : s'.written = s.written
  incoming : s'.conn.incoming = s.conn.incoming
  wantClose : s'.conn.wantClose = s.conn.wantClose
  requests : s'.answered.map Prod.fst = s.answered.map Prod.fst ++ payloads
  flags : Flags s.conn → Flags s'.conn
  replies : s.written ++ s.conn.outgoing = s.answered.flatMap (fun a => Connection.frame a.2) →
    s'.written ++ s'.conn.outgoing = s'.answered.flatMap (fun a => Connection.frame a.2)
  computed : (∀ a ∈ s.answered, ∃ env cache, (answer json text env a.1 cache).1 = .ok a.2) →
    ∀ a ∈ s'.answered, ∃ env cache, (answer json text env a.1 cache).1 = .ok a.2

theorem Served.refl (s : Session) : Served json text s [] s where
  received := rfl
  written := rfl
  incoming := rfl
  wantClose := rfl
  requests := (List.append_nil _).symm
  flags := id
  replies := id
  computed := id

theorem Served.cons {s s' : Session} {payload resp : Bytes} {payloads : List Bytes} {env : CommandEnv}
    {cache : ChronoCache α} (hresp : (answer json text env payload cache).1 = .ok resp)
    (h : Served json text
      { s with
        conn := s.conn.enqueueResponse resp
        answered := s.answered ++ [(payload, resp)] } payloads s') :
    Served json text s (payload :: payloads) s' where
  received := h.received
  written := h.written
  incoming := h.incoming
  wantClose := h.wantClose
  requests := by rw [h.requests, List.map_append, List.append_assoc]; rfl
  flags := fun _ => h.flags (flags_enqueueResponse _ _)
  replies := by
    intro hs
    apply h.replies
    simp only [Connection.enqueueResponse, List.flatMap_append, ← hs, List.append_assoc]
    simp
  computed := by
    intro hs
    apply h.computed
    intro a ha
    rcases List.mem_append.mp ha with ha | ha
    · exact hs a ha
    · obtain rfl := List.mem_singleton.mp ha
      exact ⟨env, cache, hresp⟩

theorem serve_cases (env : ℕ → CommandEnv) (i : ℕ) (payloads : List Bytes) (cache : ChronoCache α)
    (s : Session) :
    (∃ s', serve json text env i (payloads.map (fun p => ⟨true, some p⟩)) cache s = .ok s' ∧
        Served json text s payloads s') ∨
      ∃ e env' payload cache',
        serve json text env i (payloads.map (fun p => ⟨true, some p⟩)) cache s = .error (.fault e) ∧
        (answer json text env' payload cache').1 = .error e := by
  induction payloads generalizing i cache s with
  | nil => exact .inl ⟨s, rfl, Served.refl s⟩
  | cons payload payloads ih =>
    rcases hans : answer json text (env i) payload cache with ⟨e | resp, cache'⟩
    · refine .inr ⟨e, env i, payload, cache, ?_, by rw [hans]⟩
      simp [serve, hans]
    · have hserve : serve json text env i
          ((payload :: payloads).map (fun p => ⟨true, some p⟩)) cache s =
          serve json text env (i + 1) (payloads.map (fun p => ⟨true, some p⟩)) cache'
            { s with
              conn := s.conn.enqueueResponse resp
              answered := s.answered ++ [(payload, resp)] } := by
        simp [serve, hans]
      rw [hserve]
      rcases ih (i + 1) cache' _ with ⟨s', hs', hserved⟩ | hfault
      · exact .inl ⟨s', hs', Served.cons (by rw [hans]) hserved⟩
      · exact .inr hfault

/-- A session in mid-turn. -/
structure Live (json : JsonLib) (text : DoubleText α) (s : Session) : Prop where
  flags : Flags s.conn
  replied : Replied json text s

/-- A step of a turn: it leaves a live session, or the answer to a request faulted. -/
def Goes (json : JsonLib) (text : DoubleText α) (r : Except Halt Session) : Prop :=
  (∃ s, r = .ok s ∧ Live json text s) ∨
    ∃ e env payload cache, r = .error (.fault e) ∧ (answer json text env payload cache).1 = .error e

theorem Served.live {s s' : Session} {payloads : List Bytes} {chunk : Bytes} {conn : Connection}
    (h : Served json text { s with conn := conn, received := s.received ++ chunk } payloads s')
    (hs : Live json text s) (hflags : Flags conn) (hout : conn.outgoing = s.conn.outgoing)
    (hfront : Front Connection.frame Connection.Fits
      (s.conn.incoming ++ chunk) payloads conn.incoming) :
    Live json text s' where
  flags := h.flags hflags
  replied := by
    refine ⟨h.replies ?_, ?_, h.computed hs.replied.computed⟩
    · change s.written ++ conn.outgoing = _
      rw [hout]
      exact hs.replied.replies
    · rw [h.received, h.requests, h.incoming]
      exact hs.replied.requests.extend hfront

theorem readTurn_goes {t : Turn α} {s : Session} (hs : Live json text s)
    (hlegal : t.ready.pollin = true → s.conn.wantRead = true) :
    Goes json text (readTurn json text t s) := by
  unfold readTurn
  by_cases hin : t.ready.pollin = true
  · simp only [hin, hlegal hin, Bool.not_true, Bool.false_eq_true, if_false]
    have hstuck : Front Connection.frame Connection.Fits
        (s.conn.incoming ++ []) [] s.conn.incoming := by
      rw [List.append_nil]
      exact Front.stuck hs.replied.requests.maximal
    cases hread : t.read with
    | again => exact .inl ⟨_, rfl, (Served.refl _).live hs hs.flags rfl hstuck⟩
    | eof =>
      exact .inl ⟨_, rfl, (Served.refl _).live hs ⟨hs.flags.exclusive, hs.flags.pending⟩ rfl hstuck⟩
    | error =>
      exact .inl ⟨_, rfl, (Served.refl _).live hs ⟨hs.flags.exclusive, hs.flags.pending⟩ rfl hstuck⟩
    | data head tail =>
      obtain ⟨payloads, rest, hfront, hdrain⟩ := Connection.drain_front
        (c := { s.conn with incoming := s.conn.incoming ++ head :: tail }) (Nat.lt_succ_self _)
      simp only [Connection.handleRead, hdrain]
      rcases serve_cases t.env 0 payloads t.cache _ with
        ⟨s', hs', hserved⟩ | ⟨e, env, p, cache, hs', hp⟩
      · exact .inl ⟨s', hs', hserved.live hs ⟨hs.flags.exclusive, hs.flags.pending⟩ rfl hfront⟩
      · exact .inr ⟨e, env, p, cache, hs', hp⟩
  · simp only [hin, Bool.not_false, if_true]
    exact .inl ⟨s, rfl, hs⟩

/-- A write moves bytes from the queue to the peer, and empties the queue or goes on. -/
theorem writeTurn_goes {t : Turn α} {s : Session} (hs : Live json text s)
    (hlegal : t.ready.pollout = true → s.conn.wantWrite = true) :
    Goes json text (writeTurn t s) := by
  unfold writeTurn
  by_cases hskip : (s.conn.wantClose || !t.ready.pollout) = true
  · rw [if_pos hskip]
    exact .inl ⟨s, rfl, hs⟩
  rw [if_neg hskip]
  have hout : t.ready.pollout = true := by
    simp only [Bool.or_eq_true, not_or, Bool.not_eq_true', Bool.not_eq_true,
      Bool.not_eq_false] at hskip
    exact hskip.2
  have hwrite := hlegal hout
  have hne : s.conn.outgoing.length ≠ 0 := fun h =>
    hs.flags.pending.mp hwrite (List.length_eq_zero_iff.mp h)
  unfold Connection.handleWrite
  rw [if_neg (by rw [hwrite]; decide), if_neg hne]
  have hkept : s.written ++ [] ++ s.conn.outgoing =
      s.answered.flatMap (fun a => Connection.frame a.2) := by
    rw [List.append_nil]
    exact hs.replied.replies
  cases t.write with
  | again => exact .inl ⟨_, rfl, hs.flags, hkept, hs.replied.requests, hs.replied.computed⟩
  | error =>
    exact .inl ⟨_, rfl, ⟨hs.flags.exclusive, hs.flags.pending⟩, hkept, hs.replied.requests,
      hs.replied.computed⟩
  | accepted n =>
    have hmoved : s.written ++ s.conn.outgoing.take n ++ s.conn.outgoing.drop n =
        s.answered.flatMap (fun a => Connection.frame a.2) := by
      rw [List.append_assoc, List.take_append_drop]
      exact hs.replied.replies
    by_cases hempty : (s.conn.outgoing.drop n).length = 0
    · simp only [hempty, if_true]
      refine .inl ⟨_, rfl, ⟨rfl, ?_⟩, hmoved, hs.replied.requests, hs.replied.computed⟩
      simp [List.length_eq_zero_iff.mp hempty]
    · simp only [hempty, if_false]
      refine .inl ⟨_, rfl, ⟨hs.flags.exclusive, iff_of_true hwrite ?_⟩, hmoved, hs.replied.requests,
        hs.replied.computed⟩
      exact fun h => hempty (List.length_eq_zero_iff.mpr h)

theorem turn_conforms {t : Turn α} {s : Session} (hs : Conforms json text (.running s))
    (hlegal : Legal (.running s) t) : Conforms json text (turn json text t s) := by
  obtain ⟨hflags, hopen, hreplied⟩ := hs
  obtain ⟨hin, hout⟩ := hlegal
  unfold turn
  split
  · exact ⟨hflags, hopen, hreplied⟩
  have hread := readTurn_goes (t := t) ⟨hflags, hreplied⟩ hin
  have hsame : t.ready.pollout = true → readTurn json text t s = .ok s := by
    intro h
    have hnot : ¬ t.ready.pollin = true := by
      intro h'
      have := hflags.exclusive
      rw [hin h', (hout h).1] at this
      cases this
    simp [readTurn, hnot]
  rcases hread with ⟨s₁, hs₁, hlive⟩ | ⟨e, env, payload, cache, hs₁, hfault⟩
  · have hlegal₁ : t.ready.pollout = true → s₁.conn.wantWrite = true := by
      intro h
      rw [hsame h] at hs₁
      cases hs₁
      exact (hout h).1
    rw [hs₁]
    rcases writeTurn_goes hlive hlegal₁ with ⟨s₂, hs₂, hlive₂⟩ | ⟨e, env, payload, cache, hs₂, hfault⟩
    · simp only [hs₂]
      split
      · exact hlive₂.replied
      · next hclose =>
        simp only [Bool.or_eq_true, not_or, Bool.not_eq_true] at hclose
        exact ⟨hlive₂.flags, hclose.2, hlive₂.replied⟩
    · simp only [hs₂]
      exact ⟨e, env, payload, cache, rfl, hfault⟩
  · rw [hs₁]
    exact ⟨e, env, payload, cache, rfl, hfault⟩

theorem conforms_accepted : Conforms json text (.running accepted) := by
  refine ⟨⟨rfl, by decide⟩, rfl, rfl, ?_, by simp [accepted]⟩
  exact Front.stuck Connection.settled_accepted.noFrame

variable (json text) in
/-- In every run of a connection, at the end of every turn: while it is open, exactly
one of `want_read` and `want_write` is set, the latter iff something is queued; no
assertion has failed; and the bytes written and queued are the framed replies, in
order, one to each complete frame received. -/
theorem connection_conforms (turns : List (Turn α))
    (hlegal : (run json text).Admits Legal (.running accepted) turns) :
    Conforms json text ((run json text).after (.running accepted) turns) := by
  apply (run json text).invariant _ conforms_accepted hlegal
  intro l t hl ht
  cases l with
  | running s => exact turn_conforms hl ht
  | closed s => exact hl
  | halted why => exact hl

/-- A `PING` that arrives in two reads, and its reply that leaves in two writes. -/
theorem connection_conforms_witness :
    let cache : ChronoCache ℤ := ChronoCache.create false []
    let turn (ready : Ready) (read : ReadResult) (write : WriteResult) : Turn ℤ :=
      ⟨ready, read, write, cache, fun _ => quietEnv⟩
    Conforms JsonLib.reference noDoubles ((run JsonLib.reference noDoubles).after (.running accepted)
      [turn ⟨true, false, false, false⟩ (.data 0 [0, 0, 14, 0x2A]) .again,
        turn ⟨true, false, false, false⟩ (.data 0x31 (lit "\r\n$4\r\nPING\r\n")) .again,
        turn ⟨false, true, false, false⟩ .again (.accepted 5),
        turn ⟨false, true, false, true⟩ .again (.accepted 6)]) := by
  intro cache turn
  apply connection_conforms
  refine ⟨⟨fun _ => rfl, by simp [turn]⟩, ⟨fun _ => rfl, by simp [turn]⟩,
    ⟨by simp [turn], fun _ => ⟨rfl, ?_⟩⟩, ⟨by simp [turn], fun _ => ⟨rfl, ?_⟩⟩, trivial⟩
  · intro n hn
    cases hn
    decide
  · intro n hn
    cases hn
    decide

end EventLoop
end Chrono
