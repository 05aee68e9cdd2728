import Chrono.Server.Clients

/-!
# Many connections, one sequence of requests

Whatever `poll` reports and in whatever order connections come and go, their requests
form one sequence, answered by one cache, of which each connection sees its own part in
order. Each accepted connection is closed once, and no slot that is used is empty.
-/
namespace Chrono
open Library Library.Framing

namespace EventLoop
variable {α : Type} [LinearOrder α] (json : JsonLib) (text : DoubleText α)

/-- The cache, answering request payloads one after the other. -/
def answers : Machine (ChronoCache α) (CommandEnv × Bytes) (Except Fault Bytes) where
  step cache request := answer json text request.1 request.2 cache

end EventLoop

namespace Exchange

def request (e : Exchange) : CommandEnv × Bytes := (e.env, e.payload)

/-- What a connection records of the exchange. -/
def answered (e : Exchange) : Bytes × Bytes := (e.payload, e.reply)

end Exchange

namespace EventLoop
variable {α : Type} [LinearOrder α] {json : JsonLib} {text : DoubleText α}

/-- The exchanges are those of the cache `c` with the requests in this order, and leave `c'`. -/
structure Sequential (json : JsonLib) (text : DoubleText α) (c : ChronoCache α) (log : List Exchange)
    (c' : ChronoCache α) : Prop where
  replies : (answers json text).outputs c (log.map Exchange.request) = log.map fun e => .ok e.reply
  after : (answers json text).after c (log.map Exchange.request) = c'

theorem Sequential.nil (c : ChronoCache α) : Sequential json text c [] c := ⟨rfl, rfl⟩

theorem Sequential.cons {c c₁ c' : ChronoCache α} {e : Exchange} {log : List Exchange}
    (he : answer json text e.env e.payload c = (.ok e.reply, c₁))
    (h : Sequential json text c₁ log c') :
    Sequential json text c (e :: log) c' := by
  have hstep : (answers json text).step c e.request = (.ok e.reply, c₁) := he
  constructor
  · rw [List.map_cons, Machine.outputs, hstep, h.replies, List.map_cons]
  · rw [List.map_cons, Machine.after_cons, hstep, h.after]

theorem Sequential.append {c c₁ c' : ChronoCache α} {log log' : List Exchange}
    (h : Sequential json text c log c₁) (h' : Sequential json text c₁ log' c') :
    Sequential json text c (log ++ log') c' := by
  induction log generalizing c with
  | nil =>
    obtain rfl : c = c₁ := h.after
    exact h'
  | cons e log ih =>
    obtain ⟨hreplies, hafter⟩ := h
    rw [List.map_cons, List.map_cons, Machine.outputs, List.cons.injEq] at hreplies
    exact .cons (Prod.ext hreplies.1 rfl) (ih ⟨hreplies.2, hafter⟩)

/-- The requests of one connection were answered: its session records them, and they are
the exchanges of the cache. -/
def Advances (json : JsonLib) (text : DoubleText α) (client : ℕ) (p p' : Progress α) : Prop :=
  ∃ log, p'.log = p.log ++ log ∧ (∀ e ∈ log, e.client = client) ∧
    p'.session.answered = p.session.answered ++ log.map Exchange.answered ∧
    Sequential json text p.cache log p'.cache

theorem Advances.of_answered {client : ℕ} {p p' : Progress α} (hlog : p'.log = p.log)
    (hcache : p'.cache = p.cache) (hanswered : p'.session.answered = p.session.answered) :
    Advances json text client p p' :=
  ⟨[], by simp [hlog], by simp, by simp [hanswered], hcache ▸ .nil _⟩

theorem serveAll_cases (client : ℕ) (env : ℕ → CommandEnv) (i : ℕ) (requests : List ReadResponse)
    (p : Progress α) :
    (∃ p', serveAll json text client env i requests p = .ok p' ∧
        serve json text env i requests p.cache p.session = .ok p'.session ∧
        Advances json text client p p') ∨
      ∃ why, serveAll json text client env i requests p = .error why ∧
        serve json text env i requests p.cache p.session = .error why := by
  induction requests generalizing i p with
  | nil => exact .inl ⟨p, rfl, rfl, .of_answered rfl rfl rfl⟩
  | cons request requests ih =>
    obtain ⟨success, data⟩ := request
    cases success with
    | false =>
      simp only [serveAll, serve]
      exact ih (i + 1) p
    | true =>
      cases data with
      | none =>
        simp only [serveAll, serve]
        exact ih (i + 1) p
      | some payload =>
        cases hans : answer json text (env i) payload p.cache with
        | mk r cache =>
          simp only [serveAll, serve, hans]
          cases r with
          | error e => exact .inr ⟨_, rfl, rfl⟩
          | ok resp =>
            rcases ih (i + 1) ⟨{ p.session with
                conn := p.session.conn.enqueueResponse resp
                answered := p.session.answered ++ [(payload, resp)] }, cache,
              p.log ++ [⟨client, env i, payload, resp⟩]⟩ with ⟨p', hall, hserve, log, hlog, hclient,
              hanswered, hseq⟩ | herror
            · refine .inl ⟨p', hall, hserve, ⟨client, env i, payload, resp⟩ :: log, ?_, ?_,
                ?_, hseq.cons hans⟩
              · simpa using hlog
              · simpa using hclient
              · simpa [Exchange.answered] using hanswered
            · exact .inr herror

theorem readAll_cases (client : ℕ) (t : Turn α) (s : Session) :
    (∃ p, readAll json text client t s = .ok p ∧ readTurn json text t s = .ok p.session ∧
        Advances json text client ⟨s, t.cache, []⟩ p) ∨
      ∃ why, readAll json text client t s = .error why ∧ readTurn json text t s = .error why := by
  unfold readAll readTurn
  split_ifs
  · exact .inl ⟨_, rfl, rfl, .of_answered rfl rfl rfl⟩
  · exact .inr ⟨_, rfl, rfl⟩
  cases hread : s.conn.handleRead t.read with
  | error e => exact .inr ⟨_, rfl, rfl⟩
  | ok answer =>
    obtain ⟨requests, conn⟩ := answer
    exact serveAll_cases client t.env 0 requests _

omit [LinearOrder α] in
theorem writeTurn_answered {t : Turn α} {s s' : Session} (h : writeTurn t s = .ok s') :
    s'.answered = s.answered := by
  unfold writeTurn at h
  split_ifs at h
  · cases h
    rfl
  · split at h
    · cases h
    · cases h
      rfl

theorem turnAll_cases (client : ℕ) (t : Turn α) (s : Session) :
    (∃ close p, turnAll json text client t s = .ok (close, p) ∧
        turn json text t s = (if close then .closed p.session else .running p.session) ∧
        Advances json text client ⟨s, t.cache, []⟩ p) ∨
      ∃ why, turnAll json text client t s = .error why ∧ turn json text t s = .halted why := by
  unfold turnAll turn
  split_ifs with hidle
  · exact .inl ⟨false, _, rfl, rfl, .of_answered rfl rfl rfl⟩
  rcases readAll_cases client t s with ⟨p, hall, hread, hadvances⟩ | ⟨why, hall, hread⟩
  · rw [hall, hread]
    cases hwrite : writeTurn t p.session with
    | error why => exact .inr ⟨why, by simp only [hwrite], by simp only [hwrite]⟩
    | ok session =>
      obtain ⟨log, hlog, hclient, hanswered, hseq⟩ := hadvances
      refine .inl ⟨t.ready.pollerr || t.ready.pollhup || session.conn.wantClose, { p with session },
        by simp only [hwrite], by simp only [hwrite], log, hlog, hclient, ?_, hseq⟩
      exact (writeTurn_answered hwrite).trans hanswered
  · rw [hall, hread]
    exact .inr ⟨why, rfl, rfl⟩

end EventLoop

namespace Clients
open EventLoop
variable {α : Type} [LinearOrder α] {json : JsonLib} {text : DoubleText α}

/-- The connections that were accepted are all there, each once, and their requests are one
sequence that the cache answered, of which each has its part in order. -/
structure Accounted (json : JsonLib) (text : DoubleText α) (init : ChronoCache α) (all : List Client)
    (log : List Exchange) (accepted : ℕ) (cache : ChronoCache α) : Prop where
  once : (all.map Client.client).Perm (List.range accepted)
  parts : ∀ c ∈ all, c.session.answered =
    (log.filter fun e => e.client = c.client).map Exchange.answered
  known : ∀ e ∈ log, e.client < accepted
  sequential : Sequential json text init log cache

/-- What holds between two rounds: connections are found at their descriptors and conform;
those that are open and those that were closed make up the accepted ones. -/
structure Consistent (json : JsonLib) (text : DoubleText α) (init : ChronoCache α) (s : Clients α) :
    Prop where
  index : ∀ (fd : ℕ) c, s.fd2conn[fd]? = some (some c) → c.fd = fd
  conforms : ∀ c ∈ s.clients, Conforms json text (.running c.session)
  closed : ∀ c ∈ s.ended, Replied json text c.session
  accounted : Accounted json text init (s.ended ++ s.clients) s.log s.accepted s.cache

/-- `accept` returns a descriptor that is not in use; `poll` reports requested events only,
and `write` takes a nonempty part of the buffer. -/
def Legal (l : Looping α) (r : Round) : Prop :=
  match l with
  | .polling s =>
    (∀ c ∈ s.clients, r.accept ≠ some c.fd) ∧
      match r.poll with
      | .ready _ revents =>
        ∀ c ∈ s.clients, EventLoop.Legal (.running c.session) (turnOf r revents s c.fd)
      | _ => True
  | _ => True

theorem accepts_iff {w : WriteResult} {len : ℕ} : (∀ n, w = .accepted n → 1 ≤ n ∧ n ≤ len) ↔
    w ∈ WriteResult.again :: .error :: (List.range' 1 len).map .accepted := by
  cases w with
  | accepted n =>
    simp only [WriteResult.accepted.injEq, forall_eq', List.mem_cons, List.mem_map,
      List.mem_range'_1, reduceCtorEq, false_or, exists_eq_right]
    omega
  | again => simp
  | error => simp

instance (s : Session) (t : Turn α) : Decidable (EventLoop.Legal (.running s) t) :=
  haveI : Decidable (∀ n, t.write = .accepted n → 1 ≤ n ∧ n ≤ s.conn.outgoing.length) :=
    decidable_of_iff _ accepts_iff.symm
  inferInstanceAs (Decidable (_ ∧ _))

instance (l : Looping α) (r : Round) : Decidable (Legal l r) :=
  match l with
  | .polling s =>
    haveI : Decidable (match r.poll with
        | .ready _ revents =>
          ∀ c ∈ s.clients, EventLoop.Legal (.running c.session) (turnOf r revents s c.fd)
        | _ => True) :=
      match r.poll with
      | .ready _ _ => inferInstanceAs (Decidable (∀ _ ∈ _, _))
      | .interrupted => .isTrue trivial
      | .failed => .isTrue trivial
    inferInstanceAs (Decidable (_ ∧ _))
  | .returned _ => .isTrue trivial
  | .threw _ => .isTrue trivial
  | .halted _ => .isTrue trivial

omit [LinearOrder α] in
theorem mem_clients {s : Clients α} {c : Client} : c ∈ s.clients ↔ ∃ fd :
    ℕ, s.fd2conn[fd]? = some (some c) :=
  Slots.mem_reduceOption

section
variable {init cache cache' : ChronoCache α} {all all' rest : List Client}
  {log log' : List Exchange} {accepted : ℕ}
  {c : Client}

theorem Accounted.perm (h : Accounted json text init all log accepted cache) (hperm : all'.Perm all) :
    Accounted json text init all' log accepted cache :=
  ⟨(hperm.map _).trans h.once, fun c hc => h.parts c (hperm.mem_iff.mp hc), h.known, h.sequential⟩

theorem Accounted.accept (h : Accounted json text init all log accepted cache) (connfd : ℕ) :
    Accounted json text init (⟨connfd, accepted, EventLoop.accepted⟩ :: all) log
      (accepted + 1) cache where
  once := by
    rw [List.map_cons, List.range_succ]
    exact (h.once.cons _).trans (List.perm_append_singleton _ _).symm
  parts c hc := by
    rcases List.mem_cons.mp hc with rfl | hc
    · have hnone : (log.filter fun e => e.client = accepted) = [] := by
        rw [List.filter_eq_nil_iff]
        intro e he
        simpa using (h.known e he).ne
      simp [hnone, EventLoop.accepted]
    · exact h.parts c hc
  known e he := Nat.lt_succ_of_lt (h.known e he)
  sequential := h.sequential

/-- The exchanges of one connection are new to that connection and to no other. -/
theorem Accounted.advance (h : Accounted json text init (c :: rest) log accepted cache)
    {session : Session} (hclient : ∀ e ∈ log', e.client = c.client)
    (hanswered : session.answered = c.session.answered ++ log'.map Exchange.answered)
    (hseq : Sequential json text cache log' cache') :
    Accounted json text init ({ c with session } :: rest) (log ++ log') accepted cache' where
  once := h.once
  parts d hd := by
    rw [List.filter_append, List.map_append]
    rcases List.mem_cons.mp hd with rfl | hd
    · have hself : (log'.filter fun e => e.client = c.client) = log' := by
        rw [List.filter_eq_self]
        simpa using hclient
      rw [hself, ← h.parts c (by simp)]
      exact hanswered
    · have hne : c.client ≠ d.client := by
        have hnodup := h.once.nodup_iff.mpr List.nodup_range
        rw [List.map_cons, List.nodup_cons] at hnodup
        intro heq
        exact hnodup.1 (heq ▸ List.mem_map_of_mem hd)
      have hnone : (log'.filter fun e => e.client = d.client) = [] := by
        rw [List.filter_eq_nil_iff]
        intro e he
        simpa [hclient e he] using hne
      rw [hnone, ← h.parts d (by simp [hd]), List.map_nil, List.append_nil]
  known e he := by
    rcases List.mem_append.mp he with he | he
    · exact h.known e he
    · rw [hclient e he]
      exact List.mem_range.mp (h.once.mem_iff.mp (by simp))
  sequential := h.sequential.append hseq

end

variable {init : ChronoCache α} {s : Clients α}

theorem consistent_start (init : ChronoCache α) : Consistent json text init (start init) where
  index fd c h := by simp [start] at h
  conforms c hc := by simp [clients, start] at hc
  closed c hc := by simp [start] at hc
  accounted := by
    refine ⟨?_, ?_, ?_, .nil init⟩
    · simp [start, clients]
    · simp [start, clients]
    · simp [start]

/-- An accepted connection goes into an empty slot, as no open connection has its descriptor. -/
theorem Consistent.accept (hs : Consistent json text init s) {connfd : ℕ}
    (hnew : ∀ c ∈ s.clients, c.fd ≠ connfd) :
    Consistent json text init (s.accept (some connfd)) := by
  have hlt : connfd < (Slots.grow s.fd2conn (connfd + 1)).length :=
    Slots.lt_length_grow (Nat.lt_succ_self _)
  have hempty : ∀ c, (Slots.grow s.fd2conn (connfd + 1))[connfd]? ≠ some (some c) := by
    intro c hc
    have hc := Slots.getElem?_of_grow hc
    exact hnew c (mem_clients.mpr ⟨_, hc⟩) (hs.index _ _ hc)
  have hclients : (s.accept (some connfd)).clients.Perm
      (⟨connfd, s.accepted, EventLoop.accepted⟩ :: s.clients) := by
    have hperm := Slots.perm_set_some hlt ⟨connfd, s.accepted, EventLoop.accepted⟩
    rwa [Slots.set_none_of_empty hempty, Slots.reduceOption_grow] at hperm
  constructor
  · intro fd c hc
    by_cases hfd : fd = connfd
    · subst hfd
      rw [Clients.accept, List.getElem?_set_self hlt] at hc
      rw [← Option.some.inj (Option.some.inj hc)]
    · rw [Clients.accept, List.getElem?_set_ne (Ne.symm hfd)] at hc
      exact hs.index _ _ (Slots.getElem?_of_grow hc)
  · intro c hc
    rcases List.mem_cons.mp (hclients.mem_iff.mp hc) with rfl | hc
    · exact conforms_accepted
    · exact hs.conforms c hc
  · exact hs.closed
  · exact (hs.accounted.accept connfd).perm
      (((List.Perm.refl _).append hclients).trans List.perm_middle)

/-- The connections that were there before an accept stay in their slots. -/
theorem Consistent.accepting (hs : Consistent json text init s) (server : Bool) {accept : Option ℕ}
    (hnew : ∀ c ∈ s.clients, accept ≠ some c.fd) :
    Consistent json text init (if server then s.accept accept else s) ∧
      ∀ (fd : ℕ) c, s.fd2conn[fd]? = some (some c) →
        (if server then s.accept accept else s).fd2conn[fd]? = some (some c) := by
  cases server with
  | false => exact ⟨hs, fun _ _ hc => hc⟩
  | true =>
    rw [if_pos rfl]
    cases accept with
    | none => exact ⟨hs, fun _ _ hc => hc⟩
    | some connfd =>
      have hfree : ∀ c ∈ s.clients, c.fd ≠ connfd := fun c hc heq => hnew c hc (by rw [heq])
      refine ⟨hs.accept hfree, fun fd c hc => ?_⟩
      have hne : connfd ≠ fd := by
        rintro rfl
        exact hfree c (mem_clients.mpr ⟨_, hc⟩) (hs.index _ _ hc)
      rw [Clients.accept, List.getElem?_set_ne hne,
        Slots.getElem?_grow _ (List.getElem?_eq_some_iff.mp hc).1, hc]

/-- An answer of the server that is no reply: the only way in which a round can fail. -/
def Fails (json : JsonLib) (text : DoubleText α) (why : Stop) : Prop :=
  ∃ e env payload cache, why = .turn (.fault e) ∧ (answer json text env payload cache).1 = .error e

theorem Consistent.handle (hs : Consistent json text init s) {r : Round} {revents : ℕ → Ready}
    {fd : ℕ} {c : Client} (hc : s.fd2conn[fd]? = some (some c))
    (hlegal : EventLoop.Legal (.running c.session) (turnOf r revents s fd)) :
    (∃ s', handle json text r revents s fd = .ok s' ∧ Consistent json text init s' ∧
        ∀ j, j ≠ fd → s'.fd2conn[j]? = s.fd2conn[j]?) ∨
      ∃ why, handle json text r revents s fd = .error why ∧ Fails json text why := by
  by_cases hidle : revents fd = ⟨false, false, false, false⟩
  · exact .inl ⟨s, by rw [Clients.handle, if_pos hidle], hs, fun _ _ => rfl⟩
  obtain rfl := hs.index fd c hc
  have hlt := (List.getElem?_eq_some_iff.mp hc).1
  have hrest := Slots.perm_set_none hc
  have hconforms := turn_conforms (hs.conforms c (mem_clients.mpr ⟨_, hc⟩)) hlegal
  have haccounted :=
    hs.accounted.perm (((List.Perm.refl s.ended).append hrest).trans List.perm_middle).symm
  rcases @turnAll_cases _ _ json text c.client (turnOf r revents s c.fd) c.session with
    ⟨close, p, hall, hturn, log, hlog, hclient, hanswered, hseq⟩ | ⟨why, hall, hturn⟩
  · rw [hturn] at hconforms
    obtain rfl : p.log = log := hlog
    have haccounted' := haccounted.advance hclient hanswered hseq
    have hothers : ∀ d ∈ (s.fd2conn.set c.fd none).reduceOption,
        Conforms json text (.running d.session) :=
      fun d hd => hs.conforms d (hrest.mem_iff.mpr (List.mem_cons_of_mem _ hd))
    cases close with
    | true =>
      refine .inl ⟨_,
        by simp only [Clients.handle, if_neg hidle, hc, hall, if_true]; rfl, ?_, fun j hj => ?_⟩
      · constructor
        · intro j d hd
          by_cases hj : j = c.fd
          · simp [hj, hlt] at hd
          · rw [List.getElem?_set_ne (Ne.symm hj)] at hd
            exact hs.index j d hd
        · exact hothers
        · intro d hd
          rcases List.mem_append.mp hd with hd | hd
          · exact hs.closed d hd
          · rw [List.mem_singleton.mp hd]
            exact hconforms
        · refine haccounted'.perm ?_
          rw [List.append_assoc]
          exact List.perm_middle
      · exact List.getElem?_set_ne (Ne.symm hj)
    | false =>
      refine .inl ⟨_,
        by simp only [Clients.handle, if_neg hidle, hc, hall, Bool.false_eq_true, if_false]; rfl, ?_,
        fun j hj => ?_⟩
      · have hclients := Slots.perm_set_some hlt { c with session := p.session }
        constructor
        · intro j d hd
          by_cases hj : j = c.fd
          · subst hj
            rw [List.getElem?_set_self hlt] at hd
            rw [← Option.some.inj (Option.some.inj hd)]
          · rw [List.getElem?_set_ne (Ne.symm hj)] at hd
            exact hs.index j d hd
        · intro d hd
          rcases List.mem_cons.mp (hclients.mem_iff.mp hd) with rfl | hd
          · exact hconforms
          · exact hothers d hd
        · exact hs.closed
        · exact haccounted'.perm (((List.Perm.refl s.ended).append hclients).trans List.perm_middle)
      · exact List.getElem?_set_ne (Ne.symm hj)
  · rw [hturn] at hconforms
    obtain ⟨e, env, payload, cache, rfl, hfault⟩ := hconforms
    refine .inr ⟨_, ?_, e, env, payload, cache, rfl, hfault⟩
    simp only [Clients.handle, if_neg hidle, hc, hall]

theorem Consistent.handleAll (hs : Consistent json text init s) {r : Round} {revents : ℕ → Ready}
    {fds : List ℕ} (hnodup : fds.Nodup)
    (hfds : ∀ fd ∈ fds, ∃ c, s.fd2conn[fd]? = some (some c) ∧
      EventLoop.Legal (.running c.session) (turnOf r revents s fd)) :
    (∃ s', handleAll json text r revents s fds = .ok s' ∧ Consistent json text init s') ∨
      ∃ why, handleAll json text r revents s fds = .error why ∧ Fails json text why := by
  induction fds generalizing s with
  | nil => exact .inl ⟨s, rfl, hs⟩
  | cons fd fds ih =>
    obtain ⟨c, hc, hlegal⟩ := hfds fd (by simp)
    rw [List.nodup_cons] at hnodup
    rcases hs.handle hc hlegal with ⟨s₁, hrun, hs₁, hsame⟩ | ⟨why, hrun, hwhy⟩
    · simp only [Clients.handleAll, hrun]
      apply ih hs₁ hnodup.2
      intro j hj
      have hne : j ≠ fd := by
        rintro rfl
        exact hnodup.1 hj
      obtain ⟨d, hd, hlegal'⟩ := hfds j (by simp [hj])
      exact ⟨d, (hsame j hne).trans hd, hlegal'⟩
    · simp only [Clients.handleAll, hrun]
      exact .inr ⟨why, rfl, hwhy⟩

theorem Consistent.cleanup (hs : Consistent json text init s) :
    Consistent json text init s.cleanup where
  index fd c hc := by simp [Clients.cleanup] at hc
  conforms c hc := by simp [Clients.cleanup, clients] at hc
  closed c hc := by
    rcases List.mem_append.mp hc with hc | hc
    · exact hs.closed c hc
    · exact (hs.conforms c hc).2.2
  accounted := by
    refine hs.accounted.perm ?_
    simp [Clients.cleanup, clients]

/-- Where the loop stands when all is well; an exception and a failed answer leave it. -/
def Serves (json : JsonLib) (text : DoubleText α) (init : ChronoCache α) : Looping α → Prop
  | .polling s => Consistent json text init s
  | .returned s => Consistent json text init s ∧ s.clients = []
  | .threw s => Consistent json text init s
  | .halted why => Fails json text why

theorem Consistent.round (hs : Consistent json text init s) {r : Round}
    (hlegal : Legal (.polling s) r) :
    Serves json text init (round json text r s) := by
  obtain ⟨haccept, hpoll⟩ := hlegal
  unfold Clients.round
  split_ifs
  · exact ⟨hs.cleanup, rfl⟩
  cases hr : r.poll with
  | interrupted => exact hs
  | failed => exact hs
  | ready server revents =>
    obtain ⟨hs₁, hsame⟩ := hs.accepting server haccept
    have hpolled : ∀ fd ∈ s.pollArgs,
        ∃ c, (if server then s.accept r.accept else s).fd2conn[fd]? = some (some c) ∧
          EventLoop.Legal (.running c.session)
            (turnOf r revents (if server then s.accept r.accept else s) fd) := by
      intro fd hfd
      obtain ⟨c, hc, rfl⟩ := List.mem_map.mp hfd
      obtain ⟨j, hj⟩ := mem_clients.mp hc
      obtain rfl := hs.index j c hj
      rw [hr] at hpoll
      exact ⟨c, hsame _ _ hj, hpoll c hc⟩
    rcases hs₁.handleAll (Slots.nodup_map hs.index) hpolled with ⟨s', hrun, hs'⟩ | ⟨why, hrun, hwhy⟩
    · simp only [pollArgs, clients, hrun]
      exact hs'
    · simp only [pollArgs, clients, hrun]
      exact hwhy

variable (json text) in
/-- In every run of the loop, over any number of connections that come and go: no assertion
fails and no empty slot is used; each connection conforms, whatever happens on the others;
each accepted connection is open or was closed, once, and when the loop returns none is
open; and the requests of all connections are one sequence, answered by one cache, of
which each connection has its own in order. -/
theorem event_loop_serves (init : ChronoCache α) (rounds : List Round)
    (hlegal : (run json text).Admits Legal (.polling (start init)) rounds) :
    Serves json text init ((run json text).after (.polling (start init)) rounds) := by
  refine (run json text).invariant (I := Serves json text init) ?_ (consistent_start init) hlegal
  intro l r hl hr
  cases l with
  | polling s => exact Consistent.round hl hr
  | returned s => exact hl
  | threw s => exact hl
  | halted why => exact hl

/-- One client sends a `PING` while another connects; the reply leaves while the other hangs
up; a third gets the descriptor of the second; then the loop is stopped. -/
def sampleRounds : List Round :=
  let quiet : Round :=
    ⟨true, .interrupted, none, fun _ => .again, fun _ => .again, fun _ _ => quietEnv⟩
  let idle : Ready := ⟨false, false, false, false⟩
  [{ quiet with poll := .ready true fun _ => idle, accept := some 5 },
    { quiet with
      poll := .ready true fun fd => if fd = 5 then ⟨true, false, false, false⟩ else idle
      accept := some 7
      read := fun _ => .data 0 ([0, 0, 14] ++ lit "*1\r\n$4\r\nPING\r\n") },
    { quiet with
      poll := .ready false fun fd =>
        if fd = 5 then ⟨false, true, false, false⟩ else ⟨true, false, false, false⟩
      read := fun _ => .eof
      write := fun _ => .accepted 11 },
    { quiet with poll := .ready true fun _ => idle, accept := some 7 },
    { quiet with running := false }]

theorem event_loop_serves_witness :
    let init : ChronoCache ℤ := ChronoCache.create false []
    Serves JsonLib.reference noDoubles init
      ((run JsonLib.reference noDoubles).after (.polling (start init)) sampleRounds) := by
  intro init
  apply event_loop_serves
  decide +kernel

end Clients
end Chrono
