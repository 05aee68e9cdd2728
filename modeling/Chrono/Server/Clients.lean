import Chrono.Library.Slots
import Chrono.Server.EventLoop

/-!
# The event loop over all its connections

One worker polls the server socket and every open connection, accepts, reads, answers,
writes and closes. Connections sit in a vector at the index of their descriptor, which
the system hands out again once it was closed. All requests meet one cache, one after
the other.
-/
namespace Chrono
open Library

/-- A request that was answered: whose it was, the environment its handler met, and the reply. -/
structure Exchange where
  client : ℕ
  env : CommandEnv
  payload : Bytes
  reply : Bytes

/-- A `Connection` with its descriptor. It is numbered as the `client`-th that was accepted. -/
structure Client where
  fd : ℕ
  client : ℕ
  session : Session

/-- What `poll` returns; the events of a connection are found by its descriptor. -/
inductive PollResult where
  | interrupted
  | failed
  | ready (server : Bool) (revents : ℕ → Ready)

/-- What the environment decides about one round of the loop: whether `stop` has not been
called before it, what `poll` and `accept` return, what `read` and `write` on each descriptor
return if they are called, and what the handlers of the requests meet. -/
structure Round where
  running : Bool
  poll : PollResult
  accept : Option ℕ
  read : ℕ → ReadResult
  write : ℕ → WriteResult
  env : ℕ → ℕ → CommandEnv

/-- The state of `EventLoop::run` between two rounds, with what happened so far: the requests
in the order in which they were answered, the number of connections accepted, and those
that were closed. -/
structure Clients (α : Type) where
  fd2conn : List (Option Client)
  cache : ChronoCache α
  log : List Exchange
  accepted : ℕ
  ended : List Client

/-- What can go wrong in a round: a null pointer in the vector, or the turn of a connection. -/
inductive Stop where
  | nullConnection
  | turn (why : Halt)

/-- Where the loop stands after a round; `threw` is the exception of a failed `poll`. -/
inductive Looping (α : Type) where
  | polling (s : Clients α)
  | returned (s : Clients α)
  | threw (s : Clients α)
  | halted (why : Stop)

namespace EventLoop
variable {α : Type} [LinearOrder α] (json : JsonLib) (text : DoubleText α)

/-- What the requests of one connection leave: its session, the cache, and the exchanges. -/
structure Progress (α : Type) where
  session : Session
  cache : ChronoCache α
  log : List Exchange

def serveAll (client : ℕ) (env : ℕ → CommandEnv) :
    ℕ → List ReadResponse → Progress α → Except Halt (Progress α)
  | _, [], p => .ok p
  | i, request :: requests, p =>
    match request.success, request.data with
    | true, some payload =>
      match answer json text (env i) payload p.cache with
      | (.error e, _) => .error (.fault e)
      | (.ok resp, cache) =>
        serveAll client env (i + 1) requests
          { session := { p.session with
              conn := p.session.conn.enqueueResponse resp
              answered := p.session.answered ++ [(payload, resp)] }
            cache
            log := p.log ++ [⟨client, env i, payload, resp⟩] }
    | _, _ => serveAll client env (i + 1) requests p

/-- `if(ready & POLLIN)` -/
def readAll (client : ℕ) (t : Turn α) (s : Session) : Except Halt (Progress α) :=
  if !t.ready.pollin then .ok ⟨s, t.cache, []⟩
  else if !s.conn.wantRead then .error .assertion
  else
    match s.conn.handleRead t.read with
    | .error e => .error (.fault e)
    | .ok (requests, conn) =>
      serveAll json text client t.env 0 requests
        ⟨{ s with conn := conn, received := s.received ++ t.read.bytes }, t.cache, []⟩

/-- The body of the loop over the connections that are ready, with whether it closes the connection. -/
def turnAll (client : ℕ) (t : Turn α) (s : Session) : Except Halt (Bool × Progress α) :=
  if t.ready = ⟨false, false, false, false⟩ then .ok (false, ⟨s, t.cache, []⟩)
  else
    match readAll json text client t s with
    | .error why => .error why
    | .ok p =>
      match writeTurn t p.session with
      | .error why => .error why
      | .ok session =>
        .ok (t.ready.pollerr || t.ready.pollhup || session.conn.wantClose, { p with session })

end EventLoop

namespace Clients
variable {α : Type} [LinearOrder α] (json : JsonLib) (text : DoubleText α)

def clients (s : Clients α) : List Client := s.fd2conn.reduceOption

/-- Before the first round. -/
def start (cache : ChronoCache α) : Clients α := ⟨[], cache, [], 0, []⟩

/-- `poll_args` without the server socket. -/
def pollArgs (s : Clients α) : List ℕ := s.clients.map Client.fd

/-- `if(poll_args[0].revents & POLLIN)` -/
def accept (s : Clients α) : Option ℕ → Clients α
  | none => s
  | some connfd => { s with
    fd2conn := (Slots.grow s.fd2conn (connfd + 1)).set connfd
      (some ⟨connfd, s.accepted, EventLoop.accepted⟩)
    accepted := s.accepted + 1 }

/-- What the environment has decided for the connection at `fd`. -/
def turnOf (r : Round) (revents : ℕ → Ready) (s : Clients α) (fd : ℕ) : Turn α :=
  ⟨revents fd, r.read fd, r.write fd, s.cache, r.env fd⟩

def handle (r : Round) (revents : ℕ → Ready) (s : Clients α) (fd : ℕ) : Except Stop (Clients α) :=
  if revents fd = ⟨false, false, false, false⟩ then .ok s
  else
    match s.fd2conn[fd]? with
    | some (some c) =>
      match EventLoop.turnAll json text c.client (turnOf r revents s fd) c.session with
      | .error why => .error (.turn why)
      | .ok (close, p) =>
        let c := { c with session := p.session }
        if close then
          .ok { s with
            fd2conn := s.fd2conn.set c.fd none
            cache := p.cache
            log := s.log ++ p.log
            ended := s.ended ++ [c] }
        else .ok { s with
          fd2conn := s.fd2conn.set fd (some c)
          cache := p.cache
          log := s.log ++ p.log }
    | _ => .error .nullConnection

def handleAll (r : Round) (revents : ℕ → Ready) : Clients α → List ℕ → Except Stop (Clients α)
  | s, [] => .ok s
  | s, fd :: fds =>
    match handle json text r revents s fd with
    | .error why => .error why
    | .ok s => handleAll r revents s fds

def cleanup (s : Clients α) : Clients α := { s with fd2conn := [], ended := s.ended ++ s.clients }

def round (r : Round) (s : Clients α) : Looping α :=
  if !r.running then .returned s.cleanup
  else
    match r.poll with
    | .interrupted => .polling s
    | .failed => .threw s
    | .ready server revents =>
      -- the descriptors are those from before the accept
      match handleAll json text r revents (if server then s.accept r.accept else s) s.pollArgs with
      | .error why => .halted why
      | .ok s => .polling s

def run : Machine (Looping α) Round Unit where
  step l r :=
    match l with
    | .polling s => ((), round json text r s)
    | l => ((), l)

end Clients
end Chrono
