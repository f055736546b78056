import FlexQL.Ref.Server
import FlexQL.Ref.ThreadPool

/-!
# The threads of the server (`tcp_server.cpp`, `main.cpp`)

`TCPServer::run` accepts connections and gives each to the thread pool as a
task that calls `handle_client`; `TCPServer::stop`, which the signal handler
calls, clears `running_`, closes the listening socket and shuts the pool down.
The thread of `run`, the one that stops the server and the workers of the pool
take their steps in any order; clients send bytes and hang up when they like.
The handler is taken to run on a thread that is neither of `run` nor a worker.

Connections are numbered in the order they are accepted. A round of
`handle_client` is one step, as is a request in `execute_sql`. An exception of
`submit` is caught neither by `run` nor by `main`, so the process ends with it.
-/

namespace FlexQL.Ref

open Lib

/-- A client that has connected. -/
structure Peer where
  /-- What it has sent and the server has not read. -/
  input : Bytes
  /-- It has closed its end. -/
  ended : Bool
  /-- Where `handle_client` is with it. -/
  status : Status

def Peer.connected : Peer := ⟨[], false, .running⟩

/-- Where the thread is that calls `run`. -/
inductive AcceptPlace where
  /-- Before `listen` has returned. -/
  | starting
  /-- Before `running_.store(true)` -/
  | opening
  /-- `while (running_.load())` -/
  | top
  /-- In `accept`. -/
  | accepting
  /-- `accept` has returned an error. -/
  | failed
  /-- In `submit` with the task of this connection. -/
  | submitting (fd : Nat)
  /-- The task is accepted and not yet in the queue. -/
  | adding (fd : Nat)
  /-- Before `cv_.notify_one()` -/
  | notifying
  | returned
  /-- `submit` has thrown: `std::terminate` -/
  | terminated
  deriving DecidableEq, Repr

/-- Where the first call of `stop` is. -/
inductive StopPlace where
  | before
  /-- `running_` is cleared. -/
  | stored
  /-- The socket is closed: `pool_.shutdown()` -/
  | closed
  deriving DecidableEq, Repr

/-- `TCPServer` with `n` workers, and where its threads are. -/
structure TCPServer (n : Nat) where
  executor : Executor
  peers : List Peer
  pool : ThreadPool n Nat
  running : Bool
  /-- `server_fd_ >= 0` -/
  listening : Bool
  acceptor : AcceptPlace
  stopper : StopPlace

namespace TCPServer

variable {n : Nat}

def new (n : Nat) (ex : Executor) : TCPServer n where
  executor := ex
  peers := []
  pool := ThreadPool.new n Nat
  running := false
  listening := false
  acceptor := .starting
  stopper := .before

/-- The steps of the threads and of the clients. -/
inductive Event (n : Nat) where
  /-- `socket`, `bind` and `listen` -/
  | listen (success : Bool)
  /-- `running_.store(true)` -/
  | opened
  /-- `while (running_.load())` -/
  | load
  /-- `accept` returns a connection. -/
  | accept
  /-- `accept` returns an error. -/
  | acceptFail
  /-- `if (!running_.load()) break;` -/
  | check
  /-- `stop`: `running_.store(false)` -/
  | stop
  /-- `stop`: `::close(server_fd_)` -/
  | close
  /-- A step in the pool. -/
  | pool (e : ThreadPool.Event n Nat)
  /-- A round of `handle_client`, with the text it executes and the response
  it sets out to send. -/
  | round (w : Fin n) (fd : Nat) (now : Int64) (fails : Option Nat) (sql : Option Bytes)
      (response : Option Bytes)
  /-- Bytes of a client arrive. -/
  | arrive (fd : Nat) (bytes : Bytes)
  /-- A client closes its end. -/
  | hangUp (fd : Nat)

/-- `handle_client` has left its loop. -/
def left : Status → Bool
  | .running | .waiting => false
  | .closed | .abandoned => true

/-- The text that the next round executes. -/
def nextSql (input : Bytes) : Option Bytes :=
  match recvMessage input with
  | (.message query, _) =>
      if (trim query).isEmpty || isExit (trim query) then none else some (trim query)
  | _ => none

/-- A round on a connection. When the client has closed its end `recv` does
not wait for more bytes, and the loop is left. -/
def handleRound [FloatLib] (ex : Executor) (peer : Peer) (now : Int64) (fails : Option Nat) :
    Outcome (Executor × Peer × Option Bytes) := do
  let (s, response) ← round ⟨ex, peer.input, peer.status⟩ now fails
  let status := if peer.ended && s.status = .waiting then .closed else s.status
  .ok (s.executor, ⟨s.input, peer.ended, status⟩, response)

/-- Who may take a step in the pool: a worker ends a task when
`handle_client` has returned, `run` submits, and `stop` shuts the pool down. -/
def Permits (s : TCPServer n) : ThreadPool.Event n Nat → Prop
  | .finish _ fd => ∃ peer, s.peers[fd]? = some peer ∧ left peer.status = true
  | .refuse fd => s.acceptor = .submitting fd
  | .approve fd => s.acceptor = .submitting fd
  | .push fd => s.acceptor = .adding fd
  | .notifyOne _ => s.acceptor = .notifying
  | .store => s.stopper = .closed
  | _ => True

/-- Where the thread of `run` is behind a step in the pool. -/
def acceptorAfter (place : AcceptPlace) : ThreadPool.Event n Nat → AcceptPlace
  | .refuse _ => .terminated
  | .approve fd => .adding fd
  | .push _ => .notifying
  | .notifyOne _ => .top
  | _ => place

inductive Move [FloatLib] : TCPServer n → Event n → TCPServer n → Prop where
  | listen {s : TCPServer n} : s.acceptor = .starting →
      Move s (.listen true) { s with listening := true, acceptor := .opening }
  | listenFail {s : TCPServer n} : s.acceptor = .starting →
      Move s (.listen false) { s with acceptor := .returned }
  | opened {s : TCPServer n} : s.acceptor = .opening →
      Move s .opened { s with running := true, acceptor := .top }
  | load {s : TCPServer n} : s.acceptor = .top →
      Move s .load { s with acceptor := if s.running then .accepting else .returned }
  | accept {s : TCPServer n} : s.acceptor = .accepting → s.listening = true →
      Move s .accept
        { s with peers := s.peers ++ [.connected], acceptor := .submitting s.peers.length }
  | acceptFail {s : TCPServer n} : s.acceptor = .accepting →
      Move s .acceptFail { s with acceptor := .failed }
  | check {s : TCPServer n} : s.acceptor = .failed →
      Move s .check { s with acceptor := if s.running then .top else .returned }
  | stop {s : TCPServer n} :
      Move s .stop
        { s with running := false, stopper := if s.stopper = .closed then .closed else .stored }
  | close {s : TCPServer n} : s.stopper = .stored →
      Move s .close { s with listening := false, stopper := .closed }
  | pool {s : TCPServer n} {e : ThreadPool.Event n Nat} {pool : ThreadPool n Nat} :
      s.Permits e → ThreadPool.Step s.pool e pool →
      Move s (.pool e) { s with pool := pool, acceptor := acceptorAfter s.acceptor e }
  | round {s : TCPServer n} {w : Fin n} {fd : Nat} {peer peer' : Peer} {now : Int64}
      {fails : Option Nat} {ex : Executor} {response : Option Bytes} :
      s.pool.workers w = .running fd → s.peers[fd]? = some peer → left peer.status = false →
      handleRound s.executor peer now fails = .ok (ex, peer', response) →
      Move s (.round w fd now fails (nextSql peer.input) response)
        { s with executor := ex, peers := s.peers.set fd peer' }
  | arrive {s : TCPServer n} {fd : Nat} {peer : Peer} {bytes : Bytes} :
      s.peers[fd]? = some peer → peer.ended = false →
      Move s (.arrive fd bytes)
        { s with peers := s.peers.set fd { peer with input := peer.input ++ bytes } }
  | hangUp {s : TCPServer n} {fd : Nat} {peer : Peer} : s.peers[fd]? = some peer →
      Move s (.hangUp fd) { s with peers := s.peers.set fd { peer with ended := true } }

/-- One step, in a process that has not ended. -/
def Step [FloatLib] (s : TCPServer n) (e : Event n) (s' : TCPServer n) : Prop :=
  s.acceptor ≠ .terminated ∧ Move s e s'

end TCPServer

end FlexQL.Ref
