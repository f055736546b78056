import FlexQL.Ref.ServerThreads
import FlexQL.Spec.Server

/-!
# The server as a client sees it

A client sees its own connection: its bytes arrive, the loop goes round on it,
and the statements of all other connections are executed in between.
-/

namespace FlexQL.Spec

open Lib FlexQL.Ref

variable {n : Nat}

/-- What a step of the server is to one of its connections. -/
def viewOf (fd : Nat) : TCPServer.Event n → Option ServerEvent
  | .arrive fd' bytes => if fd' = fd then some (.arrive bytes) else none
  | .round _ fd' now fails sql _ =>
      if fd' = fd then some (.round now fails) else sql.map (.other now)
  | _ => none

/-- The response that is sent on this connection, if any. -/
def responseTo (fd : Nat) : TCPServer.Event n → Option Bytes
  | .round _ fd' _ _ _ response => if fd' = fd then response else none
  | _ => none

/-- The responses sent on this connection. -/
def sentTo (fd : Nat) (l : List (TCPServer.Event n)) : List Bytes := l.filterMap (responseTo fd)

/-- The bytes that have arrived on this connection. -/
def arrivedOn (fd : Nat) (l : List (TCPServer.Event n)) : Bytes :=
  arrived (l.filterMap (viewOf fd))

/-- Statements do no harm and responses can be written. -/
def FairEvent : TCPServer.Event n → Prop
  | .round _ _ _ fails sql _ => fails = none ∧ ∀ text ∈ sql, Harmless text
  | _ => True

/-- A connection that nobody has taken is numbered as it will be. -/
def peerAt (s : TCPServer n) (fd : Nat) : Peer := s.peers[fd]?.getD .connected

/-- What executing a text, or none, makes of the executor. -/
def Executes [FloatLib] (ex : Executor) (now : Int64) (ex' : Executor) : Option Bytes → Prop
  | none => ex' = ex
  | some sql => ∃ result, TCPServer.attempt ex now sql = .ok (ex', result)

end FlexQL.Spec
