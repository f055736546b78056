import FlexQL.Lib.Actions
import FlexQL.Ref.Server
import FlexQL.Spec.Births

/-!
# What happens on a connection

Bytes of the client arrive, in any pieces; the loop of the server goes round;
and statements of other connections are executed in between. A request is
answered by the result of its text in the state the executor is in when the
request is taken.
-/

namespace FlexQL.Spec

open Lib FlexQL.Ref

/-- What can happen. -/
inductive ServerEvent where
  /-- Bytes of the client arrive. -/
  | arrive (bytes : Bytes)
  /-- A statement of another connection is executed. -/
  | other (now : Int64) (sql : Bytes)
  /-- The loop goes round. -/
  | round (now : Int64) (fails : Option Nat)

/-- The bytes that have arrived. -/
def arrived (events : List ServerEvent) : Bytes :=
  events.flatMap fun
    | .arrive bytes => bytes
    | _ => []

/-- The loop has not been left. -/
def Status.serving : Status → Bool
  | .running | .waiting => true
  | .closed | .abandoned => false

/-- A request that is answered: it is not too long, there is something in it,
and it runs through. -/
structure IsRequest (request : Bytes) : Prop where
  short : request.length ≤ Wire.maxMessage
  filled : TCPServer.trim request ≠ []
  stays : TCPServer.isExit (TCPServer.trim request) = false
  harmless : Harmless (TCPServer.trim request)

/-- Other connections do no harm, and responses can be written. -/
def ServerEvent.Fair : ServerEvent → Prop
  | .arrive _ => True
  | .other _ sql => Harmless sql
  | .round _ fails => fails = none

variable [FloatLib]

/-- An event, with the response it makes the server send. -/
def serve (s : Connection) : ServerEvent → Outcome (Connection × Option Bytes)
  | .arrive bytes => .ok ({ s with input := s.input ++ bytes }, none)
  | .other now sql => do
      let (ex, _) ← TCPServer.attempt s.executor now sql
      .ok ({ s with executor := ex }, none)
  | .round now fails =>
      if Status.serving s.status then TCPServer.round s now fails else .ok (s, none)

/-- The response is the result of the request. -/
def Responds (request response : Bytes) : Prop :=
  ∃ ex now ex' result, Executor.executeSql ex now (TCPServer.trim request) = .ok (ex', result) ∧
    response = TCPServer.formatResult result

end FlexQL.Spec
