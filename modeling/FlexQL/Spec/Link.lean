import FlexQL.Ref.Client
import FlexQL.Spec.Server

/-!
# A client and a server on one connection

`flexql_exec` is called again and again on one handle: it sends a text and
waits for the response. The calls are numbered, and so are the messages the
server takes. What a call reads is to be the response to the message of its
own number, and that message is to be its own text.
-/

namespace FlexQL.Spec

open Lib FlexQL.Ref

/-- The two sides, and what has gone on between them. -/
structure Link where
  /-- The side of the server; its input is what the client has sent. -/
  session : Connection
  /-- What the server has sent and the client has not read. -/
  down : Bytes
  /-- A call waits for its response. -/
  pending : Bool
  /-- The texts of the calls. -/
  calls : List Bytes
  /-- The messages the server has taken, with the responses to them. -/
  served : List (Bytes × Option Bytes)
  /-- What calls have read, with their numbers. -/
  reads : List (Nat × Bytes)

/-- What can happen. Calls and rounds have their sends fail after some bytes,
if at all. -/
inductive Move where
  /-- A call begins and sends its text. -/
  | call (sql : Bytes) (fails : Option Nat)
  /-- The call that waits reads from the connection. -/
  | receive
  /-- The loop of the server goes round. -/
  | round (now : Int64) (fails : Option Nat)
  /-- A statement of another connection is executed. -/
  | other (now : Int64) (sql : Bytes)

namespace Link

/-- A connection that has just been opened. -/
def opened (ex : Executor) : Link := ⟨⟨ex, [], .running⟩, [], false, [], [], []⟩

/-- `flexql_exec` up to the end of `wire_send`. -/
def call (l : Link) (sql : Bytes) (fails : Option Nat) : Link :=
  if l.pending then l
  else
    let text := Client.cString sql
    let (bytes, sent) := Client.wireSend fails text
    { l with
      session := { l.session with input := l.session.input ++ bytes }
      pending := sent
      calls := l.calls ++ [text] }

/-- `flexql_exec` in `wire_recv`, which fails if the server has closed the
connection and waits if not. -/
def receive (l : Link) : Link :=
  if l.pending then
    match Client.wireRecv l.down with
    | (.message msg, rest) =>
        { l with down := rest, pending := false, reads := l.reads ++ [(l.calls.length - 1, msg)] }
    | (.refused, rest) => { l with down := rest, pending := false }
    | (.short, _) =>
        if l.session.status = .closed then { l with down := [], pending := false } else l
  else l

variable [FloatLib]

/-- A round of the server. -/
def round (l : Link) (now : Int64) (fails : Option Nat) : Outcome Link :=
  if Status.serving l.session.status then do
    let (session, response) ← TCPServer.round l.session now fails
    let served := match (TCPServer.recvMessage l.session.input).1 with
      | .message query => l.served ++ [(query, response)]
      | _ => l.served
    let bytes := response.elim [] fun r => (TCPServer.sendMessage fails r).1
    .ok { l with session := session, down := l.down ++ bytes, served := served }
  else .ok l

def step (l : Link) : Move → Outcome (Link × Unit)
  | .call sql fails => .ok (l.call sql fails, ())
  | .receive => .ok (l.receive, ())
  | .round now fails => do
      let l ← l.round now fails
      .ok (l, ())
  | .other now sql => do
      let (ex, _) ← TCPServer.attempt l.session.executor now sql
      .ok ({ l with session := { l.session with executor := ex } }, ())

end Link

/-- The responses the server has sent. -/
def responses (l : Link) : List Bytes := l.served.filterMap (·.2)

/-- What every call has read is the response to its own text. -/
def Paired (l : Link) : Prop :=
  ∀ i msg, (i, msg) ∈ l.reads →
    ∃ sql, l.calls[i]? = some sql ∧ l.served[i]? = some (sql, some msg)

/-- What keeps a connection paired: no call is begun after a response that
was too long to be received, and the lengths of texts and responses fit in 32
bits. A call fails to send only if the server has closed the connection, and
no text does harm to the tables. -/
def Careful (l : Link) : Move → Prop
  | .call sql fails => (fails = none ∨ l.session.status = .closed) ∧
      (Client.cString sql).length < 2 ^ 32 ∧ Tame (TCPServer.trim (Client.cString sql)) ∧
      ∀ response ∈ responses l, response.length ≤ Wire.maxMessage
  | .receive => ∀ response ∈ responses l, response.length < 2 ^ 32
  | .round _ _ => True
  | .other _ sql => Tame sql

end FlexQL.Spec
