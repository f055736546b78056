import FlexQL.Ref.Executor
import FlexQL.Ref.Wire
import Mathlib.Data.List.DropRight

/-!
# The server (`tcp_server.h`, `tcp_server.cpp`)

One connection: the loop of `handle_client`, a round at a time, on the
executor that all connections share. `now` is what `std::time` returns while
the request is executed, and `fails` says after how many bytes the response
can no longer be written to the socket. An exception leaves the loop without
closing the connection; the task of the thread pool catches it.
-/

namespace FlexQL.Ref

open Lib

/-- Where the loop is. -/
inductive Status where
  /-- Before a call of `recv_message`. -/
  | running
  /-- In a call of `recv_message` that waits for more bytes. -/
  | waiting
  /-- Left, with the connection closed. -/
  | closed
  /-- Left by an exception, with the connection open. -/
  | abandoned
  deriving DecidableEq, Repr

/-- A connection on the side of the server. -/
structure Connection where
  executor : Executor
  /-- What the client has sent and the server has not read. -/
  input : Bytes
  status : Status

/-- `Value::to_string` -/
def Value.toString [FloatLib] : Value → Bytes
  | .int v => Bytes.ofInt v.toInt
  | .decimal v => FloatLib.decimalText v
  | .varchar s => s
  | .datetime v => Bytes.ofInt v.toInt
  | .unknown _ => []

namespace TCPServer

/-- `send_message` -/
def sendMessage (fails : Option Nat) (msg : Bytes) : Bytes × Bool := Wire.send fails msg

/-- `recv_message` -/
def recvMessage (bytes : Bytes) : Wire.Received × Bytes := Wire.recv bytes

/-- The request without the newlines and semicolons at its end. -/
def trim (query : Bytes) : Bytes := query.rdropWhile fun c => c = 10 || c = 13 || c = 59

/-- The request ends the connection. -/
def isExit (query : Bytes) : Bool :=
  Bytes.toUpper query = Bytes.lit "EXIT" || Bytes.toUpper query = Bytes.lit "QUIT"

variable [FloatLib]

/-- `format_result` -/
def formatResult (result : QueryResult) : Bytes :=
  if !result.success then Bytes.lit "ERROR: " ++ result.error ++ [10]
  else if !result.columnNames.isEmpty then
    List.intercalate [9] result.columnNames ++ [10] ++
      result.rows.flatMap fun row => List.intercalate [9] (row.map Value.toString) ++ [10]
  else result.message ++ [10]

/-- `execute_sql`, called by a task of the thread pool: an exception, which
only the parser throws, ends the task and not the server. -/
def attempt (ex : Executor) (now : Int64) (sql : Bytes) :
    Outcome (Executor × Option QueryResult) :=
  match ex.executeSql now sql with
  | .ok (ex, result) => .ok (ex, some result)
  | .error .thrown => .ok (ex, none)
  | .error fault => .error fault

/-- A round of the loop of `handle_client`, with the response it sets out to
send. -/
def round (s : Connection) (now : Int64) (fails : Option Nat) :
    Outcome (Connection × Option Bytes) :=
  match recvMessage s.input with
  | (.short, _) => .ok ({ s with status := .waiting }, none)
  | (.refused, rest) => .ok (⟨s.executor, rest, .closed⟩, none)
  | (.message query, rest) =>
      if (trim query).isEmpty then .ok (⟨s.executor, rest, .running⟩, none)
      else if isExit (trim query) then
        .ok (⟨s.executor, rest, .closed⟩, some (Bytes.lit "BYE\n"))
      else do
        let (ex, result) ← attempt s.executor now (trim query)
        match result with
        | none => .ok (⟨ex, rest, .abandoned⟩, none)
        | some result =>
            let response := formatResult result
            let status := if (sendMessage fails response).2 then .running else .closed
            .ok (⟨ex, rest, status⟩, some response)

end TCPServer

end FlexQL.Ref
