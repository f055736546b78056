import FlexQL.Lib.Fields
import FlexQL.Ref.Wire

/-!
# The client (`flexql.h`, `flexql_api.cpp`)

`flexql_exec` sends a text, receives a response and hands its rows to a
callback as C strings, which end at a zero byte. The callback has a state of
its own and says whether to go on.
-/

namespace FlexQL.Ref

open Lib

namespace Client

/-- `wire_send` -/
def wireSend (fails : Option Nat) (msg : Bytes) : Bytes × Bool := Wire.send fails msg

/-- `wire_recv` -/
def wireRecv (bytes : Bytes) : Wire.Received × Bytes := Wire.recv bytes

/-- What is seen of a string through a pointer to its first character. -/
def cString (s : Bytes) : Bytes := s.takeWhile (· ≠ 0)

/-- `flexql_callback`: from the column values and names; `false` is an answer
other than 0, which asks to stop. -/
abbrev Callback (σ : Type) := σ → List Bytes → List Bytes → σ × Bool

/-- The loop over the rows; empty lines are passed over. -/
def forLines {σ : Type} (callback : Callback σ) (colNames : List Bytes) : List Bytes → σ → σ
  | [], arg => arg
  | line :: lines, arg =>
      if line.isEmpty then forLines callback colNames lines arg
      else
        let vals := (Fields.pad colNames.length (Fields.pieces 9 line)).take colNames.length
        let (arg, go) := callback arg (vals.map cString) (colNames.map cString)
        if go then forLines callback colNames lines arg else arg

/-- The error a response stands for, or the state of the callback behind its
rows. -/
def decode {σ : Type} (callback : Callback σ) (response : Bytes) (arg : σ) : Except Bytes σ :=
  if response.take 7 = Bytes.lit "ERROR: " then .error (response.drop 7)
  else match Fields.pieces 10 response with
    | header :: line :: lines =>
        .ok (forLines callback (Fields.pieces 9 header) (line :: lines) arg)
    | _ => .ok arg

end Client

end FlexQL.Ref
