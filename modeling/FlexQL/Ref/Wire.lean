import FlexQL.Lib.Reader

/-!
# Messages on a connection (`tcp_server.cpp`, `flexql_api.cpp`)

A message is sent with its length in front, in network byte order and cut to
32 bits. Server and client have a copy each of the same two functions. What
the peer has sent and nobody has read is a list of bytes; `recv` takes from
its front.
-/

namespace FlexQL.Ref

open Lib

namespace Wire

/-- The longest message that is received. -/
def maxMessage : Nat := 10 * 1024 * 1024

/-- How an attempt to receive ends. -/
inductive Received where
  /-- A whole message. -/
  | message (msg : Bytes)
  /-- The length is too large. Only the length has been read. -/
  | refused
  /-- The bytes end before the message does: the call waits for more, or
  fails if the connection is closed. -/
  | short
  deriving DecidableEq, Repr

/-- The bytes of a message. -/
def frame (msg : Bytes) : Bytes := Bytes.be msg.length 4 ++ msg

/-- What gets through of a message, and whether that is all of it; `fails` is
the number of bytes after which a call of `::send` fails, if one does. -/
def send (fails : Option Nat) (msg : Bytes) : Bytes × Bool :=
  match fails with
  | none => (frame msg, true)
  | some n => if (frame msg).length ≤ n then (frame msg, true) else ((frame msg).take n, false)

/-- The next message, and the bytes left behind it. -/
def recv (bytes : Bytes) : Received × Bytes :=
  match Reader.bytes 4 bytes with
  | none => (.short, [])
  | some (header, bytes) =>
      if maxMessage < Bytes.beNat header then (.refused, bytes)
      else match Reader.bytes (Bytes.beNat header) bytes with
        | none => (.short, [])
        | some (msg, bytes) => (.message msg, bytes)

end Wire

end FlexQL.Ref
