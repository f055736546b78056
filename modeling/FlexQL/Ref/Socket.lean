import FlexQL.Lib.Transfer
import FlexQL.Ref.Wire

/-!
# The loops around `::send` and `::recv` (`tcp_server.cpp`, `flexql_api.cpp`)

A message is written and read in two loops each, one for the four bytes of its
length and one for the message. A call of `::send` takes some of the bytes it
is given, one of `::recv` returns some of those that have arrived; it waits
until there are any, and answers 0 when the peer has closed and there are none
left. An answer of 0 or below ends the function.

Server and client have the same code. They differ in a flag of `::send`, which
decides whether a process that writes to a closed connection gets a signal.
-/

namespace FlexQL.Ref

open Lib

namespace Socket

variable (calls : Transfer.Calls)

/-- The loop over the length and the loop over the message. -/
def send (fd : Transfer.End) (msg : Bytes) : Transfer.End × Bool :=
  match Transfer.writeAll calls fd (Bytes.be msg.length 4) with
  | (fd, false) => (fd, false)
  | (fd, true) => Transfer.writeAll calls fd msg

/-- The loop over the length, its check and the loop over the message. -/
def recv (fd : Transfer.End) : Transfer.End × Option Bytes :=
  match Transfer.readAll calls fd 4 [] with
  | (fd, none) => (fd, none)
  | (fd, some header) =>
      if Wire.maxMessage < Bytes.beNat header then (fd, none)
      else Transfer.readAll calls fd (Bytes.beNat header) []

/-- `TCPServer::send_message` -/
def sendMessage (fd : Transfer.End) (msg : Bytes) : Transfer.End × Bool := send calls fd msg

/-- `TCPServer::recv_message` -/
def recvMessage (fd : Transfer.End) : Transfer.End × Option Bytes := recv calls fd

/-- `wire_send` -/
def wireSend (fd : Transfer.End) (msg : Bytes) : Transfer.End × Bool := send calls fd msg

/-- `wire_recv` -/
def wireRecv (fd : Transfer.End) : Transfer.End × Option Bytes := recv calls fd

end Socket

end FlexQL.Ref
