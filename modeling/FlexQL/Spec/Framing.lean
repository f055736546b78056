import FlexQL.Lib.Actions
import FlexQL.Ref.Socket

/-!
# Messages over a connection, as a series

Each message of the series is sent by one of the two functions that send, and
each receipt is by one of the two that receive.
-/

namespace FlexQL.Spec

open Lib FlexQL.Ref

/-- Whose copy of the functions it is. -/
inductive Party where
  | server
  | client
  deriving DecidableEq, Repr

variable (calls : Transfer.Calls)

/-- Send a message by the function of a party. -/
def sendBy (fd : Transfer.End) : Party × Bytes → Transfer.End × Bool
  | (.server, msg) => Socket.sendMessage calls fd msg
  | (.client, msg) => Socket.wireSend calls fd msg

/-- Receive a message by the function of a party. -/
def recvBy (fd : Transfer.End) : Party → Transfer.End × Option Bytes
  | .server => Socket.recvMessage calls fd
  | .client => Socket.wireRecv calls fd

/-- The messages in the order they were sent, and then nothing, for so many
receipts. -/
def receipts (msgs : List Bytes) (n : Nat) : List (Option Bytes) :=
  (msgs.map some).take n ++ List.replicate (n - msgs.length) none

/-- `whole` are the messages all of whose bytes have arrived. -/
def ArrivedOf (msgs : List Bytes) (bytes : Bytes) (whole : List Bytes) : Prop :=
  whole <+: msgs ∧ whole.flatMap Wire.frame <+: bytes ∧
    ∀ more, more <+: msgs → more.flatMap Wire.frame <+: bytes → more.length ≤ whole.length

end FlexQL.Spec
