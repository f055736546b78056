import FlexQL.Proofs.Server
import FlexQL.Spec.Framing

/-!
# Messages do not depend on how their bytes travel

The two loops that send write a message as `Wire.send` has it, and the two
that receive read it as `Wire.recv` does, however the calls split the bytes.
What is received of a series of messages is then a matter of the bytes that
have arrived: first the messages that are there as a whole, then nothing.
-/

namespace FlexQL.Proofs

open Lib FlexQL.Ref FlexQL.Spec

variable {calls : Transfer.Calls} {fd : Transfer.End} {msg : Bytes}

/-! ## One message -/

theorem wire_send_some (n : Nat) (msg : Bytes) :
    Wire.send (some n) msg =
      ((Wire.frame msg).take n, decide ((Wire.frame msg).length ≤ n)) := by
  simp only [Wire.send]
  split
  · next hle => rw [List.take_of_length_le hle, decide_eq_true hle]
  · next hlt => rw [decide_eq_false hlt]

/-- Whatever the calls answer, some of the bytes of the message have been
written, and all of them if the function says so. -/
theorem socket_send_eq (calls : Transfer.Calls) (fd : Transfer.End) (msg : Bytes) :
    ∃ made fails, Socket.send calls fd msg =
      (⟨made, fd.bytes ++ (Wire.send fails msg).1⟩, (Wire.send fails msg).2) := by
  obtain ⟨made, n, hn, hheader⟩ :=
    @Transfer.writeAll_spec calls fd (Bytes.be msg.length 4)
  rw [Bytes.be_length] at hn hheader
  rw [Socket.send, hheader]
  by_cases hfour : n = 4
  · obtain ⟨made', m, hm, hmsg⟩ :=
      @Transfer.writeAll_spec calls ⟨made, fd.bytes ++ Bytes.be msg.length 4⟩ msg
    refine ⟨made', some (4 + m), ?_⟩
    have htake : (Wire.frame msg).take (4 + m) = Bytes.be msg.length 4 ++ msg.take m := by
      rw [Wire.frame, List.take_append, Bytes.be_length, Nat.add_sub_cancel_left,
        List.take_of_length_le (by rw [Bytes.be_length]; omega)]
    have hall : decide (m = msg.length) = decide ((Wire.frame msg).length ≤ 4 + m) :=
      decide_eq_decide.mpr (by rw [frame_length]; omega)
    rw [decide_eq_true hfour, wire_send_some, htake, ← hall, ← List.append_assoc, ← hmsg, hfour,
      List.take_of_length_le (Bytes.be_length _ _).le]
  · refine ⟨made, some n, ?_⟩
    have htake : (Wire.frame msg).take n = (Bytes.be msg.length 4).take n := by
      rw [Wire.frame, List.take_append_of_le_length (by rw [Bytes.be_length]; exact hn)]
    have hpart : ¬ (Wire.frame msg).length ≤ n := by
      rw [frame_length]
      omega
    rw [decide_eq_false hfour, wire_send_some, htake, decide_eq_false hpart]

theorem socket_send_splits (h : Transfer.Splits calls) :
    ∃ made, Socket.send calls fd msg = (⟨made, fd.bytes ++ Wire.frame msg⟩, true) := by
  obtain ⟨made, hheader⟩ := @Transfer.writeAll_splits calls fd (Bytes.be msg.length 4) h
  obtain ⟨made', hmsg⟩ :=
    @Transfer.writeAll_splits calls ⟨made, fd.bytes ++ Bytes.be msg.length 4⟩ msg h
  refine ⟨made', ?_⟩
  rw [Socket.send, hheader]
  exact hmsg.trans (by rw [List.append_assoc, Wire.frame])

/-- The message there is, if one was received. -/
def messageOf : Wire.Received → Option Bytes
  | .message msg => some msg
  | .refused => none
  | .short => none

theorem socket_recv_eq (h : Transfer.Splits calls) (fd : Transfer.End) :
    ∃ made, Socket.recv calls fd =
      (⟨made, (Wire.recv fd.bytes).2⟩, messageOf (Wire.recv fd.bytes).1) := by
  obtain ⟨made, hheader⟩ := Transfer.readAll_eq h 4 fd
  rw [Socket.recv, hheader, Wire.recv]
  cases hbytes : Reader.bytes 4 fd.bytes with
  | none => exact ⟨made, rfl⟩
  | some read =>
      obtain ⟨header, bytes⟩ := read
      dsimp only
      by_cases hmax : Wire.maxMessage < Bytes.beNat header
      · rw [if_pos hmax, if_pos hmax]
        exact ⟨made, rfl⟩
      · rw [if_neg hmax, if_neg hmax]
        obtain ⟨made', hmsg⟩ := Transfer.readAll_eq h (Bytes.beNat header) ⟨made, bytes⟩
        refine ⟨made', hmsg.trans ?_⟩
        cases Reader.bytes (Bytes.beNat header) bytes with
        | none => rfl
        | some read => rfl

/-! ## A series of messages -/

theorem sendBy_splits (h : Transfer.Splits calls) (sent : Party × Bytes) :
    ∃ made, sendBy calls fd sent = (⟨made, fd.bytes ++ Wire.frame sent.2⟩, true) := by
  obtain ⟨side, msg⟩ := sent
  cases side with
  | server => exact socket_send_splits h
  | client => exact socket_send_splits h

theorem recvBy_eq (h : Transfer.Splits calls) (fd : Transfer.End) (side : Party) :
    ∃ made, recvBy calls fd side =
      (⟨made, (Wire.recv fd.bytes).2⟩, messageOf (Wire.recv fd.bytes).1) := by
  cases side with
  | server => exact socket_recv_eq h fd
  | client => exact socket_recv_eq h fd

theorem sendBy_series (h : Transfer.Splits calls) (series : List (Party × Bytes)) :
    ∃ made, Actions.runPure (sendBy calls) fd series =
      (⟨made, fd.bytes ++ (series.map (·.2)).flatMap Wire.frame⟩,
        List.replicate series.length true) := by
  induction series generalizing fd with
  | nil => exact ⟨fd.made, by simp [Actions.runPure]⟩
  | cons sent series ih =>
      obtain ⟨made, hsent⟩ := @sendBy_splits calls fd h sent
      obtain ⟨made', hseries⟩ := @ih ⟨made, fd.bytes ++ Wire.frame sent.2⟩
      refine ⟨made', ?_⟩
      rw [Actions.runPure, hsent, hseries, List.map_cons, List.flatMap_cons, List.append_assoc]
      rfl

/-- From a stream without bytes nothing is received, again and again. -/
theorem recvBy_dry (h : Transfer.Splits calls) (hnil : fd.bytes = []) (sides : List Party) :
    (Actions.runPure (recvBy calls) fd sides).2 = List.replicate sides.length none := by
  induction sides generalizing fd with
  | nil => rfl
  | cons side sides ih =>
      obtain ⟨made, hrecv⟩ := recvBy_eq h fd side
      rw [hnil, recv_nil] at hrecv
      rw [Actions.runPure, hrecv, ih rfl]
      rfl

/-- A receipt that fails at the end of the stream, and all that follow. -/
theorem recvBy_short (h : Transfer.Splits calls) (hshort : Wire.recv fd.bytes = (.short, []))
    (sides : List Party) :
    (Actions.runPure (recvBy calls) fd sides).2 = List.replicate sides.length none := by
  cases sides with
  | nil => rfl
  | cons side sides =>
      obtain ⟨made, hrecv⟩ := recvBy_eq h fd side
      rw [hshort] at hrecv
      rw [Actions.runPure, hrecv, recvBy_dry h rfl]
      rfl

theorem receipts_zero (msgs : List Bytes) : receipts msgs 0 = [] := by
  simp [receipts]

theorem receipts_nil (n : Nat) : receipts [] n = List.replicate n none := by
  simp [receipts]

theorem receipts_cons (msg : Bytes) (msgs : List Bytes) (n : Nat) :
    receipts (msg :: msgs) (n + 1) = some msg :: receipts msgs n := by
  simp [receipts]

/-- What has arrived of a series of messages is received as the messages that
are there as a whole. -/
theorem recvBy_series (h : Transfer.Splits calls) {msgs : List Bytes}
    (hshort : ∀ msg ∈ msgs, msg.length ≤ Wire.maxMessage) {bytes : Bytes}
    (hfront : bytes <+: msgs.flatMap Wire.frame) : ∃ whole, ArrivedOf msgs bytes whole ∧
      ∀ fd, fd.bytes = bytes → ∀ sides,
        (Actions.runPure (recvBy calls) fd sides).2 = receipts whole sides.length := by
  induction msgs generalizing bytes with
  | nil =>
      obtain rfl := List.prefix_nil.mp hfront
      refine ⟨[], ⟨List.nil_prefix, List.nil_prefix, fun more hmore _ => hmore.length_le⟩, ?_⟩
      intro fd hfd sides
      rw [recvBy_dry h hfd, receipts_nil]
  | cons msg msgs ih =>
      rw [List.flatMap_cons] at hfront
      by_cases hwhole : Wire.frame msg <+: bytes
      · obtain ⟨rest, rfl⟩ := hwhole
        obtain ⟨whole, ⟨hinit, hbytes, hmost⟩, hrun⟩ :=
          ih (fun m hm => hshort m (List.mem_cons_of_mem _ hm))
            ((List.prefix_append_right_inj _).mp hfront)
        refine ⟨msg :: whole, ⟨List.cons_prefix_cons.mpr ⟨rfl, hinit⟩,
          (List.prefix_append_right_inj _).mpr hbytes, ?_⟩, ?_⟩
        · intro more hmore harrived
          cases more with
          | nil => exact Nat.zero_le _
          | cons m more =>
              obtain ⟨rfl, hmore'⟩ := List.cons_prefix_cons.mp hmore
              exact Nat.succ_le_succ
                (hmost more hmore' ((List.prefix_append_right_inj _).mp harrived))
        · intro fd hfd sides
          cases sides with
          | nil => exact (receipts_zero _).symm
          | cons side sides =>
              obtain ⟨made, hrecv⟩ := recvBy_eq h fd side
              rw [hfd, recv_frame (hshort msg List.mem_cons_self)] at hrecv
              rw [Actions.runPure, hrecv, hrun ⟨made, rest⟩ rfl, List.length_cons, receipts_cons]
              rfl
      · have hpart : bytes <+: Wire.frame msg :=
          (List.prefix_or_prefix_of_prefix hfront (List.prefix_append _ _)).resolve_right hwhole
        have hne : bytes ≠ Wire.frame msg := fun heq => hwhole (heq ▸ List.prefix_rfl)
        refine ⟨[], ⟨List.nil_prefix, List.nil_prefix, ?_⟩, ?_⟩
        · intro more hmore harrived
          cases more with
          | nil => exact Nat.le_refl _
          | cons m more =>
              obtain ⟨rfl, -⟩ := List.cons_prefix_cons.mp hmore
              exact absurd ((List.prefix_append _ _).trans harrived) hwhole
        · intro fd hfd sides
          have hrecv := recv_part (hshort msg List.mem_cons_self) hpart hne
          rw [recvBy_short h (hfd ▸ hrecv), receipts_nil]

/-- Messages of at most 10 MiB, sent by either function over calls that split
the bytes in any way, are received by either function over calls that split
them in any way. From a stream that ends early come the messages that are
there as a whole, and no other. -/
theorem framing_any_split {sends recvs : Transfer.Calls} (hsends : Transfer.Splits sends)
    (hrecvs : Transfer.Splits recvs) {series : List (Party × Bytes)}
    (hshort : ∀ sent ∈ series, sent.2.length ≤ Wire.maxMessage) :
    ∃ out, Actions.runPure (sendBy sends) (.new []) series =
        (out, List.replicate series.length true) ∧
      (∀ sides, (Actions.runPure (recvBy recvs) (.new out.bytes) sides).2 =
        receipts (series.map (·.2)) sides.length) ∧
      ∀ bytes, bytes <+: out.bytes → ∃ whole, ArrivedOf (series.map (·.2)) bytes whole ∧
        ∀ sides, (Actions.runPure (recvBy recvs) (.new bytes) sides).2 =
          receipts whole sides.length := by
  obtain ⟨made, hsent⟩ := @sendBy_series sends (.new []) hsends series
  have hmsgs : ∀ msg ∈ series.map (·.2), msg.length ≤ Wire.maxMessage := by
    intro msg hmsg
    obtain ⟨sent, hmem, rfl⟩ := List.mem_map.mp hmsg
    exact hshort sent hmem
  have hreceived : ∀ bytes, bytes <+: (series.map (·.2)).flatMap Wire.frame →
      ∃ whole, ArrivedOf (series.map (·.2)) bytes whole ∧
        ∀ sides, (Actions.runPure (recvBy recvs) (.new bytes) sides).2 =
          receipts whole sides.length := by
    intro bytes hfront
    obtain ⟨whole, harrived, hrun⟩ := recvBy_series hrecvs hmsgs hfront
    exact ⟨whole, harrived, hrun (.new bytes) rfl⟩
  refine ⟨_, hsent, fun sides => ?_, hreceived⟩
  obtain ⟨whole, ⟨hinit, -, hmost⟩, hrun⟩ := hreceived _ List.prefix_rfl
  obtain rfl := hinit.eq_of_length_le (hmost _ List.prefix_rfl List.prefix_rfl)
  exact hrun sides

/-- One byte a call. -/
def bytewise : Transfer.Calls := fun _ room => ⟨min 1 room, by omega⟩

/-- As many bytes a call as can be moved. -/
def greedy : Transfer.Calls := fun _ room => ⟨room, by omega⟩

/-- An empty message between two others, sent byte by byte. -/
theorem framing_any_split_empty : ∃ out,
    Actions.runPure (sendBy bytewise) (.new [])
      [(.client, Bytes.lit "a"), (.client, []), (.server, Bytes.lit "bc")] =
        (out, [true, true, true]) ∧
    (Actions.runPure (recvBy greedy) (.new out.bytes) [.server, .server, .client, .client]).2 =
      [some (Bytes.lit "a"), some [], some (Bytes.lit "bc"), none] := by
  obtain ⟨out, hsent, hreceived, -⟩ := @framing_any_split bytewise greedy
    (fun _ _ hroom => Nat.lt_min.mpr ⟨Nat.one_pos, hroom⟩) (fun _ _ hroom => hroom)
    [(.client, Bytes.lit "a"), (.client, []), (.server, Bytes.lit "bc")] (by decide)
  exact ⟨out, hsent, hreceived [.server, .server, .client, .client]⟩

end FlexQL.Proofs
