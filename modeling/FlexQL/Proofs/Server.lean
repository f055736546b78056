import FlexQL.Proofs.Births
import FlexQL.Spec.Server

/-!
# Every request is answered

A message is received as it was sent, whatever comes behind it. So the loop of
a connection takes the requests one after another as their bytes arrive, and
each that has something in it and runs through gets its response before the
next one is taken. A request of nothing but newlines and semicolons gets none.
-/

namespace FlexQL.Proofs

open Lib FlexQL.Ref FlexQL.Spec

/-! ## Messages -/

section Messages

variable {msg rest p : Bytes}

theorem frame_length (msg : Bytes) : (Wire.frame msg).length = msg.length + 4 := by
  rw [Wire.frame, List.length_append, Bytes.be_length, Nat.add_comm]

theorem header_bytes (msg rest : Bytes) : Reader.bytes 4 (Wire.frame msg ++ rest) =
    some (Bytes.be msg.length 4, msg ++ rest) := by
  rw [Wire.frame, List.append_assoc]
  exact Reader.bytes_append _ (Bytes.be_length _ _)

theorem beNat_header {n : Nat} (h : n < 2 ^ 32) : Bytes.beNat (Bytes.be n 4) = n := by
  rw [Bytes.beNat_be]
  exact Nat.mod_eq_of_lt h

theorem lt_of_le_maxMessage {n : Nat} (h : n ≤ Wire.maxMessage) : n < 2 ^ 32 :=
  Nat.lt_of_le_of_lt h (by decide)

theorem recv_nil : Wire.recv [] = (.short, []) := rfl

theorem recv_frame (h : msg.length ≤ Wire.maxMessage) :
    Wire.recv (Wire.frame msg ++ rest) = (.message msg, rest) := by
  simp only [Wire.recv, header_bytes, beNat_header (lt_of_le_maxMessage h)]
  rw [if_neg (by omega), Reader.bytes_append _ rfl]

theorem recv_long (h : Wire.maxMessage < msg.length) (hlt : msg.length < 2 ^ 32) :
    Wire.recv (Wire.frame msg ++ rest) = (.refused, msg ++ rest) := by
  simp only [Wire.recv, header_bytes, beNat_header hlt]
  rw [if_pos h]

/-- The beginning of a message that has its length. -/
theorem front_split (hp : p <+: Wire.frame msg) (h : 4 ≤ p.length) :
    p = Bytes.be msg.length 4 ++ p.drop 4 := by
  obtain ⟨q, hq⟩ := hp
  have htake := congrArg (List.take 4) hq
  rw [List.take_append_of_le_length h, Wire.frame, List.take_left' (Bytes.be_length _ _)] at htake
  rw [← htake, List.take_append_drop]

/-- A message of which the end is missing. -/
theorem recv_part (h : msg.length ≤ Wire.maxMessage) (hp : p <+: Wire.frame msg)
    (hne : p ≠ Wire.frame msg) : Wire.recv p = (.short, []) := by
  have hlt : p.length < (Wire.frame msg).length := by
    by_contra hge
    exact hne (hp.eq_of_length_le (by omega))
  rw [frame_length] at hlt
  by_cases hlen : p.length < 4
  · simp only [Wire.recv, Reader.bytes_short hlen]
  · have hdrop : (p.drop 4).length < msg.length := by
      rw [List.length_drop]
      omega
    rw [front_split hp (by omega)]
    simp only [Wire.recv, Reader.bytes_append _ (Bytes.be_length _ _),
      beNat_header (lt_of_le_maxMessage h)]
    rw [if_neg (by omega), Reader.bytes_short hdrop]

end Messages

/-! ## The loop -/

/-- The bytes an event brings. -/
def chunk : ServerEvent → Bytes
  | .arrive bytes => bytes
  | _ => []

theorem arrived_cons (e : ServerEvent) (events : List ServerEvent) :
    arrived (e :: events) = chunk e ++ arrived events := rfl

section Loop

variable [FloatLib] {ex : Executor} {rows : Bytes → List Record} {s : Connection} {sql : Bytes}

/-- A tame text leaves the executor in order, thrown out or not. -/
theorem Stocked.attempt (h : Stocked ex rows) (hsql : Tame sql) (now : Int64) :
    ∃ ex' r rows', TCPServer.attempt ex now sql = .ok (ex', r) ∧ Stocked ex' rows' := by
  cases hparse : parseSql sql with
  | error fault =>
      have hrun : ex.executeSql now sql = .error .thrown := by
        rw [Executor.executeSql, hparse, parseSql_error hparse]
        rfl
      rw [TCPServer.attempt, hrun]
      exact ⟨ex, none, rows, rfl, h⟩
  | ok res =>
      obtain ⟨ex', r, hrun⟩ := h.executeSql_parsed hsql hparse now
      rw [TCPServer.attempt, hrun]
      exact ⟨ex', some r, _, rfl, h.executeSql hsql.fits hrun⟩

/-- A request whose bytes have all arrived is answered in the next round. -/
theorem round_answers (h : Stocked s.executor rows) {request rest : Bytes}
    (hreq : IsRequest request) (hinput : s.input = Wire.frame request ++ rest) (now : Int64) :
    ∃ s' response rows', TCPServer.round s now none = .ok (s', some response) ∧
      Responds request response ∧ Stocked s'.executor rows' ∧ s'.input = rest ∧
      s'.status = .running := by
  obtain ⟨ex', r, hrun⟩ := h.executeSql_returns hreq.harmless now
  have hattempt : TCPServer.attempt s.executor now (TCPServer.trim request) =
      .ok (ex', some r) := by
    rw [TCPServer.attempt, hrun]
  refine ⟨⟨ex', rest, .running⟩, TCPServer.formatResult r, _, ?_, ⟨_, _, _, _, hrun, rfl⟩,
    h.executeSql hreq.harmless.fits hrun, rfl, rfl⟩
  rw [TCPServer.round, TCPServer.recvMessage, hinput, recv_frame hreq.short]
  simp only [List.isEmpty_iff, if_neg hreq.filled, hreq.stays, Bool.false_eq_true, if_false,
    hattempt, Outcome.bind_ok]
  rfl

/-- A connection in order: what it has not read is the beginning of the
requests that are left. -/
structure InStep (requests : List Bytes) (s : Connection) : Prop where
  stocked : ∃ rows, Stocked s.executor rows
  serving : Status.serving s.status = true
  input : s.input <+: requests.flatMap Wire.frame

/-- An event takes no request, or the first one and responds to it. -/
theorem InStep.event {requests : List Bytes} (h : InStep requests s)
    (hreq : ∀ r ∈ requests, IsRequest r) {e : ServerEvent} (he : e.Fair)
    (hmore : s.input ++ chunk e <+: requests.flatMap Wire.frame) :
    ∃ s' r done left, serve s e = .ok (s', r) ∧ requests = done ++ left ∧ InStep left s' ∧
      s.input ++ chunk e = done.flatMap Wire.frame ++ s'.input ∧
      List.Forall₂ Responds done r.toList := by
  obtain ⟨rows, hrows⟩ := h.stocked
  cases e with
  | arrive bytes =>
      exact ⟨_, none, [], requests, rfl, rfl, ⟨h.stocked, h.serving, hmore⟩, rfl, .nil⟩
  | other now sql =>
      obtain ⟨ex', r, rows', hrun, hstocked⟩ := hrows.attempt he.tame now
      refine ⟨{ s with executor := ex' }, none, [], requests, ?_, rfl,
        ⟨⟨rows', hstocked⟩, h.serving, h.input⟩, List.append_nil _, .nil⟩
      rw [serve, hrun, Outcome.bind_ok]
  | round now fails =>
      obtain rfl : fails = none := he
      have hnone : s.input ++ chunk (.round now none) = s.input := List.append_nil _
      rw [serve, if_pos h.serving, hnone]
      cases requests with
      | nil =>
          have hnil : s.input = [] := List.prefix_nil.mp h.input
          refine ⟨{ s with status := .waiting }, none, [], [], ?_, rfl, ⟨h.stocked, rfl, h.input⟩,
            rfl, .nil⟩
          rw [TCPServer.round, TCPServer.recvMessage, hnil, recv_nil]
      | cons request requests =>
          have hrequest := hreq request List.mem_cons_self
          by_cases hwhole : Wire.frame request <+: s.input
          · obtain ⟨rest, hrest⟩ := hwhole
            obtain ⟨s', response, rows', hround, hresp, hstocked, hinput, hstatus⟩ :=
              round_answers hrows hrequest hrest.symm now
            have hleft : rest <+: requests.flatMap Wire.frame := by
              have hprefix := h.input
              rwa [← hrest, List.flatMap_cons, List.prefix_append_right_inj] at hprefix
            refine ⟨s', some response, [request], requests, hround, rfl,
              ⟨⟨rows', hstocked⟩, by rw [hstatus]; rfl, hinput ▸ hleft⟩, ?_, .cons hresp .nil⟩
            rw [hinput, ← hrest, List.flatMap_singleton]
          · have hpart : s.input <+: Wire.frame request :=
              (List.prefix_or_prefix_of_prefix h.input (List.prefix_append _ _)).resolve_right
                hwhole
            refine ⟨{ s with status := .waiting }, none, [], request :: requests, ?_, rfl,
              ⟨h.stocked, rfl, h.input⟩, rfl, .nil⟩
            have hne : s.input ≠ Wire.frame request := fun heq => hwhole ⟨[], by simp [heq]⟩
            rw [TCPServer.round, TCPServer.recvMessage, recv_part hrequest.short hpart hne]

/-- ServerEvent after event: the requests that have been taken are those that have
been responded to, in their order. -/
theorem InStep.events {requests : List Bytes} (h : InStep requests s)
    (hreq : ∀ r ∈ requests, IsRequest r) {events : List ServerEvent} (hfair : ∀ e ∈ events, e.Fair)
    (hall : s.input ++ arrived events <+: requests.flatMap Wire.frame) :
    ∃ s' rs done left, Actions.runAll serve s events = .ok (s', rs) ∧
      requests = done ++ left ∧ InStep left s' ∧
      s.input ++ arrived events = done.flatMap Wire.frame ++ s'.input ∧
      List.Forall₂ Responds done rs.reduceOption := by
  induction events generalizing s requests with
  | nil => exact ⟨s, [], [], requests, rfl, rfl, h, List.append_nil _, .nil⟩
  | cons e events ih =>
      rw [arrived_cons, ← List.append_assoc] at hall
      obtain ⟨s₁, r, done, left, hevent, rfl, h₁, hinput, hresp⟩ :=
        h.event hreq (hfair e List.mem_cons_self) ((List.prefix_append _ _).trans hall)
      rw [hinput, List.append_assoc, List.flatMap_append, List.prefix_append_right_inj] at hall
      obtain ⟨s', rs, done', left', hrun, rfl, h', hinput', hresp'⟩ := ih h₁
        (fun q hq => hreq q (List.mem_append_right _ hq))
        (fun a ha => hfair a (List.mem_cons_of_mem _ ha)) hall
      refine ⟨s', r :: rs, done ++ done', left', Actions.runAll_cons hevent hrun,
        (List.append_assoc _ _ _).symm, h', ?_, ?_⟩
      · rw [arrived_cons, ← List.append_assoc, hinput, List.append_assoc, hinput',
          List.flatMap_append, List.append_assoc]
      · have hcons : (r :: rs).reduceOption = r.toList ++ rs.reduceOption := by
          cases r <;> rfl
        rw [hcons]
        exact List.rel_append hresp hresp'

/-- Whatever bytes of the requests have arrived and whatever other connections
do, the requests taken so far have each been responded to, in order, and the
next one will be in the round after its last byte has arrived. -/
theorem handleClient_responds (hex : Stocked ex rows) {requests : List Bytes}
    (hreq : ∀ r ∈ requests, IsRequest r) {events : List ServerEvent} (hfair : ∀ e ∈ events, e.Fair)
    (hall : arrived events <+: requests.flatMap Wire.frame) :
    ∃ s rs done left, Actions.runAll serve ⟨ex, [], .running⟩ events = .ok (s, rs) ∧
      requests = done ++ left ∧ arrived events = done.flatMap Wire.frame ++ s.input ∧
      List.Forall₂ Responds done rs.reduceOption ∧
      ∀ next ∈ left.head?, Wire.frame next <+: s.input → ∀ now, ∃ s' response,
        serve s (.round now none) = .ok (s', some response) ∧ Responds next response := by
  have hstart : InStep requests ⟨ex, [], .running⟩ := ⟨⟨rows, hex⟩, rfl, List.nil_prefix⟩
  obtain ⟨s, rs, done, left, hrun, rfl, h, hinput, hresp⟩ := hstart.events hreq hfair hall
  refine ⟨s, rs, done, left, hrun, rfl, hinput, hresp, fun next hnext hwhole now => ?_⟩
  obtain ⟨rows', hrows⟩ := h.stocked
  obtain ⟨rest, hrest⟩ := hwhole
  have hnext := hreq next (List.mem_append_right _ (List.mem_of_mem_head? hnext))
  obtain ⟨s', response, _, hround, hresp, -⟩ := round_answers hrows hnext hrest.symm now
  exact ⟨s', response, by rw [serve, if_pos h.serving, hround], hresp⟩

end Loop

section Runs

attribute [local instance] noDoubles

/-- Two requests, the second of which arrives in two pieces. -/
def twoRequests : List Bytes :=
  [Bytes.lit "CREATE TABLE t (id INT);", Bytes.lit "SELECT * FROM t"]

def twoEvents : List ServerEvent :=
  [.arrive (Wire.frame (Bytes.lit "CREATE TABLE t (id INT);")), .round 0 none,
    .arrive ((Wire.frame (Bytes.lit "SELECT * FROM t")).take 6), .round 0 none,
    .other 0 (Bytes.lit "INSERT INTO t VALUES (1)"),
    .arrive ((Wire.frame (Bytes.lit "SELECT * FROM t")).drop 6), .round 0 none]

theorem handleClient_responds_two : ∃ s rs done left,
    Actions.runAll serve ⟨Executor.new, [], .running⟩ twoEvents = .ok (s, rs) ∧
    twoRequests = done ++ left ∧ arrived twoEvents = done.flatMap Wire.frame ++ s.input ∧
    List.Forall₂ Responds done rs.reduceOption := by
  have hreq : ∀ r ∈ twoRequests, IsRequest r := by
    intro r hr
    have hmem : r = Bytes.lit "CREATE TABLE t (id INT);" ∨ r = Bytes.lit "SELECT * FROM t" := by
      simpa [twoRequests] using hr
    rcases hmem with rfl | rfl
    · exact ⟨by decide, by decide +kernel, by decide +kernel, by decide +kernel⟩
    · exact ⟨by decide, by decide +kernel, by decide +kernel, by decide +kernel⟩
  have hfair : ∀ e ∈ twoEvents, e.Fair := by
    have hinsert : Harmless (Bytes.lit "INSERT INTO t VALUES (1)") := by decide +kernel
    simp [twoEvents, ServerEvent.Fair, hinsert]
  have hall : arrived twoEvents <+: twoRequests.flatMap Wire.frame := ⟨[], by decide +kernel⟩
  obtain ⟨s, rs, done, left, hrun, hsplit, hinput, hresp, -⟩ :=
    handleClient_responds stocked_new hreq hfair hall
  exact ⟨s, rs, done, left, hrun, hsplit, hinput, hresp⟩

/-- A request of a semicolon is taken, and the server waits for the next one
without a response. -/
theorem semicolon_unanswered : ∃ s,
    (Bytes.lit ";").length ≤ Wire.maxMessage ∧ TCPServer.isExit (Bytes.lit ";") = false ∧
    Actions.runAll serve ⟨Executor.new, [], .running⟩
      [.arrive (Wire.frame (Bytes.lit ";")), .round 0 none, .round 0 none] =
        .ok (s, [none, none, none]) ∧
    s.input = [] ∧ s.status = .waiting := by
  refine ⟨⟨Executor.new, [], .waiting⟩, by decide, by decide +kernel, ?_, rfl, rfl⟩
  rfl

end Runs

end FlexQL.Proofs
