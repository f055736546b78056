import FlexQL.Lib.Steps
import FlexQL.Proofs.Server
import FlexQL.Spec.ServerThreads
import Mathlib.Data.List.ReduceOption

/-!
# Every client is answered

Each connection of the server lives as if it were alone with an executor on
which others execute statements now and then. This is the setting in which
requests are answered, so they are on a server with all its threads.
-/

namespace FlexQL.Proofs

open Lib FlexQL.Ref FlexQL.Spec

variable {n : Nat} {s s' : TCPServer n} {e : TCPServer.Event n} {l : List (TCPServer.Event n)}

theorem filterMap_singleton {α β : Type} (f : α → Option β) (a : α) :
    [a].filterMap f = (f a).toList := by
  cases h : f a <;> simp [h]

/-! ## One connection -/

theorem peerAt_eq {fd : Nat} {peer : Peer} (h : s.peers[fd]? = some peer) : peerAt s fd = peer := by
  rw [peerAt, h]
  rfl

theorem peerAt_set {fd fd' : Nat} {peer peer' : Peer} {s' : TCPServer n}
    (h : s.peers[fd']? = some peer) (hs' : s'.peers = s.peers.set fd' peer') :
    peerAt s' fd = if fd' = fd then peer' else peerAt s fd := by
  unfold peerAt
  rw [hs', List.getElem?_set]
  split
  · next heq =>
      rw [if_pos (List.getElem?_eq_some_iff.1 h).1]
      rfl
  · rfl

theorem peerAt_append {fd : Nat} {s' : TCPServer n} (hs' : s'.peers = s.peers ++ [.connected]) :
    peerAt s' fd = peerAt s fd := by
  unfold peerAt
  rw [hs', List.getElem?_append]
  split
  · rfl
  · next hge =>
      rw [List.getElem?_eq_none (by omega : s.peers.length ≤ fd)]
      cases hi : fd - s.peers.length with
      | zero => rfl
      | succ i => rfl

/-- A connection of the server and a connection alone. When the client has
hung up the loop is left, where it would wait if the client had not. -/
structure Seen (ex : Executor) (peer : Peer) (conn : Connection) : Prop where
  executor : conn.executor = ex
  input : conn.input = peer.input
  status : conn.status = peer.status ∨
    peer.ended = true ∧ conn.status = .waiting ∧ peer.status = .closed

theorem serving_eq (status : Status) : Status.serving status = !TCPServer.left status := by
  cases status <;> rfl

section View

variable [FloatLib] {ex : Executor} {conn : Connection} {fd : Nat}

/-- The executor behind a round is the one behind the text it executes. -/
theorem round_nextSql {c c' : Connection} {now : Int64} {fails : Option Nat}
    {response : Option Bytes} (h : TCPServer.round c now fails = .ok (c', response)) :
    Executes c.executor now c'.executor (TCPServer.nextSql c.input) := by
  unfold TCPServer.nextSql
  rw [TCPServer.round] at h
  split at h
  · next hrecv =>
      obtain ⟨rfl, -⟩ := Prod.mk.inj (Except.ok.inj h)
      rw [hrecv]
      rfl
  · next hrecv =>
      obtain ⟨rfl, -⟩ := Prod.mk.inj (Except.ok.inj h)
      rw [hrecv]
      rfl
  · next query rest hrecv =>
      rw [hrecv]
      dsimp only
      split at h
      · next hempty =>
          obtain ⟨rfl, -⟩ := Prod.mk.inj (Except.ok.inj h)
          rw [hempty]
          rfl
      · next hfilled =>
          split at h
          · next hexit =>
              obtain ⟨rfl, -⟩ := Prod.mk.inj (Except.ok.inj h)
              rw [hexit, Bool.or_true]
              rfl
          · next hstays =>
              obtain ⟨⟨ex', result⟩, hrun, h⟩ := Outcome.bind_eq_ok.mp h
              rw [if_neg (by simp [hfilled, hstays])]
              refine ⟨result, ?_⟩
              cases result with
              | none =>
                  obtain ⟨rfl, -⟩ := Prod.mk.inj (Except.ok.inj h)
                  exact hrun
              | some result =>
                  obtain ⟨rfl, -⟩ := Prod.mk.inj (Except.ok.inj h)
                  exact hrun

theorem handleRound_executes {peer peer' : Peer} {now : Int64} {fails : Option Nat} {ex' : Executor}
    {response : Option Bytes}
    (h : TCPServer.handleRound ex peer now fails = .ok (ex', peer', response)) :
    Executes ex now ex' (TCPServer.nextSql peer.input) := by
  obtain ⟨⟨conn', response'⟩, hrun, hk⟩ := Outcome.bind_eq_ok.mp h
  obtain ⟨rfl, -⟩ := Prod.mk.inj (Except.ok.inj hk)
  exact round_nextSql hrun

/-- A round on another connection. -/
theorem Seen.other {peer : Peer} {now : Int64} {ex' : Executor} {sql : Option Bytes}
    (h : Seen ex peer conn) (hsql : Executes ex now ex' sql) :
    ∃ conn' rs, Actions.runAll serve conn (sql.map (.other now)).toList = .ok (conn', rs) ∧
      Seen ex' peer conn' ∧ rs.reduceOption = [] := by
  cases sql with
  | none =>
      obtain rfl : ex' = ex := hsql
      exact ⟨conn, [], rfl, h, rfl⟩
  | some sql =>
      obtain ⟨result, hrun⟩ := hsql
      refine ⟨{ conn with executor := ex' }, [none], ?_, ⟨rfl, h.input, h.status⟩, rfl⟩
      refine Actions.runAll_cons ?_ rfl
      rw [serve, h.executor, hrun]
      rfl

/-- A round on the connection itself. -/
theorem Seen.round {peer peer' : Peer} {now : Int64} {fails : Option Nat} {ex' : Executor}
    {response : Option Bytes} (h : Seen ex peer conn) (hopen : TCPServer.left peer.status = false)
    (hround : TCPServer.handleRound ex peer now fails = .ok (ex', peer', response)) :
    ∃ conn', serve conn (.round now fails) = .ok (conn', response) ∧ Seen ex' peer' conn' := by
  obtain ⟨⟨conn', response'⟩, hrun, hk⟩ := Outcome.bind_eq_ok.mp hround
  obtain ⟨rfl, hpair⟩ := Prod.mk.inj (Except.ok.inj hk)
  obtain ⟨rfl, rfl⟩ := Prod.mk.inj hpair
  have hstatus : conn.status = peer.status := h.status.resolve_right fun hclosed => by
    rw [hclosed.2.2] at hopen
    exact absurd hopen (by decide)
  have hconn : conn = ⟨ex, peer.input, peer.status⟩ := by
    rw [← h.executor, ← h.input, ← hstatus]
  refine ⟨conn', ?_, rfl, rfl, ?_⟩
  · rw [serve, hstatus, serving_eq, hopen, hconn]
    exact hrun
  · dsimp only
    split
    · next hended =>
        rw [Bool.and_eq_true, decide_eq_true_eq] at hended
        exact .inr ⟨hended.1, hended.2, rfl⟩
    · exact .inl rfl

/-- What one step of the server is to a connection alone. -/
theorem Seen.step (h : Seen s.executor (peerAt s fd) conn) (hstep : TCPServer.Move s e s') :
    ∃ conn' rs, Actions.runAll serve conn (viewOf fd e).toList = .ok (conn', rs) ∧
      Seen s'.executor (peerAt s' fd) conn' ∧ rs.reduceOption = (responseTo fd e).toList := by
  have hquiet : ∀ {s'' : TCPServer n}, s''.executor = s.executor → peerAt s'' fd = peerAt s fd →
      ∃ conn' rs, Actions.runAll serve conn [] = .ok (conn', rs) ∧
        Seen s''.executor (peerAt s'' fd) conn' ∧ rs.reduceOption = [] := by
    intro s'' hex hpeer
    rw [hex, hpeer]
    exact ⟨conn, [], rfl, h, rfl⟩
  cases hstep with
  | listen => exact hquiet rfl rfl
  | listenFail => exact hquiet rfl rfl
  | opened => exact hquiet rfl rfl
  | load => exact hquiet rfl rfl
  | accept => exact hquiet rfl (peerAt_append rfl)
  | acceptFail => exact hquiet rfl rfl
  | check => exact hquiet rfl rfl
  | stop => exact hquiet rfl rfl
  | close => exact hquiet rfl rfl
  | pool => exact hquiet rfl rfl
  | @round w fd' peer peer' now fails ex' response hw hpeer hopen hround =>
      rw [peerAt_set hpeer rfl, viewOf, responseTo]
      by_cases heq : fd' = fd
      · subst heq
        rw [peerAt_eq hpeer] at h
        obtain ⟨conn', hserve, hseen⟩ := h.round hopen hround
        rw [if_pos rfl, if_pos rfl, if_pos rfl]
        refine ⟨conn', [response], Actions.runAll_cons hserve rfl, hseen, ?_⟩
        cases response <;> rfl
      · rw [if_neg heq, if_neg heq, if_neg heq]
        exact h.other (handleRound_executes hround)
  | @arrive fd' peer bytes hpeer hended =>
      rw [peerAt_set hpeer rfl, viewOf]
      by_cases heq : fd' = fd
      · subst heq
        rw [peerAt_eq hpeer] at h
        rw [if_pos rfl, if_pos rfl]
        refine ⟨_, [none], Actions.runAll_cons rfl rfl, ⟨h.executor, ?_, h.status⟩, rfl⟩
        exact congrArg (· ++ bytes) h.input
      · rw [if_neg heq, if_neg heq]
        exact ⟨conn, [], rfl, h, rfl⟩
  | @hangUp fd' peer hpeer =>
      refine ⟨conn, [], rfl, ?_, rfl⟩
      rw [peerAt_set hpeer rfl]
      by_cases heq : fd' = fd
      · subst heq
        rw [peerAt_eq hpeer] at h
        rw [if_pos rfl]
        exact ⟨h.executor, h.input, h.status.imp_right fun hs => ⟨rfl, hs.2⟩⟩
      · rw [if_neg heq]
        exact h

/-- Every connection of the server is one that is alone with an executor
others use. -/
theorem seen_run (hrun : Steps TCPServer.Step (TCPServer.new n ex) l s) (fd : Nat) :
    ∃ conn rs, Actions.runAll serve ⟨ex, [], .running⟩ (l.filterMap (viewOf fd)) = .ok (conn, rs) ∧
      Seen s.executor (peerAt s fd) conn ∧ rs.reduceOption = sentTo fd l := by
  refine hrun.invariant (P := fun l s => ∃ conn rs,
    Actions.runAll serve ⟨ex, [], .running⟩ (l.filterMap (viewOf fd)) = .ok (conn, rs) ∧
      Seen s.executor (peerAt s fd) conn ∧ rs.reduceOption = sentTo fd l)
    ⟨_, [], rfl, ⟨rfl, rfl, .inl rfl⟩, rfl⟩ ?_
  rintro l s e s' ⟨conn, rs, hl, hseen, hsent⟩ hstep
  obtain ⟨conn', rs', hl', hseen', hsent'⟩ := hseen.step hstep.2
  refine ⟨conn', rs ++ rs', ?_, hseen', ?_⟩
  · rw [List.filterMap_append, filterMap_singleton]
    exact Actions.runAll_append hl hl'
  · rw [List.reduceOption_append, hsent, hsent', sentTo, sentTo, List.filterMap_append,
      filterMap_singleton]

omit [FloatLib] in
theorem viewOf_fair (h : FairEvent e) : ∀ v ∈ viewOf fd e, v.Fair := by
  intro v hv
  cases e with
  | arrive fd' bytes =>
      simp only [viewOf, Option.mem_def, Option.ite_none_right_eq_some, Option.some.injEq] at hv
      rw [← hv.2]
      trivial
  | round w fd' now fails sql response =>
      simp only [viewOf, Option.mem_def] at hv
      split at hv
      · rw [← Option.some.inj hv]
        exact h.1
      · obtain ⟨text, htext, rfl⟩ := Option.map_eq_some_iff.1 hv
        exact h.2 text htext
  | _ => exact absurd hv (by simp [viewOf])

/-- A worker that has a connection of which a request has arrived goes round
on it and responds. -/
theorem next_answered {rows : Bytes → List Record} {peer : Peer} {w : Fin n} {next rest : Bytes}
    (hex : Stocked s.executor rows) (halive : s.acceptor ≠ .terminated)
    (hw : s.pool.workers w = .running fd) (hpeer : s.peers[fd]? = some peer)
    (hopen : TCPServer.left peer.status = false) (hnext : IsRequest next)
    (hinput : peer.input = Wire.frame next ++ rest) (now : Int64) :
    ∃ s' sql response, TCPServer.Step s (.round w fd now none sql (some response)) s' ∧
      Responds next response := by
  obtain ⟨conn', response, -, hround, hresponds, -⟩ :=
    round_answers (s := ⟨s.executor, peer.input, peer.status⟩) hex hnext hinput now
  have hhandle : TCPServer.handleRound s.executor peer now none = .ok (conn'.executor,
      ⟨conn'.input, peer.ended,
        if peer.ended && conn'.status = .waiting then .closed else conn'.status⟩,
      some response) := by
    rw [TCPServer.handleRound, hround]
    rfl
  exact ⟨_, _, response, ⟨halive, .round hw hpeer hopen hhandle⟩, hresponds⟩

end View

section Runs

attribute [local instance] noDoubles

/-- A client connects, a worker takes the connection, and bytes arrive. -/
def oneArrival (bytes : Bytes) : List (TCPServer.Event 1) :=
  [.listen true, .opened, .load, .accept, .pool (.approve 0), .pool (.push 0),
    .pool (.notifyOne none), .pool (.lock 0), .pool (.test 0 true), .pool (.take 0 0),
    .arrive 0 bytes]

theorem run_oneArrival (bytes : Bytes) : ∃ s : TCPServer 1,
    Steps TCPServer.Step (TCPServer.new 1 Executor.new) (oneArrival bytes) s ∧
      s.pool.workers 0 = .running 0 ∧ s.peers[0]? = some ⟨bytes, false, .running⟩ :=
  have hawake : ∀ w : Fin 1, (ThreadPool.new 1 Nat).workers w ≠ .waiting := fun w => by
    simp [ThreadPool.new]
  ⟨_, .cons ⟨by decide, .listen rfl⟩ <| .cons ⟨by decide, .opened rfl⟩ <|
    .cons ⟨by decide, .load rfl⟩ <| .cons ⟨by decide, .accept rfl rfl⟩ <|
    .cons ⟨by decide, .pool rfl (.approve rfl rfl)⟩ <| .cons ⟨by decide, .pool rfl (.push rfl)⟩ <|
    .cons ⟨by decide, .pool rfl (.notifyNone rfl hawake)⟩ <|
    .cons ⟨by decide, .pool trivial (.lock rfl rfl)⟩ <|
    .cons ⟨by decide, .pool trivial (.pass rfl rfl)⟩ <|
    .cons ⟨by decide, .pool trivial (.take rfl rfl rfl)⟩ <|
    .single ⟨by decide, .arrive rfl rfl⟩, rfl, rfl⟩

theorem arrivedOn_oneArrival (bytes : Bytes) : arrivedOn 0 (oneArrival bytes) = bytes :=
  List.append_nil bytes

end Runs

end FlexQL.Proofs
