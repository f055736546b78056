import FlexQL.Proofs.Lexing
import FlexQL.Proofs.Server
import FlexQL.Spec.Link

/-!
# Calls and responses stay paired

While no response is too long for the client, there is never more on a
connection than one request or one response, and it belongs to the last call.
A response that is too long is refused after its length has been read. The
rest of it stays on the connection, and calls made from then on take it apart
four bytes at a time until they come to the responses of earlier calls.
-/

namespace FlexQL.Proofs

open Lib FlexQL.Ref FlexQL.Spec

/-! ## Messages that are cut off -/

section Messages

variable {msg p : Bytes}

theorem send_part (fails : Option Nat) (msg : Bytes) :
    (Wire.send fails msg).1 <+: Wire.frame msg := by
  unfold Wire.send
  split
  · exact List.prefix_rfl
  · split
    · exact List.prefix_rfl
    · exact List.take_prefix _ _

/-- What is received of the beginning of a message. -/
theorem recv_front (hp : p <+: Wire.frame msg) (hlt : msg.length < 2 ^ 32) :
    Wire.recv p = (.message msg, []) ∨
      (∃ rest, Wire.recv p = (.refused, rest)) ∧ Wire.maxMessage < msg.length ∨
      Wire.recv p = (.short, []) := by
  by_cases hlen : msg.length ≤ Wire.maxMessage
  · by_cases heq : p = Wire.frame msg
    · rw [heq, ← List.append_nil (Wire.frame msg)]
      exact .inl (recv_frame hlen)
    · exact .inr (.inr (recv_part hlen hp heq))
  · by_cases hhead : p.length < 4
    · right; right
      simp only [Wire.recv, Reader.bytes_short hhead]
    · right; left
      refine ⟨⟨p.drop 4, ?_⟩, by omega⟩
      rw [front_split hp (by omega)]
      simp only [Wire.recv, Reader.bytes_append _ (Bytes.be_length _ _), beNat_header hlt]
      rw [if_pos (by omega), List.drop_left' (Bytes.be_length _ _)]

/-- Four bytes of text are no length. -/
theorem recv_text {a : UInt8} (ha : a ≠ 0) (b c d : UInt8) (rest : Bytes) :
    Wire.recv (a :: b :: c :: d :: rest) = (.refused, rest) := by
  have hbytes : Reader.bytes 4 (a :: b :: c :: d :: rest) = some ([a, b, c, d], rest) :=
    Reader.bytes_append rest (w := [a, b, c, d]) rfl
  have hnat : Bytes.beNat [a, b, c, d] =
      d.toNat + 256 * (c.toNat + 256 * (b.toNat + 256 * a.toNat)) := by
    simp [Bytes.beNat, Bytes.leNat]
  have hpos : 0 < a.toNat := Nat.pos_of_ne_zero fun h => ha (UInt8.toNat_inj.mp h)
  have hmax : Wire.maxMessage = 10485760 := rfl
  simp only [Wire.recv, hbytes, hnat]
  rw [if_pos (by omega)]

end Messages

/-! ## One step -/

section Steps

variable {l : Link}

/-- The two sides agree on what has been asked and answered. -/
structure Agreed (l : Link) : Prop where
  stocked : ∃ rows, Stocked l.session.executor rows
  paired : Paired l
  heard : l.served.map (·.1) <+: l.calls
  texts : ∀ sql ∈ l.calls, sql.length < 2 ^ 32 ∧ Tame (TCPServer.trim sql)
  input : Status.serving l.session.status = true →
    l.session.input = (l.calls.drop l.served.length).flatMap Wire.frame
  behind : Status.serving l.session.status = true →
    l.calls.length ≤ l.served.length + l.pending.toNat
  idle : l.pending = false → l.down = [] ∨ ∃ r ∈ responses l, Wire.maxMessage < r.length
  waiting : l.pending = true → l.down = [] ∨ ∃ sql r,
    l.served[l.calls.length - 1]? = some (sql, some r) ∧ l.down <+: Wire.frame r

theorem agreed_opened {ex : Executor} {rows : Bytes → List Record} (h : Stocked ex rows) :
    Agreed (Link.opened ex) where
  stocked := ⟨rows, h⟩
  paired _ _ hmem := absurd hmem List.not_mem_nil
  heard := List.nil_prefix
  texts _ hmem := absurd hmem List.not_mem_nil
  input _ := rfl
  behind _ := Nat.le_refl _
  idle _ := .inl rfl
  waiting hp := absurd hp (by simp [Link.opened])

theorem Agreed.served_le (h : Agreed l) : l.served.length ≤ l.calls.length := by
  have hle := h.heard.length_le
  rwa [List.length_map] at hle

theorem Agreed.call (h : Agreed l) {sql : Bytes} {fails : Option Nat}
    (hm : Careful l (.call sql fails)) : Agreed (l.call sql fails) := by
  obtain ⟨hfails, hlen, htame, hshort⟩ := hm
  rw [Link.call]
  cases hp : l.pending with
  | true => rw [if_pos rfl]; exact h
  | false =>
      rw [if_neg (by simp)]
      have hdown : l.down = [] := (h.idle hp).resolve_right
        fun ⟨r, hr, hlong⟩ => absurd (hshort r hr) (by omega)
      -- The server can only still be reading if the text gets through.
      have hopen : Status.serving l.session.status = true → fails = none := by
        intro hserve
        refine hfails.resolve_right fun hclosed => ?_
        rw [hclosed] at hserve
        exact absurd hserve (by decide)
      have hlast := h.served_le
      refine ⟨h.stocked, fun i msg hmem => ?_, h.heard.trans (List.prefix_append _ _), ?_, ?_, ?_,
        fun _ => .inl hdown, fun _ => .inl hdown⟩
      · obtain ⟨sql', hcall, hserved⟩ := h.paired i msg hmem
        refine ⟨sql', ?_, hserved⟩
        dsimp only
        rw [List.getElem?_append_left (List.getElem?_eq_some_iff.mp hcall).1, hcall]
      · intro sql' hmem
        rcases List.mem_append.mp hmem with hmem | hmem
        · exact h.texts sql' hmem
        · rw [List.mem_singleton.mp hmem]
          exact ⟨hlen, htame⟩
      · intro hserve
        have hbehind := h.behind hserve
        rw [hp] at hbehind
        dsimp only
        rw [h.input hserve, hopen hserve, List.drop_append_of_le_length hlast,
          List.flatMap_append, List.flatMap_singleton]
        rfl
      · intro hserve
        have hbehind := h.behind hserve
        rw [hp] at hbehind
        dsimp only
        rw [List.length_append, hopen hserve]
        exact Nat.succ_le_succ hbehind

theorem Agreed.receive (h : Agreed l) (hm : Careful l .receive) : Agreed l.receive := by
  rw [Link.receive]
  cases hp : l.pending with
  | false => rw [if_neg (by simp)]; exact h
  | true =>
      rw [if_pos rfl, Client.wireRecv]
      rcases h.waiting hp with hdown | ⟨sql, r, hserved, hfront⟩
      · rw [hdown, recv_nil]
        dsimp only
        split
        · next hclosed =>
            exact ⟨h.stocked, h.paired, h.heard, h.texts, h.input,
              fun hserve => absurd hserve (by simp [hclosed, Status.serving]),
              fun _ => .inl rfl, fun hfalse => absurd hfalse (by simp)⟩
        · exact h
      · have hlast : l.calls.length - 1 < l.served.length :=
          (List.getElem?_eq_some_iff.mp hserved).1
        have hmem : r ∈ responses l :=
          List.mem_filterMap.mpr ⟨(sql, some r), List.mem_of_getElem? hserved, rfl⟩
        have hbehind : l.calls.length ≤ l.served.length := by omega
        rcases recv_front hfront (hm r hmem) with hrecv | ⟨⟨rest, hrecv⟩, hlong⟩ | hrecv
        · rw [hrecv]
          refine ⟨h.stocked, fun i msg hi => ?_, h.heard, h.texts, h.input, fun _ => hbehind,
            fun _ => .inl rfl, fun hfalse => absurd hfalse (by simp)⟩
          rcases List.mem_append.mp hi with hi | hi
          · exact h.paired i msg hi
          · obtain ⟨rfl, rfl⟩ := Prod.mk.inj (List.mem_singleton.mp hi)
            have hcall : (l.served.map (·.1))[l.calls.length - 1]? = some sql := by
              rw [List.getElem?_map, hserved]
              rfl
            obtain ⟨more, hmore⟩ := h.heard
            refine ⟨sql, ?_, hserved⟩
            dsimp only
            rw [← hmore, List.getElem?_append_left (by rw [List.length_map, hmore]; exact hlast),
              hmore, hcall]
        · rw [hrecv]
          exact ⟨h.stocked, h.paired, h.heard, h.texts, h.input, fun _ => hbehind,
            fun _ => .inr ⟨r, hmem, hlong⟩, fun hfalse => absurd hfalse (by simp)⟩
        · rw [hrecv]
          dsimp only
          split
          · exact ⟨h.stocked, h.paired, h.heard, h.texts, h.input, fun _ => hbehind,
              fun _ => .inl rfl, fun hfalse => absurd hfalse (by simp)⟩
          · exact h

variable [FloatLib]

/-- A message is taken, whatever comes of it. -/
theorem round_message {s : Connection} {rows : Bytes → List Record} (h : Stocked s.executor rows)
    {query : Bytes} (hlen : query.length ≤ Wire.maxMessage)
    (htame : Tame (TCPServer.trim query)) (hinput : s.input = Wire.frame query) (now : Int64)
    (fails : Option Nat) : ∃ s' response rows', TCPServer.round s now fails = .ok (s', response) ∧
      Stocked s'.executor rows' ∧ s'.input = [] := by
  have hrecv : Wire.recv s.input = (.message query, []) := by
    rw [hinput, ← List.append_nil (Wire.frame query), recv_frame hlen]
  rw [TCPServer.round, TCPServer.recvMessage, hrecv]
  dsimp only
  split
  · exact ⟨_, _, rows, rfl, h, rfl⟩
  · split
    · exact ⟨_, _, rows, rfl, h, rfl⟩
    · obtain ⟨ex', r, rows', hrun, hstocked⟩ := h.attempt htame now
      rw [hrun, Outcome.bind_ok]
      cases r with
      | none => exact ⟨_, _, rows', rfl, hstocked, rfl⟩
      | some r => exact ⟨_, _, rows', rfl, hstocked, rfl⟩

/-- With nothing to take, the server waits. -/
theorem Agreed.round_idle (h : Agreed l) (hserve : Status.serving l.session.status = true)
    (hinput : l.session.input = []) (now : Int64) (fails : Option Nat) :
    ∃ l', l.round now fails = .ok l' ∧ Agreed l' := by
  have hround : TCPServer.round l.session now fails =
      .ok ({ l.session with status := .waiting }, none) := by
    have hrecv : Wire.recv l.session.input = (.short, []) := by rw [hinput, recv_nil]
    rw [TCPServer.round, TCPServer.recvMessage, hrecv]
  have hl : l.round now fails =
      .ok { l with session := { l.session with status := .waiting } } := by
    simp only [Link.round, if_pos hserve, hround, Outcome.bind_ok, TCPServer.recvMessage, hinput,
      recv_nil, Option.elim_none, List.append_nil]
  exact ⟨_, hl, h.stocked, h.paired, h.heard, h.texts, fun _ => h.input hserve,
    fun _ => h.behind hserve, h.idle, h.waiting⟩

/-- A text that is too long for the server makes it close the connection. -/
theorem Agreed.round_refused (h : Agreed l) (hserve : Status.serving l.session.status = true)
    {sql : Bytes} (hinput : l.session.input = Wire.frame sql)
    (hlong : Wire.maxMessage < sql.length) (hlt : sql.length < 2 ^ 32) (now : Int64)
    (fails : Option Nat) : ∃ l', l.round now fails = .ok l' ∧ Agreed l' := by
  have hrecv : Wire.recv l.session.input = (.refused, sql) := by
    rw [hinput, ← List.append_nil (Wire.frame sql), recv_long hlong hlt, List.append_nil]
  have hround : TCPServer.round l.session now fails =
      .ok (⟨l.session.executor, sql, .closed⟩, none) := by
    rw [TCPServer.round, TCPServer.recvMessage, hrecv]
  have hl : l.round now fails =
      .ok { l with session := ⟨l.session.executor, sql, .closed⟩ } := by
    simp only [Link.round, if_pos hserve, hround, Outcome.bind_ok, TCPServer.recvMessage, hrecv,
      Option.elim_none, List.append_nil]
  exact ⟨_, hl, h.stocked, h.paired, h.heard, h.texts,
    fun hfalse => absurd hfalse (by simp [Status.serving]),
    fun hfalse => absurd hfalse (by simp [Status.serving]), h.idle, h.waiting⟩

/-- The text of the last call is taken. -/
theorem Agreed.round_taken (h : Agreed l) (hserve : Status.serving l.session.status = true)
    {sql : Bytes} (hcalls : l.calls = l.served.map (·.1) ++ [sql]) (hp : l.pending = true)
    (hdown : l.down = []) (hlen : sql.length ≤ Wire.maxMessage) (now : Int64)
    (fails : Option Nat) : ∃ l', l.round now fails = .ok l' ∧ Agreed l' := by
  have hmem : sql ∈ l.calls := by simp [hcalls]
  have hcount : l.calls.length = l.served.length + 1 := by
    rw [hcalls, List.length_append, List.length_map, List.length_singleton]
  have hinput : l.session.input = Wire.frame sql := by
    rw [h.input hserve, hcalls, List.drop_left' (List.length_map _), List.flatMap_singleton]
  have hrecv : Wire.recv l.session.input = (.message sql, []) := by
    rw [hinput, ← List.append_nil (Wire.frame sql), recv_frame hlen]
  obtain ⟨rows, hrows⟩ := h.stocked
  obtain ⟨s', response, rows', hround, hstocked, hrest⟩ :=
    round_message hrows hlen (h.texts sql hmem).2 hinput now fails
  have hl : l.round now fails = .ok { l with
      session := s'
      down := response.elim [] fun r => (TCPServer.sendMessage fails r).1
      served := l.served ++ [(sql, response)] } := by
    simp only [Link.round, if_pos hserve, hround, Outcome.bind_ok, TCPServer.recvMessage, hrecv,
      hdown, List.nil_append]
  refine ⟨_, hl, ⟨rows', hstocked⟩, fun i msg hi => ?_, ?_, h.texts, fun _ => ?_, fun _ => ?_,
    fun hfalse => absurd (hp.symm.trans hfalse) (by simp), fun _ => ?_⟩
  · obtain ⟨sql', hcall, hserved⟩ := h.paired i msg hi
    refine ⟨sql', hcall, ?_⟩
    dsimp only
    rw [List.getElem?_append_left (List.getElem?_eq_some_iff.mp hserved).1, hserved]
  · dsimp only
    rw [List.map_append, hcalls]
    exact List.prefix_rfl
  · dsimp only
    rw [hrest, List.drop_eq_nil_of_le (by rw [List.length_append, hcount]; rfl)]
    rfl
  · dsimp only
    rw [List.length_append, hcount]
    exact Nat.le_add_right _ _
  · cases response with
    | none => exact .inl rfl
    | some r =>
        refine .inr ⟨sql, r, ?_, send_part fails r⟩
        dsimp only
        rw [hcount, Nat.add_sub_cancel, List.getElem?_append_right (Nat.le_refl _),
          Nat.sub_self]
        rfl

theorem Agreed.round (h : Agreed l) (now : Int64) (fails : Option Nat) :
    ∃ l', l.round now fails = .ok l' ∧ Agreed l' := by
  cases hserve : Status.serving l.session.status with
  | false =>
      refine ⟨l, ?_, h⟩
      rw [Link.round, hserve, if_neg (by simp)]
  | true =>
      have hinput := h.input hserve
      have hbehind := h.behind hserve
      obtain ⟨more, hmore⟩ := h.heard
      have hleft : l.calls.drop l.served.length = more := by
        rw [← hmore, List.drop_left' (List.length_map _)]
      rw [hleft] at hinput
      cases more with
      | nil => exact h.round_idle hserve hinput now fails
      | cons sql more =>
          have hcount := congrArg List.length hmore
          rw [List.length_append, List.length_map, List.length_cons] at hcount
          have hpending : l.pending = true ∧ more = [] := by
            cases hp : l.pending with
            | false =>
                rw [hp, Bool.toNat_false] at hbehind
                omega
            | true =>
                rw [hp, Bool.toNat_true] at hbehind
                exact ⟨rfl, List.length_eq_zero_iff.mp (by omega)⟩
          obtain ⟨hp, rfl⟩ := hpending
          rw [List.flatMap_singleton] at hinput
          have hdown : l.down = [] := by
            refine (h.waiting hp).resolve_right fun ⟨sql', r, hserved, _⟩ => ?_
            have hlt := (List.getElem?_eq_some_iff.mp hserved).1
            simp only [List.length_nil] at hcount
            omega
          by_cases hlen : sql.length ≤ Wire.maxMessage
          · exact h.round_taken hserve hmore.symm hp hdown hlen now fails
          · have hlt := (h.texts sql (by simp [← hmore])).1
            exact h.round_refused hserve hinput (by omega) hlt now fails

theorem Agreed.step (h : Agreed l) {m : Move} (hm : Careful l m) :
    ∃ l' r, l.step m = .ok (l', r) ∧ Agreed l' := by
  cases m with
  | call sql fails => exact ⟨_, _, rfl, h.call hm⟩
  | receive => exact ⟨_, _, rfl, h.receive hm⟩
  | round now fails =>
      obtain ⟨l', hround, h'⟩ := h.round now fails
      exact ⟨l', (), by rw [Link.step, hround, Outcome.bind_ok], h'⟩
  | other now sql =>
      obtain ⟨rows, hrows⟩ := h.stocked
      obtain ⟨ex', r, rows', hrun, hstocked⟩ := hrows.attempt hm now
      refine ⟨{ l with session := { l.session with executor := ex' } }, (), ?_,
        ⟨rows', hstocked⟩, h.paired, h.heard, h.texts, h.input, h.behind, h.idle, h.waiting⟩
      rw [Link.step, hrun, Outcome.bind_ok]

end Steps

section Runs

attribute [local instance] noDoubles

end Runs

/-! ## Words that are no statement -/

section Words

/-- A word on which no statement begins, and which does not end the connection. -/
structure Stray (w : Bytes) : Prop where
  head : w.head? = some 120 ∨ w.head? = some 121
  word : w.all Lexer.isWordChar = true

theorem advanceBy_line {l : Lexer} {n : Nat} (h : ∀ c ∈ l.rest.take n, c ≠ 10) :
    (l.advanceBy n).line = l.line := by
  induction n generalizing l with
  | zero => rfl
  | succ n ih =>
      cases hr : l.rest with
      | nil =>
          have hadv : l.advance = l := by rw [Lexer.advance, hr]
          rw [Lexer.advanceBy, hadv]
          exact ih (by rw [hr, List.take_nil]; simp)
      | cons c cs =>
          rw [hr, List.take_succ_cons] at h
          have hadv : l.advance = { l with rest := cs, col := l.col + 1 } := by
            simp only [Lexer.advance, hr, if_neg (h c List.mem_cons_self)]
          rw [Lexer.advanceBy, hadv]
          exact ih fun d hd => h d (List.mem_cons_of_mem _ hd)

theorem wordChar_ne_newline : ∀ c, Lexer.isWordChar c = true → c ≠ 10 ∧ c ≠ 13 ∧ c ≠ 59 ∧ c ≠ 0 :=
  Bytes.forall_byte (by decide +kernel)

theorem toUpper_head {w : Bytes} (h : Stray w) :
    (Bytes.toUpper w).head? = some 88 ∨ (Bytes.toUpper w).head? = some 89 := by
  rw [Bytes.toUpper, List.head?_map]
  rcases h.head with hx | hy
  · rw [hx]
    exact .inl (by decide)
  · rw [hy]
    exact .inr (by decide)

theorem Stray.toUpper_ne {w word : Bytes} (h : Stray w)
    (hword : word.head? ≠ some 88 ∧ word.head? ≠ some 89) : Bytes.toUpper w ≠ word := by
  intro heq
  rw [← heq] at hword
  exact (toUpper_head h).elim hword.1 hword.2

theorem Stray.lookup {w : Bytes} (h : Stray w) : keywords.lookup (Bytes.toUpper w) = none := by
  rw [List.lookup_eq_none_iff]
  intro p hp
  have hkey : p.1.head? ≠ some 88 ∧ p.1.head? ≠ some 89 := by
    revert p
    decide
  rw [bne_iff_ne]
  exact h.toUpper_ne hkey

theorem Stray.isExit {w : Bytes} (h : Stray w) : TCPServer.isExit w = false := by
  rw [TCPServer.isExit, decide_eq_false (h.toUpper_ne (by decide)),
    decide_eq_false (h.toUpper_ne (by decide))]
  rfl

theorem Stray.trim {w : Bytes} (h : Stray w) : TCPServer.trim w = w := by
  rw [TCPServer.trim, List.rdropWhile_eq_self_iff]
  intro hne
  have hlast := wordChar_ne_newline _ (List.all_eq_true.mp h.word _ (List.getLast_mem hne))
  simp [hlast]

theorem Stray.cString {w : Bytes} (h : Stray w) : Client.cString w = w := by
  rw [Client.cString, List.takeWhile_eq_self_iff]
  intro c hc
  simpa using (wordChar_ne_newline c (List.all_eq_true.mp h.word c hc)).2.2.2

/-- A stray word is one identifier, on the first line. -/
theorem Stray.tokenize {w : Bytes} (h : Stray w) :
    Parser.current (Lexer.tokenize w).1 = ⟨.identifier, w, 1, 1⟩ ∧ (Lexer.tokenize w).2 = [] := by
  cases w with
  | nil => exact absurd h.head (by simp)
  | cons c cs =>
      have hc : Bytes.isSpace c = false ∧ Bytes.isDigit c = false ∧ c ≠ 45 ∧
          Bytes.isAlpha c = true := by
        have hhead : c = 120 ∨ c = 121 := by simpa using h.head
        rcases hhead with rfl | rfl <;> decide
      have hskip : (Lexer.new (c :: cs)).skipWhitespace = Lexer.new (c :: cs) := by
        rw [Lexer.skipWhitespace, Lexer.new, List.takeWhile_cons_of_neg (by rw [hc.1]; decide)]
        rfl
      have hword : (c :: cs).takeWhile Lexer.isWordChar = c :: cs :=
        List.takeWhile_eq_self_iff.mpr (List.all_eq_true.mp h.word)
      have hline : ((Lexer.new (c :: cs)).advanceBy (c :: cs).length).line = 1 := by
        refine advanceBy_line fun d hd => ?_
        have hmem : d ∈ c :: cs := List.mem_of_mem_take hd
        exact (wordChar_ne_newline d (List.all_eq_true.mp h.word d hmem)).1
      have htoken : ((Lexer.new (c :: cs)).nextToken c).1 = ⟨.identifier, c :: cs, 1, 1⟩ := by
        rw [Lexer.nextToken, hc.2.1, if_neg (by simp), if_neg (by simp [hc.2.2.1]),
          if_pos (by rw [hc.2.2.2]; rfl), Lexer.readIdentifierOrKeyword]
        have htake : (Lexer.new (c :: cs)).rest.takeWhile Lexer.isWordChar = c :: cs := hword
        rw [htake, h.lookup, hline]
        rfl
      have hlexes := lexes_scans (scans_word (by simp [hc.2.2.2]) h.word (by simp)) lexes_nil
      obtain ⟨-, herror⟩ := hlexes (Lexer.new (c :: cs)) (List.append_nil _).symm
      have hloop := tokenizeLoop_cons (l := Lexer.new (c :: cs)) (by rw [hskip]; rfl)
      rw [hskip, htoken] at hloop
      rw [hloop] at herror
      rw [Lexer.tokenize, hloop]
      exact ⟨rfl, herror⟩

/-- The response to a stray word. -/
def complaint (w : Bytes) : Bytes :=
  Bytes.lit "ERROR: Parse error: Unexpected token '" ++ w ++
    Bytes.lit "' at line 1. Expected CREATE, INSERT, or SELECT.\n"

theorem complaint_length (w : Bytes) : (complaint w).length = w.length + 87 := by
  have h₁ : (Bytes.lit "ERROR: Parse error: Unexpected token '").length = 38 := by decide
  have h₂ : (Bytes.lit "' at line 1. Expected CREATE, INSERT, or SELECT.\n").length = 49 := by
    decide
  rw [complaint, List.length_append, List.length_append, h₁, h₂]
  omega

theorem zero_notMem_complaint {w : Bytes} (h : Stray w) : ∀ c ∈ complaint w, c ≠ 0 := by
  intro c hc
  rw [complaint, List.mem_append, List.mem_append] at hc
  rcases hc with (hc | hc) | hc
  · revert c
    decide +kernel
  · exact (wordChar_ne_newline c (List.all_eq_true.mp h.word c hc)).2.2.2
  · revert c
    decide +kernel

theorem stray_replicate {n : Nat} (hn : 0 < n) : Stray (List.replicate n 120) := by
  refine ⟨.inl ?_, ?_⟩
  · rw [List.head?_replicate, if_neg (by omega)]
  · rw [List.all_eq_true]
    intro c hc
    rw [List.eq_of_mem_replicate hc]
    decide

variable [FloatLib]

theorem Stray.executeSql {w : Bytes} (h : Stray w) (ex : Executor) (now : Int64) :
    ∃ r, ex.executeSql now w = .ok (ex, r) ∧ TCPServer.formatResult r = complaint w := by
  obtain ⟨htoken, herror⟩ := h.tokenize
  refine ⟨.failure (Bytes.lit "Parse error: " ++ (Bytes.lit "Unexpected token '" ++ w ++
    Bytes.lit "' at line " ++ Bytes.ofNat 1 ++
      Bytes.lit ". Expected CREATE, INSERT, or SELECT.")), ?_, ?_⟩
  · have hparse : parseSql w = .ok (.error (Bytes.lit "Unexpected token '" ++ w ++
        Bytes.lit "' at line " ++ Bytes.ofNat 1 ++
          Bytes.lit ". Expected CREATE, INSERT, or SELECT.")) := by
      simp only [parseSql, herror, Parser.parse, htoken]
      rfl
    rw [Executor.executeSql, hparse]
    rfl
  · have h₁ : Bytes.lit "' at line 1. Expected CREATE, INSERT, or SELECT.\n" =
        Bytes.lit "' at line " ++ Bytes.ofNat 1 ++
          Bytes.lit ". Expected CREATE, INSERT, or SELECT." ++ [10] := by decide +kernel
    have h₂ : Bytes.lit "ERROR: Parse error: Unexpected token '" = Bytes.lit "ERROR: " ++
        (Bytes.lit "Parse error: " ++ Bytes.lit "Unexpected token '") := by decide +kernel
    rw [complaint, h₁, h₂]
    simp only [TCPServer.formatResult, QueryResult.failure, List.append_assoc]
    rfl

end Words

/-! ## A response that is too long -/

section Strewn

variable [FloatLib] {ex : Executor} {l : Link} {w down rest : Bytes} {n : Nat}

theorem Stray.round (h : Stray w) (hlen : w.length ≤ Wire.maxMessage) (now : Int64) :
    TCPServer.round ⟨ex, Wire.frame w, .running⟩ now none =
      .ok (⟨ex, [], .running⟩, some (complaint w)) := by
  obtain ⟨r, hrun, hformat⟩ := h.executeSql ex now
  have hrecv : Wire.recv (Wire.frame w) = (.message w, []) := by
    rw [← List.append_nil (Wire.frame w), recv_frame hlen]
  have hne : w ≠ [] := by
    intro hnil
    have hhead := h.head
    rw [hnil] at hhead
    exact absurd hhead (by simp)
  have hattempt : TCPServer.attempt ex now w = .ok (ex, some r) := by
    rw [TCPServer.attempt, hrun]
  simp only [TCPServer.round, TCPServer.recvMessage, hrecv, h.trim, h.isExit, List.isEmpty_iff,
    if_neg hne, Bool.false_eq_true, if_false, hattempt, Outcome.bind_ok, hformat]
  rfl

/-- A connection on which `n` calls have been made and responded to, none of
which has read its response; these bytes are left on it. -/
structure Strewn (ex : Executor) (l : Link) (down : Bytes) (n : Nat) : Prop where
  session : l.session = ⟨ex, [], .running⟩
  pending : l.pending = false
  down : l.down = down
  calls : l.calls.length = n
  served : l.served.length = n
  reads : l.reads = []

/-- A call, the response to it, and what the call reads. -/
def exchange (w : Bytes) : List Move := [.call w none, .round 0 none, .receive]

/-- The link when the response has been sent. -/
def asked (l : Link) (w : Bytes) : Link :=
  { l with
    down := l.down ++ Wire.frame (complaint w)
    pending := true
    calls := l.calls ++ [w]
    served := l.served ++ [(w, some (complaint w))] }

theorem Strewn.run_exchange (h : Strewn ex l down n) (hw : Stray w)
    (hlen : w.length ≤ Wire.maxMessage) :
    Actions.runAll Link.step l (exchange w) = .ok ((asked l w).receive, [(), (), ()]) := by
  have hcall : l.step (.call w none) = .ok ({ l with
      session := ⟨ex, Wire.frame w, .running⟩
      pending := true
      calls := l.calls ++ [w] }, ()) := by
    rw [Link.step, Link.call, h.pending, if_neg (by simp), h.session, hw.cString]
    rfl
  have hround : Link.step { l with
      session := ⟨ex, Wire.frame w, .running⟩
      pending := true
      calls := l.calls ++ [w] } (.round 0 none) = .ok (asked l w, ()) := by
    have hrecv : Wire.recv (Wire.frame w) = (.message w, []) := by
      rw [← List.append_nil (Wire.frame w), recv_frame hlen]
    simp only [Link.step, Link.round, Status.serving, if_true, hw.round hlen, Outcome.bind_ok,
      TCPServer.recvMessage, hrecv, asked, h.session]
    rfl
  exact Actions.runAll_cons hcall (Actions.runAll_cons hround (Actions.runAll_single rfl))

/-- A length that cannot be one: the call fails, and the bytes behind the four
it has read stay. -/
theorem Strewn.refused (h : Strewn ex l down n) (hw : Stray w) (hlen : w.length ≤ Wire.maxMessage)
    (hrecv : Wire.recv (down ++ Wire.frame (complaint w)) = (.refused, rest)) :
    ∃ l' rs, Actions.runAll Link.step l (exchange w) = .ok (l', rs) ∧
      Strewn ex l' rest (n + 1) := by
  refine ⟨_, _, h.run_exchange hw hlen, ?_⟩
  have hreceive : (asked l w).receive = { asked l w with down := rest, pending := false } := by
    simp only [Link.receive, Client.wireRecv, asked, if_true, h.down, hrecv]
  rw [hreceive]
  exact ⟨h.session, rfl, rfl, by simp [asked, h.calls], by simp [asked, h.served], h.reads⟩

/-- What is left of a response of text is taken apart by the next calls. -/
theorem Strewn.drained (hw : Stray w) (hlen : w.length ≤ Wire.maxMessage) {left : Bytes} {k : Nat}
    (h : Strewn ex l (left ++ rest) n) (hleft : left.length = 4 * k) (hz : ∀ c ∈ left, c ≠ 0) :
    ∃ l' rs, Actions.runAll Link.step l (List.replicate k (exchange w)).flatten = .ok (l', rs) ∧
      Strewn ex l' (rest ++ (List.replicate k (Wire.frame (complaint w))).flatten) (n + k) := by
  induction k generalizing l left rest n with
  | zero =>
      rw [List.length_eq_zero_iff.mp hleft, List.nil_append] at h
      exact ⟨l, [], rfl, by simpa using h⟩
  | succ k ih =>
      obtain ⟨a, b, c, d, left, rfl⟩ : ∃ a b c d left', left = a :: b :: c :: d :: left' := by
        match left, hleft with
        | a :: b :: c :: d :: left', _ => exact ⟨a, b, c, d, left', rfl⟩
      obtain ⟨l₁, rs₁, hrun₁, h₁⟩ := h.refused hw hlen
        (recv_text (hz a List.mem_cons_self) b c d (left ++ rest ++ Wire.frame (complaint w)))
      rw [List.append_assoc] at h₁
      obtain ⟨l', rs', hrun, h'⟩ := ih h₁ (by simp only [List.length_cons] at hleft; omega)
        fun x hx => hz x (by simp [hx])
      refine ⟨l', rs₁ ++ rs', ?_, ?_⟩
      · rw [List.replicate_succ, List.flatten_cons]
        exact Actions.runAll_append hrun₁ hrun
      · rw [List.replicate_succ, List.flatten_cons, ← List.append_assoc,
          Nat.add_comm k 1, ← Nat.add_assoc]
        exact h'

/-- A call that finds an earlier response on the connection takes it for its
own. -/
theorem Strewn.misread {msg : Bytes} (h : Strewn ex l (Wire.frame msg ++ rest) n) (hw : Stray w)
    (hlen : w.length ≤ Wire.maxMessage) (hmsg : msg.length ≤ Wire.maxMessage)
    (hne : msg ≠ complaint w) :
    ∃ l' rs, Actions.runAll Link.step l (exchange w) = .ok (l', rs) ∧ ¬ Paired l' := by
  refine ⟨_, _, h.run_exchange hw hlen, fun hpaired => ?_⟩
  have hreceive : (asked l w).receive = { asked l w with
      down := rest ++ Wire.frame (complaint w)
      pending := false
      reads := [(n, msg)] } := by
    simp only [Link.receive, Client.wireRecv, asked, if_true, h.down, List.append_assoc,
      recv_frame hmsg, h.reads, List.length_append, h.calls, List.length_singleton,
      Nat.add_sub_cancel, List.nil_append]
  rw [hreceive] at hpaired
  obtain ⟨sql, -, hserved⟩ := hpaired n msg List.mem_cons_self
  have hlast : (l.served ++ [(w, some (complaint w))])[n]? = some (w, some (complaint w)) := by
    rw [← h.served, List.getElem?_concat_length]
  have hsame := hserved.symm.trans hlast
  simp only [Option.some.injEq, Prod.mk.injEq] at hsame
  exact hne hsame.2

/-- A word whose response is too long, words until what is left of it has been
read, and one more: the last call reads the response to the second. -/
def unpairing (n k : Nat) : List Move :=
  exchange (List.replicate n 120) ++ ((List.replicate k (exchange [120])).flatten ++ exchange [121])

theorem unpairing_unpairs (ex : Executor) {n k : Nat} (hn : n ≤ Wire.maxMessage)
    (hlong : Wire.maxMessage < n + 87) (hk : n + 87 = 4 * k) :
    ∃ l rs, Actions.runAll Link.step (Link.opened ex) (unpairing n k) = .ok (l, rs) ∧
      ¬ Paired l := by
  have hmax : Wire.maxMessage = 10485760 := rfl
  have hx : Stray [120] := ⟨.inl rfl, by decide⟩
  have hy : Stray [121] := ⟨.inr rfl, by decide⟩
  have hw : Stray (List.replicate n 120) := stray_replicate (by omega)
  have hlen : (List.replicate n (120 : UInt8)).length ≤ Wire.maxMessage := by
    rwa [List.length_replicate]
  have hresp := complaint_length (List.replicate n 120)
  rw [List.length_replicate] at hresp
  have h₀ : Strewn ex (Link.opened ex) [] 0 := ⟨rfl, rfl, rfl, rfl, rfl, rfl⟩
  have hrecv : Wire.recv ([] ++ Wire.frame (complaint (List.replicate n 120))) =
      (.refused, complaint (List.replicate n 120)) := by
    have hrefused := @recv_long (complaint (List.replicate n 120)) [] (by omega) (by omega)
    rwa [List.append_nil, List.append_nil] at hrefused
  obtain ⟨l₁, rs₁, hrun₁, h₁⟩ := h₀.refused hw hlen hrecv
  rw [← List.append_nil (complaint _)] at h₁
  obtain ⟨l₂, rs₂, hrun₂, h₂⟩ := Strewn.drained hx (by decide) h₁ (hresp.trans hk)
    (zero_notMem_complaint hw)
  obtain ⟨k, rfl⟩ : ∃ k', k = k' + 1 := ⟨k - 1, by omega⟩
  rw [List.nil_append, List.replicate_succ, List.flatten_cons] at h₂
  obtain ⟨l₃, rs₃, hrun₃, h₃⟩ := h₂.misread hy (by decide) (by decide +kernel)
    (by decide +kernel)
  exact ⟨l₃, _, Actions.runAll_append hrun₁ (Actions.runAll_append hrun₂ hrun₃), h₃⟩

end Strewn

section Runs

attribute [local instance] noDoubles

end Runs

end FlexQL.Proofs
