import FlexQL.Lib.Actions
import FlexQL.Spec.Client
import FlexQL.Spec.Executor

/-!
# What of an answer reaches the callback

The client cuts a response at newlines and its lines at tabs. Nothing it hands
to the callback has a separator or a zero byte in it, and an empty line is no
row to it; for texts that do not run into that, everything comes back.
-/

namespace FlexQL.Proofs

open Lib FlexQL.Ref FlexQL.Spec

/-! ## The lines of a response -/

section Lines

variable {σ : Type} {callback : Client.Callback σ} {names : List Bytes}

/-- The values the client takes from a line. -/
def valuesOf (n : Nat) (line : Bytes) : List Bytes :=
  ((Fields.pad n (Fields.pieces 9 line)).take n).map Client.cString

theorem cString_eq {s : Bytes} (h : 0 ∉ s) : Client.cString s = s := by
  rw [Client.cString, List.takeWhile_eq_self_iff]
  intro c hc
  rw [decide_eq_true_eq]
  exact fun h0 => h (h0 ▸ hc)

theorem zero_notMem_cString (s : Bytes) : 0 ∉ Client.cString s := by
  intro h
  simpa using List.mem_takeWhile_imp h

theorem forLines_eq (lines : List Bytes) (arg : σ) :
    Client.forLines callback names lines arg = invoke callback (names.map Client.cString)
      ((lines.filter fun line => !line.isEmpty).map (valuesOf names.length)) arg := by
  induction lines generalizing arg with
  | nil => rfl
  | cons line lines ih =>
      rw [Client.forLines]
      cases hline : line.isEmpty with
      | true =>
          rw [if_pos rfl, List.filter_cons_of_neg (by simp [hline])]
          exact ih arg
      | false =>
          rw [if_neg (by simp), List.filter_cons_of_pos (by simp [hline]), List.map_cons, invoke]
          simp only [ih]
          rfl

/-- A callback that keeps what it is called with. -/
def keepCalls : Client.Callback (List (List Bytes × List Bytes)) :=
  fun calls vals cols => (calls ++ [(vals, cols)], true)

theorem invoke_keepCalls (rows : List (List Bytes)) (calls : List (List Bytes × List Bytes)) :
    invoke keepCalls names rows calls = calls ++ rows.map fun row => (row, names) := by
  induction rows generalizing calls with
  | nil => rw [invoke, List.map_nil, List.append_nil]
  | cons row rows ih =>
      rw [List.map_cons, List.append_cons]
      exact ih _

theorem mem_valuesOf {n : Nat} {line v : Bytes} (h : v ∈ valuesOf n line) {c : UInt8}
    (hc : c ∈ v) : c ∈ line ∧ c ≠ 9 ∧ c ≠ 0 := by
  obtain ⟨p, hp, rfl⟩ := List.mem_map.mp h
  have hcp : c ∈ p := (List.takeWhile_sublist _).subset hc
  rcases List.mem_append.mp (List.mem_of_mem_take hp) with hp | hp
  · exact ⟨Fields.mem_of_mem_pieces hp hcp, fun h9 => Fields.notMem_of_mem_pieces hp (h9 ▸ hcp),
      fun h0 => zero_notMem_cString p (h0 ▸ hc)⟩
  · rw [List.eq_of_mem_replicate hp] at hcp
    exact absurd hcp (by simp)

/-- Nothing the client calls back with has a separator in it. -/
theorem plain_of_mem_valuesOf {n : Nat} {line v : Bytes} (hline : 10 ∉ line)
    (h : v ∈ valuesOf n line) : Plain v := by
  refine ⟨fun h9 => ?_, fun h10 => ?_, fun h0 => ?_⟩
  · exact (mem_valuesOf h h9).2.1 rfl
  · exact hline (mem_valuesOf h h10).1
  · exact (mem_valuesOf h h0).2.2 rfl

theorem valuesOf_intercalate {texts : List Bytes} (h : ∀ text ∈ texts, Plain text) :
    valuesOf texts.length (List.intercalate [9] texts) = texts := by
  rw [valuesOf, Fields.pad_pieces_intercalate fun text ht => (h text ht).1,
    List.take_of_length_le (Nat.le_refl _),
    List.map_congr_left fun text ht => cString_eq (h text ht).2.2, List.map_id']

theorem intercalate_eq_nil {sep : UInt8} {texts : List Bytes}
    (h : List.intercalate [sep] texts = []) : texts = [] ∨ texts = [[]] := by
  cases texts with
  | nil => exact .inl rfl
  | cons text rest =>
      cases rest with
      | nil =>
          rw [List.intercalate_singleton] at h
          rw [h]
          exact .inr rfl
      | cons next rest => exact absurd h (by simp [List.intercalate_cons_cons])

end Lines

/-! ## Responses -/

section Headers

variable {r : QueryResult}

/-- A header has no byte that a name or a tab does not have. -/
theorem notMem_header (h : IsAnswer r) {c : UInt8} (hc : c ≠ 9)
    (hname : ¬ (Bytes.isAlnum c = true ∨ c = 95 ∨ c = 46)) :
    c ∉ List.intercalate [9] r.columnNames := by
  intro hmem
  rcases Fields.mem_intercalate hmem with h9 | ⟨name, hn, hmem⟩
  · exact hc h9
  · exact hname ((h.names name hn).2 c hmem)

theorem notMem_name (h : IsAnswer r) {c : UInt8}
    (hname : ¬ (Bytes.isAlnum c = true ∨ c = 95 ∨ c = 46)) :
    ∀ name ∈ r.columnNames, c ∉ name :=
  fun name hn hmem => hname ((h.names name hn).2 c hmem)

theorem not_error_response {p rest : Bytes} (hcolon : 58 ∉ p) :
    (p ++ 10 :: rest).take 7 ≠ Bytes.lit "ERROR: " := by
  intro h
  by_cases hlen : p.length < 7
  · have hmem : (10 : UInt8) ∈ (p ++ 10 :: rest).take 7 := by
      rw [List.take_append, List.mem_append]
      obtain ⟨n, hn⟩ : ∃ n, 7 - p.length = n + 1 := ⟨6 - p.length, by omega⟩
      rw [hn, List.take_succ_cons]
      exact .inr List.mem_cons_self
    rw [h] at hmem
    exact absurd hmem (by decide)
  · rw [List.take_append_of_le_length (by omega)] at h
    have hmem : (58 : UInt8) ∈ p.take 7 := by
      rw [h]
      decide
    exact hcolon (List.mem_of_mem_take hmem)

end Headers

section Responses

variable [FloatLib] {r : QueryResult}

/-- The lines of the rows. -/
def rowLines (r : QueryResult) : List Bytes := (shownRows r).map (List.intercalate [9])

/-- What the client sees of the lines of the rows. -/
def seenLines (r : QueryResult) : List Bytes :=
  (Fields.pieces 10 ((rowLines r).flatMap fun line => line ++ [10])).filter fun line =>
    !line.isEmpty

theorem formatResult_answer (h : IsAnswer r) : TCPServer.formatResult r =
    List.intercalate [9] r.columnNames ++ 10 :: (rowLines r).flatMap fun line => line ++ [10] := by
  have hcols : r.columnNames.isEmpty = false := by simpa using h.columns
  simp only [TCPServer.formatResult, h.success, hcols, rowLines, shownRows, List.flatMap_map,
    Bool.not_true, Bool.not_false, Bool.false_eq_true, if_false, if_true, List.append_assoc,
    List.singleton_append]

/-- The client calls back with the values of the lines that are not empty. -/
theorem decode_answer {σ : Type} (h : IsAnswer r) (callback : Client.Callback σ) (arg : σ) :
    Client.decode callback (TCPServer.formatResult r) arg = .ok (invoke callback r.columnNames
      ((seenLines r).map (valuesOf r.columnNames.length)) arg) := by
  have hzero := notMem_name h (c := 0) (by decide)
  have hnames : r.columnNames.map Client.cString = r.columnNames := by
    rw [List.map_congr_left fun name hn => cString_eq (hzero name hn), List.map_id']
  have hheader : Fields.pieces 9 (List.intercalate [9] r.columnNames) = r.columnNames :=
    Fields.pieces_intercalate (notMem_name h (by decide)) fun name hn => (h.names name hn).1
  have hlines := @forLines_eq σ callback r.columnNames
    (Fields.pieces 10 ((rowLines r).flatMap fun line => line ++ [10])) arg
  rw [hnames] at hlines
  rw [formatResult_answer h, Client.decode,
    if_neg (not_error_response (notMem_header h (by decide) (by decide))),
    Fields.pieces_append (notMem_header h (by decide) (by decide)), seenLines, ← hlines]
  cases Fields.pieces 10 ((rowLines r).flatMap fun line => line ++ [10]) with
  | nil => rfl
  | cons line lines => simp only [hheader]

/-- The client is to be given what it takes from the lines. -/
theorem decode_iff (h : IsAnswer r) :
    (∀ (σ : Type) (callback : Client.Callback σ) (arg : σ),
      Client.decode callback (TCPServer.formatResult r) arg =
        .ok (invoke callback r.columnNames (shownRows r) arg)) ↔
    (seenLines r).map (valuesOf r.columnNames.length) = shownRows r := by
  constructor
  · intro hall
    have hkept := hall _ keepCalls []
    rw [decode_answer h, Except.ok.injEq, invoke_keepCalls, invoke_keepCalls, List.nil_append,
      List.nil_append] at hkept
    exact List.map_injective_iff.mpr (fun row row' hrow => (Prod.mk.inj hrow).1) hkept
  · intro hseen σ callback arg
    rw [decode_answer h, hseen]

theorem seenLines_plain (h : ∀ row ∈ shownRows r, ∀ text ∈ row, Plain text) :
    seenLines r = (rowLines r).filter fun line => !line.isEmpty := by
  rw [seenLines, Fields.pieces_flatMap]
  intro line hline hmem
  obtain ⟨row, hrow, rfl⟩ := List.mem_map.mp hline
  rcases Fields.mem_intercalate hmem with h9 | ⟨text, htext, hmem⟩
  · exact absurd h9 (by decide)
  · exact (h row hrow text htext).2.1 hmem

theorem length_of_mem_shownRows (h : IsAnswer r) {texts : List Bytes} (ht : texts ∈ shownRows r) :
    texts.length = r.columnNames.length := by
  obtain ⟨row, hrow, rfl⟩ := List.mem_map.mp ht
  rw [List.length_map, h.rows row hrow]

/-- The lines are told apart from no row by what is in them. -/
theorem rowLines_filled_iff (h : IsAnswer r) :
    (∀ line ∈ rowLines r, line ≠ []) ↔
      (r.columnNames.length = 1 → ∀ row ∈ shownRows r, ∀ text ∈ row, text ≠ []) := by
  constructor
  · intro hall hone row hrow text htext hnil
    obtain ⟨only, rfl⟩ := List.length_eq_one_iff.mp ((length_of_mem_shownRows h hrow).trans hone)
    rw [List.mem_singleton] at htext
    refine hall _ (List.mem_map_of_mem hrow) ?_
    rw [List.intercalate_singleton, ← htext, hnil]
  · intro hfilled line hline hnil
    obtain ⟨row, hrow, rfl⟩ := List.mem_map.mp hline
    have hlen := length_of_mem_shownRows h hrow
    rcases intercalate_eq_nil hnil with rfl | rfl
    · exact h.columns (List.length_eq_zero_iff.mp hlen.symm)
    · exact hfilled hlen.symm _ hrow [] (by simp) rfl

/-- The callback is called once for each row, with the texts of its values and
the names of the columns, exactly if the rows can be shown. -/
theorem decode_formatResult (h : IsAnswer r) :
    (∀ (σ : Type) (callback : Client.Callback σ) (arg : σ),
      Client.decode callback (TCPServer.formatResult r) arg =
        .ok (invoke callback r.columnNames (shownRows r) arg)) ↔ Showable r := by
  rw [decode_iff h]
  constructor
  · intro hseen
    have hplain : ∀ row ∈ shownRows r, ∀ text ∈ row, Plain text := by
      intro row hrow text htext
      rw [← hseen] at hrow
      obtain ⟨line, hline, rfl⟩ := List.mem_map.mp hrow
      exact plain_of_mem_valuesOf (Fields.notMem_of_mem_pieces (List.mem_filter.mp hline).1) htext
    refine ⟨hplain, (rowLines_filled_iff h).mp ?_⟩
    -- As many lines are seen as there are rows, so none of them is empty.
    have hlen := congrArg List.length hseen
    rw [seenLines_plain hplain, List.length_map, ← List.length_map (List.intercalate [9])] at hlen
    intro line hline
    simpa using List.length_filter_eq_length_iff.mp hlen line hline
  · intro hshow
    have hfilled := (rowLines_filled_iff h).mpr hshow.filled
    rw [seenLines_plain hshow.plain, List.filter_eq_self.mpr (by simpa using hfilled), rowLines,
      List.map_map]
    refine (List.map_congr_left fun row hrow => ?_).trans (List.map_id _)
    rw [Function.comp_apply, ← length_of_mem_shownRows h hrow]
    exact valuesOf_intercalate (hshow.plain row hrow)

end Responses

section Runs

attribute [local instance] noDoubles

theorem decode_formatResult_two :
    let r := QueryResult.answer ⟨[Bytes.lit "ID", Bytes.lit "NAME"],
      [[.int 1, .varchar (Bytes.lit "Ada")], [.int 2, .varchar []]]⟩
    (IsAnswer r ∧ Showable r) ∧
      Client.decode keepCalls (TCPServer.formatResult r) [] =
        .ok (invoke keepCalls r.columnNames (shownRows r) []) := by
  intro r
  have hanswer : IsAnswer r := ⟨rfl, by decide, by decide, by decide⟩
  have hshow : Showable r := ⟨by decide +kernel, by decide⟩
  exact ⟨⟨hanswer, hshow⟩, (decode_formatResult hanswer).mpr hshow _ keepCalls []⟩

/-- A value with a tab in it comes back without what is behind the tab. -/
theorem tab_cuts_value : ∃ ex rs r,
    Actions.runAll (fun ex c => Executor.executeSql ex c.1 c.2) Executor.new
      [(0, Bytes.lit "CREATE TABLE t (s VARCHAR(8))"),
        (0, Bytes.lit "INSERT INTO t VALUES ('a\tb')")] = .ok (ex, rs) ∧
    (ex.executeSql 0 (Bytes.lit "SELECT * FROM t")).map Prod.snd = .ok r ∧ IsAnswer r ∧
    shownRows r = [[Bytes.lit "a\tb"]] ∧
    Client.decode keepCalls (TCPServer.formatResult r) [] =
      .ok [([Bytes.lit "a"], [Bytes.lit "S"])] := by
  have hrun : (do
      let x ← Actions.runAll (fun ex c => Executor.executeSql ex c.1 c.2) Executor.new
        [(0, Bytes.lit "CREATE TABLE t (s VARCHAR(8))"),
          (0, Bytes.lit "INSERT INTO t VALUES ('a\tb')")]
      let r ← (x.1.executeSql 0 (Bytes.lit "SELECT * FROM t")).map Prod.snd
      .ok r : Outcome _) =
        .ok (QueryResult.answer ⟨[Bytes.lit "S"], [[.varchar (Bytes.lit "a\tb")]]⟩) := by
    decide +kernel
  obtain ⟨⟨ex, rs⟩, hx, hrun⟩ := Outcome.bind_eq_ok.mp hrun
  obtain ⟨r, hr, hrun⟩ := Outcome.bind_eq_ok.mp hrun
  obtain rfl := Except.ok.inj hrun
  exact ⟨ex, rs, _, hx, hr, ⟨rfl, by decide, by decide, by decide⟩, rfl, by decide +kernel⟩

end Runs

end FlexQL.Proofs
