import FlexQL.Proofs.Reach
import FlexQL.Proofs.Transparency
import FlexQL.Spec.Concurrent

/-!
# Queries see the writes acknowledged before them

Once an `INSERT` has dropped the answers for its table, every answer for the
table that is in the cache, or is about to be put there, comes from a scan
that saw its rows: rows are only added, and the guard keeps out the queries
that had scanned before and had not stored yet. This is the invariant of the
runs; `dropped` are the writes it speaks of.

Uninterrupted, the steps of a call are what `exec_select` and `exec_insert`
do.
-/

namespace FlexQL.Proofs

open Lib FlexQL.Ref FlexQL.Spec

/-! ## Tables grow -/

section Grow

variable {tables tables' : Finmap fun _ : Bytes => Table} {w : Written}

/-- Every table is there still, at a later time. -/
def Grew (tables tables' : Finmap fun _ : Bytes => Table) : Prop :=
  ∀ name t, tables.lookup name = some t → ∃ t', tables'.lookup name = some t' ∧ Later t t'

theorem later_rows {t t' : Table} (h : Later t t') : t.rows.length ≤ t'.rows.length := by
  induction h with
  | refl => exact Nat.le_refl _
  | tail _ hins ih =>
      obtain ⟨now, row, e, hins⟩ := hins
      rcases insert_cases hins with ⟨-, rfl, -⟩ | ⟨-, -, -, hrows, -⟩
      · exact ih
      · rw [hrows]
        exact Nat.le_succ_of_le ih

theorem grew_refl (tables : Finmap fun _ : Bytes => Table) : Grew tables tables :=
  fun _ t ht => ⟨t, ht, .refl⟩

theorem contains_grew (h : Contains tables w) (hg : Grew tables tables') : Contains tables' w := by
  obtain ⟨t, ht, hlater⟩ := h
  obtain ⟨t', ht', hlater'⟩ := hg _ _ ht
  exact ⟨t', ht', hlater.trans hlater'⟩

theorem grew_insert {name : Bytes} {t t' : Table} (ht : tables.lookup name = some t)
    (hlater : Later t t') : Grew tables (tables.insert name t') := by
  intro name' t₂ ht₂
  by_cases hn : name' = name
  · subst hn
    obtain rfl := Option.some.inj (ht.symm.trans ht₂)
    exact ⟨t', Finmap.lookup_insert _, hlater⟩
  · exact ⟨t₂, (Finmap.lookup_insert_of_ne _ hn).trans ht₂, .refl⟩

theorem grew_create {ex ex' : Executor} {r : QueryResult} {stmt : CreateTableStmt}
    (h : ex.execCreateTable stmt = .ok (ex', r)) :
    Grew ex.tables ex'.tables ∧ ex'.cache = ex.cache := by
  rcases execCreateTable_cases h with ⟨-, rfl⟩ | ⟨-, hnone, schema, table, -, -, rfl⟩
  · exact ⟨grew_refl _, rfl⟩
  · refine ⟨fun name t ht => ⟨t, ?_, .refl⟩, rfl⟩
    have hn : name ≠ Bytes.toUpper stmt.tableName := by
      intro hn
      rw [← hn, ht] at hnone
      exact absurd hnone nofun
    exact (Finmap.lookup_insert_of_ne _ hn).trans ht

end Grow

/-! ## A call by itself -/

theorem set_last (l : List Progress) (c c' : Progress) :
    (l ++ [c]).set l.length c' = l ++ [c'] := by
  rw [List.set_append_right _ _ (Nat.le_refl _), Nat.sub_self]
  rfl

section Alone

variable [FloatLib] {s : Shared} {now : Int64}

/-- The next step of call `i`, so many times over. -/
def advances (now : Int64) (i : Nat) : Nat → Shared → Outcome Shared
  | 0, s => .ok s
  | k + 1, s => do
      let s ← s.step now (.advance i)
      advances now i k s

theorem step_last {l : List Progress} {c : Progress} (hs : s.calls = l ++ [c]) :
    s.step now (.advance l.length) = s.advance now l.length c := by
  rw [Shared.step, hs, List.getElem?_concat_length]

/-- A query that is not interrupted does what `exec_select` does. -/
theorem execSelect_steps (s : Shared) (now : Int64) (stmt : SelectStmt) (rawSql : Bytes) :
    Outcome.Matches (fun x s' => s'.ex = x.1 ∧ ∃ answer, x.2 = resultOf answer ∧
      s'.calls = s.calls ++ [.answered stmt rawSql s.written answer])
      (s.ex.execSelect now stmt rawSql)
      (s.step now (.select stmt rawSql) >>= advances now s.calls.length 2) := by
  rw [Executor.execSelect, Shared.step]
  cases Executor.lookupCache s.ex.cache rawSql with
  | error fault => rfl
  | ok x =>
      obtain ⟨cache, cached⟩ := x
      simp only [Outcome.bind_ok, advances]
      cases cached with
      | some r => 
          rw [step_last rfl]
          simp only [Shared.advance, Outcome.bind_ok]
          rw [step_last rfl]
          exact ⟨rfl, .ok r, rfl, rfl⟩
      | none =>
          rw [step_last rfl, Shared.advance]
          cases Executor.selectRows s.ex.tables now stmt with
          | error fault => rfl
          | ok answer =>
              simp only [Outcome.bind_ok, set_last]
              rw [step_last rfl]
              cases answer with
              | error e => exact ⟨rfl, .error e, rfl, rfl⟩
              | ok r =>
                  simp only [Shared.advance]
                  cases Executor.fillCache cache rawSql r with
                  | error fault => rfl
                  | ok cache' =>
                      simp only [Outcome.bind_ok, set_last]
                      exact ⟨rfl, .ok r, rfl, rfl⟩

theorem advances_add (i a b : Nat) (s : Shared) :
    advances now i (a + b) s = advances now i a s >>= advances now i b := by
  induction a generalizing s with
  | zero => rw [Nat.zero_add]; rfl
  | succ a ih =>
      rw [Nat.succ_add, advances, advances]
      cases s.step now (.advance i) with
      | error fault => rfl
      | ok s' => exact ih s'

theorem advances_refused {l : List Progress} {e : Bytes} (hs : s.calls = l ++ [.refused e])
    (k : Nat) : advances now l.length k s = .ok s := by
  induction k with
  | zero => rfl
  | succ k ih => rw [advances, step_last hs, Shared.advance, Outcome.bind_ok, ih]

/-- Where the loop over the tuples leaves its call. -/
def looped (name : Bytes) : Table × Nat × Option Bytes → Progress
  | (_, _, some e) => .refused e
  | (t, n, none) => .inserting ⟨name, t⟩ [] n

/-- The loop over the tuples, step by step. -/
theorem insertTuples_steps {l : List Progress} {left : List (List Bytes)} {name : Bytes}
    {t : Table} {n : Nat} (hs : s.calls = l ++ [.inserting ⟨name, t⟩ left n])
    (ht : s.ex.tables.lookup name = some t) :
    Outcome.Matches (fun x s' => s'.calls = l ++ [looped name x] ∧
        s'.ex = { s.ex with tables := s.ex.tables.insert name x.1 })
      (Executor.insertTuples now left t n) (advances now l.length left.length s) := by
  induction left generalizing s t n with
  | nil => exact ⟨hs, by rw [insert_lookup_self ht]⟩
  | cons rowVals left ih =>
      rw [Executor.insertTuples, List.length_cons, advances, step_last hs, Shared.advance,
        Shared.insertTuple, ht]
      dsimp only
      cases Executor.parseTuple t.schema rowVals with
      | error e =>
          dsimp only
          rw [Outcome.bind_ok, hs, set_last, advances_refused rfl]
          exact ⟨rfl, by rw [insert_lookup_self ht]⟩
      | ok row =>
          dsimp only
          cases t.insert now row with
          | error fault => rfl
          | ok x =>
              obtain ⟨t', e⟩ := x
              simp only [Outcome.bind_ok, hs, set_last]
              cases e with
              | some e =>
                  dsimp only
                  rw [advances_refused rfl]
                  exact ⟨rfl, rfl⟩
              | none =>
                  refine (ih rfl (Finmap.lookup_insert _)).imp fun y s' hy => ⟨hy.1, ?_⟩
                  rw [hy.2, Finmap.insert_insert]

/-- What the caller of `exec_insert` gets. -/
def replyOf : Progress → Option QueryResult
  | .acknowledged _ n => some (.done (Bytes.ofNat n ++ Bytes.lit " rows inserted"))
  | .refused e => some (.failure e)
  | _ => none

/-- An `INSERT` that is not interrupted does what `exec_insert` does. -/
theorem execInsert_steps (s : Shared) (now : Int64) (stmt : InsertStmt) :
    Outcome.Matches (fun x s' => s'.ex = x.1 ∧ ∃ c, s'.calls = s.calls ++ [c] ∧
        replyOf c = some x.2)
      (s.ex.execInsert now stmt)
      (s.step now (.insert stmt) >>=
        advances now s.calls.length (stmt.batchValues.length + 2)) := by
  rw [Executor.execInsert, Shared.step]
  simp only [Outcome.bind_ok]
  cases ht : s.ex.tables.lookup (Bytes.toUpper stmt.tableName) with
  | none =>
      dsimp only
      rw [advances_refused rfl]
      exact ⟨rfl, _, rfl, rfl⟩
  | some t =>
      rw [advances_add]
      have hcalls : ({ s with calls := s.calls ++ [.inserting ⟨Bytes.toUpper stmt.tableName, t⟩
          stmt.batchValues 0] } : Shared).calls = _ := rfl
      refine (insertTuples_steps hcalls ht).bind fun x s' ⟨hlast, hex⟩ => ?_
      obtain ⟨t', n, e⟩ := x
      cases e with
      | some e =>
          rw [advances_refused hlast]
          exact ⟨hex, _, hlast, rfl⟩
      | none =>
          rw [advances, step_last hlast]
          simp only [looped, Shared.advance, hex]
          cases s.ex.cache.invalidateTable (Bytes.toUpper stmt.tableName) with
          | error fault => rfl
          | ok cache =>
              simp only [Outcome.bind_ok, hlast, set_last]
              rw [advances, step_last rfl, Shared.advance]
              simp only [set_last]
              exact ⟨rfl, _, rfl, rfl⟩

end Alone

/-! ## The invariant -/

section Invariant

variable [FloatLib]

/-- The answer comes from a scan that saw the write. -/
def Fresh (scans : List Scan) (w : Written) (key : Bytes)
    (answer : Except Bytes CachedResult) : Prop :=
  ∃ scan ∈ scans, LRUCache.normalize scan.rawSql = key ∧
    Bytes.toUpper scan.stmt.tableName = Bytes.toUpper w.tableName ∧ Contains scan.tables w ∧
    Executor.selectRows scan.tables scan.now scan.stmt = .ok answer

/-- What holds of a call. -/
def ProgressOk (s : Shared) (dropped : List Written) : Progress → Prop
  | .missed stmt rawSql before => before ⊆ dropped ∧
      (rawSql = [] ∨ takenToRead stmt.tableName (LRUCache.normalize rawSql))
  | .scanned scan before r => before ⊆ dropped ∧ scan ∈ s.scans ∧
      (scan.rawSql = [] ∨ takenToRead scan.stmt.tableName (LRUCache.normalize scan.rawSql)) ∧
      Executor.selectRows scan.tables scan.now scan.stmt = .ok (.ok r) ∧
      ∀ w ∈ dropped, Bytes.toUpper scan.stmt.tableName = Bytes.toUpper w.tableName →
        Contains scan.tables w
  | .answered stmt rawSql before answer => ∀ w ∈ before,
      w.tableName = Bytes.toUpper stmt.tableName →
        Fresh s.scans w (LRUCache.normalize rawSql) answer
  | .inserting w _ _ => Contains s.ex.tables w
  | .invalidated w _ => w ∈ dropped
  | .acknowledged _ _ => True
  | .refused _ => True

structure SharedInv (dropped : List Written) (s : Shared) : Prop where
  present : ∀ w ∈ dropped, Contains s.ex.tables w
  written : s.written ⊆ dropped
  entries : Keeps (fun key r => ∀ w ∈ dropped, takenToRead w.tableName key →
    Fresh s.scans w key (.ok r)) s.ex.cache
  calls : ∀ c ∈ s.calls, ProgressOk s dropped c

variable {s s' : Shared} {dropped : List Written} {w : Written} {now : Int64} {i : Nat}

theorem Fresh.mono {scans scans' : List Scan} {key : Bytes} {answer : Except Bytes CachedResult}
    (h : Fresh scans w key answer) (hscans : scans ⊆ scans') : Fresh scans' w key answer := by
  obtain ⟨scan, hscan, h⟩ := h
  exact ⟨scan, hscans hscan, h⟩

theorem ProgressOk.mono {c : Progress} (h : ProgressOk s dropped c) (hscans : s.scans ⊆ s'.scans)
    (hg : Grew s.ex.tables s'.ex.tables) : ProgressOk s' dropped c := by
  cases c with
  | missed stmt rawSql before => exact h
  | scanned scan before r => exact ⟨h.1, hscans h.2.1, h.2.2⟩
  | answered stmt rawSql before answer => exact fun w hw hname => (h w hw hname).mono hscans
  | inserting w left n => exact contains_grew h hg
  | invalidated w n => exact h
  | acknowledged w n => trivial
  | refused e => trivial

/-- One more write whose answers are dropped. -/
theorem ProgressOk.drop {c : Progress} (h : ProgressOk s dropped c)
    (hw : ∀ scan before r, c = .scanned scan before r →
      Bytes.toUpper scan.stmt.tableName = Bytes.toUpper w.tableName → Contains scan.tables w) :
    ProgressOk s (w :: dropped) c := by
  cases c with
  | missed stmt rawSql before => exact ⟨fun _ hb => List.mem_cons_of_mem w (h.1 hb), h.2⟩
  | scanned scan before r =>
      refine ⟨fun _ hb => List.mem_cons_of_mem w (h.1 hb), h.2.1, h.2.2.1, h.2.2.2.1, ?_⟩
      exact List.forall_mem_cons.mpr ⟨hw scan before r rfl, h.2.2.2.2⟩
  | answered stmt rawSql before answer => exact h
  | inserting w left n => exact h
  | invalidated w' n => exact List.mem_cons_of_mem w h
  | acknowledged w n => trivial
  | refused e => trivial

/-- A step that adds scans and lets tables grow. The entries of the cache and
the call that moved are what is left to show. -/
theorem SharedInv.next (h : SharedInv dropped s) (hscans : s.scans ⊆ s'.scans)
    (hg : Grew s.ex.tables s'.ex.tables) (hwritten : s'.written ⊆ dropped)
    (hentries : Keeps (fun key r => ∀ w ∈ dropped, takenToRead w.tableName key →
      Fresh s.scans w key (.ok r)) s'.ex.cache)
    (hcalls : ∀ c ∈ s'.calls, c ∈ s.calls ∨ ProgressOk s' dropped c) : SharedInv dropped s' where
  present w hw := contains_grew (h.present w hw) hg
  written := hwritten
  entries := hentries.imp fun _ _ _ hf w hw ht => (hf w hw ht).mono hscans
  calls c hc := (hcalls c hc).elim (fun hc => (h.calls c hc).mono hscans hg) id

/-! ## The steps -/

theorem SharedInv.create {stmt : CreateTableStmt} (h : SharedInv dropped s)
    (hstep : s.step now (.create stmt) = .ok s') : SharedInv dropped s' := by
  obtain ⟨⟨ex, r⟩, hcreate, hstep⟩ := Outcome.bind_eq_ok.mp hstep
  obtain rfl := Except.ok.inj hstep
  have hex := grew_create hcreate
  exact h.next (fun _ hx => hx) hex.1 h.written (hex.2 ▸ h.entries) fun c hc => .inl hc

theorem SharedInv.insert {stmt : InsertStmt} (h : SharedInv dropped s)
    (hstep : s.step now (.insert stmt) = .ok s') : SharedInv dropped s' := by
  obtain rfl := Except.ok.inj hstep
  refine h.next (fun _ hx => hx) (grew_refl _) h.written h.entries fun c hc => ?_
  refine (List.mem_append.mp hc).imp_right fun hc => ?_
  rw [List.mem_singleton.mp hc]
  cases ht : s.ex.tables.lookup (Bytes.toUpper stmt.tableName) with
  | none => trivial
  | some t => exact ⟨t, ht, .refl⟩

theorem SharedInv.select {stmt : SelectStmt} {rawSql : Bytes} (h : SharedInv dropped s)
    (hguard : rawSql = [] ∨ takenToRead stmt.tableName (LRUCache.normalize rawSql))
    (hstep : s.step now (.select stmt rawSql) = .ok s') : SharedInv dropped s' := by
  obtain ⟨cache, cached, hlook, hcache, hhit⟩ := h.entries.lookupCache rawSql
  rw [Shared.step, hlook, Outcome.bind_ok] at hstep
  obtain rfl := Except.ok.inj hstep
  refine h.next (fun _ hx => hx) (grew_refl _) h.written hcache fun c hc => ?_
  refine (List.mem_append.mp hc).imp_right fun hc => ?_
  rw [List.mem_singleton.mp hc]
  cases cached with
  | none => exact ⟨h.written, hguard⟩
  | some r =>
      intro w hw hname
      rcases hguard with rfl | htaken
      · -- without a text nothing is looked up
        exact absurd (Except.ok.inj hlook) (by simp)
      · refine (hhit r rfl).2 w (h.written hw) ?_
        rwa [takenToRead, hname, Bytes.toUpper_idem, ← takenToRead]

theorem SharedInv.scan {stmt : SelectStmt} {rawSql : Bytes} {before : List Written}
    (h : SharedInv dropped s) (hcall : .missed stmt rawSql before ∈ s.calls)
    (hstep : s.advance now i (.missed stmt rawSql before) = .ok s') : SharedInv dropped s' := by
  obtain ⟨answer, hanswer, hstep⟩ := Outcome.bind_eq_ok.mp hstep
  obtain rfl := Except.ok.inj hstep
  obtain ⟨hbefore, hnamed⟩ := h.calls _ hcall
  refine h.next (List.subset_append_left _ _) (grew_refl _) h.written h.entries fun c hc => ?_
  refine (List.mem_or_eq_of_mem_set hc).imp_right ?_
  rintro rfl
  cases answer with
  | error e =>
      intro w hw hname
      refine ⟨_, List.mem_append_right _ (List.mem_singleton_self _), rfl, ?_,
        h.present w (hbefore hw), hanswer⟩
      rw [hname, Bytes.toUpper_idem]
  | ok r =>
      exact ⟨hbefore, List.mem_append_right _ (List.mem_singleton_self _), hnamed, hanswer,
        fun w hw _ => h.present w hw⟩

theorem SharedInv.put {scan : Scan} {before : List Written} {r : CachedResult}
    (h : SharedInv dropped s) (hcall : .scanned scan before r ∈ s.calls)
    (hstep : s.advance now i (.scanned scan before r) = .ok s') : SharedInv dropped s' := by
  obtain ⟨hbefore, hscan, hnamed, hanswer, hsaw⟩ := h.calls _ hcall
  obtain ⟨cache, hfill, hstep⟩ := Outcome.bind_eq_ok.mp hstep
  obtain rfl := Except.ok.inj hstep
  refine h.next (fun _ hx => hx) (grew_refl _) h.written ?_ fun c hc => ?_
  · rcases hnamed with hnil | htaken
    · rw [hnil] at hfill
      obtain rfl := Except.ok.inj hfill
      exact h.entries
    · have hnew : ∀ w ∈ dropped, takenToRead w.tableName (LRUCache.normalize scan.rawSql) →
          Fresh s.scans w (LRUCache.normalize scan.rawSql) (.ok r) := by
        intro w hw ht
        have hname : Bytes.toUpper scan.stmt.tableName = Bytes.toUpper w.tableName := by
          simp only [takenToRead, decide_eq_true_eq] at htaken ht
          exact Option.some.inj (htaken.symm.trans ht)
        exact ⟨scan, hscan, rfl, hname, hsaw w hw hname, hanswer⟩
      obtain ⟨cache', hfill', hcache⟩ := h.entries.fillCache hnew
      obtain rfl := Except.ok.inj (hfill.symm.trans hfill')
      exact hcache
  · refine (List.mem_or_eq_of_mem_set hc).imp_right ?_
    rintro rfl
    intro w hw hname
    have hname' : Bytes.toUpper scan.stmt.tableName = Bytes.toUpper w.tableName := by
      rw [hname, Bytes.toUpper_idem]
    exact ⟨scan, hscan, rfl, hname', hsaw w (hbefore hw) hname', hanswer⟩

theorem SharedInv.insertTuple {rowVals : List Bytes} {left : List (List Bytes)} {n : Nat}
    (h : SharedInv dropped s) (hstep : s.insertTuple now i w rowVals left n = .ok s') :
    SharedInv dropped s' := by
  rw [Shared.insertTuple] at hstep
  split at hstep
  · exact absurd hstep nofun
  · next t ht =>
      split at hstep
      · obtain rfl := Except.ok.inj hstep
        refine h.next (fun _ hx => hx) (grew_refl _) h.written h.entries fun c hc => ?_
        refine (List.mem_or_eq_of_mem_set hc).imp_right ?_
        rintro rfl
        trivial
      · obtain ⟨⟨t', e⟩, hins, hstep⟩ := Outcome.bind_eq_ok.mp hstep
        obtain rfl := Except.ok.inj hstep
        have hg := grew_insert ht (.single ⟨now, _, e, hins⟩)
        refine h.next (fun _ hx => hx) hg h.written h.entries fun c hc => ?_
        refine (List.mem_or_eq_of_mem_set hc).imp_right ?_
        rintro rfl
        cases e with
        | some e => trivial
        | none => exact ⟨t', Finmap.lookup_insert _, .refl⟩

theorem SharedInv.invalidate {n : Nat} (h : SharedInv dropped s)
    (hcall : .inserting w [] n ∈ s.calls)
    (hguard : ∀ scan before r, .scanned scan before r ∈ s.calls →
      Bytes.toUpper scan.stmt.tableName = Bytes.toUpper w.tableName → Contains scan.tables w)
    (hstep : s.advance now i (.inserting w [] n) = .ok s') : SharedInv (w :: dropped) s' := by
  obtain ⟨cache, hinv, hstep⟩ := Outcome.bind_eq_ok.mp hstep
  obtain rfl := Except.ok.inj hstep
  obtain ⟨cache', hinv', hcache⟩ := h.entries.invalidateTable w.tableName
  obtain rfl := Except.ok.inj (hinv.symm.trans hinv')
  refine ⟨List.forall_mem_cons.mpr ⟨h.calls _ hcall, h.present⟩,
    fun _ hx => List.mem_cons_of_mem w (h.written hx), ?_, fun c hc => ?_⟩
  · refine hcache.imp fun key r _ hkey => List.forall_mem_cons.mpr ⟨fun ht => ?_, hkey.2⟩
    rw [hkey.1] at ht
    exact absurd ht nofun
  · rcases List.mem_or_eq_of_mem_set hc with hc | rfl
    · refine (h.calls c hc).drop ?_
      rintro scan before r rfl
      exact hguard scan before r hc
    · exact List.mem_cons_self ..

theorem SharedInv.acknowledge {n : Nat} (h : SharedInv dropped s)
    (hcall : .invalidated w n ∈ s.calls)
    (hstep : s.advance now i (.invalidated w n) = .ok s') : SharedInv dropped s' := by
  obtain rfl := Except.ok.inj hstep
  have hw : s.written ++ [w] ⊆ dropped :=
    List.append_subset.mpr ⟨h.written, List.cons_subset.mpr ⟨h.calls _ hcall, List.nil_subset _⟩⟩
  refine h.next (fun _ hx => hx) (grew_refl _) hw h.entries fun c hc => ?_
  refine (List.mem_or_eq_of_mem_set hc).imp_right ?_
  rintro rfl
  trivial

theorem SharedInv.step {a : Action} (h : SharedInv dropped s) (hguard : Guard s a)
    (hstep : s.step now a = .ok s') : ∃ dropped', SharedInv dropped' s' := by
  cases a with
  | create stmt => exact ⟨dropped, h.create hstep⟩
  | select stmt rawSql => exact ⟨dropped, h.select hguard hstep⟩
  | insert stmt => exact ⟨dropped, h.insert hstep⟩
  | advance i =>
      rw [Shared.step] at hstep
      cases hi : s.calls[i]? with
      | none =>
          rw [hi] at hstep
          exact ⟨dropped, Except.ok.inj hstep ▸ h⟩
      | some call =>
          rw [hi] at hstep
          have hcall := List.mem_of_getElem? hi
          cases call with
          | missed stmt rawSql before => exact ⟨dropped, h.scan hcall hstep⟩
          | scanned scan before r => exact ⟨dropped, h.put hcall hstep⟩
          | inserting w left n =>
              cases left with
              | nil => exact ⟨w :: dropped, h.invalidate hcall (hguard w n hi) hstep⟩
              | cons rowVals left => exact ⟨dropped, h.insertTuple hstep⟩
          | invalidated w n => exact ⟨dropped, h.acknowledge hcall hstep⟩
          | answered stmt rawSql before answer => exact ⟨dropped, Except.ok.inj hstep ▸ h⟩
          | acknowledged w n => exact ⟨dropped, Except.ok.inj hstep ▸ h⟩
          | refused e => exact ⟨dropped, Except.ok.inj hstep ▸ h⟩

theorem guarded_inv (h : Guarded s) : ∃ dropped, SharedInv dropped s := by
  induction h with
  | start hreach =>
      obtain ⟨c, hc⟩ := (reachable_consistent hreach).cache
      exact ⟨[], nofun, fun _ hx => hx, ⟨c, hc, fun _ _ _ hw => absurd hw nofun⟩, nofun⟩
  | step _ hguard hstep ih =>
      obtain ⟨dropped, hinv⟩ := ih
      exact hinv.step hguard hstep

/-- In every run of guarded steps the queries see the writes acknowledged
before them. -/
theorem guarded_seesWrites (h : Guarded s) : SeesWrites s := by
  obtain ⟨dropped, hinv⟩ := guarded_inv h
  intro stmt rawSql before answer hcall w hw hname
  obtain ⟨scan, hscan, hkey, htable, hsaw, hanswer⟩ := hinv.calls _ hcall w hw hname
  rw [hname, Bytes.toUpper_idem] at htable
  exact ⟨scan, hscan, hkey, htable, hsaw, hanswer⟩

end Invariant

section Runs

attribute [local instance] noDoubles

theorem cell_mem {α : Type} {l : List α} {i : Nat} {x : α} (h : Executor.cell l i = .ok x) :
    x ∈ l := by
  rw [Executor.cell] at h
  split at h
  · next hi => exact Except.ok.inj h ▸ List.mem_of_getElem? hi
  · exact absurd h (by simp)

/-- Not the moment before answers are dropped, or no answer is about to be
stored. -/
def quiet (s : Shared) : Action → Bool
  | .select stmt rawSql => takenToRead stmt.tableName (LRUCache.normalize rawSql)
  | .advance i => (s.calls.all fun c => !(c matches .scanned ..)) ||
      !(s.calls[i]? matches some (.inserting _ [] _))
  | _ => true

theorem guard_of_quiet {s : Shared} {a : Action} (h : quiet s a = true) : Guard s a := by
  cases a with
  | select stmt rawSql => exact .inr h
  | advance i =>
      intro w n hi scan before r hscan
      rw [quiet, hi, Bool.not_true, Bool.or_false, List.all_eq_true] at h
      exact absurd (h _ hscan) nofun
  | create stmt => trivial
  | insert stmt => trivial

def quietStep (s : Shared) (a : Action) : Outcome Shared :=
  if quiet s a then s.step 0 a else .error .undefined

theorem guarded_quietStep {s s' : Shared} {l : List Action} (h : Guarded s)
    (hrun : l.foldlM quietStep s = .ok s') : Guarded s' := by
  induction l generalizing s with
  | nil => exact Except.ok.inj hrun ▸ h
  | cons a l ih =>
      obtain ⟨s₁, hstep, hrun⟩ := Outcome.bind_eq_ok.mp hrun
      rw [quietStep] at hstep
      split at hstep
      · next hquiet => exact ih (h.step (guard_of_quiet hquiet) hstep) hrun
      · exact absurd hstep nofun

def createT : Action := .create ⟨Bytes.lit "t", [⟨Bytes.lit "id", Bytes.lit "INT", 255⟩]⟩

def selectT : Action :=
  .select ⟨Bytes.lit "t", [], true, none, none⟩ (Bytes.lit "SELECT * FROM t")

def insertT : Action := .insert ⟨Bytes.lit "t", [[Bytes.lit "1"]]⟩

/-- An answered query that one write came before. -/
def answeredOnce : Progress → Option (SelectStmt × Bytes × Written × Except Bytes CachedResult)
  | .answered stmt rawSql [w] answer => some (stmt, rawSql, w, answer)
  | _ => none

theorem answeredOnce_eq {c : Progress} {stmt : SelectStmt} {rawSql : Bytes} {w : Written}
    {answer : Except Bytes CachedResult} (h : answeredOnce c = some (stmt, rawSql, w, answer)) :
    c = .answered stmt rawSql [w] answer := by
  unfold answeredOnce at h
  split at h
  · simp only [Option.some.injEq, Prod.mk.injEq] at h
    obtain ⟨rfl, rfl, rfl, rfl⟩ := h
    rfl
  · exact absurd h (by simp)

/-- The query begins after the write is acknowledged. -/
theorem guarded_seesWrites_after : ∃ s w, Guarded s ∧ SeesWrites s ∧
    .answered ⟨Bytes.lit "t", [], true, none, none⟩ (Bytes.lit "SELECT * FROM t") [w]
      (.ok ⟨[Bytes.lit "ID"], [[.int 1]]⟩) ∈ s.calls ∧ w.tableName = Bytes.lit "T" := by
  have hrun : (do
      let s ← [createT, insertT, .advance 0, .advance 0, .advance 0, selectT, .advance 1,
        .advance 1, selectT].foldlM quietStep (Shared.start Executor.new)
      let c ← Executor.cell s.calls 2
      let x ← Executor.cell (answeredOnce c).toList 0
      .ok (x.1, x.2.1, x.2.2.1.tableName, x.2.2.2) : Outcome _) =
        .ok (⟨Bytes.lit "t", [], true, none, none⟩, Bytes.lit "SELECT * FROM t", Bytes.lit "T",
          .ok ⟨[Bytes.lit "ID"], [[.int 1]]⟩) := by
    decide +kernel
  obtain ⟨s, hs, hrun⟩ := Outcome.bind_eq_ok.mp hrun
  obtain ⟨c, hc, hrun⟩ := Outcome.bind_eq_ok.mp hrun
  obtain ⟨⟨stmt, rawSql, w, answer⟩, hx, hrun⟩ := Outcome.bind_eq_ok.mp hrun
  simp only [Except.ok.injEq, Prod.mk.injEq] at hrun
  obtain ⟨rfl, rfl, hw, rfl⟩ := hrun
  have hguarded := guarded_quietStep (.start .new) hs
  exact ⟨s, w, hguarded, guarded_seesWrites hguarded,
    answeredOnce_eq (cell_toList hx) ▸ cell_mem hc, hw⟩

/-- A query scans, the write comes and is acknowledged, and the query stores
the answer from before. The next query finds it. -/
theorem late_put_hides_write : ∃ s,
    [createT, selectT, .advance 0, insertT, .advance 1, .advance 1, .advance 1, .advance 0,
      selectT].foldlM (fun s a => s.step 0 a) (Shared.start Executor.new) = .ok s ∧
    ¬ SeesWrites s := by
  have hrun : (do
      let s ← [createT, selectT, .advance 0, insertT, .advance 1, .advance 1, .advance 1,
        .advance 0, selectT].foldlM (fun s a => s.step 0 a) (Shared.start Executor.new)
      let c ← Executor.cell s.calls 2
      let x ← Executor.cell (answeredOnce c).toList 0
      .ok (x.1.tableName, x.2.2.1.tableName, x.2.2.1.table.rows.length,
        s.scans.map fun scan => (scan.tables.lookup x.2.2.1.tableName).map (·.rows.length)) :
          Outcome _) = .ok (Bytes.lit "t", Bytes.lit "T", 1, [some 0]) := by
    decide +kernel
  obtain ⟨s, hs, hrun⟩ := Outcome.bind_eq_ok.mp hrun
  obtain ⟨c, hc, hrun⟩ := Outcome.bind_eq_ok.mp hrun
  obtain ⟨⟨stmt, rawSql, w, answer⟩, hx, hrun⟩ := Outcome.bind_eq_ok.mp hrun
  simp only [Except.ok.injEq, Prod.mk.injEq] at hrun
  obtain ⟨hstmt, hw, hrows, hscans⟩ := hrun
  refine ⟨s, hs, fun hsees => ?_⟩
  obtain ⟨scan, hscan, -, -, ⟨t, ht, hlater⟩, -⟩ := hsees stmt rawSql [w] answer
    (answeredOnce_eq (cell_toList hx) ▸ cell_mem hc) w (List.mem_singleton_self w)
    (by rw [hw, hstmt]; decide)
  have hseen := List.mem_map_of_mem (f := fun scan : Scan =>
    (scan.tables.lookup w.tableName).map (·.rows.length)) hscan
  rw [hscans, List.mem_singleton, ht] at hseen
  have hnone : t.rows.length = 0 := Option.some.inj hseen
  have hle := later_rows hlater
  omega

end Runs

end FlexQL.Proofs
