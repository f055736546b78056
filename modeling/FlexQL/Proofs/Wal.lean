import FlexQL.Spec.Wal

/-!
# What the log gives back

A record that was written is read back as it was, whatever comes after it,
and from no other bytes than its own. So a file of records is read back as the
list of them, a record cut short ends the reading, and what is appended behind
one is lost.
-/

namespace FlexQL.Proofs

open Lib FlexQL.Ref FlexQL.Spec

theorem readRecord_encode {r : WALRecord} (h : r.sql.length ≤ WALRecord.maxPayload) :
    Reader.Reads WALReader.readRecord r.encode r := by
  intro rest
  have hlen : r.sql.length < 256 ^ 4 := Nat.lt_of_le_of_lt h (by decide)
  have hcrc : (WALRecord.checksum r.lsn.toNat r.sql.length r.sql).toNat < 256 ^ 4 :=
    UInt32.toNat_lt _
  have hlsn : r.lsn.toNat < 256 ^ 8 := UInt64.toNat_lt _
  simp only [WALReader.readRecord, WALRecord.encode, List.append_assoc, Option.bind_eq_bind]
  rw [Reader.reads_uint (show WALRecord.magic < 256 ^ 4 by decide)]
  simp only [Option.bind_some, ne_eq, not_true_eq_false, if_false]
  rw [Reader.reads_uint hcrc, Option.bind_some, Reader.reads_uint hlsn, Option.bind_some,
    Reader.reads_uint hlen, Option.bind_some]
  simp only [Nat.not_lt.mpr h, if_false]
  rw [Reader.reads_bytes r.sql, Option.bind_some]
  simp

theorem readAll_cons {file rest : Bytes} {r : WALRecord}
    (h : WALReader.readRecord file = some (r, rest)) :
    WALReader.readAll file = r :: WALReader.readAll rest := by
  rw [WALReader.readAll]
  split
  · next hn => rw [h] at hn; exact absurd hn (by simp)
  · next hs =>
      obtain ⟨rfl, rfl⟩ := Prod.mk.inj (Option.some.inj (h.symm.trans hs))
      rfl

theorem readAll_nil : WALReader.readAll [] = [] := by
  rw [WALReader.readAll]
  rfl

theorem readAll_none {file : Bytes} (h : WALReader.readRecord file = none) :
    WALReader.readAll file = [] := by
  rw [WALReader.readAll]
  split
  · rfl
  · next hs => rw [h] at hs; exact absurd hs (by simp)

/-- The records at the front of a file, and then what the rest gives. -/
theorem readAll_append {recs : List WALRecord} (rest : Bytes)
    (h : ∀ r ∈ recs, r.sql.length ≤ WALRecord.maxPayload) :
    WALReader.readAll (recs.flatMap WALRecord.encode ++ rest) =
      recs ++ WALReader.readAll rest := by
  induction recs with
  | nil => rfl
  | cons r recs ih =>
      rw [List.flatMap_cons, List.append_assoc,
        readAll_cons (readRecord_encode (h r (by simp)) _), ih fun x hx => h x (by simp [hx])]
      rfl

/-- The records of a file that holds nothing else. -/
theorem readAll_encode {recs : List WALRecord}
    (h : ∀ r ∈ recs, r.sql.length ≤ WALRecord.maxPayload) :
    WALReader.readAll (recs.flatMap WALRecord.encode) = recs := by
  rw [← List.append_nil (recs.flatMap _), readAll_append [] h, readAll_nil, List.append_nil]

/-! ## The bytes behind what was read -/

/-- The format is unambiguous: a record is read from its own bytes only. -/
theorem readRecord_split {file rest : Bytes} {r : WALRecord}
    (h : WALReader.readRecord file = some (r, rest)) :
    file = r.encode ++ rest ∧ r.sql.length ≤ WALRecord.maxPayload := by
  obtain ⟨⟨magic, s₁⟩, h₁, h⟩ := Option.bind_eq_some_iff.mp h
  dsimp only at h
  split at h
  · exact absurd h (by simp)
  next hmagic =>
  obtain ⟨⟨crc, s₂⟩, h₂, h⟩ := Option.bind_eq_some_iff.mp h
  obtain ⟨⟨lsn, s₃⟩, h₃, h⟩ := Option.bind_eq_some_iff.mp h
  obtain ⟨⟨len, s₄⟩, h₄, h⟩ := Option.bind_eq_some_iff.mp h
  dsimp only at h
  split at h
  · exact absurd h (by simp)
  next hlen =>
  obtain ⟨⟨sql, s₅⟩, h₅, h⟩ := Option.bind_eq_some_iff.mp h
  dsimp only at h
  split at h
  · exact absurd h (by simp)
  next hcrc =>
  obtain ⟨rfl, rfl⟩ := Prod.mk.inj (Option.some.inj h)
  obtain ⟨rfl, -⟩ := Reader.uint_split h₁
  obtain ⟨rfl, -⟩ := Reader.uint_split h₂
  obtain ⟨rfl, hlsn⟩ := Reader.uint_split h₃
  obtain ⟨rfl, -⟩ := Reader.uint_split h₄
  obtain ⟨rfl, rfl⟩ := Reader.bytes_split h₅
  have hback : (UInt64.ofNat lsn).toNat = lsn := UInt64.toNat_ofNat_of_lt hlsn
  refine ⟨?_, Nat.not_lt.mp hlen⟩
  rw [WALRecord.encode, hback, not_ne_iff.mp hcrc, not_ne_iff.mp hmagic]
  simp only [List.append_assoc]

/-- A record that is cut short cannot be read. -/
theorem readRecord_torn {t u : Bytes} {r : WALRecord}
    (hr : r.sql.length ≤ WALRecord.maxPayload) (ht : t ++ u = r.encode) (hu : u ≠ []) :
    WALReader.readRecord t = none := by
  cases h : WALReader.readRecord t with
  | none => rfl
  | some p =>
      obtain ⟨r', rest⟩ := p
      obtain ⟨rfl, hr'⟩ := readRecord_split h
      have hread := readRecord_encode hr []
      have hread' := readRecord_encode hr' (rest ++ u)
      rw [List.append_nil, ← ht, List.append_assoc, hread'] at hread
      obtain ⟨-, hnil⟩ := Prod.mk.inj (Option.some.inj hread)
      exact absurd (List.append_eq_nil_iff.mp hnil).2 hu

/-- What is read as a list of records is their bytes and then no record. -/
theorem readAll_split {file : Bytes} {recs : List WALRecord}
    (h : WALReader.readAll file = recs) :
    ∃ rest, file = recs.flatMap WALRecord.encode ++ rest ∧
      WALReader.readRecord rest = none := by
  induction recs generalizing file with
  | nil =>
      refine ⟨file, rfl, ?_⟩
      cases hr : WALReader.readRecord file with
      | none => rfl
      | some p => rw [readAll_cons hr] at h; exact absurd h (by simp)
  | cons r recs ih =>
      cases hr : WALReader.readRecord file with
      | none => rw [readAll_none hr] at h; exact absurd h (by simp)
      | some p =>
          rw [readAll_cons hr] at h
          obtain ⟨hhead, htail⟩ := List.cons.inj h
          obtain ⟨rest, hfile, hrest⟩ := ih htail
          refine ⟨rest, ?_, hrest⟩
          rw [(readRecord_split hr).1, hhead, hfile, List.flatMap_cons, List.append_assoc]

/-- From the front of a file of records nothing else is read. -/
theorem mem_readAll_of_front {recs : List WALRecord}
    (hshort : ∀ r ∈ recs, r.sql.length ≤ WALRecord.maxPayload) {file : Bytes}
    (h : file <+: recs.flatMap WALRecord.encode) : ∀ r ∈ WALReader.readAll file, r ∈ recs := by
  induction recs generalizing file with
  | nil =>
      rw [List.prefix_nil.mp h, readAll_nil]
      exact fun r hr => hr
  | cons r recs ih =>
      cases hread : WALReader.readRecord file with
      | none =>
          rw [readAll_none hread]
          simp
      | some p =>
          obtain ⟨r', rest⟩ := p
          obtain ⟨u, hu⟩ := h
          obtain ⟨hfile, hr'⟩ := readRecord_split hread
          have hfirst := readRecord_encode (hshort r List.mem_cons_self)
            (recs.flatMap WALRecord.encode)
          rw [← List.flatMap_cons, ← hu, hfile, List.append_assoc, readRecord_encode hr'] at hfirst
          obtain ⟨rfl, hrest⟩ := Prod.mk.inj (Option.some.inj hfirst)
          rw [readAll_cons hread]
          exact List.cons_subset_cons r' (ih (fun x hx => hshort x (List.mem_cons_of_mem _ hx))
            ⟨u, hrest⟩)

theorem readRecord_eq_none_iff {file : Bytes} :
    WALReader.readRecord file = none ↔
      ∀ r : WALRecord, r.sql.length ≤ WALRecord.maxPayload → ¬ r.encode <+: file := by
  constructor
  · rintro h r hr ⟨rest, rfl⟩
    rw [readRecord_encode hr rest] at h
    exact absurd h (by simp)
  · intro h
    cases hr : WALReader.readRecord file with
    | none => rfl
    | some p =>
        obtain ⟨hfile, hlen⟩ := readRecord_split hr
        exact absurd ⟨_, hfile.symm⟩ (h _ hlen)

/-! ## The writer -/

/-- What holds between the calls of a writer that was opened on `before`,
where the records of `before` end in number `lsn`. -/
structure Written (before : Bytes) (lsn : UInt64) (s : WalTrace) : Prop where
  file : s.file = before ++ s.kept.flatMap WALRecord.encode
  next : s.writer.nextLsn = lsn + UInt64.ofNat s.returned.length
  returned : s.returned = (List.range s.returned.length).map fun i => lsn + UInt64.ofNat i
  short : ∀ r ∈ s.kept, r.sql.length ≤ WALRecord.maxPayload

theorem written_append {before : Bytes} {lsn : UInt64} {s : WalTrace} {sql : Bytes}
    (h : Written before lsn s) (hsql : sql.length ≤ WALRecord.maxPayload) :
    Written before lsn (s.step (.append sql)) := by
  refine ⟨?_, ?_, ?_, ?_⟩
  · change s.file ++ _ = _
    rw [h.file]
    simp [WalTrace.step, WALWriter.append]
  · change s.writer.nextLsn + 1 = _
    rw [h.next]
    simp [WalTrace.step, WALWriter.append, UInt64.add_assoc]
  · have hr := h.returned
    simp only [WalTrace.step, WALWriter.append, List.length_append, List.length_singleton,
      List.range_succ, List.map_append, List.map_singleton]
    rw [← hr, h.next]
  · intro r hr
    rcases List.mem_append.mp hr with hr | hr
    · exact h.short r hr
    · rw [List.mem_singleton.mp hr]
      exact hsql

theorem written_truncate {lsn : UInt64} {s : WalTrace} (h : Written [] lsn s) :
    Written [] lsn (s.step .truncate) :=
  ⟨rfl, h.next, h.returned, fun _ hr => absurd hr (by simp [WalTrace.step])⟩

theorem written_run {before : Bytes} {lsn : UInt64} {calls : List WalCall} {s : WalTrace}
    (h : Written before lsn s)
    (hcalls : ∀ sql, WalCall.append sql ∈ calls → sql.length ≤ WALRecord.maxPayload)
    (htrunc : WalCall.truncate ∈ calls → before = []) :
    Written before lsn (s.run calls) := by
  induction calls generalizing s with
  | nil => exact h
  | cons call calls ih =>
      refine ih ?_ (fun sql hsql => hcalls sql (by simp [hsql])) fun hc => htrunc (by simp [hc])
      cases call with
      | append sql => exact written_append h (hcalls sql (by simp))
      | truncate =>
          obtain rfl := htrunc (by simp)
          exact written_truncate h

theorem written_fresh : Written [] 1 (WalTrace.opened none) := by
  refine ⟨rfl, ?_, rfl, fun _ hr => absurd hr (by simp [WalTrace.opened])⟩
  show (WALWriter.new none).1.nextLsn = 1 + UInt64.ofNat 0
  simp only [WALWriter.new, Option.getD_none, readAll_nil]
  rfl

/-- What every call of the callback keeps, the replay keeps. -/
theorem replayRecords_keeps {σ : Type} {cb : σ → WALRecord → Outcome (σ × Bool)} {P : σ → Prop}
    (hcb : ∀ s r s' go, P s → cb s r = .ok (s', go) → P s') {s s' : σ} {n n' : Nat}
    {recs : List WALRecord} (hs : P s)
    (h : WALReader.replayRecords cb s n recs = .ok (s', n')) : P s' := by
  induction recs generalizing s n with
  | nil => exact (Prod.mk.inj (Except.ok.inj h)).1 ▸ hs
  | cons r recs ih =>
      rw [WALReader.replayRecords] at h
      obtain ⟨⟨s₁, go⟩, hstep, h⟩ := Outcome.bind_eq_ok.mp h
      have hs₁ := hcb s r s₁ go hs hstep
      dsimp only at h
      split at h
      · exact ih hs₁ h
      · exact (Prod.mk.inj (Except.ok.inj h)).1 ▸ hs₁

theorem replayRecords_total {σ : Type} (f : σ → WALRecord → σ) (s : σ) (n : Nat)
    (recs : List WALRecord) :
    WALReader.replayRecords (fun s r => .ok (f s r, true)) s n recs =
      .ok (recs.foldl f s, n + recs.length) := by
  induction recs generalizing s n with
  | nil => rfl
  | cons r recs ih =>
      rw [WALReader.replayRecords, List.foldl_cons, List.length_cons, Nat.add_comm recs.length,
        ← Nat.add_assoc]
      exact ih (f s r) (n + 1)

/-- The log gives back what was appended since it was last emptied, under the
numbers `append` returned, whatever is left of a record cut short. -/
theorem readAll_written {calls : List WalCall} {r : WALRecord} {t u : Bytes}
    (hcalls : ∀ sql, WalCall.append sql ∈ calls → sql.length ≤ WALRecord.maxPayload)
    (hr : r.sql.length ≤ WALRecord.maxPayload) (ht : t ++ u = r.encode) (hu : u ≠ []) :
    let s := (WalTrace.opened none).run calls
    s.returned = (List.range s.returned.length).map (fun i => UInt64.ofNat (i + 1)) ∧
      WALReader.readAll (s.file ++ t) = s.kept ∧
      ∀ (σ : Type) (f : σ → WALRecord → σ) (init : σ),
        WALReader.replay (fun s r => .ok (f s r, true)) init (s.file ++ t) =
          .ok (s.kept.foldl f init, s.kept.length) := by
  intro s
  have hw : Written [] 1 s := written_run written_fresh hcalls fun _ => rfl
  have hread : WALReader.readAll (s.file ++ t) = s.kept := by
    rw [hw.file, List.nil_append, readAll_append t hw.short,
      readAll_none (readRecord_torn hr ht hu), List.append_nil]
  refine ⟨?_, hread, fun σ f init => ?_⟩
  · have hone : ∀ i : Nat, UInt64.ofNat (i + 1) = 1 + UInt64.ofNat i := fun i => by
      rw [UInt64.ofNat_add, UInt64.add_comm]
      rfl
    simp only [hone]
    exact hw.returned
  · rw [WALReader.replay, hread, replayRecords_total, Nat.zero_add]

/-- Two statements, the log emptied, a third, and the first bytes of a fourth. -/
theorem readAll_written_torn :
    let s := (WalTrace.opened none).run
      [.append (Bytes.lit "A"), .append (Bytes.lit "B"), .truncate, .append (Bytes.lit "C")]
    s.returned = (List.range s.returned.length).map (fun i => UInt64.ofNat (i + 1)) ∧
      WALReader.readAll (s.file ++ (WALRecord.mk 4 (Bytes.lit "D")).encode.take 6) = s.kept ∧
      ∀ (σ : Type) (f : σ → WALRecord → σ) (init : σ),
        WALReader.replay (fun s r => .ok (f s r, true)) init
            (s.file ++ (WALRecord.mk 4 (Bytes.lit "D")).encode.take 6) =
          .ok (s.kept.foldl f init, s.kept.length) :=
  readAll_written (by simp [WALRecord.maxPayload, Bytes.lit]) (by decide)
    (List.take_append_drop 6 _) (by decide +kernel)

/-! ## A writer on a file with a torn tail -/

theorem nextLsn_opened {kept : List WALRecord} {file : Bytes}
    (h : WALReader.readAll file = kept) :
    WalTrace.opened (some file) = ⟨⟨nextAfter kept⟩, file, [], []⟩ := by
  subst h
  rfl

theorem run_appends {s : WalTrace} (sqls : List Bytes) :
    (s.run (sqls.map .append)).kept = s.kept ++ numbered s.writer.nextLsn sqls ∧
      (s.run (sqls.map .append)).file =
        s.file ++ (numbered s.writer.nextLsn sqls).flatMap WALRecord.encode := by
  induction sqls generalizing s with
  | nil => simp [WalTrace.run, numbered]
  | cons sql sqls ih =>
      obtain ⟨hkept, hfile⟩ := ih (s := s.step (.append sql))
      constructor
      · exact hkept.trans (List.append_assoc _ _ _)
      · exact hfile.trans (List.append_assoc _ _ _)

theorem numbered_short {lsn : UInt64} {sqls : List Bytes}
    (h : ∀ sql ∈ sqls, sql.length ≤ WALRecord.maxPayload) :
    ∀ r ∈ numbered lsn sqls, r.sql.length ≤ WALRecord.maxPayload := by
  induction sqls generalizing lsn with
  | nil => exact fun r hr => absurd hr (by simp [numbered])
  | cons sql sqls ih =>
      intro r hr
      rcases List.mem_cons.mp hr with rfl | hr
      · exact h sql (by simp)
      · exact ih (fun x hx => h x (by simp [hx])) r hr

/-- The records behind the torn bytes are read just when the bytes echo. -/
theorem readAll_behind {t : Bytes} {recs : List WALRecord}
    (h : ∀ r ∈ recs, r.sql.length ≤ WALRecord.maxPayload) :
    WALReader.readAll (t ++ recs.flatMap WALRecord.encode) = recs ↔ Echoes t recs := by
  constructor
  · intro hread
    obtain ⟨rest, hfile, hrest⟩ := readAll_split hread
    exact ⟨rest, hfile, readRecord_eq_none_iff.mp hrest⟩
  · rintro ⟨junk, hfile, hjunk⟩
    rw [hfile, readAll_append junk h, readAll_none (readRecord_eq_none_iff.mpr hjunk),
      List.append_nil]

theorem echoes_nil_left {recs : List WALRecord} : Echoes [] recs :=
  ⟨[], by simp, readRecord_eq_none_iff.mp rfl⟩

theorem echoes_nil_right {t : Bytes} (h : WALReader.readRecord t = none) : Echoes t [] :=
  ⟨t, by simp, readRecord_eq_none_iff.mp h⟩

/-- A file that ends in a torn record, and what a writer appends to it. -/
theorem readAll_reopened {calls : List WalCall} {r : WALRecord} {t u : Bytes}
    {sqls : List Bytes}
    (hcalls : ∀ sql, WalCall.append sql ∈ calls → sql.length ≤ WALRecord.maxPayload)
    (hr : r.sql.length ≤ WALRecord.maxPayload) (ht : t ++ u = r.encode) (hu : u ≠ [])
    (hsqls : ∀ sql ∈ sqls, sql.length ≤ WALRecord.maxPayload) :
    let s := (WalTrace.opened none).run calls
    let s' := (WalTrace.opened (some (s.file ++ t))).run (sqls.map .append)
    WALReader.readAll s'.file = s.kept ++ s'.kept ↔
      Echoes t (numbered (nextAfter s.kept) sqls) := by
  intro s s'
  have hw : Written [] 1 s := written_run written_fresh hcalls fun _ => rfl
  have hread : WALReader.readAll (s.file ++ t) = s.kept := by
    rw [hw.file, List.nil_append, readAll_append t hw.short,
      readAll_none (readRecord_torn hr ht hu), List.append_nil]
  obtain ⟨hkept, hfile⟩ := run_appends (s := WalTrace.opened (some (s.file ++ t))) sqls
  rw [nextLsn_opened hread] at hkept hfile
  change WALReader.readAll (WalTrace.run _ _).file = s.kept ++ (WalTrace.run _ _).kept ↔ _
  rw [nextLsn_opened hread, hkept, hfile, hw.file, List.nil_append, List.nil_append,
    List.append_assoc, readAll_append _ hw.short, List.append_cancel_left_eq,
    readAll_behind (numbered_short hsqls)]

/-- What a writer appends behind a torn record is read back just when nothing
was torn, nothing is appended, or the bytes happen to repeat. -/
theorem readAll_reopened_iff {calls : List WalCall} {r : WALRecord} {t u : Bytes}
    {sqls : List Bytes}
    (hcalls : ∀ sql, WalCall.append sql ∈ calls → sql.length ≤ WALRecord.maxPayload)
    (hr : r.sql.length ≤ WALRecord.maxPayload) (ht : t ++ u = r.encode) (hu : u ≠ [])
    (hsqls : ∀ sql ∈ sqls, sql.length ≤ WALRecord.maxPayload) :
    let s := (WalTrace.opened none).run calls
    let s' := (WalTrace.opened (some (s.file ++ t))).run (sqls.map .append)
    WALReader.readAll s'.file = s.kept ++ s'.kept ↔
      t = [] ∨ sqls = [] ∨ Echoes t (numbered (nextAfter s.kept) sqls) := by
  intro s s'
  refine (readAll_reopened hcalls hr ht hu hsqls).trans ?_
  constructor
  · exact fun h => .inr (.inr h)
  · rintro (rfl | rfl | h)
    · exact echoes_nil_left
    · exact echoes_nil_right (readRecord_torn hr ht hu)
    · exact h

theorem readAll_reopened_intact :
    let s := (WalTrace.opened none).run [.append (Bytes.lit "A")]
    let s' := (WalTrace.opened (some (s.file ++ []))).run ([Bytes.lit "C"].map .append)
    WALReader.readAll s'.file = s.kept ++ s'.kept :=
  (readAll_reopened_iff (r := ⟨2, Bytes.lit "B"⟩) (t := [])
    (by simp [WALRecord.maxPayload, Bytes.lit]) (by decide) rfl (by decide +kernel)
    (by simp [WALRecord.maxPayload, Bytes.lit])).mpr (.inl rfl)

/-- Six bytes of a second record are left by a crash; the record appended
behind them is not read. -/
theorem torn_tail_hides_record :
    let s := (WalTrace.opened none).run [.append (Bytes.lit "A")]
    let t := (WALRecord.mk 2 (Bytes.lit "B")).encode.take 6
    let s' := (WalTrace.opened (some (s.file ++ t))).run ([Bytes.lit "C"].map .append)
    WALReader.readAll s'.file ≠ s.kept ++ s'.kept := by
  intro s t s' hread
  have hecho := (readAll_reopened (r := ⟨2, Bytes.lit "B"⟩)
    (by simp [WALRecord.maxPayload, Bytes.lit]) (by decide) (List.take_append_drop 6 _)
    (by decide +kernel) (by simp [WALRecord.maxPayload, Bytes.lit])).mp hread
  have hback := (readAll_behind (numbered_short (by
    simp [WALRecord.maxPayload, Bytes.lit]))).mpr hecho
  have hlsn : nextAfter s.kept = 2 := by
    simp [s, WalTrace.run, WalTrace.step, WalTrace.opened, WALWriter.append, WALWriter.new,
      readAll_nil, nextAfter]
  have hnone : WALReader.readRecord (t ++ (numbered 2 [Bytes.lit "C"]).flatMap
      WALRecord.encode) = none := by decide +kernel
  rw [hlsn, readAll_none hnone] at hback
  exact absurd hback (by simp [numbered])

end FlexQL.Proofs
