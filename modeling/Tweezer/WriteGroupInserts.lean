import Tweezer.WriteGroups

/-!
# What a group of writers inserts

The entries of a group are those of the records of its batches, one after another, with the
sequence numbers behind the last one. The record that the log gets is the batch of these
records, and inserting the batches in order gives every memtable its entries in order.
-/

namespace Tweezer

/-! ### Receiving entries -/

section

variable {o : InserterOptions} {families : List ColumnFamily}

@[simp] theorem forFamily_append (id : UInt32) (a b : List (UInt32 × MemEntry)) :
    forFamily id (a ++ b) = forFamily id a ++ forFamily id b := List.filterMap_append

@[simp] theorem receive_id (entries : List (UInt32 × MemEntry)) (cf : ColumnFamily) :
    (receive o entries cf).id = cf.id := by
  unfold receive
  split_ifs <;> rfl

@[simp] theorem receive_skips (entries : List (UInt32 × MemEntry)) (cf : ColumnFamily) :
    o.skips (receive o entries cf) = o.skips cf := by
  unfold receive InserterOptions.skips
  split_ifs <;> rfl

theorem receive_receive (a b : List (UInt32 × MemEntry)) (cf : ColumnFamily) :
    receive o b (receive o a cf) = receive o (a ++ b) cf := by
  rw [receive, receive_skips, receive_id]
  by_cases h : o.skips cf = true
  · rw [if_pos h, receive, if_pos h, receive, if_pos h]
  · rw [if_neg h, receive, if_neg h, receive, if_neg h, forFamily_append, ← List.append_assoc]

theorem map_receive_receive (a b : List (UInt32 × MemEntry)) (families : List ColumnFamily) :
    (families.map (receive o a)).map (receive o b) = families.map (receive o (a ++ b)) := by
  rw [List.map_map]
  exact List.map_congr_left fun cf _ => receive_receive a b cf

/-- What records are checked against. -/
def catalog (families : List ColumnFamily) : List (UInt32 × Bool × Comparator) :=
  families.map fun cf => (cf.id, cf.isDeleteRangeSupported, cf.userComparator)

theorem catalog_map {g : ColumnFamily → ColumnFamily}
    (h : ∀ cf, (g cf).id = cf.id ∧ (g cf).isDeleteRangeSupported = cf.isDeleteRangeSupported ∧
      (g cf).userComparator = cf.userComparator) :
    catalog (families.map g) = catalog families := by
  rw [catalog, List.map_map]
  apply List.map_congr_left
  intro cf _
  obtain ⟨hid, hrange, hcmp⟩ := h cf
  simp only [Function.comp_apply, hid, hrange, hcmp]

theorem catalog_receive (entries : List (UInt32 × MemEntry)) :
    catalog (families.map (receive o entries)) = catalog families := by
  apply catalog_map
  intro cf
  unfold receive
  split_ifs <;> exact ⟨rfl, rfl, rfl⟩

theorem map_id_catalog (families : List ColumnFamily) :
    families.map ColumnFamily.id = (catalog families).map Prod.fst := by
  rw [catalog, List.map_map]
  rfl

theorem BatchRecord.Acceptable.of_catalog {families' : List ColumnFamily} {r : BatchRecord}
    (h : r.Acceptable o families) (hc : catalog families' = catalog families) :
    r.Acceptable o families' := by
  have hexists : ∀ id, (∃ f ∈ families, f.id = id) → ∃ f ∈ families', f.id = id := by
    intro id
    have hmem : id ∈ families.map ColumnFamily.id ↔ id ∈ families'.map ColumnFamily.id := by
      rw [map_id_catalog, map_id_catalog, hc]
    simpa only [List.mem_map] using hmem.mp
  have hrange : ∀ f' ∈ families', ∃ f ∈ families, f'.id = f.id ∧
      f'.isDeleteRangeSupported = f.isDeleteRangeSupported ∧
      f'.userComparator = f.userComparator := by
    intro f' hf'
    have hmem : (f'.id, f'.isDeleteRangeSupported, f'.userComparator) ∈ catalog families := by
      rw [← hc]
      exact List.mem_map_of_mem hf'
    obtain ⟨f, hf, heq⟩ := List.mem_map.mp hmem
    simp only [Prod.mk.injEq] at heq
    exact ⟨f, hf, heq.1.symm, heq.2.1.symm, heq.2.2.symm⟩
  cases r with
  | deleteRange cf beginKey endKey =>
      refine ⟨h.1.imp_right (hexists cf), ?_⟩
      intro f' hf' hid
      obtain ⟨f, hf, hid', hsupported, hcmp⟩ := hrange f' hf'
      rw [hsupported, hcmp]
      exact h.2 f hf (hid' ▸ hid)
  | put cf key value => exact h.imp_right (hexists cf)
  | delete cf key => exact h.imp_right (hexists cf)
  | singleDelete cf key => exact h.imp_right (hexists cf)
  | merge cf key value => exact h.imp_right (hexists cf)
  | putBlobIndex cf key value => exact h.imp_right (hexists cf)
  | logData blob => exact h
  | noop => exact h
  | _ => exact h.elim

theorem BatchRecord.entry_seq {r : BatchRecord} {seq : ℕ} {p : UInt32 × MemEntry}
    (h : p ∈ (r.entry seq).toList) : p.2.seq = seq ∧ r.counts = true := by
  cases r <;> simp [BatchRecord.entry] at h <;> simp [h, BatchRecord.counts]

/-- The sequence numbers of entries begin with the first one, and there is one for every record
that counts. -/
theorem seq_of_mem_entriesFrom {rs : List BatchRecord} {seq : ℕ} {p : UInt32 × MemEntry}
    (h : p ∈ entriesFrom seq rs) : seq ≤ p.2.seq ∧ p.2.seq < seq + countOf rs := by
  induction rs generalizing seq with
  | nil => simp [entriesFrom] at h
  | cons r rs ih =>
      rw [entriesFrom, List.mem_append] at h
      rw [countOf_cons]
      rcases h with hr | hrs
      · obtain ⟨hseq, hcounts⟩ := BatchRecord.entry_seq hr
        rw [if_pos hcounts]
        omega
      · have hlt := ih hrs
        omega

theorem nodup_entriesFrom (rs : List BatchRecord) (seq : ℕ) :
    ((entriesFrom seq rs).map fun p => p.2.seq).Nodup := by
  induction rs generalizing seq with
  | nil => exact List.nodup_nil
  | cons r rs ih =>
      rw [entriesFrom, List.map_append, List.nodup_append]
      refine ⟨?_, ih _, ?_⟩
      · cases hentry : r.entry seq with
        | none => exact List.nodup_nil
        | some p => exact List.nodup_singleton _
      · intro a ha b hb
        obtain ⟨p, hp, rfl⟩ := List.mem_map.mp ha
        obtain ⟨q, hq, rfl⟩ := List.mem_map.mp hb
        obtain ⟨hseq, hcounts⟩ := BatchRecord.entry_seq hp
        have hlt := (seq_of_mem_entriesFrom hq).1
        rw [if_pos hcounts] at hlt
        omega

theorem entriesFrom_append (rs ts : List BatchRecord) (seq : ℕ) :
    entriesFrom seq (rs ++ ts) = entriesFrom seq rs ++ entriesFrom (seq + countOf rs) ts := by
  induction rs generalizing seq with
  | nil => rfl
  | cons r rs ih =>
      rw [List.cons_append, entriesFrom, entriesFrom, ih, countOf_cons, List.append_assoc,
        Nat.add_assoc]

theorem mem_forFamily {id : UInt32} {entries : List (UInt32 × MemEntry)} {e : MemEntry} :
    e ∈ forFamily id entries ↔ (id, e) ∈ entries := by
  rw [forFamily, List.mem_filterMap]
  constructor
  · rintro ⟨⟨id', e'⟩, hmem, heq⟩
    simp only [Option.ite_none_right_eq_some, Option.some.injEq] at heq
    rwa [← heq.1, ← heq.2]
  · intro h
    exact ⟨(id, e), h, by simp⟩

theorem Fresh.receive {entries : List (UInt32 × MemEntry)} {s : ℕ} (h : Fresh families s)
    (hne : ∀ p ∈ entries, p.2.seq ≠ s) : Fresh (families.map (receive o entries)) s := by
  intro cf hcf d hd
  obtain ⟨f, hf, rfl⟩ := List.mem_map.mp hcf
  unfold Tweezer.receive at hd
  split_ifs at hd with hskip
  · exact h f hf d hd
  · rcases List.mem_append.mp hd with hold | hnew
    · exact h f hf d hold
    · exact hne _ (mem_forFamily.mp hnew)

variable {v : Bool}

/-- A batch gives every column family its entries. -/
theorem visit_received (hseq : o.seqPerBatch = false)
    (hids : (families.map ColumnFamily.id).Nodup) {rs : List BatchRecord}
    (hrs : ∀ r ∈ rs, r.Acceptable o families) {seq : ℕ}
    (hfresh : ∀ s, seq ≤ s → s < seq + countOf rs → Fresh families s) (emptyBatch : Bool) :
    ∃ v', visit (memTableInserter o) rs emptyBatch ⟨seq, families, v⟩ =
      (.ok, ⟨seq + countOf rs, families.map (receive o (entriesFrom seq rs)), v'⟩) := by
  induction rs generalizing families seq emptyBatch v with
  | nil => exact ⟨v, by simp [visit, countOf, entriesFrom]⟩
  | cons r rs ih =>
      obtain ⟨e, w, hd⟩ := dispatch_received (v := v) hseq hids (hrs r List.mem_cons_self)
        (fun hcounts => hfresh seq (Nat.le_refl _) (by rw [countOf_cons, if_pos hcounts]; omega))
        emptyBatch
      have hout : handOut (memTableInserter o) r emptyBatch ⟨seq, families, v⟩ = .inr (e,
          ⟨seq + (if r.counts then 1 else 0), families.map (receive o (r.entry seq).toList), w⟩)
          := by
        have hc : (memTableInserter o).continues ⟨seq, families, v⟩ =
          (true, ⟨seq, families, v⟩) := rfl
        simp [handOut, hc, hd, BatchStatus.isOk]
      have hcat := @catalog_receive o families (r.entry seq).toList
      have hids' : ((families.map (receive o (r.entry seq).toList)).map ColumnFamily.id).Nodup := by
        rwa [map_id_catalog, hcat, ← map_id_catalog]
      have hfresh' : ∀ s, seq + (if r.counts then 1 else 0) ≤ s →
          s < seq + (if r.counts then 1 else 0) + countOf rs →
          Fresh (families.map (receive o (r.entry seq).toList)) s := by
        intro s hle hlt
        apply Fresh.receive (hfresh s (by omega) (by rw [countOf_cons]; omega))
        intro p hp
        obtain ⟨hpseq, hcounts⟩ := BatchRecord.entry_seq hp
        rw [if_pos hcounts] at hle
        omega
      obtain ⟨w', hrest⟩ := ih (v := w) hids'
        (fun t ht => (hrs t (List.mem_cons_of_mem _ ht)).of_catalog hcat) hfresh' e
      refine ⟨w', ?_⟩
      rw [visit, hout]
      dsimp only
      rw [hrest, map_receive_receive, countOf_cons, entriesFrom, Nat.add_assoc]

end

/-! ### A group in order -/

/-- The records of the batch of a writer, which is not to be cut off for the log. -/
structure WriterRecords (w : GroupWriter) (rs : List BatchRecord) : Prop where
  built : ∃ c, Built w.batch c ∧ c.records = rs ∧ c.walTermPoint = none
  few : countOf rs < 2 ^ 32

/-- The records of the batches that a group writes. -/
def groupRecords (ws : List (GroupWriter × List BatchRecord)) : List BatchRecord :=
  ws.flatMap fun p => if p.1.callbackFailed then [] else p.2

/-- The string of a batch of these records. -/
def logRecord (seq : ℕ) (rs : List BatchRecord) : Bytes :=
  (BatchContents.mk seq rs [] none).rep

theorem WriterRecords.short {w : GroupWriter} {rs : List BatchRecord} (h : WriterRecords w rs) :
    ∀ r ∈ rs, r.Short := by
  obtain ⟨c, hb, rfl, -⟩ := h.built
  exact hb.holds.short

theorem WriterRecords.count {w : GroupWriter} {rs : List BatchRecord} (h : WriterRecords w rs) :
    w.batch.count = countOf rs := by
  obtain ⟨c, hb, rfl, -⟩ := h.built
  rw [hb.holds.count, u32_of_lt h.few]

theorem WriterRecords.iterate {w : GroupWriter} {rs : List BatchRecord} (h : WriterRecords w rs)
    (seq : ℕ) {σ : Type} (H : Handler σ) (s : σ) :
    (w.batch.setSequence seq).iterate H s = .ok (visit H rs true s) := by
  obtain ⟨c, hb, rfl, -⟩ := h.built
  have hset := hb.holds.setSequence seq
  exact BatchContents.iterate_of_rep (c := { c with sequence := u64 seq }) hset.rep hset.short H s

theorem appendAll_built {ws : List (GroupWriter × List BatchRecord)}
    (hws : ∀ p ∈ ws, WriterRecords p.1 p.2) :
    ∃ c, Built (appendAll (ws.map Prod.fst)) c ∧ c.records = groupRecords ws := by
  have hfold : ∀ (b : WriteBatch) (c : BatchContents), Built b c → ∃ c',
      Built ((ws.map Prod.fst).foldl
        (fun merged w => if w.callbackFailed then merged else merged.append w.batch true) b) c' ∧
        c'.records = c.records ++ groupRecords ws := by
    induction ws with
    | nil => exact fun b c hb => ⟨c, hb, by simp [groupRecords]⟩
    | cons p ws ih =>
        intro b c hb
        have htail := ih fun q hq => hws q (List.mem_cons_of_mem _ hq)
        rw [List.map_cons, List.foldl_cons]
        by_cases hfailed : p.1.callbackFailed = true
        · rw [if_pos hfailed]
          obtain ⟨c', hb', hc'⟩ := htail b c hb
          exact ⟨c', hb', by simp [hc', groupRecords, hfailed]⟩
        · rw [if_neg hfailed]
          obtain ⟨d, hd, hrecords, hterm⟩ := (hws p List.mem_cons_self).built
          have happended : d.appended true = d.records := by
            rw [BatchContents.appended, if_pos rfl, hterm, Option.getD_none]
          obtain ⟨c', hb', hc'⟩ := htail _ _
            (hb.append true hd (happended ▸ List.prefix_refl _))
          refine ⟨c', hb', ?_⟩
          rw [hc']
          simp [groupRecords, hfailed, happended, hrecords]
  obtain ⟨c, hb, hc⟩ := hfold _ _ (Built.create 0)
  exact ⟨c, hb, hc⟩

/-- What the log gets for a group. -/
theorem mergeBatch_rep {ws : List (GroupWriter × List BatchRecord)}
    (hws : ∀ p ∈ ws, WriterRecords p.1 p.2) (seq : ℕ) :
    ((mergeBatch (ws.map Prod.fst)).setSequence seq).rep =
      logRecord (u64 seq) (groupRecords ws) := by
  obtain ⟨c, hb, hc⟩ : ∃ c, Built (mergeBatch (ws.map Prod.fst)) c ∧
      c.records = groupRecords ws := by
    unfold mergeBatch
    split
    · rename_i leader hleader
      obtain ⟨p, rfl, rfl⟩ : ∃ p, ws = [p] ∧ p.1 = leader := by
        cases ws with
        | nil => simp at hleader
        | cons p ws =>
            simp only [List.map_cons, List.cons.injEq, List.map_eq_nil_iff] at hleader
            exact ⟨p, by rw [hleader.2], hleader.1⟩
      by_cases halone : ¬ p.1.callbackFailed = true ∧ p.1.batch.walTermPoint.isCleared = true
      · rw [if_pos halone]
        obtain ⟨d, hd, hrecords, -⟩ := (hws p List.mem_cons_self).built
        exact ⟨d, hd, by simp [groupRecords, halone.1, hrecords]⟩
      · rw [if_neg halone]
        exact appendAll_built hws
    · exact appendAll_built hws
  have hset := (hb.holds.setSequence seq).rep
  rw [hset, logRecord, BatchContents.rep, BatchContents.rep, hc]

section

variable {o : InserterOptions} {families : List ColumnFamily} {v : Bool}

/-- The batches of a group, one after another, give every column family the entries of their
records. -/
theorem insertGroup_received (hseq : o.seqPerBatch = false)
    (hids : (families.map ColumnFamily.id).Nodup) {ws : List (GroupWriter × List BatchRecord)}
    (hws : ∀ p ∈ ws, WriterRecords p.1 p.2)
    (hrs : ∀ r ∈ groupRecords ws, r.Acceptable o families) {seq : ℕ}
    (hfresh : ∀ s, seq ≤ s → s < seq + countOf (groupRecords ws) → Fresh families s) :
    ∃ v', insertGroup o (ws.map Prod.fst) ⟨seq, families, v⟩ =
      .ok (.ok, ⟨seq + countOf (groupRecords ws),
        families.map (receive o (entriesFrom seq (groupRecords ws))), v'⟩) := by
  induction ws generalizing families seq v with
  | nil => exact ⟨v, by simp [insertGroup, groupRecords, countOf, entriesFrom]⟩
  | cons p ws ih =>
      have htail : ∀ q ∈ ws, WriterRecords q.1 q.2 := fun q hq =>
        hws q (List.mem_cons_of_mem _ hq)
      rw [List.map_cons, insertGroup]
      by_cases hfailed : p.1.callbackFailed = true
      · have hskip : groupRecords (p :: ws) = groupRecords ws := by simp [groupRecords, hfailed]
        rw [hskip] at hrs hfresh
        rw [if_pos hfailed, hskip]
        exact ih hids htail hrs hfresh
      · have htake : groupRecords (p :: ws) = p.2 ++ groupRecords ws := by
          simp [groupRecords, hfailed]
        rw [htake, countOf_append] at hfresh
        rw [htake] at hrs
        obtain ⟨w, hvisit⟩ := visit_received (v := v) hseq hids
          (fun r hr => hrs r (List.mem_append_left _ hr))
          (fun s hle hlt => hfresh s hle (by omega)) true
        have hcat := @catalog_receive o families (entriesFrom seq p.2)
        have hids' : ((families.map (receive o (entriesFrom seq p.2))).map
            ColumnFamily.id).Nodup := by
          rwa [map_id_catalog, hcat, ← map_id_catalog]
        have hfresh' : ∀ s, seq + countOf p.2 ≤ s →
            s < seq + countOf p.2 + countOf (groupRecords ws) →
            Fresh (families.map (receive o (entriesFrom seq p.2))) s := by
          intro s hle hlt
          apply Fresh.receive (hfresh s (by omega) (by omega))
          intro q hq
          have hbound := (seq_of_mem_entriesFrom hq).2
          omega
        obtain ⟨w', hrest⟩ := ih (v := w) hids' htail
          (fun r hr => (hrs r (List.mem_append_right _ hr)).of_catalog hcat) hfresh'
        refine ⟨w', ?_⟩
        rw [if_neg hfailed, (hws p List.mem_cons_self).iterate, hvisit, Outcome.ok_bind]
        dsimp only
        rw [if_neg (by simp [BatchStatus.isOk]), hrest, map_receive_receive, htake,
          countOf_append, entriesFrom_append, Nat.add_assoc]

end

end Tweezer
