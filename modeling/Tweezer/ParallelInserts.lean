import Tweezer.WriteGroupInserts

/-!
# Writers that insert at the same time

Every writer of a group inserts its own batch, and their turns come in any order. What is
still to be inserted and what was inserted are together the entries of the group all along,
so when the writers are through the memtables hold these entries, whatever the order was.
-/

namespace Tweezer

/-- A column family with more entries at the end of its memtable. -/
def addMem (X : UInt32 → List MemEntry) (cf : ColumnFamily) : ColumnFamily :=
  { cf with mem := cf.mem ++ X cf.id }

theorem catalog_addMem (families : List ColumnFamily) (X : UInt32 → List MemEntry) :
    catalog (families.map (addMem X)) = catalog families :=
  catalog_map fun _ => ⟨rfl, rfl, rfl⟩

/-- An inserter that does not recover skips nothing. -/
theorem receive_live {o : InserterOptions} (ho : o.recoveringLogNumber = 0)
    (entries : List (UInt32 × MemEntry)) (cf : ColumnFamily) :
    receive o entries cf = addMem (fun id => forFamily id entries) cf := by
  rw [receive, InserterOptions.skips, ho, addMem]
  rfl

theorem receive_addMem {o : InserterOptions} (ho : o.recoveringLogNumber = 0)
    (families : List ColumnFamily) (X : UInt32 → List MemEntry)
    (entries : List (UInt32 × MemEntry)) :
    (families.map (addMem X)).map (receive o entries) =
      families.map (addMem fun id => X id ++ forFamily id entries) := by
  rw [List.map_map]
  apply List.map_congr_left
  intro cf _
  rw [Function.comp_apply, receive_live ho, addMem, addMem, addMem, List.append_assoc]

/-- One element of a list gives up what is at its front. -/
theorem flatMap_set_perm {α β : Type} {f : α → List β} {front : List β} {x y : α}
    (hxy : f x = front ++ f y) {l : List α} {i : ℕ} (hx : l[i]? = some x) :
    (l.flatMap f).Perm (front ++ (l.set i y).flatMap f) := by
  induction l generalizing i with
  | nil => simp at hx
  | cons a l ih =>
      cases i with
      | zero =>
          obtain rfl : a = x := by simpa using hx
          rw [List.set_cons_zero, List.flatMap_cons, List.flatMap_cons, hxy, List.append_assoc]
      | succ i =>
          rw [List.set_cons_succ, List.flatMap_cons, List.flatMap_cons]
          have hrest := (ih (by simpa using hx)).append_left (f a)
          refine hrest.trans ?_
          rw [← List.append_assoc, ← List.append_assoc]
          exact List.perm_append_comm.append_right _

namespace ParallelInserts

abbrev Thread := InserterOptions × WriteBatch × Turn MemTableInserter

/-- The records that a writer has still to insert, with the sequence number of the first. -/
abbrev Remaining := ℕ × List BatchRecord

def pending (ts : List (Thread × Remaining)) : List (UInt32 × MemEntry) :=
  ts.flatMap fun t => entriesFrom t.2.1 t.2.2

/-- The turns that a writer has still to take: one for every record, and one at the end. -/
def turnsOf (t : Thread × Remaining) : List (Option BatchRecord) :=
  match t.1.2.2 with
  | .next _ => t.2.2.map some ++ [none]
  | _ => []

def turnsLeft (ts : List (Thread × Remaining)) : List (Option BatchRecord) := ts.flatMap turnsOf

/-- A writer is in front of these records, or it is through with all of them. -/
inductive At (families : List ColumnFamily) : Thread × Remaining → Prop where
  | running {o : InserterOptions} {b : WriteBatch} {seq found : ℕ} {rs : List BatchRecord}
      {record : BatchRecord} {again emptyBatch v : Bool} {stale : List ColumnFamily} :
      o.seqPerBatch = false → o.recoveringLogNumber = 0 → (∀ r ∈ rs, r.Short) →
      (∀ r ∈ rs, r.Acceptable o families) → u32 (found + countOf rs) = b.count →
      At families ((o, b, .next ⟨encodeAll rs, .ok, record, again, emptyBatch, found, true,
        ⟨seq, stale, v⟩⟩), (seq, rs))
  | through {o : InserterOptions} {b : WriteBatch} {seq : ℕ} {it : Iteration MemTableInserter} :
      (b.iterateResult (.ok it)).1 = .ok → At families ((o, b, .left it), (seq, []))

/-- Where a group is that inserts the entries `all` into `families`: what was inserted so far,
and the writers with what they have left. -/
structure Inserting (families : List ColumnFamily) (all : List (UInt32 × MemEntry))
    (s : ParallelInserts) (X : UInt32 → List MemEntry) (ts : List (Thread × Remaining)) :
    Prop where
  held : s.families = families.map (addMem X)
  threads : s.threads = ts.map Prod.fst
  atRecords : ∀ t ∈ ts, At families t
  perm : ∀ id, (X id ++ forFamily id (pending ts)).Perm (forFamily id all)
  nodup : ((pending ts).map fun p => p.2.seq).Nodup
  fresh : ∀ p ∈ pending ts, Fresh s.families p.2.seq

theorem At.set {families : List ColumnFamily} {ts : List (Thread × Remaining)}
    (h : ∀ t ∈ ts, At families t) {t : Thread × Remaining} (ht : At families t) (i : ℕ) :
    ∀ u ∈ ts.set i t, At families u := by
  intro u hu
  rcases List.mem_or_eq_of_mem_set hu with hold | rfl
  · exact h u hold
  · exact ht

/-- One writer gives up the entries of its first record, which the memtables received. -/
theorem Inserting.advance {families : List ColumnFamily} {all : List (UInt32 × MemEntry)}
    {s : ParallelInserts} {X : UInt32 → List MemEntry} {ts : List (Thread × Remaining)}
    (h : Inserting families all s X ts) {o : InserterOptions} (ho : o.recoveringLogNumber = 0)
    {i : ℕ} {t u : Thread × Remaining} (ht : ts[i]? = some t) {A : List (UInt32 × MemEntry)}
    (hfront : entriesFrom t.2.1 t.2.2 = A ++ entriesFrom u.2.1 u.2.2)
    (hat : At families u) :
    Inserting families all ⟨s.families.map (receive o A), s.threads.set i u.1⟩
      (fun id => X id ++ forFamily id A) (ts.set i u) := by
  have hperm : (pending ts).Perm (A ++ pending (ts.set i u)) :=
    flatMap_set_perm (f := fun t : Thread × Remaining => entriesFrom t.2.1 t.2.2) hfront ht
  have hseqs : ((A ++ pending (ts.set i u)).map fun p => p.2.seq).Nodup :=
    (hperm.map _).nodup_iff.mp h.nodup
  rw [List.map_append, List.nodup_append] at hseqs
  refine ⟨?_, ?_, At.set h.atRecords hat i, ?_, hseqs.2.1, ?_⟩
  · change s.families.map (receive o A) = _
    rw [h.held, receive_addMem ho]
  · change s.threads.set i u.1 = _
    rw [h.threads, List.map_set]
  · intro id
    have hid := hperm.filterMap fun p => if p.1 = id then some p.2 else none
    rw [List.filterMap_append] at hid
    rw [List.append_assoc]
    exact (List.Perm.append_left (X id) hid.symm).trans (h.perm id)
  · intro p hp
    apply Fresh.receive (h.fresh p (hperm.mem_iff.mpr (List.mem_append_right _ hp)))
    intro q hq
    exact hseqs.2.2 _ (List.mem_map_of_mem hq) _ (List.mem_map_of_mem hp)

theorem length_turnsLeft_set {ts : List (Thread × Remaining)} {i : ℕ} {t u : Thread × Remaining}
    (ht : ts[i]? = some t) {turn : Option BatchRecord} (hturn : turnsOf t = turn :: turnsOf u) :
    (turnsLeft ts).length = (turnsLeft (ts.set i u)).length + 1 := by
  have hperm : (turnsLeft ts).Perm ([turn] ++ turnsLeft (ts.set i u)) :=
    flatMap_set_perm (f := turnsOf) hturn ht
  rw [hperm.length_eq, List.singleton_append, List.length_cons]

/-- A turn of any writer. It is one turn less that is left. -/
theorem Inserting.step {families : List ColumnFamily} {all : List (UInt32 × MemEntry)}
    {s s' : ParallelInserts} {X : UInt32 → List MemEntry} {ts : List (Thread × Remaining)}
    (h : Inserting families all s X ts) (hids : (families.map ColumnFamily.id).Nodup) {i : ℕ}
    (hstep : s.step i = some s') : ∃ X' ts', Inserting families all s' X' ts' ∧
      (turnsLeft ts).length = (turnsLeft ts').length + 1 := by
  obtain ⟨t, ht⟩ : ∃ t, ts[i]? = some t := by
    cases hts : ts[i]? with
    | none => simp [ParallelInserts.step, h.threads, hts] at hstep
    | some t => exact ⟨t, rfl⟩
  have hthread : s.threads[i]? = some t.1 := by rw [h.threads, List.getElem?_map, ht]; rfl
  have hcat : catalog s.families = catalog families := by rw [h.held, catalog_addMem]
  have hids' : (s.families.map ColumnFamily.id).Nodup := by
    rwa [map_id_catalog, hcat, ← map_id_catalog]
  cases h.atRecords t (List.mem_of_getElem? ht) with
  | through hok => simp [ParallelInserts.step, hthread] at hstep
  | @running o b seq found rs record again emptyBatch v stale hseq ho hshort hacc hcount =>
      rw [ParallelInserts.step, hthread] at hstep
      dsimp only at hstep
      cases rs with
      | nil =>
          have hfound : u32 found = b.count := hcount
          rw [iterateTurn_end rfl rfl] at hstep
          obtain rfl := Option.some.inj hstep
          have hadvance := h.advance (A := []) (o := o) ho ht
            (u := ((o, b, .left ⟨encodeAll [], .ok, record, again, emptyBatch, found, true,
              ⟨seq, s.families, v⟩⟩), (seq, []))) rfl
            (.through (by simp [WriteBatch.iterateResult, hfound, BatchStatus.isOk]))
          rw [map_receive_nil] at hadvance
          exact ⟨_, _, hadvance, length_turnsLeft_set ht rfl⟩
      | cons r rs =>
          have hr : r.Short := hshort r List.mem_cons_self
          have hmine : ∀ p ∈ (r.entry seq).toList, p ∈ pending ts := by
            intro p hp
            apply List.mem_flatMap.mpr
            exact ⟨_, List.mem_of_getElem? ht, List.mem_append_left _ hp⟩
          have hfresh : r.counts = true → Fresh s.families seq := by
            intro hcounts
            obtain ⟨p, hp⟩ : ∃ p, p ∈ (r.entry seq).toList := by
              cases r <;> simp_all [BatchRecord.entry, BatchRecord.counts]
            rw [← (BatchRecord.entry_seq hp).1]
            exact h.fresh p (hmine p hp)
          obtain ⟨e, w, hd⟩ := dispatch_received (v := v) hseq hids'
            ((hacc r List.mem_cons_self).of_catalog hcat) hfresh emptyBatch
          rw [iterateTurn_read (i := ⟨encodeAll (r :: rs), .ok, record, again, emptyBatch, found,
            true, ⟨seq, s.families, v⟩⟩) hr rfl (encodeAll_cons r rs) rfl hd] at hstep
          obtain rfl := Option.some.inj hstep
          rw [countOf_cons, ← Nat.add_assoc] at hcount
          have hat := @At.running families o b (seq + if r.counts then 1 else 0) _ rs r false e w
            (s.families.map (receive o (r.entry seq).toList)) hseq ho
            (fun t ht => hshort t (List.mem_cons_of_mem _ ht))
            (fun t ht => hacc t (List.mem_cons_of_mem _ ht)) hcount
          exact ⟨_, _, h.advance ho ht rfl hat, length_turnsLeft_set ht rfl⟩

theorem Inserting.run {families : List ColumnFamily} {all : List (UInt32 × MemEntry)}
    {s s' : ParallelInserts} {X : UInt32 → List MemEntry} {ts : List (Thread × Remaining)}
    (h : Inserting families all s X ts) (hids : (families.map ColumnFamily.id).Nodup)
    {schedule : List ℕ} (hrun : s.run schedule = some s') :
    ∃ X' ts', Inserting families all s' X' ts' ∧
      (turnsLeft ts).length = (turnsLeft ts').length + schedule.length := by
  induction schedule generalizing s X ts with
  | nil =>
      obtain rfl : s = s' := Option.some.inj hrun
      exact ⟨X, ts, h, rfl⟩
  | cons i schedule ih =>
      rw [ParallelInserts.run, List.foldlM_cons] at hrun
      obtain ⟨s₁, hstep, hrest⟩ := Option.bind_eq_some_iff.mp hrun
      obtain ⟨X₁, ts₁, h₁, hturn⟩ := h.step hids hstep
      obtain ⟨X', ts', h', hturns⟩ := ih h₁ hrest
      refine ⟨X', ts', h', ?_⟩
      rw [List.length_cons]
      omega

theorem mapM_statusOf {families : List ColumnFamily} {ts : List (Thread × Remaining)}
    (h : ∀ t ∈ ts, At families t) {statuses : List BatchStatus}
    (hs : (ts.map Prod.fst).mapM statusOf = some statuses) :
    (∀ status ∈ statuses, status = .ok) ∧ pending ts = [] := by
  induction ts generalizing statuses with
  | nil =>
      obtain rfl : [] = statuses := Option.some.inj hs
      exact ⟨fun _ hmem => absurd hmem List.not_mem_nil, rfl⟩
  | cons t ts ih =>
      rw [List.map_cons, List.mapM_cons] at hs
      obtain ⟨status, hstatus, hs⟩ := Option.bind_eq_some_iff.mp hs
      obtain ⟨rest, hrest, hs⟩ := Option.bind_eq_some_iff.mp hs
      obtain rfl : status :: rest = statuses := Option.some.inj hs
      obtain ⟨hok, hpending⟩ := ih (fun u hu => h u (List.mem_cons_of_mem _ hu)) hrest
      cases h t List.mem_cons_self with
      | running => simp [statusOf] at hstatus
      | through hthrough =>
          obtain rfl := Option.some.inj hstatus
          refine ⟨List.forall_mem_cons.mpr ⟨hthrough, hok⟩, ?_⟩
          rw [pending, List.flatMap_cons, ← pending, hpending]
          rfl

/-- When all writers are through, their entries were inserted, and none of them failed. -/
theorem Inserting.through {families : List ColumnFamily} {all : List (UInt32 × MemEntry)}
    {s : ParallelInserts} {X : UInt32 → List MemEntry} {ts : List (Thread × Remaining)}
    (h : Inserting families all s X ts) {statuses : List BatchStatus}
    (hs : s.statuses = some statuses) :
    (∀ status ∈ statuses, status = .ok) ∧ ∀ id, (X id).Perm (forFamily id all) := by
  rw [ParallelInserts.statuses, h.threads] at hs
  obtain ⟨hok, hpending⟩ := mapM_statusOf h.atRecords hs
  refine ⟨hok, fun id => ?_⟩
  have hperm := h.perm id
  rwa [hpending, forFamily, List.filterMap_nil, List.append_nil] at hperm

/-- While turns are left, some writer can take one. -/
theorem Inserting.turn {families : List ColumnFamily} {all : List (UInt32 × MemEntry)}
    {s : ParallelInserts} {X : UInt32 → List MemEntry} {ts : List (Thread × Remaining)}
    (h : Inserting families all s X ts) (hleft : turnsLeft ts ≠ []) :
    ∃ i s', s.step i = some s' := by
  obtain ⟨t, hmem, ht⟩ : ∃ t ∈ ts, turnsOf t ≠ [] := by
    by_contra hnone
    push Not at hnone
    exact hleft (List.flatMap_eq_nil_iff.mpr hnone)
  obtain ⟨i, hi⟩ := List.mem_iff_getElem?.mp hmem
  have hthread : s.threads[i]? = some t.1 := by rw [h.threads, List.getElem?_map, hi]; rfl
  cases h.atRecords t hmem with
  | running => exact ⟨i, _, by rw [ParallelInserts.step, hthread]⟩
  | through => exact absurd rfl ht

/-- The writers of a group that are not refused, each in front of its records. -/
def launched (families : List ColumnFamily) :
    ℕ → List (GroupWriter × List BatchRecord) → List (Thread × Remaining)
  | _, [] => []
  | seq, p :: ws =>
      if p.1.callbackFailed then launched families seq ws
      else (launch families p.1 seq, (seq, p.2)) :: launched families (seq + countOf p.2) ws

theorem map_launched {families : List ColumnFamily} {ws : List (GroupWriter × List BatchRecord)}
    (hws : ∀ p ∈ ws, WriterRecords p.1 p.2) (seq : ℕ) :
    (launched families seq ws).map Prod.fst =
      (assignSequences seq (ws.map Prod.fst)).map fun p => launch families p.1 p.2 := by
  induction ws generalizing seq with
  | nil => rfl
  | cons p ws ih =>
      have htail := ih fun q hq => hws q (List.mem_cons_of_mem _ hq)
      rw [launched, List.map_cons, assignSequences]
      by_cases hfailed : p.1.callbackFailed = true
      · rw [if_pos hfailed, if_pos hfailed, htail]
      · rw [if_neg hfailed, if_neg hfailed, List.map_cons, List.map_cons, htail,
          (hws p List.mem_cons_self).count]

theorem pending_launched (families : List ColumnFamily)
    (ws : List (GroupWriter × List BatchRecord)) (seq : ℕ) :
    pending (launched families seq ws) = entriesFrom seq (groupRecords ws) := by
  induction ws generalizing seq with
  | nil => rfl
  | cons p ws ih =>
      rw [launched]
      by_cases hfailed : p.1.callbackFailed = true
      · rw [if_pos hfailed, ih]
        simp [groupRecords, hfailed]
      · rw [if_neg hfailed]
        have htake : groupRecords (p :: ws) = p.2 ++ groupRecords ws := by
          simp [groupRecords, hfailed]
        rw [htake, entriesFrom_append, ← ih]
        rfl

theorem launch_at {w : GroupWriter} {rs : List BatchRecord}
    (h : WriterRecords w rs) {families : List ColumnFamily}
    (hrs : ∀ r ∈ rs, r.Acceptable (liveOptions w.ignoreMissingColumnFamilies) families)
    (seq : ℕ) : At families (launch families w seq, (seq, rs)) := by
  obtain ⟨c, hb, rfl, -⟩ := h.built
  have hset := hb.holds.setSequence seq
  have hlen : ¬ (w.batch.setSequence seq).rep.length < WriteBatch.kHeader := by
    rw [hset.length_rep]
    omega
  have hbody : (w.batch.setSequence seq).rep.drop WriteBatch.kHeader = encodeAll c.records := by
    rw [hset.rep, BatchContents.rep, ← List.append_assoc]
    exact List.drop_left' (by simp [WriteBatch.kHeader])
  rw [launch, if_neg hlen, hbody]
  apply At.running rfl rfl hset.short hrs
  rw [Nat.zero_add]
  exact hset.count.symm

theorem launched_at {families : List ColumnFamily} {ws : List (GroupWriter × List BatchRecord)}
    (hws : ∀ p ∈ ws, WriterRecords p.1 p.2)
    (hrs : ∀ p ∈ ws, ∀ r ∈ p.2,
      r.Acceptable (liveOptions p.1.ignoreMissingColumnFamilies) families) (seq : ℕ) :
    ∀ t ∈ launched families seq ws, At families t := by
  induction ws generalizing seq with
  | nil => simp [launched]
  | cons p ws ih =>
      have htail := ih (fun q hq => hws q (List.mem_cons_of_mem _ hq))
        fun q hq => hrs q (List.mem_cons_of_mem _ hq)
      rw [launched]
      by_cases hfailed : p.1.callbackFailed = true
      · rw [if_pos hfailed]
        exact htail seq
      · rw [if_neg hfailed]
        intro t ht
        rcases List.mem_cons.mp ht with rfl | ht
        · exact launch_at (hws p List.mem_cons_self) (hrs p List.mem_cons_self) seq
        · exact htail _ t ht

/-- A group begins to insert. -/
theorem inserting_launched {families : List ColumnFamily}
    {ws : List (GroupWriter × List BatchRecord)} (hws : ∀ p ∈ ws, WriterRecords p.1 p.2)
    (hrs : ∀ p ∈ ws, ∀ r ∈ p.2,
      r.Acceptable (liveOptions p.1.ignoreMissingColumnFamilies) families) {seq : ℕ}
    (hfresh : ∀ s, seq ≤ s → Fresh families s) :
    Inserting families (entriesFrom seq (groupRecords ws))
      ⟨families, (launched families seq ws).map Prod.fst⟩ (fun _ => [])
      (launched families seq ws) := by
  refine ⟨?_, rfl, launched_at hws hrs seq, ?_, ?_, ?_⟩
  · have hid : families.map (addMem fun _ => []) = families.map id := by
      apply List.map_congr_left
      intro cf _
      rw [addMem, List.append_nil, id]
    rw [hid, List.map_id]
  · intro id
    rw [pending_launched, List.nil_append]
  · rw [pending_launched]
    exact nodup_entriesFrom _ _
  · intro p hp
    rw [pending_launched] at hp
    exact hfresh _ (seq_of_mem_entriesFrom hp).1

end ParallelInserts

end Tweezer
