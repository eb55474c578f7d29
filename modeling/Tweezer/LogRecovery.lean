import Tweezer.WriteRuns

/-!
# What a recovery inserts

The records of a log are inserted again as they were: every column family that needs the log
receives its entries, with the sequence numbers that they were written with. The last sequence
number behind a recovery is that of the manifest, or that of the last record of a log.
-/

namespace Tweezer

/-- All entries of the memtables have smaller sequence numbers. -/
def MemsBelow (families : List ColumnFamily) (bound : ℕ) : Prop :=
  ∀ cf ∈ families, ∀ d ∈ cf.mem, d.seq < bound

section

variable {families : List ColumnFamily} {bound bound' : ℕ}

theorem MemsBelow.fresh (h : MemsBelow families bound) {s : ℕ} (hle : bound ≤ s) :
    Fresh families s := fun cf hcf d hd => ((h cf hcf d hd).trans_le hle).ne

theorem MemsBelow.receive (h : MemsBelow families bound) (hle : bound ≤ bound')
    {entries : List (UInt32 × MemEntry)} (hentries : ∀ p ∈ entries, p.2.seq < bound')
    (o : InserterOptions) : MemsBelow (families.map (receive o entries)) bound' := by
  intro cf hcf d hd
  obtain ⟨f, hf, rfl⟩ := List.mem_map.mp hcf
  by_cases hskip : o.skips f = true
  · rw [Tweezer.receive, if_pos hskip] at hd
    exact (h f hf d hd).trans_le hle
  · rw [Tweezer.receive, if_neg hskip] at hd
    rcases List.mem_append.mp hd with hold | hnew
    · exact (h f hf d hold).trans_le hle
    · exact hentries _ (mem_forFamily.mp hnew)

end

/-- The sequence number behind a group. -/
def groupEnd (g : ℕ × List BatchRecord) : ℕ := g.1 + countOf g.2

/-- A group in a log that can be inserted again. -/
structure Replayable (families : List ColumnFamily) (g : ℕ × List BatchRecord) : Prop where
  short : ∀ r ∈ g.2, r.Short
  acceptable : ∀ r ∈ g.2, r.Acceptable (LogReplay.recoveryOptions 0) families
  fits : groupEnd g < kMaxSequenceNumber

/-- Whether a record can be inserted is not a question of which log it is in. -/
theorem BatchRecord.Acceptable.of_ignores {o o' : InserterOptions} {r : BatchRecord}
    {families : List ColumnFamily} (h : r.Acceptable o families)
    (ho : o'.ignoreMissingColumnFamilies = true) : r.Acceptable o' families := by
  cases r with
  | deleteRange cf beginKey endKey => exact ⟨.inl ho, h.2⟩
  | put cf key value => exact .inl ho
  | delete cf key => exact .inl ho
  | singleDelete cf key => exact .inl ho
  | merge cf key value => exact .inl ho
  | putBlobIndex cf key value => exact .inl ho
  | logData blob => trivial
  | noop => trivial
  | _ => exact h.elim

theorem Replayable.of_catalog {families families' : List ColumnFamily}
    {g : ℕ × List BatchRecord} (h : Replayable families g)
    (hc : catalog families' = catalog families) : Replayable families' g :=
  ⟨h.short, fun r hr => (h.acceptable r hr).of_catalog hc, h.fits⟩

theorem sequence_logRecord {seq : ℕ} (h : seq < kMaxSequenceNumber) (rs : List BatchRecord) :
    ((WriteBatch.create 0).setContents (logRecord seq rs)).sequence = seq := by
  have hlt : seq < 256 ^ 8 := h.trans (by rw [kMaxSequenceNumber]; omega)
  rw [WriteBatch.sequence, WriteBatch.setContents, logRecord, BatchContents.rep, Bytes.slice,
    List.drop_zero, leEncode_eight_append_drop, Bytes.leDecode_leEncode_of_lt hlt]

/-- A record of a log gives every column family its entries. -/
theorem iterate_logRecord {families : List ColumnFamily}
    (hids : (families.map ColumnFamily.id).Nodup) {g : ℕ × List BatchRecord}
    (hg : Replayable families g) (hbelow : MemsBelow families g.1) (number : ℕ) :
    WriteBatch.kHeader ≤ (logRecord g.1 g.2).length ∧
    ∃ v, ((WriteBatch.create 0).setContents (logRecord g.1 g.2)).iterate
        (memTableInserter (LogReplay.recoveryOptions number))
        ⟨((WriteBatch.create 0).setContents (logRecord g.1 g.2)).sequence, families, false⟩ =
      .ok (.ok, ⟨groupEnd g, families.map
        (receive (LogReplay.recoveryOptions number) (entriesFrom g.1 g.2)), v⟩) := by
  have hsequence := sequence_logRecord ((Nat.le_add_right _ _).trans_lt hg.fits) g.2
  refine ⟨by rw [logRecord, BatchContents.length_rep]; exact Nat.le_add_right _ _, ?_⟩
  obtain ⟨v, hv⟩ := visit_received (v := false) (o := LogReplay.recoveryOptions number) rfl hids
    (fun r hr => (hg.acceptable r hr).of_ignores rfl)
    (fun s hle _ => hbelow.fresh hle) true
  refine ⟨v, ?_⟩
  rw [hsequence, BatchContents.iterate_of_rep (c := ⟨g.1, g.2, [], none⟩) rfl hg.short, hv,
    groupEnd]

/-! ### The records of one log -/

def entriesOf (groups : List (ℕ × List BatchRecord)) : List (UInt32 × MemEntry) :=
  groups.flatMap fun g => entriesFrom g.1 g.2

/-- Every group begins behind the one before it. -/
def InOrder (groups : List (ℕ × List BatchRecord)) : Prop :=
  groups.Pairwise fun g g' => groupEnd g ≤ g'.1

/-- The sequence number behind the last group, if there is one. -/
def nextBehind (next : ℕ) (groups : List (ℕ × List BatchRecord)) : ℕ :=
  groups.foldl (fun _ g => groupEnd g) next

theorem nextBehind_le {bound next : ℕ} {groups : List (ℕ × List BatchRecord)}
    (hnext : next ≤ bound) (h : ∀ g ∈ groups, groupEnd g ≤ bound) :
    nextBehind next groups ≤ bound := by
  induction groups generalizing next with
  | nil => exact hnext
  | cons g groups ih =>
      exact ih (h g List.mem_cons_self) fun g' hg' => h g' (List.mem_cons_of_mem _ hg')

theorem le_nextBehind {next : ℕ} {groups : List (ℕ × List BatchRecord)} (h : InOrder groups)
    (hnext : ∀ g ∈ groups, next ≤ g.1) : next ≤ nextBehind next groups := by
  induction groups generalizing next with
  | nil => exact Nat.le_refl next
  | cons g groups ih =>
      obtain ⟨hfirst, hrest⟩ := List.pairwise_cons.mp h
      have hg := (hnext g List.mem_cons_self).trans (Nat.le_add_right _ (countOf g.2))
      exact hg.trans (ih hrest hfirst)

/-- The last group ends last. -/
theorem groupEnd_le_nextBehind {groups : List (ℕ × List BatchRecord)} (h : InOrder groups)
    (next : ℕ) : ∀ g ∈ groups, groupEnd g ≤ nextBehind next groups := by
  induction groups generalizing next with
  | nil => simp
  | cons g groups ih =>
      obtain ⟨hfirst, hrest⟩ := List.pairwise_cons.mp h
      intro g' hg'
      rcases List.mem_cons.mp hg' with rfl | htail
      · exact le_nextBehind hrest hfirst
      · exact ih hrest (groupEnd g) g' htail

theorem nextBehind_cases (next : ℕ) (groups : List (ℕ × List BatchRecord)) :
    (groups = [] ∧ nextBehind next groups = next) ∨
      ∃ g ∈ groups, nextBehind next groups = groupEnd g := by
  induction groups generalizing next with
  | nil => exact .inl ⟨rfl, rfl⟩
  | cons g groups ih =>
      rcases ih (groupEnd g) with ⟨-, heq⟩ | ⟨g', hg', heq⟩
      · exact .inr ⟨g, List.mem_cons_self, heq⟩
      · exact .inr ⟨g', List.mem_cons_of_mem _ hg', heq⟩

/-- The records of a log are all inserted. -/
theorem replayRecords_groups {families : List ColumnFamily}
    (hids : (families.map ColumnFamily.id).Nodup) {groups : List (ℕ × List BatchRecord)}
    (hgroups : ∀ g ∈ groups, Replayable families g) (horder : InOrder groups) {bound : ℕ}
    (hbelow : MemsBelow families bound) (hbound : ∀ g ∈ groups, bound ≤ g.1)
    (number last next : ℕ) :
    LogReplay.replayRecords number (groups.map fun g => logRecord g.1 g.2)
        ⟨last, next, families⟩ =
      .ok (.ok, ⟨last, nextBehind next groups,
        families.map (receive (LogReplay.recoveryOptions number) (entriesOf groups))⟩) := by
  induction groups generalizing families bound next with
  | nil => simp [LogReplay.replayRecords, nextBehind, entriesOf]
  | cons g groups ih =>
      obtain ⟨hfirst, hrest⟩ := List.pairwise_cons.mp horder
      have hg := hgroups g List.mem_cons_self
      have hfront : MemsBelow families g.1 := fun cf hcf d hd =>
        (hbelow cf hcf d hd).trans_le (hbound g List.mem_cons_self)
      obtain ⟨hlength, v, hv⟩ := iterate_logRecord hids hg hfront number
      have hcat := @catalog_receive (LogReplay.recoveryOptions number) families
        (entriesFrom g.1 g.2)
      have hbehind : MemsBelow (families.map (receive (LogReplay.recoveryOptions number)
          (entriesFrom g.1 g.2))) (groupEnd g) :=
        hfront.receive (Nat.le_add_right _ _) (fun p hp => (seq_of_mem_entriesFrom hp).2) _
      have hids' : ((families.map (receive (LogReplay.recoveryOptions number)
          (entriesFrom g.1 g.2))).map ColumnFamily.id).Nodup := by
        rwa [map_id_catalog, hcat, ← map_id_catalog]
      have htail := ih hids'
        (fun g' hg' => (hgroups g' (List.mem_cons_of_mem _ hg')).of_catalog hcat) hrest hbehind
        hfirst (groupEnd g)
      rw [List.map_cons, LogReplay.replayRecords, if_neg (by omega)]
      dsimp only
      rw [hv, Outcome.ok_bind]
      dsimp only
      rw [if_neg (by simp [BatchStatus.isOk]), htail, map_receive_receive]
      rfl

/-! ### All logs -/

/-- A column family with the entries of the logs that it needs at the end of its memtable. -/
def addLogs (ls : List LoggedGroups) (cf : ColumnFamily) : ColumnFamily :=
  { cf with mem := cf.mem ++ inLogs (fromLog cf.logNumber) cf.id ls }

theorem addLogs_receive {l : LoggedGroups} (hpositive : 0 < l.number) (ls : List LoggedGroups)
    (cf : ColumnFamily) :
    addLogs ls (receive (LogReplay.recoveryOptions l.number) l.entries cf) =
      addLogs (l :: ls) cf := by
  have hskips : (LogReplay.recoveryOptions l.number).skips cf =
      ! fromLog cf.logNumber l.number := by
    by_cases hle : cf.logNumber ≤ l.number
    · simp [InserterOptions.skips, LogReplay.recoveryOptions, fromLog, hle, not_lt.mpr hle]
    · simp [InserterOptions.skips, LogReplay.recoveryOptions, fromLog, hle, hpositive.ne',
        not_le.mp hle]
  have hsplit : inLogs (fromLog cf.logNumber) cf.id (l :: ls) =
      (if fromLog cf.logNumber l.number then forFamily cf.id l.entries else []) ++
        inLogs (fromLog cf.logNumber) cf.id ls := by
    rw [inLogs, List.filter_cons]
    split_ifs <;> rfl
  rw [receive, hskips, addLogs, addLogs, hsplit]
  cases fromLog cf.logNumber l.number with
  | true => simp
  | false => simp

/-- The last sequence number behind a log. -/
def lastBehind (next last : ℕ) : ℕ :=
  if next ≠ kMaxSequenceNumber ∧ last ≤ next - 1 then next - 1 else last

theorem le_lastBehind (next last : ℕ) : last ≤ lastBehind next last := by
  rw [lastBehind]
  split_ifs with h
  · exact h.2
  · exact Nat.le_refl _

theorem lastBehind_le {next last bound : ℕ} (hlast : last ≤ bound)
    (hnext : next ≠ kMaxSequenceNumber → next ≤ bound + 1) :
    lastBehind next last ≤ bound := by
  rw [lastBehind]
  split_ifs with h
  · have hle := hnext h.1
    omega
  · exact hlast

theorem next_le_lastBehind {next last : ℕ} (h : next ≠ kMaxSequenceNumber) :
    next ≤ lastBehind next last + 1 := by
  rw [lastBehind]
  by_cases hle : last ≤ next - 1
  · rw [if_pos ⟨h, hle⟩]
    omega
  · rw [if_neg fun hand => hle hand.2]
    omega

def groupsOf (ls : List LoggedGroups) : List (ℕ × List BatchRecord) :=
  ls.flatMap LoggedGroups.groups

@[simp] theorem groupsOf_concat (ls : List LoggedGroups) (l : LoggedGroups) :
    groupsOf (ls ++ [l]) = groupsOf ls ++ l.groups := by
  rw [groupsOf, List.flatMap_append, List.flatMap_singleton, groupsOf]

/-- The logs are all replayed, and every column family has then the entries of those that it
needs. No sequence number is lost. -/
theorem replayLogs_groups {families : List ColumnFamily}
    (hids : (families.map ColumnFamily.id).Nodup) {ls : List LoggedGroups}
    (hpositive : ∀ l ∈ ls, 0 < l.number)
    (hgroups : ∀ g ∈ groupsOf ls, Replayable families g) (horder : InOrder (groupsOf ls))
    {bound : ℕ} (hbelow : MemsBelow families bound) (hbound : ∀ g ∈ groupsOf ls, bound ≤ g.1)
    {last next : ℕ} (hnext : next ≠ kMaxSequenceNumber → next ≤ last + 1) :
    ∃ last' next', LogReplay.replayLogs (ls.map LoggedGroups.live) ⟨last, next, families⟩ =
        .ok (.ok, ⟨last', next', families.map (addLogs ls)⟩) ∧
      last ≤ last' ∧ (∀ g ∈ groupsOf ls, groupEnd g ≤ last' + 1) ∧
      ∀ b, last ≤ b → (∀ g ∈ groupsOf ls, groupEnd g ≤ b + 1) → last' ≤ b := by
  induction ls generalizing families bound last next with
  | nil =>
      have hsame : families.map (addLogs []) = families := by
        have haddLogs : ∀ cf : ColumnFamily, addLogs [] cf = cf := fun cf => by
          simp [addLogs, inLogs]
        rw [List.map_congr_left fun cf _ => haddLogs cf, List.map_id']
      refine ⟨last, next, ?_, Nat.le_refl _, by simp [groupsOf], fun _ h _ => h⟩
      rw [hsame]
      rfl
  | cons l ls ih =>
      have hsplit : groupsOf (l :: ls) = l.groups ++ groupsOf ls := List.flatMap_cons
      rw [hsplit] at hgroups horder hbound
      simp only [hsplit]
      obtain ⟨hfirst, hrest, hcross⟩ := List.pairwise_append.mp horder
      have hreplay := replayRecords_groups hids
        (fun g hg => hgroups g (List.mem_append_left _ hg)) hfirst hbelow
        (fun g hg => hbound g (List.mem_append_left _ hg)) l.number last next
      have hcat := @catalog_receive (LogReplay.recoveryOptions l.number) families l.entries
      have hids' : ((families.map (receive (LogReplay.recoveryOptions l.number)
          l.entries)).map ColumnFamily.id).Nodup := by
        rwa [map_id_catalog, hcat, ← map_id_catalog]
      have hends := groupEnd_le_nextBehind hfirst
      have hbelow' : MemsBelow (families.map (receive (LogReplay.recoveryOptions l.number)
          l.entries)) (nextBehind bound l.groups) := by
        refine hbelow.receive (le_nextBehind hfirst fun g hg =>
          hbound g (List.mem_append_left _ hg)) (fun p hp => ?_) _
        obtain ⟨g, hg, hp⟩ := List.mem_flatMap.mp hp
        exact (seq_of_mem_entriesFrom hp).2.trans_le (hends bound g hg)
      have hbound' : ∀ g ∈ groupsOf ls, nextBehind bound l.groups ≤ g.1 := fun g hg =>
        nextBehind_le (hbound g (List.mem_append_right _ hg)) fun g' hg' => hcross g' hg' g hg
      have hlast : nextBehind next l.groups ≠ kMaxSequenceNumber → nextBehind next l.groups ≤
          lastBehind (nextBehind next l.groups) last + 1 := next_le_lastBehind
      obtain ⟨last', next', hrun, hle, hall, hleast⟩ := ih hids'
        (fun m hm => hpositive m (List.mem_cons_of_mem _ hm))
        (fun g hg => (hgroups g (List.mem_append_right _ hg)).of_catalog hcat) hrest hbelow'
        hbound' hlast
      refine ⟨last', next', ?_, (le_lastBehind _ _).trans hle, ?_, ?_⟩
      · have hfamilies : (families.map (receive (LogReplay.recoveryOptions l.number)
            l.entries)).map (addLogs ls) = families.map (addLogs (l :: ls)) := by
          rw [List.map_map]
          exact List.map_congr_left fun cf _ =>
            addLogs_receive (hpositive l List.mem_cons_self) ls cf
        rw [← hfamilies, ← hrun, List.map_cons, LogReplay.replayLogs]
        dsimp only [LoggedGroups.live]
        rw [hreplay, Outcome.ok_bind]
        dsimp only
        rw [if_neg (by simp [BatchStatus.isOk]), lastBehind]
        split_ifs <;> rfl
      · intro g hg
        rcases List.mem_append.mp hg with hl | hls
        · have hfits : nextBehind next l.groups ≠ kMaxSequenceNumber := by
            rcases nextBehind_cases next l.groups with ⟨hnil, -⟩ | ⟨g', hg', heq⟩
            · rw [hnil] at hl
              exact absurd hl List.not_mem_nil
            · rw [heq]
              exact (hgroups g' (List.mem_append_left _ hg')).fits.ne
          have hnow := hlast hfits
          have hg := hends next g hl
          omega
        · exact hall g hls
      · intro b hb hgroups
        refine hleast b (lastBehind_le hb fun hne => ?_) fun g hg =>
          hgroups g (List.mem_append_right _ hg)
        rcases nextBehind_cases next l.groups with ⟨-, heq⟩ | ⟨g', hg', heq⟩
        · rw [heq] at hne ⊢
          exact (hnext hne).trans (Nat.add_le_add_right hb 1)
        · rw [heq]
          exact hgroups g' (List.mem_append_left _ hg')

end Tweezer
