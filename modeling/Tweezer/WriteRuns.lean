import Tweezer.LogReplay
import Tweezer.ParallelInserts

/-!
# Runs of writes, switches of memtables, flushes and reopenings

The entries of a database are those of the records that its groups wrote, each with the
sequence number that its place in the run gives it. A log is seen as the groups whose records
it holds.
-/

namespace Tweezer

/-! ### One group -/

/-- The entries whose column families are there. -/
def stored (families : List ColumnFamily) (entries : List (UInt32 × MemEntry)) :
    List (UInt32 × MemEntry) :=
  entries.filter fun p => (families.map ColumnFamily.id).contains p.1

theorem forFamily_stored {families : List ColumnFamily} {cf : ColumnFamily}
    (h : cf ∈ families) (entries : List (UInt32 × MemEntry)) :
    forFamily cf.id (stored families entries) = forFamily cf.id entries := by
  rw [forFamily, forFamily, stored, List.filterMap_filter]
  apply List.filterMap_congr
  intro p _
  by_cases hid : p.1 = cf.id
  · have hmem : cf.id ∈ families.map ColumnFamily.id := List.mem_map_of_mem h
    simp [hid, List.mem_map.mp hmem]
  · simp [hid]

/-- A group of writers with the records of their batches: records that the column families
take, also where the leader inserts them for the group. -/
structure GroupOf (families : List ColumnFamily) (ignoreMissing : Bool)
    (ws : List (GroupWriter × List BatchRecord)) : Prop where
  writers : ∀ p ∈ ws, WriterRecords p.1 p.2
  own : ∀ p ∈ ws, ∀ r ∈ p.2,
    r.Acceptable (liveOptions p.1.ignoreMissingColumnFamilies) families
  leader : ∀ r ∈ groupRecords ws, r.Acceptable (liveOptions ignoreMissing) families

theorem sum_count {ws : List (GroupWriter × List BatchRecord)}
    (h : ∀ p ∈ ws, WriterRecords p.1 p.2) :
    ((ws.map Prod.fst).map fun w => if w.callbackFailed then 0 else w.batch.count).sum =
      countOf (groupRecords ws) := by
  induction ws with
  | nil => rfl
  | cons p ws ih =>
      have htail := ih fun q hq => h q (List.mem_cons_of_mem _ hq)
      rw [List.map_cons, List.map_cons, List.sum_cons, htail]
      by_cases hfailed : p.1.callbackFailed = true
      · rw [if_pos hfailed, Nat.zero_add]
        simp [groupRecords, hfailed]
      · rw [if_neg hfailed, (h p List.mem_cons_self).count]
        have htake : groupRecords (p :: ws) = p.2 ++ groupRecords ws := by
          simp [groupRecords, hfailed]
        rw [htake, countOf_append]

/-- What is left of a database behind a group: a record more in the log, and more entries in
the memtables. -/
def WriteDb.wrote (db : WriteDb) (rs : List BatchRecord) (X : UInt32 → List MemEntry) :
    WriteDb :=
  { db with
    log := { db.log with
      records := db.log.records ++ [logRecord (u64 (db.lastSequence + 1)) rs] }
    families := db.families.map (addMem X)
    lastSequence := db.lastSequence + countOf rs }

/-- A group that is written, in whichever way and order: no writer fails, and every memtable
gets the entries of the group's records. -/
theorem WriteDb.write_received {db db' : WriteDb} {ignoreMissing : Bool}
    {ws : List (GroupWriter × List BatchRecord)} (h : GroupOf db.families ignoreMissing ws)
    (hids : (db.families.map ColumnFamily.id).Nodup)
    (hfresh : ∀ s, db.lastSequence + 1 ≤ s → Fresh db.families s) {schedule : List ℕ}
    {statuses : List BatchStatus}
    (hw : db.write (ws.map Prod.fst) ignoreMissing schedule = .ok (statuses, db')) :
    (∀ status ∈ statuses, status = .ok) ∧ ∃ X : UInt32 → List MemEntry,
      (∀ id, (X id).Perm
        (forFamily id (entriesFrom (db.lastSequence + 1) (groupRecords ws)))) ∧
      db' = db.wrote (groupRecords ws) X := by
  rw [WriteDb.write] at hw
  obtain ⟨parallel, -, hw⟩ := Outcome.bind_eq_ok.mp hw
  have hrep := mergeBatch_rep h.writers (db.lastSequence + 1)
  simp only [sum_count h.writers, WriteDb.writeToWAL, hrep] at hw
  cases parallel with
  | false =>
      rw [if_pos (by simp)] at hw
      obtain ⟨v, hinsert⟩ := insertGroup_received (o := liveOptions ignoreMissing) (v := false)
        rfl hids h.writers h.leader fun s hle _ => hfresh s hle
      rw [hinsert, Outcome.ok_bind] at hw
      cases hw
      refine ⟨by simp, fun id => forFamily id _, fun _ => List.Perm.refl _, ?_⟩
      rw [WriteDb.wrote]
      have hlive : db.families.map (receive (liveOptions ignoreMissing)
          (entriesFrom (db.lastSequence + 1) (groupRecords ws))) = db.families.map (addMem
          fun id => forFamily id (entriesFrom (db.lastSequence + 1) (groupRecords ws))) :=
        List.map_congr_left fun cf _ => receive_live rfl _ cf
      rw [hlive]
  | true =>
      rw [if_neg (by simp)] at hw
      have hlaunch := ParallelInserts.inserting_launched h.writers h.own hfresh
      rw [ParallelInserts.map_launched h.writers] at hlaunch
      cases hrun : ParallelInserts.run ⟨db.families, (assignSequences (db.lastSequence + 1)
          (ws.map Prod.fst)).map fun p => ParallelInserts.launch db.families p.1 p.2⟩
          schedule with
      | none => simp [hrun] at hw
      | some s =>
          cases hstatuses : s.statuses with
          | none => simp [hrun, hstatuses] at hw
          | some _ =>
              simp only [hrun, hstatuses] at hw
              cases hw
              obtain ⟨X, ts, hins, -⟩ := hlaunch.run hids hrun
              obtain ⟨hok, hperm⟩ := hins.through hstatuses
              exact ⟨hok, X, hperm, by rw [WriteDb.wrote, hins.held]⟩

/-- A database as a run begins with it: nothing was written. -/
structure WriteDb.Empty (db : WriteDb) : Prop where
  ids : (db.families.map ColumnFamily.id).Nodup
  nothing : ∀ cf ∈ db.families, cf.flushed = [] ∧ cf.imm = [] ∧ cf.mem = []
  logNumbers : ∀ cf ∈ db.families,
    cf.manifestLogNumber = cf.logNumber ∧ cf.logNumber ≤ db.log.number
  noLogs : db.oldLogs = [] ∧ db.log.records = [] ∧ 0 < db.log.number
  sequence : db.manifestLastSequence = db.lastSequence ∧ db.lastSequence + 1 < kMaxSequenceNumber

/-- A crash that loses the records of the current log from the `k`-th on. -/
def WriteDb.loseTail (db : WriteDb) (k : ℕ) : WriteDb :=
  { db with log := { db.log with records := db.log.records.take k } }

/-- What was written before the first record that is lost. -/
def WriteDb.survivors (db : WriteDb) (k : ℕ) (written : List (UInt32 × MemEntry)) :
    List (UInt32 × MemEntry) :=
  match db.log.records[k]? with
  | none => written
  | some record =>
      written.filter fun p => p.2.seq < ((WriteBatch.create 0).setContents record).sequence

/-- The databases that runs come to, with the entries that were written and not lost, in order.
A group is written while there are sequence numbers left; the numbers of new logs are larger
than any that was used; a crash may lose records at the end of the current log. -/
inductive WriteRun : WriteDb → List (UInt32 × MemEntry) → Prop where
  | create {db : WriteDb} : db.Empty → WriteRun db []
  | write {db db' : WriteDb} {written : List (UInt32 × MemEntry)} {ignoreMissing : Bool}
      {ws : List (GroupWriter × List BatchRecord)} {schedule : List ℕ}
      {statuses : List BatchStatus} :
      WriteRun db written → GroupOf db.families ignoreMissing ws →
      db.lastSequence + countOf (groupRecords ws) + 1 < kMaxSequenceNumber →
      db.write (ws.map Prod.fst) ignoreMissing schedule = .ok (statuses, db') →
      WriteRun db' (written ++
        stored db.families (entriesFrom (db.lastSequence + 1) (groupRecords ws)))
  | switchMemtable {db : WriteDb} {written : List (UInt32 × MemEntry)} (id : UInt32)
      {newLogNumber : ℕ} : WriteRun db written → db.log.number < newLogNumber →
      WriteRun (db.switchMemtable id newLogNumber) written
  | flush {db : WriteDb} {written : List (UInt32 × MemEntry)} (id : UInt32) (n : ℕ) :
      WriteRun db written → WriteRun (db.flush id n) written
  | writeManifest {db : WriteDb} {written : List (UInt32 × MemEntry)} :
      WriteRun db written → WriteRun db.writeManifest written
  | removeObsoleteLogs {db : WriteDb} {written : List (UInt32 × MemEntry)} :
      WriteRun db written → WriteRun db.removeObsoleteLogs written
  | reopen {db db' : WriteDb} {written : List (UInt32 × MemEntry)} (k : ℕ)
      {newLogNumber : ℕ} : WriteRun db written → db.log.number + 1 < newLogNumber →
      (db.loseTail k).reopen newLogNumber = .ok (.ok, db') →
      WriteRun db' (db.survivors k written)

/-! ### What logs hold -/

/-- A log by its groups: the sequence number of the first record of each, and its records. -/
structure LoggedGroups where
  number : ℕ
  groups : List (ℕ × List BatchRecord)

namespace LoggedGroups

def live (l : LoggedGroups) : LiveLog :=
  ⟨l.number, l.groups.map fun g => logRecord g.1 g.2⟩

def entries (l : LoggedGroups) : List (UInt32 × MemEntry) :=
  l.groups.flatMap fun g => entriesFrom g.1 g.2

end LoggedGroups

/-- The entries for a column family in the logs whose numbers are as `keep` says. -/
def inLogs (keep : ℕ → Bool) (id : UInt32) (ls : List LoggedGroups) : List MemEntry :=
  (ls.filter fun l => keep l.number).flatMap fun l => forFamily id l.entries

/-- From a log on, and up to a log. -/
def fromLog (lo : ℕ) : ℕ → Bool := fun n => lo ≤ n

def logsBetween (lo hi : ℕ) : ℕ → Bool := fun n => lo ≤ n && n < hi

section

variable {keep : ℕ → Bool} {id : UInt32}

@[simp] theorem inLogs_append (ls ls' : List LoggedGroups) :
    inLogs keep id (ls ++ ls') = inLogs keep id ls ++ inLogs keep id ls' := by
  rw [inLogs, List.filter_append, List.flatMap_append]
  rfl

theorem mem_inLogs {ls : List LoggedGroups} {e : MemEntry} : e ∈ inLogs keep id ls ↔
    ∃ l ∈ ls, keep l.number = true ∧ (id, e) ∈ l.entries := by
  simp only [inLogs, List.mem_flatMap, List.mem_filter, mem_forFamily, and_assoc]

theorem inLogs_eq_nil {ls : List LoggedGroups} : inLogs keep id ls = [] ↔
    ∀ l ∈ ls, keep l.number = true → forFamily id l.entries = [] := by
  simp only [inLogs, List.flatMap_eq_nil_iff, List.mem_filter, and_imp]

/-- The logs up to one and those from it on. -/
theorem inLogs_split {lo hi : ℕ} (h : lo ≤ hi) (id : UInt32) (ls : List LoggedGroups) :
    (inLogs (fromLog lo) id ls).Perm
      (inLogs (logsBetween lo hi) id ls ++ inLogs (fromLog hi) id ls) := by
  have hbetween : (ls.filter fun l => fromLog lo l.number).filter (fun l => l.number < hi) =
      ls.filter fun l => logsBetween lo hi l.number := by
    rw [List.filter_filter]
    apply List.filter_congr
    intro l _
    rw [logsBetween, fromLog, Bool.and_comm]
  have hfrom : (ls.filter fun l => fromLog lo l.number).filter (fun l => ! (l.number < hi)) =
      ls.filter fun l => fromLog hi l.number := by
    rw [List.filter_filter]
    apply List.filter_congr
    intro l _
    simp only [fromLog]
    by_cases hl : hi ≤ l.number
    · simp [hl, h.trans hl]
    · simp [hl, not_le.mp hl]
  have hperm := List.filter_append_perm (fun l : LoggedGroups => decide (l.number < hi))
    (ls.filter fun l => fromLog lo l.number)
  rw [hbetween, hfrom] at hperm
  have hflat := hperm.symm.flatMap_right fun l => forFamily id l.entries
  rwa [List.flatMap_append] at hflat

end

/-- The immutable memtables hold, one after another, what the logs between their numbers hold,
and the memtable what is in the logs behind them. -/
def Segments (ls : List LoggedGroups) (id : UInt32) :
    ℕ → List (List MemEntry × ℕ) → List MemEntry → Prop
  | lo, [], mem => mem.Perm (inLogs (fromLog lo) id ls)
  | lo, p :: imm, mem =>
      lo ≤ p.2 ∧ p.1.Perm (inLogs (logsBetween lo p.2) id ls) ∧ Segments ls id p.2 imm mem

theorem Segments.perm {ls : List LoggedGroups} {id : UInt32} {lo : ℕ}
    {imm : List (List MemEntry × ℕ)} {mem : List MemEntry} (h : Segments ls id lo imm mem) :
    (imm.flatMap Prod.fst ++ mem).Perm (inLogs (fromLog lo) id ls) := by
  induction imm generalizing lo with
  | nil => exact h
  | cons p imm ih =>
      obtain ⟨hle, hp, hrest⟩ := h
      rw [List.flatMap_cons, List.append_assoc]
      exact (hp.append (ih hrest)).trans (inLogs_split hle id ls).symm

end Tweezer
