import Tweezer.WriteGroups

/-!
# From memtables to files, and from logs to memtables

A memtable that is full becomes immutable and a new log begins, of `SwitchMemtable`; the
immutable memtables of a column family are flushed, the oldest first, and the manifest says
from which log on the column family still needs logs; logs that no column family needs are
removed. When the database is opened again, `RecoverLogFiles` inserts what the logs hold into
new memtables and flushes these. The numbers of new logs are given: they are larger than any
number that was used.
-/

namespace Tweezer

namespace ColumnFamily

/-- Whether the column family has nothing that is not flushed. -/
def isFlushed (cf : ColumnFamily) : Bool := cf.mem.isEmpty && cf.imm.isEmpty

end ColumnFamily

namespace WriteDb

/-- The oldest log that a column family needs. -/
def minLogNumber (families : List ColumnFamily) : Option ℕ :=
  (families.map ColumnFamily.logNumber).min?

/-- `SwitchMemtable` for one column family. A new log is only begun if the last one has records;
a column family that has nothing to be flushed needs no older log. -/
def switchMemtable (db : WriteDb) (id : UInt32) (newLogNumber : ℕ) : WriteDb :=
  let creatingNewLog := !db.log.records.isEmpty
  let db := if creatingNewLog then
      { db with oldLogs := db.oldLogs ++ [db.log], log := ⟨newLogNumber, []⟩ }
    else db
  let families := db.families.map fun cf =>
    if creatingNewLog && cf.isFlushed then { cf with logNumber := db.log.number } else cf
  { db with families := families.map fun cf =>
      if cf.id = id then { cf with imm := cf.imm ++ [(cf.mem, db.log.number)], mem := [] }
      else cf }

/-- The commit of a flush of the `n` oldest immutable memtables of a column family. -/
def commitFlush (cf : ColumnFamily) (n : ℕ) : ColumnFamily :=
  match (cf.imm.take n).getLast? with
  | none => cf
  | some (_, nextLogNumber) =>
      { cf with
        flushed := cf.flushed ++ (cf.imm.take n).flatMap Prod.fst
        imm := cf.imm.drop n
        logNumber := nextLogNumber
        manifestLogNumber := nextLogNumber }

def flush (db : WriteDb) (id : UInt32) (n : ℕ) : WriteDb :=
  { db with
    families := db.families.map fun cf => if cf.id = id then commitFlush cf n else cf
    manifestLastSequence := db.lastSequence }

/-- `WriteCurrentStateToManifest`. -/
def writeManifest (db : WriteDb) : WriteDb :=
  { db with
    families := db.families.map fun cf => { cf with manifestLogNumber := cf.logNumber }
    manifestLastSequence := db.lastSequence }

/-- The logs that no column family needs are removed. -/
def removeObsoleteLogs (db : WriteDb) : WriteDb :=
  match minLogNumber db.families with
  | none => db
  | some n => { db with oldLogs := db.oldLogs.filter fun log => n ≤ log.number }

end WriteDb

/-! ### Recovery -/

/-- What `RecoverLogFiles` works on. -/
structure LogReplay where
  lastSequence : ℕ
  nextSequence : ℕ
  families : List ColumnFamily

namespace LogReplay

def recoveryOptions (logNumber : ℕ) : InserterOptions := ⟨true, logNumber, false, true⟩

/-- The records of one log, until one of them cannot be inserted. -/
def replayRecords (logNumber : ℕ) : List Bytes → LogReplay → Outcome (BatchStatus × LogReplay)
  | [], s => .ok (.ok, s)
  | record :: records, s =>
      if record.length < WriteBatch.kHeader then .ok (.corruption "log record too small", s)
      else do
        let batch := (WriteBatch.create 0).setContents record
        let (status, h) ← batch.iterate (memTableInserter (recoveryOptions logNumber))
          ⟨batch.sequence, s.families, false⟩
        let s := { s with nextSequence := h.sequence, families := h.families }
        if ¬ status.isOk then .ok (status, s) else replayRecords logNumber records s

/-- The logs in the order of their numbers. -/
def replayLogs : List LiveLog → LogReplay → Outcome (BatchStatus × LogReplay)
  | [], s => .ok (.ok, s)
  | log :: logs, s => do
      let (status, s) ← replayRecords log.number log.records s
      if ¬ status.isOk then .ok (status, s)
      else
        let lastSequence := s.nextSequence - 1
        replayLogs logs
          (if s.nextSequence ≠ kMaxSequenceNumber ∧ s.lastSequence ≤ lastSequence then
            { s with lastSequence := lastSequence } else s)

end LogReplay

namespace WriteDb

/-- A column family as the manifest gives it back. -/
def restore (cf : ColumnFamily) : ColumnFamily :=
  { cf with logNumber := cf.manifestLogNumber, imm := [], mem := [] }

/-- A column family at the end of a recovery: its memtable is flushed, and it needs none of the
logs that were replayed. -/
def finishRecovery (maxLogNumber : ℕ) (cf : ColumnFamily) : ColumnFamily :=
  if maxLogNumber < cf.logNumber then cf
  else
    { cf with
      flushed := cf.flushed ++ cf.mem
      mem := []
      logNumber := maxLogNumber + 1
      manifestLogNumber := maxLogNumber + 1 }

/-- The process ends, and the database is opened again. -/
def reopen (db : WriteDb) (newLogNumber : ℕ) : Outcome (BatchStatus × WriteDb) := do
  let families := db.families.map restore
  let logs := (db.oldLogs ++ [db.log]).filter fun log =>
    (minLogNumber families).all fun n => n ≤ log.number
  let (status, s) ← LogReplay.replayLogs logs
    ⟨db.manifestLastSequence, kMaxSequenceNumber, families⟩
  if ¬ status.isOk then pure (status, db)
  else pure (.ok, { db with
    lastSequence := s.lastSequence
    manifestLastSequence := s.lastSequence
    families := s.families.map (finishRecovery db.log.number)
    oldLogs := db.oldLogs ++ [db.log]
    log := ⟨newLogNumber, []⟩ })

end WriteDb

end Tweezer
