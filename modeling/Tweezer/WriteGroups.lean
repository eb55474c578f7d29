import Tweezer.MemTableInserter

/-!
# Writing a group of batches

What the leader of a group of writers does with their batches, of
`db/db_impl/db_impl_write.cc` and `db/write_batch.cc`: it appends one record for them all to
the log, and then either inserts the batches one after another, or has every writer insert
its own one, at the same time as the others. Sequence numbers go by records, there is one
write queue, and no writer has prepared anything.
-/

namespace Tweezer

/-- `WriteThread::Writer`: its batch, whether its callback refused it, and whether its options
ignore column families that are missing. -/
structure GroupWriter where
  batch : WriteBatch
  callbackFailed : Bool
  ignoreMissingColumnFamilies : Bool

/-- A log file that is written, with the records that were appended to it. -/
structure LiveLog where
  number : ℕ
  records : List Bytes

/-- What writes, switches of memtables, flushes and a reopening work on. -/
structure WriteDb where
  allowConcurrentMemtableWrite : Bool
  lastSequence : ℕ
  manifestLastSequence : ℕ
  families : List ColumnFamily
  oldLogs : List LiveLog
  log : LiveLog

/-! ### One record for a group -/

def appendAll (group : List GroupWriter) : WriteBatch :=
  group.foldl (fun merged w => if w.callbackFailed then merged else merged.append w.batch true)
    (WriteBatch.create 0)

/-- `MergeBatch`. -/
def mergeBatch (group : List GroupWriter) : WriteBatch :=
  match group with
  | [leader] =>
      if ¬ leader.callbackFailed ∧ leader.batch.walTermPoint.isCleared then leader.batch
      else appendAll group
  | _ => appendAll group

/-- `WriteToWAL`. -/
def WriteDb.writeToWAL (db : WriteDb) (group : List GroupWriter) (sequence : ℕ) : WriteDb :=
  { db with log := { db.log with
      records := db.log.records ++ [((mergeBatch group).setSequence sequence).rep] } }

/-! ### Inserting a group -/

def liveOptions (ignoreMissingColumnFamilies : Bool) : InserterOptions :=
  ⟨ignoreMissingColumnFamilies, 0, false, true⟩

/-- `InsertInto` for a group. The inserter begins with what the leader's options say. -/
def insertGroup (o : InserterOptions) :
    List GroupWriter → MemTableInserter → Outcome (BatchStatus × MemTableInserter)
  | [], h => .ok (.ok, h)
  | w :: group, h =>
      if w.callbackFailed then insertGroup o group h
      else do
        let (status, h) ← (w.batch.setSequence h.sequence).iterate (memTableInserter o) h
        if ¬ status.isOk then .ok (status, h) else insertGroup o group h

/-- The sequence number of every writer that is not refused. -/
def assignSequences : ℕ → List GroupWriter → List (GroupWriter × ℕ)
  | _, [] => []
  | next, w :: group =>
      if w.callbackFailed then assignSequences next group
      else (w, next) :: assignSequences (next + w.batch.count) group

/-- Writers that insert at the same time: the column families that they share, and where each
of them is in its `Iterate`. -/
structure ParallelInserts where
  families : List ColumnFamily
  threads : List (InserterOptions × WriteBatch × Turn MemTableInserter)

namespace ParallelInserts

/-- A writer begins to iterate over its batch. -/
def launch (families : List ColumnFamily) (w : GroupWriter) (sequence : ℕ) :
    InserterOptions × WriteBatch × Turn MemTableInserter :=
  let b := w.batch.setSequence sequence
  (liveOptions w.ignoreMissingColumnFamilies, b,
    if b.rep.length < WriteBatch.kHeader then
      .returned (.corruption "malformed WriteBatch (too small)", ⟨sequence, families, false⟩)
    else .next ⟨b.rep.drop WriteBatch.kHeader, .ok, .noop, false, true, 0, true,
      ⟨sequence, families, false⟩⟩)

def familiesOf : Turn MemTableInserter → List ColumnFamily
  | .returned result => result.2.families
  | .left it => it.handler.families
  | .next it => it.handler.families

/-- A turn of the loop of one writer, on the column families as they are now. -/
def step (s : ParallelInserts) (i : ℕ) : Option ParallelInserts :=
  match s.threads[i]? with
  | some (o, b, .next it) =>
      let turn := WriteBatch.iterateTurn (memTableInserter o)
        { it with handler := { it.handler with families := s.families } }
      some ⟨familiesOf turn, s.threads.set i (o, b, turn)⟩
  | _ => none

def run (s : ParallelInserts) (schedule : List ℕ) : Option ParallelInserts :=
  schedule.foldlM step s

/-- What a writer's `Iterate` returned. -/
def statusOf (t : InserterOptions × WriteBatch × Turn MemTableInserter) : Option BatchStatus :=
  match t.2.2 with
  | .returned result => some result.1
  | .left it => some (t.2.1.iterateResult (.ok it)).1
  | .next _ => none

/-- The statuses of the writers, once all of them are through. -/
def statuses (s : ParallelInserts) : Option (List BatchStatus) := s.threads.mapM statusOf

end ParallelInserts

/-- Whether the memtables may be written to concurrently. -/
def canInsertInParallel (db : WriteDb) (group : List GroupWriter) : Outcome Bool :=
  group.foldlM (fun parallel w =>
      if w.callbackFailed then pure parallel
      else do
        let merges ← w.batch.hasMerge
        pure (parallel && !merges))
    (db.allowConcurrentMemtableWrite && decide (1 < group.length))

/-- The part of `WriteImpl` in which a leader writes its group. The statuses are that of the
insertion, or those of the writers where each of them inserts its own batch; the writers take
their turns as `schedule` says. -/
def WriteDb.write (db : WriteDb) (group : List GroupWriter) (ignoreMissing : Bool)
    (schedule : List ℕ) : Outcome (List BatchStatus × WriteDb) := do
  let parallel ← canInsertInParallel db group
  let totalCount := (group.map fun w => if w.callbackFailed then 0 else w.batch.count).sum
  let currentSequence := db.lastSequence + 1
  let db' := db.writeToWAL group currentSequence
  if ¬ parallel then
    let (status, h) ← insertGroup (liveOptions ignoreMissing) group
      ⟨currentSequence, db'.families, false⟩
    pure ([status], { db' with
      families := h.families, lastSequence := db.lastSequence + totalCount })
  else
    let threads := (assignSequences currentSequence group).map fun p =>
      ParallelInserts.launch db'.families p.1 p.2
    match ParallelInserts.run ⟨db'.families, threads⟩ schedule with
    | none => .error .diverged
    | some s => match s.statuses with
      | none => .error .diverged
      | some statuses => pure (statuses, { db' with
          families := s.families, lastSequence := db.lastSequence + totalCount })

end Tweezer
