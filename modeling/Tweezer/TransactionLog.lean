import Tweezer.WalManager

/-!
# The change feed

`db/transaction_log_impl.cc`: an iterator over the write batches of the log files that
`WalManager` has found. Each file is opened with a reader of its own, which is not given the
secrets of the file. A batch is taken over without the check of its sequence number while the
iterator has not started, so the calls below are layered where the source is recursive.
-/

namespace Tweezer

open Log

/-- What a `TransactionLogIteratorImpl` is made with and reads. `subBatches` is what
`BatchCounter` adds to the sequence number of a batch. -/
structure FeedOptions where
  dir : WalDir
  verifyChecksums : Bool
  lastSequence : ℕ
  seqPerBatch : Bool
  subBatches : Bytes → ℕ
  manifestSecrets : LogSecrets
  memory : WalFileType → UInt64 → LogSecrets

structure TransactionLogIteratorImpl where
  startingSequenceNumber : ℕ
  files : List LogFile
  started : Bool
  isValid : Bool
  currentStatus : ReadStatus
  currentFileIndex : ℕ
  currentBatch : Bytes
  currentLogReader : Option Reader
  currentBatchSeq : ℕ
  currentLastSeq : ℕ

namespace TransactionLogIteratorImpl

variable (C : Gcm) (o : FeedOptions) (it : TransactionLogIteratorImpl)

def valid : Bool := it.started && it.isValid

/-- `OpenLogFile`; an alive file may have moved to the archive. -/
def openLogFile (log : LogFile) : Option Bytes :=
  match log.type, (o.dir .kAliveLogFile).lookup log.logNumber with
  | .kAliveLogFile, some file => some file
  | _, _ => (o.dir .kArchivedLogFile).lookup log.logNumber

def openLogReader (log : LogFile) : ReadStatus × TransactionLogIteratorImpl :=
  match openLogFile o log with
  | none => (.reported .ioError, it)
  | some file =>
      (.ok, { it with currentLogReader := some (newLogReader (.ofBytes file) o.verifyChecksums
        log.logNumber false o.manifestSecrets (o.memory log.type log.logNumber)) })

def restrictedRead : Outcome (Option Bytes × TransactionLogIteratorImpl) :=
  if o.lastSequence ≤ it.currentLastSeq then .ok (none, it)
  else
    match it.currentLogReader with
    | none => .error .outOfBuffer
    | some r => do
        let (record, r) ← r.readRecord C .kTolerateCorruptedTailRecords
        .ok (record, { it with currentLogReader := some r })

/-- The end of `UpdateCurrentWriteBatch`, which takes the batch over. -/
def setCurrentBatch (record : Bytes) : TransactionLogIteratorImpl :=
  let sequence := WriteBatchInternal.sequence record
  let lastSeq :=
    if o.seqPerBatch then u64 (sequence + o.subBatches record)
    else u64 (sequence + WriteBatchInternal.count record + (2 ^ 64 - 1))
  { it with
    currentBatchSeq := sequence, currentLastSeq := lastSeq, currentBatch := record,
    isValid := true, currentStatus := .ok }

/-- How many records the current reader can still return, at most. -/
def room : ℕ := (it.currentLogReader.map fun r => r.remaining.length + 2).getD 1

/-- The inner loop of `NextImpl`: whether a batch was taken over by `update`. -/
def scanBatches (update : TransactionLogIteratorImpl → Bytes → Outcome TransactionLogIteratorImpl) :
    ℕ → TransactionLogIteratorImpl → Outcome (Bool × TransactionLogIteratorImpl)
  | 0, _ => .error .diverged
  | fuel + 1, it => do
      let (record, it) ← it.restrictedRead C o
      match record with
      | none => .ok (false, it)
      | some record =>
          if record.length < WriteBatchInternal.kHeader then scanBatches update fuel it
          else do
            let it ← update it record
            .ok (true, it)

/-- The loop of `NextImpl` over the files, for at most `fuel` of them. -/
def nextLoop (update : TransactionLogIteratorImpl → Bytes → Outcome TransactionLogIteratorImpl)
    (internal : Bool) : ℕ → TransactionLogIteratorImpl → Outcome TransactionLogIteratorImpl
  | 0, _ => .error .diverged
  | fuel + 1, it => do
      let it := { it with
        currentLogReader := it.currentLogReader.map fun r => if r.eof then r.unmarkEOF else r }
      let (found, it) ← scanBatches C o update it.room it
      if found then .ok (if internal then { it with started := true } else it)
      else
        match it.files[it.currentFileIndex + 1]? with
        | some log =>
            match ({ it with currentFileIndex := it.currentFileIndex + 1 } :
                TransactionLogIteratorImpl).openLogReader o log with
            | (.ok, it) => nextLoop update internal fuel it
            | (status, it) => .ok { it with isValid := false, currentStatus := status }
        | none =>
            .ok { it with
              isValid := false
              currentStatus :=
                if it.currentLastSeq = o.lastSequence then .ok
                else .returned "Create a new iterator to fetch the new tail." }

/-- `NextImpl(true)`, called before the iterator has started. -/
def nextInternal : Outcome TransactionLogIteratorImpl :=
  nextLoop C o (fun it record => .ok (it.setCurrentBatch o record)) true (it.files.length + 1)
    { it with isValid := false }

def gapMessage : String := "Gap in sequence number. Could not seek to required sequence number"

def skipMessage : String := "Start sequence was not found, skipping to the next available"

/-- The loop of `SeekToStartSequence`: whether it returned from within. -/
def seekLoop (strict : Bool) :
    ℕ → TransactionLogIteratorImpl → Outcome (Bool × TransactionLogIteratorImpl)
  | 0, _ => .error .diverged
  | fuel + 1, it => do
      let (record, it) ← it.restrictedRead C o
      match record with
      | none => .ok (false, it)
      | some record =>
          if record.length < WriteBatchInternal.kHeader then seekLoop strict fuel it
          else
            let it := it.setCurrentBatch o record
            if it.startingSequenceNumber ≤ it.currentLastSeq then
              if strict ∧ it.currentBatchSeq ≠ it.startingSequenceNumber then
                .ok (true, { it with currentStatus := .returned gapMessage })
              else .ok (true, { it with isValid := true, started := true })
            else seekLoop strict fuel { it with isValid := false }

def seekToStartSequence (startFileIndex : ℕ) (strict : Bool) :
    Outcome TransactionLogIteratorImpl :=
  let it := { it with started := false, isValid := false }
  match it.files[startFileIndex]? with
  | none => .ok it
  | some log =>
      match it.openLogReader o log with
      | (.ok, it) => do
          let (found, it) ← seekLoop C o strict it.room it
          if found then .ok it
          else if strict then .ok { it with currentStatus := .returned gapMessage }
          else if it.files.length ≠ 1 then
            nextInternal C o { it with currentStatus := .returned skipMessage }
          else .ok it
      | (status, it) => .ok { it with currentStatus := status }

/-- A batch out of order sends the iterator back to look for the one it expects. -/
def updateCurrentWriteBatch (record : Bytes) : Outcome TransactionLogIteratorImpl :=
  let expectedSeq := u64 (it.currentLastSeq + 1)
  if it.started ∧ WriteBatchInternal.sequence record ≠ expectedSeq then
    match it.files[it.currentFileIndex]? with
    | none => .error .outOfBuffer
    | some log =>
        let index :=
          if expectedSeq < log.startSequence then it.currentFileIndex - 1
          else it.currentFileIndex
        seekToStartSequence C o
          { it with
            currentFileIndex := index, startingSequenceNumber := expectedSeq,
            currentStatus := .returned "Gap in sequence numbers" }
          index (!o.seqPerBatch)
  else .ok (it.setCurrentBatch o record)

def next : Outcome TransactionLogIteratorImpl :=
  if it.started then
    nextLoop C o (fun it record => it.updateCurrentWriteBatch C o record) false
      (it.files.length + 1) { it with isValid := false }
  else seekToStartSequence C o { it with isValid := false } 0 false

/-- The constructor. -/
def create (seq : ℕ) (files : List LogFile) : Outcome TransactionLogIteratorImpl :=
  seekToStartSequence C o ⟨seq, files, false, false, .ok, 0, [], none, 0, 0⟩ 0 false

/-- The batches that an iterator yields, over at most `fuel` calls of `Next`. -/
def batches : ℕ → TransactionLogIteratorImpl → Outcome (List Bytes)
  | 0, _ => .error .diverged
  | fuel + 1, it =>
      if it.valid then do
        let it' ← it.next C o
        let rest ← batches fuel it'
        .ok (it.currentBatch :: rest)
      else .ok []

end TransactionLogIteratorImpl

/-- A new `WalManager`. -/
def WalManager.create (dir : WalDir) (paranoidChecks : Bool) (manifestSecrets : LogSecrets)
    (memory : WalFileType → UInt64 → LogSecrets) : WalManager :=
  ⟨dir, paranoidChecks, [], manifestSecrets, memory⟩

def WalManager.getUpdatesSince (C : Gcm) (m : WalManager) (o : FeedOptions) (seq : ℕ) :
    Outcome (ReadStatus × Option TransactionLogIteratorImpl × WalManager) := do
  let (status, files, m) ← m.getSortedWalFiles C
  if status ≠ .ok then .ok (status, none, m)
  else do
    let it ← TransactionLogIteratorImpl.create C o seq (retainProbableWalFiles files seq)
    .ok (it.currentStatus, some it, m)

end Tweezer
