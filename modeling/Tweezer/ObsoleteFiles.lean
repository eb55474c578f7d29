import Mathlib.Data.List.Dedup
import Tweezer.KeyList

/-!
# Obsolete tables and their keys

`DBImpl::FindObsoleteFiles` and `DBImpl::PurgeObsoleteFiles` with those who call them. The
background calls of flushes and compactions write out the deletion vector of their purge, the
other callers do not. An event is what happens while a thread holds the mutex of the database;
the events of several threads come in any order. Of the files of a database only its tables are
here.
-/

namespace Tweezer

/-! ### The keys as a map that can be walked -/

/-- `KeyList` by its entries. -/
abbrev KeyMap := List (UInt64 × Bytes)

namespace KeyMap

/-- `std::map::find`. -/
def find (m : KeyMap) : KeyList := fun number => m.lookup number

/-- `std::map::insert`, which keeps an entry that is there. -/
def insert (m : KeyMap) (number : UInt64) (key : Bytes) : KeyMap :=
  if (m.find number).isSome then m else (number, key) :: m

def erase (m : KeyMap) (number : UInt64) : KeyMap := m.filter fun entry => number ≠ entry.1

/-- The part of `VersionEditHandler::ApplyVersionEdit` for the keys of tables. -/
def applyEdit (m : KeyMap) (e : VersionEdit) : KeyMap :=
  let m := if e.isSstKey then m.insert e.sstFileNumber e.sstKey.val else m
  if e.isSstDelete then m.erase e.sstDeleteFileNumber else m

def replay (m : KeyMap) (manifest : List VersionEdit) : KeyMap := manifest.foldl applyEdit m

/-- The edit that `RecoverLogFiles` logs for an entry. The edit copies 32 bytes. -/
def sstKeyEdit (entry : UInt64 × Bytes) : Option VersionEdit :=
  match entry.2.fetchOctets 0 32 with
  | .ok key => some (VersionEdit.new.addSstKey entry.1 key)
  | .error _ => none

end KeyMap

/-! ### Versions, jobs and purges -/

/-- A table in a version. A `FileMetaData` is known by `metadata`: two edits that add the same
number make two of them. -/
structure VersionFile where
  number : UInt64
  metadata : ℕ
  deriving DecidableEq

/-- A `Version` in the list of its column family. -/
structure Version where
  columnFamily : UInt32
  current : Bool
  /-- The references of superversions, iterators and compactions. -/
  readers : ℕ
  files : List VersionFile
  deriving DecidableEq

/-- A version is destroyed with its last reference. -/
def Version.held (v : Version) : Bool := v.current || decide (0 < v.readers)

/-- A flush or a compaction that runs, with its element of `pending_outputs_`. -/
structure Job where
  captured : UInt64
  /-- The numbers for which it generated a key. -/
  outputs : List UInt64
  deriving DecidableEq

/-- What a `JobContext` holds between `FindObsoleteFiles` and `PurgeObsoleteFiles`. -/
structure JobContext where
  /-- Whether the caller writes the deletion vector out afterwards. -/
  writesOut : Bool
  sstLive : List UInt64
  minPendingOutput : UInt64
  sstDeleteFiles : List UInt64
  fullScanCandidateFiles : List UInt64
  deriving DecidableEq

namespace JobContext

def haveSomethingToDelete (c : JobContext) : Bool :=
  !(c.fullScanCandidateFiles.isEmpty && c.sstDeleteFiles.isEmpty)

/-- `keep` in `PurgeObsoleteFiles` for a table. -/
def keep (c : JobContext) (number : UInt64) : Bool :=
  decide (number ∈ c.sstLive) || decide (c.minPendingOutput ≤ number)

/-- `deletion_vector` after the purge. -/
def deletionVector (c : JobContext) : List UInt64 :=
  (c.fullScanCandidateFiles ++ c.sstDeleteFiles).dedup.filter fun number => !c.keep number

end JobContext

/-- A deletion vector that a background call writes out: one edit for each number, and after
them the keys in memory. -/
structure WriteOut where
  deletionVector : List UInt64
  unlogged : List UInt64
  deriving DecidableEq

/-- What `DBImpl`, its `VersionSet` and the directories know of the tables. -/
structure DbFiles where
  nextFileNumber : UInt64
  versions : List Version
  /-- How many `FileMetaData` were made. -/
  metadataMade : ℕ
  obsoleteFiles : List UInt64
  /-- In the order of `pending_outputs_`. -/
  jobs : List Job
  disableDeleteObsoleteFiles : ℕ
  filesGrabbedForPurge : List UInt64
  purgeFiles : List UInt64
  /-- The tables in the directories. -/
  tables : List UInt64
  keyList : KeyMap
  /-- The edits of the MANIFEST that are about keys. -/
  manifest : List VersionEdit
  /-- `next_file_number` in the last edit of the MANIFEST. -/
  loggedNextFile : UInt64
  /-- Between `FindObsoleteFiles` and `PurgeObsoleteFiles`. -/
  found : List JobContext
  writeOuts : List WriteOut
  deriving DecidableEq

namespace DbFiles

/-- A new database. -/
def start : DbFiles :=
  { nextFileNumber := 2, versions := [], metadataMade := 0, obsoleteFiles := [], jobs := [],
    disableDeleteObsoleteFiles := 0, filesGrabbedForPurge := [], purgeFiles := [], tables := [],
    keyList := [], manifest := [], loggedNextFile := 2, found := [], writeOuts := [] }

/-- `VersionSet::AddLiveFiles`: the files of every version in the lists. -/
def liveFiles (s : DbFiles) : List UInt64 := s.versions.flatMap fun v => v.files.map (·.number)

/-- `~Version` for the versions without references. A `FileMetaData` that no other version
refers to goes to `obsolete_files_`. -/
def removeVersions (s : DbFiles) : DbFiles :=
  let kept := s.versions.filter (·.held)
  let dropped := (s.versions.filter fun v => !v.held).flatMap (·.files)
  { s with
    versions := kept
    obsoleteFiles := s.obsoleteFiles ++
      (dropped.dedup.filter fun f => f ∉ kept.flatMap (·.files)).map (·.number) }

/-- `MinObsoleteSstNumberToKeep`. -/
def minObsoleteSstNumberToKeep (s : DbFiles) : UInt64 :=
  match s.jobs with
  | [] => 18446744073709551615
  | job :: _ => job.captured

def shouldPurge (s : DbFiles) (number : UInt64) : Bool :=
  decide (number ∉ s.filesGrabbedForPurge) && decide (number ∉ s.purgeFiles)

/-- `GetObsoleteFiles` and `MarkAsGrabbedForPurge`. -/
def grabObsoleteFiles (s : DbFiles) : DbFiles :=
  let min := s.minObsoleteSstNumberToKeep
  { s with
    obsoleteFiles := s.obsoleteFiles.filter fun number => decide (min ≤ number)
    filesGrabbedForPurge := s.filesGrabbedForPurge ++
      s.obsoleteFiles.filter fun number => decide (number < min) }

/-- What `FindObsoleteFiles` puts into the job context. -/
def obsoleteContext (s : DbFiles) (writesOut fullScan : Bool) : JobContext :=
  let min := s.minObsoleteSstNumberToKeep
  { writesOut
    sstLive := s.liveFiles
    minPendingOutput := min
    sstDeleteFiles := s.obsoleteFiles.filter fun number => decide (number < min)
    fullScanCandidateFiles :=
      if fullScan then s.tables.filter s.grabObsoleteFiles.shouldPurge else [] }

/-- How `FindObsoleteFiles` comes to scan the directories; `periodElapsed` is what the clock
says about `delete_obsolete_files_period_micros`. -/
def doingTheFullScan (force noFullScan periodElapsed : Bool) : Bool :=
  !noFullScan && (force || periodElapsed)

def findObsoleteFiles (s : DbFiles) (writesOut fullScan : Bool) : DbFiles :=
  if 0 < s.disableDeleteObsoleteFiles then s
  else
    let c := s.obsoleteContext writesOut fullScan
    { s.grabObsoleteFiles with
      found := if c.haveSomethingToDelete then s.found ++ [c] else s.found }

/-- `PurgeObsoleteFiles`. The files in `undeleted` could not be deleted. -/
def purgeObsoleteFiles (s : DbFiles) (c : JobContext) (scheduleOnly : Bool)
    (undeleted : List UInt64) : DbFiles :=
  let vector := c.deletionVector
  { s with
    tables := if scheduleOnly then s.tables
      else s.tables.filter fun number => number ∉ vector ∨ number ∈ undeleted
    purgeFiles := if scheduleOnly then s.purgeFiles ++ vector else s.purgeFiles
    filesGrabbedForPurge := s.filesGrabbedForPurge.filter fun number => number ∉ vector
    writeOuts := if c.writesOut then s.writeOuts ++ [⟨vector, vector⟩] else s.writeOuts }

/-- `LogAndApply` of an edit about keys. -/
def logEdit (s : DbFiles) (e : VersionEdit) : DbFiles :=
  { s with manifest := s.manifest ++ [e], loggedNextFile := s.nextFileNumber }

/-- The files of the current version of a column family. -/
def currentFiles (s : DbFiles) (columnFamily : UInt32) : List VersionFile :=
  (s.versions.filter fun v => v.current ∧ v.columnFamily = columnFamily).flatMap (·.files)

/-- `AppendVersion` of what `VersionBuilder` makes of the current version, with the reference of
the column family. -/
def appendVersion (s : DbFiles) (columnFamily : UInt32) (deleted added : List UInt64) : DbFiles :=
  let kept := (s.currentFiles columnFamily).filter fun f => f.number ∉ deleted
  let made := (added.zipIdx s.metadataMade).map fun file => ⟨file.1, file.2⟩
  let version : Version := ⟨columnFamily, true, 0, kept ++ made⟩
  { s with
    versions := (s.versions.map fun v =>
      if v.columnFamily = columnFamily then { v with current := false } else v) ++ [version]
    metadataMade := s.metadataMade + added.length }

/-- `LogAndApply` of an edit about files that goes well: a new version takes the place of the
current one. -/
def installVersion (s : DbFiles) (columnFamily : UInt32) (deleted added : List UInt64) : DbFiles :=
  { (s.appendVersion columnFamily deleted added).removeVersions with
    loggedNextFile := s.nextFileNumber }

/-- `DeleteUnreferencedSstFiles`: tables that are too new for the MANIFEST go, and the file
numbers go on behind all that were there. -/
def deleteUnreferencedSstFiles (s : DbFiles) : DbFiles :=
  let next := s.loggedNextFile
  let largest := s.tables.foldl (fun a b => if a < b then b else a) next
  { s with
    nextFileNumber := if next < largest then largest + 1 else next
    tables := s.tables.filter fun number => number < next }

/-- A table that recovery wrote from a WAL; without entries it is deleted again. -/
structure RecoveredTable where
  columnFamily : UInt32
  key : Key
  hasOutput : Bool
  deriving DecidableEq

/-- `WriteLevel0TableForRecovery`. -/
def writeLevel0TableForRecovery (s : DbFiles) (t : RecoveredTable) : DbFiles :=
  let number := s.nextFileNumber
  let s := { s with
    nextFileNumber := number + 1
    keyList := s.keyList.insert number t.key.val
    tables := if t.hasOutput then number :: s.tables else s.tables }
  if t.hasOutput then s.installVersion t.columnFamily [] [number] else s

/-- What `RecoverLogFiles` flushes. -/
def recoverTables (s : DbFiles) (recovered : List RecoveredTable) : DbFiles :=
  recovered.foldl writeLevel0TableForRecovery s

/-- What a process starts from: the tables, what the MANIFEST says of them, and the keys, which
outlive the database when it is opened again by the same process. -/
def recover (s : DbFiles) (sameProcess : Bool) : DbFiles :=
  deleteUnreferencedSstFiles { start with
    versions := (s.versions.filter (·.current)).map fun v => { v with readers := 0 }
    metadataMade := s.metadataMade
    tables := s.tables
    keyList := (if sameProcess then s.keyList else []).replay s.manifest
    loggedNextFile := s.loggedNextFile }

/-- Closing a database, or a crash, and opening it again: a new MANIFEST is started, which gets
the keys of all that `KeyList` holds. -/
def reopen (s : DbFiles) (sameProcess : Bool) (recovered : List RecoveredTable) :
    Option DbFiles := do
  let s := (s.recover sameProcess).recoverTables recovered
  let edits ← s.keyList.mapM KeyMap.sstKeyEdit
  some { s with manifest := edits, loggedNextFile := s.nextFileNumber }

end DbFiles

/-! ### Events -/

/-- What a thread does while it holds the mutex. Lists are addressed by position: `job` in `jobs`,
`version` in `versions`, `context` in `found`, `writeOut` in `writeOuts`. -/
inductive DbFilesEvent where
  /-- A WAL, a MANIFEST or another file takes a number. -/
  | newFileNumber
  /-- `CaptureCurrentFileNumberInPendingOutputs` when a job starts. -/
  | startJob
  /-- A job takes a number for a table, generates its key and creates the file. -/
  | openOutput (job : ℕ) (key : Key)
  /-- `BuildTable` or `FinishCompactionOutputFile` deletes a table that is empty or failed. -/
  | removeOutput (job : ℕ) (number : UInt64)
  /-- The edit with the key of an output, in `FlushJob::Run` and `InstallCompactionResults`. -/
  | logSstKey (job : ℕ) (number : UInt64)
  /-- `LogAndApply` of what a job did to the files of a column family. It adds outputs, or moves
  files that are there already. -/
  | logAndApply (job : ℕ) (columnFamily : UInt32) (deleted added : List UInt64)
  /-- `BackgroundCallFlush` and `BackgroundCallCompaction` when the job is over. `force` where
  it failed and the database is not shutting down. -/
  | finishBackgroundJob (job : ℕ) (force periodElapsed : Bool)
  /-- A job that ends without `FindObsoleteFiles`. -/
  | releaseJob (job : ℕ)
  /-- A superversion, an iterator or a compaction takes a reference to the current version. -/
  | refVersion (version : ℕ)
  | unrefVersion (version : ℕ)
  /-- `FilenameToKey` for a table of a version or for an output of a job. -/
  | readTable (number : UInt64)
  | disableFileDeletions
  | enableFileDeletions (force : Bool)
  /-- `FindObsoleteFiles` by a caller that does not write the deletion vector out. -/
  | findObsoleteFiles (force noFullScan periodElapsed : Bool)
  | purgeObsoleteFiles (context : ℕ) (scheduleOnly : Bool) (undeleted : List UInt64)
  /-- The edit with the deletion of the next key of a deletion vector. -/
  | logSstDeletion (writeOut : ℕ) (logged : Bool)
  /-- `DeleteSSTKeyFromList` for a whole deletion vector. -/
  | deleteSstKeys (writeOut : ℕ)
  /-- `BackgroundCallPurge` deletes a file that was scheduled. -/
  | deleteScheduled (number : UInt64)
  /-- A new MANIFEST, for its size or after a write error. Its snapshot has no keys. -/
  | switchManifest
  | reopen (sameProcess : Bool) (recovered : List DbFiles.RecoveredTable)

namespace DbFiles

/-- `DBImpl::EnableFileDeletions`. -/
def enableFileDeletions (s : DbFiles) (force : Bool) : DbFiles :=
  let counter := if force then 0 else s.disableDeleteObsoleteFiles - 1
  let s := { s with disableDeleteObsoleteFiles := counter }
  if counter = 0 then s.findObsoleteFiles false true else s

/-- The database after an event; none where the event cannot come, or where the process ends. -/
def step (s : DbFiles) : DbFilesEvent → Option DbFiles
  | .newFileNumber => some { s with nextFileNumber := s.nextFileNumber + 1 }
  | .startJob => some { s with jobs := s.jobs ++ [⟨s.nextFileNumber, []⟩] }
  | .openOutput i key => do
      let job ← s.jobs[i]?
      let number := s.nextFileNumber
      some { s with
        nextFileNumber := number + 1
        jobs := s.jobs.set i { job with outputs := number :: job.outputs }
        keyList := s.keyList.insert number key.val
        tables := number :: s.tables }
  | .removeOutput i number => do
      let job ← s.jobs[i]?
      if number ∈ job.outputs ∧ number ∉ s.liveFiles then
        some { s with tables := s.tables.filter (· ≠ number) }
      else none
  | .logSstKey i number => do
      let job ← s.jobs[i]?
      if number ∈ job.outputs then
        let key ← s.keyList.find number
        let edit ← KeyMap.sstKeyEdit (number, key)
        some (s.logEdit edit)
      else none
  | .logAndApply i columnFamily deleted added => do
      let job ← s.jobs[i]?
      if added.all fun number => decide (number ∈ job.outputs) ||
          decide (number ∈ (s.currentFiles columnFamily).map (·.number)) then
        some (s.installVersion columnFamily deleted added)
      else none
  | .finishBackgroundJob i force periodElapsed => do
      let _ ← s.jobs[i]?
      some ({ s with jobs := s.jobs.eraseIdx i }.findObsoleteFiles true
        (doingTheFullScan force false periodElapsed))
  | .releaseJob i => do
      let _ ← s.jobs[i]?
      some { s with jobs := s.jobs.eraseIdx i }
  | .refVersion i => do
      let v ← s.versions[i]?
      if v.current then
        some { s with versions := s.versions.set i { v with readers := v.readers + 1 } }
      else none
  | .unrefVersion i => do
      let v ← s.versions[i]?
      some (removeVersions
        { s with versions := s.versions.set i { v with readers := v.readers - 1 } })
  | .readTable number =>
      if number ∈ s.liveFiles ∨ ∃ job ∈ s.jobs, number ∈ job.outputs then
        some { s with keyList := s.keyList.insert number [] }
      else none
  | .disableFileDeletions =>
      some { s with disableDeleteObsoleteFiles := s.disableDeleteObsoleteFiles + 1 }
  | .enableFileDeletions force => some (s.enableFileDeletions force)
  | .findObsoleteFiles force noFullScan periodElapsed =>
      some (s.findObsoleteFiles false (doingTheFullScan force noFullScan periodElapsed))
  | .purgeObsoleteFiles i scheduleOnly undeleted => do
      let c ← s.found[i]?
      some ({ s with found := s.found.eraseIdx i }.purgeObsoleteFiles c scheduleOnly undeleted)
  | .logSstDeletion i logged => do
      let w ← s.writeOuts[i]?
      match w.unlogged with
      | [] => none
      | number :: unlogged =>
          let s := { s with writeOuts := s.writeOuts.set i { w with unlogged := unlogged } }
          some (if logged then s.logEdit (VersionEdit.new.deleteSstKey number) else s)
  | .deleteSstKeys i => do
      let w ← s.writeOuts[i]?
      if w.unlogged = [] then
        some { s with
          keyList := w.deletionVector.foldl KeyMap.erase s.keyList
          writeOuts := s.writeOuts.eraseIdx i }
      else none
  | .deleteScheduled number =>
      if number ∈ s.purgeFiles then
        some { s with
          purgeFiles := s.purgeFiles.erase number
          tables := s.tables.filter (· ≠ number) }
      else none
  | .switchManifest => some { s with manifest := [], loggedNextFile := s.nextFileNumber }
  | .reopen sameProcess recovered =>
      -- closing waits for the background jobs and the purges
      if sameProcess ∧ (s.jobs ≠ [] ∨ s.found ≠ [] ∨ s.writeOuts ≠ []) then none
      else s.reopen sameProcess recovered

def run : DbFiles → List DbFilesEvent → Option DbFiles
  | s, [] => some s
  | s, event :: events => do
      let s ← s.step event
      run s events

/-- `KeyList` has a key for this number, or the MANIFEST has one that was not deleted later. -/
def HasKey (s : DbFiles) (number : UInt64) : Prop :=
  (s.keyList.find number).isSome ∨ (replayKeys s.manifest number).isSome

instance (s : DbFiles) (number : UInt64) : Decidable (s.HasKey number) :=
  inferInstanceAs (Decidable (_ ∨ _))

/-- An output of a job that runs. -/
def PendingOutput (s : DbFiles) (number : UInt64) : Prop := ∃ job ∈ s.jobs, number ∈ job.outputs

/-- Nothing waits in `obsolete_files_`, and no thread is between finding files and the end of
what it does about them. -/
def NoPurgePending (s : DbFiles) : Prop := s.obsoleteFiles = [] ∧ s.found = [] ∧ s.writeOuts = []

instance (s : DbFiles) : Decidable s.NoPurgePending := inferInstanceAs (Decidable (_ ∧ _ ∧ _))

/-- Every key is the key of a table of some version, or of a pending output. -/
def NoStrayKey (s : DbFiles) : Prop :=
  s.NoPurgePending → ∀ number, s.HasKey number → number ∈ s.liveFiles ∨ s.PendingOutput number

/-- What a step takes out of the MANIFEST, and unless it starts a process out of `KeyList`, are
keys of tables that are in no version and of no running job. -/
def RemovesDead (s : DbFiles) (event : DbFilesEvent) (s' : DbFiles) : Prop :=
  ∀ number, number ∈ s.liveFiles ∨ s.PendingOutput number →
    ((replayKeys s.manifest number).isSome → (replayKeys s'.manifest number).isSome) ∧
    ((∀ recovered, event ≠ .reopen false recovered) →
      (s.keyList.find number).isSome → (s'.keyList.find number).isSome)

/-- In every state of the run keys die with their files, and no step removes one before. -/
def KeysDieWithFiles : DbFiles → List DbFilesEvent → Prop
  | s, [] => s.NoStrayKey
  | s, event :: events => s.NoStrayKey ∧
      ∀ s' ∈ s.step event, s.RemovesDead event s' ∧ KeysDieWithFiles s' events

end DbFiles

end Tweezer
