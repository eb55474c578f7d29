import Mathlib.Data.List.Dedup
import Tweezer.IngestedKeys
import Tweezer.LogReader
import Tweezer.VerifyChecksum
import Tweezer.VersionSet
import Tweezer.WalManager

/-!
# Repair

`Repairer` of `db/repair.cc`. It archives the old MANIFESTs unread, scans the tables with the keys
that the process happens to have, turns the logs into tables with a reader that was given no
secret, and logs edits for the tables to a fresh MANIFEST.
-/

namespace Tweezer

/-- `MakeTableFileName`. -/
def makeTableFileName (number : UInt64) : Bytes :=
  let digits := (Nat.toDigits 10 number.toNat).map fun c => c.toNat.toUInt8
  List.replicate (6 - digits.length) 0x30 ++ digits ++ asciiBytes ".sst"

/-- A table in the directory. What was written to it, and with which key string, is no part of
the program. -/
structure TableOnDisk where
  number : UInt64
  pathId : UInt32
  contents : Bytes
  written : Bytes
  sstKey : Bytes

structure LogOnDisk where
  number : UInt64
  contents : Bytes

/-- A file in one of the paths that are searched, as `ParseFileName` tells its type. The edits of
a MANIFEST are never looked at. -/
inductive DirFile where
  | descriptor (edits : List VersionEdit)
  | wal (log : LogOnDisk)
  | table (t : TableOnDisk)
  | other (number : UInt64)
  | unparsed

structure TableProperties where
  columnFamilyId : UInt32
  columnFamilyName : Bytes
  creationTime : UInt64

def kUnknownColumnFamily : UInt32 := 0x7fffffff

/-- `kDefaultColumnFamilyName`. -/
def kDefaultColumnFamilyName : Bytes := asciiBytes "default"

structure TableInfo where
  fileMeta : FileMetaData
  columnFamilyId : UInt32

/-- `FileMetaData::UpdateBoundaries`, for an entry that is not a blob index. -/
def FileMetaData.updateBoundaries (f : FileMetaData) (key : Bytes) : FileMetaData :=
  let seqno := UInt64.ofNat (extractInternalKeyFooter key / 256)
  { f with
    smallest := if f.smallest.length = 0 then key else f.smallest
    largest := key
    fd := { f.fd with
      smallestSeqno := min f.fd.smallestSeqno seqno
      largestSeqno := max f.fd.largestSeqno seqno } }

/-- What repair has to go by: its options, what the memory of a new reader of a log holds, what
can fail, and what it calls to read and to write tables and to decode batches. -/
structure RepairEnv where
  cipher : Gcm
  manifest : ManifestOptions
  dbId : Bytes
  /-- The name of the comparator of a column family, if it is created when it is unknown. -/
  columnFamilyOptions : Bytes → Option Bytes
  defaultComparator : Bytes
  memory : UInt64 → Log.LogSecrets
  opensLog : UInt64 → Bool
  logFault : VersionSet → VersionEdit → Option VersionSet.LogFault
  /-- `TableCache::GetTableProperties` for a table with these contents and this key string. -/
  getTableProperties : UInt64 → Bytes → Bytes → Outcome (Option TableProperties)
  /-- The entries that the iterator of `TableCache::NewIterator` passes, and whether its status
  is OK behind them. -/
  newIterator : UInt64 → Bytes → Bytes → Outcome (List (Bytes × Bytes) × Bool)
  /-- What `InsertInto` puts into the memtables of these column families. -/
  insertInto : List UInt32 → Bytes → List (UInt32 × Bytes × Bytes)
  /-- What `BuildTable` makes of the entries of a memtable with this key string, if its status is
  OK. A table without entries is empty. -/
  buildTable : Bytes → ColumnFamilyData → List (Bytes × Bytes) → Outcome (Option Bytes)
  /-- The order of an `unordered_map`. -/
  bucketOrder : List UInt32 → List UInt32
  bucketOrder_perm : ∀ ids, (bucketOrder ids).Perm ids

structure Repairer where
  keyList : KeyList
  disk : List TableOnDisk
  logs : List LogOnDisk
  tableFds : List FileDescriptor
  tables : List TableInfo
  nextFileNumber : UInt64
  vset : VersionSet

/-- The one edit of `DBImpl::NewDB`. -/
def RepairEnv.newDb (env : RepairEnv) : VersionEdit :=
  { VersionEdit.new with
    dbId := if env.manifest.writeDbidToManifest then some env.dbId else none
    logNumber := some 0
    nextFileNumber := some 2
    lastSequence := some 0 }

/-- `VersionSet::Recover` with that edit and the default column family. -/
def RepairEnv.recovered (env : RepairEnv) : VersionSet where
  columnFamilies := [⟨0, kDefaultColumnFamilyName, env.defaultComparator, 0, []⟩]
  maxColumnFamily := 0
  nextFileNumber := 3
  lastSequence := 0
  prevLogNumber := 0
  dbId := env.newDb.dbId.getD []
  descriptorLog := false
  manifest := [env.newDb]

namespace Repairer

variable (env : RepairEnv)

def create (keyList : KeyList) : Repairer := ⟨keyList, [], [], [], [], 1, env.recovered⟩

def useFileNumber (r : Repairer) (number : UInt64) : Repairer :=
  if number + 1 > r.nextFileNumber then { r with nextFileNumber := number + 1 } else r

/-- One turn of the loop of `FindFiles`. -/
def findFile (r : Repairer) : DirFile → Repairer
  | .descriptor _ => r
  | .wal log => { r.useFileNumber log.number with logs := r.logs ++ [log] }
  | .table t =>
      { r.useFileNumber t.number with
        disk := r.disk ++ [t]
        tableFds := r.tableFds ++ [.withoutSeqnos t.number t.pathId 0] }
  | .other number => r.useFileNumber number
  | .unparsed => r

/-- `AddColumnFamily`: whether the status is OK. -/
def addColumnFamily (r : Repairer) (cfName : Bytes) (cfId : UInt32) : Bool × Repairer :=
  match env.columnFamilyOptions cfName with
  | none => (false, r)
  | some comparator =>
      let fields : EditFields :=
        { comparator := some comparator, logNumber := some 0, columnFamily := cfId,
          columnFamilyAdd := some cfName }
      let edit := { VersionEdit.new with toEditFields := fields }
      let (ok, vset) := r.vset.logAndApply env.manifest (env.logFault r.vset edit) edit
      (ok, { r with vset := vset })

/-- The column family of a table, which is added if there is none with its number; none where the
status is not OK. -/
def columnFamilyOf (r : Repairer) (props : TableProperties) (cfId : UInt32) :
    Option ColumnFamilyData × Repairer :=
  let added := if (r.vset.getColumnFamily cfId).isNone then
      r.addColumnFamily env props.columnFamilyName cfId
    else (true, r)
  let found := if added.1 then added.2.vset.getColumnFamily cfId else none
  (found.filter fun cfd => cfd.name = props.columnFamilyName, added.2)

/-- The boundaries that the loop of `ScanTable` finds; keys that do not parse are passed over. -/
def scanEntries (f : FileMetaData) (entries : List (Bytes × Bytes)) : FileMetaData :=
  (entries.filter fun e => internalKeyValid e.1).foldl (fun f e => f.updateBoundaries e.1) f

/-- `ScanTable`; none where the status is not OK. -/
def scanTable (r : Repairer) (fd : FileDescriptor) : Outcome (Option TableInfo × Repairer) :=
  match r.disk.find? (fun t => t.number = fd.getNumber ∧ t.pathId = fd.getPathId) with
  | none => .ok (none, r)
  | some t => do
      let found := r.keyList.filenameToKey (makeTableFileName t.number)
      let r := { r with keyList := found.2 }
      let props ← env.getTableProperties t.number t.contents found.1
      match props with
      | none => .ok (none, r)
      | some props =>
          let cfId :=
            if props.columnFamilyId = kUnknownColumnFamily then 0 else props.columnFamilyId
          match r.columnFamilyOf env props cfId with
          | (none, r) => .ok (none, r)
          | (some _, r) => do
              let (entries, ok) ← env.newIterator t.number t.contents found.1
              let fileMeta : FileMetaData :=
                { fd := .withoutSeqnos t.number t.pathId (UInt64.ofNat t.contents.length)
                  oldestAncesterTime := props.creationTime }
              .ok (if ok then some ⟨scanEntries fileMeta entries, cfId⟩ else none, r)

/-- `ArchiveFile` of a table. -/
def archiveTable (r : Repairer) (fd : FileDescriptor) : Repairer :=
  { r with
    disk := r.disk.filter fun t => ¬ (t.number = fd.getNumber ∧ t.pathId = fd.getPathId) }

/-- `ExtractMetaData` for the rest of `table_fds_`. -/
def extractMetaData : List FileDescriptor → Repairer → Outcome Repairer
  | [], r => .ok r
  | fd :: fds, r => do
      let (info, r) ← r.scanTable env fd
      match info with
      | none => extractMetaData fds (r.archiveTable fd)
      | some info => extractMetaData fds { r with tables := r.tables ++ [info] }

/-- The entries of the memtable of a column family after the records of a log. -/
def memtable (r : Repairer) (records : List Bytes) (cfId : UInt32) : List (Bytes × Bytes) :=
  let ids := r.vset.columnFamilies.map (·.id)
  ((records.filter fun b => ¬ b.length < WriteBatchInternal.kHeader).flatMap
    (env.insertInto ids)).filterMap fun e => if e.1 = cfId then some e.2 else none

/-- `MemTable::IsEmpty`: the first sequence number is zero. -/
def memtableIsEmpty (entries : List (Bytes × Bytes)) : Bool :=
  entries.all fun e => extractInternalKeyFooter e.1 / 256 = 0

/-- The tables that are dumped for the rest of the column families. -/
def dumpTables (records : List Bytes) : List ColumnFamilyData → Repairer → Outcome Repairer
  | [], r => .ok r
  | cfd :: cfds, r =>
      let entries := r.memtable env records cfd.id
      if memtableIsEmpty entries then dumpTables records cfds r
      else do
        let number := r.nextFileNumber
        let found := r.keyList.filenameToKey (makeTableFileName number)
        let r := { r with nextFileNumber := number + 1, keyList := found.2 }
        let result ← env.buildTable found.1 cfd entries
        match result with
        | none => .ok r
        | some contents =>
            if contents.length > 0 then
              dumpTables records cfds
                { r with
                  tableFds := r.tableFds ++
                    [.withoutSeqnos number 0 (UInt64.ofNat contents.length)]
                  disk := r.disk ++ [⟨number, 0, contents, contents, found.1⟩] }
            else dumpTables records cfds r

/-- `ConvertLogToTable`. The reader is not told a secret. -/
def convertLogToTable (r : Repairer) (log : LogOnDisk) : Outcome Repairer :=
  if env.opensLog log.number then do
    let reader := Log.newLogReader (.ofBytes log.contents) true log.number false
      (env.memory log.number) (env.memory log.number)
    let (records, _) ← reader.readLog env.cipher .kTolerateCorruptedTailRecords
    dumpTables env records r.vset.columnFamilies r
  else .ok r

/-- `ConvertLogFilesToTables`. -/
def convertLogFilesToTables : List LogOnDisk → Repairer → Outcome Repairer
  | [], r => .ok r
  | log :: logs, r => do
      let r ← r.convertLogToTable env log
      convertLogFilesToTables logs r

/-- The edit of `AddTables` for the tables of a column family. -/
def addTablesEdit (r : Repairer) (cfd : ColumnFamilyData) : VersionEdit :=
  let fields : EditFields :=
    { comparator := some cfd.comparator
      logNumber := some 0
      nextFileNumber := some r.nextFileNumber
      columnFamily := cfd.id
      newFiles := (r.tables.filter fun t => t.columnFamilyId = cfd.id).map fun t => (0, t.fileMeta) }
  { VersionEdit.new with toEditFields := fields }

/-- The loop of `AddTables`: whether the status is OK. -/
def addTablesOf : List UInt32 → Repairer → Outcome (Bool × Repairer)
  | [], r => .ok (true, r)
  | id :: ids, r =>
      match r.vset.getColumnFamily id with
      | none => .error .outOfBuffer
      | some cfd =>
          let edit := r.addTablesEdit cfd
          let vset := r.vset.markFileNumberUsed (r.nextFileNumber - 1)
          let (ok, vset) := vset.logAndApply env.manifest (env.logFault vset edit) edit
          let r := { r with vset := vset }
          if ok then addTablesOf ids r else .ok (false, r)

def addTables (r : Repairer) : Outcome (Bool × Repairer) :=
  let maxSequence := r.tables.foldl (fun m t => max m t.fileMeta.fd.largestSeqno) 0
  let r := { r with vset := { r.vset with lastSequence := maxSequence } }
  r.addTablesOf env (env.bucketOrder (r.tables.map (·.columnFamilyId)).dedup)

end Repairer

/-- `Repairer::Run` in a process with these keys, from `FindFiles` on; none where the status is
not OK. -/
def RepairEnv.run (env : RepairEnv) (keyList : KeyList) (files : List DirFile) :
    Outcome (Option Repairer) :=
  if files = [] then .ok none
  else do
    let r := files.foldl Repairer.findFile (.create env keyList)
    let r ← Repairer.extractMetaData env r.tableFds r
    let r ← Repairer.convertLogFilesToTables env r.logs { r with tableFds := [] }
    let r ← Repairer.extractMetaData env r.tableFds r
    let (ok, r) ← r.addTables env
    .ok (if ok then some r else none)

/-! ### What a repair should keep -/

/-- The table has the entry, or one of the same user key that is newer. -/
def RepairEnv.Holds (env : RepairEnv) (t : TableOnDisk) (e : UInt32 × Bytes × Bytes) : Prop :=
  ∃ entries, env.newIterator t.number t.contents t.sstKey = .ok (entries, true) ∧
    ∃ e' ∈ entries, extractUserKey e'.1 = extractUserKey e.2.1 ∧
      extractInternalKeyFooter e.2.1 ≤ extractInternalKeyFooter e'.1

namespace Repairer

end Repairer

/-- What the repair starts from. -/
def RepairEnv.found (env : RepairEnv) (keyList : KeyList) (files : List DirFile) : Repairer :=
  files.foldl Repairer.findFile (.create env keyList)

/-- What holds of the version set until `AddTables`. -/
structure VersionSet.Fresh (vs : VersionSet) : Prop where
  keyless : vs.Keyless
  fileless : vs.Fileless
  covered : vs.Covered

namespace Repairer

variable {env : RepairEnv} {r r' : Repairer}

end Repairer

end Tweezer
