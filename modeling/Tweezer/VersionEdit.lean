import Tweezer.Coding
import Tweezer.EncDec
import Tweezer.InternalKey

/-!
# Version edits

`db/version_edit.{h,cc}`, `db/wal_edit.{h,cc}` and the two blob file records. A MANIFEST is a
log of these: a list of tagged fields, among them the secrets of a log, the key of a table
and the deletion of such a key.
-/

namespace Tweezer

/-- The tags of the fields of an edit. -/
inductive Tag where
  | kComparator
  | kLogNumber
  | kNextFileNumber
  | kLastSequence
  | kCompactPointer
  | kDeletedFile
  | kNewFile
  | kPrevLogNumber
  | kMinLogNumberToKeep
  | kNewFile2
  | kNewFile3
  | kNewFile4
  | kColumnFamily
  | kColumnFamilyAdd
  | kColumnFamilyDrop
  | kMaxColumnFamily
  | kInAtomicGroup
  | kLogkeyAndHash
  | kSSTAdd
  | kSSTDelete
  | kDbId
  | kBlobFileAddition
  | kBlobFileGarbage
  | kWalAddition
  | kWalDeletion
  deriving DecidableEq, Repr

/-- The bit of a tag that may be skipped when it is not known. -/
def kTagSafeIgnoreMask : ℕ := 2 ^ 13

namespace Tag

def code : Tag → ℕ
  | kComparator => 1
  | kLogNumber => 2
  | kNextFileNumber => 3
  | kLastSequence => 4
  | kCompactPointer => 5
  | kDeletedFile => 6
  | kNewFile => 7
  | kPrevLogNumber => 9
  | kMinLogNumberToKeep => 10
  | kNewFile2 => 100
  | kNewFile3 => 102
  | kNewFile4 => 103
  | kColumnFamily => 200
  | kColumnFamilyAdd => 201
  | kColumnFamilyDrop => 202
  | kMaxColumnFamily => 203
  | kInAtomicGroup => 300
  | kLogkeyAndHash => 500
  | kSSTAdd => 501
  | kSSTDelete => 502
  | kDbId => 8193
  | kBlobFileAddition => 8194
  | kBlobFileGarbage => 8195
  | kWalAddition => 8196
  | kWalDeletion => 8197

def ofCode? : ℕ → Option Tag
  | 1 => some kComparator
  | 2 => some kLogNumber
  | 3 => some kNextFileNumber
  | 4 => some kLastSequence
  | 5 => some kCompactPointer
  | 6 => some kDeletedFile
  | 7 => some kNewFile
  | 9 => some kPrevLogNumber
  | 10 => some kMinLogNumberToKeep
  | 100 => some kNewFile2
  | 102 => some kNewFile3
  | 103 => some kNewFile4
  | 200 => some kColumnFamily
  | 201 => some kColumnFamilyAdd
  | 202 => some kColumnFamilyDrop
  | 203 => some kMaxColumnFamily
  | 300 => some kInAtomicGroup
  | 500 => some kLogkeyAndHash
  | 501 => some kSSTAdd
  | 502 => some kSSTDelete
  | 8193 => some kDbId
  | 8194 => some kBlobFileAddition
  | 8195 => some kBlobFileGarbage
  | 8196 => some kWalAddition
  | 8197 => some kWalDeletion
  | _ => none

theorem ofCode?_code (t : Tag) : ofCode? t.code = some t := by
  cases t <;> rfl

theorem code_lt (t : Tag) : t.code < 2 ^ 32 := by
  cases t <;> decide

def put (t : Tag) : Bytes := putVarint32 t.code

theorem getVarint32_put (t : Tag) (rest : Bytes) :
    getVarint32 (t.put ++ rest) = some (t.code, rest) :=
  getVarint32_putVarint32 t.code_lt rest

end Tag

/-- The tags of the fields of a `kNewFile4` record. -/
inductive NewFileCustomTag where
  | kTerminate
  | kNeedCompaction
  | kMinLogNumberToKeepHack
  | kOldestBlobFileNumber
  | kOldestAncesterTime
  | kFileCreationTime
  | kFileChecksum
  | kFileChecksumFuncName
  | kPathId
  deriving DecidableEq, Repr

/-- The bit of a custom tag that must not be skipped when it is not known. -/
def kCustomTagNonSafeIgnoreMask : ℕ := 2 ^ 6

namespace NewFileCustomTag

def code : NewFileCustomTag → ℕ
  | kTerminate => 1
  | kNeedCompaction => 2
  | kMinLogNumberToKeepHack => 3
  | kOldestBlobFileNumber => 4
  | kOldestAncesterTime => 5
  | kFileCreationTime => 6
  | kFileChecksum => 7
  | kFileChecksumFuncName => 8
  | kPathId => 65

def ofCode? : ℕ → Option NewFileCustomTag
  | 1 => some kTerminate
  | 2 => some kNeedCompaction
  | 3 => some kMinLogNumberToKeepHack
  | 4 => some kOldestBlobFileNumber
  | 5 => some kOldestAncesterTime
  | 6 => some kFileCreationTime
  | 7 => some kFileChecksum
  | 8 => some kFileChecksumFuncName
  | 65 => some kPathId
  | _ => none

theorem ofCode?_code (t : NewFileCustomTag) : ofCode? t.code = some t := by
  cases t <;> rfl

theorem code_lt (t : NewFileCustomTag) : t.code < 2 ^ 32 := by
  cases t <;> decide

def put (t : NewFileCustomTag) : Bytes := putVarint32 t.code

theorem getVarint32_put (t : NewFileCustomTag) (rest : Bytes) :
    getVarint32 (t.put ++ rest) = some (t.code, rest) :=
  getVarint32_putVarint32 t.code_lt rest

end NewFileCustomTag

def kFileNumberMask : ℕ := 0x3FFFFFFFFFFFFFFF

/-- `PackFileNumberAndPathId`. -/
def packFileNumberAndPathId (number : UInt64) (pathId : UInt32) : UInt64 :=
  number ||| (pathId.toUInt64 * UInt64.ofNat (kFileNumberMask + 1))

structure FileDescriptor where
  packedNumberAndPathId : UInt64
  fileSize : UInt64
  smallestSeqno : UInt64
  largestSeqno : UInt64
  deriving DecidableEq

namespace FileDescriptor

def create (number : UInt64) (pathId : UInt32) (fileSize smallestSeqno largestSeqno : UInt64) :
    FileDescriptor :=
  ⟨packFileNumberAndPathId number pathId, fileSize, smallestSeqno, largestSeqno⟩

/-- The constructor that leaves the range of sequence numbers empty. -/
def withoutSeqnos (number : UInt64) (pathId : UInt32) (fileSize : UInt64) : FileDescriptor :=
  create number pathId fileSize (UInt64.ofNat kMaxSequenceNumber) 0

def getNumber (fd : FileDescriptor) : UInt64 :=
  fd.packedNumberAndPathId &&& UInt64.ofNat kFileNumberMask

def getPathId (fd : FileDescriptor) : UInt32 :=
  (fd.packedNumberAndPathId / UInt64.ofNat (kFileNumberMask + 1)).toUInt32

end FileDescriptor

def kInvalidBlobFileNumber : UInt64 := 0

/-- `kUnknownFileChecksumFuncName`, "Unknown". -/
def kUnknownFileChecksumFuncName : Bytes := [0x55, 0x6e, 0x6b, 0x6e, 0x6f, 0x77, 0x6e]

/-- What an edit keeps of `FileMetaData`. -/
structure FileMetaData where
  fd : FileDescriptor := .withoutSeqnos 0 0 0
  smallest : Bytes := []
  largest : Bytes := []
  markedForCompaction : Bool := false
  oldestBlobFileNumber : UInt64 := kInvalidBlobFileNumber
  oldestAncesterTime : UInt64 := 0
  fileCreationTime : UInt64 := 0
  fileChecksum : Bytes := []
  fileChecksumFuncName : Bytes := kUnknownFileChecksumFuncName
  deriving DecidableEq

/-- `InternalKey::Valid`. -/
def internalKeyValid (k : Bytes) : Bool :=
  kNumInternalBytes ≤ k.length ∧ (ValueType.ofCode? (extractValueType k)).isSome

structure BlobFileAddition where
  blobFileNumber : UInt64
  totalBlobCount : UInt64
  totalBlobBytes : UInt64
  checksumMethod : Bytes
  checksumValue : Bytes
  deriving DecidableEq

structure BlobFileGarbage where
  blobFileNumber : UInt64
  garbageBlobCount : UInt64
  garbageBlobBytes : UInt64
  deriving DecidableEq

def kUnknownWalSize : UInt64 := UInt64.ofNat (2 ^ 64 - 1)

structure WalAddition where
  number : UInt64
  syncedSizeBytes : UInt64 := kUnknownWalSize
  deriving DecidableEq

/-- The order of `std::pair<int, uint64_t>`. -/
def fileBefore (a b : Int32 × UInt64) : Prop := a.1 < b.1 ∨ a.1 = b.1 ∧ a.2 < b.2

instance (a b : Int32 × UInt64) : Decidable (fileBefore a b) :=
  inferInstanceAs (Decidable (_ ∨ _))

theorem fileBefore_nil : ([] : List (Int32 × UInt64)).Pairwise fileBefore :=
  .nil

/-- `std::set<std::pair<int, uint64_t>>`, as the list of its elements in order. -/
abbrev DeletedFiles := {files : List (Int32 × UInt64) // files.Pairwise fileBefore}

/-- `log_secret`. -/
structure LogSecret where
  logNum : UInt64
  uniqueKey : Key
  uniqueHash : Mac
  deriving DecidableEq

/-- The members that `Clear` sets back. A member with a `has_` flag of its own is there when
the flag is set. -/
structure EditFields where
  dbId : Option Bytes := none
  comparator : Option Bytes := none
  logNumber : Option UInt64 := none
  prevLogNumber : Option UInt64 := none
  nextFileNumber : Option UInt64 := none
  maxColumnFamily : Option UInt32 := none
  minLogNumberToKeep : Option UInt64 := none
  lastSequence : Option UInt64 := none
  deletedFiles : DeletedFiles := ⟨[], fileBefore_nil⟩
  newFiles : List (Int32 × FileMetaData) := []
  blobFileAdditions : List BlobFileAddition := []
  blobFileGarbages : List BlobFileGarbage := []
  walAdditions : List WalAddition := []
  /-- Zero when there is none. -/
  walDeletion : UInt64 := 0
  columnFamily : UInt32 := 0
  isColumnFamilyDrop : Bool := false
  /-- The name, of an edit that adds a column family. -/
  columnFamilyAdd : Option Bytes := none
  /-- `remaining_entries_`, of an edit in an atomic group. -/
  atomicGroup : Option UInt32 := none
  deriving DecidableEq

structure VersionEdit extends EditFields where
  isLogSecret : Bool := false
  logSecret : LogSecret
  isSstKey : Bool := false
  sstKey : Key
  sstFileNumber : UInt64
  isSstDelete : Bool := false
  sstDeleteFileNumber : UInt64
  deriving DecidableEq

namespace VersionEdit

/-- `Clear`. It does not touch the members for secrets and keys. -/
def clear (e : VersionEdit) : VersionEdit := { e with toEditFields := {} }

def addLogSecret (e : VersionEdit) (logNum : UInt64) (uniqueKey : Key) (uniqueHash : Mac) :
    VersionEdit :=
  { e with isLogSecret := true, logSecret := ⟨logNum, uniqueKey, uniqueHash⟩ }

/-- `AddSSTKey`. -/
def addSstKey (e : VersionEdit) (fileNumber : UInt64) (sstKey : Key) : VersionEdit :=
  { e with isSstKey := true, sstFileNumber := fileNumber, sstKey := sstKey }

/-- `DeleteSSTKey`. -/
def deleteSstKey (e : VersionEdit) (fileNumber : UInt64) : VersionEdit :=
  { e with isSstDelete := true, sstDeleteFileNumber := fileNumber }

end VersionEdit

/-! ### Encoding -/

def putVarint64Of (value : UInt64) : Bytes := putVarint64 value.toNat

def putVarint32Of (value : UInt32) : Bytes := putVarint32 value.toNat

def BlobFileAddition.encodeTo (a : BlobFileAddition) : Bytes :=
  putVarint64Of a.blobFileNumber ++ (putVarint64Of a.totalBlobCount ++
    (putVarint64Of a.totalBlobBytes ++ (putLengthPrefixedSlice a.checksumMethod ++
      (putLengthPrefixedSlice a.checksumValue ++ putVarint32 0))))

def BlobFileGarbage.encodeTo (g : BlobFileGarbage) : Bytes :=
  putVarint64Of g.blobFileNumber ++ (putVarint64Of g.garbageBlobCount ++
    (putVarint64Of g.garbageBlobBytes ++ putVarint32 0))

/-- `WalAddition::EncodeTo`; a size that is not known is left out. -/
def WalAddition.encodeTo (w : WalAddition) : Bytes :=
  putVarint64Of w.number ++ ((if w.syncedSizeBytes ≠ kUnknownWalSize then
    putVarint32 2 ++ putVarint64Of w.syncedSizeBytes else []) ++ putVarint32 1)

/-- A custom field of a `kNewFile4` record. -/
def customField (t : NewFileCustomTag) (value : Bytes) : Bytes :=
  t.put ++ putLengthPrefixedSlice value

/-- The custom fields of a `kNewFile4` record; the number of the oldest log to keep travels
with the first file of an edit. -/
def FileMetaData.customFields (f : FileMetaData) (minLogNumberToKeep : Option UInt64) : Bytes :=
  customField .kOldestAncesterTime (putVarint64Of f.oldestAncesterTime) ++
    (customField .kFileCreationTime (putVarint64Of f.fileCreationTime) ++
    (customField .kFileChecksum f.fileChecksum ++
    (customField .kFileChecksumFuncName f.fileChecksumFuncName ++
    ((if f.fd.getPathId ≠ 0 then customField .kPathId [f.fd.getPathId.toUInt8] else []) ++
    ((if f.markedForCompaction then customField .kNeedCompaction [1] else []) ++
    ((match minLogNumberToKeep with
      | some number => customField .kMinLogNumberToKeepHack (putFixed64 number)
      | none => []) ++
    ((if f.oldestBlobFileNumber ≠ kInvalidBlobFileNumber then
        customField .kOldestBlobFileNumber (putVarint64Of f.oldestBlobFileNumber) else []) ++
      NewFileCustomTag.kTerminate.put)))))))

/-- A `kNewFile4` record behind its tag. -/
def FileMetaData.encodeTo (level : Int32) (f : FileMetaData)
    (minLogNumberToKeep : Option UInt64) : Bytes :=
  putVarint32Of level.toUInt32 ++ (putVarint64Of f.fd.getNumber ++
    (putVarint64Of f.fd.fileSize ++ (putLengthPrefixedSlice f.smallest ++
      (putLengthPrefixedSlice f.largest ++ (putVarint64Of f.fd.smallestSeqno ++
        (putVarint64Of f.fd.largestSeqno ++ f.customFields minLogNumberToKeep))))))

/-- The records of the new files. -/
def encodeNewFiles : Option UInt64 → List (Int32 × FileMetaData) → Bytes
  | _, [] => []
  | minLogNumberToKeep, (level, f) :: files =>
      Tag.kNewFile4.put ++ (f.encodeTo level minLogNumberToKeep ++ encodeNewFiles none files)

/-- A tag and what it stands before, when there is a value. -/
def putField {α : Type} (t : Tag) (put : α → Bytes) : Option α → Bytes
  | some a => t.put ++ put a
  | none => []

/-- The fields that are there without encryption. -/
def EditFields.encodeTo (e : EditFields) : Bytes :=
  putField .kDbId putLengthPrefixedSlice e.dbId ++
  (putField .kComparator putLengthPrefixedSlice e.comparator ++
  (putField .kLogNumber putVarint64Of e.logNumber ++
  (putField .kPrevLogNumber putVarint64Of e.prevLogNumber ++
  (putField .kNextFileNumber putVarint64Of e.nextFileNumber ++
  (putField .kMaxColumnFamily putVarint32Of e.maxColumnFamily ++
  (putField .kLastSequence putVarint64Of e.lastSequence ++
  (e.deletedFiles.val.flatMap (fun d => Tag.kDeletedFile.put ++
    (putVarint32Of d.1.toUInt32 ++ putVarint64Of d.2)) ++
  (encodeNewFiles e.minLogNumberToKeep e.newFiles ++
  (e.blobFileAdditions.flatMap (fun a => Tag.kBlobFileAddition.put ++ a.encodeTo) ++
  (e.blobFileGarbages.flatMap (fun g => Tag.kBlobFileGarbage.put ++ g.encodeTo) ++
  (e.walAdditions.flatMap (fun w => Tag.kWalAddition.put ++ w.encodeTo) ++
  ((if e.walDeletion ≠ 0 then Tag.kWalDeletion.put ++ putVarint64Of e.walDeletion else []) ++
  ((if e.columnFamily ≠ 0 then Tag.kColumnFamily.put ++ putVarint32Of e.columnFamily else []) ++
  (putField .kColumnFamilyAdd putLengthPrefixedSlice e.columnFamilyAdd ++
  ((if e.isColumnFamilyDrop then Tag.kColumnFamilyDrop.put else []) ++
  putField .kInAtomicGroup putVarint32Of e.atomicGroup)))))))))))))))

/-- The fields that the encryption adds. -/
inductive SecretField where
  | logkeyAndHash (secret : LogSecret)
  | sstAdd (fileNumber : UInt64) (sstKey : Key)
  | sstDelete (fileNumber : UInt64)

namespace SecretField

def tag : SecretField → Tag
  | logkeyAndHash _ => .kLogkeyAndHash
  | sstAdd _ _ => .kSSTAdd
  | sstDelete _ => .kSSTDelete

/-- What stands behind the tag. -/
def body : SecretField → Bytes
  | logkeyAndHash secret => putFixed64 secret.logNum ++
      (putLengthPrefixedSlice secret.uniqueKey.val ++ putLengthPrefixedSlice secret.uniqueHash.val)
  | sstAdd fileNumber sstKey => putFixed64 fileNumber ++ putLengthPrefixedSlice sstKey.val
  | sstDelete fileNumber => putFixed64 fileNumber

def encodeTo (f : SecretField) : Bytes := f.tag.put ++ f.body

end SecretField

namespace VersionEdit

/-- The secret fields of an edit, as it writes them. -/
def secretFields (e : VersionEdit) : List SecretField :=
  (if e.isLogSecret then [.logkeyAndHash e.logSecret] else []) ++
    ((if e.isSstKey then [.sstAdd e.sstFileNumber e.sstKey] else []) ++
      if e.isSstDelete then [.sstDelete e.sstDeleteFileNumber] else [])

/-- `EncodeTo`, which refuses a file whose bounds are not internal keys. -/
def encodeTo (e : VersionEdit) : Option Bytes :=
  if e.newFiles.all fun f => internalKeyValid f.2.smallest && internalKeyValid f.2.largest then
    some (e.toEditFields.encodeTo ++ e.secretFields.flatMap SecretField.encodeTo)
  else none

end VersionEdit

end Tweezer
