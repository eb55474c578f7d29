import Tweezer.InternalKey
import Tweezer.VersionEditDecode

/-!
# A batch of writes

`db/write_batch.cc`. A batch is one string: a header of a sequence number and a count, and its
records, each a tag and what follows it. The calls that build a batch append to the string and
take back what they appended if the batch became too large; save points are lengths of the
string to go back to. Column families have no timestamps.
-/

namespace Tweezer

/-- The statuses of batches and of their handlers, with the texts of their messages. -/
inductive BatchStatus where
  | ok
  | tryAgain (msg : String)
  | corruption (msg : String)
  | notSupported (msg : String)
  | invalidArgument (msg : String)
  | memoryLimit
  | notFound
  deriving DecidableEq, Repr

namespace BatchStatus

def isOk : BatchStatus → Bool
  | ok => true
  | _ => false

def isTryAgain : BatchStatus → Bool
  | tryAgain _ => true
  | _ => false

end BatchStatus

/-! ### Tags and flags -/

def kTypeDeletion : ℕ := 0x0
def kTypeValue : ℕ := 0x1
def kTypeMerge : ℕ := 0x2
def kTypeLogData : ℕ := 0x3
def kTypeColumnFamilyDeletion : ℕ := 0x4
def kTypeColumnFamilyValue : ℕ := 0x5
def kTypeColumnFamilyMerge : ℕ := 0x6
def kTypeSingleDeletion : ℕ := 0x7
def kTypeColumnFamilySingleDeletion : ℕ := 0x8
def kTypeBeginPrepareXID : ℕ := 0x9
def kTypeEndPrepareXID : ℕ := 0xA
def kTypeCommitXID : ℕ := 0xB
def kTypeRollbackXID : ℕ := 0xC
def kTypeNoop : ℕ := 0xD
def kTypeColumnFamilyRangeDeletion : ℕ := 0xE
def kTypeRangeDeletion : ℕ := 0xF
def kTypeColumnFamilyBlobIndex : ℕ := 0x10
def kTypeBlobIndex : ℕ := 0x11
def kTypeBeginPersistedPrepareXID : ℕ := 0x12
def kTypeBeginUnprepareXID : ℕ := 0x13

namespace ContentFlags

def deferred : ℕ := 1
def hasPut : ℕ := 2
def hasDelete : ℕ := 4
def hasSingleDelete : ℕ := 8
def hasMerge : ℕ := 16
def hasBeginPrepare : ℕ := 32
def hasEndPrepare : ℕ := 64
def hasCommit : ℕ := 128
def hasRollback : ℕ := 256
def hasDeleteRange : ℕ := 512
def hasBlobIndex : ℕ := 1024
def hasBeginUnprepare : ℕ := 2048

end ContentFlags

/-! ### Records -/

/-- What one record says. -/
inductive BatchRecord where
  | put (columnFamily : UInt32) (key value : Bytes)
  | delete (columnFamily : UInt32) (key : Bytes)
  | singleDelete (columnFamily : UInt32) (key : Bytes)
  | deleteRange (columnFamily : UInt32) (beginKey endKey : Bytes)
  | merge (columnFamily : UInt32) (key value : Bytes)
  | putBlobIndex (columnFamily : UInt32) (key value : Bytes)
  | logData (blob : Bytes)
  | beginPrepare
  | beginPersistedPrepare
  | beginUnprepare
  | endPrepare (xid : Bytes)
  | commit (xid : Bytes)
  | rollback (xid : Bytes)
  | noop
  deriving DecidableEq, Repr

/-- The tag, and the column family unless it is the default one. -/
def columnFamilyTag (tag columnFamilyTag : ℕ) (columnFamily : UInt32) : Bytes :=
  if columnFamily = 0 then [UInt8.ofNat tag]
  else UInt8.ofNat columnFamilyTag :: putVarint32 columnFamily.toNat

def BatchRecord.encode : BatchRecord → Bytes
  | put cf key value => columnFamilyTag kTypeValue kTypeColumnFamilyValue cf ++
      (putLengthPrefixedSlice key ++ putLengthPrefixedSlice value)
  | delete cf key => columnFamilyTag kTypeDeletion kTypeColumnFamilyDeletion cf ++
      putLengthPrefixedSlice key
  | singleDelete cf key =>
      columnFamilyTag kTypeSingleDeletion kTypeColumnFamilySingleDeletion cf ++
        putLengthPrefixedSlice key
  | deleteRange cf beginKey endKey =>
      columnFamilyTag kTypeRangeDeletion kTypeColumnFamilyRangeDeletion cf ++
        (putLengthPrefixedSlice beginKey ++ putLengthPrefixedSlice endKey)
  | merge cf key value => columnFamilyTag kTypeMerge kTypeColumnFamilyMerge cf ++
      (putLengthPrefixedSlice key ++ putLengthPrefixedSlice value)
  | putBlobIndex cf key value => columnFamilyTag kTypeBlobIndex kTypeColumnFamilyBlobIndex cf ++
      (putLengthPrefixedSlice key ++ putLengthPrefixedSlice value)
  | logData blob => UInt8.ofNat kTypeLogData :: putLengthPrefixedSlice blob
  | beginPrepare => [UInt8.ofNat kTypeBeginPrepareXID]
  | beginPersistedPrepare => [UInt8.ofNat kTypeBeginPersistedPrepareXID]
  | beginUnprepare => [UInt8.ofNat kTypeBeginUnprepareXID]
  | endPrepare xid => UInt8.ofNat kTypeEndPrepareXID :: putLengthPrefixedSlice xid
  | commit xid => UInt8.ofNat kTypeCommitXID :: putLengthPrefixedSlice xid
  | rollback xid => UInt8.ofNat kTypeRollbackXID :: putLengthPrefixedSlice xid
  | noop => [UInt8.ofNat kTypeNoop]

/-! ### Building a batch -/

/-- `SavePoint`: the size, the count and the flags of a batch. -/
structure SavePoint where
  size : ℕ
  count : ℕ
  contentFlags : ℕ
  deriving DecidableEq

def SavePoint.isCleared (p : SavePoint) : Bool := (p.size ||| p.count ||| p.contentFlags) = 0

structure WriteBatch where
  rep : Bytes
  maxBytes : ℕ
  contentFlags : ℕ
  savePoints : List SavePoint
  walTermPoint : SavePoint

namespace WriteBatch

/-- The sequence number and the count. -/
def kHeader : ℕ := 12

def create (maxBytes : ℕ) : WriteBatch :=
  ⟨Bytes.zeros kHeader, maxBytes, 0, [], ⟨0, 0, 0⟩⟩

def setContents (b : WriteBatch) (contents : Bytes) : WriteBatch :=
  { b with rep := contents, contentFlags := ContentFlags.deferred }

def count (b : WriteBatch) : ℕ := Bytes.leDecode (b.rep.slice 8 4)

def setCount (b : WriteBatch) (n : ℕ) : WriteBatch :=
  { b with rep := b.rep.take 8 ++ (Bytes.leEncode 4 (u32 n) ++ b.rep.drop 12) }

def sequence (b : WriteBatch) : ℕ := Bytes.leDecode (b.rep.slice 0 8)

def setSequence (b : WriteBatch) (seq : ℕ) : WriteBatch :=
  { b with rep := Bytes.leEncode 8 (u64 seq) ++ b.rep.drop 8 }

def savePoint (b : WriteBatch) : SavePoint := ⟨b.rep.length, b.count, b.contentFlags⟩

/-- The length, the count and the flags of an earlier time. -/
def goBack (b : WriteBatch) (p : SavePoint) : WriteBatch :=
  { { b with rep := b.rep.take p.size }.setCount p.count with contentFlags := p.contentFlags }

/-- `LocalSavePoint::commit`. -/
def commit (b : WriteBatch) (save : SavePoint) : BatchStatus × WriteBatch :=
  if b.maxBytes ≠ 0 ∧ b.maxBytes < b.rep.length then (.memoryLimit, b.goBack save) else (.ok, b)

/-- Appends a record that counts. -/
def addCounted (b : WriteBatch) (record : Bytes) (flag : ℕ) : BatchStatus × WriteBatch :=
  let save := b.savePoint
  let b := b.setCount (b.count + 1)
  { b with rep := b.rep ++ record, contentFlags := b.contentFlags ||| flag }.commit save

/-- The check that `Put` and `Merge` begin with. -/
def checkSizes (key value : Bytes) : BatchStatus :=
  if 2 ^ 32 - 1 < key.length then .invalidArgument "key is too large"
  else if 2 ^ 32 - 1 < value.length then .invalidArgument "value is too large"
  else .ok

def put (b : WriteBatch) (columnFamily : UInt32) (key value : Bytes) : BatchStatus × WriteBatch :=
  match checkSizes key value with
  | .ok => b.addCounted (columnFamilyTag kTypeValue kTypeColumnFamilyValue columnFamily ++
      (putLengthPrefixedSlice key ++ putLengthPrefixedSlice value)) ContentFlags.hasPut
  | s => (s, b)

def delete (b : WriteBatch) (columnFamily : UInt32) (key : Bytes) : BatchStatus × WriteBatch :=
  b.addCounted (columnFamilyTag kTypeDeletion kTypeColumnFamilyDeletion columnFamily ++
    putLengthPrefixedSlice key) ContentFlags.hasDelete

def singleDelete (b : WriteBatch) (columnFamily : UInt32) (key : Bytes) :
    BatchStatus × WriteBatch :=
  b.addCounted (columnFamilyTag kTypeSingleDeletion kTypeColumnFamilySingleDeletion columnFamily ++
    putLengthPrefixedSlice key) ContentFlags.hasSingleDelete

def deleteRange (b : WriteBatch) (columnFamily : UInt32) (beginKey endKey : Bytes) :
    BatchStatus × WriteBatch :=
  b.addCounted (columnFamilyTag kTypeRangeDeletion kTypeColumnFamilyRangeDeletion columnFamily ++
    (putLengthPrefixedSlice beginKey ++ putLengthPrefixedSlice endKey)) ContentFlags.hasDeleteRange

def merge (b : WriteBatch) (columnFamily : UInt32) (key value : Bytes) :
    BatchStatus × WriteBatch :=
  match checkSizes key value with
  | .ok => b.addCounted (columnFamilyTag kTypeMerge kTypeColumnFamilyMerge columnFamily ++
      (putLengthPrefixedSlice key ++ putLengthPrefixedSlice value)) ContentFlags.hasMerge
  | s => (s, b)

def putBlobIndex (b : WriteBatch) (columnFamily : UInt32) (key value : Bytes) :
    BatchStatus × WriteBatch :=
  b.addCounted (columnFamilyTag kTypeBlobIndex kTypeColumnFamilyBlobIndex columnFamily ++
    (putLengthPrefixedSlice key ++ putLengthPrefixedSlice value)) ContentFlags.hasBlobIndex

/-- `PutLogData`, which does not count. -/
def putLogData (b : WriteBatch) (blob : Bytes) : BatchStatus × WriteBatch :=
  { b with rep := b.rep ++ UInt8.ofNat kTypeLogData :: putLengthPrefixedSlice blob }.commit
    b.savePoint

def insertNoop (b : WriteBatch) : WriteBatch :=
  { b with rep := b.rep ++ [UInt8.ofNat kTypeNoop] }

/-- `MarkEndPrepare`: the no-op at the start of the batch becomes its begin marker. -/
def markEndPrepare (b : WriteBatch) (xid : Bytes) (writeAfterCommit unpreparedBatch : Bool) :
    WriteBatch :=
  let tag := if writeAfterCommit then kTypeBeginPrepareXID
    else if unpreparedBatch then kTypeBeginUnprepareXID else kTypeBeginPersistedPrepareXID
  let flags := b.contentFlags ||| (ContentFlags.hasEndPrepare ||| ContentFlags.hasBeginPrepare)
  { b with
    savePoints := []
    rep := b.rep.set kHeader (UInt8.ofNat tag) ++
      UInt8.ofNat kTypeEndPrepareXID :: putLengthPrefixedSlice xid
    contentFlags := if unpreparedBatch then flags ||| ContentFlags.hasBeginUnprepare else flags }

def markCommit (b : WriteBatch) (xid : Bytes) : WriteBatch :=
  { b with
    rep := b.rep ++ UInt8.ofNat kTypeCommitXID :: putLengthPrefixedSlice xid
    contentFlags := b.contentFlags ||| ContentFlags.hasCommit }

def markRollback (b : WriteBatch) (xid : Bytes) : WriteBatch :=
  { b with
    rep := b.rep ++ UInt8.ofNat kTypeRollbackXID :: putLengthPrefixedSlice xid
    contentFlags := b.contentFlags ||| ContentFlags.hasRollback }

def clear (b : WriteBatch) : WriteBatch := create b.maxBytes

def setSavePoint (b : WriteBatch) : WriteBatch :=
  { b with savePoints := b.savePoint :: b.savePoints }

def rollbackToSavePoint (b : WriteBatch) : BatchStatus × WriteBatch :=
  match b.savePoints with
  | [] => (.notFound, b)
  | p :: points =>
      let b := { b with savePoints := points }
      if p.size = b.rep.length then (.ok, b)
      else if p.size = 0 then (.ok, b.clear)
      else (.ok, b.goBack p)

def popSavePoint (b : WriteBatch) : BatchStatus × WriteBatch :=
  match b.savePoints with
  | [] => (.notFound, b)
  | _ :: points => (.ok, { b with savePoints := points })

def markWalTerminationPoint (b : WriteBatch) : WriteBatch :=
  { b with walTermPoint := b.savePoint }

/-- `Append`. -/
def append (dst src : WriteBatch) (walOnly : Bool) : WriteBatch :=
  let upTo := if walOnly && !src.walTermPoint.isCleared then src.walTermPoint
    else src.savePoint
  let dst := dst.setCount (dst.count + upTo.count)
  { dst with
    rep := dst.rep ++ (src.rep.drop kHeader).take (upTo.size - kHeader)
    contentFlags := dst.contentFlags ||| upTo.contentFlags }

end WriteBatch

/-! ### Reading a batch -/

/-- The column family of a record, if its tag says that there is one. -/
def readColumnFamily (hasColumnFamily : Bool) (input : Bytes) : Option (UInt32 × Bytes) :=
  if hasColumnFamily then getVarint32Of input else some (0, input)

/-- A record of one string. -/
def readKey (hasColumnFamily : Bool) (input : Bytes) (msg : String)
    (make : UInt32 → Bytes → BatchRecord) : Except String (BatchRecord × Bytes) :=
  match readColumnFamily hasColumnFamily input with
  | none => .error msg
  | some (cf, input) => match getString input with
    | none => .error msg
    | some (key, input) => .ok (make cf key, input)

/-- A record of two strings. -/
def readKeyValue (hasColumnFamily : Bool) (input : Bytes) (msg : String)
    (make : UInt32 → Bytes → Bytes → BatchRecord) : Except String (BatchRecord × Bytes) :=
  match readColumnFamily hasColumnFamily input with
  | none => .error msg
  | some (cf, input) => match getString input with
    | none => .error msg
    | some (key, input) => match getString input with
      | none => .error msg
      | some (value, input) => .ok (make cf key value, input)

/-- `ReadRecordFromWriteBatch` behind the tag. -/
def readRecordOf (tag : ℕ) (input : Bytes) : Except String (BatchRecord × Bytes) :=
  if tag = kTypeColumnFamilyValue ∨ tag = kTypeValue then
    readKeyValue (tag = kTypeColumnFamilyValue) input "bad WriteBatch Put" .put
  else if tag = kTypeColumnFamilyDeletion ∨ tag = kTypeDeletion then
    readKey (tag = kTypeColumnFamilyDeletion) input "bad WriteBatch Delete" .delete
  else if tag = kTypeColumnFamilySingleDeletion ∨ tag = kTypeSingleDeletion then
    readKey (tag = kTypeColumnFamilySingleDeletion) input "bad WriteBatch Delete" .singleDelete
  else if tag = kTypeColumnFamilyRangeDeletion ∨ tag = kTypeRangeDeletion then
    readKeyValue (tag = kTypeColumnFamilyRangeDeletion) input "bad WriteBatch DeleteRange"
      .deleteRange
  else if tag = kTypeColumnFamilyMerge ∨ tag = kTypeMerge then
    readKeyValue (tag = kTypeColumnFamilyMerge) input "bad WriteBatch Merge" .merge
  else if tag = kTypeColumnFamilyBlobIndex ∨ tag = kTypeBlobIndex then
    readKeyValue (tag = kTypeColumnFamilyBlobIndex) input "bad WriteBatch BlobIndex" .putBlobIndex
  else if tag = kTypeLogData then
    readKey false input "bad WriteBatch Blob" fun _ => .logData
  else if tag = kTypeNoop then .ok (.noop, input)
  else if tag = kTypeBeginPrepareXID then .ok (.beginPrepare, input)
  else if tag = kTypeBeginPersistedPrepareXID then .ok (.beginPersistedPrepare, input)
  else if tag = kTypeBeginUnprepareXID then .ok (.beginUnprepare, input)
  else if tag = kTypeEndPrepareXID then
    readKey false input "bad EndPrepare XID" fun _ => .endPrepare
  else if tag = kTypeCommitXID then readKey false input "bad Commit XID" fun _ => .commit
  else if tag = kTypeRollbackXID then readKey false input "bad Rollback XID" fun _ => .rollback
  else .error "unknown WriteBatch tag"

/-- `ReadRecordFromWriteBatch`, of an input that is not empty. -/
def readRecord : Bytes → Except String (BatchRecord × Bytes)
  | [] => .error "unknown WriteBatch tag"
  | tag :: input => readRecordOf tag.toNat input

/-! ### Handlers -/

/-- `WriteBatch::Handler`, with a state of its own. -/
structure Handler (σ : Type) where
  putCF : UInt32 → Bytes → Bytes → σ → BatchStatus × σ
  deleteCF : UInt32 → Bytes → σ → BatchStatus × σ
  singleDeleteCF : UInt32 → Bytes → σ → BatchStatus × σ
  deleteRangeCF : UInt32 → Bytes → Bytes → σ → BatchStatus × σ
  mergeCF : UInt32 → Bytes → Bytes → σ → BatchStatus × σ
  putBlobIndexCF : UInt32 → Bytes → Bytes → σ → BatchStatus × σ
  logData : Bytes → σ → σ
  markBeginPrepare : Bool → σ → BatchStatus × σ
  markEndPrepare : Bytes → σ → BatchStatus × σ
  markCommit : Bytes → σ → BatchStatus × σ
  markRollback : Bytes → σ → BatchStatus × σ
  markNoop : Bool → σ → BatchStatus × σ
  continues : σ → Bool × σ
  writeAfterCommit : Bool
  writeBeforePrepare : Bool

/-- The tag of a transaction under another policy. -/
def otherPolicy (tag condition mode : String) : String :=
  tag ++ " txn tag when " ++ condition ++ " (in " ++ mode ++ "). If it is not due to " ++
    "corruption, the WAL must be emptied before changing the WritePolicy."

namespace Handler

variable {σ : Type} (H : Handler σ)

/-- What the statement behind a record's tag does: the status, whether the sub-batch is empty
and how many records were found, if the status is good. -/
def dispatch (r : BatchRecord) (emptyBatch : Bool) (h : σ) : BatchStatus × Bool × ℕ × σ :=
  -- a record that counts
  let counted := fun (result : BatchStatus × σ) =>
    if result.1.isOk then (result.1, false, 1, result.2) else (result.1, emptyBatch, 0, result.2)
  match r with
  | .put cf key value => counted (H.putCF cf key value h)
  | .delete cf key => counted (H.deleteCF cf key h)
  | .singleDelete cf key => counted (H.singleDeleteCF cf key h)
  | .deleteRange cf beginKey endKey => counted (H.deleteRangeCF cf beginKey endKey h)
  | .merge cf key value => counted (H.mergeCF cf key value h)
  | .putBlobIndex cf key value =>
      let (s, h) := H.putBlobIndexCF cf key value h
      (s, emptyBatch, if s.isOk then 1 else 0, h)
  | .logData blob => (.ok, false, 0, H.logData blob h)
  | .beginPrepare =>
      let (s, h) := H.markBeginPrepare false h
      let s := if H.writeAfterCommit then s else .notSupported
        (otherPolicy "WriteCommitted" "write_after_commit_ is disabled"
          "WritePrepared/WriteUnprepared mode")
      let s := if H.writeBeforePrepare then .notSupported
        (otherPolicy "WriteCommitted" "write_before_prepare_ is enabled"
          "WriteUnprepared mode")
        else s
      (s, false, 0, h)
  | .beginPersistedPrepare =>
      let (s, h) := H.markBeginPrepare false h
      let s := if H.writeAfterCommit then .notSupported
        (otherPolicy "WritePrepared/WriteUnprepared" "write_after_commit_ is enabled"
          "default WriteCommitted mode")
        else s
      (s, false, 0, h)
  | .beginUnprepare =>
      let (s, h) := H.markBeginPrepare true h
      let s := if H.writeAfterCommit then .notSupported
        (otherPolicy "WriteUnprepared" "write_after_commit_ is enabled"
          "default WriteCommitted mode")
        else s
      let s := if H.writeBeforePrepare then s else .notSupported
        (otherPolicy "WriteUnprepared" "write_before_prepare_ is disabled"
          "WriteCommitted/WritePrepared mode")
      (s, false, 0, h)
  | .endPrepare xid => let (s, h) := H.markEndPrepare xid h; (s, true, 0, h)
  | .commit xid => let (s, h) := H.markCommit xid h; (s, true, 0, h)
  | .rollback xid => let (s, h) := H.markRollback xid h; (s, true, 0, h)
  | .noop => let (s, h) := H.markNoop emptyBatch h; (s, true, 0, h)

end Handler

/-- The variables of the loop of `Iterate`. -/
structure Iteration (σ : Type) where
  input : Bytes
  status : BatchStatus
  record : BatchRecord
  lastWasTryAgain : Bool
  emptyBatch : Bool
  found : ℕ
  handlerContinue : Bool
  handler : σ

/-- How a turn of the loop of `Iterate` ends: the call returns from within the loop, or the
loop ends, or it goes on. -/
inductive Turn (σ : Type) where
  | returned (result : BatchStatus × σ)
  | left (it : Iteration σ)
  | next (it : Iteration σ)

namespace WriteBatch

variable {σ : Type} (H : Handler σ)

/-- One turn of the loop of `Iterate`. -/
def iterateTurn (it : Iteration σ) : Turn σ :=
  if ¬ ((it.status.isOk ∧ it.input ≠ []) ∨ it.status.isTryAgain) then .left it
  else
    let (handlerContinue, h) := H.continues it.handler
    if ¬ handlerContinue then .left { it with handlerContinue := false, handler := h }
    else
      let go := fun (record : BatchRecord) (input : Bytes) (lastWasTryAgain : Bool) =>
        let (status, emptyBatch, found, h) := H.dispatch record it.emptyBatch h
        Turn.next ⟨input, status, record, lastWasTryAgain, emptyBatch, it.found + found, true, h⟩
      if ¬ it.status.isTryAgain then
        match readRecord it.input with
        | .error msg => .returned (.corruption msg, h)
        | .ok (record, input) => go record input false
      else if it.lastWasTryAgain then
        .returned (.corruption ("two consecutive TryAgain in WriteBatch handler; " ++
          "this is either a software bug or data corruption."), h)
      else go it.record it.input true

/-- The loop of `Iterate`, in at most `fuel` turns: the variables behind it, or what is returned
from within it. -/
def iterateLoop : ℕ → Iteration σ → Outcome (Except (BatchStatus × σ) (Iteration σ))
  | 0, _ => .error .diverged
  | fuel + 1, it => match iterateTurn H it with
      | .returned result => .ok (.error result)
      | .left it => .ok (.ok it)
      | .next it => iterateLoop fuel it

/-- What `Iterate` returns behind its loop. -/
def iterateResult (b : WriteBatch) :
    Except (BatchStatus × σ) (Iteration σ) → BatchStatus × σ
  | .error result => result
  | .ok it =>
      if ¬ it.status.isOk then (it.status, it.handler)
      else if it.handlerContinue ∧ u32 it.found ≠ b.count then
        (.corruption "WriteBatch has wrong count", it.handler)
      else (.ok, it.handler)

/-- `Iterate` over the whole batch. -/
def iterate (b : WriteBatch) (h : σ) : Outcome (BatchStatus × σ) :=
  if b.rep.length < kHeader then .ok (.corruption "malformed WriteBatch (too small)", h)
  else
    let input := b.rep.drop kHeader
    (iterateLoop H (2 * input.length + 2) ⟨input, .ok, .noop, false, true, 0, true, h⟩).map
      b.iterateResult

end WriteBatch

/-! ### The flags of contents -/

/-- `BatchContentClassifier`, whose state are the flags. -/
def batchContentClassifier : Handler ℕ where
  putCF _ _ _ flags := (.ok, flags ||| ContentFlags.hasPut)
  deleteCF _ _ flags := (.ok, flags ||| ContentFlags.hasDelete)
  singleDeleteCF _ _ flags := (.ok, flags ||| ContentFlags.hasSingleDelete)
  deleteRangeCF _ _ _ flags := (.ok, flags ||| ContentFlags.hasDeleteRange)
  mergeCF _ _ _ flags := (.ok, flags ||| ContentFlags.hasMerge)
  putBlobIndexCF _ _ _ flags := (.ok, flags ||| ContentFlags.hasBlobIndex)
  logData _ flags := flags
  markBeginPrepare unprepare flags :=
    let flags := flags ||| ContentFlags.hasBeginPrepare
    (.ok, if unprepare then flags ||| ContentFlags.hasBeginUnprepare else flags)
  markEndPrepare _ flags := (.ok, flags ||| ContentFlags.hasEndPrepare)
  markCommit _ flags := (.ok, flags ||| ContentFlags.hasCommit)
  markRollback _ flags := (.ok, flags ||| ContentFlags.hasRollback)
  markNoop _ flags := (.invalidArgument "MarkNoop() handler not defined.", flags)
  continues flags := (true, flags)
  writeAfterCommit := true
  writeBeforePrepare := false

/-- `ComputeContentFlags`, with the batch behind it. -/
def WriteBatch.computeContentFlags (b : WriteBatch) : Outcome (ℕ × WriteBatch) :=
  if b.contentFlags &&& ContentFlags.deferred ≠ 0 then
    (b.iterate batchContentClassifier 0).map fun (_, flags) =>
      (flags, { b with contentFlags := flags })
  else .ok (b.contentFlags, b)

namespace WriteBatch

/-- Whether the batch has one of the flags. -/
def has (b : WriteBatch) (flag : ℕ) : Outcome Bool :=
  b.computeContentFlags.map fun r => decide (r.1 &&& flag ≠ 0)

def hasPut (b : WriteBatch) : Outcome Bool := b.has ContentFlags.hasPut
def hasDelete (b : WriteBatch) : Outcome Bool := b.has ContentFlags.hasDelete
def hasSingleDelete (b : WriteBatch) : Outcome Bool := b.has ContentFlags.hasSingleDelete
def hasDeleteRange (b : WriteBatch) : Outcome Bool := b.has ContentFlags.hasDeleteRange
def hasMerge (b : WriteBatch) : Outcome Bool := b.has ContentFlags.hasMerge
def hasBeginPrepare (b : WriteBatch) : Outcome Bool := b.has ContentFlags.hasBeginPrepare
def hasEndPrepare (b : WriteBatch) : Outcome Bool := b.has ContentFlags.hasEndPrepare
def hasCommit (b : WriteBatch) : Outcome Bool := b.has ContentFlags.hasCommit
def hasRollback (b : WriteBatch) : Outcome Bool := b.has ContentFlags.hasRollback

end WriteBatch

end Tweezer
