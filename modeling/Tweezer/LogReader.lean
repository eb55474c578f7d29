import Tweezer.LogFormat

/-!
# The log reader

`db/log_reader.cc`. The reader decrypts in place: what it has decrypted stays decrypted in
its buffer, also when the record is not consumed. It decrypts the payload, at the length
the header gives and seven bytes behind the start of the header, and checks its tag before
it looks at the type or at the room left in the buffer.
-/

namespace Tweezer.Log

/-- The source file. Each coming `Read` takes the next entry of `faults`, `true` making it
fail; with no entry left every call succeeds. -/
structure SequentialFile where
  rest : Bytes
  faults : List Bool
  deriving DecidableEq, Repr

namespace SequentialFile

def ofBytes (b : Bytes) : SequentialFile := ⟨b, []⟩

def read (f : SequentialFile) (n : ℕ) : Option Bytes × SequentialFile :=
  match f.faults with
  | [] => (some (f.rest.take n), { f with rest := f.rest.drop n })
  | false :: faults => (some (f.rest.take n), ⟨f.rest.drop n, faults⟩)
  | true :: faults => (none, { f with faults := faults })

end SequentialFile

inductive WALRecoveryMode where
  | kTolerateCorruptedTailRecords
  | kAbsoluteConsistency
  | kPointInTimeRecovery
  | kSkipAnyCorruptedRecords
  deriving DecidableEq, Repr

/-- What `ReadPhysicalRecord` returns: a record type, one of the reader's own codes, or a
type byte that means nothing. -/
inductive ReadCode where
  | record (t : RecordType)
  | eof
  | badRecord
  | badHeader
  | oldRecord
  | badRecordLen
  | badRecordChecksum
  | unknown (code : ℕ)
  deriving DecidableEq, Repr

namespace ReadCode

/-- `unsigned int type = header[6]`: the reader's own codes go on counting where the record
types end, and a byte from 128 on is sign-extended. -/
def ofByte (b : UInt8) : ReadCode :=
  match b.toNat with
  | 0 => record .zero
  | 1 => record .full
  | 2 => record .first
  | 3 => record .middle
  | 4 => record .last
  | 5 => record .recyclableFull
  | 6 => record .recyclableFirst
  | 7 => record .recyclableMiddle
  | 8 => record .recyclableLast
  | 9 => eof
  | 10 => badRecord
  | 11 => badHeader
  | 12 => oldRecord
  | 13 => badRecordLen
  | 14 => badRecordChecksum
  | n => unknown (if n < 128 then n else n + 2 ^ 32 - 256)

@[simp] theorem ofByte_code (t : RecordType) : ofByte t.code = record t := by
  cases t <;> rfl

def isRecyclable : ReadCode → Bool
  | record t => t.isRecyclable
  | _ => false

end ReadCode

/-- The reason of a report: the reader's own text, or the status of a failed `Read`. -/
inductive Reason where
  | corruption (text : String)
  | ioError
  deriving DecidableEq, Repr

/-- A call of `Reporter::Corruption`. -/
structure Report where
  bytes : ℕ
  reason : Reason
  deriving DecidableEq, Repr

structure Reader where
  file : SequentialFile
  checksum : Bool
  buffer : Bytes
  eof : Bool
  readError : Bool
  eofOffset : ℕ
  lastRecordOffset : ℕ
  endOfBufferOffset : ℕ
  logNumber : UInt64
  recycled : Bool
  uniqueKey : Key
  previousMac : Mac
  reports : List Report

/-- A physical record as `ReadPhysicalRecord` hands it out. -/
structure PhysicalRecord where
  code : ReadCode
  fragment : Bytes
  dropSize : ℕ
  deriving DecidableEq, Repr

namespace Reader

variable (C : Gcm)

def create (file : SequentialFile) (checksum : Bool) (logNumber : UInt64) (key : Key)
    (mac : Mac) : Reader :=
  ⟨file, checksum, [], false, false, 0, 0, 0, logNumber, false, key, mac, []⟩

def reportDrop (r : Reader) (bytes : ℕ) (reason : Reason) : Reader :=
  { r with reports := r.reports ++ [⟨bytes, reason⟩] }

def reportCorruption (r : Reader) (bytes : ℕ) (reason : String) : Reader :=
  r.reportDrop bytes (.corruption reason)

/-- `ReadMore`: `none` when it has loaded the buffer, otherwise the code to return and the
number of bytes dropped. -/
def readMore (r : Reader) : Option (ReadCode × ℕ) × Reader :=
  if !r.eof && !r.readError then
    match r.file.read kBlockSize with
    | (none, file) =>
        (some (.eof, 0),
          { r.reportDrop kBlockSize .ioError with
            file := file, buffer := [], readError := true })
    | (some b, file) =>
        let r := { r with
          file := file, buffer := b, endOfBufferOffset := r.endOfBufferOffset + b.length }
        if b.length < kBlockSize then
          (none, { r with eof := true, eofOffset := b.length })
        else (none, r)
  else if 0 < r.buffer.length then
    (some (.badHeader, r.buffer.length), { r with buffer := [] })
  else (some (.eof, 0), r)

/-- Decrypts the header and the payload of the first record in the buffer. The tag is read
where the legacy layout has it. -/
def decryptRecord (r : Reader) : Outcome (ℕ × Reader) := do
  let header ← r.buffer.fetch 0 kHeaderSize
  let header ← logDecrypt C header r.uniqueKey none none
  let length := Bytes.leDecode (header.slice 4 2)
  let payload ← r.buffer.fetch kHeaderSize length
  let mac ← r.buffer.fetchOctets (kHeaderSize + length) kMacSize
  let payload ← logDecrypt C payload r.uniqueKey (some mac) (some r.previousMac)
  .ok (length, { r with
    buffer := header ++ (payload ++ r.buffer.drop (kHeaderSize + length))
    previousMac := mac })

/-- The checks on a decrypted record. Removing more from the buffer than it holds leaves a
slice of wrapped-around size. -/
def checkRecord (r : Reader) (length : ℕ) (code : ReadCode) (headerSize : ℕ) :
    Outcome (PhysicalRecord × Reader) :=
  if r.buffer.length < headerSize + length then
    let dropSize := r.buffer.length
    let r := { r with buffer := [] }
    if !r.eof then .ok (⟨.badRecordLen, [], dropSize⟩, r)
    else if 0 < dropSize then .ok (⟨.badHeader, [], dropSize⟩, r)
    else .ok (⟨.eof, [], dropSize⟩, r)
  else if code = .record .zero ∧ length = 0 then
    .ok (⟨.badRecord, [], 0⟩, { r with buffer := [] })
  else if r.checksum ∧ crc32c.value (r.buffer.slice 6 (length + headerSize - 6)) ≠
      crc32c.unmask (UInt32.ofNat (Bytes.leDecode (r.buffer.slice 0 4))) then
    .ok (⟨.badRecordChecksum, [], r.buffer.length⟩, { r with buffer := [] })
  else if r.buffer.length < headerSize + length + kMacSize then .error .outOfBuffer
  else
    .ok (⟨code, r.buffer.slice headerSize length, 0⟩,
      { r with buffer := r.buffer.drop (headerSize + length + kMacSize) })

/-- The loop of `ReadPhysicalRecord`, for at most `fuel` turns. -/
def readPhysicalRecordLoop : ℕ → Reader → Outcome (PhysicalRecord × Reader)
  | 0, _ => .error .diverged
  | fuel + 1, r =>
      if r.buffer.length < kHeaderSize + kMacSize then
        match r.readMore with
        | (some (code, dropSize), r) => .ok (⟨code, [], dropSize⟩, r)
        | (none, r) => readPhysicalRecordLoop fuel r
      else do
        let (length, r) ← r.decryptRecord C
        let code := ReadCode.ofByte (r.buffer.getD 6 0)
        if code.isRecyclable then
          let r := if r.endOfBufferOffset - r.buffer.length = 0 then
              { r with recycled := true } else r
          if r.buffer.length < kRecyclableHeaderSize then
            match r.readMore with
            | (some (code, dropSize), r) => .ok (⟨code, [], dropSize⟩, r)
            | (none, r) => readPhysicalRecordLoop fuel r
          else if Bytes.leDecode (r.buffer.slice 7 4) ≠ r.logNumber.toNat then
            .ok (⟨.oldRecord, [], 0⟩, r)
          else r.checkRecord length code kRecyclableHeaderSize
        else r.checkRecord length code kHeaderSize

/-- Three turns are enough: a turn that loads a full block is followed by one that returns,
and after a short block nothing more is loaded. -/
def readPhysicalRecord (r : Reader) : Outcome (PhysicalRecord × Reader) :=
  r.readPhysicalRecordLoop C 3

end Reader

/-- The locals of `ReadRecord` that live from turn to turn. -/
structure Assembly where
  inFragmentedRecord : Bool
  scratch : Bytes
  prospectiveRecordOffset : ℕ
  deriving DecidableEq, Repr

def Assembly.empty : Assembly := ⟨false, [], 0⟩

/-- How a turn of the loop of `ReadRecord` ends: `ret none` is the return of `false`. -/
inductive Turn where
  | ret (record : Option Bytes) (r : Reader)
  | again (a : Assembly) (r : Reader)

namespace Reader

variable (C : Gcm)

/-- The end of the log, whether at `kEof`, `kBadHeader` or `kOldRecord`. -/
def endOfLog (r : Reader) (mode : WALRecoveryMode) (a : Assembly) : Reader :=
  if a.inFragmentedRecord ∧ mode = .kAbsoluteConsistency then
    r.reportCorruption a.scratch.length "error reading trailing data"
  else r

/-- A damaged record drops the fragments collected so far. -/
def dropFragments (r : Reader) (a : Assembly) : Turn :=
  if a.inFragmentedRecord then
    .again { a with inFragmentedRecord := false, scratch := [] }
      (r.reportCorruption a.scratch.length "error in middle of record")
  else .again a r

def unknownType (r : Reader) (a : Assembly) (fragment : Bytes) (code : ℕ) : Turn :=
  .again { a with inFragmentedRecord := false, scratch := [] }
    (r.reportCorruption (fragment.length + if a.inFragmentedRecord then a.scratch.length else 0)
      ("unknown record type " ++ toString code))

/-- The record that was open is dropped without a report when nothing was collected of it. -/
def reportPartial (r : Reader) (a : Assembly) (reason : String) : Reader :=
  if a.inFragmentedRecord ∧ a.scratch ≠ [] then r.reportCorruption a.scratch.length reason
  else r

/-- The switch of `ReadRecord` on what `ReadPhysicalRecord` returned. -/
def switchRecord (r : Reader) (mode : WALRecoveryMode) (a : Assembly)
    (physicalRecordOffset : ℕ) (p : PhysicalRecord) : Turn :=
  match p.code with
  | .record .full | .record .recyclableFull =>
      .ret (some p.fragment)
        { r.reportPartial a "partial record without end(1)" with
          lastRecordOffset := physicalRecordOffset }
  | .record .first | .record .recyclableFirst =>
      .again ⟨true, p.fragment, physicalRecordOffset⟩
        (r.reportPartial a "partial record without end(2)")
  | .record .middle | .record .recyclableMiddle =>
      if a.inFragmentedRecord then .again { a with scratch := a.scratch ++ p.fragment } r
      else
        .again a
          (r.reportCorruption p.fragment.length "missing start of fragmented record(1)")
  | .record .last | .record .recyclableLast =>
      if a.inFragmentedRecord then
        .ret (some (a.scratch ++ p.fragment))
          { r with lastRecordOffset := a.prospectiveRecordOffset }
      else
        .again a
          (r.reportCorruption p.fragment.length "missing start of fragmented record(2)")
  | .badHeader =>
      .ret none ((if mode = .kAbsoluteConsistency then
        r.reportCorruption p.dropSize "truncated header" else r).endOfLog mode a)
  | .eof => .ret none (r.endOfLog mode a)
  | .oldRecord =>
      if mode ≠ .kSkipAnyCorruptedRecords then .ret none (r.endOfLog mode a)
      else r.dropFragments a
  | .badRecord => r.dropFragments a
  | .badRecordLen =>
      if r.recycled ∧ mode = .kTolerateCorruptedTailRecords then .ret none r
      else (r.reportCorruption p.dropSize "bad record length").dropFragments a
  | .badRecordChecksum =>
      if r.recycled ∧ mode = .kTolerateCorruptedTailRecords then .ret none r
      else (r.reportCorruption p.dropSize "checksum mismatch").dropFragments a
  | .record .zero => r.unknownType a p.fragment 0
  | .unknown code => r.unknownType a p.fragment code

/-- The loop of `ReadRecord`, for at most `fuel` physical records. -/
def readRecordLoop (mode : WALRecoveryMode) :
    ℕ → Assembly → Reader → Outcome (Option Bytes × Reader)
  | 0, _, _ => .error .diverged
  | fuel + 1, a, r => do
      let physicalRecordOffset := r.endOfBufferOffset - r.buffer.length
      let (p, r) ← r.readPhysicalRecord C
      match r.switchRecord mode a physicalRecordOffset p with
      | .ret record r => .ok (record, r)
      | .again a r => readRecordLoop mode fuel a r

/-- The bytes the reader has not consumed yet. -/
def remaining (r : Reader) : Bytes := r.buffer ++ r.file.rest

def readRecord (r : Reader) (mode : WALRecoveryMode) : Outcome (Option Bytes × Reader) :=
  r.readRecordLoop C mode (r.remaining.length + 2) .empty

/-- Reading on until `ReadRecord` returns `false`, for at most `fuel` records. -/
def readRecords (mode : WALRecoveryMode) : ℕ → Reader → Outcome (List Bytes × Reader)
  | 0, _ => .error .diverged
  | fuel + 1, r => do
      let (record, r) ← r.readRecord C mode
      match record with
      | some b => do
          let (bs, r) ← r.readRecords mode fuel
          .ok (b :: bs, r)
      | none => .ok ([], r)

/-- All the records of a file. -/
def readLog (r : Reader) (mode : WALRecoveryMode) : Outcome (List Bytes × Reader) :=
  r.readRecords C mode (r.remaining.length + 2)

/-- `UnmarkEOF`: looks again for what is missing of the last block. -/
def unmarkEOF (r : Reader) : Reader :=
  if r.readError then r
  else if r.eofOffset = 0 then { r with eof := false }
  else
    match r.file.read (kBlockSize - r.eofOffset) with
    | (none, file) => { r with file := file, eof := false, readError := true }
    | (some b, file) =>
        let r := { r with
          file := file, buffer := r.buffer ++ b, endOfBufferOffset := r.endOfBufferOffset + b.length }
        if b.length < kBlockSize - r.eofOffset then
          { r with eof := true, eofOffset := r.eofOffset + b.length }
        else { r with eof := false, eofOffset := 0 }

end Reader

/-- What a log is encrypted and chained with, and what the memory of a new reader happens to
hold in these places. -/
structure LogSecrets where
  uniqueKey : Key
  previousMac : Mac

/-- Memory of zeros. -/
def zeroMemory : LogSecrets := ⟨⟨List.replicate 32 0, rfl⟩, ⟨List.replicate 16 0, rfl⟩⟩

/-- The constructor of `log::Reader`, on memory that holds `memory`. -/
def newLogReader (file : SequentialFile) (checksum : Bool) (logNumber : UInt64) (manifest : Bool)
    (manifestSecrets memory : LogSecrets) : Reader :=
  let secrets := if manifest then manifestSecrets else memory
  .create file checksum logNumber secrets.uniqueKey secrets.previousMac

/-- The status that the callers of a reader keep: the first that is reported to them, or one
of their own. -/
inductive ReadStatus where
  | ok
  | reported (reason : Reason)
  | returned (message : String)
  deriving DecidableEq, Repr

def Reader.status (r : Reader) : ReadStatus :=
  match r.reports with
  | [] => .ok
  | report :: _ => .reported report.reason

end Tweezer.Log
