import Tweezer.LogReader

/-!
# The reader that tails a log

`FragmentBufferedReader` of `db/log_reader.cc`. It keeps the fragments of an unfinished
record, and the bytes of an unfinished physical record, from one call to the next. The key
and the MAC are members of its base class that none of its own functions uses.
-/

namespace Tweezer.Log

/-- The buffer is the part of the backing store from `bufferStart` on. -/
structure FragmentBufferedReader where
  file : SequentialFile
  checksum : Bool
  backingStore : Bytes
  bufferStart : ℕ
  bufferSize : ℕ
  eof : Bool
  readError : Bool
  eofOffset : ℕ
  lastRecordOffset : ℕ
  endOfBufferOffset : ℕ
  logNumber : UInt64
  recycled : Bool
  uniqueKey : Key
  previousMac : Mac
  fragments : Bytes
  inFragmentedRecord : Bool
  reports : List Report

/-- How a turn of the loop of `FragmentBufferedReader::ReadRecord` ends. -/
inductive FragmentTurn where
  | ret (record : Option Bytes) (r : FragmentBufferedReader)
  | again (prospectiveRecordOffset : ℕ) (r : FragmentBufferedReader)

namespace FragmentBufferedReader

/-- `store` is what the memory for the backing store holds before anything is read. -/
def create (file : SequentialFile) (checksum : Bool) (logNumber : UInt64)
    (store : Octets kBlockSize) (key : Key) (mac : Mac) : FragmentBufferedReader where
  file := file
  checksum := checksum
  backingStore := store.val
  bufferStart := 0
  bufferSize := 0
  eof := false
  readError := false
  eofOffset := 0
  lastRecordOffset := 0
  endOfBufferOffset := 0
  logNumber := logNumber
  recycled := false
  uniqueKey := key
  previousMac := mac
  fragments := []
  inFragmentedRecord := false
  reports := []

def reportDrop (r : FragmentBufferedReader) (bytes : ℕ) (reason : Reason) :
    FragmentBufferedReader :=
  { r with reports := r.reports ++ [⟨bytes, reason⟩] }

def reportCorruption (r : FragmentBufferedReader) (bytes : ℕ) (reason : String) :
    FragmentBufferedReader :=
  r.reportDrop bytes (.corruption reason)

/-- The backing store after a read of `b` to offset `off`. -/
def store (r : FragmentBufferedReader) (off : ℕ) (b : Bytes) : Bytes :=
  r.backingStore.take off ++ (b ++ r.backingStore.drop (off + b.length))

def unmarkEOFInternal (r : FragmentBufferedReader) : FragmentBufferedReader :=
  let consumedBytes := r.eofOffset - r.bufferSize
  let remaining := kBlockSize - r.eofOffset
  match r.file.read remaining with
  | (none, file) => { r with file := file, readError := true }
  | (some b, file) =>
      let r := { r with
        file := file
        backingStore := r.store r.eofOffset b
        endOfBufferOffset := r.endOfBufferOffset + b.length
        bufferStart := consumedBytes
        bufferSize := r.eofOffset + b.length - consumedBytes }
      if b.length < remaining then { r with eof := true, eofOffset := r.eofOffset + b.length }
      else { r with eofOffset := 0 }

def unmarkEOF (r : FragmentBufferedReader) : FragmentBufferedReader :=
  if r.readError then r else { r with eof := false }.unmarkEOFInternal

/-- `TryReadMore`: `none` when it returns `true`, otherwise the code and the number of bytes
dropped. -/
def tryReadMore (r : FragmentBufferedReader) : Option (ReadCode × ℕ) × FragmentBufferedReader :=
  if !r.eof && !r.readError then
    match r.file.read kBlockSize with
    | (none, file) =>
        (some (.eof, 0),
          { r.reportDrop kBlockSize .ioError with
            file := file, bufferSize := 0, readError := true })
    | (some b, file) =>
        let r := { r with
          file := file
          backingStore := r.store 0 b
          bufferStart := 0
          bufferSize := b.length
          endOfBufferOffset := r.endOfBufferOffset + b.length }
        if b.length < kBlockSize then (none, { r with eof := true, eofOffset := b.length })
        else (none, r)
  else
    let r := if r.readError then r else r.unmarkEOF
    if r.readError then
      (some (if 0 < r.bufferSize then .badHeader else .eof, r.bufferSize),
        { r with bufferSize := 0 })
    else (none, r)

/-- The loops of `TryReadFragment` that wait for `n` bytes in the buffer, for at most `fuel`
turns. They give up when a turn leaves the buffer at its size, whatever it holds now. -/
def waitFor (n : ℕ) : ℕ → FragmentBufferedReader → Outcome (Bool × FragmentBufferedReader)
  | 0, _ => .error .diverged
  | fuel + 1, r =>
      if r.bufferSize < n then
        match r.tryReadMore with
        | (some _, r') => .ok (false, r')
        | (none, r') =>
            if r'.bufferSize = r.bufferSize then .ok (false, r') else waitFor n fuel r'
      else .ok (true, r)

/-- A turn either reads bytes of the file, or finds its end, or is the last one. -/
def waitBound (r : FragmentBufferedReader) : ℕ := r.file.rest.length + 4

/-- The part of `TryReadFragment` behind the header, which still starts at `start`. -/
def checkFragment (r : FragmentBufferedReader) (start length : ℕ) (code : ReadCode)
    (headerSize : ℕ) : Outcome (Option PhysicalRecord × FragmentBufferedReader) := do
  let (more, r) ← r.waitFor (headerSize + length) r.waitBound
  if !more then .ok (none, r)
  else if code = .record .zero ∧ length = 0 then
    .ok (some ⟨.badRecord, [], 0⟩, { r with bufferSize := 0 })
  else do
    let record ← r.backingStore.fetch start (headerSize + length)
    if r.checksum ∧ crc32c.value (record.slice 6 (length + headerSize - 6)) ≠
        crc32c.unmask (UInt32.ofNat (Bytes.leDecode (record.slice 0 4))) then
      .ok (some ⟨.badRecordChecksum, [], r.bufferSize⟩, { r with bufferSize := 0 })
    else
      .ok (some ⟨code, record.drop headerSize, 0⟩,
        { r with
          bufferStart := r.bufferStart + (headerSize + length)
          bufferSize := r.bufferSize - (headerSize + length) })

/-- `TryReadFragment`: `none` when it returns `false`, whatever code it sets then. -/
def tryReadFragment (r : FragmentBufferedReader) :
    Outcome (Option PhysicalRecord × FragmentBufferedReader) := do
  let (more, r) ← r.waitFor kHeaderSize r.waitBound
  if !more then .ok (none, r)
  else
    let start := r.bufferStart
    let length := Bytes.leDecode (r.backingStore.slice (start + 4) 2)
    let code := ReadCode.ofByte (r.backingStore.getD (start + 6) 0)
    if code.isRecyclable then do
      let r := if r.endOfBufferOffset - r.bufferSize = 0 then { r with recycled := true } else r
      let (more, r) ← r.waitFor kRecyclableHeaderSize r.waitBound
      if !more then .ok (none, r)
      else if Bytes.leDecode (r.backingStore.slice (start + 7) 4) ≠ r.logNumber.toNat then
        .ok (some ⟨.oldRecord, [], 0⟩, r)
      else r.checkFragment start length code kRecyclableHeaderSize
    else r.checkFragment start length code kHeaderSize

/-- A damaged record drops the fragments collected so far. -/
def dropFragments (r : FragmentBufferedReader) : FragmentBufferedReader :=
  if r.inFragmentedRecord then
    { r.reportCorruption r.fragments.length "error in middle of record" with
      inFragmentedRecord := false, fragments := [] }
  else r

def unknownType (r : FragmentBufferedReader) (fragment : Bytes) (code : ℕ) :
    FragmentBufferedReader :=
  { r.reportCorruption
      (fragment.length + if r.inFragmentedRecord then r.fragments.length else 0)
      ("unknown record type " ++ toString code) with
    inFragmentedRecord := false, fragments := [] }

/-- The switch of `ReadRecord` on what `TryReadFragment` found. -/
def switchFragment (r : FragmentBufferedReader) (physicalRecordOffset
    prospectiveRecordOffset : ℕ) (p : PhysicalRecord) : FragmentTurn :=
  match p.code with
  | .record .full | .record .recyclableFull =>
      let r := if r.inFragmentedRecord ∧ r.fragments ≠ [] then
          r.reportCorruption r.fragments.length "partial record without end(1)" else r
      .ret (some p.fragment)
        { r with
          fragments := [], lastRecordOffset := physicalRecordOffset, inFragmentedRecord := false }
  | .record .first | .record .recyclableFirst =>
      let r := if r.inFragmentedRecord ∨ r.fragments ≠ [] then
          r.reportCorruption r.fragments.length "partial record without end(2)" else r
      .again physicalRecordOffset
        { r with fragments := p.fragment, inFragmentedRecord := true }
  | .record .middle | .record .recyclableMiddle =>
      .again prospectiveRecordOffset
        (if r.inFragmentedRecord then { r with fragments := r.fragments ++ p.fragment }
        else r.reportCorruption p.fragment.length "missing start of fragmented record(1)")
  | .record .last | .record .recyclableLast =>
      if r.inFragmentedRecord then
        .ret (some (r.fragments ++ p.fragment))
          { r with
            fragments := []
            lastRecordOffset := prospectiveRecordOffset
            inFragmentedRecord := false }
      else
        .again prospectiveRecordOffset
          (r.reportCorruption p.fragment.length "missing start of fragmented record(2)")
  | .badHeader | .badRecord | .eof | .oldRecord => .again prospectiveRecordOffset r.dropFragments
  | .badRecordChecksum =>
      if r.recycled then .ret none { r with fragments := [] }
      else .again prospectiveRecordOffset
        (r.reportCorruption p.dropSize "checksum mismatch").dropFragments
  | .badRecordLen => .again prospectiveRecordOffset (r.unknownType p.fragment 13)
  | .record .zero => .again prospectiveRecordOffset (r.unknownType p.fragment 0)
  | .unknown code => .again prospectiveRecordOffset (r.unknownType p.fragment code)

/-- The loop of `ReadRecord`, for at most `fuel` fragments. A fragment of another log is not
consumed, so at one the loop goes on for ever. -/
def readRecordLoop (physicalRecordOffset : ℕ) :
    ℕ → ℕ → FragmentBufferedReader → Outcome (Option Bytes × FragmentBufferedReader)
  | 0, _, _ => .error .diverged
  | fuel + 1, prospectiveRecordOffset, r => do
      let (found, r) ← r.tryReadFragment
      match found with
      | none => .ok (none, r)
      | some p =>
          match r.switchFragment physicalRecordOffset prospectiveRecordOffset p with
          | .ret record r => .ok (record, r)
          | .again prospectiveRecordOffset r =>
              readRecordLoop physicalRecordOffset fuel prospectiveRecordOffset r

/-- Every fragment but one of another log takes bytes of the buffer. -/
def readBound (r : FragmentBufferedReader) : ℕ := r.bufferSize + r.file.rest.length + 2

def readRecord (r : FragmentBufferedReader) : Outcome (Option Bytes × FragmentBufferedReader) :=
  r.readRecordLoop (r.endOfBufferOffset - r.bufferSize) r.readBound 0

/-- Reading until `ReadRecord` returns `false`, for at most `fuel` records. -/
def readRecords : ℕ → FragmentBufferedReader → Outcome (List Bytes × FragmentBufferedReader)
  | 0, _ => .error .diverged
  | fuel + 1, r => do
      let (record, r) ← r.readRecord
      match record with
      | some b => do
          let (bs, r) ← readRecords fuel r
          .ok (b :: bs, r)
      | none => .ok ([], r)

/-- The file grows. -/
def grow (r : FragmentBufferedReader) (piece : Bytes) : FragmentBufferedReader :=
  { r with file := { r.file with rest := r.file.rest ++ piece } }

/-- Polling after each piece by which the file grows: the records that each poll returns. -/
def pollAll : FragmentBufferedReader → List Bytes →
    Outcome (List (List Bytes) × FragmentBufferedReader)
  | r, [] => .ok ([], r)
  | r, piece :: pieces => do
      let (records, r) ← (r.grow piece).readRecords (r.grow piece).readBound
      let (more, r) ← r.pollAll pieces
      .ok (records :: more, r)

end FragmentBufferedReader

end Tweezer.Log
