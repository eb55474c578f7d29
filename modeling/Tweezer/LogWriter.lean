import Tweezer.LogFormat

/-!
# The log writer

`db/log_writer.cc`. A logical record is cut at block ends into physical records; each
payload is encrypted and its tag covers the tag before it, so the tags of a file form one
chain from the initial value the writer was created with.
-/

namespace Tweezer.Log

inductive IOStatus where
  | ok
  | ioError
  deriving DecidableEq, Repr

/-- The destination file. Each coming `Append` or `Flush` takes the next entry of `faults`:
`none` lets it succeed, `some k` makes it fail with the first `k` bytes appended. With no
entry left every call succeeds. -/
structure WritableFile where
  contents : Bytes
  faults : List (Option ℕ)
  deriving DecidableEq, Repr

namespace WritableFile

/-- A new file on which no call fails. -/
def fresh : WritableFile := ⟨[], []⟩

def append (f : WritableFile) (data : Bytes) : IOStatus × WritableFile :=
  match f.faults with
  | [] => (.ok, { f with contents := f.contents ++ data })
  | none :: rest => (.ok, ⟨f.contents ++ data, rest⟩)
  | some k :: rest => (.ioError, ⟨f.contents ++ data.take k, rest⟩)

def flush (f : WritableFile) : IOStatus × WritableFile :=
  match f.faults with
  | [] => (.ok, f)
  | none :: rest => (.ok, { f with faults := rest })
  | some _ :: rest => (.ioError, { f with faults := rest })

theorem append_of_healthy {f : WritableFile} (h : f.faults = []) (data : Bytes) :
    f.append data = (.ok, { f with contents := f.contents ++ data }) := by
  rw [append, h]

theorem flush_of_healthy {f : WritableFile} (h : f.faults = []) : f.flush = (.ok, f) := by
  rw [flush, h]

end WritableFile

structure Writer where
  dest : WritableFile
  blockOffset : ℕ
  logNumber : UInt64
  recycleLogFiles : Bool
  manualFlush : Bool
  uniqueKey : Key
  previousMac : Mac

namespace Writer

variable (C : Gcm)

/-- A writer on a new file; `key` and `mac` are the random bytes its constructor draws. -/
def create (dest : WritableFile) (logNumber : UInt64) (recycleLogFiles manualFlush : Bool)
    (key : Key) (mac : Mac) : Writer :=
  ⟨dest, 0, logNumber, recycleLogFiles, manualFlush, key, mac⟩

/-- `header_size` of `AddRecord`, which counts the tag. -/
def headerSize (w : Writer) : ℕ :=
  (if w.recycleLogFiles then kRecyclableHeaderSize else kHeaderSize) + kMacSize

def emitPhysicalRecord (w : Writer) (t : RecordType) (ptr : Bytes) : IOStatus × Writer :=
  let header := (logEncrypt C (recordHeader t w.logNumber ptr) w.uniqueKey none).1
  let (contents, newMac) := logEncrypt C ptr w.uniqueKey (some w.previousMac)
  match w.dest.append header with
  | (.ok, dest) =>
      -- the status of the payload's append is overwritten by that of the tag's
      let (s, dest) := (dest.append contents).2.append newMac.val
      (s, { w with
        dest := dest
        blockOffset := w.blockOffset + kMacSize + (t.headerSize + ptr.length)
        previousMac := newMac })
  | (s, dest) =>
      (s, { w with
        dest := dest
        blockOffset := w.blockOffset + (t.headerSize + ptr.length)
        previousMac := newMac })

/-- The start of a turn of the loop of `AddRecord`: too short a rest of the block is filled
with zeros. -/
def switchBlock (w : Writer) : IOStatus × Writer :=
  let leftover := kBlockSize - w.blockOffset
  if leftover < w.headerSize then
    if 0 < leftover then
      match w.dest.append (Bytes.zeros leftover) with
      | (.ok, dest) => (.ok, { w with dest := dest, blockOffset := 0 })
      | (s, dest) => (s, { w with dest := dest })
    else (.ok, { w with blockOffset := 0 })
  else (.ok, w)

/-- The loop of `AddRecord`, for at most `fuel` fragments. -/
def addRecordLoop : ℕ → Writer → Bytes → Bool → Outcome (IOStatus × Writer)
  | 0, _, _, _ => .error .diverged
  | fuel + 1, w, left, begin_ =>
      match w.switchBlock with
      | (.ok, w) =>
          let avail := kBlockSize - w.blockOffset - w.headerSize
          let fragmentLength := if left.length < avail then left.length else avail
          let end_ := left.length == fragmentLength
          let t := RecordType.ofPosition w.recycleLogFiles begin_ end_
          match w.emitPhysicalRecord C t (left.take fragmentLength) with
          | (.ok, w) =>
              if 0 < (left.drop fragmentLength).length then
                addRecordLoop fuel w (left.drop fragmentLength) false
              else .ok (.ok, w)
          | (s, w) => .ok (s, w)
      | (s, w) => .ok (s, w)

def addRecord (w : Writer) (slice : Bytes) : Outcome (IOStatus × Writer) := do
  let (s, w) ← w.addRecordLoop C (slice.length + 2) slice true
  match s with
  | .ok =>
      if w.manualFlush then .ok (.ok, w)
      else
        let (s, dest) := w.dest.flush
        .ok (s, { w with dest := dest })
  | s => .ok (s, w)

/-- Adding records one after another, whatever each call returns. -/
def addRecords (w : Writer) : List Bytes → Outcome (List IOStatus × Writer)
  | [] => .ok ([], w)
  | r :: rs => do
      let (s, w) ← w.addRecord C r
      let (ss, w) ← w.addRecords rs
      .ok (s :: ss, w)

end Writer

end Tweezer.Log
