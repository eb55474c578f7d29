import Tweezer.Crc32c
import Tweezer.TableLookup

/-!
# `MultiGet`

`BlockBasedTable::MultiGet` and `RetrieveMultipleBlocks` of
`table/block_based/block_based_table_reader.cc`, and `VerifyBlockChecksum` of
`table/block_based/reader_common.cc`. A first pass looks for the block of each key in the caches,
a second one reads those that it did not find, and a third one searches the blocks. The first two
passes handle `Block`s.
-/

namespace Tweezer

/-- `VerifyBlockChecksum` of the bytes of a block with its trailer: whether the status is OK. -/
def verifyBlockChecksum (type : ChecksumType) (raw : Bytes) (blockSize : ℕ) : Bool :=
  let len := blockSize + 1
  let stored := Bytes.leDecode (raw.slice len 4)
  match type with
  | .noChecksum => stored = 0
  | .crc32c => crc32c.unmask (UInt32.ofNat stored) = crc32c.value (raw.take len)
  | .xxHash hash => stored = u32 (hash (raw.take len))
  | .xxHash64 hash => stored = u32 (hash (raw.take len))

/-- What `block_handles`, `results` and `statuses` hold for a key of the batch. -/
structure BatchBlock where
  handle : Option BlockHandle
  result : Option Blocklike
  status : Status
  deriving DecidableEq

/-- A key of the batch is skipped with a status, or it goes on to the later passes. -/
inductive BatchEntry where
  | skipped (status : Status)
  | kept (block : BatchBlock)
  deriving DecidableEq

/-- The handle of a block that is still to be read. -/
def BatchEntry.pending : BatchEntry → Option BlockHandle
  | .skipped _ => none
  | .kept block => block.handle

structure ReadRequest where
  offset : ℕ
  len : ℕ
  deriving DecidableEq

/-- `read_reqs`, the request that is being put together, and for each block its request and the
offset in that. -/
structure ReadPlan where
  requests : List ReadRequest
  prevOffset : ℕ
  prevLen : ℕ
  placed : List (ℕ × ℕ)
  deriving DecidableEq

namespace ReadPlan

def empty : ReadPlan := ⟨[], 0, 0, []⟩

/-- The requests with the one that is being put together. -/
def flush (p : ReadPlan) : List ReadRequest :=
  if p.prevLen ≠ 0 then p.requests ++ [⟨p.prevOffset, p.prevLen⟩] else p.requests

/-- A block that starts where the last one ends joins its request, if requests are combined. -/
def add (combine : Bool) (p : ReadPlan) (handle : BlockHandle) : ReadPlan :=
  if combine ∧ p.prevOffset + p.prevLen = handle.offset then
    { p with
      prevLen := p.prevLen + (handle.size + kBlockTrailerSize)
      placed := p.placed ++ [(p.requests.length, p.prevLen)] }
  else
    ⟨p.flush, handle.offset, handle.size + kBlockTrailerSize,
      p.placed ++ [(p.flush.length, 0)]⟩

/-- The bytes of a block in the result of its request, if that is not cut off. -/
def blockBytes (file : Bytes) (requests : List ReadRequest) (place : ℕ × ℕ) (size : ℕ) :
    Option Bytes :=
  match requests[place.1]? with
  | none => none
  | some req =>
      let result := file.slice req.offset req.len
      if result.length ≠ req.len ∨ result.length < place.2 + (size + kBlockTrailerSize) then none
      else some (result.slice place.2 (size + kBlockTrailerSize))

end ReadPlan

namespace PointReader

variable (R : PointReader) {σ : Type} (saveValue : SaveValue σ) (ro : LookupOptions)

/-- The first pass for a key. `offset` is that of the last block that was looked for. -/
def prepareKey (key : Bytes) (iiter : IndexBlockIter) (offset : ℕ) (st : CacheState) :
    Outcome (BatchEntry × IndexBlockIter × ℕ × CacheState) := do
  let iiter ← iiter.seek R.comparator key
  if iiter.valid then do
    let handle ← iiter.value
    if handle.offset = offset then .ok (.kept ⟨none, none, .ok⟩, iiter, offset, st)
    else do
      let (found, st) ← R.retrieveBlock false (ro.call handle true) st
      .ok (.kept ⟨if found.isSome then none else some handle, found, .ok⟩, iiter,
        handle.offset, st)
  else .ok (.skipped iiter.status, iiter, offset, st)

/-- The first pass. -/
def prepareKeys : List Bytes → IndexBlockIter → ℕ → CacheState →
    Outcome (List BatchEntry × IndexBlockIter × CacheState)
  | [], iiter, _, st => .ok ([], iiter, st)
  | key :: keys, iiter, offset, st => do
      let (entry, iiter, offset, st) ← R.prepareKey ro key iiter offset st
      let (entries, iiter, st) ← prepareKeys keys iiter offset st
      .ok (entry :: entries, iiter, st)

/-- The loop of `RetrieveMultipleBlocks` over the blocks of a mapped file. -/
def retrieveMapped : List BatchEntry → CacheState → Outcome (List BatchEntry × CacheState)
  | [], st => .ok ([], st)
  | entry :: entries, st =>
      match entry.pending with
      | none => do
          let (entries, st) ← retrieveMapped entries st
          .ok (entry :: entries, st)
      | some handle => do
          let (found, st) ← R.retrieveBlock false (ro.call handle false) st
          let (entries, st) ← retrieveMapped entries st
          .ok (.kept ⟨some handle, found, if found.isSome then .ok else .corruption "data block"⟩ ::
            entries, st)

/-- What is behind a raw block, uncompressed. -/
def uncompressed (b : RawBlock) : Option Bytes :=
  if b.type ≠ kNoCompression then R.env.uncompress b.type b.data else some b.data

/-- The requests are read into a shared buffer. -/
def useSharedBuffer : Bool :=
  R.options.file.reader.useDirectIo ||
    (!R.options.blockCacheCompressed && R.options.blocksMaybeCompressed)

/-- What `RetrieveMultipleBlocks` makes of the bytes that were read for a block. An uncompressed
block in a shared buffer is copied first. -/
def loadBlock (handle : BlockHandle) (raw : Option Bytes) (st : CacheState) :
    BatchBlock × CacheState :=
  match raw with
  | none => (⟨some handle, none, .corruption "truncated block read"⟩, st)
  | some raw =>
      if ro.verifyChecksums && !verifyBlockChecksum R.checksum raw handle.size then
        (⟨some handle, none, .corruption "block checksum mismatch"⟩, st)
      else
        let b := RawBlock.ofBytes handle.size raw
        let (block, st) : Option Bytes × CacheState :=
          if ro.fillCache && (R.options.blockCache || R.options.blockCacheCompressed) then
            let (_, block, reader) := st.reader.putDataBlockToCache R.env R.options
              (ro.call handle false) b.type (!R.useSharedBuffer || b.type = kNoCompression) b.data
            (block, ⟨reader, Function.update st.plain handle true⟩)
          else (none, st)
        match block with
        | some block => (⟨some handle, some ⟨false, block⟩, .ok⟩, st)
        | none =>
            match R.uncompressed b with
            | some contents => (⟨some handle, some ⟨false, contents⟩, .ok⟩, st)
            | none => (⟨some handle, none, .corruption "uncompress"⟩, st)

/-- The loop of `RetrieveMultipleBlocks` over the results of the requests. -/
def loadBlocks (requests : List ReadRequest) : List (ℕ × ℕ) → List BatchEntry → CacheState →
    List BatchEntry × CacheState
  | _, [], st => ([], st)
  | places, entry :: entries, st =>
      match entry.pending with
      | none =>
          let (entries, st) := loadBlocks requests places entries st
          (entry :: entries, st)
      | some handle =>
          let raw := places.head?.bind fun place =>
            ReadPlan.blockBytes R.options.file.reader.file requests place handle.size
          let (block, st) := R.loadBlock ro handle raw st
          let (entries, st) := loadBlocks requests places.tail entries st
          (.kept block :: entries, st)

/-- `RetrieveMultipleBlocks`. -/
def retrieveMultipleBlocks (entries : List BatchEntry) (st : CacheState) :
    Outcome (List BatchEntry × CacheState) :=
  if R.options.file.reader.allowMmapReads then R.retrieveMapped ro entries st
  else
    let plan := (entries.filterMap BatchEntry.pending).foldl
      (ReadPlan.add (R.useSharedBuffer && !R.options.file.reader.useDirectIo)) ReadPlan.empty
    .ok (R.loadBlocks ro plan.flush plan.placed entries st)

/-- `first_biter` for a key: over its own block, or over the one of the key before. -/
def firstBlockIter (block : BatchBlock) (firstBiter : EncryptedDataBlockIter) :
    Outcome EncryptedDataBlockIter :=
  if block.handle.isSome || block.result.isSome then
    if block.status ≠ .ok then .ok (EncryptedDataBlockIter.fresh.invalidate block.status)
    else
      match block.result with
      | some block => R.initBlockIterator block
      | none => .error .outOfBuffer
  else .ok firstBiter

/-- The third pass for a key. -/
def finishKey (fuel : ℕ) (key : Bytes) (s : σ) (block : BatchBlock)
    (firstBiter : EncryptedDataBlockIter) (iiter : IndexBlockIter) (st : CacheState) :
    Outcome ((Status × σ) × EncryptedDataBlockIter × IndexBlockIter × CacheState) := do
  let biter ← R.firstBlockIter block firstBiter
  if biter.status ≠ .ok then .ok ((finalStatus biter.status iiter, s), biter, iiter, st)
  else do
    let (done, biter, s) ← R.searchBlock saveValue fuel biter key s
    if done then .ok ((finalStatus biter.status iiter, s), biter, iiter, st)
    else do
      let iiter ← iiter.seek R.comparator key
      let iiter ← iiter.next
      let (status, iiter, st, s) ←
        R.searchBlocks saveValue ro false key fuel iiter st biter.status s
      .ok ((finalStatus status iiter, s), biter, iiter, st)

/-- The third pass. -/
def finishKeys (fuel : ℕ) : List ((InternalKey × σ) × BatchEntry) → EncryptedDataBlockIter →
    IndexBlockIter → CacheState → Outcome (List (Status × σ))
  | [], _, _, _ => .ok []
  | ((_, s), .skipped status) :: rest, firstBiter, iiter, st => do
      let results ← finishKeys fuel rest firstBiter iiter st
      .ok ((status, s) :: results)
  | ((key, s), .kept block) :: rest, firstBiter, iiter, st => do
      let (result, firstBiter, iiter, st) ←
        R.finishKey saveValue ro fuel key.val s block firstBiter iiter st
      let results ← finishKeys fuel rest firstBiter iiter st
      .ok (result :: results)

/-- `MultiGet` without a filter. -/
def multiGet (fuel : ℕ) (st : CacheState) (batch : List (InternalKey × σ)) :
    Outcome (List (Status × σ)) := do
  let (entries, iiter, st) ← R.prepareKeys ro (batch.map (·.1.val)) R.index (2 ^ 64 - 1) st
  let (entries, st) ← R.retrieveMultipleBlocks ro entries st
  R.finishKeys saveValue ro fuel (batch.zip entries) .fresh iiter st

/-- Every key of the batch gets the status and what was saved that `Get` of the key alone
gives it. -/
def AgreesWithGet (st : CacheState) (batch : List (InternalKey × σ)) : Prop :=
  ∃ fuel results, R.multiGet saveValue ro fuel st batch = .ok results ∧
    List.Forall₂ (fun k r => ∃ fuel, R.get saveValue ro fuel st k.1.val k.2 = .ok r) batch results

end PointReader

end Tweezer
