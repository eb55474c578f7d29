import Tweezer.BlockPrefetcher
import Tweezer.PointLookup

/-!
# The iterator over a table

`table/block_based/block_based_table_iterator.{h,cc}` without an upper bound and without a prefix
filter, over an index that holds no first keys. The iterator goes to the next or to the previous
data block when the iterator over the current one is no longer valid. That one is used over and
over: what a block leaves in it is there when the next block is opened.
-/

namespace Tweezer

/-- `NewDataIterator` into an iterator that is there already. -/
def EncryptedBlock.newDataIteratorInto (C : Gcm) (u : Comparator) (globalSeqno : ℕ)
    (b : EncryptedBlock) (it : EncryptedDataBlockIter) : Outcome EncryptedDataBlockIter :=
  let size := if b.contents.length < 4 then 0 else b.contents.length
  if size < 2 * 4 then .ok (it.invalidate (.corruption "bad block contents"))
  else
    { it with
      data := some b.contents, restarts := 0, current := 0,
      globalSeqno := globalSeqno }.ready C u b.contents b.sstKey

/-- `user_key()` of an index iterator. -/
def IndexBlockIter.userKey (it : IndexBlockIter) : Bytes :=
  if it.keyIncludesSeq then extractUserKey it.rawKey else it.rawKey

/-- The read options of an iterator. -/
structure IteratorOptions extends LookupOptions where
  readAhead : ReadAhead
  /-- The number of the prefetch buffer that the iterator makes when it needs one. -/
  slot : ℕ
  deriving DecidableEq

def IteratorOptions.call (o : IteratorOptions) (handle : BlockHandle) (p : BlockPrefetcher) : ReaderCall :=
  { o.toLookupOptions.call handle false with prefetchBuffer := p.prefetchBuffer o.slot }

structure BlockBasedTableIterator where
  indexIter : IndexBlockIter
  blockIter : EncryptedDataBlockIter
  prevBlockOffset : ℕ
  blockPrefetcher : BlockPrefetcher
  blockIterPointsToRealBlock : Bool
  /-- The block caches and the prefetch buffers. -/
  cache : CacheState

namespace BlockBasedTableIterator

/-- An iterator with its index iterator, before it is positioned. -/
def create (indexIter : IndexBlockIter) (cache : CacheState) : BlockBasedTableIterator :=
  ⟨indexIter, .fresh, 2 ^ 64 - 1, .initial, false, cache⟩

def valid (I : BlockBasedTableIterator) : Bool :=
  I.blockIterPointsToRealBlock && I.blockIter.valid

def key (I : BlockBasedTableIterator) : Bytes := I.blockIter.key

def resetDataIter (I : BlockBasedTableIterator) : BlockBasedTableIterator :=
  if I.blockIterPointsToRealBlock then
    { I with blockIter := I.blockIter.invalidate .ok, blockIterPointsToRealBlock := false }
  else I

/-- Sets `prev_block_offset_` to where the index iterator is. -/
def setPrevBlockOffset (I : BlockBasedTableIterator) : Outcome BlockBasedTableIterator := do
  let handle ← I.indexIter.value
  .ok { I with prevBlockOffset := handle.offset }

def savePrevIndexValue (I : BlockBasedTableIterator) : Outcome BlockBasedTableIterator :=
  if I.blockIterPointsToRealBlock then I.setPrevBlockOffset else .ok I

variable (R : PointReader) (o : IteratorOptions)

/-- `value()`, and the iterator after it. -/
def value (I : BlockBasedTableIterator) : Outcome (Bytes × BlockBasedTableIterator) := do
  let (value, blockIter) ← I.blockIter.getValue R.env.cipher R.env.digest
  .ok (value, { I with blockIter := blockIter })

/-- `NewDataBlockIterator` into the block iterator. -/
def newDataBlockIterator (c : ReaderCall) (I : BlockBasedTableIterator) :
    Outcome BlockBasedTableIterator := do
  let (block, cache) ← R.retrieveBlock true c I.cache
  match block with
  | none =>
      .ok { I with blockIter := I.blockIter.invalidate (.corruption "data block"), cache := cache }
  | some block =>
      if block.isEncrypted then do
        let blockIter ← (EncryptedBlock.mk block.contents R.env.sstKey).newDataIteratorInto
          R.env.cipher R.comparator R.globalSeqno I.blockIter
        .ok { I with blockIter := blockIter, cache := cache }
      else .error .outOfBuffer

/-- `PrefetchIfNeeded` of the iterator's own prefetcher. -/
def prefetchIfNeeded (handle : BlockHandle) (I : BlockBasedTableIterator) :
    BlockBasedTableIterator :=
  let (prefetcher, fetch) := I.blockPrefetcher.prefetchIfNeeded R.options.file.reader o.readAhead
    o.slot handle I.cache.reader.fetch
  { I with
    blockPrefetcher := prefetcher
    cache := { I.cache with reader := { I.cache.reader with fetch := fetch } } }

def initDataBlock (I : BlockBasedTableIterator) : Outcome BlockBasedTableIterator := do
  let handle ← I.indexIter.value
  if !I.blockIterPointsToRealBlock || handle.offset ≠ I.prevBlockOffset ||
      I.blockIter.status.isIncomplete then do
    let I := I.resetDataIter.prefetchIfNeeded R o handle
    let I ← I.newDataBlockIterator R (o.call handle I.blockPrefetcher)
    .ok { I with blockIterPointsToRealBlock := true }
  else .ok I

/-- `FindBlockForward`, for at most `fuel` blocks. -/
def findBlockForward : ℕ → BlockBasedTableIterator → Outcome BlockBasedTableIterator
  | 0, _ => .error .diverged
  | fuel + 1, I =>
      if I.blockIter.status ≠ .ok then .ok I
      else do
        let I := I.resetDataIter
        let indexIter ← I.indexIter.next
        let I := { I with indexIter := indexIter }
        if I.indexIter.valid then do
          let I ← I.initDataBlock R o
          let blockIter ← I.blockIter.seekToFirst
          let I := { I with blockIter := blockIter }
          if I.blockIter.valid then .ok I else findBlockForward fuel I
        else .ok I

def findKeyForward (fuel : ℕ) (I : BlockBasedTableIterator) : Outcome BlockBasedTableIterator :=
  if I.blockIter.valid then .ok I else I.findBlockForward R o fuel

/-- `FindKeyBackward`, for at most `fuel` blocks. -/
def findKeyBackward : ℕ → BlockBasedTableIterator → Outcome BlockBasedTableIterator
  | 0, _ => .error .diverged
  | fuel + 1, I =>
      if I.blockIter.valid then .ok I
      else if I.blockIter.status ≠ .ok then .ok I
      else do
        let I := I.resetDataIter
        let indexIter ← I.indexIter.prev
        let I := { I with indexIter := indexIter }
        if I.indexIter.valid then do
          let I ← I.initDataBlock R o
          let blockIter ← I.blockIter.seekToLast
          findKeyBackward fuel { I with blockIter := blockIter }
        else .ok I

/-- The test in `SeekImpl` that leaves the index iterator where it is. -/
def staysInBlock (target : Option Bytes) (I : BlockBasedTableIterator) : Bool :=
  match target with
  | none => false
  | some target =>
      I.blockIterPointsToRealBlock && I.blockIter.valid &&
        R.comparator.compare (extractUserKey target) (extractUserKey I.blockIter.key) = .gt &&
        R.comparator.compare (extractUserKey target) I.indexIter.userKey = .lt

/-- The part of `SeekImpl` that saves the offset of the block that the iterator is in. -/
def noteReseek (I : BlockBasedTableIterator) : Outcome BlockBasedTableIterator :=
  if I.blockIterPointsToRealBlock && I.blockIter.valid then I.setPrevBlockOffset else .ok I

/-- The index iterator at the target, or at the first entry. -/
def seekIndex (target : Option Bytes) (I : BlockBasedTableIterator) :
    Outcome BlockBasedTableIterator := do
  let indexIter ← match target with
    | some target => I.indexIter.seek R.comparator target
    | none => I.indexIter.seekToFirst
  .ok { I with indexIter := indexIter }

/-- The block that the index iterator leads to is opened, unless it is the one that is open. -/
def openBlock (I : BlockBasedTableIterator) : Outcome BlockBasedTableIterator := do
  let handle ← I.indexIter.value
  if I.blockIterPointsToRealBlock && handle.offset = I.prevBlockOffset then .ok I
  else I.initDataBlock R o

/-- The end of `SeekImpl`. -/
def seekInBlock (fuel : ℕ) (target : Option Bytes) (I : BlockBasedTableIterator) :
    Outcome BlockBasedTableIterator := do
  let I ← I.openBlock R o
  let blockIter ← match target with
    | some target => I.blockIter.seek R.comparator fuel target
    | none => I.blockIter.seekToFirst
  findKeyForward R o fuel { I with blockIter := blockIter }

def seekImpl (fuel : ℕ) (target : Option Bytes) (I : BlockBasedTableIterator) :
    Outcome BlockBasedTableIterator := do
  let I ← I.noteReseek
  if I.staysInBlock R target then I.seekInBlock R o fuel target
  else do
    let I ← I.seekIndex R target
    if I.indexIter.valid then I.seekInBlock R o fuel target else .ok I.resetDataIter

/-- The end of `SeekForPrev`. -/
def seekForPrevInBlock (fuel : ℕ) (target : Bytes) (I : BlockBasedTableIterator) :
    Outcome BlockBasedTableIterator := do
  let I ← I.initDataBlock R o
  let blockIter ← I.blockIter.seekForPrev R.comparator fuel target
  findKeyBackward R o fuel { I with blockIter := blockIter }

def seekForPrev (fuel : ℕ) (target : Bytes) (I : BlockBasedTableIterator) :
    Outcome BlockBasedTableIterator := do
  let I ← I.savePrevIndexValue
  let I ← I.seekIndex R (some target)
  if I.indexIter.valid then I.seekForPrevInBlock R o fuel target
  -- `NotFound` too resets the data iterator
  else if I.indexIter.status ≠ .ok then .ok I.resetDataIter
  else do
    let indexIter ← I.indexIter.seekToLast
    let I := { I with indexIter := indexIter }
    if I.indexIter.valid then I.seekForPrevInBlock R o fuel target else .ok I.resetDataIter

def seekToLast (fuel : ℕ) (I : BlockBasedTableIterator) : Outcome BlockBasedTableIterator := do
  let I ← I.savePrevIndexValue
  let indexIter ← I.indexIter.seekToLast
  let I := { I with indexIter := indexIter }
  if I.indexIter.valid then do
    let I ← I.initDataBlock R o
    let blockIter ← I.blockIter.seekToLast
    findKeyBackward R o fuel { I with blockIter := blockIter }
  else .ok I.resetDataIter

def next (fuel : ℕ) (I : BlockBasedTableIterator) : Outcome BlockBasedTableIterator := do
  let blockIter ← I.blockIter.next
  findKeyForward R o fuel { I with blockIter := blockIter }

def prev (fuel : ℕ) (I : BlockBasedTableIterator) : Outcome BlockBasedTableIterator := do
  let blockIter ← I.blockIter.prev
  findKeyBackward R o fuel { I with blockIter := blockIter }

/-- A call of the iterator, its loops limited to `fuel` turns. -/
def call (fuel : ℕ) (I : BlockBasedTableIterator) :
    OrderedCursor.Op InternalKey → Outcome BlockBasedTableIterator
  | .seekToFirst => I.seekImpl R o fuel none
  | .seekToLast => I.seekToLast R o fuel
  | .seek t => I.seekImpl R o fuel (some t.val)
  | .seekForPrev t => I.seekForPrev R o fuel t.val
  | .next => I.next R o fuel
  | .prev => I.prev R o fuel

end BlockBasedTableIterator

end Tweezer
