import Tweezer.BlockFetcher
import Tweezer.PlainBlock
import Tweezer.InternalKey

/-!
# The index block

`BlockHandle` and `IndexValue` of `table/format.cc`, `ShortenedIndexBuilder` of
`table/block_based/index_builder.h`, and `IndexBlockIter` of `table/block_based/block.{h,cc}`
with `check_corruption`. An index entry holds a key that separates a data block from the next
one and the handle of the block. The keys are internal keys, or user keys where these are
enough; a handle may be written as the difference of its size to that of its predecessor.
-/

namespace Tweezer

structure BlockHandle where
  offset : ℕ
  size : ℕ
  deriving DecidableEq

def BlockHandle.isNull (h : BlockHandle) : Bool := h.offset = 0 ∧ h.size = 0

/-- `i64ToZigzag` of a number in two's complement. -/
def i64ToZigzag (l : ℕ) : ℕ := if l < 2 ^ 63 then 2 * l else 2 ^ 65 - 1 - 2 * l

def zigzagToI64 (n : ℕ) : ℕ := if n % 2 = 0 then n / 2 else 2 ^ 64 - 1 - n / 2

namespace IndexValue

/-- `EncodeTo` without a first key. -/
def encode (handle : BlockHandle) : Option BlockHandle → Bytes
  | some previous => putVarint64 (i64ToZigzag (u64 (handle.size + 2 ^ 64 - previous.size)))
  | none => putVarint64 handle.offset ++ putVarint64 handle.size

/-- `DecodeFrom` without a first key, and the input behind what it took. The handle that it
decodes into is `previous` itself; the status that it returns is not looked at. -/
def decode (input : Bytes) : Option BlockHandle → BlockHandle × Bytes
  | some previous =>
      match getVarint64 input with
      | none => (previous, input)
      | some (delta, input) =>
          (⟨u64 (previous.offset + previous.size + kBlockTrailerSize),
            u64 (previous.size + zigzagToI64 delta)⟩, input)
  | none =>
      match getVarint64 input with
      | none => (⟨0, 0⟩, input)
      | some (offset, input) =>
          match getVarint64 input with
          | none => (⟨0, 0⟩, input)
          | some (size, input) => (⟨offset, size⟩, input)

end IndexValue

/-- The functions of a user comparator that shorten index keys, with what the interface asks
of them. -/
structure KeyShortening (u : Comparator) where
  findShortestSeparator : Bytes → Bytes → Bytes
  findShortSuccessor : Bytes → Bytes
  separator_between : ∀ start limit, u.compare start limit = .lt →
    u.compare start (findShortestSeparator start limit) ≠ .gt ∧
      u.compare (findShortestSeparator start limit) limit = .lt
  separator_unchanged : ∀ start limit, u.compare start limit ≠ .lt →
    findShortestSeparator start limit = start
  successor_ge : ∀ key, u.compare key (findShortSuccessor key) ≠ .gt

theorem ucmp_self (u : Comparator) (key : Bytes) : u.compare key key = .eq := by
  have := u.transCmp
  exact Std.ReflCmp.compare_self

/-- A comparator that leaves keys as they are. -/
def KeyShortening.none (u : Comparator) : KeyShortening u where
  findShortestSeparator start _ := start
  findShortSuccessor key := key
  separator_between start _ h := ⟨by simp [ucmp_self], h⟩
  separator_unchanged _ _ _ := rfl
  successor_ge key := by simp [ucmp_self]

section Shortening

variable {u : Comparator} (S : KeyShortening u)

/-- The key with the shortened user key `tmp`, if that is shorter and larger. -/
def shortenTo (u : Comparator) (key tmp : Bytes) : Bytes :=
  if tmp.length ≤ (extractUserKey key).length ∧ u.compare (extractUserKey key) tmp = .lt then
    tmp ++ Bytes.leEncode 8 (packSequenceAndType kMaxSequenceNumber kValueTypeForSeek.code)
  else key

/-- `InternalKeyComparator::FindShortestSeparator`. -/
def findShortestSeparator (start limit : Bytes) : Bytes :=
  shortenTo u start (S.findShortestSeparator (extractUserKey start) (extractUserKey limit))

/-- `InternalKeyComparator::FindShortSuccessor`. -/
def findShortSuccessor (key : Bytes) : Bytes :=
  shortenTo u key (S.findShortSuccessor (extractUserKey key))

end Shortening

inductive IndexShorteningMode where
  | noShortening
  | shortenSeparators
  | shortenSeparatorsAndSuccessor
  deriving DecidableEq

structure ShortenedIndexBuilder where
  indexBlockBuilder : PlainBlockBuilder
  indexBlockBuilderWithoutSeq : PlainBlockBuilder
  useValueDeltaEncoding : Bool
  seperatorIsKeyPlusSeq : Bool
  shorteningMode : IndexShorteningMode
  lastEncodedHandle : BlockHandle
  deriving DecidableEq

namespace ShortenedIndexBuilder

def create (indexBlockRestartInterval formatVersion : ℕ) (useValueDeltaEncoding : Bool)
    (shorteningMode : IndexShorteningMode) : ShortenedIndexBuilder :=
  ⟨.create indexBlockRestartInterval true useValueDeltaEncoding,
    .create indexBlockRestartInterval true useValueDeltaEncoding,
    useValueDeltaEncoding, formatVersion ≤ 2, shorteningMode, ⟨0, 0⟩⟩

variable {u : Comparator} (S : KeyShortening u)

/-- The index key that `AddIndexEntry` makes of the last key of a block. -/
def separator (mode : IndexShorteningMode) (lastKey : Bytes) : Option Bytes → Bytes
  | some next => if mode = .noShortening then lastKey else findShortestSeparator S lastKey next
  | none => if mode = .shortenSeparatorsAndSuccessor then findShortSuccessor S lastKey else lastKey

/-- Whether user keys are not enough to tell a block from the next one. -/
def needsSeq (u : Comparator) (sep : Bytes) : Option Bytes → Bool
  | some next => u.compare (extractUserKey sep) (extractUserKey next) == .eq
  | none => false

def addIndexEntry (b : ShortenedIndexBuilder) (lastKeyInCurrentBlock : Bytes)
    (firstKeyInNextBlock : Option Bytes) (blockHandle : BlockHandle) : ShortenedIndexBuilder :=
  let sep := separator S b.shorteningMode lastKeyInCurrentBlock firstKeyInNextBlock
  let plusSeq := b.seperatorIsKeyPlusSeq || needsSeq u sep firstKeyInNextBlock
  let encoded := IndexValue.encode blockHandle none
  let deltaEncoded :=
    if b.useValueDeltaEncoding && !b.lastEncodedHandle.isNull then
      IndexValue.encode blockHandle (some b.lastEncodedHandle)
    else []
  { b with
    indexBlockBuilder := b.indexBlockBuilder.add sep encoded deltaEncoded
    indexBlockBuilderWithoutSeq :=
      if plusSeq then b.indexBlockBuilderWithoutSeq
      else b.indexBlockBuilderWithoutSeq.add (extractUserKey sep) encoded deltaEncoded
    seperatorIsKeyPlusSeq := plusSeq
    lastEncodedHandle := blockHandle }

def finish (b : ShortenedIndexBuilder) : Bytes :=
  if b.seperatorIsKeyPlusSeq then b.indexBlockBuilder.finish
  else b.indexBlockBuilderWithoutSeq.finish

end ShortenedIndexBuilder

def kMaxBlockSizeSupportedByHashIndex : ℕ := 2 ^ 16

/-- The constructor of `Block`. The last four bytes hold the number of restart points, and in
a small block a bit that says that a hash index of the block precedes them. -/
def Block.create (contents : Bytes) : Block :=
  let size := contents.length
  let footer := Bytes.leDecode (contents.slice (size - 4) 4)
  if size < 4 then ⟨contents, 0, 0, 0⟩
  else if kMaxBlockSizeSupportedByHashIndex < size ∨ footer < 2 ^ 31 then
    let restartOffset := u32 (size + 2 ^ 32 * 8 - (1 + footer) * 4)
    ⟨contents, if size - 4 < restartOffset then 0 else size, restartOffset, footer⟩
  else if size < 4 + 2 then ⟨contents, 0, 0, footer - 2 ^ 31⟩
  else
    let numBuckets := Bytes.leDecode (contents.slice (size - 4 - 2) 2)
    let mapOffset := (size - 4 + 2 ^ 16 - 2 - numBuckets) % 2 ^ 16
    let restartOffset := u32 (mapOffset + 2 ^ 32 * 8 - (footer - 2 ^ 31) * 4)
    ⟨contents, if mapOffset < restartOffset then 0 else size, restartOffset, footer - 2 ^ 31⟩

structure IndexBlockIter where
  data : Option Bytes
  restarts : ℕ
  numRestarts : ℕ
  current : ℕ
  restartIndex : ℕ
  rawKey : Bytes
  key : Bytes
  valueOffset : ℕ
  valueSize : ℕ
  status : Status
  keyIncludesSeq : Bool
  valueDeltaEncoded : Bool
  decodedValue : BlockHandle
  deriving DecidableEq

/-- `DecodeKeyV4` at offset `p`: the two lengths, and the offset behind them. -/
def decodeKeyV4 (data : Bytes) (p limit : ℕ) : Outcome (Option (ℕ × ℕ × ℕ)) :=
  if limit - p < 3 then .ok none
  else do
    let head ← data.fetch p 2
    match head with
    | [shared, nonShared] =>
        if (shared ||| nonShared) < 128 then
          .ok (some (shared.toNat, nonShared.toNat, p + 2))
        else
          match Bytes.varintDecode 5 (data.slice p (limit - p)) with
          | none => .ok none
          | some (shared, rest) =>
              match Bytes.varintDecode 5 rest with
              | none => .ok none
              | some (nonShared, rest) =>
                  .ok (some (u32 shared, u32 nonShared, limit - rest.length))
    | _ => .error .outOfBuffer

namespace IndexBlockIter

def fresh : IndexBlockIter :=
  ⟨none, 0, 0, 0, 0, [], [], 0, 0, .ok, true, false, ⟨2 ^ 64 - 1, 2 ^ 64 - 1⟩⟩

def invalidate (it : IndexBlockIter) (s : Status) : IndexBlockIter :=
  { it with data := none, current := it.restarts, status := s }

def valid (it : IndexBlockIter) : Bool := it.current < it.restarts

def nextEntryOffset (it : IndexBlockIter) : ℕ := u32 (it.valueOffset + it.valueSize)

def updateKey (it : IndexBlockIter) : IndexBlockIter :=
  if it.valid then { it with key := it.rawKey } else it

def compareCurrentKey (u : Comparator) (it : IndexBlockIter) (other : Bytes) : Ordering :=
  if it.keyIncludesSeq then icmp u it.rawKey other else u.compare it.rawKey other

def getRestartPoint (it : IndexBlockIter) (data : Bytes) (index : ℕ) : Outcome ℕ := do
  let p ← data.fetch (it.restarts + index * 4) 4
  .ok (Bytes.leDecode p)

def seekToRestartPoint (it : IndexBlockIter) (data : Bytes) (index : ℕ) :
    Outcome IndexBlockIter := do
  let offset ← it.getRestartPoint data index
  .ok { it with rawKey := [], restartIndex := index, valueOffset := offset, valueSize := 0 }

def corruptionError (it : IndexBlockIter) : IndexBlockIter :=
  { it with
    current := it.restarts, restartIndex := it.numRestarts,
    status := .corruption "bad entry in block", rawKey := [], valueSize := 0 }

/-- `DecodeKeyV4` or `DecodeEntry`, whichever the form of the values asks for, the length of
the value being zero in the one case. -/
def decodeEntry (it : IndexBlockIter) (data : Bytes) (p : ℕ) :
    Outcome (Option (ℕ × ℕ × ℕ × ℕ)) :=
  if it.valueDeltaEncoded then do
    let decoded ← decodeKeyV4 data p it.restarts
    .ok (decoded.map fun (shared, nonShared, p) => (shared, nonShared, 0, p))
  else Tweezer.decodeEntry data p it.restarts

def decodeCurrentValue (it : IndexBlockIter) (data : Bytes) (shared : ℕ) :
    Outcome IndexBlockIter :=
  if it.restarts < it.valueOffset then .error .outOfBuffer
  else
    let v := data.slice it.valueOffset (it.restarts - it.valueOffset)
    let (handle, rest) := IndexValue.decode v
      (if it.valueDeltaEncoded ∧ shared ≠ 0 then some it.decodedValue else none)
    .ok { it with decodedValue := handle, valueSize := v.length - rest.length }

/-- The loop that moves the restart index up to the current entry, over at most `fuel`
restart points. -/
def advanceRestartIndex (data : Bytes) : ℕ → IndexBlockIter → Outcome IndexBlockIter
  | 0, it => .ok it
  | fuel + 1, it =>
      if it.restartIndex + 1 < it.numRestarts then do
        let point ← it.getRestartPoint data (it.restartIndex + 1)
        if point < it.current then
          advanceRestartIndex data fuel { it with restartIndex := it.restartIndex + 1 }
        else .ok it
      else .ok it

/-- `ParseNextIndexKey`, without what it returns: that the iterator is valid. -/
def parseNextIndexKey (it : IndexBlockIter) (data : Bytes) : Outcome IndexBlockIter :=
  let it := { it with current := it.nextEntryOffset }
  if it.restarts ≤ it.current then
    .ok { it with current := it.restarts, restartIndex := it.numRestarts }
  else do
    let decoded ← it.decodeEntry data it.current
    match decoded with
    | none => .ok it.corruptionError
    | some (shared, nonShared, valueLength, p) =>
        if it.rawKey.length < shared then .ok it.corruptionError
        else do
          let rest ← data.fetch p nonShared
          let it := { it with
            rawKey := it.rawKey.take shared ++ rest
            valueOffset := p + nonShared
            valueSize := valueLength }
          let it ← if shared = 0 then it.advanceRestartIndex data it.numRestarts else .ok it
          if it.valueDeltaEncoded then it.decodeCurrentValue data shared else .ok it

/-- The loop of `BinarySeek`, for at most `fuel` turns: the iterator, `left`, and whether the
restart key at `left` is the target itself; no position is left after a corrupt entry. -/
def binarySeekLoop (u : Comparator) (data target : Bytes) :
    ℕ → IndexBlockIter → ℤ → ℤ → Outcome (IndexBlockIter × Option (ℤ × Bool))
  | 0, _, _, _ => .error .diverged
  | fuel + 1, it, left, right =>
      if left = right then .ok (it, some (left, false))
      else do
        let mid := left + (right - left + 1) / 2
        let regionOffset ← it.getRestartPoint data mid.toNat
        let decoded ← it.decodeEntry data regionOffset
        match decoded with
        | none => .ok (it.corruptionError, none)
        | some (shared, nonShared, _, p) =>
            if shared ≠ 0 then .ok (it.corruptionError, none)
            else do
              let midKey ← data.fetch p nonShared
              let it := { it with rawKey := midKey }
              match it.compareCurrentKey u target with
              | .lt => binarySeekLoop u data target fuel it mid right
              | .gt => binarySeekLoop u data target fuel it left (mid - 1)
              | .eq => .ok (it, some (mid, true))

/-- `BinarySeek`: the restart point and whether its key is the result, or none if it returns
false. -/
def binarySeek (u : Comparator) (it : IndexBlockIter) (data target : Bytes) :
    Outcome (IndexBlockIter × Option (ℕ × Bool)) :=
  if it.restarts = 0 then .ok (it, none)
  else do
    let (it, found) ← it.binarySeekLoop u data target (it.numRestarts + 1) (-1)
      ((it.numRestarts : ℤ) - 1)
    .ok (it, found.map fun (left, skip) => if left = -1 then (0, true) else (left.toNat, skip))

/-- The loop of `FindKeyAfterBinarySeek`, for at most `fuel` turns. -/
def linearScan (u : Comparator) (data target : Bytes) (maxOffset : ℕ) :
    ℕ → IndexBlockIter → Outcome IndexBlockIter
  | 0, _ => .error .diverged
  | fuel + 1, it => do
      let it ← it.parseNextIndexKey data
      if !it.valid then .ok it
      else if it.current = maxOffset then .ok it
      else if it.compareCurrentKey u target ≠ .lt then .ok it
      else linearScan u data target maxOffset fuel it

/-- The offset at which the scan of a restart interval may stop without a comparison. -/
def maxOffset (it : IndexBlockIter) (data : Bytes) (index : ℕ) : Outcome ℕ :=
  if index + 1 < it.numRestarts then it.getRestartPoint data (index + 1) else .ok (2 ^ 32 - 1)

def findKeyAfterBinarySeek (u : Comparator) (it : IndexBlockIter) (data target : Bytes)
    (index : ℕ) (skipLinearScan : Bool) : Outcome IndexBlockIter := do
  let it ← it.seekToRestartPoint data index
  let it ← it.parseNextIndexKey data
  if skipLinearScan then .ok it
  else do
    let maxOffset ← it.maxOffset data index
    linearScan u data target maxOffset (it.restarts + 1) it

def seekImpl (u : Comparator) (it : IndexBlockIter) (target : Bytes) : Outcome IndexBlockIter :=
  match it.data with
  | none => .ok it
  | some data => do
      let seekKey := if it.keyIncludesSeq then target else extractUserKey target
      let it := { it with status := .ok }
      let (it, found) ← it.binarySeek u data seekKey
      match found with
      | none => .ok it
      | some (index, skipLinearScan) =>
          it.findKeyAfterBinarySeek u data seekKey index skipLinearScan

def seekToFirstImpl (it : IndexBlockIter) : Outcome IndexBlockIter :=
  match it.data with
  | none => .ok it
  | some data => do
      let it ← { it with status := .ok }.seekToRestartPoint data 0
      it.parseNextIndexKey data

def nextImpl (it : IndexBlockIter) : Outcome IndexBlockIter :=
  match it.data with
  | none => .error .outOfBuffer
  | some data => it.parseNextIndexKey data

/-- The loops of `SeekToLastImpl` and `PrevImpl` that read on to the entry in front of this
offset, for at most `fuel` turns. -/
def scanTo (data : Bytes) (offset : ℕ) : ℕ → IndexBlockIter → Outcome IndexBlockIter
  | 0, _ => .error .diverged
  | fuel + 1, it => do
      let it ← it.parseNextIndexKey data
      if it.valid ∧ it.nextEntryOffset < offset then scanTo data offset fuel it else .ok it

def seekToLastImpl (it : IndexBlockIter) : Outcome IndexBlockIter :=
  match it.data with
  | none => .ok it
  | some data => do
      let moved ← { it with status := .ok }.seekToRestartPoint data (it.numRestarts - 1)
      scanTo data it.restarts (it.restarts + 1) moved

/-- The loop of `PrevImpl` that moves the restart index back to a restart point before the
current entry, from `index` on. -/
def restartBefore (it : IndexBlockIter) (data : Bytes) : ℕ → Outcome (Option ℕ)
  | 0 => do
      let point ← it.getRestartPoint data 0
      .ok (if it.current ≤ point then none else some 0)
  | index + 1 => do
      let point ← it.getRestartPoint data (index + 1)
      if it.current ≤ point then it.restartBefore data index else .ok (some (index + 1))

def prevImpl (it : IndexBlockIter) : Outcome IndexBlockIter :=
  match it.data with
  | none => .error .outOfBuffer
  | some data => do
      let found ← it.restartBefore data it.restartIndex
      match found with
      | none => .ok { it with current := it.restarts, restartIndex := it.numRestarts }
      | some index => do
          let moved ← it.seekToRestartPoint data index
          scanTo data it.current (it.restarts + 1) moved

def seek (u : Comparator) (it : IndexBlockIter) (target : Bytes) : Outcome IndexBlockIter := do
  let it ← it.seekImpl u target
  .ok it.updateKey

def seekToFirst (it : IndexBlockIter) : Outcome IndexBlockIter := do
  let it ← it.seekToFirstImpl
  .ok it.updateKey

def next (it : IndexBlockIter) : Outcome IndexBlockIter := do
  let it ← it.nextImpl
  .ok it.updateKey

def seekToLast (it : IndexBlockIter) : Outcome IndexBlockIter := do
  let it ← it.seekToLastImpl
  .ok it.updateKey

def prev (it : IndexBlockIter) : Outcome IndexBlockIter := do
  let it ← it.prevImpl
  .ok it.updateKey

/-- `value()`. -/
def value (it : IndexBlockIter) : Outcome BlockHandle :=
  if it.valueDeltaEncoded then .ok it.decodedValue
  else
    match it.data with
    | none => .error .outOfBuffer
    | some data => do
        let v ← data.fetch it.valueOffset it.valueSize
        .ok (IndexValue.decode v none).1

/-- The loop of `check_corruption`: the last restart point before the current entry, from
`index` on, or the first one. -/
def prevOffset (it : IndexBlockIter) (data : Bytes) : ℕ → Outcome ℕ
  | 0 => it.getRestartPoint data 0
  | index + 1 => do
      let point ← it.getRestartPoint data (index + 1)
      if it.current ≤ point then it.prevOffset data index else .ok point

/-- `check_corruption` of the block that was read for the current entry, the keys being those
of its last and of its first entry. The keys are compared as strings. -/
def checkCorruption (it : IndexBlockIter) (lastBlockKey firstBlockKey : Bytes) : Outcome Unit :=
  match it.data with
  | none => .error .outOfBuffer
  | some data => do
      let lastKey := extractUserKey lastBlockKey
      let firstKey := extractUserKey firstBlockKey
      let prevOffset ← it.prevOffset data it.restartIndex
      let decoded ← decodeKeyV4 data prevOffset it.restarts
      if prevOffset = 0 then
        if compare lastKey it.key = .gt then .error .exit else .ok ()
      else if compare lastKey it.key = .gt then .error .exit
      else
        match decoded with
        | none => .error .outOfBuffer
        | some (_, nonShared, p) => do
            let prevKey ← data.fetch p nonShared
            if compare prevKey firstKey ≠ .lt then .error .exit else .ok ()

end IndexBlockIter

/-- `NewIndexIterator` without a prefix index. -/
def Block.newIndexIterator (b : Block) (keyIncludesSeq valueIsFull : Bool) : IndexBlockIter :=
  if b.size < 8 then IndexBlockIter.fresh.invalidate (.corruption "bad block contents")
  else if b.numRestarts = 0 then IndexBlockIter.fresh.invalidate .ok
  else { IndexBlockIter.fresh with
    data := some b.data, restarts := b.restartOffset, numRestarts := b.numRestarts,
    current := b.restartOffset, restartIndex := b.numRestarts,
    keyIncludesSeq := keyIncludesSeq, valueDeltaEncoded := !valueIsFull }

end Tweezer
