import Tweezer.BlockBuilder

/-!
# Reading a data block

`sgx/encryptedblock.{h,cc}` and the parts of `BlockIter` in `table/block_based/block.h`
that it uses. Opening a block decrypts its metadata and rebuilds the table of keys, offsets
and sizes; the iterator is an index into that table, but it is valid as long as a byte
offset, `current_`, lies before the offset of the metadata, `restarts_`.
-/

namespace Tweezer

inductive Status where
  | ok
  | notFound (message : String)
  | corruption (message : String)
  | notSupported (message : String)
  | invalidArgument (message : String)
  | ioError (message : String)
  | mergeInProgress (message : String)
  | incomplete (message : String)
  | shutdownInProgress (message : String)
  | timedOut (message : String)
  | aborted (message : String)
  | busy (message : String)
  | expired (message : String)
  | tryAgain (message : String)
  | compactionTooLarge (message : String)
  | columnFamilyDropped (message : String)
  deriving DecidableEq, Repr

def Status.isIncomplete : Status → Bool
  | .incomplete _ => true
  | _ => false

@[simp] theorem Status.isIncomplete_ok : Status.ok.isIncomplete = false := rfl

structure OffsetEntry where
  key : Bytes
  offset : ℕ
  size : ℕ
  deriving DecidableEq, Repr

structure EncryptedBlock where
  contents : Bytes
  sstKey : Key
  deriving DecidableEq

structure EncryptedDataBlockIter where
  data : Option Bytes
  restarts : ℕ
  current : ℕ
  globalSeqno : ℕ
  rawKey : Bytes
  key : Bytes
  value : Bytes
  status : Status
  keyOffsetMap : List OffsetEntry
  currentIndex : ℤ
  sstKey : Key
  valueDirty : Bool
  deriving DecidableEq

/-- `DecodeEntryV2`: the three lengths at the front of `p`, and what follows them. -/
def decodeEntryV2 (p : Bytes) : Outcome (ℕ × ℕ × ℕ × Bytes) := do
  let head ← p.fetch 0 3
  match head with
  | [shared, nonShared, valueLength] =>
      if (shared ||| nonShared ||| valueLength) < 128 then
        .ok (shared.toNat, nonShared.toNat, valueLength.toNat, p.drop 3)
      else
        match Bytes.varintDecode 5 p with
        | none => .error .outOfBuffer
        | some (shared, p) =>
            match Bytes.varintDecode 5 p with
            | none => .error .outOfBuffer
            | some (nonShared, p) =>
                match Bytes.varintDecode 5 p with
                | none => .error .outOfBuffer
                | some (valueLength, p) =>
                    .ok (u32 shared, u32 nonShared, u32 valueLength, p)
  | _ => .error .outOfBuffer

/-- `IterKey::SetKey` and `IterKey::TrimAppend`: the last key is kept up to the shared
length. -/
def nextEntryKey (entryKey : Bytes) (shared : ℕ) (rest : Bytes) : Outcome Bytes :=
  if shared = 0 then .ok rest
  else if entryKey.length < shared then .error .outOfBuffer
  else .ok (entryKey.take shared ++ rest)

/-- The check of `Ready` that a key's user key does not come before that of its
predecessor. -/
def checkOrder (u : Comparator) (prev : Option Bytes) (key : Bytes) : Outcome Unit :=
  match prev with
  | none => .ok ()
  | some prev =>
      if key.length < kNumInternalBytes ∨ prev.length < kNumInternalBytes then
        .error .outOfBuffer
      else if u.compare (extractUserKey prev) (extractUserKey key) = .gt then .error .exit
      else .ok ()

/-- The loop of `Ready` over the decrypted metadata, for at most `fuel` entries. `prev` is
the key of the last entry of the table. -/
def readyLoop (u : Comparator) : ℕ → Bytes → Option Bytes → ℕ → Outcome (List OffsetEntry)
  | 0, _, _, _ => .error .diverged
  | _ + 1, [], _, _ => .ok []
  | fuel + 1, p, prev, offset => do
      let (shared, nonShared, valueLength, next) ← decodeEntryV2 p
      let rest ← next.fetch 0 nonShared
      let key ← nextEntryKey (prev.getD []) shared rest
      checkOrder u prev key
      let more ← readyLoop u fuel (next.drop nonShared) (some key)
        (u32 (u32 (offset + valueLength) + kHmacSize))
      .ok (⟨key, offset, valueLength⟩ :: more)

namespace EncryptedDataBlockIter

variable (C : Gcm) (digest : Digest) (u : Comparator)

/-- A default-constructed iterator. -/
def fresh : EncryptedDataBlockIter :=
  ⟨none, 0, 0, 0, [], [], [], .ok, [], 0, ⟨List.replicate 32 0, List.length_replicate⟩, true⟩

def invalidate (it : EncryptedDataBlockIter) (s : Status) : EncryptedDataBlockIter :=
  { it with data := none, current := it.restarts, status := s }

/-- `Ready`: reads the offset of the metadata and rebuilds the key table. -/
def ready (it : EncryptedDataBlockIter) (data : Bytes) (sstKey : Key) :
    Outcome EncryptedDataBlockIter := do
  let footer ← data.fetch (data.length - 4) 4
  let metaOffset := Bytes.leDecode footer
  let length := (data.length + 2 ^ 64 - metaOffset - 4) % 2 ^ 32
  let encBuf ← data.fetch metaOffset length
  let table ← readyLoop u (length + 1) (C.dec sstKey encBuf) none 0
  .ok { it with
    restarts := metaOffset, keyOffsetMap := table, currentIndex := -1, sstKey := sstKey }

def valid (it : EncryptedDataBlockIter) : Bool := it.current < it.restarts

def updateKey (it : EncryptedDataBlockIter) : EncryptedDataBlockIter :=
  if it.valid then
    { it with
      key := if it.globalSeqno = kDisableGlobalSequenceNumber then it.rawKey
        else extractUserKey it.rawKey ++
          Bytes.leEncode 8 (packSequenceAndType it.globalSeqno (extractValueType it.rawKey)) }
  else it

def compareCurrentKey (it : EncryptedDataBlockIter) (other : Bytes) : Ordering :=
  internalKeyCompare u it.rawKey it.globalSeqno other kDisableGlobalSequenceNumber

/-- `key_offset_map[i]`. -/
def entryAt (it : EncryptedDataBlockIter) (i : ℤ) : Outcome OffsetEntry :=
  if 0 ≤ i then
    match it.keyOffsetMap[i.toNat]? with
    | some e => .ok e
    | none => .error .outOfBuffer
  else .error .outOfBuffer

def moveTo (it : EncryptedDataBlockIter) (i : ℤ) : Outcome EncryptedDataBlockIter := do
  let e ← it.entryAt i
  .ok { it with
    currentIndex := i, rawKey := e.key, current := u32 (e.offset + kHmacSize), valueDirty := true }

def nextImpl (it : EncryptedDataBlockIter) : Outcome EncryptedDataBlockIter :=
  if it.currentIndex < (it.keyOffsetMap.length : ℤ) - 1 then it.moveTo (it.currentIndex + 1)
  else .ok { it with current := u32 (it.current + 20000) }

def prevImpl (it : EncryptedDataBlockIter) : Outcome EncryptedDataBlockIter :=
  if 0 < it.currentIndex then it.moveTo (it.currentIndex - 1) else it.moveTo it.currentIndex

/-- The first loop of `SeekImpl`, for at most `fuel` turns. -/
def narrow : ℕ → EncryptedDataBlockIter → ℤ → ℤ → Outcome EncryptedDataBlockIter
  | 0, _, _, _ => .error .diverged
  | fuel + 1, it, start, end_ => do
      let middle := (start + end_).tdiv 2
      let e ← it.entryAt middle
      let it := { it with currentIndex := middle, rawKey := e.key }
      -- the key is compared with itself
      if it.compareCurrentKey u e.key = .lt then narrow fuel it middle end_
      else if middle - start ≤ 15 then .ok { it with currentIndex := start - 1 }
      else narrow fuel it start (middle - 1)

/-- The second loop of `SeekImpl`. -/
def advance (target : Bytes) : ℕ → EncryptedDataBlockIter → Outcome EncryptedDataBlockIter
  | 0, _ => .error .diverged
  | fuel + 1, it =>
      if it.currentIndex < it.keyOffsetMap.length ∧ it.valid then
        if it.compareCurrentKey u target ≠ .lt then .ok it
        else do
          let it ← it.nextImpl
          advance target fuel it
      else .ok it

def seekImpl (fuel : ℕ) (it : EncryptedDataBlockIter) (target : Bytes) :
    Outcome EncryptedDataBlockIter := do
  let it ← it.narrow u fuel 0 it.keyOffsetMap.length
  let it ← it.nextImpl
  it.advance u target fuel

def seekToFirstImpl (it : EncryptedDataBlockIter) : Outcome EncryptedDataBlockIter :=
  match it.data with
  | none => .ok it
  | some _ => { it with currentIndex := -1 }.nextImpl

def seekToLastImpl (it : EncryptedDataBlockIter) : Outcome EncryptedDataBlockIter :=
  match it.data with
  | none => .ok it
  | some _ => { it with currentIndex := it.keyOffsetMap.length + 1 }.prevImpl

/-- The loop of `SeekForPrevImpl`, for at most `fuel` turns. -/
def retreat (seekKey : Bytes) : ℕ → EncryptedDataBlockIter → Outcome EncryptedDataBlockIter
  | 0, _ => .error .diverged
  | fuel + 1, it =>
      if it.valid ∧ it.compareCurrentKey u seekKey = .gt then do
        let it ← it.prevImpl
        retreat seekKey fuel it
      else .ok it

def seekForPrevImpl (fuel : ℕ) (it : EncryptedDataBlockIter) (target : Bytes) :
    Outcome EncryptedDataBlockIter := do
  let it ← it.seekImpl u fuel target
  if it.valid then it.retreat u target fuel else it.seekToLastImpl

def seekToFirst (it : EncryptedDataBlockIter) : Outcome EncryptedDataBlockIter := do
  let it ← it.seekToFirstImpl
  .ok it.updateKey

def seekToLast (it : EncryptedDataBlockIter) : Outcome EncryptedDataBlockIter := do
  let it ← it.seekToLastImpl
  .ok it.updateKey

def seek (fuel : ℕ) (it : EncryptedDataBlockIter) (target : Bytes) :
    Outcome EncryptedDataBlockIter := do
  let it ← it.seekImpl u fuel target
  .ok it.updateKey

def seekForPrev (fuel : ℕ) (it : EncryptedDataBlockIter) (target : Bytes) :
    Outcome EncryptedDataBlockIter := do
  let it ← it.seekForPrevImpl u fuel target
  .ok it.updateKey

def next (it : EncryptedDataBlockIter) : Outcome EncryptedDataBlockIter := do
  let it ← it.nextImpl
  .ok it.updateKey

def prev (it : EncryptedDataBlockIter) : Outcome EncryptedDataBlockIter := do
  let it ← it.prevImpl
  .ok it.updateKey

/-- `Updatevalue`: checks the MAC of the current entry and decrypts its value. -/
def updateValue (it : EncryptedDataBlockIter) : Outcome EncryptedDataBlockIter := do
  let e ← it.entryAt it.currentIndex
  let data ← match it.data with
    | some data => .ok data
    | none => .error .outOfBuffer
  let value ← data.fetch e.offset e.size
  let hmacFromFile ← data.fetch (e.offset + e.size) kHmacSize
  if (digest it.sstKey (it.key ++ value)).val = hmacFromFile then
    .ok { it with value := C.dec it.sstKey value, valueDirty := false }
  else .error .exit

/-- `value()`, which fills the value in when it is out of date. -/
def getValue (it : EncryptedDataBlockIter) : Outcome (Bytes × EncryptedDataBlockIter) :=
  if it.valueDirty then do
    let it ← it.updateValue C digest
    .ok (it.value, it)
  else .ok (it.value, it)

end EncryptedDataBlockIter

/-- `NewDataIterator`. A block of less than four bytes counts as empty. -/
def EncryptedBlock.newDataIterator (C : Gcm) (u : Comparator) (globalSeqno : ℕ)
    (b : EncryptedBlock) : Outcome EncryptedDataBlockIter :=
  let size := if b.contents.length < 4 then 0 else b.contents.length
  if size < 2 * 4 then
    .ok (EncryptedDataBlockIter.fresh.invalidate (.corruption "bad block contents"))
  else
    { EncryptedDataBlockIter.fresh with
      data := some b.contents, globalSeqno := globalSeqno }.ready C u b.contents b.sstKey

end Tweezer
