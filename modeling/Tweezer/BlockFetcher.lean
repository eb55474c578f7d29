import Tweezer.BlockBuilder

/-!
# Writing and fetching the raw blocks of a table

`WriteRawBlock` of the table builder, `table/block_fetcher.cc` built with `BLOCK_ENC` and
`CACHE`, and `RetrieveBlock` of the table reader, all for readers other than compactions. Next
to what a fetch gives, the model keeps what it writes to the buffers of the untrusted allocator.
-/

namespace Tweezer

/-- What the blocks of a table are encrypted and compressed with. -/
structure TableEnv where
  cipher : Gcm
  digest : Digest
  sstKey : Key
  uncompress : UInt8 → Bytes → Option Bytes

def kNoCompression : UInt8 := 0

def kBlockTrailerSize : ℕ := 5

/-- `BlockFetcher::kDefaultStackBufferSize`. -/
def kDefaultStackBufferSize : ℕ := 5000

/-- A block as it lies in the file: what its handle spans, and the trailer, of which only the
first byte is ever set. -/
structure RawBlock where
  data : Bytes
  type : UInt8
  unset : Octets 4
  deriving DecidableEq

def RawBlock.trailer (b : RawBlock) : Bytes := b.type :: b.unset.val

theorem RawBlock.length_trailer (b : RawBlock) : b.trailer.length = kBlockTrailerSize := by
  rw [trailer, List.length_cons, b.unset.property, kBlockTrailerSize]

inductive BlockType where
  | data
  | filter
  | properties
  | compressionDictionary
  | rangeDeletion
  | hashIndexPrefixes
  | hashIndexMetadata
  | metaIndex
  | index
  deriving DecidableEq, Repr

/-- `WriteRawBlock`: all but the data blocks are encrypted as a whole, with a MAC behind. -/
def writeRawBlock (E : TableEnv) (contents : Bytes) (type : UInt8) (isDataBlock : Bool)
    (unset : Octets 4) : RawBlock :=
  if isDataBlock then ⟨contents, type, unset⟩
  else
    let encrypted := E.cipher.enc E.sstKey contents
    ⟨encrypted ++ (E.digest E.sstKey encrypted).val, type, unset⟩

/-- Where bytes in a buffer come from. -/
inductive Origin where
  | plaintext
  | ciphertext
  | file
  deriving DecidableEq, Repr

/-- One write to memory outside the enclave. -/
structure UntrustedWrite where
  address : ℕ
  pieces : List (Origin × Bytes)
  deriving DecidableEq

/-- Where a block is found: a page of the persistent cache, uncompressed or as it was in the
file, the prefetch buffer, or the file itself. -/
inductive BlockSource where
  | uncompressedPage (page : Bytes)
  | rawPage (page : RawBlock)
  | prefetchBuffer
  | file
  deriving DecidableEq

inductive UsedBuf where
  | page
  | prefetchBuf
  | directIoBuf
  | mapped
  | stackBuf
  | compressedBuf
  | heapBuf
  deriving DecidableEq, Repr

/-- The arguments of a `BlockFetcher`, the options it looks at, and where its buffers are if it
allocates them. -/
structure BlockFetcher where
  doUncompress : Bool
  maybeCompressed : Bool
  decrypt : Bool
  useDirectIo : Bool
  allowMmapReads : Bool
  /-- `memory_allocator_` is `memory_allocator_compressed_`. -/
  sameAllocator : Bool
  source : BlockSource
  heapBuf : ℕ
  compressedBuf : ℕ
  deriving DecidableEq

namespace BlockFetcher

variable (E : TableEnv) (f : BlockFetcher)

/-- `used_buf_`, as `PrepareBufferForBlockFromFile` sets it where the file is read without direct
IO and is not mapped. -/
def usedBuf (blockSizeWithTrailer : ℕ) : UsedBuf :=
  match f.source with
  | .uncompressedPage _ => .page
  | .rawPage _ => .page
  | .prefetchBuffer => .prefetchBuf
  | .file =>
      if f.useDirectIo then .directIoBuf
      else if f.allowMmapReads then .mapped
      else if f.doUncompress ∧ blockSizeWithTrailer < kDefaultStackBufferSize then .stackBuf
      else if f.maybeCompressed ∧ ¬ f.doUncompress then .compressedBuf
      else .heapBuf

/-- The buffer outside that the file is read into, if it is one. -/
def readAddress : UsedBuf → Option ℕ
  | .heapBuf => some f.heapBuf
  | .compressedBuf => some f.compressedBuf
  | .page | .prefetchBuf | .directIoBuf | .mapped | .stackBuf => none

/-- The buffer outside that `GetBlockContents` copies to, if it copies. -/
def copyAddress (type : UInt8) : UsedBuf → Option ℕ
  | .prefetchBuf => some f.heapBuf
  | .stackBuf => some f.heapBuf
  | .compressedBuf => if type = kNoCompression ∧ ¬ f.sameAllocator then some f.heapBuf else none
  | .directIoBuf => if type = kNoCompression then some f.heapBuf else some f.compressedBuf
  | .heapBuf | .page | .mapped => none

def writeTo (address : Option ℕ) (pieces : List (Origin × Bytes)) : List UntrustedWrite :=
  match address with
  | none => []
  | some a => [⟨a, pieces⟩]

/-- The MAC check in front of `Decryption`, and what it then decrypts in place. -/
def checkHmac (data : Bytes) : Outcome Bytes :=
  if data.length < kHmacSize then .error .outOfBuffer
  else
    let encrypted := data.take (data.length - kHmacSize)
    if (E.digest E.sstKey encrypted).val = data.drop (data.length - kHmacSize) then
      .ok (E.cipher.dec E.sstKey encrypted)
    else .error .exit

/-- The end of `ReadBlockContents`, `none` being a status that is not OK. `slice` is what the
block's handle spans by now, and `size` how much of it counts. -/
def finish (buf : UsedBuf) (type : UInt8) (slice : Bytes) (size : ℕ)
    (loaded : List (Origin × Bytes)) : Option Bytes × List UntrustedWrite :=
  if f.doUncompress ∧ type ≠ kNoCompression then (E.uncompress type (slice.take size), [])
  else (some (slice.take size), writeTo (f.copyAddress type buf) loaded)

/-- `ReadBlockContents`, and its writes to memory outside. A mapped file cannot be decrypted
in place. -/
def readBlockContents (b : RawBlock) : Outcome (Option Bytes) × List UntrustedWrite :=
  let buf := f.usedBuf (b.data.length + kBlockTrailerSize)
  let read := writeTo (f.readAddress buf) [(.file, b.data ++ b.trailer)]
  match f.source with
  | .uncompressedPage page => (.ok (some page), [])
  | .rawPage page =>
      if f.decrypt ∧ page.data.length < kHmacSize then (.error .outOfBuffer, [])
      else
        let size := if f.decrypt then page.data.length - kHmacSize else page.data.length
        let (contents, writes) := f.finish E buf page.type page.data size []
        (.ok contents, writes)
  | .prefetchBuffer | .file =>
      if f.decrypt then
        match checkHmac E b.data with
        | .error e => (.error e, read)
        | .ok plain =>
            if buf = .mapped then (.error .outOfBuffer, [])
            else
              let hmac := b.data.drop (b.data.length - kHmacSize)
              let (contents, writes) := f.finish E buf b.type (plain ++ hmac) plain.length
                [(.plaintext, plain), (.file, hmac ++ b.trailer)]
              (.ok contents, read ++ writeTo (f.readAddress buf) [(.plaintext, plain)] ++ writes)
      else
        let (contents, writes) := f.finish E buf b.type b.data b.data.length
          [(.file, b.data ++ b.trailer)]
        (.ok contents, read ++ writes)

end BlockFetcher

/-- The `BlockFetcher` of `ReadMetaIndexBlock`. -/
def BlockFetcher.forMetaIndex (f : BlockFetcher) : BlockFetcher :=
  { f with doUncompress := true, maybeCompressed := true, decrypt := true }

/-- The `BlockFetcher` of `ReadProperties`. -/
def BlockFetcher.forProperties (f : BlockFetcher) : BlockFetcher :=
  { f with doUncompress := false, maybeCompressed := false, decrypt := true }

/-- What `RetrieveBlock` finds: whether there is a block cache, what it holds for the handle, and
whether the file may be read. `fetcher` has the options of the table. -/
structure BlockLookup where
  blockCache : Bool
  cached : Option Bytes
  noIo : Bool
  blocksMaybeCompressed : Bool
  fetcher : BlockFetcher

/-- The `BlockFetcher` for a block of type `type`. -/
def BlockLookup.fetcherFor (l : BlockLookup) (type : BlockType) (decrypt : Bool) : BlockFetcher :=
  let maybeCompressed :=
    type ≠ .filter ∧ type ≠ .compressionDictionary ∧ l.blocksMaybeCompressed
  { l.fetcher with
    doUncompress := maybeCompressed, maybeCompressed := maybeCompressed, decrypt := decrypt }

/-- `RetrieveBlock`, by way of `MaybeReadBlockAndLoadToCache` where the cache is used. Only
without it is the block decrypted. -/
def retrieveBlock (E : TableEnv) (l : BlockLookup) (type : BlockType) (useCache : Bool)
    (b : RawBlock) : Outcome (Option Bytes) × List UntrustedWrite :=
  let fetch := (l.fetcherFor type (!useCache)).readBlockContents E b
  match useCache && l.blockCache, l.cached with
  | true, some c => (.ok (some c), [])
  | true, none => if l.noIo then (.ok none, []) else fetch
  | false, _ => if l.noIo then (.ok none, []) else fetch

def sampleTableEnv : TableEnv := ⟨sampleGcm, sampleDigest, sampleKey, fun _ _ => none⟩

/-- A reader without a block cache that reads the file as it is. -/
def sampleBlockLookup : BlockLookup where
  blockCache := false
  cached := none
  noIo := false
  blocksMaybeCompressed := false
  fetcher := ⟨false, false, false, false, false, true, .file, 0, 8192⟩

end Tweezer
