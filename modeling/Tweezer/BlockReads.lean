import Tweezer.FilePrefetchBuffer
import Tweezer.IndexBlock

/-!
# Reading the blocks of a file

Sequences of `ReadBlockContents` on the handles of one file, with what outlives a single read:
the prefetch buffers and the pages of the persistent cache. A block that a prefetch buffer serves
is decrypted in the buffer, and the file's other blocks stay as they are.
-/

namespace Tweezer

/-- The block whose handle spans the first `size` of these bytes. -/
def RawBlock.ofBytes (size : ℕ) (b : Bytes) : RawBlock :=
  ⟨b.take size, (b.drop size).headD 0, ⟨(b.drop (size + 1) ++ Bytes.zeros 4).take 4, by
    rw [List.length_take, List.length_append, Bytes.length_zeros]
    omega⟩⟩

inductive PersistentCacheKind where
  | uncompressed
  | compressed
  deriving DecidableEq, Repr

/-- The file of a table, as the block fetchers are handed it. -/
structure TableFile where
  reader : FileReader
  persistentCache : Option PersistentCacheKind

/-- What outlives a read. -/
structure FetchState where
  prefetchBuffers : ℕ → FilePrefetchBuffer
  persistentPages : BlockHandle → Option Bytes

/-- The arguments of a `BlockFetcher` for a block of the file, and the read options it looks at. -/
structure BlockRead where
  handle : BlockHandle
  prefetchBuffer : Option ℕ
  doUncompress : Bool
  maybeCompressed : Bool
  sameAllocator : Bool
  decrypt : Bool
  fillCache : Bool
  deriving DecidableEq

namespace BlockRead

def blockSizeWithTrailer (c : BlockRead) : ℕ := c.handle.size + kBlockTrailerSize

def fetcher (r : FileReader) (c : BlockRead) (source : BlockSource) : BlockFetcher where
  doUncompress := c.doUncompress
  maybeCompressed := c.maybeCompressed
  decrypt := c.decrypt
  useDirectIo := r.useDirectIo
  allowMmapReads := r.allowMmapReads
  sameAllocator := c.sameAllocator
  source := source
  heapBuf := 0
  compressedBuf := 0

/-- What a read that the file ends short of comes to. The MAC is looked for at the end of what
was read and computed over the buffer it was read into, before the size is looked at. -/
def truncated (E : TableEnv) (r : FileReader) (c : BlockRead) (bytes : Bytes) :
    Outcome (Option Bytes) :=
  if c.decrypt = false then .ok none
  else if c.handle.size < kHmacSize ∨ bytes.length < kHmacSize + kBlockTrailerSize then
    .error .outOfBuffer
  else
    let memory := bytes ++ (r.unfilled c.blockSizeWithTrailer).val
    let hmac := bytes.slice (bytes.length - kHmacSize - kBlockTrailerSize) kHmacSize
    if (E.digest E.sstKey (memory.take (c.handle.size - kHmacSize))).val = hmac then
      if r.mapped then .error .outOfBuffer else .ok none
    else .error .exit

/-- `used_buf_` after the block was read into it. -/
def usedBytes (E : TableEnv) (r : FileReader) (c : BlockRead) (bytes : Bytes) : Bytes :=
  if r.mapped then (r.unfilled c.blockSizeWithTrailer).val
  else if c.decrypt then
    E.cipher.dec E.sstKey (bytes.take (c.handle.size - kHmacSize)) ++
      bytes.drop (c.handle.size - kHmacSize)
  else bytes

end BlockRead

namespace FetchState

variable (E : TableEnv) (T : TableFile) (st : FetchState) (c : BlockRead)

/-- `TryReadFromCache` of the prefetch buffer, if there is one. -/
def tryReadFromCache : Option Bytes × FetchState :=
  match c.prefetchBuffer with
  | none => (none, st)
  | some k =>
      let (bytes, p) := (st.prefetchBuffers k).tryReadFromCache T.reader c.handle.offset
        c.blockSizeWithTrailer
      (bytes, { st with prefetchBuffers := Function.update st.prefetchBuffers k p })

/-- Where `ReadBlockContents` finds the block, and its bytes there. -/
def locate : BlockSource × Bytes × FetchState :=
  match T.persistentCache, st.persistentPages c.handle with
  | some .uncompressed, some page => (.uncompressedPage page, [], st)
  | cache, page =>
      match st.tryReadFromCache T c, cache, page with
      | (some bytes, st), _, _ => (.prefetchBuffer, bytes, st)
      | (none, st), some .compressed, some page =>
          (.rawPage (.ofBytes c.handle.size page), page, st)
      | (none, st), _, _ =>
          (.file, T.reader.file.slice c.handle.offset c.blockSizeWithTrailer, st)

/-- What a read leaves behind: the block in the prefetch buffer is decrypted, and one that was
read from the file goes to the persistent cache. -/
def afterwards (source : BlockSource) (bytes : Bytes) (contents : Option Bytes) : FetchState :=
  match source with
  | .uncompressedPage _ => st
  | .rawPage _ => st
  | .prefetchBuffer =>
      match c.prefetchBuffer with
      | none => st
      | some k =>
          if c.decrypt then
            { st with
              prefetchBuffers := Function.update st.prefetchBuffers k
                ((st.prefetchBuffers k).overwrite c.handle.offset
                  (E.cipher.dec E.sstKey (bytes.take (c.handle.size - kHmacSize)))) }
          else st
  | .file =>
      match c.fillCache, T.persistentCache, contents with
      | true, some .compressed, _ =>
          { st with
            persistentPages := Function.update st.persistentPages c.handle
              (some (c.usedBytes E T.reader bytes)) }
      | true, some .uncompressed, some contents =>
          { st with
            persistentPages := Function.update st.persistentPages c.handle (some contents) }
      | _, _, _ => st

/-- `ReadBlockContents`, `none` being a status that is not OK. -/
def readBlockContents : Outcome (Option Bytes) × FetchState :=
  let (source, bytes, st) := st.locate T c
  if source = .file ∧ bytes.length ≠ c.blockSizeWithTrailer then
    (c.truncated E T.reader bytes, st)
  else
    let b := RawBlock.ofBytes c.handle.size bytes
    match ((c.fetcher T.reader source).readBlockContents E b).1 with
    | .error e => (.error e, st)
    | .ok contents => (.ok contents, st.afterwards E T c source bytes contents)

end FetchState

/-- What happens to the buffers and to the cache: reads, windows that are fetched ahead, buffers
that are made, pages that are evicted. -/
inductive FetchStep where
  | read (c : BlockRead)
  | newBuffer (k readaheadSize maxReadaheadSize : ℕ) (enable : Bool)
  | prefetch (k offset n : ℕ)
  | evict (handle : BlockHandle)
  deriving DecidableEq

namespace FetchState

variable (E : TableEnv) (T : TableFile)

def next (st : FetchState) : FetchStep → FetchState
  | .read c => (st.readBlockContents E T c).2
  | .newBuffer k readaheadSize maxReadaheadSize enable =>
      { st with
        prefetchBuffers := Function.update st.prefetchBuffers k
          (.create readaheadSize maxReadaheadSize enable) }
  | .prefetch k offset n =>
      { st with
        prefetchBuffers := Function.update st.prefetchBuffers k
          ((st.prefetchBuffers k).prefetch T.reader offset n) }
  | .evict handle =>
      { st with persistentPages := Function.update st.persistentPages handle none }

/-- `P` holds of each read, in the state before it. -/
def EachRead (P : FetchState → BlockRead → Prop) : FetchState → List FetchStep → Prop
  | _, [] => True
  | st, step :: steps =>
      (∀ c, step = .read c → P st c) ∧ EachRead P (st.next E T step) steps

def initial : FetchState where
  prefetchBuffers _ := .create 0 0 false
  persistentPages _ := none

end FetchState

/-! ### The blocks of a file -/

/-- The arguments of `WriteRawBlock`. -/
structure SstBlock where
  contents : Bytes
  type : UInt8
  isDataBlock : Bool
  unset : Octets 4
  deriving DecidableEq

namespace SstBlock

def raw (E : TableEnv) (b : SstBlock) : RawBlock :=
  writeRawBlock E b.contents b.type b.isDataBlock b.unset

/-- The bytes that `block_align` adds behind a data block. -/
def padBytes (E : TableEnv) (alignment : Option ℕ) (b : SstBlock) : ℕ :=
  match alignment, b.isDataBlock with
  | some a, true => (a - (((b.raw E).data.length + kBlockTrailerSize) &&& (a - 1))) &&& (a - 1)
  | _, _ => 0

/-- What `WriteRawBlock` appends to the file. -/
def written (E : TableEnv) (alignment : Option ℕ) (b : SstBlock) : Bytes :=
  (b.raw E).data ++ (b.raw E).trailer ++ Bytes.zeros (b.padBytes E alignment)

/-- The handle with which block `i` is written. -/
def handle (E : TableEnv) (alignment : Option ℕ) (blocks : List SstBlock) (i : ℕ)
    (b : SstBlock) : BlockHandle :=
  ⟨((blocks.take i).flatMap (written E alignment)).length, (b.raw E).data.length⟩

/-- The handle is the one with which this block of the file was written. -/
def At (E : TableEnv) (alignment : Option ℕ) (blocks : List SstBlock) (h : BlockHandle)
    (b : SstBlock) : Prop :=
  ∃ i, blocks[i]? = some b ∧ h = handle E alignment blocks i b

end SstBlock

/-- What was passed to `WriteBlock`: the block before it was compressed. -/
def SstBlock.full (E : TableEnv) (b : SstBlock) : Option Bytes :=
  if b.type ≠ kNoCompression then E.uncompress b.type b.contents else some b.contents

/-- What a read of the block should give: what was passed to `WriteRawBlock`, uncompressed where
that is asked for. -/
def BlockRead.expected (E : TableEnv) (c : BlockRead) (b : SstBlock) : Option Bytes :=
  if c.doUncompress ∧ b.type ≠ kNoCompression then E.uncompress b.type b.contents
  else some b.contents

theorem RawBlock.ofBytes_append (b : RawBlock) :
    RawBlock.ofBytes b.data.length (b.data ++ b.trailer) = b := by
  obtain ⟨data, type, unset, hunset⟩ := b
  have hdrop : (data ++ RawBlock.trailer ⟨data, type, unset, hunset⟩).drop (data.length + 1) =
      unset := by
    rw [← List.drop_drop, List.drop_left]
    rfl
  simp only [RawBlock.ofBytes, RawBlock.mk.injEq]
  refine ⟨List.take_left, ?_, ?_⟩
  · rw [List.drop_left]
    rfl
  · apply Subtype.ext
    dsimp only
    rw [hdrop, List.take_left' hunset]

namespace SstBlock

variable {E : TableEnv} {alignment : Option ℕ} {blocks : List SstBlock} {h : BlockHandle}
  {b b' : SstBlock} {i : ℕ}

theorem length_raw_data (E : TableEnv) (b : SstBlock) : (b.raw E).data.length =
    if b.isDataBlock then b.contents.length else b.contents.length + kHmacSize := by
  unfold raw writeRawBlock
  split_ifs
  · rfl
  · rw [List.length_append, E.cipher.length_enc, (E.digest _ _).property, kHmacSize]

theorem raw_type (E : TableEnv) (b : SstBlock) : (b.raw E).type = b.type := by
  unfold raw writeRawBlock
  split_ifs <;> rfl

theorem raw_of_data (hb : b.isDataBlock = true) :
    b.raw E = ⟨b.contents, b.type, b.unset⟩ := by
  rw [raw, writeRawBlock, if_pos hb]

theorem raw_of_not_data (hb : b.isDataBlock = false) : b.raw E =
    ⟨E.cipher.enc E.sstKey b.contents ++
      (E.digest E.sstKey (E.cipher.enc E.sstKey b.contents)).val, b.type, b.unset⟩ := by
  rw [raw, writeRawBlock, if_neg (by rw [hb]; decide)]

/-- The file holds the block at its handle, with the trailer. -/
theorem At.slice_file (hat : At E alignment blocks h b) (rest : Bytes) :
    Bytes.slice (blocks.flatMap (written E alignment) ++ rest) h.offset
        (h.size + kBlockTrailerSize) = (b.raw E).data ++ (b.raw E).trailer ∧
      h.offset + (h.size + kBlockTrailerSize) ≤
        (blocks.flatMap (written E alignment) ++ rest).length := by
  obtain ⟨i, hi, rfl⟩ := hat
  have hlt := (List.getElem?_eq_some_iff.mp hi).1
  have hsplit : blocks.flatMap (written E alignment) ++ rest =
      (blocks.take i).flatMap (written E alignment) ++
        (((b.raw E).data ++ (b.raw E).trailer) ++ (Bytes.zeros (b.padBytes E alignment) ++
          ((blocks.drop (i + 1)).flatMap (written E alignment) ++ rest))) := by
    have hblocks : blocks = blocks.take i ++ b :: blocks.drop (i + 1) := by
      rw [← (List.getElem?_eq_some_iff.mp hi).2, ← List.drop_eq_getElem_cons hlt,
        List.take_append_drop]
    conv_lhs => rw [hblocks]
    rw [List.flatMap_append, List.flatMap_cons]
    simp only [written, List.append_assoc]
  have hlen : ((b.raw E).data ++ (b.raw E).trailer).length =
      (b.raw E).data.length + kBlockTrailerSize := by
    rw [List.length_append, RawBlock.length_trailer]
  rw [hsplit]
  constructor
  · exact Bytes.slice_eq_of_append rfl hlen
  · simp only [handle, List.length_append, RawBlock.length_trailer]
    omega

theorem take_flatMap_lt (E : TableEnv) (alignment : Option ℕ) (blocks : List SstBlock) {i j : ℕ}
    (hij : i < j) (hj : j ≤ blocks.length) :
    ((blocks.take i).flatMap (written E alignment)).length <
      ((blocks.take j).flatMap (written E alignment)).length := by
  have htake : blocks.take j = blocks.take i ++ (blocks.drop i).take (j - i) := by
    rw [← List.take_add, Nat.add_sub_cancel' hij.le]
  have hdrop : blocks.drop i = blocks[i] :: blocks.drop (i + 1) := List.drop_eq_getElem_cons _
  obtain ⟨n, hn⟩ : ∃ n, j - i = n + 1 := ⟨j - i - 1, by omega⟩
  rw [htake, hdrop, hn, List.take_succ_cons, List.flatMap_append, List.flatMap_cons,
    List.length_append, List.length_append, written, List.length_append, List.length_append,
    RawBlock.length_trailer, kBlockTrailerSize]
  omega

/-- No two blocks begin at the same offset. -/
theorem At.eq_of_offset {h' : BlockHandle} (hat : At E alignment blocks h b)
    (hat' : At E alignment blocks h' b') (hoffset : h.offset = h'.offset) : b = b' := by
  obtain ⟨i, hi, rfl⟩ := hat
  obtain ⟨j, hj, rfl⟩ := hat'
  dsimp only [handle] at hoffset
  have hil := (List.getElem?_eq_some_iff.mp hi).1
  have hjl := (List.getElem?_eq_some_iff.mp hj).1
  rcases Nat.lt_trichotomy i j with hlt | rfl | hlt
  · have := take_flatMap_lt E alignment blocks hlt hjl.le
    omega
  · exact Option.some.inj (hi.symm.trans hj)
  · have := take_flatMap_lt E alignment blocks hlt hil.le
    omega

theorem At.unique (hat : At E alignment blocks h b) (hat' : At E alignment blocks h b') :
    b = b' :=
  hat.eq_of_offset hat' rfl

end SstBlock

/-! ### Reads that agree -/

/-- `WriteRawBlock` wrote these blocks to the file. -/
structure TableFile.Holds (E : TableEnv) (T : TableFile) (alignment : Option ℕ)
    (blocks : List SstBlock) : Prop where
  file : ∃ rest, T.reader.file = blocks.flatMap (SstBlock.written E alignment) ++ rest
  aligned : 0 < T.reader.requiredBufferAlignment

/-- The read gives what was passed to `WriteRawBlock`. -/
def FetchState.GivesPlaintext (E : TableEnv) (T : TableFile) (alignment : Option ℕ)
    (blocks : List SstBlock) (st : FetchState) (c : BlockRead) : Prop :=
  ∀ b, SstBlock.At E alignment blocks c.handle b →
    (st.readBlockContents E T c).1 = .ok (c.expected E b)

/-- The read finds an uncompressed page. -/
def FetchState.hitsPage (T : TableFile) (st : FetchState) (c : BlockRead) : Prop :=
  T.persistentCache = some .uncompressed ∧ (st.persistentPages c.handle).isSome = true

/-- What the fetch of a block needs: it decrypts what was encrypted; no byte of the block was
decrypted in its prefetch buffer before; and a mapped file is not decrypted, not fetched ahead
and not copied to a cache of raw pages. -/
structure FetchState.Fetches (T : TableFile) (st : FetchState) (c : BlockRead) (b : SstBlock) :
    Prop where
  decrypt : c.decrypt = !b.isDataBlock
  clean : ∀ k ∈ c.prefetchBuffer, (st.prefetchBuffers k).Clean T.reader c.handle.offset
    c.blockSizeWithTrailer
  mapped : T.reader.mapped = true → c.decrypt = false ∧ c.prefetchBuffer = none ∧
    (T.persistentCache = some .compressed → c.fillCache = false)

/-- The condition on a read: it meets what a fetch needs or finds an uncompressed page, and a
cache of uncompressed pages is not handed compressed ones. -/
structure FetchState.ReadsAsWritten (E : TableEnv) (T : TableFile) (alignment : Option ℕ)
    (blocks : List SstBlock) (st : FetchState) (c : BlockRead) (b : SstBlock) : Prop where
  at_handle : SstBlock.At E alignment blocks c.handle b
  fetches : ¬ st.hitsPage T c → st.Fetches T c b
  uncompressed : T.persistentCache = some .uncompressed → b.type ≠ kNoCompression →
    c.doUncompress = true

/-- What the persistent cache keeps of a block. -/
def SstBlock.PageIs (E : TableEnv) (b : SstBlock) (page : Bytes) :
    Option PersistentCacheKind → Prop
  | none => True
  | some .uncompressed => some page = b.full E
  | some .compressed => page =
      (if b.isDataBlock then b.contents
        else b.contents ++ (E.digest E.sstKey (E.cipher.enc E.sstKey b.contents)).val) ++
      (b.raw E).trailer

/-- The invariant of a run. -/
structure FetchState.Sound (E : TableEnv) (T : TableFile) (alignment : Option ℕ)
    (blocks : List SstBlock) (st : FetchState) : Prop where
  aligned : ∀ k, (st.prefetchBuffers k).Aligned T.reader
  pages : ∀ h b, SstBlock.At E alignment blocks h b → ∀ page ∈ st.persistentPages h,
    b.PageIs E page T.persistentCache

section Fetch

variable {E : TableEnv} {T : TableFile} {alignment : Option ℕ} {blocks : List SstBlock}
  {st : FetchState} {c : BlockRead} {b : SstBlock}

/-- What a fetcher makes of the bytes of a block. -/
def BlockFetcher.contents (E : TableEnv) (f : BlockFetcher) (type : UInt8) (plain : Bytes) :
    Option Bytes :=
  if f.doUncompress ∧ type ≠ kNoCompression then E.uncompress type plain else some plain

theorem finish_eq_contents (f : BlockFetcher) (buf : UsedBuf) (type : UInt8)
    (plain rest : Bytes) (loaded : List (Origin × Bytes)) :
    (f.finish E buf type (plain ++ rest) plain.length loaded).1 = f.contents E type plain := by
  unfold BlockFetcher.finish BlockFetcher.contents
  rw [List.take_left]
  split_ifs <;> rfl

theorem readBlockContents_fetched (f : BlockFetcher) (b : RawBlock)
    (hsource : f.source = .prefetchBuffer ∨ f.source = .file) :
    (f.readBlockContents E b).1 =
      if f.decrypt then
        BlockFetcher.checkHmac E b.data >>= fun plain =>
          if f.usedBuf (b.data.length + kBlockTrailerSize) = .mapped then .error .outOfBuffer
          else .ok (f.contents E b.type plain)
      else .ok (f.contents E b.type b.data) := by
  have hraw : ∀ loaded, (f.finish E (f.usedBuf (b.data.length + kBlockTrailerSize)) b.type b.data
      b.data.length loaded).1 = f.contents E b.type b.data := by
    intro loaded
    have h := finish_eq_contents (E := E) f (f.usedBuf (b.data.length + kBlockTrailerSize))
      b.type b.data [] loaded
    rwa [List.append_nil] at h
  unfold BlockFetcher.readBlockContents
  rcases hsource with h | h
  all_goals
    rw [h]
    by_cases hd : f.decrypt = true
    · rw [if_pos hd]
      simp only [if_pos hd]
      cases BlockFetcher.checkHmac E b.data with
      | error e => rfl
      | ok plain =>
          dsimp only
          rw [Outcome.ok_bind]
          by_cases hm : f.usedBuf (b.data.length + kBlockTrailerSize) = .mapped
          · rw [if_pos hm, if_pos hm]
          · rw [if_neg hm, if_neg hm]
            exact congrArg Except.ok (finish_eq_contents f _ _ _ _ _)
    · rw [if_neg hd]
      simp only [if_neg hd]
      exact congrArg Except.ok (hraw _)

/-- Decrypting the block that was written gives what was passed to `WriteRawBlock`. -/
theorem checkHmac_raw (hb : b.isDataBlock = false) :
    BlockFetcher.checkHmac E (b.raw E).data = .ok b.contents := by
  have hmac := (E.digest E.sstKey (E.cipher.enc E.sstKey b.contents)).property
  rw [SstBlock.raw_of_not_data hb]
  obtain ⟨encrypted, henc⟩ : ∃ e, e = E.cipher.enc E.sstKey b.contents := ⟨_, rfl⟩
  rw [← henc] at hmac ⊢
  have hlen : (encrypted ++ (E.digest E.sstKey encrypted).val).length - kHmacSize =
      encrypted.length := by
    rw [List.length_append, hmac, kHmacSize, Nat.add_sub_cancel]
  rw [BlockFetcher.checkHmac, if_neg (by rw [List.length_append, hmac, kHmacSize]; omega)]
  dsimp only
  rw [hlen, List.take_left, List.drop_left, if_pos rfl, henc, E.cipher.dec_enc]

/-- A block that is fetched as it was written, from the prefetch buffer or from the file. -/
theorem readBlockContents_raw (source : BlockSource) (hdecrypt : c.decrypt = !b.isDataBlock)
    (hsource : source = .prefetchBuffer ∨
      source = .file ∧ (T.reader.mapped = true → c.decrypt = false)) :
    ((c.fetcher T.reader source).readBlockContents E (b.raw E)).1 = .ok (c.expected E b) := by
  have htype := SstBlock.raw_type E b
  have hbuf : c.decrypt = true → (c.fetcher T.reader source).usedBuf
      ((b.raw E).data.length + kBlockTrailerSize) ≠ .mapped := by
    intro hd
    rcases hsource with rfl | ⟨rfl, hmapped⟩
    · exact fun h => nomatch h
    · have hmap : T.reader.mapped = false := by
        rw [← Bool.not_eq_true]
        intro hm
        rw [hmapped hm] at hd
        cases hd
      rw [FileReader.mapped] at hmap
      unfold BlockFetcher.usedBuf BlockRead.fetcher
      dsimp only
      split_ifs with h₁ h₂
      · exact fun h => nomatch h
      · rw [h₂, Bool.true_and, Bool.not_eq_false'] at hmap
        exact absurd hmap h₁
      all_goals exact fun h => nomatch h
  have hfetch : (c.fetcher T.reader source).source = .prefetchBuffer ∨
      (c.fetcher T.reader source).source = .file := by
    rcases hsource with rfl | ⟨rfl, -⟩
    · exact Or.inl rfl
    · exact Or.inr rfl
  rw [readBlockContents_fetched _ _ hfetch, htype]
  cases hb : b.isDataBlock with
  | true =>
      have hd : (c.fetcher T.reader source).decrypt = false := by
        rw [hb] at hdecrypt
        exact hdecrypt
      rw [if_neg (by rw [hd]; decide), SstBlock.raw_of_data hb]
      rfl
  | false =>
      have hd : (c.fetcher T.reader source).decrypt = true := by
        rw [hb] at hdecrypt
        exact hdecrypt
      rw [if_pos hd, checkHmac_raw hb, Outcome.ok_bind, if_neg (hbuf hd)]
      rfl

theorem SstBlock.At.size_eq (hat : SstBlock.At E alignment blocks c.handle b) :
    c.handle.size = (b.raw E).data.length := by
  obtain ⟨i, -, h⟩ := hat
  rw [h, SstBlock.handle]

/-- A block from a cache of raw pages, which keeps what was decrypted. -/
theorem readBlockContents_page (hat : SstBlock.At E alignment blocks c.handle b)
    (hdecrypt : c.decrypt = !b.isDataBlock) {page : Bytes}
    (hpage : b.PageIs E page (some .compressed)) (other : RawBlock) :
    ((c.fetcher T.reader (.rawPage (.ofBytes c.handle.size page))).readBlockContents E other).1 =
      .ok (c.expected E b) := by
  obtain ⟨mac, hmac⟩ : ∃ m, m = E.digest E.sstKey (E.cipher.enc E.sstKey b.contents) := ⟨_, rfl⟩
  have hlen := mac.property
  have hsize := hat.size_eq.trans (SstBlock.length_raw_data E b)
  have htype := SstBlock.raw_type E b
  rw [SstBlock.PageIs, ← hmac] at hpage
  cases hb : b.isDataBlock with
  | true =>
      rw [if_pos hb] at hpage hsize
      have hd : c.decrypt = false := by
        rw [hdecrypt, hb]
        rfl
      have hblock : RawBlock.ofBytes c.handle.size page =
          ⟨b.contents, (b.raw E).type, (b.raw E).unset⟩ := by
        have h := RawBlock.ofBytes_append ⟨b.contents, (b.raw E).type, (b.raw E).unset⟩
        rw [hpage, hsize]
        exact h
      rw [hblock, htype]
      have hfinish := finish_eq_contents (E := E) (c.fetcher T.reader
        (.rawPage ⟨b.contents, b.type, (b.raw E).unset⟩)) .page b.type b.contents [] []
      rw [List.append_nil] at hfinish
      unfold BlockFetcher.readBlockContents
      simp only [BlockRead.fetcher, hd, Bool.false_eq_true, false_and, if_false]
      exact congrArg Except.ok hfinish
  | false =>
      have hb' : ¬b.isDataBlock = true := by
        rw [hb]
        decide
      rw [if_neg hb'] at hpage hsize
      have hd : c.decrypt = true := by
        rw [hdecrypt, hb]
        rfl
      have hdata : (b.contents ++ mac.val).length = c.handle.size := by
        rw [List.length_append, hlen, hsize, kHmacSize]
      have hblock : RawBlock.ofBytes c.handle.size page =
          ⟨b.contents ++ mac.val, (b.raw E).type, (b.raw E).unset⟩ := by
        have h := RawBlock.ofBytes_append ⟨b.contents ++ mac.val, (b.raw E).type, (b.raw E).unset⟩
        rw [hpage, ← hdata]
        exact h
      rw [hblock, htype]
      have hfinish := finish_eq_contents (E := E) (c.fetcher T.reader
        (.rawPage ⟨b.contents ++ mac.val, b.type, (b.raw E).unset⟩)) .page b.type b.contents
        mac.val []
      have hcut : (b.contents ++ mac.val).length - kHmacSize = b.contents.length := by
        rw [hdata, hsize, Nat.add_sub_cancel]
      unfold BlockFetcher.readBlockContents
      simp only [BlockRead.fetcher, hd, true_and, if_true, hcut]
      rw [if_neg (by rw [hdata, hsize]; omega)]
      exact congrArg Except.ok hfinish

/-! ### One read -/

theorem locate_cases (T : TableFile) (st : FetchState) (c : BlockRead) :
    (∃ page, T.persistentCache = some .uncompressed ∧ st.persistentPages c.handle = some page ∧
        st.locate T c = (.uncompressedPage page, [], st)) ∨
      (∃ bytes, ¬ st.hitsPage T c ∧ (st.tryReadFromCache T c).1 = some bytes ∧
        st.locate T c = (.prefetchBuffer, bytes, (st.tryReadFromCache T c).2)) ∨
      (∃ page, ¬ st.hitsPage T c ∧ T.persistentCache = some .compressed ∧
        st.persistentPages c.handle = some page ∧ st.locate T c =
          (.rawPage (.ofBytes c.handle.size page), page, (st.tryReadFromCache T c).2)) ∨
      ¬ st.hitsPage T c ∧ (st.tryReadFromCache T c).1 = none ∧
        st.locate T c = (.file, T.reader.file.slice c.handle.offset c.blockSizeWithTrailer,
          (st.tryReadFromCache T c).2) := by
  obtain ⟨bytes, st', htry⟩ : ∃ bytes st', st.tryReadFromCache T c = (bytes, st') := ⟨_, _, rfl⟩
  unfold FetchState.locate FetchState.hitsPage
  rw [htry]
  rcases hcache : T.persistentCache with _ | _ | _ <;>
    rcases hpage : st.persistentPages c.handle with _ | page <;> rcases bytes with _ | bytes <;>
    simp

theorem tryReadFromCache_pages (T : TableFile) (st : FetchState) (c : BlockRead) :
    (st.tryReadFromCache T c).2.persistentPages = st.persistentPages := by
  unfold FetchState.tryReadFromCache
  cases c.prefetchBuffer <;> rfl

theorem FetchState.Sound.update (h : st.Sound E T alignment blocks) (k : ℕ)
    {p : FilePrefetchBuffer} (hp : p.Aligned T.reader) :
    FetchState.Sound E T alignment blocks
      { st with prefetchBuffers := Function.update st.prefetchBuffers k p } := by
  refine ⟨fun j => ?_, h.pages⟩
  dsimp only
  by_cases hj : j = k
  · rw [hj, Function.update_self]
    exact hp
  · rw [Function.update_of_ne hj]
    exact h.aligned j

theorem FetchState.Sound.tryReadFromCache (h : st.Sound E T alignment blocks) (c : BlockRead) :
    (st.tryReadFromCache T c).2.Sound E T alignment blocks := by
  unfold FetchState.tryReadFromCache
  cases c.prefetchBuffer with
  | none => exact h
  | some k => exact h.update k (h.aligned k).tryReadFromCache

theorem FetchState.Sound.setPage (h : st.Sound E T alignment blocks)
    (hat : SstBlock.At E alignment blocks c.handle b) {page : Bytes}
    (hpage : b.PageIs E page T.persistentCache) :
    FetchState.Sound E T alignment blocks
      { st with persistentPages := Function.update st.persistentPages c.handle (some page) } := by
  refine ⟨h.aligned, fun h' b' hat' page' hpage' => ?_⟩
  dsimp only at hpage'
  by_cases hh : h' = c.handle
  · rw [hh, Function.update_self] at hpage'
    rw [hh] at hat'
    obtain rfl := Option.some.inj hpage'
    rwa [hat'.unique hat]
  · rw [Function.update_of_ne hh] at hpage'
    exact h.pages h' b' hat' page' hpage'

/-- What goes to a cache of raw pages is the decrypted block. -/
theorem pageIs_usedBytes (hat : SstBlock.At E alignment blocks c.handle b)
    (hdecrypt : c.decrypt = !b.isDataBlock) (hmapped : T.reader.mapped = false) :
    b.PageIs E (c.usedBytes E T.reader ((b.raw E).data ++ (b.raw E).trailer))
      (some .compressed) := by
  have hsize := hat.size_eq.trans (SstBlock.length_raw_data E b)
  rw [BlockRead.usedBytes, hmapped, SstBlock.PageIs]
  cases hb : b.isDataBlock with
  | true =>
      have hd : c.decrypt = false := by
        rw [hdecrypt, hb]
        rfl
      rw [hd, SstBlock.raw_of_data hb]
      rfl
  | false =>
      have hd : c.decrypt = true := by
        rw [hdecrypt, hb]
        rfl
      have hb' : ¬b.isDataBlock = true := by
        rw [hb]
        decide
      rw [if_neg hb'] at hsize
      obtain ⟨encrypted, henc⟩ : ∃ e, e = E.cipher.enc E.sstKey b.contents := ⟨_, rfl⟩
      have hlen : c.handle.size - kHmacSize = encrypted.length := by
        rw [hsize, Nat.add_sub_cancel, henc, E.cipher.length_enc]
      rw [hd, hlen, SstBlock.raw_of_not_data hb, ← henc]
      simp only [Bool.false_eq_true, if_false, if_true, List.append_assoc, List.take_left,
        List.drop_left]
      rw [henc, E.cipher.dec_enc]

theorem tryReadFromCache_served (hfile : T.Holds E alignment blocks)
    (h : st.Sound E T alignment blocks) (hread : st.Fetches T c b)
    (hat : SstBlock.At E alignment blocks c.handle b) {bytes : Bytes}
    (htry : (st.tryReadFromCache T c).1 = some bytes) :
    bytes = (b.raw E).data ++ (b.raw E).trailer := by
  obtain ⟨rest, hrest⟩ := hfile.file
  obtain ⟨hslice, hlen⟩ := hat.slice_file rest
  rw [← hrest] at hslice hlen
  rw [FetchState.tryReadFromCache] at htry
  cases hk : c.prefetchBuffer with
  | none =>
      rw [hk] at htry
      cases htry
  | some k =>
      rw [hk] at htry
      have hmapped : T.reader.mapped = false := by
        rw [← Bool.not_eq_true]
        intro hm
        have hnone := (hread.mapped hm).2.1
        rw [hk] at hnone
        cases hnone
      have heq := FilePrefetchBuffer.tryReadFromCache_eq hfile.aligned hmapped (h.aligned k)
        (hread.clean k hk) hlen htry
      rw [heq, BlockRead.blockSizeWithTrailer, hslice]

theorem expected_eq_full (h : b.type ≠ kNoCompression → c.doUncompress = true) :
    c.expected E b = b.full E := by
  rw [BlockRead.expected, SstBlock.full]
  by_cases htype : b.type = kNoCompression
  · rw [if_neg (fun h => h.2 htype), if_neg (not_not.mpr htype)]
  · rw [if_pos ⟨h htype, htype⟩, if_pos htype]

/-- A read that meets the condition gives what was written and keeps the invariant. -/
theorem FetchState.Sound.readBlockContents (hfile : T.Holds E alignment blocks)
    (h : st.Sound E T alignment blocks) (hread : st.ReadsAsWritten E T alignment blocks c b) :
    (st.readBlockContents E T c).1 = .ok (c.expected E b) ∧
      (st.readBlockContents E T c).2.Sound E T alignment blocks := by
  have hat := hread.at_handle
  obtain ⟨rest, hrest⟩ := hfile.file
  obtain ⟨hslice, hlen⟩ := hat.slice_file rest
  rw [← hrest] at hslice hlen
  have hsize := hat.size_eq
  have hblock : RawBlock.ofBytes c.handle.size ((b.raw E).data ++ (b.raw E).trailer) = b.raw E := by
    rw [hsize]
    exact RawBlock.ofBytes_append _
  have htried := h.tryReadFromCache c
  rcases locate_cases T st c with ⟨page, hkind, hpage, hloc⟩ | ⟨bytes, hmiss, htry, hloc⟩ |
    ⟨page, hmiss, hkind, hpage, hloc⟩ | ⟨hmiss, htry, hloc⟩
  · have hsource : ((c.fetcher T.reader (.uncompressedPage page)).readBlockContents E
        (RawBlock.ofBytes c.handle.size [])).1 = .ok (some page) := rfl
    have hkeeps := h.pages c.handle b hat page hpage
    rw [hkind] at hkeeps
    unfold FetchState.readBlockContents
    rw [hloc]
    dsimp only
    rw [if_neg (fun h => nomatch h.1), hsource]
    refine ⟨?_, h⟩
    rw [expected_eq_full (hread.uncompressed hkind)]
    exact congrArg Except.ok hkeeps
  · have hfetch := hread.fetches hmiss
    obtain rfl := tryReadFromCache_served hfile h hfetch hat htry
    have hsource := readBlockContents_raw (E := E) (T := T) .prefetchBuffer hfetch.decrypt
      (Or.inl rfl)
    unfold FetchState.readBlockContents
    rw [hloc]
    dsimp only
    rw [if_neg (fun h => nomatch h.1), hblock, hsource]
    refine ⟨rfl, ?_⟩
    dsimp only
    unfold FetchState.afterwards
    dsimp only
    cases c.prefetchBuffer with
    | none => exact htried
    | some k =>
        dsimp only
        split_ifs
        · exact htried.update k ((htried.aligned k).overwrite _)
        · exact htried
  · have hfetch := hread.fetches hmiss
    have hkeeps := h.pages c.handle b hat page hpage
    rw [hkind] at hkeeps
    have hsource := readBlockContents_page (T := T) hat hfetch.decrypt hkeeps
      (RawBlock.ofBytes c.handle.size page)
    unfold FetchState.readBlockContents
    rw [hloc]
    dsimp only
    rw [if_neg (fun h => nomatch h.1), hsource]
    exact ⟨rfl, htried⟩
  · have hfetch := hread.fetches hmiss
    have hbytes : T.reader.file.slice c.handle.offset c.blockSizeWithTrailer =
        (b.raw E).data ++ (b.raw E).trailer := hslice
    have hwhole : ((b.raw E).data ++ (b.raw E).trailer).length = c.blockSizeWithTrailer := by
      rw [List.length_append, RawBlock.length_trailer, BlockRead.blockSizeWithTrailer, hsize]
    have hsource := readBlockContents_raw (E := E) (T := T) .file hfetch.decrypt (Or.inr
      ⟨rfl, fun hm => (hfetch.mapped hm).1⟩)
    unfold FetchState.readBlockContents
    rw [hloc]
    dsimp only
    rw [hbytes, if_neg (fun h => h.2 hwhole), hblock, hsource]
    refine ⟨rfl, ?_⟩
    dsimp only
    unfold FetchState.afterwards
    dsimp only
    split
    · next hfill hkind =>
        apply htried.setPage hat
        rw [hkind]
        apply pageIs_usedBytes hat hfetch.decrypt
        rw [← Bool.not_eq_true]
        intro hm
        have hno := (hfetch.mapped hm).2.2 hkind
        rw [hfill] at hno
        cases hno
    · next contents _ hkind hcontents =>
        apply htried.setPage hat
        rw [hkind, SstBlock.PageIs, ← hcontents, expected_eq_full (hread.uncompressed hkind)]
    · exact htried

/-- Where the bytes of a block are found, its type stands behind them. -/
theorem FetchState.Sound.locate_type (hfile : T.Holds E alignment blocks)
    (h : st.Sound E T alignment blocks) (hread : st.ReadsAsWritten E T alignment blocks c b) :
    (∃ page, st.hitsPage T c ∧ st.locate T c = (.uncompressedPage page, [], st)) ∨
      ∃ source bytes st', st.locate T c = (source, bytes, st') ∧
        (∀ page, source ≠ .uncompressedPage page) ∧
        (RawBlock.ofBytes c.handle.size bytes).type = b.type := by
  have hat := hread.at_handle
  obtain ⟨rest, hrest⟩ := hfile.file
  obtain ⟨hslice, -⟩ := hat.slice_file rest
  rw [← hrest] at hslice
  have hblock : (RawBlock.ofBytes c.handle.size ((b.raw E).data ++ (b.raw E).trailer)).type =
      b.type := by
    rw [hat.size_eq, RawBlock.ofBytes_append, SstBlock.raw_type]
  rcases locate_cases T st c with ⟨page, hkind, hpage, hloc⟩ | ⟨bytes, hmiss, htry, hloc⟩ |
    ⟨page, hmiss, hkind, hpage, hloc⟩ | ⟨hmiss, htry, hloc⟩
  · exact Or.inl ⟨page, ⟨hkind, by rw [hpage]; rfl⟩, hloc⟩
  · obtain rfl := tryReadFromCache_served hfile h (hread.fetches hmiss) hat htry
    exact Or.inr ⟨_, _, _, hloc, (fun _ h => nomatch h), hblock⟩
  · refine Or.inr ⟨_, _, _, hloc, (fun _ h => nomatch h), ?_⟩
    have hkeeps := h.pages c.handle b hat page hpage
    rw [hkind, SstBlock.PageIs] at hkeeps
    obtain ⟨front, hfront⟩ : ∃ front, front = if b.isDataBlock then b.contents
        else b.contents ++ (E.digest E.sstKey (E.cipher.enc E.sstKey b.contents)).val := ⟨_, rfl⟩
    have hlen : front.length = c.handle.size := by
      rw [hat.size_eq, SstBlock.length_raw_data, hfront]
      split_ifs
      · rfl
      · rw [List.length_append, (E.digest _ _).property, kHmacSize]
    have hpageBlock := congrArg RawBlock.type
      (RawBlock.ofBytes_append ⟨front, (b.raw E).type, (b.raw E).unset⟩)
    rw [hkeeps, ← hfront, ← hlen, ← SstBlock.raw_type E b]
    exact hpageBlock
  · rw [BlockRead.blockSizeWithTrailer, hslice] at hloc
    exact Or.inr ⟨_, _, _, hloc, (fun _ h => nomatch h), hblock⟩

/-- A fetcher that knows no persistent cache leaves its pages alone. -/
theorem readBlockContents_pages (hnone : T.persistentCache = none) :
    (st.readBlockContents E T c).2.persistentPages = st.persistentPages := by
  have hpages := tryReadFromCache_pages T st c
  have hafter : ∀ source bytes contents,
      ((st.tryReadFromCache T c).2.afterwards E T c source bytes contents).persistentPages =
        st.persistentPages := by
    intro source bytes contents
    unfold FetchState.afterwards
    rw [hnone]
    cases source with
    | uncompressedPage page => exact hpages
    | rawPage page => exact hpages
    | prefetchBuffer =>
        cases c.prefetchBuffer with
        | none => exact hpages
        | some k =>
            dsimp only
            split_ifs <;> exact hpages
    | file => cases c.fillCache <;> exact hpages
  unfold FetchState.readBlockContents
  rcases locate_cases T st c with ⟨page, hkind, -⟩ | ⟨bytes, -, -, hloc⟩ |
    ⟨page, -, hkind, -⟩ | ⟨-, -, hloc⟩
  · rw [hnone] at hkind
    cases hkind
  · rw [hloc]
    dsimp only
    rw [if_neg (fun h => nomatch h.1)]
    split
    · exact hpages
    · exact hafter _ _ _
  · rw [hnone] at hkind
    cases hkind
  · rw [hloc]
    dsimp only
    split_ifs
    · exact hpages
    · split
      · exact hpages
      · exact hafter _ _ _

/-! ### Runs -/

theorem FetchState.sound_initial : FetchState.initial.Sound E T alignment blocks :=
  ⟨fun _ => FilePrefetchBuffer.aligned_create 0 0 false, fun _ _ _ _ h => nomatch h⟩

theorem FetchState.Sound.next (hfile : T.Holds E alignment blocks)
    (h : st.Sound E T alignment blocks) {step : FetchStep}
    (hread : ∀ c, step = .read c → ∃ b, st.ReadsAsWritten E T alignment blocks c b) :
    (st.next E T step).Sound E T alignment blocks := by
  cases step with
  | read c =>
      obtain ⟨b, hb⟩ := hread c rfl
      exact (h.readBlockContents hfile hb).2
  | newBuffer k a m e => exact h.update k (FilePrefetchBuffer.aligned_create a m e)
  | prefetch k offset n => exact h.update k (h.aligned k).prefetch
  | evict handle =>
      refine ⟨h.aligned, fun h' b' hat' page' hpage' => h.pages h' b' hat' page' ?_⟩
      dsimp only [FetchState.next] at hpage'
      by_cases hh : h' = handle
      · rw [hh, Function.update_self] at hpage'
        cases hpage'
      · rwa [Function.update_of_ne hh] at hpage'

theorem FetchState.Sound.eachRead (hfile : T.Holds E alignment blocks)
    (h : st.Sound E T alignment blocks) (steps : List FetchStep)
    (hsteps : FetchState.EachRead E T
      (fun st c => ∃ b, st.ReadsAsWritten E T alignment blocks c b) st steps) :
    FetchState.EachRead E T (FetchState.GivesPlaintext E T alignment blocks) st steps := by
  induction steps generalizing st with
  | nil => trivial
  | cons step steps ih =>
      obtain ⟨hread, hrest⟩ := hsteps
      refine ⟨fun c hc b' hat' => ?_, ih (h.next hfile hread) hrest⟩
      obtain ⟨b, hb⟩ := hread c hc
      rw [hat'.unique hb.at_handle]
      exact (h.readBlockContents hfile hb).1

end Fetch

/-- In a run whose reads all meet the condition each gives what was written, wherever its bytes
come from. -/
theorem eachRead_givesPlaintext (E : TableEnv) (T : TableFile) (alignment : Option ℕ)
    (blocks : List SstBlock) (hfile : T.Holds E alignment blocks) (steps : List FetchStep)
    (hsteps : FetchState.EachRead E T
      (fun st c => ∃ b, st.ReadsAsWritten E T alignment blocks c b) .initial steps) :
    FetchState.EachRead E T (FetchState.GivesPlaintext E T alignment blocks) .initial steps :=
  FetchState.sound_initial.eachRead hfile steps hsteps

/-- A block that is not a data block. -/
theorem length_unset : ([0, 0, 0, 0] : Bytes).length = 4 := rfl

def sampleMetaBlock : SstBlock := ⟨[1, 2, 3], kNoCompression, false, ⟨[0, 0, 0, 0], length_unset⟩⟩

/-- A file of one block, read into buffers. -/
def sampleTableFile : TableFile where
  reader := {
    file := [sampleMetaBlock].flatMap (SstBlock.written sampleTableEnv none)
    requiredBufferAlignment := 1
    useDirectIo := false
    allowMmapReads := false
    unfilled n := ⟨Bytes.zeros n, Bytes.length_zeros n⟩ }
  persistentCache := none

theorem sampleTableFile_holds : sampleTableFile.Holds sampleTableEnv none [sampleMetaBlock] :=
  ⟨⟨[], (List.append_nil _).symm⟩, by decide⟩

def sampleBlockRead (prefetchBuffer : Option ℕ) : BlockRead where
  handle := ⟨0, 51⟩
  prefetchBuffer := prefetchBuffer
  doUncompress := false
  maybeCompressed := false
  sameAllocator := true
  decrypt := true
  fillCache := true

/-- The block is fetched ahead and read, and read again from the file. -/
def readOnce : List FetchStep :=
  [.newBuffer 0 0 0 true, .prefetch 0 0 56, .read (sampleBlockRead (some 0)),
    .read (sampleBlockRead none)]

theorem sampleMetaBlock_at (buffer : Option ℕ) :
    SstBlock.At sampleTableEnv none [sampleMetaBlock] (sampleBlockRead buffer).handle
      sampleMetaBlock :=
  ⟨0, rfl, rfl⟩

theorem eachRead_givesPlaintext_readOnce :
    FetchState.EachRead sampleTableEnv sampleTableFile
      (FetchState.GivesPlaintext sampleTableEnv sampleTableFile none [sampleMetaBlock])
      .initial readOnce := by
  have hcond : ∀ st buffer, (∀ k ∈ buffer, (st.prefetchBuffers k).Clean sampleTableFile.reader 0
      56) → ∃ b, FetchState.ReadsAsWritten sampleTableEnv sampleTableFile none [sampleMetaBlock]
        st (sampleBlockRead buffer) b := by
    intro st buffer hclean
    exact ⟨sampleMetaBlock, sampleMetaBlock_at buffer, fun _ => ⟨rfl, hclean, fun h => nomatch h⟩,
      fun h => nomatch h⟩
  apply eachRead_givesPlaintext _ _ _ _ sampleTableFile_holds
  refine ⟨(fun c h => nomatch h), (fun c h => nomatch h), ?_, ?_, trivial⟩
  · rintro c ⟨⟩
    apply hcond
    intro k hk
    obtain rfl := Option.some.inj hk
    decide +kernel
  · rintro c ⟨⟩
    exact hcond _ none (fun k hk => nomatch hk)

/-- The block is read twice through the buffer. -/
theorem readTwice_not_givesPlaintext :
    ¬ FetchState.EachRead sampleTableEnv sampleTableFile
      (FetchState.GivesPlaintext sampleTableEnv sampleTableFile none [sampleMetaBlock]) .initial
      [.newBuffer 0 0 0 true, .prefetch 0 0 56, .read (sampleBlockRead (some 0)),
        .read (sampleBlockRead (some 0))] := by
  rintro ⟨-, -, -, hread, -⟩
  have hgives := hread _ rfl sampleMetaBlock (sampleMetaBlock_at (some 0))
  have hexit : ((FetchState.initial.next sampleTableEnv sampleTableFile (.newBuffer 0 0 0 true)
      |>.next sampleTableEnv sampleTableFile (.prefetch 0 0 56)
      |>.next sampleTableEnv sampleTableFile (.read (sampleBlockRead (some 0)))).readBlockContents
        sampleTableEnv sampleTableFile (sampleBlockRead (some 0))).1 = .error .exit := by
    decide +kernel
  rw [hexit] at hgives
  cases hgives

end Tweezer
