import Tweezer.BlockReads

/-!
# The readers of the blocks of a table

The functions of `table/block_based/block_based_table_reader.cc` and `table/meta_blocks.cc` that
fetch a block: each hands its own flags to the fetcher, and two look into the block caches first.
What was encrypted has to be decrypted once, also when the block comes out of a cache.
-/

namespace Tweezer

/-- The options of a table that its readers look at. -/
structure ReaderOptions where
  file : TableFile
  blockCache : Bool
  blockCacheCompressed : Bool
  blocksMaybeCompressed : Bool

/-- What outlives a call of a reader. The cache of compressed blocks keeps their types. -/
structure ReaderState where
  fetch : FetchState
  blockCache : BlockHandle → Option Bytes
  blockCacheCompressed : BlockHandle → Option (UInt8 × Bytes)

inductive BlockReader where
  | readMetaIndexBlock
  | readProperties
  | readTableProperties
  | findMetaBlock
  | readMetaBlock
  | maybeReadBlockAndLoadToCache (type : BlockType)
  | retrieveBlock (type : BlockType) (useCache : Bool)
  deriving DecidableEq

/-- A call of a reader for a block of the file. -/
structure ReaderCall where
  reader : BlockReader
  handle : BlockHandle
  prefetchBuffer : Option ℕ
  sameAllocator : Bool
  noIo : Bool
  fillCache : Bool
  deriving DecidableEq

/-- `maybe_compressed` for a block of this type. -/
def ReaderOptions.maybeCompressed (o : ReaderOptions) (type : BlockType) : Bool :=
  type ≠ .filter ∧ type ≠ .compressionDictionary ∧ o.blocksMaybeCompressed

/-- The functions of `meta_blocks.cc` know no persistent cache. -/
def ReaderOptions.withoutPersistentCache (o : ReaderOptions) : ReaderOptions :=
  { o with file := { o.file with persistentCache := none } }

namespace ReaderCall

variable (o : ReaderOptions) (c : ReaderCall)

/-- The fetch of `ReadMetaIndexBlock`. -/
def readMetaIndexBlock : BlockRead where
  handle := c.handle
  prefetchBuffer := c.prefetchBuffer
  doUncompress := true
  maybeCompressed := true
  sameAllocator := c.sameAllocator
  decrypt := true
  fillCache := c.fillCache

/-- The fetch of `ReadProperties`. -/
def readProperties : BlockRead where
  handle := c.handle
  prefetchBuffer := c.prefetchBuffer
  doUncompress := false
  maybeCompressed := false
  sameAllocator := c.sameAllocator
  decrypt := true
  fillCache := c.fillCache

/-- The fetches of the metaindex in `ReadTableProperties`, and of both blocks in
`ReadMetaBlock`. The flag for decryption has its default. -/
def readMetaBlock : BlockRead where
  handle := c.handle
  prefetchBuffer := c.prefetchBuffer
  doUncompress := false
  maybeCompressed := false
  sameAllocator := c.sameAllocator
  decrypt := false
  fillCache := true

/-- The fetch of the metaindex in `FindMetaBlock`. -/
def findMetaBlock : BlockRead := { c.readMetaBlock with prefetchBuffer := none }

/-- The fetch of `MaybeReadBlockAndLoadToCache`. The flag for decryption has its default. -/
def loadToCache (type : BlockType) : BlockRead where
  handle := c.handle
  prefetchBuffer := c.prefetchBuffer
  doUncompress := o.maybeCompressed type && !o.blockCacheCompressed
  maybeCompressed := o.maybeCompressed type
  sameAllocator := c.sameAllocator
  decrypt := false
  fillCache := c.fillCache

/-- The fetch of `RetrieveBlock`. -/
def retrieve (type : BlockType) (useCache : Bool) : BlockRead where
  handle := c.handle
  prefetchBuffer := c.prefetchBuffer
  doUncompress := o.maybeCompressed type
  maybeCompressed := o.maybeCompressed type
  sameAllocator := c.sameAllocator
  decrypt := !useCache
  fillCache := c.fillCache

end ReaderCall

namespace ReaderState

variable (E : TableEnv) (o : ReaderOptions) (st : ReaderState) (c : ReaderCall)

def insertBlock (block : Bytes) : ReaderState :=
  if o.blockCache then
    { st with blockCache := Function.update st.blockCache c.handle (some block) }
  else st

/-- `GetDataBlockFromCache`: whether the status is OK, and the block that is found. -/
def getDataBlockFromCache : Bool × Option Bytes × ReaderState :=
  match o.blockCache, st.blockCache c.handle with
  | true, some block => (true, some block, st)
  | _, _ =>
      match o.blockCacheCompressed, st.blockCacheCompressed c.handle with
      | true, some (type, data) =>
          match E.uncompress type data with
          | none => (false, none, st)
          | some block =>
              (true, some block, if c.fillCache then st.insertBlock o c block else st)
      | _, _ => (true, none, st)

/-- `PutDataBlockToCache` with the contents that a fetcher gave, whose bytes may be the file's. -/
def putDataBlockToCache (type : UInt8) (ownBytes : Bool) (contents : Bytes) :
    Bool × Option Bytes × ReaderState :=
  if type ≠ kNoCompression then
    match E.uncompress type contents with
    | none => (false, none, st)
    | some block =>
        let st :=
          if o.blockCacheCompressed ∧ ownBytes then
            { st with
              blockCacheCompressed :=
                Function.update st.blockCacheCompressed c.handle (some (type, contents)) }
          else st
        (true, some block, st.insertBlock o c block)
  else (true, some contents, if ownBytes then st.insertBlock o c contents else st)

/-- `ReadBlockContents` of a fetcher over the file. -/
def readBlockContents (r : BlockRead) : Outcome (Option Bytes) × ReaderState :=
  let (contents, fetch) := st.fetch.readBlockContents E o.file r
  (contents, { st with fetch := fetch })

/-- `get_compression_type()` of the fetcher after the read, and whether the contents own their
bytes. -/
def compressionType (r : BlockRead) : UInt8 × Bool :=
  match st.fetch.locate o.file r with
  | (.uncompressedPage _, _, _) => (kNoCompression, true)
  | (source, bytes, _) =>
      (if r.doUncompress then kNoCompression else (RawBlock.ofBytes r.handle.size bytes).type,
        !(o.file.reader.mapped && source = .file))

/-- `MaybeReadBlockAndLoadToCache`: whether the status is OK, and the block. -/
def maybeReadBlockAndLoadToCache (type : BlockType) :
    Outcome (Bool × Option Bytes) × ReaderState :=
  if o.blockCache = false ∧ o.blockCacheCompressed = false then (.ok (true, none), st)
  else
    let (ok, found, st) := st.getDataBlockFromCache E o c
    if found.isNone ∧ c.noIo = false ∧ c.fillCache = true then
      let (compression, ownBytes) := st.compressionType o (c.loadToCache o type)
      match st.readBlockContents E o (c.loadToCache o type) with
      | (.error e, st) => (.error e, st)
      | (.ok none, st) => (.ok (false, none), st)
      | (.ok (some contents), st) =>
          let (ok, block, st) := st.putDataBlockToCache E o c compression ownBytes contents
          (.ok (ok, block), st)
    else (.ok (ok, found), st)

/-- `RetrieveBlock` behind its look into the caches. -/
def readUncached (type : BlockType) (useCache : Bool) : Outcome (Option Bytes) × ReaderState :=
  if c.noIo then (.ok none, st) else st.readBlockContents E o (c.retrieve o type useCache)

/-- `RetrieveBlock`, `none` being a status that is not OK. -/
def retrieveBlock (type : BlockType) (useCache : Bool) : Outcome (Option Bytes) × ReaderState :=
  if useCache then
    match st.maybeReadBlockAndLoadToCache E o c type with
    | (.error e, st) => (.error e, st)
    | (.ok (false, _), st) => (.ok none, st)
    | (.ok (true, some block), st) => (.ok (some block), st)
    | (.ok (true, none), st) => st.readUncached E o c type useCache
  else st.readUncached E o c type useCache

/-- A call of a reader: the bytes it goes on with. `MaybeReadBlockAndLoadToCache` gives none
where it leaves the block entry empty. -/
def read : Outcome (Option Bytes) × ReaderState :=
  match c.reader with
  | .readMetaIndexBlock => st.readBlockContents E o c.readMetaIndexBlock
  | .readProperties => st.readBlockContents E o.withoutPersistentCache c.readProperties
  | .readTableProperties => st.readBlockContents E o.withoutPersistentCache c.readMetaBlock
  | .findMetaBlock => st.readBlockContents E o.withoutPersistentCache c.findMetaBlock
  | .readMetaBlock => st.readBlockContents E o.withoutPersistentCache c.readMetaBlock
  | .maybeReadBlockAndLoadToCache type =>
      match st.maybeReadBlockAndLoadToCache E o c type with
      | (.error e, st) => (.error e, st)
      | (.ok (_, block), st) => (.ok block, st)
  | .retrieveBlock type useCache => st.retrieveBlock E o c type useCache

end ReaderState

/-! ### What the calls should give -/

namespace ReaderCall

variable (o : ReaderOptions) (c : ReaderCall)

/-- The caches of blocks are there, and may be filled. -/
def LoadsToCache : Prop :=
  ¬(o.blockCache = false ∧ o.blockCacheCompressed = false) ∧ c.noIo = false ∧ c.fillCache = true

instance : Decidable (c.LoadsToCache o) := inferInstanceAs (Decidable (_ ∧ _ ∧ _))

/-- The fetch that the call makes if no cache of blocks has the block, and over which file. -/
def fetched : Option (TableFile × BlockRead) :=
  match c.reader with
  | .readMetaIndexBlock => some (o.file, c.readMetaIndexBlock)
  | .readProperties => some (o.withoutPersistentCache.file, c.readProperties)
  | .readTableProperties => some (o.withoutPersistentCache.file, c.readMetaBlock)
  | .findMetaBlock => some (o.withoutPersistentCache.file, c.findMetaBlock)
  | .readMetaBlock => some (o.withoutPersistentCache.file, c.readMetaBlock)
  | .maybeReadBlockAndLoadToCache type =>
      if c.LoadsToCache o then some (o.file, c.loadToCache o type) else none
  | .retrieveBlock type useCache =>
      if c.noIo then none
      else if useCache ∧ c.LoadsToCache o then some (o.file, c.loadToCache o type)
      else some (o.file, c.retrieve o type useCache)

/-- The call uncompresses what it reads. -/
def uncompresses : Bool :=
  match c.reader with
  | .readMetaIndexBlock => true
  | .maybeReadBlockAndLoadToCache _ => true
  | .retrieveBlock type useCache => o.maybeCompressed type || useCache && c.LoadsToCache o
  | _ => false

/-- The call may end without having looked into the file. -/
def MayBeEmpty : Prop :=
  match c.reader with
  | .maybeReadBlockAndLoadToCache _ => ¬ c.LoadsToCache o
  | .retrieveBlock _ _ => c.noIo = true
  | _ => False

end ReaderCall

namespace ReaderState

variable (E : TableEnv) (o : ReaderOptions) (alignment : Option ℕ) (blocks : List SstBlock)

/-- The call ends with the bytes that were written, once decrypted and uncompressed. -/
def GivesWritten (st : ReaderState) (c : ReaderCall) : Prop :=
  ∀ b, SstBlock.At E alignment blocks c.handle b →
    (st.read E o c).1 = .ok (b.full E) ∨ c.MayBeEmpty o ∧ (st.read E o c).1 = .ok none

/-- A cache of blocks has the block. -/
def CacheHas (st : ReaderState) (c : ReaderCall) : Prop :=
  o.blockCache = true ∧ (st.blockCache c.handle).isSome = true ∨
    o.blockCacheCompressed = true ∧ (st.blockCacheCompressed c.handle).isSome = true

/-- A cache of blocks has the block, and the call looks there. -/
def HitsBlockCache (st : ReaderState) (c : ReaderCall) : Prop :=
  st.CacheHas o c ∧ match c.reader with
    | .maybeReadBlockAndLoadToCache _ => True
    | .retrieveBlock _ useCache => useCache = true
    | _ => False

/-- The condition on a call: a cache of blocks has the block, or its fetch meets the condition on
fetches, so that it decrypts exactly what was encrypted. Blocks that are compressed are read by
calls that uncompress. -/
structure ReadsWritten (st : ReaderState) (c : ReaderCall) (b : SstBlock) : Prop where
  at_handle : SstBlock.At E alignment blocks c.handle b
  fetches : ¬ st.HitsBlockCache o c → ∀ T r, c.fetched o = some (T, r) →
    st.fetch.ReadsAsWritten E T alignment blocks r b
  uncompresses : b.type ≠ kNoCompression → c.uncompresses o = true

/-- The invariant of a run. -/
structure Sound (st : ReaderState) : Prop where
  fetch : st.fetch.Sound E o.file alignment blocks
  blockCache : ∀ h b, SstBlock.At E alignment blocks h b → ∀ block ∈ st.blockCache h,
    b.full E = some block
  blockCacheCompressed : ∀ h b, SstBlock.At E alignment blocks h b →
    ∀ raw ∈ st.blockCacheCompressed h, (E.uncompress raw.1 raw.2).isSome = true ∧
      b.full E = E.uncompress raw.1 raw.2

variable {E o alignment blocks} {st : ReaderState} {c : ReaderCall} {b : SstBlock} {r : BlockRead}

theorem Sound.insertBlock (h : st.Sound E o alignment blocks)
    (hat : SstBlock.At E alignment blocks c.handle b) {block : Bytes}
    (hblock : b.full E = some block) : (st.insertBlock o c block).Sound E o alignment blocks := by
  unfold ReaderState.insertBlock
  split_ifs
  · refine ⟨h.fetch, fun h' b' hat' block' hblock' => ?_, h.blockCacheCompressed⟩
    dsimp only at hblock'
    by_cases hh : h' = c.handle
    · rw [hh, Function.update_self] at hblock'
      rw [hh] at hat'
      obtain rfl := Option.some.inj hblock'
      rwa [hat'.unique hat]
    · rw [Function.update_of_ne hh] at hblock'
      exact h.blockCache h' b' hat' block' hblock'
  · exact h

@[simp] theorem insertBlock_fetch (st : ReaderState) (block : Bytes) :
    (st.insertBlock o c block).fetch = st.fetch := by
  unfold ReaderState.insertBlock
  split_ifs <;> rfl

/-- What the caches of blocks give is what was written. -/
theorem getDataBlockFromCache_spec (h : st.Sound E o alignment blocks)
    (hat : SstBlock.At E alignment blocks c.handle b) :
    ∃ found st', st.getDataBlockFromCache E o c = (true, found, st') ∧
      st'.Sound E o alignment blocks ∧ st'.fetch = st.fetch ∧
      (¬ st.CacheHas o c ∧ found = none ∨ st.CacheHas o c ∧ found.isSome ∧ found = b.full E) := by
  unfold getDataBlockFromCache CacheHas
  cases hcache : o.blockCache <;> cases hblock : st.blockCache c.handle <;>
    cases hcompressed : o.blockCacheCompressed <;>
    cases hraw : st.blockCacheCompressed c.handle
  all_goals try exact ⟨none, st, rfl, h, rfl, Or.inl ⟨by simp, rfl⟩⟩
  all_goals try
    exact ⟨_, st, rfl, h, rfl, Or.inr ⟨by simp, rfl, (h.blockCache _ _ hat _ hblock).symm⟩⟩
  all_goals
    obtain ⟨type, data⟩ := ‹UInt8 × Bytes›
    obtain ⟨hsome, hfull⟩ := h.blockCacheCompressed _ _ hat _ hraw
    obtain ⟨block, huncompress⟩ := Option.isSome_iff_exists.mp hsome
    dsimp only at huncompress hfull ⊢
    rw [huncompress] at hfull
    rw [huncompress]
    refine ⟨some block, _, rfl, ?_, ?_, Or.inr ⟨by simp, rfl, hfull.symm⟩⟩
    · split_ifs
      · exact h.insertBlock hat hfull
      · exact h
    · split_ifs
      · exact insertBlock_fetch _ _
      · rfl

theorem putDataBlockToCache_spec (h : st.Sound E o alignment blocks)
    (hat : SstBlock.At E alignment blocks c.handle b) {type : UInt8} {contents : Bytes}
    (hcontents : (if type ≠ kNoCompression then E.uncompress type contents else some contents) =
      b.full E) (ownBytes : Bool) :
    ∃ st', st.putDataBlockToCache E o c type ownBytes contents =
        ((b.full E).isSome, b.full E, st') ∧ st'.Sound E o alignment blocks := by
  unfold putDataBlockToCache
  by_cases htype : type ≠ kNoCompression
  · rw [if_pos htype] at hcontents ⊢
    cases hblock : E.uncompress type contents with
    | none =>
        rw [hblock] at hcontents
        rw [← hcontents]
        exact ⟨st, rfl, h⟩
    | some block =>
        rw [hblock] at hcontents
        rw [← hcontents]
        refine ⟨_, rfl, ?_⟩
        apply Sound.insertBlock _ hat hcontents.symm
        split_ifs
        · refine ⟨h.fetch, h.blockCache, fun h' b' hat' raw hraw => ?_⟩
          dsimp only at hraw
          by_cases hh : h' = c.handle
          · rw [hh, Function.update_self] at hraw
            rw [hh] at hat'
            obtain rfl := Option.some.inj hraw
            rw [hat'.unique hat, hblock]
            exact ⟨rfl, hcontents.symm⟩
          · rw [Function.update_of_ne hh] at hraw
            exact h.blockCacheCompressed h' b' hat' raw hraw
        · exact h
  · rw [if_neg htype] at hcontents ⊢
    rw [← hcontents]
    refine ⟨_, rfl, ?_⟩
    split_ifs
    · exact h.insertBlock hat hcontents.symm
    · exact h

/-- What a fetch gives, and the type that goes with it, make up what was written. -/
theorem Sound.compressionType (hfile : o.file.Holds E alignment blocks)
    (h : st.Sound E o alignment blocks)
    (hread : st.fetch.ReadsAsWritten E o.file alignment blocks r b) {contents : Bytes}
    (hcontents : r.expected E b = some contents) :
    (if (st.compressionType o r).1 ≠ kNoCompression then
        E.uncompress (st.compressionType o r).1 contents else some contents) = b.full E := by
  have hplain : (b.type ≠ kNoCompression → r.doUncompress = true) → some contents = b.full E := by
    intro hdo
    rw [← hcontents, expected_eq_full hdo]
  unfold ReaderState.compressionType
  rcases h.fetch.locate_type hfile hread with ⟨page, ⟨hkind, -⟩, hloc⟩ |
    ⟨source, bytes, st', hloc, hsource, htype⟩
  · rw [hloc]
    exact hplain (hread.uncompressed hkind)
  · rw [hloc]
    have hfinish : ∀ type, type = (if r.doUncompress then kNoCompression else b.type) →
        (if type ≠ kNoCompression then E.uncompress type contents else some contents) =
          b.full E := by
      rintro type rfl
      cases hdo : r.doUncompress with
      | true => exact hplain fun _ => hdo
      | false =>
          rw [BlockRead.expected, hdo, if_neg (by rintro ⟨⟨⟩, -⟩)] at hcontents
          obtain rfl := Option.some.inj hcontents
          rfl
    cases source with
    | uncompressedPage page => exact absurd rfl (hsource page)
    | rawPage page => exact hfinish _ (by dsimp only; rw [htype])
    | prefetchBuffer => exact hfinish _ (by dsimp only; rw [htype])
    | file => exact hfinish _ (by dsimp only; rw [htype])

theorem full_eq_none (h : r.expected E b = none) : b.full E = none := by
  rw [← h, expected_eq_full]
  intro _
  by_contra hdo
  rw [BlockRead.expected, if_neg (fun hand => hdo hand.1)] at h
  cases h

theorem Sound.readBlockContents (hfile : o.file.Holds E alignment blocks)
    (h : st.Sound E o alignment blocks)
    (hread : st.fetch.ReadsAsWritten E o.file alignment blocks r b) :
    (st.readBlockContents E o r).1 = .ok (r.expected E b) ∧
      (st.readBlockContents E o r).2.Sound E o alignment blocks := by
  obtain ⟨hgives, hsound⟩ := h.fetch.readBlockContents hfile hread
  exact ⟨hgives, hsound, h.blockCache, h.blockCacheCompressed⟩

/-- `MaybeReadBlockAndLoadToCache` gives what was written, or leaves the entry empty where it
may not fill the caches. -/
theorem maybeReadBlockAndLoadToCache_spec (hfile : o.file.Holds E alignment blocks)
    (h : st.Sound E o alignment blocks) (hat : SstBlock.At E alignment blocks c.handle b)
    (type : BlockType)
    (hread : ¬ st.CacheHas o c → c.LoadsToCache o →
      st.fetch.ReadsAsWritten E o.file alignment blocks (c.loadToCache o type) b) :
    ∃ block st', st.maybeReadBlockAndLoadToCache E o c type =
        (.ok (block.isSome || !decide (c.LoadsToCache o), block), st') ∧
      st'.Sound E o alignment blocks ∧
      (block = b.full E ∧ (c.LoadsToCache o ∨ block.isSome = true) ∨
        ¬ c.LoadsToCache o ∧ ¬ st.CacheHas o c ∧ block = none ∧ st'.fetch = st.fetch) := by
  unfold maybeReadBlockAndLoadToCache
  by_cases hnone : o.blockCache = false ∧ o.blockCacheCompressed = false
  · have hload : ¬ c.LoadsToCache o := fun h => h.1 hnone
    have hhas : ¬ st.CacheHas o c := by
      rintro (⟨hcache, -⟩ | ⟨hcache, -⟩)
      · rw [hnone.1] at hcache
        cases hcache
      · rw [hnone.2] at hcache
        cases hcache
    rw [if_pos hnone, decide_eq_false hload]
    exact ⟨none, st, rfl, h, Or.inr ⟨hload, hhas, rfl, rfl⟩⟩
  · rw [if_neg hnone]
    obtain ⟨found, st', hget, hsound, hfetch, hfound⟩ := getDataBlockFromCache_spec h hat
    rw [hget]
    dsimp only
    rcases hfound with ⟨hhas, rfl⟩ | ⟨-, hsome, hfull⟩
    · by_cases hload : c.LoadsToCache o
      · have hguard : (none : Option Bytes).isNone = true ∧ c.noIo = false ∧
            c.fillCache = true := ⟨rfl, hload.2⟩
        have hread' := hread hhas hload
        rw [← hfetch] at hread'
        obtain ⟨hgives, hsound'⟩ := hsound.readBlockContents hfile hread'
        rw [if_pos hguard, decide_eq_true hload]
        obtain ⟨result, st₁, hst₁⟩ : ∃ result st₁,
            st'.readBlockContents E o (c.loadToCache o type) = (result, st₁) := ⟨_, _, rfl⟩
        rw [hst₁] at hgives hsound' ⊢
        obtain rfl : result = _ := hgives
        cases hexpected : (c.loadToCache o type).expected E b with
        | none =>
            exact ⟨none, st₁, rfl, hsound',
              Or.inl ⟨(full_eq_none hexpected).symm, Or.inl hload⟩⟩
        | some contents =>
            obtain ⟨st₂, hput, hsound₂⟩ := putDataBlockToCache_spec hsound' hat
              (hsound.compressionType hfile hread' hexpected) (st'.compressionType o
                (c.loadToCache o type)).2
            dsimp only
            rw [hput]
            exact ⟨b.full E, st₂, by simp, hsound₂, Or.inl ⟨rfl, Or.inl hload⟩⟩
      · have hguard : ¬((none : Option Bytes).isNone = true ∧ c.noIo = false ∧
            c.fillCache = true) := fun h => hload ⟨hnone, h.2⟩
        rw [if_neg hguard, decide_eq_false hload]
        exact ⟨none, st', rfl, hsound, Or.inr ⟨hload, hhas, rfl, hfetch⟩⟩
    · have hguard : ¬(found.isNone = true ∧ c.noIo = false ∧ c.fillCache = true) := by
        rw [← Option.not_isSome, hsome]
        exact fun h => nomatch h.1
      rw [if_neg hguard]
      exact ⟨found, st', by rw [hsome, Bool.true_or], hsound, Or.inl ⟨hfull, Or.inr hsome⟩⟩

/-- A fetch of a function that knows no persistent cache. -/
theorem Sound.readWithoutPersistentCache (hfile : o.file.Holds E alignment blocks)
    (h : st.Sound E o alignment blocks)
    (hread : st.fetch.ReadsAsWritten E o.withoutPersistentCache.file alignment blocks r b) :
    (st.readBlockContents E o.withoutPersistentCache r).1 = .ok (r.expected E b) ∧
      (st.readBlockContents E o.withoutPersistentCache r).2.Sound E o alignment blocks := by
  have hsound : st.fetch.Sound E o.withoutPersistentCache.file alignment blocks :=
    ⟨h.fetch.aligned, fun _ _ _ _ _ => trivial⟩
  have hfile' : o.withoutPersistentCache.file.Holds E alignment blocks :=
    ⟨hfile.file, hfile.aligned⟩
  obtain ⟨hgives, hafter⟩ := hsound.readBlockContents hfile' hread
  refine ⟨hgives, ⟨hafter.aligned, ?_⟩, h.blockCache, h.blockCacheCompressed⟩
  intro h' b' hat' page hpage
  have hpage' : page ∈ (st.fetch.readBlockContents E o.withoutPersistentCache.file
      r).2.persistentPages h' := hpage
  rw [readBlockContents_pages rfl] at hpage'
  exact h.fetch.pages h' b' hat' page hpage'

theorem Sound.readUncached (hfile : o.file.Holds E alignment blocks)
    (h : st.Sound E o alignment blocks) (type : BlockType) (useCache : Bool)
    (hread : c.noIo = false → st.fetch.ReadsAsWritten E o.file alignment blocks
      (c.retrieve o type useCache) b)
    (htype : b.type ≠ kNoCompression → o.maybeCompressed type = true) :
    ((st.readUncached E o c type useCache).1 = .ok (b.full E) ∨
        c.noIo = true ∧ (st.readUncached E o c type useCache).1 = .ok none) ∧
      (st.readUncached E o c type useCache).2.Sound E o alignment blocks := by
  unfold ReaderState.readUncached
  cases hio : c.noIo with
  | true => exact ⟨Or.inr ⟨rfl, rfl⟩, h⟩
  | false =>
      obtain ⟨hgives, hsound⟩ := h.readBlockContents hfile (hread hio)
      rw [expected_eq_full htype] at hgives
      exact ⟨Or.inl hgives, hsound⟩

theorem Sound.retrieveBlock (hfile : o.file.Holds E alignment blocks)
    (h : st.Sound E o alignment blocks) {type : BlockType} {useCache : Bool}
    (hreader : c.reader = .retrieveBlock type useCache)
    (hread : st.ReadsWritten E o alignment blocks c b) :
    ((st.retrieveBlock E o c type useCache).1 = .ok (b.full E) ∨
        c.noIo = true ∧ (st.retrieveBlock E o c type useCache).1 = .ok none) ∧
      (st.retrieveBlock E o c type useCache).2.Sound E o alignment blocks := by
  have htype := hread.uncompresses
  have hfetches := hread.fetches
  rw [ReaderCall.uncompresses, hreader] at htype
  unfold ReaderCall.fetched HitsBlockCache at hfetches
  rw [hreader] at hfetches
  dsimp only at htype hfetches
  unfold ReaderState.retrieveBlock
  cases huse : useCache with
  | false =>
      rw [huse] at htype hfetches
      rw [if_neg Bool.false_ne_true]
      apply h.readUncached hfile
      · intro hio
        apply hfetches (fun h => Bool.false_ne_true h.2)
        rw [hio, if_neg Bool.false_ne_true, if_neg (fun h => Bool.false_ne_true h.1)]
      · rwa [Bool.false_and, Bool.or_false] at htype
  | true =>
      rw [huse] at htype hfetches
      rw [if_pos rfl]
      have hload : ¬ st.CacheHas o c → c.LoadsToCache o →
          st.fetch.ReadsAsWritten E o.file alignment blocks (c.loadToCache o type) b := by
        intro hhas hload
        apply hfetches (fun h => hhas h.1)
        rw [hload.2.1, if_neg Bool.false_ne_true, if_pos ⟨rfl, hload⟩]
      obtain ⟨block, st', hmaybe, hsound, hblock⟩ :=
        maybeReadBlockAndLoadToCache_spec hfile h hread.at_handle type hload
      rw [hmaybe]
      rcases hblock with ⟨rfl, hfull⟩ | ⟨hnot, hhas, rfl, hfetch⟩
      · cases hb : b.full E with
        | some block => exact ⟨Or.inl rfl, hsound⟩
        | none =>
            rw [hb] at hfull
            have hyes : c.LoadsToCache o := hfull.resolve_right (fun h => nomatch h)
            rw [decide_eq_true hyes]
            exact ⟨Or.inl rfl, hsound⟩
      · rw [decide_eq_false hnot] at htype ⊢
        rw [Bool.and_false, Bool.or_false] at htype
        apply hsound.readUncached hfile type true _ htype
        intro hio
        rw [hfetch]
        apply hfetches (fun h => hhas h.1)
        rw [hio, if_neg Bool.false_ne_true, if_neg (fun h => hnot h.2)]

/-- A call that meets the condition gives what was written and keeps the invariant. -/
theorem Sound.read (hfile : o.file.Holds E alignment blocks) (h : st.Sound E o alignment blocks)
    (hread : st.ReadsWritten E o alignment blocks c b) :
    ((st.read E o c).1 = .ok (b.full E) ∨ c.MayBeEmpty o ∧ (st.read E o c).1 = .ok none) ∧
      (st.read E o c).2.Sound E o alignment blocks := by
  have htype := hread.uncompresses
  have hfetches := hread.fetches
  unfold ReaderCall.uncompresses at htype
  unfold ReaderCall.fetched HitsBlockCache at hfetches
  unfold ReaderState.read ReaderCall.MayBeEmpty
  -- the blocks that the functions of `meta_blocks.cc` read are not compressed
  have hmeta : ∀ r : BlockRead, ¬ b.type ≠ kNoCompression →
      st.fetch.ReadsAsWritten E o.withoutPersistentCache.file alignment blocks r b →
      ((st.readBlockContents E o.withoutPersistentCache r).1 = .ok (b.full E) ∨
          False ∧ (st.readBlockContents E o.withoutPersistentCache r).1 = .ok none) ∧
        (st.readBlockContents E o.withoutPersistentCache r).2.Sound E o alignment blocks := by
    intro r hplain hr
    obtain ⟨hgives, hsound⟩ := h.readWithoutPersistentCache hfile hr
    rw [expected_eq_full (fun h => absurd h hplain)] at hgives
    exact ⟨Or.inl hgives, hsound⟩
  cases hreader : c.reader with
  | readMetaIndexBlock =>
      rw [hreader] at hfetches
      obtain ⟨hgives, hsound⟩ := h.readBlockContents hfile (hfetches (fun h => h.2) _ _ rfl)
      rw [expected_eq_full (fun _ => rfl)] at hgives
      exact ⟨Or.inl hgives, hsound⟩
  | readProperties =>
      rw [hreader] at hfetches htype
      exact hmeta _ (fun h => nomatch htype h) (hfetches (fun h => h.2) _ _ rfl)
  | readTableProperties =>
      rw [hreader] at hfetches htype
      exact hmeta _ (fun h => nomatch htype h) (hfetches (fun h => h.2) _ _ rfl)
  | findMetaBlock =>
      rw [hreader] at hfetches htype
      exact hmeta _ (fun h => nomatch htype h) (hfetches (fun h => h.2) _ _ rfl)
  | readMetaBlock =>
      rw [hreader] at hfetches htype
      exact hmeta _ (fun h => nomatch htype h) (hfetches (fun h => h.2) _ _ rfl)
  | maybeReadBlockAndLoadToCache type =>
      rw [hreader] at hfetches
      obtain ⟨block, st', hmaybe, hsound, hblock⟩ :=
        maybeReadBlockAndLoadToCache_spec hfile h hread.at_handle type fun hhas hload =>
          hfetches (fun h => hhas h.1) _ _ (if_pos hload)
      dsimp only
      rw [hmaybe]
      refine ⟨?_, hsound⟩
      rcases hblock with ⟨rfl, -⟩ | ⟨hnot, -, rfl, -⟩
      · exact Or.inl rfl
      · exact Or.inr ⟨hnot, rfl⟩
  | retrieveBlock type useCache => exact h.retrieveBlock hfile hreader hread

end ReaderState

/-! ### Runs -/

/-- Calls of the readers, and what else happens to the buffers and the caches. -/
inductive ReaderStep where
  | call (c : ReaderCall)
  | newBuffer (k readaheadSize maxReadaheadSize : ℕ) (enable : Bool)
  | prefetch (k offset n : ℕ)
  | evictPage (handle : BlockHandle)
  | evictBlock (handle : BlockHandle)
  | evictCompressed (handle : BlockHandle)
  deriving DecidableEq

namespace ReaderState

variable (E : TableEnv) (o : ReaderOptions)

def next (st : ReaderState) : ReaderStep → ReaderState
  | .call c => (st.read E o c).2
  | .newBuffer k a m e => { st with fetch := st.fetch.next E o.file (.newBuffer k a m e) }
  | .prefetch k offset n => { st with fetch := st.fetch.next E o.file (.prefetch k offset n) }
  | .evictPage handle => { st with fetch := st.fetch.next E o.file (.evict handle) }
  | .evictBlock handle =>
      { st with blockCache := Function.update st.blockCache handle none }
  | .evictCompressed handle =>
      { st with blockCacheCompressed := Function.update st.blockCacheCompressed handle none }

/-- `P` holds of each call, in the state before it. -/
def EachCall (P : ReaderState → ReaderCall → Prop) : ReaderState → List ReaderStep → Prop
  | _, [] => True
  | st, step :: steps =>
      (∀ c, step = .call c → P st c) ∧ EachCall P (st.next E o step) steps

def initial : ReaderState where
  fetch := .initial
  blockCache _ := none
  blockCacheCompressed _ := none

variable {E o} {alignment : Option ℕ} {blocks : List SstBlock} {st : ReaderState}

theorem sound_initial : initial.Sound E o alignment blocks :=
  ⟨FetchState.sound_initial, (fun _ _ _ _ h => nomatch h), fun _ _ _ _ h => nomatch h⟩

theorem Sound.fetchStep (hfile : o.file.Holds E alignment blocks)
    (h : st.Sound E o alignment blocks) {step : FetchStep} (hstep : ∀ c, step ≠ .read c) :
    Sound E o alignment blocks { st with fetch := st.fetch.next E o.file step } :=
  ⟨h.fetch.next hfile (fun c hc => absurd hc (hstep c)), h.blockCache, h.blockCacheCompressed⟩

theorem Sound.next (hfile : o.file.Holds E alignment blocks) (h : st.Sound E o alignment blocks)
    {step : ReaderStep}
    (hread : ∀ c, step = .call c → ∃ b, st.ReadsWritten E o alignment blocks c b) :
    (st.next E o step).Sound E o alignment blocks := by
  cases step with
  | call c =>
      obtain ⟨b, hb⟩ := hread c rfl
      exact (h.read hfile hb).2
  | newBuffer k a m e => exact h.fetchStep hfile fun _ h => nomatch h
  | prefetch k offset n => exact h.fetchStep hfile fun _ h => nomatch h
  | evictPage handle => exact h.fetchStep hfile fun _ h => nomatch h
  | evictBlock handle =>
      refine ⟨h.fetch, fun h' b' hat' block hblock => h.blockCache h' b' hat' block ?_,
        h.blockCacheCompressed⟩
      dsimp only [ReaderState.next] at hblock
      by_cases hh : h' = handle
      · rw [hh, Function.update_self] at hblock
        cases hblock
      · rwa [Function.update_of_ne hh] at hblock
  | evictCompressed handle =>
      refine ⟨h.fetch, h.blockCache, fun h' b' hat' raw hraw =>
        h.blockCacheCompressed h' b' hat' raw ?_⟩
      dsimp only [ReaderState.next] at hraw
      by_cases hh : h' = handle
      · rw [hh, Function.update_self] at hraw
        cases hraw
      · rwa [Function.update_of_ne hh] at hraw

theorem Sound.eachCall (hfile : o.file.Holds E alignment blocks)
    (h : st.Sound E o alignment blocks) (steps : List ReaderStep)
    (hsteps : EachCall E o (fun st c => ∃ b, st.ReadsWritten E o alignment blocks c b) st steps) :
    EachCall E o (GivesWritten E o alignment blocks) st steps := by
  induction steps generalizing st with
  | nil => trivial
  | cons step steps ih =>
      obtain ⟨hread, hrest⟩ := hsteps
      refine ⟨fun c hc b' hat' => ?_, ih (h.next hfile hread) hrest⟩
      obtain ⟨b, hb⟩ := hread c hc
      rw [hat'.unique hb.at_handle]
      exact (h.read hfile hb).1

end ReaderState

/-- In a run whose calls all meet the condition each ends with what was written. -/
theorem eachCall_givesWritten (E : TableEnv) (o : ReaderOptions) (alignment : Option ℕ)
    (blocks : List SstBlock) (hfile : o.file.Holds E alignment blocks) (steps : List ReaderStep)
    (hsteps : ReaderState.EachCall E o
      (fun st c => ∃ b, st.ReadsWritten E o alignment blocks c b) .initial steps) :
    ReaderState.EachCall E o (ReaderState.GivesWritten E o alignment blocks) .initial steps :=
  ReaderState.sound_initial.eachCall hfile steps hsteps

/-- A table with a block cache. -/
def sampleReaderOptions : ReaderOptions := ⟨sampleTableFile, true, false, false⟩

def sampleReaderCall (reader : BlockReader) : ReaderCall :=
  ⟨reader, ⟨0, 51⟩, none, true, false, true⟩

/-- The metaindex is read at the opening of the table, and the block is read past the cache. -/
theorem eachCall_givesWritten_opened :
    ReaderState.EachCall sampleTableEnv sampleReaderOptions
      (ReaderState.GivesWritten sampleTableEnv sampleReaderOptions none [sampleMetaBlock])
      .initial [.call (sampleReaderCall .readMetaIndexBlock),
        .call (sampleReaderCall (.retrieveBlock .index false))] := by
  have hread : ∀ st : ReaderState, ∀ T r, r.handle = ⟨0, 51⟩ → r.prefetchBuffer = none →
      r.decrypt = true → T = sampleTableFile →
      st.fetch.ReadsAsWritten sampleTableEnv T none [sampleMetaBlock] r sampleMetaBlock := by
    rintro st T r hhandle hbuffer hdecrypt rfl
    refine ⟨?_, fun _ => ⟨hdecrypt, ?_, fun h => nomatch h⟩, fun h => nomatch h⟩
    · rw [hhandle]
      exact sampleMetaBlock_at none
    · rw [hbuffer]
      exact fun k hk => nomatch hk
  apply eachCall_givesWritten _ _ _ _ sampleTableFile_holds
  refine ⟨?_, ?_, trivial⟩
  · rintro c ⟨⟩
    refine ⟨sampleMetaBlock, sampleMetaBlock_at none, fun _ T r h => ?_, fun _ => rfl⟩
    cases h
    exact hread _ _ _ rfl rfl rfl rfl
  · rintro c ⟨⟩
    refine ⟨sampleMetaBlock, sampleMetaBlock_at none, fun _ T r h => ?_, fun h => absurd rfl h⟩
    cases h
    exact hread _ _ _ rfl rfl rfl rfl

/-- `FindMetaBlock` takes the ciphertext of the metaindex for the metaindex. -/
theorem findMetaBlock_not_givesWritten :
    ¬ ReaderState.EachCall sampleTableEnv sampleReaderOptions
      (ReaderState.GivesWritten sampleTableEnv sampleReaderOptions none [sampleMetaBlock])
      .initial [.call (sampleReaderCall .findMetaBlock)] := by
  rintro ⟨hread, -⟩
  have hgives := hread _ rfl sampleMetaBlock (sampleMetaBlock_at none)
  have hlength : ((ReaderState.initial.read sampleTableEnv sampleReaderOptions
      (sampleReaderCall .findMetaBlock)).1.map fun contents => contents.map List.length) =
        .ok (some 51) := by
    decide +kernel
  rcases hgives with hgives | ⟨hempty, -⟩
  · rw [hgives] at hlength
    cases hlength
  · exact hempty

end Tweezer
