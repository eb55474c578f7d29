import Tweezer.MultiGet

/-!
# Where `MultiGet` agrees with `Get`

A block that `MultiGet` finds in the cache of blocks is the `EncryptedBlock` that a lookup put
there, and serves as well as one that `Get` reads. A block that `MultiGet` reads or uncompresses
itself is a `Block`.
-/

namespace Tweezer

namespace ReaderState

variable {E : TableEnv} {o : ReaderOptions} {st : ReaderState} {c : ReaderCall} {h : BlockHandle}

/-- A block in the cache is what a lookup gets, and stays there. -/
theorem retrieveBlock_cached (hcache : o.blockCache = true) {block : Bytes}
    (hblock : st.blockCache c.handle = some block) (type : BlockType) :
    st.retrieveBlock E o c type true = (.ok (some block), st) := by
  have hget : st.getDataBlockFromCache E o c = (true, some block, st) := by
    unfold getDataBlockFromCache
    rw [hcache, hblock]
  have hsome : ¬(o.blockCache = false ∧ o.blockCacheCompressed = false) := by
    rw [hcache]
    exact fun h => nomatch h.1
  have hfound : ¬((some block).isNone = true ∧ c.noIo = false ∧ c.fillCache = true) :=
    fun h => nomatch h.1
  unfold retrieveBlock maybeReadBlockAndLoadToCache
  rw [if_pos rfl, if_neg hsome, hget]
  dsimp only
  rw [if_neg hfound]

theorem insertBlock_frame (hh : h ≠ c.handle) (st : ReaderState) (block : Bytes) :
    (st.insertBlock o c block).blockCache h = st.blockCache h := by
  unfold insertBlock
  split_ifs
  · exact Function.update_of_ne hh ..
  · rfl

theorem getDataBlockFromCache_frame (hh : h ≠ c.handle) :
    (st.getDataBlockFromCache E o c).2.2.blockCache h = st.blockCache h := by
  unfold getDataBlockFromCache
  split
  · rfl
  · split
    · split
      · rfl
      · dsimp only
        split_ifs
        · exact insertBlock_frame hh ..
        · rfl
    · rfl

theorem putDataBlockToCache_frame (hh : h ≠ c.handle) (type : UInt8) (ownBytes : Bool)
    (contents : Bytes) :
    (st.putDataBlockToCache E o c type ownBytes contents).2.2.blockCache h = st.blockCache h := by
  unfold putDataBlockToCache
  split_ifs
  · split
    · rfl
    · exact insertBlock_frame hh ..
  · split
    · rfl
    · exact insertBlock_frame hh ..
  · exact insertBlock_frame hh ..
  · rfl

theorem readUncached_frame (h : BlockHandle) (type : BlockType) (useCache : Bool) :
    (st.readUncached E o c type useCache).2.blockCache h = st.blockCache h := by
  unfold readUncached
  split_ifs <;> rfl

theorem maybeReadBlockAndLoadToCache_frame (hh : h ≠ c.handle) (type : BlockType) :
    (st.maybeReadBlockAndLoadToCache E o c type).2.blockCache h = st.blockCache h := by
  unfold maybeReadBlockAndLoadToCache
  split_ifs with hnone
  · rfl
  · have hget : (st.getDataBlockFromCache E o c).2.2.blockCache h = st.blockCache h :=
      getDataBlockFromCache_frame hh
    obtain ⟨⟨ok, found, st₁⟩, hst₁⟩ : ∃ r, st.getDataBlockFromCache E o c = r := ⟨_, rfl⟩
    rw [hst₁] at hget ⊢
    dsimp only at hget ⊢
    split_ifs
    · obtain ⟨⟨read, st₂⟩, hst₂⟩ : ∃ r, st₁.readBlockContents E o (c.loadToCache o type) = r :=
        ⟨_, rfl⟩
      have hread : st₂.blockCache = st₁.blockCache := by
        have hcache : (st₁.readBlockContents E o (c.loadToCache o type)).2.blockCache =
            st₁.blockCache := rfl
        rwa [hst₂] at hcache
      rw [hst₂]
      rcases read with e | _ | contents
      · exact (congrFun hread h).trans hget
      · exact (congrFun hread h).trans hget
      · exact (putDataBlockToCache_frame hh ..).trans ((congrFun hread h).trans hget)
    · exact hget

/-- The other blocks of the cache stay as they are. -/
theorem retrieveBlock_frame (hh : h ≠ c.handle) (type : BlockType) (useCache : Bool) :
    (st.retrieveBlock E o c type useCache).2.blockCache h = st.blockCache h := by
  unfold retrieveBlock
  split_ifs
  · have hmaybe : (st.maybeReadBlockAndLoadToCache E o c type).2.blockCache h = st.blockCache h :=
      maybeReadBlockAndLoadToCache_frame hh type
    obtain ⟨⟨read, st₁⟩, hst₁⟩ : ∃ r, st.maybeReadBlockAndLoadToCache E o c type = r := ⟨_, rfl⟩
    rw [hst₁] at hmaybe ⊢
    rcases read with e | ⟨_ | _, _ | block⟩
    · exact hmaybe
    · exact hmaybe
    · exact hmaybe
    · exact (readUncached_frame ..).trans hmaybe
    · exact hmaybe
  · exact readUncached_frame ..

end ReaderState

/-- What was added to the cache of blocks since are `Block`s. -/
def CacheState.AddsPlain (reader : ReaderState) (st : CacheState) : Prop :=
  ∀ h, (reader.blockCache h).isSome = false → (st.reader.blockCache h).isSome = true →
    st.plain h = true

/-- What the second pass makes of an entry: one that was found stays, and what is read under a
handle is a `Block` unless the cache of blocks held it. -/
def BatchEntry.Loaded (cached : BlockHandle → Prop) (entry entry' : BatchEntry) : Prop :=
  match entry.pending with
  | none => entry' = entry
  | some handle => ∃ block, entry' = .kept block ∧ block.handle = some handle ∧
      ∀ b ∈ block.result, b.isEncrypted = true → cached handle

/-- The third pass gets to the block of the entry. -/
def BatchEntry.Opens : BatchEntry → Prop
  | .skipped _ => True
  | .kept block => (block.handle.isSome || block.result.isSome) = true →
      ∃ b ∈ block.result, b.isEncrypted = true

namespace PointReader

variable {R : PointReader} {σ : Type} {saveValue : SaveValue σ} {ro : LookupOptions}
  {st st' : CacheState} {reader : ReaderState} {c : ReaderCall} {found : Option Blocklike}

/-- The cache of blocks held the block of this handle. -/
def Cached (R : PointReader) (reader : ReaderState) (h : BlockHandle) : Prop :=
  R.options.blockCache = true ∧ (reader.blockCache h).isSome = true

theorem retrieveBlock_cached (asEncrypted : Bool) (hcache : R.options.blockCache = true)
    {block : Bytes} (hblock : st.reader.blockCache c.handle = some block) :
    R.retrieveBlock asEncrypted c st = .ok (some ⟨!st.plain c.handle, block⟩, st) := by
  have hsome : (R.options.blockCache && (st.reader.blockCache c.handle).isSome) = true := by
    rw [hcache, hblock]
    rfl
  unfold retrieveBlock
  rw [ReaderState.retrieveBlock_cached hcache hblock, hsome]
  dsimp only
  rw [if_pos rfl, Bool.not_not, Function.update_eq_self]
  rfl

/-- Blocks are retrieved as `Block`s, but for those that lookups have left in the cache. -/
theorem retrieveBlock_adds (hst : st.AddsPlain reader)
    (hok : R.retrieveBlock false c st = .ok (found, st')) :
    st'.AddsPlain reader ∧ ∀ b ∈ found, b.isEncrypted = true → R.Cached reader c.handle := by
  obtain ⟨⟨contents, reader'⟩, hread⟩ : ∃ r,
      st.reader.retrieveBlock R.env R.options c .data true = r := ⟨_, rfl⟩
  have hframe : ∀ h, h ≠ c.handle → reader'.blockCache h = st.reader.blockCache h := by
    intro h hh
    have hkeep : (st.reader.retrieveBlock R.env R.options c .data true).2.blockCache h =
        st.reader.blockCache h := ReaderState.retrieveBlock_frame hh .data true
    rwa [hread] at hkeep
  have hcached : ∀ h, st.plain h = false → (st.reader.blockCache h).isSome = true →
      (reader.blockCache h).isSome = true := by
    intro h hplain hsome
    by_contra hnone
    rw [hst h (Bool.eq_false_of_not_eq_true hnone) hsome] at hplain
    cases hplain
  unfold retrieveBlock at hok
  rw [hread] at hok
  dsimp only at hok
  cases contents with
  | error e => cases hok
  | ok contents =>
      obtain ⟨rfl, rfl⟩ := Prod.mk.inj (Except.ok.inj hok)
      cases hhit : R.options.blockCache && (st.reader.blockCache c.handle).isSome with
      | true =>
          obtain ⟨hoption, hsome⟩ := Bool.and_eq_true_iff.mp hhit
          rw [if_pos rfl, Bool.not_not, Function.update_eq_self]
          constructor
          · intro h hnone hnow
            by_cases hh : h = c.handle
            · rw [hh] at hnone ⊢
              exact hst _ hnone hsome
            · dsimp only at hnow
              rw [hframe h hh] at hnow
              exact hst h hnone hnow
          · intro b hb hencrypted
            obtain ⟨block, -, rfl⟩ := Option.map_eq_some_iff.mp hb
            rw [Bool.not_eq_true'] at hencrypted
            exact ⟨hoption, hcached _ hencrypted hsome⟩
      | false =>
          rw [if_neg Bool.false_ne_true]
          constructor
          · intro h hnone hnow
            by_cases hh : h = c.handle
            · rw [hh]
              exact Function.update_self ..
            · dsimp only at hnow ⊢
              rw [hframe h hh] at hnow
              rw [Function.update_of_ne hh]
              exact hst h hnone hnow
          · intro b hb hencrypted
            obtain ⟨block, -, rfl⟩ := Option.map_eq_some_iff.mp hb
            cases hencrypted

/-- The second pass leaves what the first one found. -/
theorem retrieveMapped_none {entries : List BatchEntry} (h : ∀ e ∈ entries, e.pending = none)
    (st : CacheState) : R.retrieveMapped ro entries st = .ok (entries, st) := by
  induction entries with
  | nil => rfl
  | cons e entries ih =>
      rw [retrieveMapped, h e List.mem_cons_self]
      dsimp only
      rw [ih fun e' he' => h e' (List.mem_cons_of_mem _ he')]
      rfl

theorem loadBlocks_none (requests : List ReadRequest) (places : List (ℕ × ℕ))
    {entries : List BatchEntry} (h : ∀ e ∈ entries, e.pending = none) (st : CacheState) :
    R.loadBlocks ro requests places entries st = (entries, st) := by
  induction entries with
  | nil => rw [loadBlocks]
  | cons e entries ih =>
      rw [loadBlocks, h e List.mem_cons_self]
      dsimp only
      rw [ih fun e' he' => h e' (List.mem_cons_of_mem _ he')]

theorem retrieveMultipleBlocks_none {entries : List BatchEntry}
    (h : ∀ e ∈ entries, e.pending = none) (st : CacheState) :
    R.retrieveMultipleBlocks ro entries st = .ok (entries, st) := by
  unfold retrieveMultipleBlocks
  split_ifs
  · exact retrieveMapped_none h st
  · exact congrArg _ (loadBlocks_none _ _ h st)

/-- The second pass over a mapped file. -/
theorem retrieveMapped_loaded {entries : List BatchEntry} {r : List BatchEntry × CacheState}
    (hst : st.AddsPlain reader) (hok : R.retrieveMapped ro entries st = .ok r) :
    List.Forall₂ (BatchEntry.Loaded (R.Cached reader)) entries r.1 := by
  induction entries generalizing st r with
  | nil =>
      rw [← Except.ok.inj hok]
      exact .nil
  | cons e entries ih =>
      cases hpending : e.pending with
      | none =>
          rw [retrieveMapped, hpending] at hok
          obtain ⟨rest, hrest, hok⟩ := Outcome.bind_eq_ok.mp hok
          rw [← Except.ok.inj hok]
          refine .cons ?_ (ih hst hrest)
          rw [BatchEntry.Loaded, hpending]
      | some handle =>
          rw [retrieveMapped, hpending] at hok
          obtain ⟨⟨found, st₁⟩, hfound, hok⟩ := Outcome.bind_eq_ok.mp hok
          obtain ⟨rest, hrest, hok⟩ := Outcome.bind_eq_ok.mp hok
          obtain ⟨hadds, hcached⟩ := retrieveBlock_adds hst hfound
          rw [← Except.ok.inj hok]
          refine .cons ?_ (ih hadds hrest)
          rw [BatchEntry.Loaded, hpending]
          exact ⟨_, rfl, rfl, hcached⟩

/-- What is made of the bytes of a block is a `Block`. -/
theorem loadBlock_plain (ro : LookupOptions) (handle : BlockHandle) (raw : Option Bytes)
    (st : CacheState) :
    (R.loadBlock ro handle raw st).1.handle = some handle ∧
      ∀ b ∈ (R.loadBlock ro handle raw st).1.result, b.isEncrypted = false := by
  have hnone : ∀ status, (BatchBlock.mk (some handle) none status).handle = some handle ∧
      ∀ b ∈ (BatchBlock.mk (some handle) none status).result, b.isEncrypted = false :=
    fun _ => ⟨rfl, fun b hb => nomatch hb⟩
  have hsome : ∀ block,
      (BatchBlock.mk (some handle) (some ⟨false, block⟩) .ok).handle = some handle ∧
        ∀ b ∈ (BatchBlock.mk (some handle) (some ⟨false, block⟩) .ok).result,
          b.isEncrypted = false := by
    intro block
    refine ⟨rfl, fun b hb => ?_⟩
    rw [← Option.some.inj hb]
  unfold loadBlock
  cases raw with
  | none => exact hnone _
  | some raw =>
      dsimp only
      split_ifs
      · exact hnone _
      all_goals split
      · exact hsome _
      · split
        · exact hsome _
        · exact hnone _
      · exact hsome _
      · split
        · exact hsome _
        · exact hnone _

theorem loadBlocks_loaded (cached : BlockHandle → Prop) (requests : List ReadRequest)
    (places : List (ℕ × ℕ)) (entries : List BatchEntry) (st : CacheState) :
    List.Forall₂ (BatchEntry.Loaded cached) entries
      (R.loadBlocks ro requests places entries st).1 := by
  induction entries generalizing places st with
  | nil =>
      rw [loadBlocks]
      exact .nil
  | cons e entries ih =>
      cases hpending : e.pending with
      | none =>
          rw [loadBlocks, hpending]
          refine .cons ?_ (ih places st)
          rw [BatchEntry.Loaded, hpending]
      | some handle =>
          rw [loadBlocks, hpending]
          refine .cons ?_ (ih places.tail _)
          rw [BatchEntry.Loaded, hpending]
          obtain ⟨hhandle, hplain⟩ := loadBlock_plain (R := R) ro handle
            (places.head?.bind fun place => ReadPlan.blockBytes R.options.file.reader.file
              requests place handle.size) st
          refine ⟨_, rfl, hhandle, fun b hb hencrypted => ?_⟩
          rw [hplain b hb] at hencrypted
          cases hencrypted

theorem retrieveMultipleBlocks_loaded {entries : List BatchEntry} {r : List BatchEntry × CacheState}
    (hst : st.AddsPlain reader) (hok : R.retrieveMultipleBlocks ro entries st = .ok r) :
    List.Forall₂ (BatchEntry.Loaded (R.Cached reader)) entries r.1 := by
  unfold retrieveMultipleBlocks at hok
  split_ifs at hok
  · exact retrieveMapped_loaded hst hok
  · rw [← Except.ok.inj hok]
    exact loadBlocks_loaded ..

/-- Where a key gets a status that is OK its block was opened. -/
theorem opens_of_finishKey {fuel : ℕ} {key : Bytes} {s : σ} {block : BatchBlock}
    {firstBiter : EncryptedDataBlockIter} {iiter : IndexBlockIter}
    {r : (Status × σ) × EncryptedDataBlockIter × IndexBlockIter × CacheState}
    (hok : R.finishKey saveValue ro fuel key s block firstBiter iiter st = .ok r)
    (hstatus : r.1.1 = .ok) : (BatchEntry.kept block).Opens := by
  intro hopen
  obtain ⟨biter, hbiter, hok⟩ := Outcome.bind_eq_ok.mp hok
  rw [firstBlockIter, if_pos hopen] at hbiter
  by_cases hblock : block.status ≠ .ok
  · rw [if_pos hblock] at hbiter
    rw [← Except.ok.inj hbiter] at hok
    have hbad : (EncryptedDataBlockIter.fresh.invalidate block.status).status ≠ .ok := hblock
    rw [if_pos hbad] at hok
    rw [← Except.ok.inj hok] at hstatus
    dsimp only at hstatus
    rw [finalStatus, if_neg hbad] at hstatus
    exact absurd hstatus hbad
  · rw [if_neg hblock] at hbiter
    cases hresult : block.result with
    | none =>
        rw [hresult] at hbiter
        cases hbiter
    | some b =>
        rw [hresult] at hbiter
        refine ⟨b, rfl, ?_⟩
        by_contra hplain
        dsimp only at hbiter
        rw [initBlockIterator, if_neg hplain] at hbiter
        cases hbiter

theorem opens_of_finishKeys {fuel : ℕ} {rest : List ((InternalKey × σ) × BatchEntry)}
    {firstBiter : EncryptedDataBlockIter} {iiter : IndexBlockIter} {results : List (Status × σ)}
    (hok : R.finishKeys saveValue ro fuel rest firstBiter iiter st = .ok results)
    (hstatus : ∀ r ∈ results, r.1 = .ok) : ∀ e ∈ rest, e.2.Opens := by
  induction rest generalizing firstBiter iiter st results with
  | nil => exact fun e he => nomatch he
  | cons e rest ih =>
      obtain ⟨⟨key, s⟩, status | block⟩ := e
      · obtain ⟨results', hrest, hok⟩ := Outcome.bind_eq_ok.mp hok
        rw [← Except.ok.inj hok] at hstatus
        have hopens := ih hrest fun r hr => hstatus r (List.mem_cons_of_mem _ hr)
        rw [List.forall_mem_cons]
        exact ⟨trivial, hopens⟩
      · obtain ⟨⟨result, firstBiter', iiter', st'⟩, hkey, hok⟩ := Outcome.bind_eq_ok.mp hok
        obtain ⟨results', hrest, hok⟩ := Outcome.bind_eq_ok.mp hok
        rw [← Except.ok.inj hok] at hstatus
        have hopens := ih hrest fun r hr => hstatus r (List.mem_cons_of_mem _ hr)
        rw [List.forall_mem_cons]
        exact ⟨opens_of_finishKey hkey (hstatus _ List.mem_cons_self), hopens⟩

end PointReader

namespace OpenTable

variable {T : OpenTable} {σ : Type} {saveValue : SaveValue σ} {ro : LookupOptions}
  {st st' : CacheState} {reader : ReaderState} {iiter : IndexBlockIter} {key : InternalKey}
  {b b' : TableBlock T.comparator × BlockHandle}

/-- The data block that the index leads to for the key, with its handle. -/
def firstEntry (T : OpenTable) (key : InternalKey) :
    Option (TableBlock T.comparator × BlockHandle) :=
  (T.firstBlock key).bind fun i => (T.table.written T.tableOptions)[i]?

/-- If the index leads to a data block for the key, the cache of blocks holds it. -/
def FirstBlockCached (T : OpenTable) (reader : ReaderState) (key : InternalKey) : Prop :=
  ∀ b ∈ T.firstEntry key, T.Cached reader b.2

theorem firstEntry_mem (h : T.firstEntry key = some b) : b ∈ T.table.written T.tableOptions := by
  obtain ⟨i, -, hi⟩ := Option.bind_eq_some_iff.mp h
  exact List.mem_of_getElem? hi

theorem blocksFrom_of_none (h : T.firstEntry key = none) :
    T.blocksFrom (T.firstBlock key) = [] := by
  unfold firstEntry at h
  cases hpos : T.firstBlock key with
  | none => rfl
  | some i =>
      rw [hpos, Option.bind_some, List.getElem?_eq_none_iff, length_written] at h
      exact List.drop_of_length_le h

/-- No data block is at the offset that `MultiGet` starts with. -/
theorem offset_ne (hb : b ∈ T.table.written T.tableOptions) : b.2.offset ≠ 2 ^ 64 - 1 := by
  obtain ⟨s, hat, -⟩ := T.stored b hb
  obtain ⟨rest, hfile⟩ := T.holds.file
  have hend := (hat.slice_file rest).2
  rw [← hfile] at hend
  have hsize := T.fileSize
  unfold kBlockTrailerSize at hend
  omega

/-- The first pass for a key, wherever the index iterator stands. -/
theorem prepareKey_eq (ro : LookupOptions) (h : iiter.Over T.indexContents) (key : InternalKey)
    (offset : ℕ) (st : CacheState) :
    ∃ iiter', iiter'.Over T.indexContents ∧ iiter'.status = .ok ∧
      T.prepareKey ro key.val iiter offset st = match T.firstEntry key with
        | none => .ok (.skipped .ok, iiter', offset, st)
        | some b =>
            if b.2.offset = offset then .ok (.kept ⟨none, none, .ok⟩, iiter', offset, st)
            else T.retrieveBlock false (ro.call b.2 true) st >>= fun r =>
              .ok (.kept ⟨if r.1.isSome then none else some b.2, r.1, .ok⟩, iiter',
                b.2.offset, r.2) := by
  obtain ⟨iiter', hseek, hstands⟩ := seek_stands h key
  refine ⟨iiter', hstands.isOver, hstands.status, ?_⟩
  unfold firstEntry
  rw [PointReader.prepareKey, hseek, Outcome.ok_bind]
  cases hpos : T.firstBlock key with
  | none =>
      have hvalid : ¬iiter'.valid = true := by
        rw [hstands.invalid hpos]
        exact Bool.false_ne_true
      rw [if_neg hvalid, hstands.status]
      rfl
  | some i =>
      rw [hpos] at hstands
      obtain ⟨e, hshows⟩ := hstands.shows i rfl
      obtain ⟨b, hb⟩ := exists_block hstands
      rw [if_pos hshows.valid, hshows.value_eq hb, Outcome.ok_bind, Option.bind_some, hb]

/-- What the first pass makes of keys whose blocks are in the cache. -/
def cachedEntries (T : OpenTable) : List InternalKey → ℕ → List BatchEntry
  | [], _ => []
  | key :: keys, offset =>
      match T.firstEntry key with
      | none => .skipped .ok :: cachedEntries T keys offset
      | some b =>
          .kept ⟨none, if b.2.offset = offset then none else some ⟨true, T.written b.1⟩, .ok⟩ ::
            cachedEntries T keys b.2.offset

theorem cachedEntries_pending (keys : List InternalKey) (offset : ℕ) :
    ∀ e ∈ T.cachedEntries keys offset, e.pending = none := by
  induction keys generalizing offset with
  | nil => exact fun e he => nomatch he
  | cons key keys ih =>
      rw [cachedEntries]
      split
      · rw [List.forall_mem_cons]
        exact ⟨rfl, ih offset⟩
      · rw [List.forall_mem_cons]
        exact ⟨rfl, ih _⟩

/-- A block in the cache is found as it was written. -/
theorem retrieveBlock_ofReader (ro : LookupOptions)
    (hreader : reader.Sound T.env T.options T.alignment T.blocks)
    (hb : b ∈ T.table.written T.tableOptions) (hcached : T.Cached reader b.2) :
    T.retrieveBlock false (ro.call b.2 true) (.ofReader reader) =
      .ok (some ⟨true, T.written b.1⟩, .ofReader reader) := by
  obtain ⟨s, hat, -, -, hfull⟩ := T.stored b hb
  obtain ⟨block, hblock⟩ := Option.isSome_iff_exists.mp hcached.2
  have hwritten := (hreader.blockCache b.2 s hat block hblock).symm.trans hfull
  obtain rfl := Option.some.inj hwritten
  exact PointReader.retrieveBlock_cached false hcached.1 hblock

/-- The first pass, by induction on the keys, while no state changes. -/
theorem prepareKeys_cached (ro : LookupOptions)
    (hreader : reader.Sound T.env T.options T.alignment T.blocks) {keys : List InternalKey}
    (hcached : ∀ key ∈ keys, T.FirstBlockCached reader key) (h : iiter.Over T.indexContents)
    (hstatus : iiter.status = .ok) (offset : ℕ) :
    ∃ iiter', iiter'.Over T.indexContents ∧ iiter'.status = .ok ∧
      T.prepareKeys ro (keys.map (·.val)) iiter offset (.ofReader reader) =
        .ok (T.cachedEntries keys offset, iiter', .ofReader reader) := by
  induction keys generalizing iiter offset with
  | nil => exact ⟨iiter, h, hstatus, rfl⟩
  | cons key keys ih =>
      obtain ⟨hkey, hkeys⟩ := List.forall_mem_cons.mp hcached
      obtain ⟨iiter₁, hover, hstatus₁, hprepare⟩ :=
        prepareKey_eq ro h key offset (.ofReader reader)
      rw [List.map_cons, PointReader.prepareKeys, hprepare, cachedEntries]
      cases hfirst : T.firstEntry key with
      | none =>
          obtain ⟨iiter₂, hover₂, hstatus₂, hrest⟩ := ih hkeys hover hstatus₁ offset
          dsimp only
          rw [Outcome.ok_bind]
          dsimp only
          rw [hrest]
          exact ⟨iiter₂, hover₂, hstatus₂, rfl⟩
      | some b =>
          obtain ⟨iiter₂, hover₂, hstatus₂, hrest⟩ := ih hkeys hover hstatus₁ b.2.offset
          have hfound := retrieveBlock_ofReader ro hreader (firstEntry_mem hfirst)
            (hkey b hfirst)
          dsimp only
          by_cases hoffset : b.2.offset = offset
          · rw [if_pos hoffset, if_pos hoffset, Outcome.ok_bind]
            dsimp only
            rw [← hoffset, hrest]
            exact ⟨iiter₂, hover₂, hstatus₂, rfl⟩
          · rw [if_neg hoffset, if_neg hoffset, hfound, Outcome.ok_bind, Outcome.ok_bind]
            dsimp only
            rw [hrest]
            exact ⟨iiter₂, hover₂, hstatus₂, rfl⟩

/-- The third pass for a key, whose first block is at hand. -/
theorem finishKey_settles (ro : LookupOptions) (hst : T.Serves st)
    (hfirst : T.firstEntry key = some b) {block : BatchBlock}
    {firstBiter biter : EncryptedDataBlockIter}
    (hbiter : T.firstBlockIter block firstBiter = .ok biter)
    (hover : biter.Over (T.written b.1) T.env.sstKey b.1.contents.entries)
    (h : iiter.Over T.indexContents) (hstatus : iiter.status = .ok) (s : σ) :
    ∃ (biter' : EncryptedDataBlockIter) (iiter' : IndexBlockIter) (st' : CacheState),
      Outcome.Settles
        (fun fuel => T.finishKey saveValue ro fuel key.val s block firstBiter iiter st)
        ((.ok, lookupBlocks saveValue key (T.blocksFrom (T.firstBlock key)) s), biter', iiter', st') ∧
      biter'.Over (T.written b.1) T.env.sstKey b.1.contents.entries ∧
      iiter'.Over T.indexContents ∧ iiter'.status = .ok ∧ T.Serves st' := by
  obtain ⟨i, hpos, hi⟩ := Option.bind_eq_some_iff.mp hfirst
  obtain ⟨biter', hsearch, hover'⟩ := PointReader.searchBlock_spec saveValue hover b.1.ne_nil key s
  have hturn : ∀ fuel, T.finishKey saveValue ro fuel key.val s block firstBiter iiter st =
      T.searchBlock saveValue fuel biter key.val s >>= fun r =>
        if r.1 then .ok ((PointReader.finalStatus r.2.1.status iiter, r.2.2), r.2.1, iiter, st)
        else iiter.seek T.comparator key.val >>= fun iiter₁ => iiter₁.next >>= fun iiter₂ =>
          T.searchBlocks saveValue ro false key.val fuel iiter₂ st r.2.1.status r.2.2 >>= fun q =>
            .ok ((PointReader.finalStatus q.1 q.2.1, q.2.2.2), r.2.1, q.2.1, q.2.2.1) := by
    intro fuel
    rw [PointReader.finishKey, hbiter, Outcome.ok_bind, if_neg (not_not.mpr hover.status_eq)]
  rw [hpos, blocksFrom_some hi, lookupBlocks]
  simp only [hturn]
  cases hdone : (lookupEntries saveValue T.comparator b.1.contents.entries key s).1 with
  | true =>
      rw [hdone] at hsearch
      refine ⟨biter', iiter, st, Outcome.settles_bind hsearch (Outcome.settles_const ?_), hover', h,
        hstatus, hst⟩
      rw [if_pos rfl]
      dsimp only
      rw [PointReader.finalStatus, if_pos hover'.status_eq, hstatus]
  | false =>
      obtain ⟨iiter₁, hseek, hstands⟩ := seek_stands h key
      rw [hpos] at hstands
      obtain ⟨iiter₂, hnext, hstands'⟩ := hstands.next buffer_lt
      have hchecks : false = true → ChecksPass saveValue key (T.blocksFrom
          (if i + 1 < T.indexContents.entries.length then some (i + 1) else none)) iiter₂
          (lookupEntries saveValue T.comparator b.1.contents.entries key s).2 := by rintro ⟨⟩
      obtain ⟨iiter₃, st₃, hsettles, hover₃, hstatus₃, hst₃⟩ :=
        searchBlocks_settles ro _ rfl hst hstands' false _ hchecks
      rw [blocksFrom_next] at hsettles
      rw [hdone] at hsearch
      refine ⟨biter', iiter₃, st₃, Outcome.settles_bind hsearch ?_, hover', hover₃, hstatus₃, hst₃⟩
      simp only [Bool.false_eq_true, if_false, hseek, hnext, Outcome.ok_bind, hover'.status_eq]
      refine Outcome.settles_bind hsettles (Outcome.settles_const ?_)
      dsimp only
      rw [PointReader.finalStatus, if_pos rfl, hstatus₃]

/-- The third pass over keys whose blocks are in the cache. `firstBiter` is over the block that
was looked for last. -/
theorem finishKeys_settles (saveValue : SaveValue σ) (ro : LookupOptions) (hst : T.Serves st)
    {offset : ℕ} {firstBiter : EncryptedDataBlockIter}
    (hbiter : ∀ b ∈ T.table.written T.tableOptions, b.2.offset = offset →
      firstBiter.Over (T.written b.1) T.env.sstKey b.1.contents.entries)
    (h : iiter.Over T.indexContents) (hstatus : iiter.status = .ok)
    (batch : List (InternalKey × σ)) : Outcome.Settles
      (fun fuel => T.finishKeys saveValue ro fuel
        (batch.zip (T.cachedEntries (batch.map (·.1)) offset)) firstBiter iiter st)
      (batch.map fun k =>
        (.ok, lookupBlocks saveValue k.1 (T.blocksFrom (T.firstBlock k.1)) k.2)) := by
  induction batch generalizing offset firstBiter iiter st with
  | nil => exact Outcome.settles_const rfl
  | cons k batch ih =>
      rw [List.map_cons, List.map_cons, cachedEntries]
      cases hfirst : T.firstEntry k.1 with
      | none =>
          rw [blocksFrom_of_none hfirst, lookupBlocks]
          exact Outcome.settles_bind (ih hst hbiter h hstatus) (Outcome.settles_const rfl)
      | some b =>
          have hmem := firstEntry_mem hfirst
          obtain ⟨biter, hopen, hover⟩ : ∃ biter, T.firstBlockIter
              ⟨none, if b.2.offset = offset then none else some ⟨true, T.written b.1⟩, .ok⟩
                firstBiter = .ok biter ∧
              biter.Over (T.written b.1) T.env.sstKey b.1.contents.entries := by
            by_cases hoffset : b.2.offset = offset
            · rw [if_pos hoffset]
              exact ⟨firstBiter, rfl, hbiter b hmem hoffset⟩
            · rw [if_neg hoffset]
              exact ⟨_, newDataIterator_dataBlock T.env.cipher T.env.digest T.env.sstKey
                T.comparator T.useDeltaEncoding T.globalSeqno b.1.contents b.1.ne_nil
                (T.blockSize _ (block_mem hmem)), over_openedIter hmem⟩
          obtain ⟨biter', iiter', st', hkey, hover', h', hstatus', hst'⟩ :=
            finishKey_settles ro hst hfirst hopen hover h hstatus k.2
          have hnext : ∀ b' ∈ T.table.written T.tableOptions, b'.2.offset = b.2.offset →
              biter'.Over (T.written b'.1) T.env.sstKey b'.1.contents.entries := by
            intro b' hb' hoffset
            rwa [eq_of_offset hb' hmem hoffset]
          exact Outcome.settles_bind hkey (Outcome.settles_bind (ih hst' hnext h' hstatus')
            (Outcome.settles_const rfl))

/-- What the first pass does with a key before it goes on. -/
theorem prepareKeys_cons (hst : st.AddsPlain reader) (h : iiter.Over T.indexContents)
    {keys : List InternalKey} {offset : ℕ} {r : List BatchEntry × IndexBlockIter × CacheState}
    (hok : T.prepareKeys ro ((key :: keys).map (·.val)) iiter offset st = .ok r) :
    ∃ entry iiter' offset' st' rest,
      T.prepareKeys ro (keys.map (·.val)) iiter' offset' st' = .ok rest ∧
      r = (entry :: rest.1, rest.2) ∧ iiter'.Over T.indexContents ∧ st'.AddsPlain reader ∧
      (T.firstEntry key = none ∧ offset' = offset ∨
        ∃ b, T.firstEntry key = some b ∧ offset' = b.2.offset ∧ (b.2.offset = offset ∨
          ∃ found : Option Blocklike,
            entry = .kept ⟨if found.isSome then none else some b.2, found, .ok⟩ ∧
            ∀ x ∈ found, x.isEncrypted = true → T.Cached reader b.2)) := by
  obtain ⟨iiter', hover, -, hprepare⟩ := prepareKey_eq ro h key offset st
  obtain ⟨⟨entry, iiter₁, offset₁, st₁⟩, hkey, hok⟩ := Outcome.bind_eq_ok.mp hok
  obtain ⟨rest, hrest, hok⟩ := Outcome.bind_eq_ok.mp hok
  rw [hprepare] at hkey
  refine ⟨entry, iiter₁, offset₁, st₁, rest, hrest, (Except.ok.inj hok).symm, ?_⟩
  cases hfirst : T.firstEntry key with
  | none =>
      rw [hfirst] at hkey
      cases hkey
      exact ⟨hover, hst, Or.inl ⟨rfl, rfl⟩⟩
  | some b =>
      rw [hfirst] at hkey
      dsimp only at hkey
      by_cases hoffset : b.2.offset = offset
      · rw [if_pos hoffset] at hkey
        cases hkey
        exact ⟨hover, hst, Or.inr ⟨b, rfl, hoffset.symm, Or.inl hoffset⟩⟩
      · rw [if_neg hoffset] at hkey
        obtain ⟨⟨found, st₂⟩, hfound, hkey⟩ := Outcome.bind_eq_ok.mp hkey
        obtain ⟨hadds, hcached⟩ := PointReader.retrieveBlock_adds hst hfound
        cases hkey
        exact ⟨hover, hadds, Or.inr ⟨b, rfl, rfl, Or.inr ⟨found, rfl, hcached⟩⟩⟩

/-- The first pass makes an entry for each key, and adds only `Block`s to the cache. -/
theorem prepareKeys_adds (hst : st.AddsPlain reader) (h : iiter.Over T.indexContents)
    {keys : List InternalKey} {offset : ℕ} {r : List BatchEntry × IndexBlockIter × CacheState}
    (hok : T.prepareKeys ro (keys.map (·.val)) iiter offset st = .ok r) :
    r.1.length = keys.length ∧ r.2.2.AddsPlain reader := by
  induction keys generalizing iiter offset st r with
  | nil =>
      rw [← Except.ok.inj hok]
      exact ⟨rfl, hst⟩
  | cons key keys ih =>
      obtain ⟨_, _, _, _, rest, hrest, rfl, hover, hadds, -⟩ := prepareKeys_cons hst h hok
      obtain ⟨hlength, hadds'⟩ := ih hadds hover hrest
      exact ⟨congrArg (· + 1) hlength, hadds'⟩

/-- A block that the third pass can open was in the cache when the first one looked for it. -/
theorem cached_of_opens {cached : BlockHandle → Prop} {handle : BlockHandle}
    {found : Option Blocklike} (hfound : ∀ x ∈ found, x.isEncrypted = true → cached handle)
    {entry : BatchEntry} (hloaded : BatchEntry.Loaded cached
      (.kept ⟨if found.isSome then none else some handle, found, .ok⟩) entry)
    (hopens : entry.Opens) : cached handle := by
  cases found with
  | some x =>
      have hentry : entry = .kept ⟨none, some x, .ok⟩ := hloaded
      rw [hentry] at hopens
      obtain ⟨y, hy, hencrypted⟩ := hopens rfl
      exact hfound y hy hencrypted
  | none =>
      obtain ⟨block, rfl, hhandle, hcached⟩ := hloaded
      obtain ⟨y, hy, hencrypted⟩ := hopens (by rw [hhandle]; rfl)
      exact hcached y hy hencrypted

/-- If the third pass can open every block, the cache held them all. -/
theorem cached_of_prepareKeys (hst : st.AddsPlain reader) (h : iiter.Over T.indexContents)
    {keys : List InternalKey} {offset : ℕ}
    (hoffset : ∀ b ∈ T.table.written T.tableOptions, b.2.offset = offset → T.Cached reader b.2)
    {r : List BatchEntry × IndexBlockIter × CacheState}
    (hok : T.prepareKeys ro (keys.map (·.val)) iiter offset st = .ok r)
    {entries : List BatchEntry}
    (hloaded : List.Forall₂ (BatchEntry.Loaded (T.Cached reader)) r.1 entries)
    (hopens : ∀ e ∈ entries, e.Opens) : ∀ key ∈ keys, T.FirstBlockCached reader key := by
  induction keys generalizing iiter offset st r entries with
  | nil => exact fun key hkey => nomatch hkey
  | cons key keys ih =>
      obtain ⟨entry, _, offset', _, rest, hrest, rfl, hover, hadds, hentry⟩ :=
        prepareKeys_cons hst h hok
      obtain ⟨entry', entries', hhead, htail, rfl⟩ := List.forall₂_cons_left_iff.mp hloaded
      obtain ⟨hopen, hopens⟩ := List.forall_mem_cons.mp hopens
      rw [List.forall_mem_cons]
      rcases hentry with ⟨hfirst, rfl⟩ | ⟨b, hfirst, rfl, hcase⟩
      · refine ⟨fun b hb => ?_, ih hadds hover hoffset hrest htail hopens⟩
        rw [hfirst] at hb
        cases hb
      · have hcached : T.Cached reader b.2 := by
          rcases hcase with hsame | ⟨found, rfl, hfound⟩
          · exact hoffset b (firstEntry_mem hfirst) hsame
          · exact cached_of_opens hfound hhead hopen
        constructor
        · intro b' hb'
          rw [hfirst] at hb'
          rwa [← Option.some.inj hb']
        · apply ih hadds hover _ hrest htail hopens
          intro b' hb' hsame
          rwa [eq_of_offset hb' (firstEntry_mem hfirst) hsame]

/-- Where `Get` answers for each key its check has passed, and the status is OK. -/
theorem of_get (hst : T.Serves st) {batch : List (InternalKey × σ)} {results : List (Status × σ)}
    (hget : List.Forall₂ (fun k r => ∃ fuel, T.get saveValue ro fuel st k.1.val k.2 = .ok r)
      batch results) :
    (∀ k ∈ batch, T.Checked saveValue k.1 k.2) ∧ ∀ r ∈ results, r.1 = .ok := by
  induction hget with
  | nil => exact ⟨(fun k hk => nomatch hk), fun r hr => nomatch hr⟩
  | cons hk _ ih =>
      obtain ⟨fuel, hok⟩ := hk
      have hchecked := checked_of_get hst hok
      have hresult := (get_settles ro hst _ hchecked).stable fuel _ hok
      rw [List.forall_mem_cons, List.forall_mem_cons]
      exact ⟨⟨hchecked, ih.1⟩, by rw [hresult], ih.2⟩

theorem map_val (batch : List (InternalKey × σ)) :
    batch.map (·.1.val) = (batch.map (·.1)).map (·.val) :=
  List.map_map.symm

/-- Where `MultiGet` agrees with `Get` it found the blocks in the cache. -/
theorem cached_of_agreesWithGet (hreader : reader.Sound T.env T.options T.alignment T.blocks)
    {batch : List (InternalKey × σ)}
    (hagrees : T.AgreesWithGet saveValue ro (.ofReader reader) batch) :
    ∀ k ∈ batch, T.FirstBlockCached reader k.1 ∧ T.Checked saveValue k.1 k.2 := by
  obtain ⟨fuel, results, hmulti, hget⟩ := hagrees
  obtain ⟨hchecked, hstatus⟩ := of_get (serves_ofReader hreader) hget
  have hadds : (CacheState.ofReader reader).AddsPlain reader := by
    intro h hnone hsome
    exact absurd (hnone.symm.trans hsome) Bool.false_ne_true
  obtain ⟨⟨entries, iiter, st⟩, hprepare, hmulti⟩ := Outcome.bind_eq_ok.mp hmulti
  obtain ⟨⟨entries', st'⟩, hretrieve, hfinish⟩ := Outcome.bind_eq_ok.mp hmulti
  rw [map_val] at hprepare
  obtain ⟨hlength, hadds'⟩ := prepareKeys_adds hadds T.over_index hprepare
  have hloaded := PointReader.retrieveMultipleBlocks_loaded hadds' hretrieve
  have hopens : ∀ e ∈ entries', e.Opens := by
    have hzip : (batch.zip entries').map Prod.snd = entries' := by
      apply List.map_snd_zip
      rw [← hloaded.length_eq, hlength, List.length_map]
    intro e he
    rw [← hzip] at he
    obtain ⟨k, hk, rfl⟩ := List.mem_map.mp he
    exact PointReader.opens_of_finishKeys hfinish hstatus k hk
  have hcached := cached_of_prepareKeys hadds T.over_index
    (fun b hb hoffset => absurd hoffset (offset_ne hb)) hprepare hloaded hopens
  intro k hk
  exact ⟨hcached k.1 (List.mem_map_of_mem hk), hchecked k hk⟩

/-- With the blocks in the cache `MultiGet` finds what the keys lead to. -/
theorem multiGet_settles (saveValue : SaveValue σ) (ro : LookupOptions)
    (hreader : reader.Sound T.env T.options T.alignment T.blocks) {batch : List (InternalKey × σ)}
    (hcached : ∀ k ∈ batch, T.FirstBlockCached reader k.1) : Outcome.Settles
      (fun fuel => T.multiGet saveValue ro fuel (.ofReader reader) batch)
      (batch.map fun k =>
        (.ok, lookupBlocks saveValue k.1 (T.blocksFrom (T.firstBlock k.1)) k.2)) := by
  have hkeys : ∀ key ∈ batch.map (·.1), T.FirstBlockCached reader key := by
    intro key hkey
    obtain ⟨k, hk, rfl⟩ := List.mem_map.mp hkey
    exact hcached k hk
  have hindex : T.index.status = .ok := by
    rw [T.index_eq]
    exact (Table.newIndexIterator_spec T.indexSize).2
  have hfresh : ∀ b ∈ T.table.written T.tableOptions, b.2.offset = 2 ^ 64 - 1 →
      EncryptedDataBlockIter.fresh.Over (T.written b.1) T.env.sstKey b.1.contents.entries :=
    fun b hb hoffset => absurd hoffset (offset_ne hb)
  obtain ⟨iiter, hover, hstatus, hprepare⟩ :=
    prepareKeys_cached ro hreader hkeys T.over_index hindex (2 ^ 64 - 1)
  rw [← map_val] at hprepare
  have hretrieve : T.retrieveMultipleBlocks ro
      (T.cachedEntries (batch.map (·.1)) (2 ^ 64 - 1)) (.ofReader reader) =
        .ok (T.cachedEntries (batch.map (·.1)) (2 ^ 64 - 1), .ofReader reader) :=
    PointReader.retrieveMultipleBlocks_none (cachedEntries_pending _ _) _
  exact Outcome.settles_bind (Outcome.settles_const hprepare)
    (Outcome.settles_bind (Outcome.settles_const hretrieve)
      (finishKeys_settles saveValue ro (serves_ofReader hreader) hfresh hover hstatus batch))

/-- Whatever the caches hold, `MultiGet` agrees with `Get` exactly if the cache of blocks holds the
data blocks that the index leads to, and `Get` gets past its own check. -/
theorem agreesWithGet_iff (T : OpenTable) (saveValue : SaveValue σ) (ro : LookupOptions)
    (reader : ReaderState) (hreader : reader.Sound T.env T.options T.alignment T.blocks)
    (batch : List (InternalKey × σ)) :
    T.AgreesWithGet saveValue ro (.ofReader reader) batch ↔
      ∀ k ∈ batch, T.FirstBlockCached reader k.1 ∧ T.Checked saveValue k.1 k.2 := by
  constructor
  · exact cached_of_agreesWithGet hreader
  · intro hbatch
    obtain ⟨fuel, hmulti⟩ := (multiGet_settles saveValue ro hreader
      fun k hk => (hbatch k hk).1).enough
    refine ⟨fuel, _, hmulti fuel le_rfl, ?_⟩
    rw [List.forall₂_map_right_iff, List.forall₂_same]
    intro k hk
    obtain ⟨fuel, hget⟩ :=
      (get_settles ro (serves_ofReader hreader) k.2 (hbatch k hk).2).enough
    exact ⟨fuel, hget fuel le_rfl⟩

end OpenTable

/-- The data block of a table of one. -/
def putOfASst : SstBlock where
  contents := dataBlock sampleGcm sampleDigest true sampleKey putOfABlock.contents.entries
  type := kNoCompression
  isDataBlock := true
  unset := ⟨[0, 0, 0, 0], length_unset⟩

theorem putOfASst_at : SstBlock.At sampleTableEnv none [putOfASst] ⟨0, 65⟩ putOfASst :=
  ⟨0, rfl, by decide +kernel⟩

/-- That table, opened with a block cache. -/
def oneBlockTable : OpenTable where
  env := sampleTableEnv
  options := { sampleReaderOptions with
    file := { sampleTableFile with
      reader := { sampleTableFile.reader with
        file := [putOfASst].flatMap (SstBlock.written sampleTableEnv none) } } }
  comparator := bytewiseComparator
  index := oneBlock.newIndexIterator (KeyShortening.none bytewiseComparator) defaultTableOptions
  globalSeqno := kDisableGlobalSequenceNumber
  checksum := .crc32c
  shortening := KeyShortening.none bytewiseComparator
  tableOptions := defaultTableOptions
  table := oneBlock
  useDeltaEncoding := true
  alignment := none
  blocks := [putOfASst]
  holds := ⟨⟨[], (List.append_nil _).symm⟩, by decide⟩
  fileSize := by decide +kernel
  persistentCache := rfl
  index_eq := rfl
  indexSize := by decide +kernel
  seqno_eq := rfl
  stored := by
    intro b hb
    obtain rfl := List.mem_singleton.mp hb
    exact ⟨putOfASst, putOfASst_at, rfl, fun h => absurd rfl h, rfl⟩
  blockSize := by
    intro b hb
    obtain rfl := List.mem_singleton.mp hb
    decide +kernel

/-- A key of the table, with nothing saved yet. -/
def putOfALookup : InternalKey × Option Bytes :=
  (⟨[97, 1, 255, 255, 255, 255, 255, 255, 255], by decide⟩, none)

/-- Keeps the first value. -/
def saveFirst : SaveValue (Option Bytes) := fun _ _ value => (false, some value)

/-- The block has been read before. -/
def putOfACached : ReaderState :=
  ReaderState.initial.insertBlock oneBlockTable.options
    (LookupOptions.call ⟨true, true⟩ ⟨0, 65⟩ false) putOfASst.contents

/-- The check of `Get` lets that block pass. -/
theorem checked_putOfALookup : oneBlockTable.Checked saveFirst putOfALookup.1 none := by
  intro iiter hseek
  have hfirst : oneBlockTable.firstBlock putOfALookup.1 = some 0 := by decide +kernel
  have hcheck : (oneBlockTable.index.seek bytewiseComparator putOfALookup.1.val >>=
      fun it => it.checkCorruption putOfABlock.lastKey putOfABlock.firstKey) = .ok () := by
    decide +kernel
  have hdone : (lookupEntries saveFirst bytewiseComparator putOfABlock.contents.entries
      putOfALookup.1 none).1 = true := by
    decide +kernel
  rw [show oneBlockTable.index.seek bytewiseComparator putOfALookup.1.val = .ok iiter from
    hseek] at hcheck
  rw [hfirst]
  exact ⟨hcheck, fun hno => absurd (hdone.symm.trans hno) Bool.false_ne_true.symm⟩

theorem agreesWithGet_cached : oneBlockTable.AgreesWithGet saveFirst ⟨true, true⟩
    (.ofReader putOfACached) [putOfALookup, putOfALookup] := by
  apply (OpenTable.agreesWithGet_iff oneBlockTable saveFirst ⟨true, true⟩ putOfACached
    (ReaderState.sound_initial.insertBlock putOfASst_at rfl) _).mpr
  have hlookup : oneBlockTable.FirstBlockCached putOfACached putOfALookup.1 ∧
      oneBlockTable.Checked saveFirst putOfALookup.1 none := by
    refine ⟨?_, checked_putOfALookup⟩
    intro b hb
    obtain rfl := List.mem_singleton.mp (OpenTable.firstEntry_mem hb)
    exact ⟨rfl, rfl⟩
  intro k hk
  rcases List.mem_cons.mp hk with rfl | hk
  · exact hlookup
  · obtain rfl := List.mem_singleton.mp hk
    exact hlookup

/-- With nothing in the cache `Get` finds the value, and `MultiGet` looks for a checksum that no
data block has. -/
theorem not_agreesWithGet_initial : ¬ oneBlockTable.AgreesWithGet saveFirst ⟨true, true⟩
    (.ofReader .initial) [putOfALookup] := by
  intro hagrees
  have hcached := (OpenTable.cached_of_agreesWithGet ReaderState.sound_initial hagrees
    putOfALookup List.mem_cons_self).1
  have hsome : (oneBlockTable.firstEntry putOfALookup.1).isSome = true := by decide +kernel
  obtain ⟨b, hb⟩ := Option.isSome_iff_exists.mp hsome
  cases (hcached b hb).2

example : oneBlockTable.get saveFirst ⟨true, true⟩ 3 (.ofReader .initial) putOfALookup.1.val
    none = .ok (.ok, some [120]) := by
  decide +kernel

end Tweezer
