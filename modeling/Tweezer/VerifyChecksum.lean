import Tweezer.ReadsAlike
import Tweezer.TableFinish

/-!
# `VerifyChecksum`

`BlockBasedTable::VerifyChecksum` with the two scans of
`table/block_based/block_based_table_reader.cc`. The scans fetch every block without decrypting
it, and the checksum that a fetch used to compare is gone with `BLOCK_ENC`.
-/

namespace Tweezer

/-- What a table reader holds: the handles of the footer, the index block if it keeps one, and
what the properties say about its form. -/
structure TableReader where
  options : ReaderOptions
  metaIndexHandle : BlockHandle
  indexHandle : BlockHandle
  indexBlock : Option Bytes
  cacheIndexBlocks : Bool
  indexKeyIncludesSeq : Bool
  indexValueIsFull : Bool
  /-- What `ReadProperties` and `VerifyBlockChecksum` make of the contents of the block. -/
  parseProperties : Bytes → Bool

/-- The options of a scan, and which prefetch buffer is its own. -/
structure ScanOptions where
  readaheadSize : ℕ
  noIo : Bool
  prefetchBuffer : ℕ

namespace TableReader

variable (E : TableEnv) (r : TableReader)

/-- `ReadBlockContents` of a fetcher over the table's file. -/
def fetch (st : ReaderState) (c : BlockRead) : Outcome (Option Bytes × ReaderState) :=
  match st.readBlockContents E r.options c with
  | (.error e, _) => .error e
  | (.ok contents, st) => .ok (contents, st)

/-- The fetch of a block by a scan. -/
def scanned (handle : BlockHandle) (prefetchBuffer : Option ℕ) : BlockRead where
  handle := handle
  prefetchBuffer := prefetchBuffer
  doUncompress := false
  maybeCompressed := false
  sameAllocator := true
  decrypt := false
  fillCache := true

/-- A read that is handed no buffer and no read options. -/
def plainCall (reader : BlockReader) (handle : BlockHandle) (noIo : Bool) : ReaderCall :=
  ⟨reader, handle, none, true, noIo, true⟩

/-- `TryReadPropertiesWithGlobalSeqno`: whether the status is OK. -/
def tryReadPropertiesWithGlobalSeqno (st : ReaderState) (handle : BlockHandle) :
    Outcome (Bool × ReaderState) :=
  match st.read E r.options (plainCall .readProperties handle false) with
  | (.error e, _) => .error e
  | (.ok none, st) => .ok (false, st)
  | (.ok (some contents), st) => .ok (r.parseProperties contents, st)

/-- The status of the fetch of a meta block, with the second try that a corrupt block of
properties gets. The one status that the fetch gives besides OK is a corruption. -/
def metaBlockStatus (st : ReaderState) (name : Bytes) (handle : BlockHandle) :
    Option Bytes → Outcome (Bool × ReaderState)
  | some _ => .ok (true, st)
  | none =>
      if name = kPropertiesBlock then r.tryReadPropertiesWithGlobalSeqno E st handle
      else .ok (false, st)

/-- `VerifyChecksumInMetaBlocks`, from where the iterator stands on, for at most `fuel` turns:
whether the status is OK. -/
def verifyChecksumInMetaBlocks :
    ℕ → DataBlockIter → ReaderState → Outcome (Bool × ReaderState)
  | 0, _, _ => .error .diverged
  | fuel + 1, it, st =>
      if it.valid = false then .ok (true, st)
      else if it.status ≠ .ok then .ok (false, st)
      else do
        let (name, value) ← it.entry
        let handle := (IndexValue.decode value none).1
        let (contents, st) ← r.fetch E st (scanned handle none)
        let (ok, st) ← r.metaBlockStatus E st name handle contents
        if ok then do
          let it ← it.next
          verifyChecksumInMetaBlocks fuel it st
        else .ok (false, st)

/-- The loop of `VerifyChecksumInBlocks`. -/
def verifyBlocks (buffer : ℕ) : ℕ → IndexBlockIter → ReaderState → Outcome (Bool × ReaderState)
  | 0, _, _ => .error .diverged
  | fuel + 1, it, st =>
      if it.valid = false then .ok (it.status = .ok, st)
      else if it.status ≠ .ok then .ok (false, st)
      else do
        let handle ← it.value
        let (contents, st) ← r.fetch E st (scanned handle (some buffer))
        if contents.isSome then do
          let it ← it.next
          verifyBlocks buffer fuel it st
        else .ok (false, st)

/-- `VerifyChecksumInBlocks`. -/
def verifyChecksumInBlocks (ro : ScanOptions) (fuel : ℕ) (it : IndexBlockIter)
    (st : ReaderState) : Outcome (Bool × ReaderState) := do
  let readaheadSize := if ro.readaheadSize ≠ 0 then ro.readaheadSize else kMaxAutoReadaheadSize
  let fetch := st.fetch.next E r.options.file (.newBuffer ro.prefetchBuffer readaheadSize
    readaheadSize (!r.options.file.reader.allowMmapReads))
  let it ← it.seekToFirst
  r.verifyBlocks E ro.prefetchBuffer fuel it { st with fetch := fetch }

/-- `NewIndexIterator` of the reader of an index that is not partitioned. -/
def newIndexIterator (ro : ScanOptions) (st : ReaderState) :
    Outcome (IndexBlockIter × ReaderState) :=
  match r.indexBlock with
  | some contents =>
      .ok ((Block.create contents).newIndexIterator r.indexKeyIncludesSeq r.indexValueIsFull, st)
  | none =>
      match st.read E r.options
        (plainCall (.retrieveBlock .index r.cacheIndexBlocks) r.indexHandle ro.noIo) with
      | (.error e, _) => .error e
      | (.ok none, st) => .ok (IndexBlockIter.fresh.invalidate (.corruption "index block"), st)
      | (.ok (some contents), st) =>
          .ok ((Block.create contents).newIndexIterator r.indexKeyIncludesSeq r.indexValueIsFull,
            st)

/-- `VerifyChecksum`: whether the status is OK. -/
def verifyChecksum (ro : ScanOptions) (fuel : ℕ) (st : ReaderState) :
    Outcome (Bool × ReaderState) :=
  match st.read E r.options (plainCall .readMetaIndexBlock r.metaIndexHandle false) with
  | (.error e, _) => .error e
  | (.ok none, st) => .ok (false, st)
  | (.ok (some contents), st) => do
      let it ← (Block.create contents).newDataIterator.seekToFirst
      let (ok, st) ← r.verifyChecksumInMetaBlocks E fuel it st
      if ok then do
        let (it, st) ← r.newIndexIterator E ro st
        if it.status ≠ .ok then .ok (false, st)
        else r.verifyChecksumInBlocks E ro fuel it st
      else .ok (false, st)

end TableReader

/-! ### Two scans -/

theorem ReaderState.Alike.newBuffer {T T₁ T₂ : TableFile} {E : TableEnv} {file : Bytes}
    {st st' : ReaderState} (h : st.Alike T file st') (k readaheadSize maxReadaheadSize : ℕ)
    (enable : Bool) :
    ReaderState.Alike T file
      { st with fetch := st.fetch.next E T₁ (.newBuffer k readaheadSize maxReadaheadSize enable) }
      { st' with
        fetch := st'.fetch.next E T₂ (.newBuffer k readaheadSize maxReadaheadSize enable) } :=
  ⟨h.fetch.update k ⟨rfl, rfl, rfl, rfl, rfl⟩, h.blockCache, h.blockCacheCompressed⟩

def TableReader.serving (r : TableReader) (file : Bytes) : TableReader :=
  { r with options := r.options.serving file }

namespace TableReader

variable {E : TableEnv} {r : TableReader} {file : Bytes} {st st' s : ReaderState}
  {handle : BlockHandle}

theorem fetch_scanned (h : st.Alike r.options.file file st')
    (hlen : file.length = r.options.file.reader.file.length) (handle : BlockHandle)
    (buffer : Option ℕ) :
    ∃ x x' s s', r.fetch E st (scanned handle buffer) = .ok (x, s) ∧
      (r.serving file).fetch E st' (scanned handle buffer) = .ok (x', s') ∧
      x'.isSome = x.isSome ∧ s.Alike r.options.file file s' := by
  obtain ⟨x, x', t, t', hread, hread', hsome, halike⟩ :=
    h.fetch.scan (E := E) (c := scanned handle buffer) hlen rfl rfl
  have hfile : (r.serving file).options.file = r.options.file.serving file := rfl
  unfold TableReader.fetch ReaderState.readBlockContents
  rw [hread, hfile, hread']
  exact ⟨_, _, _, _, rfl, rfl, hsome, halike, h.blockCache, h.blockCacheCompressed⟩

/-- A block that a scan finds cut off is not found whole by `ReadProperties` either. -/
theorem tryReadProperties_of_none (h : r.fetch E st (scanned handle none) = .ok (none, s))
    (s₁ : ReaderState) :
    r.tryReadPropertiesWithGlobalSeqno E s handle ≠ .ok (true, s₁) := by
  have hshort : (r.options.file.reader.file.slice handle.offset
      (handle.size + kBlockTrailerSize)).length ≠ handle.size + kBlockTrailerSize := by
    intro hwhole
    have hgives : ∃ contents t, st.fetch.readBlockContents E r.options.file
        (scanned handle none) = (.ok (some contents), t) := by
      rcases locate_cases r.options.file st.fetch (scanned handle none) with
        ⟨page, -, -, hloc⟩ | ⟨bytes, -, -, hloc⟩ | ⟨page, -, -, -, hloc⟩ | ⟨-, -, hloc⟩
      · obtain ⟨x, hx, -⟩ :=
          FetchState.readBlockContents_undecrypted (E := E) rfl rfl hloc fun h => nomatch h
        exact ⟨_, _, hx⟩
      · obtain ⟨x, hx, -⟩ :=
          FetchState.readBlockContents_undecrypted (E := E) rfl rfl hloc fun h => nomatch h
        exact ⟨_, _, hx⟩
      · obtain ⟨x, hx, -⟩ :=
          FetchState.readBlockContents_undecrypted (E := E) rfl rfl hloc fun h => nomatch h
        exact ⟨_, _, hx⟩
      · obtain ⟨x, hx, -⟩ :=
          FetchState.readBlockContents_undecrypted (E := E) rfl rfl hloc fun _ => hwhole
        exact ⟨_, _, hx⟩
    obtain ⟨contents, t, hread⟩ := hgives
    unfold TableReader.fetch ReaderState.readBlockContents at h
    rw [hread] at h
    cases h
  intro hok
  obtain ⟨c, hc⟩ : ∃ c, c = (plainCall .readProperties handle false).readProperties := ⟨_, rfl⟩
  have hloc : s.fetch.locate r.options.withoutPersistentCache.file c =
      (.file, r.options.file.reader.file.slice handle.offset (handle.size + kBlockTrailerSize),
        s.fetch) := by
    rw [hc]
    rfl
  have hread : (s.fetch.readBlockContents E r.options.withoutPersistentCache.file c).1 =
      c.truncated E r.options.withoutPersistentCache.file.reader
        (r.options.file.reader.file.slice handle.offset (handle.size + kBlockTrailerSize)) := by
    have hsize : c.blockSizeWithTrailer = handle.size + kBlockTrailerSize := by
      rw [hc]
      rfl
    unfold FetchState.readBlockContents
    rw [hloc]
    dsimp only
    rw [if_pos ⟨rfl, by rwa [hsize]⟩]
  have hcall : s.read E r.options (plainCall .readProperties handle false) =
      ((s.fetch.readBlockContents E r.options.withoutPersistentCache.file c).1,
        { s with
          fetch := (s.fetch.readBlockContents E r.options.withoutPersistentCache.file c).2 }) := by
    rw [hc]
    rfl
  unfold tryReadPropertiesWithGlobalSeqno at hok
  rw [hcall] at hok
  cases hresult : (s.fetch.readBlockContents E r.options.withoutPersistentCache.file c).1 with
  | error e =>
      rw [hresult] at hok
      cases hok
  | ok contents =>
      cases contents with
      | none =>
          rw [hresult] at hok
          cases hok
      | some contents => exact truncated_ne_some (hread.symm.trans hresult)

/-- A scan of the meta blocks that is content with one file is so with the other. -/
theorem verifyChecksumInMetaBlocks_ok (hlen : file.length = r.options.file.reader.file.length)
    (fuel : ℕ) (it : DataBlockIter) (h : st.Alike r.options.file file st')
    (hok : r.verifyChecksumInMetaBlocks E fuel it st = .ok (true, s)) :
    ∃ s', (r.serving file).verifyChecksumInMetaBlocks E fuel it st' = .ok (true, s') ∧
      s.Alike r.options.file file s' := by
  induction fuel generalizing it st st' with
  | zero => cases hok
  | succ fuel ih =>
      unfold verifyChecksumInMetaBlocks at hok ⊢
      by_cases hvalid : it.valid = false
      · rw [if_pos hvalid] at hok ⊢
        cases hok
        exact ⟨st', rfl, h⟩
      · rw [if_neg hvalid] at hok ⊢
        by_cases hstatus : it.status ≠ .ok
        · rw [if_pos hstatus] at hok
          cases hok
        · rw [if_neg hstatus] at hok ⊢
          obtain ⟨⟨name, value⟩, hentry, hok⟩ := Outcome.bind_eq_ok.mp hok
          obtain ⟨x, x', t, t', hread, hread', hsome, ht⟩ :=
            fetch_scanned (E := E) h hlen (IndexValue.decode value none).1 none
          rw [hentry, Outcome.ok_bind]
          dsimp only at hok ⊢
          rw [hread, Outcome.ok_bind] at hok
          rw [hread', Outcome.ok_bind]
          obtain ⟨⟨ok, t₁⟩, hresult, hok⟩ := Outcome.bind_eq_ok.mp hok
          cases ok with
          | false => cases hok
          | true =>
              cases x with
              | none =>
                  -- the status is not OK, also where the properties are tried again
                  unfold metaBlockStatus at hresult
                  dsimp only at hresult
                  split_ifs at hresult
                  · exact absurd hresult (tryReadProperties_of_none hread t₁)
                  · cases hresult
              | some contents =>
                  cases hresult
                  obtain ⟨contents', rfl⟩ := Option.isSome_iff_exists.mp hsome
                  dsimp only at hok ⊢
                  rw [metaBlockStatus, Outcome.ok_bind]
                  dsimp only
                  rw [if_pos rfl] at hok ⊢
                  obtain ⟨it', hnext, hok⟩ := Outcome.bind_eq_ok.mp hok
                  rw [hnext, Outcome.ok_bind]
                  exact ih it' ht hok

theorem verifyBlocks_ok (hlen : file.length = r.options.file.reader.file.length)
    (buffer fuel : ℕ) (it : IndexBlockIter) (h : st.Alike r.options.file file st')
    (hok : r.verifyBlocks E buffer fuel it st = .ok (true, s)) :
    ∃ s', (r.serving file).verifyBlocks E buffer fuel it st' = .ok (true, s') ∧
      s.Alike r.options.file file s' := by
  induction fuel generalizing it st st' with
  | zero => cases hok
  | succ fuel ih =>
      unfold verifyBlocks at hok ⊢
      by_cases hvalid : it.valid = false
      · rw [if_pos hvalid] at hok ⊢
        obtain ⟨hstatus, rfl⟩ := Prod.mk.inj (Except.ok.inj hok)
        rw [hstatus]
        exact ⟨st', rfl, h⟩
      · rw [if_neg hvalid] at hok ⊢
        by_cases hstatus : it.status ≠ .ok
        · rw [if_pos hstatus] at hok
          cases hok
        · rw [if_neg hstatus] at hok ⊢
          obtain ⟨handle, hvalue, hok⟩ := Outcome.bind_eq_ok.mp hok
          obtain ⟨x, x', t, t', hread, hread', hsome, ht⟩ :=
            fetch_scanned (E := E) h hlen handle (some buffer)
          rw [hvalue, Outcome.ok_bind, hread', Outcome.ok_bind]
          rw [hread, Outcome.ok_bind] at hok
          dsimp only at hok ⊢
          rw [hsome]
          by_cases hfound : x.isSome = true
          · rw [if_pos hfound] at hok ⊢
            obtain ⟨it', hnext, hok⟩ := Outcome.bind_eq_ok.mp hok
            rw [hnext, Outcome.ok_bind]
            exact ih it' ht hok
          · rw [if_neg hfound] at hok
            cases hok

theorem verifyChecksumInBlocks_ok (hlen : file.length = r.options.file.reader.file.length)
    (ro : ScanOptions) (fuel : ℕ) (it : IndexBlockIter) (h : st.Alike r.options.file file st')
    (hok : r.verifyChecksumInBlocks E ro fuel it st = .ok (true, s)) :
    ∃ s', (r.serving file).verifyChecksumInBlocks E ro fuel it st' = .ok (true, s') ∧
      s.Alike r.options.file file s' := by
  unfold verifyChecksumInBlocks at hok ⊢
  dsimp only at hok ⊢
  obtain ⟨it', hfirst, hok⟩ := Outcome.bind_eq_ok.mp hok
  rw [hfirst, Outcome.ok_bind]
  exact verifyBlocks_ok hlen _ _ it' (h.newBuffer _ _ _ _) hok

theorem newIndexIterator_alike (hindex : r.options.file.Same file r.indexHandle)
    (ro : ScanOptions) (h : st.Alike r.options.file file st') {it : IndexBlockIter}
    (hok : r.newIndexIterator E ro st = .ok (it, s)) :
    ∃ s', (r.serving file).newIndexIterator E ro st' = .ok (it, s') ∧
      s.Alike r.options.file file s' := by
  have hheld : (r.serving file).indexBlock = r.indexBlock := rfl
  unfold newIndexIterator at hok ⊢
  rw [hheld]
  cases hblock : r.indexBlock with
  | some contents =>
      rw [hblock] at hok
      cases hok
      exact ⟨st', rfl, h⟩
  | none =>
      rw [hblock] at hok
      obtain ⟨x, t, t', hread, hread', ht⟩ := h.retrieveBlock (E := E)
        (c := plainCall (.retrieveBlock .index r.cacheIndexBlocks) r.indexHandle ro.noIo)
        rfl hindex .index r.cacheIndexBlocks
      have hcall : st.read E r.options
          (plainCall (.retrieveBlock .index r.cacheIndexBlocks) r.indexHandle ro.noIo) = (x, t) :=
        hread
      have hcall' : st'.read E (r.serving file).options
          (plainCall (.retrieveBlock .index r.cacheIndexBlocks) r.indexHandle ro.noIo) =
            (x, t') := hread'
      dsimp only at hok ⊢
      rw [hcall] at hok
      have hfields : (r.serving file).cacheIndexBlocks = r.cacheIndexBlocks ∧
          (r.serving file).indexHandle = r.indexHandle := ⟨rfl, rfl⟩
      rw [hfields.1, hfields.2, hcall']
      rcases x with e | _ | contents
      · cases hok
      · cases hok
        exact ⟨t', rfl, ht⟩
      · cases hok
        exact ⟨t', rfl, ht⟩

/-- Only the metaindex, the index and the length of the file have a say in an OK status. -/
theorem verifyChecksum_ok (hlen : file.length = r.options.file.reader.file.length)
    (hmeta : r.options.file.Same file r.metaIndexHandle)
    (hindex : r.options.file.Same file r.indexHandle) (ro : ScanOptions) (fuel : ℕ)
    (h : st.Alike r.options.file file st')
    (hok : r.verifyChecksum E ro fuel st = .ok (true, s)) :
    ∃ s', (r.serving file).verifyChecksum E ro fuel st' = .ok (true, s') := by
  obtain ⟨x, t, t', hread, hread', ht⟩ := h.readBlockContents (E := E)
    (r := (plainCall .readMetaIndexBlock r.metaIndexHandle false).readMetaIndexBlock) rfl hmeta
  have hcall : st.read E r.options (plainCall .readMetaIndexBlock r.metaIndexHandle false) =
      (x, t) := hread
  have hcall' : st'.read E (r.serving file).options
      (plainCall .readMetaIndexBlock (r.serving file).metaIndexHandle false) = (x, t') := hread'
  unfold verifyChecksum at hok ⊢
  rw [hcall] at hok
  rw [hcall']
  rcases x with e | _ | contents
  · cases hok
  · cases hok
  · dsimp only at hok ⊢
    obtain ⟨it, hfirst, hok⟩ := Outcome.bind_eq_ok.mp hok
    obtain ⟨⟨ok, s₁⟩, hmetaBlocks, hok⟩ := Outcome.bind_eq_ok.mp hok
    cases ok with
    | false => cases hok
    | true =>
        obtain ⟨s₁', hmetaBlocks', hs₁⟩ :=
          verifyChecksumInMetaBlocks_ok hlen fuel it ht hmetaBlocks
        rw [hfirst, Outcome.ok_bind, hmetaBlocks', Outcome.ok_bind]
        dsimp only at hok ⊢
        rw [if_pos rfl] at hok ⊢
        obtain ⟨⟨iter, s₂⟩, hiter, hok⟩ := Outcome.bind_eq_ok.mp hok
        obtain ⟨s₂', hiter', hs₂⟩ := newIndexIterator_alike hindex ro hs₁ hiter
        rw [hiter', Outcome.ok_bind]
        dsimp only at hok ⊢
        split_ifs at hok ⊢
        · cases hok
        · obtain ⟨s₃', hblocks, -⟩ := verifyChecksumInBlocks_ok hlen ro fuel iter hs₂ hok
          exact ⟨s₃', hblocks⟩

end TableReader

/-! ### Damage -/

/-- The reader has the file of this table, and the handles of its footer. -/
structure TableReader.Opened (E : TableEnv) (t : SstContents) (r : TableReader) : Prop where
  file : r.options.file.reader.file = t.file E
  metaIndexHandle : r.metaIndexHandle = t.metaIndexHandle E
  indexHandle : r.indexHandle = t.indexHandle E

namespace SstContents

variable (E : TableEnv) (t : SstContents)

/-- Bytes inside of what the handles of blocks span have changed, and no MAC was forged. -/
structure Damaged (file : Bytes) : Prop where
  length : file.length = (t.file E).length
  changed : file ≠ t.file E
  inside : ∀ i, file[i]? ≠ (t.file E)[i]? →
    ∃ h b, SstBlock.At E t.alignment (t.blocks E) h b ∧ h.offset ≤ i ∧ i < h.offset + h.size
  unforged : ∀ h b, SstBlock.At E t.alignment (t.blocks E) h b → b.isDataBlock = false →
    file.slice h.offset h.size ≠ (t.file E).slice h.offset h.size →
    (E.digest E.sstKey (file.slice h.offset (h.size - kHmacSize))).val ≠
      file.slice (h.offset + (h.size - kHmacSize)) kHmacSize

/-- `VerifyChecksum` returns OK for the file, and does not for any damaged one. It need not
return: the end of the process will do. -/
def DetectsDamage (r : TableReader) (ro : ScanOptions) (st : ReaderState) : Prop :=
  (∃ fuel s, r.verifyChecksum E ro fuel st = .ok (true, s)) ∧
    ∀ file, t.Damaged E file → ∀ fuel s,
      (r.serving file).verifyChecksum E ro fuel st ≠ .ok (true, s)

variable {E t}

theorem blocks_properties : (t.blocks E)[t.named.length - 1]? = some t.properties := by
  unfold blocks
  have hne : t.named ≠ [] := List.append_ne_nil_of_right_ne_nil _ (List.cons_ne_nil _ _)
  have hsplit : t.named = (t.beforeIndex ++ (none, t.index) ::
      (t.compressionDict.toList.map (some kCompressionDictBlock, ·) ++
        t.rangeDel.toList.map (some kRangeDelBlock, ·))) ++ [(some kPropertiesBlock, t.properties)] := by
    simp [named, afterIndex]
  have hlast : t.named.getLast? = some (some kPropertiesBlock, t.properties) := by
    rw [hsplit, List.getLast?_concat]
  rw [List.getLast?_eq_getElem?] at hlast
  rw [List.getElem?_append_left (by
    rw [List.length_map]
    exact Nat.sub_lt (List.length_pos_of_ne_nil hne) Nat.one_pos), List.getElem?_map, hlast]
  rfl

theorem blocks_metaIndex : (t.blocks E)[t.named.length]? = some (t.metaIndex E) := by
  unfold blocks
  rw [List.getElem?_append_right (by rw [List.length_map]), List.length_map, Nat.sub_self]
  rfl

theorem blocks_index : (t.blocks E)[t.beforeIndex.length]? = some t.index := by
  unfold blocks named
  rw [List.getElem?_append_left (by
    rw [List.length_map, List.length_append, List.length_cons]
    omega), List.map_append, List.getElem?_append_right (by rw [List.length_map]),
    List.length_map, Nat.sub_self]
  rfl

theorem beforeIndex_lt : t.beforeIndex.length < t.named.length - 1 := by
  unfold named afterIndex
  simp only [List.length_append, List.length_cons]
  omega

end SstContents

namespace SstContents

variable {E : TableEnv} {t : SstContents} {i : ℕ} {b : SstBlock}

/-- The first byte of the MAC of the properties. -/
def macPosition (E : TableEnv) (t : SstContents) : ℕ :=
  (t.propertiesHandle E).offset + ((t.propertiesHandle E).size - kHmacSize)

/-- The file with another MAC behind the properties. -/
def otherMac (E : TableEnv) (t : SstContents) : Bytes :=
  (t.file E).set (t.macPosition E) ((t.file E).getD (t.macPosition E) 0 + 1)

theorem properties_not_data : t.properties.isDataBlock = false :=
  t.meta_not_data _ (by simp)

theorem propertiesHandle_size :
    (t.propertiesHandle E).size = t.properties.contents.length + kHmacSize := by
  rw [propertiesHandle, SstBlock.handle, SstBlock.length_raw_data, if_neg (by
    rw [properties_not_data]
    decide)]

/-- The other blocks are as they were. -/
theorem slice_otherMac (hb : (t.blocks E)[i]? = some b) (hi : i ≠ t.named.length - 1) :
    (t.otherMac E).slice (SstBlock.handle E t.alignment (t.blocks E) i b).offset
        ((SstBlock.handle E t.alignment (t.blocks E) i b).size + kBlockTrailerSize) =
      (t.file E).slice (SstBlock.handle E t.alignment (t.blocks E) i b).offset
        ((SstBlock.handle E t.alignment (t.blocks E) i b).size + kBlockTrailerSize) := by
  have hprops := blocks_properties (E := E) (t := t)
  have hsize := propertiesHandle_size (E := E) (t := t)
  unfold otherMac macPosition
  apply Bytes.slice_set
  rcases Nat.lt_or_gt_of_ne hi with hlt | hgt
  · have hle := SstBlock.handle_before E t.alignment hb hlt t.properties
    right
    exact hle.trans (Nat.le_add_right _ _)
  · have hle := SstBlock.handle_before E t.alignment hprops hgt b
    rw [← propertiesHandle, kBlockTrailerSize] at hle
    left
    omega

theorem propertiesHandle_at :
    SstBlock.At E t.alignment (t.blocks E) (t.propertiesHandle E) t.properties :=
  ⟨_, blocks_properties, rfl⟩

/-- The properties and their MAC in the file. -/
theorem slice_properties :
    (t.file E).slice (t.propertiesHandle E).offset
        ((t.propertiesHandle E).size - kHmacSize) =
          E.cipher.enc E.sstKey t.properties.contents ∧
      (t.file E).slice (t.macPosition E) kHmacSize =
        (E.digest E.sstKey (E.cipher.enc E.sstKey t.properties.contents)).val ∧
      t.macPosition E + kHmacSize ≤ (t.file E).length := by
  obtain ⟨hslice, hle⟩ := (propertiesHandle_at (E := E) (t := t)).slice_file t.footer
  have hsize := propertiesHandle_size (E := E) (t := t)
  have hmac : (E.digest E.sstKey (E.cipher.enc E.sstKey t.properties.contents)).val.length =
      kHmacSize := (E.digest E.sstKey (E.cipher.enc E.sstKey t.properties.contents)).property
  have hlen := E.cipher.length_enc E.sstKey t.properties.contents
  have hcut : (t.propertiesHandle E).size - kHmacSize = t.properties.contents.length := by
    rw [hsize, Nat.add_sub_cancel]
  rw [SstBlock.raw_of_not_data properties_not_data, List.append_assoc] at hslice
  rw [← file] at hslice hle
  have hinner : ∀ k n, k + n ≤ (t.propertiesHandle E).size + kBlockTrailerSize →
      (t.file E).slice ((t.propertiesHandle E).offset + k) n =
        Bytes.slice (E.cipher.enc E.sstKey t.properties.contents ++
          ((E.digest E.sstKey (E.cipher.enc E.sstKey t.properties.contents)).val ++
            RawBlock.trailer ⟨E.cipher.enc E.sstKey t.properties.contents ++
              (E.digest E.sstKey (E.cipher.enc E.sstKey t.properties.contents)).val,
              t.properties.type, t.properties.unset⟩)) k n := by
    intro k n hk
    rw [← hslice, Bytes.slice_slice hk]
  refine ⟨?_, ?_, ?_⟩
  · have h := hinner 0 t.properties.contents.length (by omega)
    rw [Nat.add_zero, Bytes.slice_zero_append hlen] at h
    rw [hcut]
    exact h
  · have h := hinner t.properties.contents.length kHmacSize (by omega)
    rw [Bytes.slice_eq_of_append hlen hmac] at h
    rw [macPosition, hcut]
    exact h
  · rw [macPosition, hcut]
    omega

theorem getElem?_slice {b : Bytes} {off n : ℕ} (hn : 0 < n) :
    (Bytes.slice b off n)[0]? = b[off]? := by
  rw [Bytes.slice, List.getElem?_take, if_pos hn, List.getElem?_drop, Nat.add_zero]

theorem otherMac_ne : (t.otherMac E)[t.macPosition E]? ≠ (t.file E)[t.macPosition E]? := by
  obtain ⟨-, -, hle⟩ := slice_properties (E := E) (t := t)
  have hlt : t.macPosition E < (t.file E).length := by
    rw [kHmacSize] at hle
    omega
  rw [otherMac, List.getElem?_set_self hlt, List.getD_eq_getElem?_getD,
    List.getElem?_eq_getElem hlt, Option.getD_some]
  intro heq
  have hsucc := congrArg UInt8.toNat (Option.some.inj heq)
  have hbyte := (t.file E)[t.macPosition E].toNat_lt
  rw [UInt8.toNat_add, UInt8.toNat_one] at hsucc
  omega

theorem damaged_otherMac : t.Damaged E (t.otherMac E) := by
  obtain ⟨hcontents, hmac, hle⟩ := slice_properties (E := E) (t := t)
  have hsize := propertiesHandle_size (E := E) (t := t)
  refine ⟨List.length_set, ?_, ?_, ?_⟩
  · intro heq
    apply otherMac_ne (E := E) (t := t)
    rw [heq]
  · intro i hi
    have hpos : i = t.macPosition E := by
      by_contra hne
      apply hi
      rw [otherMac, List.getElem?_set_ne (Ne.symm hne)]
    refine ⟨_, _, propertiesHandle_at, ?_, ?_⟩
    · rw [hpos]
      exact Nat.le_add_right _ _
    · rw [hpos, macPosition, hsize, Nat.add_sub_cancel, kHmacSize]
      omega
  · rintro h b ⟨i, hb, rfl⟩ - hchanged hforged
    by_cases hi : i = t.named.length - 1
    · obtain rfl : b = t.properties := by
        rw [hi, blocks_properties] at hb
        exact (Option.some.inj hb).symm
      rw [hi, ← propertiesHandle, ← macPosition] at hforged
      have hsame : (t.otherMac E).slice (t.propertiesHandle E).offset
          ((t.propertiesHandle E).size - kHmacSize) =
            E.cipher.enc E.sstKey t.properties.contents := by
        have hbehind : (t.propertiesHandle E).offset +
            ((t.propertiesHandle E).size - kHmacSize) ≤ t.macPosition E := le_rfl
        rw [otherMac, Bytes.slice_set _ _ (Or.inr hbehind), hcontents]
      rw [hsame, ← hmac] at hforged
      have hfirst := congrArg (·[0]?) hforged
      rw [getElem?_slice (by decide), getElem?_slice (by decide)] at hfirst
      exact otherMac_ne hfirst.symm
    · apply hchanged
      have hslice := slice_otherMac hb hi
      have htake := congrArg (List.take
        (SstBlock.handle E t.alignment (t.blocks E) i b).size) hslice
      rw [Bytes.slice, Bytes.slice, List.take_take, List.take_take,
        Nat.min_eq_left (Nat.le_add_right _ _)] at htake
      exact htake

end SstContents

/-- `VerifyChecksum` detects no table's damage. -/
theorem not_detectsDamage (E : TableEnv) (t : SstContents) (r : TableReader) (ro : ScanOptions)
    (st : ReaderState) (hopened : r.Opened E t) : ¬ t.DetectsDamage E r ro st := by
  rintro ⟨⟨fuel, s, hok⟩, hdetects⟩
  have hlen : (t.otherMac E).length = r.options.file.reader.file.length := by
    rw [hopened.file]
    exact List.length_set
  have hmeta : r.options.file.Same (t.otherMac E) r.metaIndexHandle := by
    rw [TableFile.Same, hopened.file, hopened.metaIndexHandle]
    have hbefore := SstContents.beforeIndex_lt (t := t)
    exact SstContents.slice_otherMac SstContents.blocks_metaIndex (by omega)
  have hindex : r.options.file.Same (t.otherMac E) r.indexHandle := by
    rw [TableFile.Same, hopened.file, hopened.indexHandle]
    exact SstContents.slice_otherMac SstContents.blocks_index SstContents.beforeIndex_lt.ne
  obtain ⟨s', hok'⟩ :=
    TableReader.verifyChecksum_ok hlen hmeta hindex ro fuel (.refl _ _ _) hok
  exact hdetects _ SstContents.damaged_otherMac fuel s' hok'

def sampleUnset : Octets 4 := ⟨[0, 0, 0, 0], length_unset⟩

/-- A table of one data block. -/
def sampleSst : SstContents where
  alignment := none
  dataBlocks := [⟨[1, 2, 3, 4, 5, 6, 7], kNoCompression, true, sampleUnset⟩]
  filterBlocks := []
  filterName := []
  indexMetaBlocks := []
  index :=
    { contents := ((PlainBlockBuilder.create 1 true false).add [97, 0, 0, 0, 0, 0, 0, 0, 0]
        (IndexValue.encode ⟨0, 7⟩ none) []).finish
      type := kNoCompression
      isDataBlock := false
      unset := sampleUnset }
  compressionDict := none
  rangeDel := none
  properties := ⟨[9, 9], kNoCompression, false, sampleUnset⟩
  metaIndexUnset := sampleUnset
  footer := []
  meta_not_data := by decide

/-- The reader of that table, which keeps the index. -/
def sampleTableReader : TableReader where
  options := { sampleReaderOptions with
    file := { sampleTableFile with
      reader := { sampleTableFile.reader with file := sampleSst.file sampleTableEnv } } }
  metaIndexHandle := sampleSst.metaIndexHandle sampleTableEnv
  indexHandle := sampleSst.indexHandle sampleTableEnv
  indexBlock := some sampleSst.index.contents
  cacheIndexBlocks := false
  indexKeyIncludesSeq := true
  indexValueIsFull := true
  parseProperties _ := true

theorem sampleTableReader_opened : sampleTableReader.Opened sampleTableEnv sampleSst :=
  ⟨rfl, rfl, rfl⟩

theorem not_detectsDamage_sampleSst : ¬ sampleSst.DetectsDamage sampleTableEnv sampleTableReader
    ⟨0, false, 0⟩ ReaderState.initial :=
  not_detectsDamage sampleTableEnv sampleSst sampleTableReader ⟨0, false, 0⟩ ReaderState.initial
    sampleTableReader_opened

/-- That table with the first byte of its data block changed. -/
def damagedSst : Bytes := (sampleSst.file sampleTableEnv).set 0 99

theorem damaged_damagedSst : sampleSst.Damaged sampleTableEnv damagedSst := by
  have hfirst : (sampleSst.blocks sampleTableEnv)[0]? =
      some ⟨[1, 2, 3, 4, 5, 6, 7], kNoCompression, true, sampleUnset⟩ := rfl
  refine ⟨List.length_set, by decide +kernel, ?_, ?_⟩
  · intro i hi
    have hzero : i = 0 := by
      by_contra hne
      apply hi
      rw [damagedSst, List.getElem?_set_ne (Ne.symm hne)]
    refine ⟨_, _, ⟨0, hfirst, rfl⟩, Nat.zero_le i, ?_⟩
    rw [hzero]
    decide
  · rintro h b ⟨i, hb, rfl⟩ hdata hchanged
    rcases Nat.eq_zero_or_pos i with rfl | hpos
    · rw [← Option.some.inj (hfirst.symm.trans hb)] at hdata
      cases hdata
    · apply absurd _ hchanged
      apply Bytes.slice_set
      have hle := SstBlock.handle_before sampleTableEnv sampleSst.alignment hfirst hpos b
      rw [kBlockTrailerSize] at hle
      left
      omega

/-- The changed byte goes unnoticed. -/
theorem damagedSst_not_detected :
    (sampleTableReader.verifyChecksum sampleTableEnv ⟨0, false, 0⟩ 10 ReaderState.initial).map
        Prod.fst = .ok true ∧
      ¬ sampleSst.DetectsDamage sampleTableEnv sampleTableReader ⟨0, false, 0⟩
        ReaderState.initial := by
  constructor
  · decide +kernel
  · rintro ⟨-, hdetects⟩
    have hrun : ((sampleTableReader.serving damagedSst).verifyChecksum sampleTableEnv
        ⟨0, false, 0⟩ 10 ReaderState.initial).map Prod.fst = .ok true := by
      decide +kernel
    cases hverify : (sampleTableReader.serving damagedSst).verifyChecksum sampleTableEnv
        ⟨0, false, 0⟩ 10 ReaderState.initial with
    | error e =>
        rw [hverify] at hrun
        cases hrun
    | ok result =>
        obtain ⟨ok, s⟩ := result
        rw [hverify] at hrun
        obtain rfl : ok = true := Except.ok.inj hrun
        exact hdetects damagedSst damaged_damagedSst 10 s hverify

end Tweezer
