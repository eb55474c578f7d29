import Tweezer.BlockEvidence

/-!
# Reads of two files of one length

Reads that do not decrypt go alike over two files of one length: which blocks are found where,
and whether they are found whole, does not depend on what the files hold.
-/

namespace Tweezer

/-- Buffers of one shape. -/
structure FilePrefetchBuffer.Alike (p q : FilePrefetchBuffer) : Prop where
  length : q.buffer.length = p.buffer.length
  bufferOffset : q.bufferOffset = p.bufferOffset
  readaheadSize : q.readaheadSize = p.readaheadSize
  maxReadaheadSize : q.maxReadaheadSize = p.maxReadaheadSize
  enable : q.enable = p.enable

/-- Both files hold the same for this handle. -/
def TableFile.Same (T : TableFile) (file : Bytes) (h : BlockHandle) : Prop :=
  file.slice h.offset (h.size + kBlockTrailerSize) =
    T.reader.file.slice h.offset (h.size + kBlockTrailerSize)

/-- What reads left that went alike: no more is known of what they read than its size, where the
files differ. -/
structure FetchState.Alike (T : TableFile) (file : Bytes) (st st' : FetchState) : Prop where
  buffers : ∀ k, (st.prefetchBuffers k).Alike (st'.prefetchBuffers k)
  present : ∀ h, (st'.persistentPages h).isSome = (st.persistentPages h).isSome
  pages : ∀ h, T.Same file h → st'.persistentPages h = st.persistentPages h

section Alike

variable {E : TableEnv} {T : TableFile} {file : Bytes} {st st' : FetchState} {c : BlockRead}
  {r : FileReader} {p q : FilePrefetchBuffer}

theorem length_readInto (r : FileReader) (offset n : ℕ) :
    (r.readInto offset n).length = min n (r.file.length - offset) := by
  have hslice : (r.file.slice offset n).length = min n (r.file.length - offset) := by
    rw [Bytes.slice, List.length_take, List.length_drop]
  unfold FileReader.readInto
  dsimp only
  split_ifs
  · rw [(r.unfilled _).property, hslice]
  · exact hslice

namespace FilePrefetchBuffer

theorem Alike.overlaps (h : p.Alike q) (offset : ℕ) : q.overlaps offset = p.overlaps offset := by
  rw [FilePrefetchBuffer.overlaps, FilePrefetchBuffer.overlaps, h.length, h.bufferOffset]

theorem Alike.length_chunk (h : p.Alike q) (r : FileReader) (file : Bytes) (offset : ℕ) :
    (q.chunk { r with file := file } offset).length = (p.chunk r offset).length := by
  unfold FilePrefetchBuffer.chunk
  rw [h.overlaps, h.bufferOffset]
  split_ifs
  · rw [List.length_drop, List.length_drop, h.length]
  · rfl

theorem Alike.prefetch (h : p.Alike q) (hlen : file.length = r.file.length) (offset n : ℕ) :
    (p.prefetch r offset n).Alike (q.prefetch { r with file := file } offset n) := by
  unfold FilePrefetchBuffer.prefetch
  dsimp only
  rw [h.overlaps, h.length, h.bufferOffset, h.enable]
  split_ifs
  · exact h
  · exact h
  · refine ⟨?_, rfl, h.readaheadSize, h.maxReadaheadSize, rfl⟩
    dsimp only
    rw [List.length_append, List.length_append, length_readInto, length_readInto,
      h.length_chunk r file]
    dsimp only
    rw [hlen]

theorem Alike.tryReadFromCache (h : p.Alike q) (hlen : file.length = r.file.length)
    (offset n : ℕ) :
    (q.tryReadFromCache { r with file := file } offset n).1.isSome =
        (p.tryReadFromCache r offset n).1.isSome ∧
      (p.tryReadFromCache r offset n).2.Alike
        (q.tryReadFromCache { r with file := file } offset n).2 := by
  have hahead := h.prefetch hlen offset (n + p.readaheadSize)
  unfold FilePrefetchBuffer.tryReadFromCache
  rw [h.length, h.bufferOffset, h.enable, h.readaheadSize]
  split_ifs
  · exact ⟨rfl, h⟩
  · refine ⟨rfl, hahead.length, hahead.bufferOffset, ?_, hahead.maxReadaheadSize, hahead.enable⟩
    dsimp only
    rw [hahead.maxReadaheadSize, hahead.readaheadSize]
  · exact ⟨rfl, h⟩
  · exact ⟨rfl, h⟩

end FilePrefetchBuffer

namespace FetchState

theorem Alike.update (h : st.Alike T file st') (k : ℕ) (hpq : p.Alike q) :
    FetchState.Alike T file
      { st with prefetchBuffers := Function.update st.prefetchBuffers k p }
      { st' with prefetchBuffers := Function.update st'.prefetchBuffers k q } := by
  refine ⟨fun j => ?_, h.present, h.pages⟩
  dsimp only
  by_cases hj : j = k
  · rw [hj, Function.update_self, Function.update_self]
    exact hpq
  · rw [Function.update_of_ne hj, Function.update_of_ne hj]
    exact h.buffers j

theorem Alike.setPage (h : st.Alike T file st') (handle : BlockHandle) {page page' : Bytes}
    (hpage : T.Same file handle → page' = page) :
    FetchState.Alike T file
      { st with persistentPages := Function.update st.persistentPages handle (some page) }
      { st' with persistentPages := Function.update st'.persistentPages handle (some page') } := by
  refine ⟨h.buffers, fun h' => ?_, fun h' hsame => ?_⟩
  · dsimp only
    by_cases hh : h' = handle
    · rw [hh, Function.update_self, Function.update_self]
      rfl
    · rw [Function.update_of_ne hh, Function.update_of_ne hh]
      exact h.present h'
  · dsimp only
    by_cases hh : h' = handle
    · rw [hh] at hsame
      rw [hh, Function.update_self, Function.update_self, hpage hsame]
    · rw [Function.update_of_ne hh, Function.update_of_ne hh]
      exact h.pages h' hsame

theorem Alike.tryReadFromCache (h : st.Alike T file st') (hlen : file.length = T.reader.file.length)
    (c : BlockRead) :
    (st'.tryReadFromCache (T.serving file) c).1.isSome = (st.tryReadFromCache T c).1.isSome ∧
      (st.tryReadFromCache T c).2.Alike T file (st'.tryReadFromCache (T.serving file) c).2 := by
  unfold FetchState.tryReadFromCache
  cases c.prefetchBuffer with
  | none => exact ⟨rfl, h⟩
  | some k =>
      obtain ⟨hsome, halike⟩ := (h.buffers k).tryReadFromCache hlen c.handle.offset
        c.blockSizeWithTrailer
      exact ⟨hsome, h.update k halike⟩

/-- Both reads find the block at the same kind of place. -/
theorem Alike.locate (h : st.Alike T file st') (hlen : file.length = T.reader.file.length)
    (c : BlockRead) :
    (∃ page page', st.locate T c = (.uncompressedPage page, [], st) ∧
        st'.locate (T.serving file) c = (.uncompressedPage page', [], st')) ∨
      (∃ bytes bytes', st.locate T c = (.prefetchBuffer, bytes, (st.tryReadFromCache T c).2) ∧
        st'.locate (T.serving file) c =
          (.prefetchBuffer, bytes', (st'.tryReadFromCache (T.serving file) c).2)) ∨
      (∃ page page', st.locate T c = (.rawPage (.ofBytes c.handle.size page), page,
          (st.tryReadFromCache T c).2) ∧
        st'.locate (T.serving file) c = (.rawPage (.ofBytes c.handle.size page'), page',
          (st'.tryReadFromCache (T.serving file) c).2)) ∨
      st.locate T c = (.file, T.reader.file.slice c.handle.offset c.blockSizeWithTrailer,
          (st.tryReadFromCache T c).2) ∧
        st'.locate (T.serving file) c = (.file, file.slice c.handle.offset c.blockSizeWithTrailer,
          (st'.tryReadFromCache (T.serving file) c).2) := by
  have hpresent := h.present c.handle
  have htried := (h.tryReadFromCache hlen c).1
  obtain ⟨bytes, s, htry⟩ : ∃ bytes s, st.tryReadFromCache T c = (bytes, s) := ⟨_, _, rfl⟩
  obtain ⟨bytes', s', htry'⟩ : ∃ bytes' s',
      st'.tryReadFromCache (T.serving file) c = (bytes', s') := ⟨_, _, rfl⟩
  rw [htry, htry'] at htried
  have hkind : (T.serving file).persistentCache = T.persistentCache := rfl
  have hfile : (T.serving file).reader.file = file := rfl
  unfold FetchState.locate
  rw [htry, htry', hkind, hfile]
  rcases T.persistentCache with _ | _ | _ <;>
    rcases hpage : st.persistentPages c.handle with _ | page <;>
    rcases hpage' : st'.persistentPages c.handle with _ | page' <;>
    rcases bytes with _ | bytes <;> rcases bytes' with _ | bytes' <;>
    simp [hpage, hpage'] at hpresent htried ⊢

/-- A read that neither decrypts nor uncompresses gives something, once the block is whole. -/
theorem readBlockContents_undecrypted (hd : c.decrypt = false) (hu : c.doUncompress = false)
    {source : BlockSource} {bytes : Bytes} {s : FetchState} (hloc : st.locate T c = (source, bytes, s))
    (hwhole : source = .file → bytes.length = c.blockSizeWithTrailer) :
    ∃ contents, st.readBlockContents E T c =
        (.ok (some contents), s.afterwards E T c source bytes (some contents)) ∧
      (source = .file → contents = bytes.take c.handle.size) := by
  have hguard : ¬(source = .file ∧ bytes.length ≠ c.blockSizeWithTrailer) :=
    fun hand => hand.2 (hwhole hand.1)
  have hplain : ∀ type plain, (c.fetcher T.reader source).contents E type plain = some plain := by
    intro type plain
    unfold BlockFetcher.contents
    rw [if_neg]
    rintro ⟨hdo, -⟩
    have hdo' : c.doUncompress = true := hdo
    rw [hu] at hdo'
    cases hdo'
  have hfd : (c.fetcher T.reader source).decrypt = false := hd
  have hgives : ∃ contents, ((c.fetcher T.reader source).readBlockContents E
      (.ofBytes c.handle.size bytes)).1 = .ok (some contents) ∧
        (source = .file → contents = bytes.take c.handle.size) := by
    cases source with
    | uncompressedPage page => exact ⟨page, rfl, by rintro ⟨⟩⟩
    | rawPage page =>
        refine ⟨page.data, ?_, by rintro ⟨⟩⟩
        have hfinish := finish_eq_contents (E := E) (c.fetcher T.reader (.rawPage page))
          ((c.fetcher T.reader (.rawPage page)).usedBuf
            ((RawBlock.ofBytes c.handle.size bytes).data.length + kBlockTrailerSize))
          page.type page.data [] []
        rw [List.append_nil, hplain] at hfinish
        unfold BlockFetcher.readBlockContents
        simp only [BlockRead.fetcher, hd, Bool.false_eq_true, false_and, if_false]
        exact congrArg Except.ok hfinish
    | prefetchBuffer =>
        refine ⟨(RawBlock.ofBytes c.handle.size bytes).data, ?_, by rintro ⟨⟩⟩
        rw [readBlockContents_fetched _ _ (Or.inl rfl), hfd, if_neg Bool.false_ne_true, hplain]
    | file =>
        refine ⟨(RawBlock.ofBytes c.handle.size bytes).data, ?_, fun _ => rfl⟩
        rw [readBlockContents_fetched _ _ (Or.inr rfl), hfd, if_neg Bool.false_ne_true, hplain]
  obtain ⟨contents, hok, hcontents⟩ := hgives
  refine ⟨contents, ?_, hcontents⟩
  unfold FetchState.readBlockContents
  rw [hloc]
  dsimp only
  rw [if_neg hguard, hok]

/-- What a read of the file leaves in the persistent cache. -/
theorem Alike.afterwards (h : st.Alike T file st') (c : BlockRead) {bytes bytes' : Bytes}
    {contents contents' : Option Bytes} (hsome : contents'.isSome = contents.isSome)
    (hsame : T.Same file c.handle → bytes' = bytes ∧ contents' = contents) :
    (st.afterwards E T c .file bytes contents).Alike T file
      (st'.afterwards E (T.serving file) c .file bytes' contents') := by
  have hused : T.Same file c.handle →
      c.usedBytes E (T.serving file).reader bytes' = c.usedBytes E T.reader bytes := by
    intro hs
    rw [(hsame hs).1]
    rfl
  have hkind : (T.serving file).persistentCache = T.persistentCache := rfl
  unfold FetchState.afterwards
  dsimp only
  rw [hkind]
  cases c.fillCache with
  | false => exact h
  | true =>
      cases T.persistentCache with
      | none => exact h
      | some kind =>
          cases kind with
          | compressed => exact h.setPage _ hused
          | uncompressed =>
              cases contents with
              | none =>
                  obtain rfl : contents' = none := Option.isNone_iff_eq_none.mp (by
                    rw [← Option.not_isSome, hsome]
                    rfl)
                  exact h
              | some contents =>
                  obtain ⟨contents', rfl⟩ := Option.isSome_iff_exists.mp hsome
                  exact h.setPage _ fun hs => Option.some.inj (hsame hs).2

/-- A scan finds a block in both files or in neither. -/
theorem Alike.scan (h : st.Alike T file st') (hlen : file.length = T.reader.file.length)
    (hd : c.decrypt = false) (hu : c.doUncompress = false) :
    ∃ x x' s s', st.readBlockContents E T c = (.ok x, s) ∧
      st'.readBlockContents E (T.serving file) c = (.ok x', s') ∧ x'.isSome = x.isSome ∧
      s.Alike T file s' := by
  have htried := (h.tryReadFromCache hlen c).2
  have hbuffer : ∀ s : FetchState, ∀ T bytes contents,
      s.afterwards E T c .prefetchBuffer bytes contents = s := by
    intro s T bytes contents
    unfold FetchState.afterwards
    dsimp only
    cases c.prefetchBuffer with
    | none => rfl
    | some k =>
        dsimp only
        rw [hd, if_neg Bool.false_ne_true]
  rcases h.locate hlen c with ⟨page, page', hloc, hloc'⟩ | ⟨bytes, bytes', hloc, hloc'⟩ |
    ⟨page, page', hloc, hloc'⟩ | ⟨hloc, hloc'⟩
  · obtain ⟨x, hx, -⟩ := readBlockContents_undecrypted (E := E) hd hu hloc (fun h => nomatch h)
    obtain ⟨x', hx', -⟩ := readBlockContents_undecrypted (E := E) hd hu hloc' (fun h => nomatch h)
    exact ⟨_, _, _, _, hx, hx', rfl, h⟩
  · obtain ⟨x, hx, -⟩ := readBlockContents_undecrypted (E := E) hd hu hloc (fun h => nomatch h)
    obtain ⟨x', hx', -⟩ := readBlockContents_undecrypted (E := E) hd hu hloc' (fun h => nomatch h)
    rw [hbuffer] at hx hx'
    exact ⟨_, _, _, _, hx, hx', rfl, htried⟩
  · obtain ⟨x, hx, -⟩ := readBlockContents_undecrypted (E := E) hd hu hloc (fun h => nomatch h)
    obtain ⟨x', hx', -⟩ := readBlockContents_undecrypted (E := E) hd hu hloc' (fun h => nomatch h)
    exact ⟨_, _, _, _, hx, hx', rfl, htried⟩
  · have hslice : (file.slice c.handle.offset c.blockSizeWithTrailer).length =
        (T.reader.file.slice c.handle.offset c.blockSizeWithTrailer).length := by
      rw [Bytes.slice, Bytes.slice, List.length_take, List.length_take, List.length_drop,
        List.length_drop, hlen]
    by_cases hwhole : (T.reader.file.slice c.handle.offset c.blockSizeWithTrailer).length =
        c.blockSizeWithTrailer
    · obtain ⟨x, hx, hcontents⟩ :=
        readBlockContents_undecrypted (E := E) hd hu hloc fun _ => hwhole
      obtain ⟨x', hx', hcontents'⟩ :=
        readBlockContents_undecrypted (E := E) hd hu hloc' fun _ => hslice.trans hwhole
      refine ⟨_, _, _, _, hx, hx', rfl, htried.afterwards c rfl fun hs => ⟨hs, ?_⟩⟩
      rw [hcontents rfl, hcontents' rfl]
      have hbytes : file.slice c.handle.offset c.blockSizeWithTrailer =
          T.reader.file.slice c.handle.offset c.blockSizeWithTrailer := hs
      rw [hbytes]
    · refine ⟨none, none, _, _, ?_, ?_, rfl, htried⟩
      · unfold FetchState.readBlockContents
        rw [hloc]
        dsimp only
        rw [if_pos ⟨rfl, hwhole⟩, BlockRead.truncated, if_pos hd]
      · unfold FetchState.readBlockContents
        rw [hloc']
        dsimp only
        rw [if_pos ⟨rfl, fun heq => hwhole (hslice.symm.trans heq)⟩, BlockRead.truncated, if_pos hd]

/-- Without a prefetch buffer what both files hold is found at the same place. -/
theorem Alike.locate_same (h : st.Alike T file st') (hbuffer : c.prefetchBuffer = none)
    (hsame : T.Same file c.handle) :
    ∃ source bytes, st.locate T c = (source, bytes, st) ∧
      st'.locate (T.serving file) c = (source, bytes, st') ∧ source ≠ .prefetchBuffer := by
  have hbytes : file.slice c.handle.offset c.blockSizeWithTrailer =
      T.reader.file.slice c.handle.offset c.blockSizeWithTrailer := hsame
  have hnone : ∀ T : TableFile, ∀ st : FetchState, st.tryReadFromCache T c = (none, st) := by
    intro T st
    unfold FetchState.tryReadFromCache
    rw [hbuffer]
  have hkind : (T.serving file).persistentCache = T.persistentCache := rfl
  have hfile : (T.serving file).reader.file = file := rfl
  unfold FetchState.locate
  rw [hnone, hnone, h.pages _ hsame, hkind, hfile, hbytes]
  rcases T.persistentCache with _ | _ | _ <;> rcases st.persistentPages c.handle with _ | page
  all_goals exact ⟨_, _, rfl, rfl, fun h => nomatch h⟩

/-- A read without a prefetch buffer of what both files hold. -/
theorem Alike.fetch (h : st.Alike T file st') (hbuffer : c.prefetchBuffer = none)
    (hsame : T.Same file c.handle) :
    ∃ x s s', st.readBlockContents E T c = (x, s) ∧
      st'.readBlockContents E (T.serving file) c = (x, s') ∧ s.Alike T file s' := by
  obtain ⟨source, bytes, hloc, hloc', hsource⟩ := h.locate_same hbuffer hsame
  have htruncated : c.truncated E (T.serving file).reader bytes = c.truncated E T.reader bytes :=
    rfl
  have hfetcher : c.fetcher (T.serving file).reader source = c.fetcher T.reader source := rfl
  unfold FetchState.readBlockContents
  rw [hloc, hloc']
  dsimp only
  rw [htruncated, hfetcher]
  split_ifs
  · exact ⟨_, _, _, rfl, rfl, h⟩
  · cases ((c.fetcher T.reader source).readBlockContents E (.ofBytes c.handle.size bytes)).1 with
    | error e => exact ⟨_, _, _, rfl, rfl, h⟩
    | ok contents =>
        refine ⟨_, _, _, rfl, rfl, ?_⟩
        cases source with
        | uncompressedPage page => exact h
        | rawPage page => exact h
        | prefetchBuffer => exact absurd rfl hsource
        | file => exact h.afterwards c rfl fun _ => ⟨rfl, rfl⟩

end FetchState

end Alike

def ReaderOptions.serving (o : ReaderOptions) (file : Bytes) : ReaderOptions :=
  { o with file := o.file.serving file }

structure ReaderState.Alike (T : TableFile) (file : Bytes) (st st' : ReaderState) : Prop where
  fetch : st.fetch.Alike T file st'.fetch
  blockCache : st'.blockCache = st.blockCache
  blockCacheCompressed : st'.blockCacheCompressed = st.blockCacheCompressed

namespace ReaderState

variable {E : TableEnv} {o : ReaderOptions} {file : Bytes} {st st' : ReaderState}
  {c : ReaderCall} {r : BlockRead}

theorem Alike.insertBlock (h : st.Alike o.file file st') (c : ReaderCall) (block : Bytes) :
    (st.insertBlock o c block).Alike o.file file (st'.insertBlock (o.serving file) c block) := by
  have hcache : (o.serving file).blockCache = o.blockCache := rfl
  unfold ReaderState.insertBlock
  rw [hcache]
  split_ifs
  · refine ⟨h.fetch, ?_, h.blockCacheCompressed⟩
    dsimp only
    rw [h.blockCache]
  · exact h

theorem Alike.readBlockContents (h : st.Alike o.file file st') (hbuffer : r.prefetchBuffer = none)
    (hsame : o.file.Same file r.handle) :
    ∃ x s s', st.readBlockContents E o r = (x, s) ∧
      st'.readBlockContents E (o.serving file) r = (x, s') ∧ s.Alike o.file file s' := by
  obtain ⟨x, s, s', hread, hread', halike⟩ := h.fetch.fetch (E := E) hbuffer hsame
  have hfile : (o.serving file).file = o.file.serving file := rfl
  unfold ReaderState.readBlockContents
  rw [hread, hfile, hread']
  exact ⟨_, _, _, rfl, rfl, halike, h.blockCache, h.blockCacheCompressed⟩

theorem Alike.getDataBlockFromCache (h : st.Alike o.file file st') (c : ReaderCall) :
    ∃ ok found s s', st.getDataBlockFromCache E o c = (ok, found, s) ∧
      st'.getDataBlockFromCache E (o.serving file) c = (ok, found, s') ∧
      s.Alike o.file file s' := by
  have hcache : (o.serving file).blockCache = o.blockCache := rfl
  have hcompressed : (o.serving file).blockCacheCompressed = o.blockCacheCompressed := rfl
  unfold ReaderState.getDataBlockFromCache
  rw [hcache, hcompressed, h.blockCache, h.blockCacheCompressed]
  split
  · exact ⟨_, _, _, _, rfl, rfl, h⟩
  · split
    · next type data _ _ =>
        cases E.uncompress type data with
        | none => exact ⟨_, _, _, _, rfl, rfl, h⟩
        | some block =>
            refine ⟨_, _, _, _, rfl, rfl, ?_⟩
            split_ifs
            · exact h.insertBlock c block
            · exact h
    · exact ⟨_, _, _, _, rfl, rfl, h⟩

theorem Alike.putDataBlockToCache (h : st.Alike o.file file st') (c : ReaderCall) (type : UInt8)
    (ownBytes : Bool) (contents : Bytes) :
    ∃ ok block s s', st.putDataBlockToCache E o c type ownBytes contents = (ok, block, s) ∧
      st'.putDataBlockToCache E (o.serving file) c type ownBytes contents = (ok, block, s') ∧
      s.Alike o.file file s' := by
  have hcompressed : (o.serving file).blockCacheCompressed = o.blockCacheCompressed := rfl
  unfold ReaderState.putDataBlockToCache
  rw [hcompressed]
  split_ifs with htype hown
  · cases E.uncompress type contents with
    | none => exact ⟨_, _, _, _, rfl, rfl, h⟩
    | some block =>
        have hset : ReaderState.Alike o.file file
            { st with
              blockCacheCompressed :=
                Function.update st.blockCacheCompressed c.handle (some (type, contents)) }
            { st' with
              blockCacheCompressed :=
                Function.update st'.blockCacheCompressed c.handle (some (type, contents)) } := by
          refine ⟨h.fetch, h.blockCache, ?_⟩
          dsimp only
          rw [h.blockCacheCompressed]
        exact ⟨_, _, _, _, rfl, rfl, hset.insertBlock c block⟩
  · cases E.uncompress type contents with
    | none => exact ⟨_, _, _, _, rfl, rfl, h⟩
    | some block => exact ⟨_, _, _, _, rfl, rfl, h.insertBlock c block⟩
  · exact ⟨_, _, _, _, rfl, rfl, h.insertBlock c contents⟩
  · exact ⟨_, _, _, _, rfl, rfl, h⟩

theorem Alike.compressionType (h : st.Alike o.file file st') (hbuffer : r.prefetchBuffer = none)
    (hsame : o.file.Same file r.handle) :
    st'.compressionType (o.serving file) r = st.compressionType o r := by
  obtain ⟨source, bytes, hloc, hloc', -⟩ := h.fetch.locate_same hbuffer hsame
  have hfile : (o.serving file).file = o.file.serving file := rfl
  unfold ReaderState.compressionType
  rw [hloc, hfile, hloc']
  cases source <;> rfl

theorem Alike.maybeReadBlockAndLoadToCache (h : st.Alike o.file file st')
    (hbuffer : c.prefetchBuffer = none) (hsame : o.file.Same file c.handle) (type : BlockType) :
    ∃ x s s', st.maybeReadBlockAndLoadToCache E o c type = (x, s) ∧
      st'.maybeReadBlockAndLoadToCache E (o.serving file) c type = (x, s') ∧
      s.Alike o.file file s' := by
  have hcache : (o.serving file).blockCache = o.blockCache := rfl
  have hcompressed : (o.serving file).blockCacheCompressed = o.blockCacheCompressed := rfl
  have hload : c.loadToCache (o.serving file) type = c.loadToCache o type := rfl
  unfold ReaderState.maybeReadBlockAndLoadToCache
  rw [hcache, hcompressed, hload]
  split_ifs
  · exact ⟨_, _, _, rfl, rfl, h⟩
  · obtain ⟨ok, found, s, s', hget, hget', hs⟩ := h.getDataBlockFromCache (E := E) c
    rw [hget, hget']
    dsimp only
    split_ifs
    · have htype := hs.compressionType (r := c.loadToCache o type) hbuffer hsame
      obtain ⟨x, t, t', hread, hread', ht⟩ :=
        hs.readBlockContents (E := E) (r := c.loadToCache o type) hbuffer hsame
      rw [htype, hread, hread']
      rcases x with e | _ | contents
      · exact ⟨_, _, _, rfl, rfl, ht⟩
      · exact ⟨_, _, _, rfl, rfl, ht⟩
      · obtain ⟨ok, block, p, p', hput, hput', hp⟩ := ht.putDataBlockToCache (E := E) c
          (s.compressionType o (c.loadToCache o type)).1
          (s.compressionType o (c.loadToCache o type)).2 contents
        dsimp only
        rw [hput, hput']
        exact ⟨_, _, _, rfl, rfl, hp⟩
    · exact ⟨_, _, _, rfl, rfl, hs⟩

theorem Alike.readUncached (h : st.Alike o.file file st') (hbuffer : c.prefetchBuffer = none)
    (hsame : o.file.Same file c.handle) (type : BlockType) (useCache : Bool) :
    ∃ x s s', st.readUncached E o c type useCache = (x, s) ∧
      st'.readUncached E (o.serving file) c type useCache = (x, s') ∧ s.Alike o.file file s' := by
  have hretrieve : c.retrieve (o.serving file) type useCache = c.retrieve o type useCache := rfl
  unfold ReaderState.readUncached
  rw [hretrieve]
  split_ifs
  · exact ⟨_, _, _, rfl, rfl, h⟩
  · exact h.readBlockContents hbuffer hsame

theorem Alike.retrieveBlock (h : st.Alike o.file file st') (hbuffer : c.prefetchBuffer = none)
    (hsame : o.file.Same file c.handle) (type : BlockType) (useCache : Bool) :
    ∃ x s s', st.retrieveBlock E o c type useCache = (x, s) ∧
      st'.retrieveBlock E (o.serving file) c type useCache = (x, s') ∧ s.Alike o.file file s' := by
  unfold ReaderState.retrieveBlock
  split_ifs
  · obtain ⟨x, s, s', hmaybe, hmaybe', hs⟩ :=
      h.maybeReadBlockAndLoadToCache (E := E) hbuffer hsame type
    rw [hmaybe, hmaybe']
    rcases x with e | ⟨_ | _, _ | block⟩
    · exact ⟨_, _, _, rfl, rfl, hs⟩
    · exact ⟨_, _, _, rfl, rfl, hs⟩
    · exact ⟨_, _, _, rfl, rfl, hs⟩
    · exact hs.readUncached hbuffer hsame type useCache
    · exact ⟨_, _, _, rfl, rfl, hs⟩
  · exact h.readUncached hbuffer hsame type useCache

end ReaderState

theorem ReaderState.Alike.refl (T : TableFile) (file : Bytes) (st : ReaderState) :
    st.Alike T file st :=
  ⟨⟨fun _ => ⟨rfl, rfl, rfl, rfl, rfl⟩, fun _ => rfl, fun _ _ => rfl⟩, rfl, rfl⟩

end Tweezer
