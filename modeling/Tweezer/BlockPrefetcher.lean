import Tweezer.MetaBlockReaders

/-!
# Reading ahead of an iterator

`table/block_based/block_prefetcher.{h,cc}`. An iterator that has read a few blocks gets a
prefetch buffer of its own. The blocks that it reads through the buffer are data blocks, which are
not decrypted in it, so the buffer keeps what the file holds.
-/

namespace Tweezer

def kInitAutoReadaheadSize : ℕ := 8 * 1024

def kMinNumFileReadsToStartAutoReadahead : ℕ := 2

structure BlockPrefetcher where
  readaheadSize : ℕ
  readaheadLimit : ℕ
  numFileReads : ℕ
  /-- There is a `prefetch_buffer_`. -/
  hasBuffer : Bool
  deriving DecidableEq

/-- What decides how an iterator reads ahead: `compaction_readahead_size` if a compaction made it,
the read options, and whether the file implements `Prefetch`. -/
structure ReadAhead where
  compaction : Option ℕ
  readaheadSize : ℕ
  prefetchSupported : Bool
  deriving DecidableEq

namespace BlockPrefetcher

def initial : BlockPrefetcher := ⟨kInitAutoReadaheadSize, 0, 0, false⟩

/-- `CreateFilePrefetchBufferIfNotExists`, the buffer being the one with this number. -/
def createBuffer (r : FileReader) (slot size maxSize : ℕ) (p : BlockPrefetcher)
    (st : FetchState) : BlockPrefetcher × FetchState :=
  if p.hasBuffer then (p, st)
  else
    ({ p with hasBuffer := true },
      { st with
        prefetchBuffers := Function.update st.prefetchBuffers slot
          (.create size maxSize !r.allowMmapReads) })

def prefetchIfNeeded (r : FileReader) (a : ReadAhead) (slot : ℕ) (handle : BlockHandle)
    (p : BlockPrefetcher) (st : FetchState) : BlockPrefetcher × FetchState :=
  match a.compaction with
  | some size => createBuffer r slot size size p st
  | none =>
      if 0 < a.readaheadSize then createBuffer r slot a.readaheadSize a.readaheadSize p st
      else
        let p := { p with numFileReads := p.numFileReads + 1 }
        if p.numFileReads ≤ kMinNumFileReadsToStartAutoReadahead then (p, st)
        else if r.useDirectIo then
          createBuffer r slot kInitAutoReadaheadSize kMaxAutoReadaheadSize p st
        else if u64 (handle.offset + u64 (handle.size + kBlockTrailerSize)) ≤ p.readaheadLimit then
          (p, st)
        else if a.prefetchSupported then
          ({ p with
            readaheadLimit := u64 (handle.offset + p.readaheadSize)
            readaheadSize := min kMaxAutoReadaheadSize (p.readaheadSize * 2) }, st)
        else createBuffer r slot kInitAutoReadaheadSize kMaxAutoReadaheadSize p st

/-- `prefetch_buffer()`. -/
def prefetchBuffer (slot : ℕ) (p : BlockPrefetcher) : Option ℕ :=
  if p.hasBuffer then some slot else none

end BlockPrefetcher

namespace FilePrefetchBuffer

/-- Every byte of the buffer is the one of the file. -/
def Faithful (r : FileReader) (p : FilePrefetchBuffer) : Prop :=
  ∀ i b, p.buffer[i]? = some b → r.file[p.bufferOffset + i]? = some b

variable {r : FileReader} {p : FilePrefetchBuffer} {offset n : ℕ}

theorem faithful_create (readaheadSize maxReadaheadSize : ℕ) (enable : Bool) :
    (create readaheadSize maxReadaheadSize enable).Faithful r := fun _ _ h => nomatch h

theorem Faithful.clean (h : p.Faithful r) (offset n : ℕ) : p.Clean r offset n := by
  intro i hi _ _
  have hget := List.getElem?_eq_getElem hi
  rw [hget, h i _ hget]

/-- What the window takes over stays where it was, and the rest is read behind it. -/
theorem Faithful.prefetch (halign : 0 < r.requiredBufferAlignment) (hmapped : r.mapped = false)
    (haligned : p.Aligned r) (h : p.Faithful r) : (p.prefetch r offset n).Faithful r := by
  unfold FilePrefetchBuffer.prefetch
  dsimp only
  split_ifs
  · exact h
  · exact h
  · obtain ⟨start, hs⟩ : ∃ s, s = roundDown offset r.requiredBufferAlignment := ⟨_, rfl⟩
    rw [← hs, FileReader.readInto, hmapped, if_neg Bool.false_ne_true]
    intro i b hi
    dsimp only at hi ⊢
    rcases Nat.lt_or_ge i (p.chunk r offset).length with hlt | hge
    · rw [List.getElem?_append_left hlt] at hi
      rw [FilePrefetchBuffer.chunk] at hi
      by_cases hov : p.overlaps offset = true
      · rw [if_pos hov, List.getElem?_drop] at hi
        rw [overlaps, decide_eq_true_iff] at hov
        rw [hs, roundDown_add halign haligned hov.2.1, Nat.add_assoc]
        exact h _ b hi
      · rw [if_neg hov] at hi
        cases hi
    · rw [List.getElem?_append_right hge, Bytes.slice, List.getElem?_take] at hi
      split_ifs at hi
      rw [List.getElem?_drop] at hi
      rw [← hi]
      congr 1
      omega

theorem prefetch_enable (r : FileReader) (p : FilePrefetchBuffer) (offset n : ℕ) :
    (p.prefetch r offset n).enable = p.enable := by
  unfold prefetch
  dsimp only
  split_ifs <;> rfl

theorem tryReadFromCache_enable (r : FileReader) (p : FilePrefetchBuffer) (offset n : ℕ) :
    (p.tryReadFromCache r offset n).2.enable = p.enable := by
  unfold tryReadFromCache
  split_ifs
  · rfl
  · exact prefetch_enable ..
  · rfl
  · rfl

theorem tryReadFromCache_disabled (h : p.enable = false) :
    p.tryReadFromCache r offset n = (none, p) := by
  rw [tryReadFromCache, if_pos (Or.inl h)]

theorem Faithful.tryReadFromCache (halign : 0 < r.requiredBufferAlignment)
    (hmapped : r.mapped = false) (haligned : p.Aligned r) (h : p.Faithful r) :
    (p.tryReadFromCache r offset n).2.Faithful r := by
  have hahead : (p.prefetch r offset (n + p.readaheadSize)).Faithful r :=
    h.prefetch halign hmapped haligned
  unfold FilePrefetchBuffer.tryReadFromCache
  split_ifs
  · exact h
  · exact hahead
  · exact h
  · exact h

end FilePrefetchBuffer

/-! ### Reads through the buffer of an iterator -/

namespace FetchState

/-- The buffer serves data blocks as they are in the file, or, if the file is mapped, none. -/
structure ReadsAhead (r : FileReader) (slot : ℕ) (st : FetchState) : Prop where
  aligned : (st.prefetchBuffers slot).Aligned r
  faithful : (st.prefetchBuffers slot).Faithful r
  mapped : r.mapped = true → (st.prefetchBuffers slot).enable = false

variable {E : TableEnv} {T : TableFile} {st : FetchState} {c : BlockRead} {slot k : ℕ}

theorem tryReadFromCache_disabled (hk : c.prefetchBuffer = some k)
    (h : (st.prefetchBuffers k).enable = false) : st.tryReadFromCache T c = (none, st) := by
  unfold FetchState.tryReadFromCache
  rw [hk]
  dsimp only
  rw [FilePrefetchBuffer.tryReadFromCache_disabled h, Function.update_eq_self]

theorem locate_disabled (hk : c.prefetchBuffer = some k)
    (h : (st.prefetchBuffers k).enable = false) :
    st.locate T { c with prefetchBuffer := none } = st.locate T c := by
  unfold FetchState.locate
  rw [tryReadFromCache_disabled hk h]
  rfl

/-- A buffer that is not enabled is as good as none. -/
theorem readBlockContents_disabled (hk : c.prefetchBuffer = some k)
    (h : (st.prefetchBuffers k).enable = false) :
    st.readBlockContents E T { c with prefetchBuffer := none } = st.readBlockContents E T c := by
  have htry := tryReadFromCache_disabled (T := T) hk h
  unfold FetchState.readBlockContents
  rw [locate_disabled hk h]
  rcases locate_cases T st c with ⟨page, -, -, hcase⟩ | ⟨bytes, -, hserved, -⟩ |
    ⟨page, -, -, -, hcase⟩ | ⟨-, -, hcase⟩
  · rw [hcase]
    rfl
  · rw [htry] at hserved
    cases hserved
  · rw [hcase]
    rfl
  · rw [hcase]
    rfl

/-- A read that does not decrypt leaves the buffers as the look into its own one did. -/
theorem readBlockContents_prefetchBuffers (E : TableEnv) (T : TableFile) (st : FetchState)
    (hdecrypt : c.decrypt = false) :
    (st.readBlockContents E T c).2.prefetchBuffers = st.prefetchBuffers ∨
      (st.readBlockContents E T c).2.prefetchBuffers =
        (st.tryReadFromCache T c).2.prefetchBuffers := by
  have hafter : ∀ (s : FetchState) source bytes contents,
      (s.afterwards E T c source bytes contents).prefetchBuffers = s.prefetchBuffers := by
    intro s source bytes contents
    unfold FetchState.afterwards
    rw [hdecrypt]
    cases source with
    | uncompressedPage page => rfl
    | rawPage page => rfl
    | prefetchBuffer => cases c.prefetchBuffer <;> rfl
    | file =>
        dsimp only
        split <;> rfl
  have hread : (st.readBlockContents E T c).2.prefetchBuffers =
      (st.locate T c).2.2.prefetchBuffers := by
    unfold FetchState.readBlockContents
    obtain ⟨source, bytes, s, hloc⟩ : ∃ source bytes s, st.locate T c = (source, bytes, s) :=
      ⟨_, _, _, rfl⟩
    rw [hloc]
    dsimp only
    split_ifs
    · rfl
    · split
      · rfl
      · exact hafter s source bytes _
  rw [hread]
  rcases locate_cases T st c with ⟨page, -, -, hloc⟩ | ⟨bytes, -, -, hloc⟩ |
    ⟨page, -, -, -, hloc⟩ | ⟨-, -, hloc⟩
  · exact Or.inl (by rw [hloc])
  · exact Or.inr (by rw [hloc])
  · exact Or.inr (by rw [hloc])
  · exact Or.inr (by rw [hloc])

theorem readBlockContents_enable (hdecrypt : c.decrypt = false)
    (h : (st.prefetchBuffers k).enable = false) :
    ((st.readBlockContents E T c).2.prefetchBuffers k).enable = false := by
  rcases readBlockContents_prefetchBuffers E T st hdecrypt with heq | heq
  · rw [heq]
    exact h
  · rw [heq]
    unfold FetchState.tryReadFromCache
    cases c.prefetchBuffer with
    | none => exact h
    | some j =>
        dsimp only
        by_cases hj : k = j
        · subst hj
          rw [Function.update_self, FilePrefetchBuffer.tryReadFromCache_enable]
          exact h
        · rw [Function.update_of_ne hj]
          exact h

theorem ReadsAhead.of_eq {st' : FetchState} (h : st.ReadsAhead T.reader slot)
    (heq : st'.prefetchBuffers slot = st.prefetchBuffers slot) :
    st'.ReadsAhead T.reader slot := by
  constructor
  · rw [heq]
    exact h.aligned
  · rw [heq]
    exact h.faithful
  · rw [heq]
    exact h.mapped

theorem ReadsAhead.tryReadFromCache (halign : 0 < T.reader.requiredBufferAlignment)
    (h : st.ReadsAhead T.reader slot) (c : BlockRead) :
    (st.tryReadFromCache T c).2.ReadsAhead T.reader slot := by
  unfold FetchState.tryReadFromCache
  cases c.prefetchBuffer with
  | none => exact h
  | some k =>
      dsimp only
      by_cases hk : slot = k
      · subst hk
        constructor
        · dsimp only
          rw [Function.update_self]
          exact h.aligned.tryReadFromCache
        · dsimp only
          rw [Function.update_self]
          cases hm : T.reader.mapped with
          | true =>
              rw [FilePrefetchBuffer.tryReadFromCache_disabled (h.mapped hm)]
              exact h.faithful
          | false => exact h.faithful.tryReadFromCache halign hm h.aligned
        · dsimp only
          rw [Function.update_self, FilePrefetchBuffer.tryReadFromCache_enable]
          exact h.mapped
      · exact h.of_eq (Function.update_of_ne hk _ _)

theorem ReadsAhead.readBlockContents (halign : 0 < T.reader.requiredBufferAlignment)
    (h : st.ReadsAhead T.reader slot) (hdecrypt : c.decrypt = false) :
    (st.readBlockContents E T c).2.ReadsAhead T.reader slot := by
  rcases readBlockContents_prefetchBuffers E T st hdecrypt with heq | heq
  · exact h.of_eq (by rw [heq])
  · exact (h.tryReadFromCache halign c).of_eq (by rw [heq])

end FetchState

namespace ReaderState

variable {E : TableEnv} {o : ReaderOptions} {st : ReaderState} {c : ReaderCall} {k : ℕ}

theorem getDataBlockFromCache_fetch (E : TableEnv) (o : ReaderOptions) (st : ReaderState)
    (c : ReaderCall) : (st.getDataBlockFromCache E o c).2.2.fetch = st.fetch := by
  unfold getDataBlockFromCache
  split
  · rfl
  · split
    · split
      · rfl
      · dsimp only
        split_ifs
        · exact insertBlock_fetch _ _
        · rfl
    · rfl

theorem putDataBlockToCache_fetch (E : TableEnv) (o : ReaderOptions) (st : ReaderState)
    (c : ReaderCall) (type : UInt8) (ownBytes : Bool) (contents : Bytes) :
    (st.putDataBlockToCache E o c type ownBytes contents).2.2.fetch = st.fetch := by
  unfold putDataBlockToCache
  by_cases htype : type ≠ kNoCompression
  · rw [if_pos htype]
    split
    · rfl
    · dsimp only
      rw [insertBlock_fetch]
      split_ifs <;> rfl
  · rw [if_neg htype]
    dsimp only
    split_ifs
    · exact insertBlock_fetch _ _
    · rfl

section Keeps

variable {P : FetchState → Prop} {type : BlockType}

theorem maybeReadBlockAndLoadToCache_keeps
    (hread : ∀ f r, P f → r.decrypt = false → P (FetchState.readBlockContents E o.file f r).2)
    (h : P st.fetch) : P (st.maybeReadBlockAndLoadToCache E o c type).2.fetch := by
  unfold maybeReadBlockAndLoadToCache
  split_ifs with hnone
  · exact h
  · have hfound : P (st.getDataBlockFromCache E o c).2.2.fetch := by
      rw [getDataBlockFromCache_fetch]
      exact h
    dsimp only
    split_ifs
    · have hloaded : P ((st.getDataBlockFromCache E o c).2.2.readBlockContents E o
          (c.loadToCache o type)).2.fetch := hread _ _ hfound rfl
      split
      · next heq =>
          rw [heq] at hloaded
          exact hloaded
      · next heq =>
          rw [heq] at hloaded
          exact hloaded
      · next heq =>
          rw [heq] at hloaded
          dsimp only
          rw [putDataBlockToCache_fetch]
          exact hloaded
    · exact hfound

theorem readUncached_keeps
    (hread : ∀ f r, P f → r.decrypt = false → P (FetchState.readBlockContents E o.file f r).2)
    (h : P st.fetch) : P (st.readUncached E o c type true).2.fetch := by
  unfold readUncached
  split_ifs
  · exact h
  · exact hread _ _ h rfl

/-- What every read of a data block keeps, `RetrieveBlock` keeps if it may use the caches. -/
theorem retrieveBlock_keeps
    (hread : ∀ f r, P f → r.decrypt = false → P (FetchState.readBlockContents E o.file f r).2)
    (h : P st.fetch) : P (st.retrieveBlock E o c type true).2.fetch := by
  have hmaybe : P (st.maybeReadBlockAndLoadToCache E o c type).2.fetch :=
    maybeReadBlockAndLoadToCache_keeps hread h
  unfold retrieveBlock
  rw [if_pos rfl]
  split
  · next heq =>
      rw [heq] at hmaybe
      exact hmaybe
  · next heq =>
      rw [heq] at hmaybe
      exact hmaybe
  · next heq =>
      rw [heq] at hmaybe
      exact hmaybe
  · next heq =>
      rw [heq] at hmaybe
      exact readUncached_keeps hread hmaybe

end Keeps

theorem readBlockContents_disabled {r : BlockRead} (hk : r.prefetchBuffer = some k)
    (h : (st.fetch.prefetchBuffers k).enable = false) :
    st.readBlockContents E o { r with prefetchBuffer := none } = st.readBlockContents E o r := by
  unfold ReaderState.readBlockContents
  rw [FetchState.readBlockContents_disabled hk h]

theorem compressionType_disabled {r : BlockRead} (hk : r.prefetchBuffer = some k)
    (h : (st.fetch.prefetchBuffers k).enable = false) :
    st.compressionType o { r with prefetchBuffer := none } = st.compressionType o r := by
  unfold ReaderState.compressionType
  rw [FetchState.locate_disabled hk h]

theorem maybeReadBlockAndLoadToCache_disabled (hk : c.prefetchBuffer = some k)
    (h : (st.fetch.prefetchBuffers k).enable = false) (type : BlockType) :
    st.maybeReadBlockAndLoadToCache E o { c with prefetchBuffer := none } type =
      st.maybeReadBlockAndLoadToCache E o c type := by
  obtain ⟨ok, found, s, hget⟩ : ∃ ok found s, st.getDataBlockFromCache E o c = (ok, found, s) :=
    ⟨_, _, _, rfl⟩
  have hfetch := getDataBlockFromCache_fetch E o st c
  rw [hget] at hfetch
  have henable : (s.fetch.prefetchBuffers k).enable = false := by
    rw [hfetch]
    exact h
  have hload : (c.loadToCache o type).prefetchBuffer = some k := hk
  have hread : s.readBlockContents E o (ReaderCall.loadToCache o
      { c with prefetchBuffer := none } type) = s.readBlockContents E o (c.loadToCache o type) :=
    readBlockContents_disabled hload henable
  have hcompression : s.compressionType o (ReaderCall.loadToCache o
      { c with prefetchBuffer := none } type) = s.compressionType o (c.loadToCache o type) :=
    compressionType_disabled hload henable
  have hget' : st.getDataBlockFromCache E o { c with prefetchBuffer := none } =
      (ok, found, s) := hget
  unfold maybeReadBlockAndLoadToCache
  rw [hget, hget']
  dsimp only
  rw [hread, hcompression]
  rfl

theorem readUncached_disabled (hk : c.prefetchBuffer = some k)
    (h : (st.fetch.prefetchBuffers k).enable = false) (type : BlockType) (useCache : Bool) :
    st.readUncached E o { c with prefetchBuffer := none } type useCache =
      st.readUncached E o c type useCache := by
  have hretrieve : (c.retrieve o type useCache).prefetchBuffer = some k := hk
  have hread : st.readBlockContents E o (ReaderCall.retrieve o
      { c with prefetchBuffer := none } type useCache) =
        st.readBlockContents E o (c.retrieve o type useCache) :=
    readBlockContents_disabled hretrieve h
  unfold readUncached
  rw [hread]

/-- `RetrieveBlock` with a buffer that is not enabled. -/
theorem retrieveBlock_disabled (hk : c.prefetchBuffer = some k)
    (h : (st.fetch.prefetchBuffers k).enable = false) (type : BlockType) :
    st.retrieveBlock E o { c with prefetchBuffer := none } type true =
      st.retrieveBlock E o c type true := by
  have hstays : ((st.maybeReadBlockAndLoadToCache E o c type).2.fetch.prefetchBuffers k).enable =
      false := by
    apply maybeReadBlockAndLoadToCache_keeps (P := fun f => (f.prefetchBuffers k).enable = false)
    · intro f r hf hr
      exact FetchState.readBlockContents_enable hr hf
    · exact h
  unfold retrieveBlock
  rw [maybeReadBlockAndLoadToCache_disabled hk h]
  obtain ⟨r, s, hmaybe⟩ : ∃ r s, st.maybeReadBlockAndLoadToCache E o c type = (r, s) :=
    ⟨_, _, rfl⟩
  rw [hmaybe] at hstays ⊢
  rw [if_pos rfl, if_pos rfl]
  split
  · rfl
  · rfl
  · rfl
  · next heq =>
      obtain ⟨-, rfl⟩ := Prod.mk.inj heq
      exact readUncached_disabled hk hstays type true

end ReaderState

namespace BlockPrefetcher

variable {E : TableEnv} {T : TableFile} {alignment : Option ℕ} {blocks : List SstBlock}
  {p : BlockPrefetcher} {st : FetchState} {slot : ℕ}

/-- The prefetch buffer of the iterator, if there is one, reads ahead. -/
def Ahead (p : BlockPrefetcher) (r : FileReader) (slot : ℕ) (st : FetchState) : Prop :=
  p.hasBuffer = true → st.ReadsAhead r slot

theorem readsAhead_create (r : FileReader) (slot size maxSize : ℕ) (st : FetchState) :
    FetchState.ReadsAhead r slot
      { st with
        prefetchBuffers := Function.update st.prefetchBuffers slot
          (.create size maxSize !r.allowMmapReads) } := by
  constructor
  · dsimp only
    rw [Function.update_self]
    exact FilePrefetchBuffer.aligned_create ..
  · dsimp only
    rw [Function.update_self]
    exact FilePrefetchBuffer.faithful_create _ _ _
  · intro hm
    rw [FileReader.mapped, Bool.and_eq_true] at hm
    dsimp only
    rw [Function.update_self, FilePrefetchBuffer.create, hm.1]
    rfl

theorem createBuffer_spec (size maxSize : ℕ) (hst : st.Sound E T alignment blocks)
    (h : p.Ahead T.reader slot st) :
    (createBuffer T.reader slot size maxSize p st).2.Sound E T alignment blocks ∧
      (createBuffer T.reader slot size maxSize p st).1.Ahead T.reader slot
        (createBuffer T.reader slot size maxSize p st).2 := by
  unfold createBuffer
  split_ifs with hbuffer
  · exact ⟨hst, h⟩
  · exact ⟨hst.update slot (FilePrefetchBuffer.aligned_create ..),
      fun _ => readsAhead_create T.reader slot size maxSize st⟩

theorem prefetchIfNeeded_spec (a : ReadAhead) (handle : BlockHandle)
    (hst : st.Sound E T alignment blocks) (h : p.Ahead T.reader slot st) :
    (prefetchIfNeeded T.reader a slot handle p st).2.Sound E T alignment blocks ∧
      (prefetchIfNeeded T.reader a slot handle p st).1.Ahead T.reader slot
        (prefetchIfNeeded T.reader a slot handle p st).2 := by
  have hmore : ∀ p' : BlockPrefetcher, p'.hasBuffer = p.hasBuffer →
      p'.Ahead T.reader slot st := by
    intro p' hp hbuffer
    rw [hp] at hbuffer
    exact h hbuffer
  unfold prefetchIfNeeded
  cases a.compaction with
  | some size => exact createBuffer_spec size size hst h
  | none =>
      dsimp only
      split_ifs
      · exact createBuffer_spec _ _ hst h
      · exact ⟨hst, hmore _ rfl⟩
      · exact createBuffer_spec _ _ hst (hmore _ rfl)
      · exact ⟨hst, hmore _ rfl⟩
      · exact ⟨hst, hmore _ rfl⟩
      · exact createBuffer_spec _ _ hst (hmore _ rfl)

end BlockPrefetcher

end Tweezer
