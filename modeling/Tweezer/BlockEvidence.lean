import Tweezer.MetaBlockReaders

/-!
# Blocks that a host serves

What fetches with decryption let through when the file holds anything at all, and something else
at every read. The MAC covers the encrypted contents of a block and nothing else, so that it tells
that the builder wrote them with this key, but not where.
-/

namespace Tweezer

/-- What the builder of a table computes MACs over: its encrypted blocks, and the keys of its
entries with their encrypted values. -/
def signedStrings (E : TableEnv) (blocks : List SstBlock) (entries : List (InternalKey × Bytes)) :
    List Bytes :=
  (blocks.filter fun b => !b.isDataBlock).map (fun b => E.cipher.enc E.sstKey b.contents) ++
    entries.map fun e => e.1.val ++ E.cipher.enc E.sstKey e.2

/-- What decrypting such a string gives: a block that is not a data block, or the garbled key of
an entry with its garbled value. -/
def SignedPlain (E : TableEnv) (blocks : List SstBlock) (entries : List (InternalKey × Bytes))
    (plain : Bytes) : Prop :=
  (∃ b ∈ blocks, b.isDataBlock = false ∧ plain = b.contents) ∨
    ∃ e ∈ entries, plain = E.cipher.dec E.sstKey (e.1.val ++ E.cipher.enc E.sstKey e.2)

/-- The table's file with these contents. -/
def TableFile.serving (T : TableFile) (file : Bytes) : TableFile :=
  { T with reader := { T.reader with file := file } }

namespace FetchState

variable (E : TableEnv) (T : TableFile) (st : FetchState) (c : BlockRead)

/-- What a fetch computes a MAC over, and the MAC that it finds. -/
def macCheck : Option (Bytes × Bytes) :=
  if c.decrypt = false then none
  else
    match st.locate T c with
    | (.uncompressedPage _, _, _) => none
    | (.rawPage _, _, _) => none
    | (_, bytes, _) =>
        let memory := bytes ++ (T.reader.unfilled c.blockSizeWithTrailer).val
        some (memory.take (c.handle.size - kHmacSize),
          bytes.slice (bytes.length - kHmacSize - kBlockTrailerSize) kHmacSize)

/-- The string whose MAC the fetch finds to be right. -/
def verified : Option Bytes :=
  match st.macCheck T c with
  | none => none
  | some (s, hmac) => if (E.digest E.sstKey s).val = hmac then some s else none

/-- No MAC that a fetch finds to be right was forged. -/
def Unforged (blocks : List SstBlock) (entries : List (InternalKey × Bytes)) : Prop :=
  ∀ s ∈ st.verified E T c, s ∈ signedStrings E blocks entries

end FetchState

/-- What a page that was filled by decrypting fetches holds. -/
def SignedPage (E : TableEnv) (blocks : List SstBlock) (entries : List (InternalKey × Bytes))
    (size : ℕ) (page : Bytes) : Option PersistentCacheKind → Prop
  | none => True
  | some .uncompressed => ∃ plain, SignedPlain E blocks entries plain ∧
      plain.length + kHmacSize = size ∧
        (page = plain ∨ ∃ type ≠ kNoCompression, E.uncompress type plain = some page)
  | some .compressed => SignedPlain E blocks entries (page.take (size - kHmacSize)) ∧
      kHmacSize ≤ size ∧ size ≤ page.length

/-- The invariant of a run: the pages of these handles are what decrypting fetches left. -/
def FetchState.SignedPages (E : TableEnv) (blocks : List SstBlock)
    (entries : List (InternalKey × Bytes)) (handles : List BlockHandle)
    (kind : Option PersistentCacheKind) (st : FetchState) : Prop :=
  ∀ h ∈ handles, ∀ page ∈ st.persistentPages h, SignedPage E blocks entries h.size page kind

section Served

variable {E : TableEnv} {T : TableFile} {st : FetchState} {c : BlockRead}
  {blocks : List SstBlock} {entries : List (InternalKey × Bytes)}

theorem signedPlain_dec {s : Bytes} (h : s ∈ signedStrings E blocks entries) :
    SignedPlain E blocks entries (E.cipher.dec E.sstKey s) := by
  unfold signedStrings at h
  rcases List.mem_append.mp h with hblock | hentry
  · obtain ⟨b, hb, rfl⟩ := List.mem_map.mp hblock
    obtain ⟨hmem, hdata⟩ := List.mem_filter.mp hb
    left
    refine ⟨b, hmem, ?_, E.cipher.dec_enc _ _⟩
    simpa using hdata
  · obtain ⟨e, he, rfl⟩ := List.mem_map.mp hentry
    right
    exact ⟨e, he, rfl⟩

theorem truncated_ne_some {r : FileReader} {bytes contents : Bytes} :
    c.truncated E r bytes ≠ .ok (some contents) := by
  unfold BlockRead.truncated
  dsimp only
  split_ifs <;> exact fun h => nomatch h

/-- The fetch of a whole block that passes the MAC check: it decrypts the string whose MAC is
right, into a buffer that can be written. -/
theorem fetched_verified {source : BlockSource} {bytes : Bytes} {st' : FetchState}
    (hloc : st.locate T c = (source, bytes, st')) (hdecrypt : c.decrypt = true)
    (hsource : source = .prefetchBuffer ∨ source = .file)
    (hwhole : bytes.length = c.blockSizeWithTrailer) {contents : Option Bytes}
    (h : ((c.fetcher T.reader source).readBlockContents E
      (.ofBytes c.handle.size bytes)).1 = .ok contents) :
    st.verified E T c = some (bytes.take (c.handle.size - kHmacSize)) ∧
      kHmacSize ≤ c.handle.size ∧
      (source = .file → T.reader.mapped = false) ∧
      contents = (c.fetcher T.reader source).contents E (RawBlock.ofBytes c.handle.size bytes).type
        (E.cipher.dec E.sstKey (bytes.take (c.handle.size - kHmacSize))) := by
  rw [readBlockContents_fetched _ _ (show (c.fetcher T.reader source).source = .prefetchBuffer ∨
      (c.fetcher T.reader source).source = .file from hsource),
    if_pos (show (c.fetcher T.reader source).decrypt = true from hdecrypt)] at h
  obtain ⟨data, hdata⟩ : ∃ data, data = (RawBlock.ofBytes c.handle.size bytes).data := ⟨_, rfl⟩
  have htake : data = bytes.take c.handle.size := hdata
  have hle : c.handle.size ≤ bytes.length := by
    rw [hwhole, BlockRead.blockSizeWithTrailer]
    omega
  have hlen : data.length = c.handle.size := by
    rw [htake, List.length_take, Nat.min_eq_left hle]
  rw [← hdata] at h
  cases hcheck : BlockFetcher.checkHmac E data with
  | error e =>
      rw [hcheck] at h
      cases h
  | ok plain =>
      rw [hcheck, Outcome.ok_bind, hlen] at h
      unfold BlockFetcher.checkHmac at hcheck
      rw [hlen] at hcheck
      dsimp only at hcheck
      split_ifs at hcheck with hshort hmac
      obtain rfl := Except.ok.inj hcheck
      have hs : data.take (c.handle.size - kHmacSize) =
          bytes.take (c.handle.size - kHmacSize) := by
        rw [htake, List.take_take, Nat.min_eq_left (Nat.sub_le _ _)]
      have hmemory : (bytes ++ (T.reader.unfilled c.blockSizeWithTrailer).val).take
          (c.handle.size - kHmacSize) = bytes.take (c.handle.size - kHmacSize) :=
        List.take_append_of_le_length (by omega)
      have hfound : bytes.slice (bytes.length - kHmacSize - kBlockTrailerSize) kHmacSize =
          data.drop (c.handle.size - kHmacSize) := by
        have hoff : c.handle.size + kBlockTrailerSize - kHmacSize - kBlockTrailerSize =
            c.handle.size - kHmacSize := by omega
        have hn : c.handle.size - (c.handle.size - kHmacSize) = kHmacSize := by omega
        rw [htake, hwhole, BlockRead.blockSizeWithTrailer, Bytes.slice, List.drop_take, hoff, hn]
      rw [hs] at hmac h
      have hcheck : st.macCheck T c = some (bytes.take (c.handle.size - kHmacSize),
          data.drop (c.handle.size - kHmacSize)) := by
        rw [← hfound]
        unfold FetchState.macCheck
        rw [hloc, if_neg (by rw [hdecrypt]; decide)]
        rcases hsource with rfl | rfl
        · exact congrArg some (Prod.ext hmemory rfl)
        · exact congrArg some (Prod.ext hmemory rfl)
      by_cases hmap : (c.fetcher T.reader source).usedBuf (c.handle.size + kBlockTrailerSize) =
          .mapped
      · rw [if_pos hmap] at h
        cases h
      · rw [if_neg hmap] at h
        refine ⟨?_, by omega, ?_, (Except.ok.inj h).symm⟩
        · rw [FetchState.verified, hcheck]
          exact if_pos hmac
        · rintro rfl
          rw [← Bool.not_eq_true]
          intro hm
          apply hmap
          rw [FileReader.mapped, Bool.and_eq_true, Bool.not_eq_true'] at hm
          unfold BlockFetcher.usedBuf BlockRead.fetcher
          dsimp only
          rw [hm.1, hm.2]
          rfl

theorem contents_cases {f : BlockFetcher} {type : UInt8} {plain contents : Bytes}
    (h : f.contents E type plain = some contents) :
    contents = plain ∨
      f.doUncompress = true ∧ type ≠ kNoCompression ∧ E.uncompress type plain = some contents := by
  unfold BlockFetcher.contents at h
  split_ifs at h with hand
  · exact Or.inr ⟨hand.1, hand.2, h⟩
  · exact Or.inl (Option.some.inj h).symm

theorem length_taken {bytes : Bytes} {size : ℕ} (hsize : kHmacSize ≤ size)
    (hle : size ≤ bytes.length) : (bytes.take (size - kHmacSize)).length + kHmacSize = size := by
  rw [List.length_take]
  omega

/-- What a fetch from the file leaves in the persistent cache was signed. -/
theorem signedPage_afterwards {handles : List BlockHandle}
    (h : st.SignedPages E blocks entries handles T.persistentCache) {bytes : Bytes}
    {contents : Option Bytes} (hmapped : c.handle ∈ handles → T.reader.mapped = false)
    (hdecrypt : c.handle ∈ handles → c.decrypt = true)
    (hsize : c.handle ∈ handles → kHmacSize ≤ c.handle.size)
    (hle : c.handle.size ≤ bytes.length)
    (hplain : c.handle ∈ handles → SignedPlain E blocks entries
      (E.cipher.dec E.sstKey (bytes.take (c.handle.size - kHmacSize))))
    (hcontents : c.handle ∈ handles → contents = (c.fetcher T.reader .file).contents E
      (RawBlock.ofBytes c.handle.size bytes).type
      (E.cipher.dec E.sstKey (bytes.take (c.handle.size - kHmacSize)))) :
    (st.afterwards E T c .file bytes contents).SignedPages E blocks entries handles
      T.persistentCache := by
  -- only the page of this handle changes
  have hset : ∀ page, (c.handle ∈ handles →
      SignedPage E blocks entries c.handle.size page T.persistentCache) →
      FetchState.SignedPages E blocks entries handles T.persistentCache
        { st with
          persistentPages := Function.update st.persistentPages c.handle (some page) } := by
    intro page hpage h' hmem page' hpage'
    dsimp only at hpage'
    by_cases hh : h' = c.handle
    · rw [hh, Function.update_self] at hpage'
      obtain rfl := Option.some.inj hpage'
      rw [hh] at hmem ⊢
      exact hpage hmem
    · rw [Function.update_of_ne hh] at hpage'
      exact h h' hmem page' hpage'
  unfold FetchState.afterwards
  dsimp only
  split
  · next hkind =>
      apply hset
      intro hmem
      have hlen : (E.cipher.dec E.sstKey (bytes.take (c.handle.size - kHmacSize))).length =
          c.handle.size - kHmacSize := by
        rw [E.cipher.length_dec, List.length_take]
        omega
      rw [hkind, BlockRead.usedBytes, hmapped hmem, hdecrypt hmem]
      simp only [Bool.false_eq_true, if_false, if_true]
      refine ⟨?_, hsize hmem, ?_⟩
      · rw [List.take_left' hlen]
        exact hplain hmem
      · rw [List.length_append, hlen, List.length_drop]
        omega
  · next plain _ hkind =>
      apply hset
      intro hmem
      rw [hkind]
      refine ⟨_, hplain hmem, ?_, ?_⟩
      · rw [E.cipher.length_dec]
        exact length_taken (hsize hmem) hle
      · rcases contents_cases (hcontents hmem).symm with heq | ⟨-, htype, heq⟩
        · exact Or.inl heq
        · exact Or.inr ⟨_, htype, heq⟩
  · exact h

theorem FetchState.SignedPages.readBlockContents {handles : List BlockHandle}
    (h : st.SignedPages E blocks entries handles T.persistentCache)
    (hdecrypt : c.handle ∈ handles → c.decrypt = true)
    (hmac : st.Unforged E T c blocks entries) :
    (st.readBlockContents E T c).2.SignedPages E blocks entries handles T.persistentCache := by
  have htried : (st.tryReadFromCache T c).2.SignedPages E blocks entries handles
      T.persistentCache := by
    unfold FetchState.SignedPages
    rw [tryReadFromCache_pages]
    exact h
  unfold FetchState.readBlockContents
  rcases locate_cases T st c with ⟨page, -, -, hloc⟩ | ⟨bytes, -, -, hloc⟩ |
    ⟨page, -, -, -, hloc⟩ | ⟨-, -, hloc⟩
  · rw [hloc]
    dsimp only
    rw [if_neg (fun hand => nomatch hand.1)]
    split <;> exact h
  · rw [hloc]
    dsimp only
    rw [if_neg (fun hand => nomatch hand.1)]
    split
    · exact htried
    · unfold FetchState.afterwards
      cases c.prefetchBuffer with
      | none => exact htried
      | some k =>
          dsimp only
          split_ifs
          · exact htried
          · exact htried
  · rw [hloc]
    dsimp only
    rw [if_neg (fun hand => nomatch hand.1)]
    split <;> exact htried
  · rw [hloc]
    dsimp only
    split_ifs with hshort
    · exact htried
    · have hwhole : (T.reader.file.slice c.handle.offset c.blockSizeWithTrailer).length =
          c.blockSizeWithTrailer := by
        by_contra hne
        exact hshort ⟨rfl, hne⟩
      split
      · exact htried
      · next hread =>
          have hfetched := fun hmem =>
            fetched_verified hloc (hdecrypt hmem) (Or.inr rfl) hwhole hread
          apply signedPage_afterwards htried
          · exact fun hmem => (hfetched hmem).2.2.1 rfl
          · exact hdecrypt
          · exact fun hmem => (hfetched hmem).2.1
          · rw [hwhole, BlockRead.blockSizeWithTrailer]
            omega
          · exact fun hmem => signedPlain_dec (hmac _ (hfetched hmem).1)
          · exact fun hmem => (hfetched hmem).2.2.2

theorem FetchState.SignedPages.next {handles : List BlockHandle}
    (h : st.SignedPages E blocks entries handles T.persistentCache) {step : FetchStep}
    (hread : ∀ c, step = .read c →
      (c.handle ∈ handles → c.decrypt = true) ∧ st.Unforged E T c blocks entries) :
    (st.next E T step).SignedPages E blocks entries handles T.persistentCache := by
  cases step with
  | read c => exact h.readBlockContents (hread c rfl).1 (hread c rfl).2
  | newBuffer k a m e => exact h
  | prefetch k offset n => exact h
  | evict handle =>
      intro h' hmem page hpage
      dsimp only [FetchState.next] at hpage
      by_cases hh : h' = handle
      · rw [hh, Function.update_self] at hpage
        cases hpage
      · rw [Function.update_of_ne hh] at hpage
        exact h h' hmem page hpage

end Served

end Tweezer
