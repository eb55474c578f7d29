import Tweezer.PointLookup

/-!
# What `Get` finds in a table

A lookup goes through the data blocks from the one that the index leads to until `SaveValue`
has seen enough. The blocks that the caches and the file give are those that were written; what
remains for `Get` to stumble on is its own check of the index entry against the block.
-/

namespace Tweezer

/-- A table that a builder wrote, as a reader has it open. There is no persistent cache. -/
structure OpenTable extends PointReader where
  shortening : KeyShortening comparator
  tableOptions : TableOptions
  table : Table comparator
  useDeltaEncoding : Bool
  alignment : Option ℕ
  blocks : List SstBlock
  holds : options.file.Holds env alignment blocks
  fileSize : options.file.reader.file.length < 2 ^ 64
  persistentCache : options.file.persistentCache = none
  index_eq : index = table.newIndexIterator shortening tableOptions
  indexSize : (table.indexBlock shortening tableOptions).length ≤ 2 ^ 31
  seqno_eq : globalSeqno = kDisableGlobalSequenceNumber
  /-- The data blocks are in the file under the handles of the index. -/
  stored : ∀ b ∈ table.written tableOptions, ∃ s, SstBlock.At env alignment blocks b.2 s ∧
    s.isDataBlock = true ∧ (s.type ≠ kNoCompression → options.blocksMaybeCompressed = true) ∧
    s.full env = some (b.1.stored env.cipher env.digest useDeltaEncoding env.sstKey).contents
  blockSize : ∀ b ∈ table.blocks,
    (b.stored env.cipher env.digest useDeltaEncoding env.sstKey).contents.length ≤ 2 ^ 31

section Blocks

variable {σ : Type} (saveValue : SaveValue σ) {u : Comparator} (key : InternalKey)

/-- What a lookup makes of these data blocks. -/
def lookupBlocks : List (TableBlock u) → σ → σ
  | [], s => s
  | b :: bs, s =>
      if (lookupEntries saveValue u b.contents.entries key s).1 then
        (lookupEntries saveValue u b.contents.entries key s).2
      else lookupBlocks bs (lookupEntries saveValue u b.contents.entries key s).2

/-- `check_corruption` lets every data block pass that a lookup comes to, the index iterator
being at the first of these. -/
def ChecksPass : List (TableBlock u) → IndexBlockIter → σ → Prop
  | [], _, _ => True
  | b :: bs, iiter, s =>
      iiter.checkCorruption b.lastKey b.firstKey = .ok () ∧
        ((lookupEntries saveValue u b.contents.entries key s).1 = false →
          ∀ iiter', iiter.next = .ok iiter' →
            ChecksPass bs iiter' (lookupEntries saveValue u b.contents.entries key s).2)

end Blocks

namespace OpenTable

variable (T : OpenTable)

def indexContents : IndexContents := T.table.index T.shortening T.tableOptions

/-- The entry of the index that the key leads to. -/
def firstBlock (key : InternalKey) : Option ℕ :=
  OrderedCursor.seek (T.indexContents.compare T.comparator) T.indexContents.keys
    (T.indexContents.seekKey key.val)

/-- The data blocks from there on. -/
def blocksFrom (pos : Option ℕ) : List (TableBlock T.comparator) :=
  match pos with
  | some i => T.table.blocks.drop i
  | none => []

/-- What was passed to `WriteBlock` for this data block. -/
def written (b : TableBlock T.comparator) : Bytes :=
  (b.stored T.env.cipher T.env.digest T.useDeltaEncoding T.env.sstKey).contents

/-- `check_corruption` lets every data block pass that a lookup of the key comes to. -/
def Checked {σ : Type} (saveValue : SaveValue σ) (key : InternalKey) (s : σ) : Prop :=
  ∀ iiter, T.index.seek T.comparator key.val = .ok iiter →
    ChecksPass saveValue key (T.blocksFrom (T.firstBlock key)) iiter s

/-- The caches hold what was written, and no `Block`s. -/
structure Serves (st : CacheState) : Prop where
  sound : st.reader.Sound T.env T.options T.alignment T.blocks
  encrypted : ∀ h, st.plain h = false

variable {T} {ro : LookupOptions} {σ : Type} {saveValue : SaveValue σ} {st : CacheState} {i : ℕ}
  {iiter : IndexBlockIter} {b : TableBlock T.comparator × BlockHandle} {key : InternalKey}

theorem serves_ofReader {reader : ReaderState}
    (h : reader.Sound T.env T.options T.alignment T.blocks) : T.Serves (.ofReader reader) :=
  ⟨h, fun _ => rfl⟩

theorem length_written : (T.table.written T.tableOptions).length = T.table.blocks.length := by
  have hmap := congrArg List.length (map_fst_writtenFrom T.tableOptions 0 T.table.blocks)
  rwa [List.length_map] at hmap

theorem length_entries : T.indexContents.entries.length = T.table.blocks.length := by
  rw [indexContents, Table.length_entries, length_written]

theorem block_mem (hb : b ∈ T.table.written T.tableOptions) : b.1 ∈ T.table.blocks := by
  rw [← map_fst_writtenFrom T.tableOptions 0 T.table.blocks]
  exact List.mem_map_of_mem hb

theorem getElem?_blocks (hb : (T.table.written T.tableOptions)[i]? = some b) :
    T.table.blocks[i]? = some b.1 := by
  have hmap := map_fst_writtenFrom T.tableOptions 0 T.table.blocks
  rw [← hmap, List.getElem?_map]
  exact congrArg _ hb

theorem buffer_lt : T.indexContents.builder.buffer.length < 2 ^ 32 := by
  have hsize := T.indexSize
  rw [Table.indexBlock_eq] at hsize
  exact IndexBlockIter.length_buffer_lt hsize

theorem over_index : T.index.Over T.indexContents := by
  rw [T.index_eq]
  exact Table.over_newIndexIterator T.indexSize

theorem firstKey_ne {j : ℕ} {b b' : TableBlock T.comparator × BlockHandle} (hij : i < j)
    (hb : (T.table.written T.tableOptions)[i]? = some b)
    (hb' : (T.table.written T.tableOptions)[j]? = some b') : b.1.firstKey ≠ b'.1.firstKey := by
  intro heq
  have hacross := Table.lastKey_lt_firstKey hij hb hb'
  rw [← heq] at hacross
  have hle := b.1.isLE_firstKey_lastKey
  rw [Std.OrientedCmp.gt_of_lt hacross] at hle
  cases hle

/-- No two data blocks begin at the same offset. -/
theorem index_eq_of_offset {j : ℕ} {b b' : TableBlock T.comparator × BlockHandle}
    (hi : (T.table.written T.tableOptions)[i]? = some b)
    (hj : (T.table.written T.tableOptions)[j]? = some b') (hoffset : b.2.offset = b'.2.offset) :
    i = j := by
  have hb' := List.mem_of_getElem? hj
  obtain ⟨s, hat, -, -, hfull⟩ := T.stored b (List.mem_of_getElem? hi)
  obtain ⟨s', hat', -, -, hfull'⟩ := T.stored b' hb'
  rw [hat.eq_of_offset hat' hoffset, hfull'] at hfull
  have hstored : b'.1.stored T.env.cipher T.env.digest T.useDeltaEncoding T.env.sstKey =
      b.1.stored T.env.cipher T.env.digest T.useDeltaEncoding T.env.sstKey :=
    congrArg (EncryptedBlock.mk · T.env.sstKey) (Option.some.inj hfull)
  have hfirst := firstKey_eq_of_stored (T.blockSize _ (block_mem hb')) hstored
  rcases Nat.lt_trichotomy i j with hij | heq | hij
  · exact absurd hfirst.symm (firstKey_ne hij hi hj)
  · exact heq
  · exact absurd hfirst (firstKey_ne hij hj hi)

/-- Data blocks that begin at the same offset are the same. -/
theorem eq_of_offset {b b' : TableBlock T.comparator × BlockHandle}
    (hb : b ∈ T.table.written T.tableOptions) (hb' : b' ∈ T.table.written T.tableOptions)
    (hoffset : b.2.offset = b'.2.offset) : b = b' := by
  obtain ⟨i, hi⟩ := List.mem_iff_getElem?.mp hb
  obtain ⟨j, hj⟩ := List.mem_iff_getElem?.mp hb'
  obtain rfl := index_eq_of_offset hi hj hoffset
  exact Option.some.inj (hi.symm.trans hj)

/-- `Seek` of an index iterator, wherever it stands. -/
theorem seek_stands (h : iiter.Over T.indexContents) (key : InternalKey) :
    ∃ iiter', iiter.seek T.comparator key.val = .ok iiter' ∧
      iiter'.Stands T.indexContents (T.firstBlock key) :=
  IndexBlockIter.seek_stands buffer_lt Table.sorted_index h key.val

/-- A call meets the condition on calls for a data block, with a prefetch buffer that holds what
the file holds. -/
theorem readsWritten_through (ro : LookupOptions) (hb : b ∈ T.table.written T.tableOptions)
    (reader : ReaderState) (noIo : Bool) (buffer : Option ℕ)
    (hclean : ∀ k ∈ buffer, T.options.file.reader.mapped = false ∧
      ∀ offset n, (reader.fetch.prefetchBuffers k).Clean T.options.file.reader offset n) :
    ∃ s, reader.ReadsWritten T.env T.options T.alignment T.blocks
        { ro.call b.2 noIo with prefetchBuffer := buffer } s ∧
      s.full T.env = some (T.written b.1) := by
  obtain ⟨s, hat, hdata, hcompressed, hfull⟩ := T.stored b hb
  refine ⟨s, ⟨hat, ?_, ?_⟩, hfull⟩
  · intro _ F r hfetched
    have hkind := T.persistentCache
    have hcall : ∀ r : BlockRead, r.handle = b.2 → r.prefetchBuffer = buffer →
        r.decrypt = false →
        reader.fetch.ReadsAsWritten T.env T.options.file T.alignment T.blocks r s := by
      intro r hhandle hbuffer hdecrypt
      refine ⟨by rw [hhandle]; exact hat, fun _ => ⟨?_, ?_, ?_⟩, fun h => ?_⟩
      · rw [hdecrypt, hdata]
        rfl
      · rw [hbuffer]
        exact fun k hk => (hclean k hk).2 _ _
      · refine fun hmapped => ⟨hdecrypt, ?_, fun h => ?_⟩
        · rw [hbuffer]
          cases hk : buffer with
          | none => rfl
          | some k =>
              rw [(hclean k hk).1] at hmapped
              cases hmapped
        · rw [hkind] at h
          cases h
      · rw [hkind] at h
        cases h
    unfold ReaderCall.fetched LookupOptions.call at hfetched
    dsimp only at hfetched
    split_ifs at hfetched
    · cases hfetched
      exact hcall _ rfl rfl rfl
    · cases hfetched
      exact hcall _ rfl rfl rfl
  · intro htype
    unfold ReaderCall.uncompresses LookupOptions.call
    dsimp only
    rw [ReaderOptions.maybeCompressed, hcompressed htype]
    rfl

theorem readsWritten (ro : LookupOptions) (hb : b ∈ T.table.written T.tableOptions)
    (reader : ReaderState) (noIo : Bool) :
    ∃ s, reader.ReadsWritten T.env T.options T.alignment T.blocks (ro.call b.2 noIo) s ∧
      s.full T.env = some (T.written b.1) :=
  readsWritten_through ro hb reader noIo none fun _ hk => nomatch hk

/-- `RetrieveBlock` of a data block gives it as it was written. -/
theorem retrieveBlock_spec (hst : T.Serves st) {c : ReaderCall} {s : SstBlock}
    (hreader : c.reader = .retrieveBlock .data true) (hio : c.noIo = false)
    (hread : st.reader.ReadsWritten T.env T.options T.alignment T.blocks c s)
    (hfull : s.full T.env = some (T.written b.1)) :
    ∃ st', T.retrieveBlock true c st = .ok (some ⟨true, T.written b.1⟩, st') ∧ T.Serves st' ∧
      st'.reader = (st.reader.retrieveBlock T.env T.options c .data true).2 := by
  obtain ⟨hgives, hsound⟩ := hst.sound.retrieveBlock T.holds hreader hread
  obtain ⟨r, reader, hretrieve⟩ : ∃ r reader, st.reader.retrieveBlock T.env T.options
      c .data true = (r, reader) := ⟨_, _, rfl⟩
  rw [hretrieve] at hgives hsound ⊢
  have hcontents : r = .ok (some (T.written b.1)) := by
    rcases hgives with hgives | ⟨hno, -⟩
    · rw [← hfull]
      exact hgives
    · rw [hio] at hno
      cases hno
  have hencrypted : (if T.options.blockCache && (st.reader.blockCache c.handle).isSome then
      !st.plain c.handle else true) = true := by
    rw [hst.encrypted]
    exact ite_self _
  refine ⟨⟨reader, Function.update st.plain c.handle false⟩, ?_, ⟨hsound, ?_⟩, rfl⟩
  · unfold PointReader.retrieveBlock
    rw [hretrieve, hcontents]
    dsimp only
    rw [hencrypted]
    rfl
  · intro h
    by_cases hh : h = c.handle
    · rw [hh]
      exact Function.update_self ..
    · rw [← hst.encrypted h]
      exact Function.update_of_ne hh ..

theorem newDataIterator_written (hb : b ∈ T.table.written T.tableOptions) :
    (EncryptedBlock.mk (T.written b.1) T.env.sstKey).newDataIterator T.env.cipher T.comparator
        T.globalSeqno =
      .ok (openedIter T.env.sstKey (T.written b.1) T.globalSeqno b.1.contents.entries) :=
  newDataIterator_dataBlock T.env.cipher T.env.digest T.env.sstKey T.comparator
    T.useDeltaEncoding T.globalSeqno b.1.contents b.1.ne_nil (T.blockSize _ (block_mem hb))

/-- A data block is retrieved as it was written, and the caches stay as they should be. -/
theorem newDataBlockIterator_spec (ro : LookupOptions) (hst : T.Serves st)
    (hb : b ∈ T.table.written T.tableOptions) :
    ∃ biter st', T.newDataBlockIterator ro b.2 st = .ok (biter, st') ∧ T.Serves st' ∧
      biter = openedIter T.env.sstKey (T.written b.1) T.globalSeqno b.1.contents.entries := by
  obtain ⟨s, hread, hfull⟩ := readsWritten ro hb st.reader false
  obtain ⟨st', hblock, hst', -⟩ := retrieveBlock_spec hst rfl rfl hread hfull
  refine ⟨_, st', ?_, hst', rfl⟩
  rw [PointReader.newDataBlockIterator, hblock, Outcome.ok_bind]
  dsimp only
  rw [PointReader.initBlockIterator, if_pos rfl]
  exact congrArg (· >>= _) (newDataIterator_written hb)

/-- The iterator over a block that was opened, before it is positioned. -/
theorem over_openedIter (hb : b ∈ T.table.written T.tableOptions) :
    (openedIter T.env.sstKey (T.written b.1) T.globalSeqno b.1.contents.entries).Over
      (T.written b.1) T.env.sstKey b.1.contents.entries := by
  have hsize := T.blockSize _ (block_mem hb)
  rw [TableBlock.stored, length_dataBlock] at hsize
  rw [T.seqno_eq]
  exact openedIter_over (by omega)

theorem checkBlock_openedIter (data : Bytes) (b : TableBlock T.comparator) (checks : Bool)
    (iiter : IndexBlockIter) : PointReader.checkBlock checks iiter
      (openedIter T.env.sstKey data T.globalSeqno b.contents.entries) =
        if checks then iiter.checkCorruption b.lastKey b.firstKey else .ok () := by
  obtain ⟨hlast, hfirst⟩ := ends_openedIter T.env.sstKey T.globalSeqno data b
  unfold PointReader.checkBlock
  rw [hlast, Outcome.ok_bind, hfirst, Outcome.ok_bind]

/-- A turn of the loop over the data blocks. -/
theorem searchBlocks_turn (ro : LookupOptions) (saveValue : SaveValue σ) (hst : T.Serves st)
    (h : iiter.Stands T.indexContents (some i))
    (hb : (T.table.written T.tableOptions)[i]? = some b) (checks : Bool) (key : InternalKey) :
    ∃ biter : EncryptedDataBlockIter, ∃ st',
      biter.Over (T.written b.1) T.env.sstKey b.1.contents.entries ∧ T.Serves st' ∧
      ∀ fuel status s, T.searchBlocks saveValue ro checks key.val (fuel + 1) iiter st status s =
        (if checks then iiter.checkCorruption b.1.lastKey b.1.firstKey else .ok ()) >>= fun _ =>
          T.searchBlock saveValue fuel biter key.val s >>= fun r =>
            if r.1 then .ok (r.2.1.status, iiter, st', r.2.2)
            else iiter.next >>= fun iiter' =>
              T.searchBlocks saveValue ro checks key.val fuel iiter' st' r.2.1.status r.2.2 := by
  have hmem := List.mem_of_getElem? hb
  obtain ⟨e, hshows⟩ := h.shows i rfl
  obtain ⟨biter, st', hopen, hst', rfl⟩ := newDataBlockIterator_spec ro hst hmem
  have hover := over_openedIter hmem
  refine ⟨_, st', hover, hst', fun fuel status s => ?_⟩
  rw [PointReader.searchBlocks, if_pos hshows.valid, hshows.value_eq hb, Outcome.ok_bind, hopen,
    Outcome.ok_bind]
  dsimp only
  rw [checkBlock_openedIter, if_neg (not_not.mpr hover.status_eq)]

theorem blocksFrom_some (hb : (T.table.written T.tableOptions)[i]? = some b) :
    T.blocksFrom (some i) = b.1 :: T.table.blocks.drop (i + 1) := by
  obtain ⟨hi, hget⟩ := List.getElem?_eq_some_iff.mp (getElem?_blocks hb)
  rw [blocksFrom, List.drop_eq_getElem_cons hi, hget]

theorem blocksFrom_next (T : OpenTable) (i : ℕ) :
    T.blocksFrom (if i + 1 < T.indexContents.entries.length then some (i + 1) else none) =
      T.table.blocks.drop (i + 1) := by
  rw [length_entries]
  by_cases hlt : i + 1 < T.table.blocks.length
  · rw [if_pos hlt]
    rfl
  · rw [if_neg hlt, List.drop_of_length_le (Nat.not_lt.mp hlt)]
    rfl

theorem exists_block (h : iiter.Stands T.indexContents (some i)) :
    ∃ b, (T.table.written T.tableOptions)[i]? = some b := by
  obtain ⟨e, hshows⟩ := h.shows i rfl
  obtain ⟨hi, -⟩ := List.getElem?_eq_some_iff.mp hshows.entry
  rw [length_entries, ← length_written] at hi
  exact ⟨_, List.getElem?_eq_getElem hi⟩

/-- The loop over the data blocks, by induction on how many there are. -/
theorem searchBlocks_settles (ro : LookupOptions) (n : ℕ) {pos : Option ℕ}
    (hn : (T.blocksFrom pos).length = n) (hst : T.Serves st)
    (h : iiter.Stands T.indexContents pos) (checks : Bool) (s : σ)
    (hchecks : checks = true → ChecksPass saveValue key (T.blocksFrom pos) iiter s) :
    ∃ iiter' st', Outcome.Settles
        (fun fuel => T.searchBlocks saveValue ro checks key.val fuel iiter st .ok s)
        (.ok, iiter', st', lookupBlocks saveValue key (T.blocksFrom pos) s) ∧
      iiter'.Over T.indexContents ∧ iiter'.status = .ok ∧ T.Serves st' := by
  induction n generalizing pos iiter st s with
  | zero =>
      have hnone : pos = none := by
        cases pos with
        | none => rfl
        | some i =>
            obtain ⟨b, hb⟩ := exists_block h
            rw [blocksFrom_some hb] at hn
            cases hn
      refine ⟨iiter, st, Outcome.settles_stop rfl ?_, h.isOver, h.status, hst⟩
      intro fuel
      rw [PointReader.searchBlocks, if_neg (by rw [h.invalid hnone]; exact Bool.false_ne_true),
        List.eq_nil_of_length_eq_zero hn, lookupBlocks]
  | succ n ih =>
      cases pos with
      | none => cases hn
      | some i =>
          obtain ⟨b, hb⟩ := exists_block h
          obtain ⟨biter, st', hover, hst', hturn⟩ :=
            searchBlocks_turn ro saveValue hst h hb checks key
          obtain ⟨biter', hsearch, hover'⟩ :=
            PointReader.searchBlock_spec saveValue hover b.1.ne_nil key s
          obtain ⟨iiter', hnext, hstands⟩ := h.next buffer_lt
          rw [blocksFrom_some hb] at hn hchecks ⊢
          have hcheck : (if checks then iiter.checkCorruption b.1.lastKey b.1.firstKey
              else .ok ()) = .ok () := by
            cases checks with
            | true => exact (hchecks rfl).1
            | false => rfl
          have hstep : ∀ fuel, T.searchBlocks saveValue ro checks key.val (fuel + 1) iiter st .ok s =
              T.searchBlock saveValue fuel biter key.val s >>= fun r =>
                if r.1 then .ok (r.2.1.status, iiter, st', r.2.2)
                else iiter.next >>= fun iiter' =>
                  T.searchBlocks saveValue ro checks key.val fuel iiter' st' r.2.1.status r.2.2 := by
            intro fuel
            rw [hturn, hcheck, Outcome.ok_bind]
          rw [lookupBlocks]
          cases hdone : (lookupEntries saveValue T.comparator b.1.contents.entries key s).1 with
          | true =>
              rw [hdone] at hsearch
              refine ⟨iiter, st', Outcome.settles_succ rfl hstep (Outcome.settles_bind hsearch ?_),
                h.isOver, h.status, hst'⟩
              apply Outcome.settles_const
              rw [if_pos rfl]
              dsimp only
              rw [hover'.status_eq]
          | false =>
              rw [hdone] at hsearch
              have hlen : (T.blocksFrom (if i + 1 < T.indexContents.entries.length then
                  some (i + 1) else none)).length = n := by
                rw [blocksFrom_next]
                exact Nat.succ.inj hn
              have hrest := ih hlen hst' hstands
                (lookupEntries saveValue T.comparator b.1.contents.entries key s).2
                (by
                  intro hc
                  rw [blocksFrom_next]
                  exact (hchecks hc).2 hdone iiter' hnext)
              rw [blocksFrom_next] at hrest
              obtain ⟨iiter'', st'', hsettles, hend⟩ := hrest
              refine ⟨iiter'', st'', Outcome.settles_succ rfl hstep
                (Outcome.settles_bind hsearch ?_), hend⟩
              simp only [Bool.false_eq_true, if_false, hnext, Outcome.ok_bind, hover'.status_eq]
              exact hsettles

/-- Where the loop of `Get` ends the checks have passed. -/
theorem checksPass_of_searchBlocks (n : ℕ) {pos : Option ℕ} (hn : (T.blocksFrom pos).length = n)
    (hst : T.Serves st) (h : iiter.Stands T.indexContents pos) {fuel : ℕ} {status : Status} {s : σ}
    {r : Status × IndexBlockIter × CacheState × σ}
    (hok : T.searchBlocks saveValue ro true key.val fuel iiter st status s = .ok r) :
    ChecksPass saveValue key (T.blocksFrom pos) iiter s := by
  induction n generalizing pos iiter st s fuel status with
  | zero =>
      rw [List.eq_nil_of_length_eq_zero hn]
      trivial
  | succ n ih =>
      cases pos with
      | none => cases hn
      | some i =>
          cases fuel with
          | zero => cases hok
          | succ fuel =>
              obtain ⟨b, hb⟩ := exists_block h
              obtain ⟨biter, st', hover, hst', hturn⟩ :=
                searchBlocks_turn ro saveValue hst h hb true key
              obtain ⟨biter', hsearch, -⟩ :=
                PointReader.searchBlock_spec saveValue hover b.1.ne_nil key s
              obtain ⟨iiter', hnext, hstands⟩ := h.next buffer_lt
              rw [blocksFrom_some hb] at hn ⊢
              rw [hturn, if_pos rfl] at hok
              obtain ⟨⟨⟩, hcheck, hok⟩ := Outcome.bind_eq_ok.mp hok
              obtain ⟨found, hfound, hok⟩ := Outcome.bind_eq_ok.mp hok
              obtain rfl := hsearch.stable fuel found hfound
              refine ⟨hcheck, fun hdone it hit => ?_⟩
              obtain rfl := Except.ok.inj (hnext.symm.trans hit)
              have hlen : (T.blocksFrom (if i + 1 < T.indexContents.entries.length then
                  some (i + 1) else none)).length = n := by
                rw [blocksFrom_next]
                exact Nat.succ.inj hn
              dsimp only at hok
              rw [hdone, if_neg Bool.false_ne_true, hnext, Outcome.ok_bind] at hok
              have hrest := ih hlen hst' hstands hok
              rwa [blocksFrom_next] at hrest

/-- `Get` of an intact table, as long as its own check lets it through. -/
theorem get_settles (ro : LookupOptions) (hst : T.Serves st) (s : σ)
    (hchecked : T.Checked saveValue key s) :
    Outcome.Settles (fun fuel => T.get saveValue ro fuel st key.val s)
      (.ok, lookupBlocks saveValue key (T.blocksFrom (T.firstBlock key)) s) := by
  obtain ⟨iiter, hseek, hstands⟩ := seek_stands T.over_index key
  obtain ⟨iiter', st', hsettles, -, hstatus, -⟩ := searchBlocks_settles ro _ rfl hst
    hstands true s fun _ => hchecked iiter hseek
  refine Outcome.settles_bind (Outcome.settles_const hseek)
    (Outcome.settles_bind hsettles (Outcome.settles_const ?_))
  dsimp only
  rw [PointReader.finalStatus, if_pos rfl, hstatus]

theorem checked_of_get (hst : T.Serves st) {fuel : ℕ} {s : σ} {r : Status × σ}
    (hok : T.get saveValue ro fuel st key.val s = .ok r) : T.Checked saveValue key s := by
  obtain ⟨iiter, hseek, hstands⟩ := seek_stands T.over_index key
  intro it hit
  obtain rfl := Except.ok.inj (hseek.symm.trans hit)
  rw [PointReader.get, hseek, Outcome.ok_bind] at hok
  obtain ⟨found, hfound, -⟩ := Outcome.bind_eq_ok.mp hok
  exact checksPass_of_searchBlocks _ rfl hst hstands hfound

end OpenTable

end Tweezer
