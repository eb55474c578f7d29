import Tweezer.TableIterator
import Tweezer.TableLookup

/-!
# The data blocks that a table iterator opens

Between its calls the iterator keeps an index iterator over the intact index, caches and a prefetch
buffer that hold what was written, and a block iterator without a failure. From such a state
`InitDataBlock` opens the block that the index iterator is at, unless that block is open already:
no two data blocks of a table are at one offset.
-/

namespace Tweezer

/-- An iterator that is used again reads the new block. -/
theorem EncryptedBlock.newDataIteratorInto_over {C : Gcm} {u : Comparator} {globalSeqno : ℕ}
    {b : EncryptedBlock} {it opened : EncryptedDataBlockIter} {data : Bytes} {key : Key}
    {es : List (InternalKey × Bytes)} (h : b.newDataIterator C u globalSeqno = .ok opened)
    (hover : opened.Over data key es) (hit : it.status = .ok) :
    ∃ it', b.newDataIteratorInto C u globalSeqno it = .ok it' ∧ it'.Over data key es := by
  unfold newDataIterator at h
  unfold newDataIteratorInto
  dsimp only at h ⊢
  by_cases hsize : (if b.contents.length < 4 then 0 else b.contents.length) < 2 * 4
  · rw [if_pos hsize] at h
    obtain rfl := Except.ok.inj h
    cases hover.status_eq
  · rw [if_neg hsize] at h ⊢
    unfold EncryptedDataBlockIter.ready at h ⊢
    obtain ⟨footer, hfooter, h⟩ := Outcome.bind_eq_ok.mp h
    obtain ⟨encBuf, hbuf, h⟩ := Outcome.bind_eq_ok.mp h
    obtain ⟨table, htable, h⟩ := Outcome.bind_eq_ok.mp h
    obtain rfl := Except.ok.inj h
    rw [hfooter, Outcome.ok_bind]
    dsimp only at hbuf htable ⊢
    rw [hbuf, Outcome.ok_bind, htable, Outcome.ok_bind]
    exact ⟨_, rfl, hover.data_eq, hover.restarts_eq, hover.table_eq, hover.sstKey_eq,
      hover.seqno_eq, hit, hover.small⟩

namespace OpenTable

variable {T : OpenTable} {b : TableBlock T.comparator × BlockHandle}

/-- A data block is retrieved as it was written, with or without a prefetch buffer. -/
theorem retrieveBlock_through {st : CacheState} (ro : LookupOptions) (hst : T.Serves st)
    (hb : b ∈ T.table.written T.tableOptions) (buffer : Option ℕ)
    (hbuffer : ∀ k ∈ buffer, st.reader.fetch.ReadsAhead T.options.file.reader k) :
    ∃ st', T.retrieveBlock true { ro.call b.2 false with prefetchBuffer := buffer } st =
        .ok (some ⟨true, T.written b.1⟩, st') ∧ T.Serves st' ∧
      st'.reader = (st.reader.retrieveBlock T.env T.options
        { ro.call b.2 false with prefetchBuffer := buffer } .data true).2 := by
  have hclean : (∀ k ∈ buffer, T.options.file.reader.mapped = false) →
      ∃ st', T.retrieveBlock true { ro.call b.2 false with prefetchBuffer := buffer } st =
          .ok (some ⟨true, T.written b.1⟩, st') ∧ T.Serves st' ∧
        st'.reader = (st.reader.retrieveBlock T.env T.options
          { ro.call b.2 false with prefetchBuffer := buffer } .data true).2 := by
    intro hmapped
    obtain ⟨s, hread, hfull⟩ := readsWritten_through ro hb st.reader false buffer fun k hk =>
      ⟨hmapped k hk, (hbuffer k hk).faithful.clean⟩
    exact retrieveBlock_spec hst rfl rfl hread hfull
  cases hm : T.options.file.reader.mapped with
  | false => exact hclean fun _ _ => hm
  | true =>
      cases hk : buffer with
      | none =>
          rw [hk] at hclean
          exact hclean fun _ h => nomatch h
      | some k =>
          -- the buffer is not enabled, and the read is the one without it
          obtain ⟨s, hread, hfull⟩ := readsWritten ro hb st.reader false
          have hspec := retrieveBlock_spec hst rfl rfl hread hfull
          have hdisabled : st.reader.retrieveBlock T.env T.options (ro.call b.2 false) .data true =
              st.reader.retrieveBlock T.env T.options
                { ro.call b.2 false with prefetchBuffer := some k } .data true :=
            ReaderState.retrieveBlock_disabled (c :=
              { ro.call b.2 false with prefetchBuffer := some k }) rfl
              ((hbuffer k hk).mapped hm) .data
          have hsame : T.retrieveBlock true (ro.call b.2 false) st =
              T.retrieveBlock true { ro.call b.2 false with prefetchBuffer := some k } st := by
            unfold PointReader.retrieveBlock
            rw [hdisabled]
          rwa [hdisabled, hsame] at hspec

end OpenTable

namespace BlockBasedTableIterator

/-- The iterator between its calls. -/
structure Ready (T : OpenTable) (o : IteratorOptions) (I : BlockBasedTableIterator) : Prop where
  index : I.indexIter.Over T.indexContents
  serves : T.Serves I.cache
  ahead : I.blockPrefetcher.Ahead T.options.file.reader o.slot I.cache.reader.fetch
  status : I.blockIter.status = .ok

/-- The data block `k` is open. -/
structure Open (T : OpenTable) (I : BlockBasedTableIterator) (k : ℕ)
    (b : TableBlock T.comparator × BlockHandle) : Prop where
  points : I.blockIterPointsToRealBlock = true
  block : (T.table.written T.tableOptions)[k]? = some b
  isOver : I.blockIter.Over (T.written b.1) T.env.sstKey b.1.contents.entries

/-- The data block `k` is open, and the index iterator is at its entry. -/
structure InBlock (T : OpenTable) (o : IteratorOptions) (I : BlockBasedTableIterator) (k : ℕ)
    (b : TableBlock T.comparator × BlockHandle) : Prop extends I.Ready T o, I.Open T k b where
  stands : I.indexIter.Stands T.indexContents (some k)

variable {T : OpenTable} {o : IteratorOptions} {I I' : BlockBasedTableIterator} {k : ℕ}
  {b : TableBlock T.comparator × BlockHandle}

theorem Ready.of_create {st : CacheState} (hst : T.Serves st) :
    (create T.index st).Ready T o :=
  ⟨T.over_index, hst, (fun h => nomatch h), rfl⟩

theorem Ready.resetDataIter (h : I.Ready T o) : I.resetDataIter.Ready T o := by
  unfold BlockBasedTableIterator.resetDataIter
  split_ifs
  · exact ⟨h.index, h.serves, h.ahead, rfl⟩
  · exact h

@[simp] theorem resetDataIter_points (I : BlockBasedTableIterator) :
    I.resetDataIter.blockIterPointsToRealBlock = false := by
  unfold BlockBasedTableIterator.resetDataIter
  split_ifs with h
  · rfl
  · simpa using h

@[simp] theorem resetDataIter_indexIter (I : BlockBasedTableIterator) :
    I.resetDataIter.indexIter = I.indexIter := by
  unfold BlockBasedTableIterator.resetDataIter
  split_ifs <;> rfl

theorem Ready.setIndexIter (h : I.Ready T o) {it : IndexBlockIter} (hit : it.Over T.indexContents) :
    { I with indexIter := it }.Ready T o :=
  ⟨hit, h.serves, h.ahead, h.status⟩

theorem Ready.prefetchIfNeeded (h : I.Ready T o) (handle : BlockHandle) :
    (I.prefetchIfNeeded T.toPointReader o handle).Ready T o := by
  obtain ⟨hsound, hahead⟩ := BlockPrefetcher.prefetchIfNeeded_spec o.readAhead handle
    h.serves.sound.fetch h.ahead
  exact ⟨h.index, ⟨⟨hsound, h.serves.sound.blockCache, h.serves.sound.blockCacheCompressed⟩,
    h.serves.encrypted⟩, hahead, h.status⟩

/-- The call for a data block, with the prefetch buffer of the iterator, retrieves it. -/
theorem Ready.retrieveBlock (h : I.Ready T o) (hb : b ∈ T.table.written T.tableOptions) :
    ∃ st, T.retrieveBlock true (o.call b.2 I.blockPrefetcher) I.cache =
        .ok (some ⟨true, T.written b.1⟩, st) ∧ T.Serves st ∧
      I.blockPrefetcher.Ahead T.options.file.reader o.slot st.reader.fetch := by
  have hbuffer : ∀ k ∈ I.blockPrefetcher.prefetchBuffer o.slot,
      I.cache.reader.fetch.ReadsAhead T.options.file.reader k := by
    intro k hk
    unfold BlockPrefetcher.prefetchBuffer at hk
    split_ifs at hk with hhas
    · obtain rfl := Option.some.inj hk
      exact h.ahead hhas
    · cases hk
  obtain ⟨st, hblock, hst, hreader⟩ :=
    OpenTable.retrieveBlock_through o.toLookupOptions h.serves hb _ hbuffer
  refine ⟨st, hblock, hst, fun hhas => ?_⟩
  rw [hreader]
  apply ReaderState.retrieveBlock_keeps (P := fun f =>
    f.ReadsAhead T.options.file.reader o.slot)
  · intro f r hf hr
    exact hf.readBlockContents T.holds.aligned hr
  · exact h.ahead hhas

/-- `NewDataBlockIterator` into the block iterator. -/
theorem Ready.newDataBlockIterator (h : I.Ready T o)
    (hb : (T.table.written T.tableOptions)[k]? = some b) :
    ∃ I', I.newDataBlockIterator T.toPointReader (o.call b.2 I.blockPrefetcher) = .ok I' ∧
      I'.Ready T o ∧ I'.indexIter = I.indexIter ∧
      I'.blockIter.Over (T.written b.1) T.env.sstKey b.1.contents.entries := by
  have hmem := List.mem_of_getElem? hb
  obtain ⟨st, hblock, hst, hahead⟩ := h.retrieveBlock hmem
  obtain ⟨it, hit, hover⟩ := EncryptedBlock.newDataIteratorInto_over
    (OpenTable.newDataIterator_written hmem) (OpenTable.over_openedIter hmem) h.status
  refine ⟨{ I with blockIter := it, cache := st }, ?_, ⟨h.index, hst, hahead, hover.status_eq⟩,
    rfl, hover⟩
  unfold BlockBasedTableIterator.newDataBlockIterator
  rw [hblock, Outcome.ok_bind]
  dsimp only
  rw [if_pos rfl, hit, Outcome.ok_bind]

/-- If a data block is open, its offset has been noted. -/
def Noted (T : OpenTable) (I : BlockBasedTableIterator) : Prop :=
  I.blockIterPointsToRealBlock = true → ∃ k b, I.Open T k b ∧ I.prevBlockOffset = b.2.offset

theorem noted_of_closed (h : I.blockIterPointsToRealBlock = false) : I.Noted T := by
  intro hpoints
  rw [h] at hpoints
  cases hpoints

theorem value_indexIter (hs : I.indexIter.Stands T.indexContents (some k)) :
    ∃ b, (T.table.written T.tableOptions)[k]? = some b ∧ I.indexIter.value = .ok b.2 := by
  obtain ⟨b, hb⟩ := OpenTable.exists_block hs
  obtain ⟨e, hshows⟩ := hs.shows k rfl
  exact ⟨b, hb, hshows.value_eq hb⟩

/-- The block that is open is the one at the offset that was noted. -/
theorem Noted.inBlock (h : I.Noted T) (hready : I.Ready T o)
    (hs : I.indexIter.Stands T.indexContents (some k))
    (hb : (T.table.written T.tableOptions)[k]? = some b)
    (hpoints : I.blockIterPointsToRealBlock = true) (hoffset : b.2.offset = I.prevBlockOffset) :
    I.InBlock T o k b := by
  obtain ⟨k', b', hopen, hprev⟩ := h hpoints
  obtain rfl : k = k' := OpenTable.index_eq_of_offset hb hopen.block (hoffset.trans hprev)
  obtain rfl := Option.some.inj (hb.symm.trans hopen.block)
  exact ⟨hready, hopen, hs⟩

/-- `InitDataBlock` opens the block of the index iterator. -/
theorem Ready.initDataBlock (h : I.Ready T o) (hnoted : I.Noted T)
    (hs : I.indexIter.Stands T.indexContents (some k)) :
    ∃ b I', I.initDataBlock T.toPointReader o = .ok I' ∧ I'.InBlock T o k b := by
  obtain ⟨b, hb, hvalue⟩ := value_indexIter hs
  unfold BlockBasedTableIterator.initDataBlock
  rw [hvalue, Outcome.ok_bind]
  dsimp only
  by_cases hopen : (!I.blockIterPointsToRealBlock || b.2.offset ≠ I.prevBlockOffset ||
      I.blockIter.status.isIncomplete) = true
  · rw [if_pos hopen]
    obtain ⟨I', hnew, hready, hindex, hover⟩ :=
      (h.resetDataIter.prefetchIfNeeded b.2).newDataBlockIterator hb
    have hstands : I'.indexIter.Stands T.indexContents (some k) := by
      rw [hindex]
      have hsame : (I.resetDataIter.prefetchIfNeeded T.toPointReader o b.2).indexIter =
          I.resetDataIter.indexIter := rfl
      rw [hsame, resetDataIter_indexIter]
      exact hs
    rw [hnew, Outcome.ok_bind]
    exact ⟨b, _, rfl, ⟨hready.index, hready.serves, hready.ahead, hready.status⟩, ⟨rfl, hb, hover⟩,
      hstands⟩
  · rw [if_neg hopen]
    simp only [Bool.or_eq_true, Bool.not_eq_true', decide_eq_true_eq, not_or, Bool.not_eq_false,
      not_not] at hopen
    exact ⟨b, I, rfl, hnoted.inBlock h hs hb hopen.1.1 hopen.1.2⟩

theorem Ready.openBlock (h : I.Ready T o) (hnoted : I.Noted T)
    (hs : I.indexIter.Stands T.indexContents (some k)) :
    ∃ b I', I.openBlock T.toPointReader o = .ok I' ∧ I'.InBlock T o k b := by
  obtain ⟨b, hb, hvalue⟩ := value_indexIter hs
  unfold BlockBasedTableIterator.openBlock
  rw [hvalue, Outcome.ok_bind]
  by_cases hsame : (I.blockIterPointsToRealBlock && decide (b.2.offset = I.prevBlockOffset)) = true
  · rw [if_pos hsame]
    rw [Bool.and_eq_true, decide_eq_true_eq] at hsame
    exact ⟨b, I, rfl, hnoted.inBlock h hs hb hsame.1 hsame.2⟩
  · rw [if_neg hsame]
    exact h.initDataBlock hnoted hs

/-- The offset of the block that the index iterator is at is noted. -/
theorem InBlock.setPrevBlockOffset (h : I.InBlock T o k b) :
    ∃ I', I.setPrevBlockOffset = .ok I' ∧ I'.Noted T ∧ I'.Ready T o ∧
      I' = { I with prevBlockOffset := b.2.offset } := by
  obtain ⟨b', hb', hvalue⟩ := value_indexIter h.stands
  obtain rfl := Option.some.inj (hb'.symm.trans h.block)
  refine ⟨{ I with prevBlockOffset := b'.2.offset }, ?_, ?_, ?_, rfl⟩
  · rw [BlockBasedTableIterator.setPrevBlockOffset, hvalue, Outcome.ok_bind]
  · exact fun _ => ⟨k, b', ⟨h.points, h.block, h.isOver⟩, rfl⟩
  · exact ⟨h.index, h.serves, h.ahead, h.status⟩

end BlockBasedTableIterator

end Tweezer
