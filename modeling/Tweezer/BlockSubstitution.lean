import Tweezer.BlockPosition
import Tweezer.TableIndex

/-!
# Serving another block of the same table

`BlockBasedTable::Get` of `table/block_based/block_based_table_reader.cc` up to its call of
`check_corruption`. Every data block of a table is authentic, so a host can answer the read of
one with another; the check compares the last and the first user key of what it got with keys
of the index.
-/

namespace Tweezer

namespace EncryptedDataBlockIter

/-- `first_key()`. -/
def firstKey (it : EncryptedDataBlockIter) : Outcome Bytes := do
  let e ← it.entryAt 0
  .ok e.key

/-- `last_key()`. -/
def lastKey (it : EncryptedDataBlockIter) : Outcome Bytes := do
  let e ← it.entryAt ((it.keyOffsetMap.length : ℤ) - 1)
  .ok e.key

end EncryptedDataBlockIter

/-- What `Get` does with the data block that it is handed for the entry of the index at which
it stands. -/
def checkServedBlock (C : Gcm) (u : Comparator) (globalSeqno : ℕ) (it : IndexBlockIter)
    (served : EncryptedBlock) : Outcome Unit := do
  let biter ← served.newDataIterator C u globalSeqno
  let lastKey ← biter.lastKey
  let firstKey ← biter.firstKey
  it.checkCorruption lastKey firstKey

/-- Where the index iterator can stand in the loop of `Get` for this key. -/
inductive Visited (u : Comparator) (iiter : IndexBlockIter) (key : Bytes) : IndexBlockIter → Prop
  | seek {it : IndexBlockIter} : iiter.seek u key = .ok it → Visited u iiter key it
  | next {it it' : IndexBlockIter} : Visited u iiter key it → it.valid = true →
      it.next = .ok it' → Visited u iiter key it'

/-- The data block as it is written. -/
def TableBlock.stored {u : Comparator} (C : Gcm) (digest : Digest) (useDeltaEncoding : Bool)
    (sstKey : Key) (b : TableBlock u) : EncryptedBlock :=
  ⟨dataBlock C digest useDeltaEncoding sstKey b.contents.entries, sstKey⟩

section Substitution

variable (C : Gcm) (digest : Digest) (useDeltaEncoding : Bool) (sstKey : Key) (globalSeqno : ℕ)
  {u : Comparator} (S : KeyShortening u) (o : TableOptions) (t : Table u)

/-- Wherever `Get` reads a data block for an entry of the index, it goes on with the block
that the entry names and stops at any other block of the table. -/
def SubstitutionDetected : Prop :=
  ∀ (key : InternalKey) (it : IndexBlockIter),
    Visited u (t.newIndexIterator S o) key.val it → it.valid = true →
      ∃ handle, it.value = .ok handle ∧ ∀ b ∈ t.written o,
        checkServedBlock C u globalSeqno it (b.1.stored C digest useDeltaEncoding sstKey) =
          if b.2 = handle then .ok () else .error .exit

variable {C digest useDeltaEncoding sstKey globalSeqno}

/-- The keys at the ends of a block that was opened. -/
theorem ends_openedIter (sstKey : Key) (globalSeqno : ℕ) (data : Bytes) (b : TableBlock u) :
    (openedIter sstKey data globalSeqno b.contents.entries).lastKey = .ok b.lastKey ∧
      (openedIter sstKey data globalSeqno b.contents.entries).firstKey = .ok b.firstKey := by
  have hpos := List.length_pos_of_ne_nil b.ne_nil
  have hentry : ∀ i (hi : i < b.contents.entries.length),
      (openedIter sstKey data globalSeqno b.contents.entries).entryAt i =
        .ok ⟨(b.contents.entries[i]).1.val, 0 + valuesSize (b.contents.entries.take i),
          (b.contents.entries[i]).2.length⟩ := by
    intro i hi
    rw [EncryptedDataBlockIter.entryAt, if_pos (Int.natCast_nonneg i), Int.toNat_natCast]
    have hget := getElem?_offsetTable 0 b.contents.entries i
    rw [List.getElem?_eq_getElem hi] at hget
    dsimp only [openedIter]
    rw [hget]
    rfl
  constructor
  · have hlen : (((openedIter sstKey data globalSeqno b.contents.entries).keyOffsetMap.length : ℤ)
        - 1) = ((b.contents.entries.length - 1 : ℕ) : ℤ) := by
      rw [openedIter, length_offsetTable]
      omega
    rw [EncryptedDataBlockIter.lastKey, hlen, hentry _ (by omega), Outcome.ok_bind,
      TableBlock.lastKey, List.getLast_eq_getElem]
  · have hzero := hentry 0 hpos
    rw [EncryptedDataBlockIter.firstKey, TableBlock.firstKey, List.head_eq_getElem]
    exact (congrArg (· >>= _) hzero).trans rfl

theorem checkServedBlock_stored (it : IndexBlockIter) (b : TableBlock u)
    (hsize : (b.stored C digest useDeltaEncoding sstKey).contents.length ≤ 2 ^ 31) :
    checkServedBlock C u globalSeqno it (b.stored C digest useDeltaEncoding sstKey) =
      it.checkCorruption b.lastKey b.firstKey := by
  obtain ⟨hlast, hfirst⟩ := ends_openedIter sstKey globalSeqno
    (b.stored C digest useDeltaEncoding sstKey).contents b
  rw [checkServedBlock, TableBlock.stored,
    newDataIterator_dataBlock C digest sstKey u useDeltaEncoding globalSeqno b.contents b.ne_nil
      hsize, Outcome.ok_bind]
  exact (congrArg (· >>= _) hlast).trans (congrArg (· >>= _) hfirst)

/-- Data blocks that are written alike begin alike. -/
theorem firstKey_eq_of_stored {b b' : TableBlock u}
    (hsize : (b.stored C digest useDeltaEncoding sstKey).contents.length ≤ 2 ^ 31)
    (h : b.stored C digest useDeltaEncoding sstKey = b'.stored C digest useDeltaEncoding sstKey) :
    b.firstKey = b'.firstKey := by
  have hopen := newDataIterator_dataBlock C digest sstKey u useDeltaEncoding 0 b.contents b.ne_nil
    hsize
  rw [h] at hsize
  have hopen' := newDataIterator_dataBlock C digest sstKey u useDeltaEncoding 0 b'.contents
    b'.ne_nil hsize
  unfold TableBlock.stored at h
  rw [h, hopen'] at hopen
  have hiter := Except.ok.inj hopen
  have hfirst := (ends_openedIter sstKey 0
    (dataBlock C digest useDeltaEncoding sstKey b.contents.entries) b).2
  rw [← hiter] at hfirst
  exact Except.ok.inj (hfirst.symm.trans (ends_openedIter _ _ _ b').2)

end Substitution

theorem decodeKeyV4_ok {data : Bytes} {p limit : ℕ} (h : limit ≤ data.length) :
    ∃ r, decodeKeyV4 data p limit = .ok r := by
  rw [decodeKeyV4]
  split_ifs with hshort
  · exact ⟨none, rfl⟩
  · have hlen : (data.slice p 2).length = 2 := Bytes.length_slice (by omega)
    rw [Bytes.fetch_of_le (by omega), Outcome.ok_bind]
    obtain ⟨x, y, hxy⟩ : ∃ x y, data.slice p 2 = [x, y] := List.length_eq_two.mp hlen
    rw [hxy]
    dsimp only
    split_ifs
    · exact ⟨_, rfl⟩
    · split
      · exact ⟨_, rfl⟩
      · split
        · exact ⟨_, rfl⟩
        · exact ⟨_, rfl⟩

namespace IndexBlockIter

variable {it : IndexBlockIter} {c : IndexContents} {i : ℕ} {e : IndexEntry}

/-- For the first two entries the loop of `check_corruption` always ends at the first restart
point: no other one lies before the second entry. -/
theorem At.prevOffset_eq_zero (h : it.At c i e) (hi : i ≤ 1) (hsize : c.builder.buffer.length < 2 ^ 32)
    {index : ℕ} (hindex : index < it.numRestarts) : it.prevOffset c.block index = .ok 0 := by
  have hne : c.entries ≠ [] := List.ne_nil_of_mem (List.mem_of_getElem? h.entry)
  rw [h.isOver.numRestarts] at hindex
  induction index with
  | zero =>
      obtain ⟨j, a, hr⟩ := IndexContents.exists_restartKey hne hsize hindex
      obtain rfl : j = 0 := hr.zero.mpr rfl
      rw [prevOffset, h.isOver.getRestartPoint hr hsize]
      exact congrArg Except.ok PlainBlockBuilder.offset_zero
  | succ index ih =>
      obtain ⟨j, a, hr⟩ := IndexContents.exists_restartKey hne hsize hindex
      have hj : j ≠ 0 := fun hzero => Nat.succ_ne_zero index (hr.zero.mp hzero)
      obtain ⟨hlt, -⟩ := List.getElem?_eq_some_iff.mp hr.entry
      have hle : it.current ≤ c.offset j := by
        rw [h.current]
        rcases Nat.lt_or_eq_of_le (show i ≤ j by omega) with hij | rfl
        · exact le_of_lt (PlainBlockBuilder.offset_lt c.interval c.valueDelta hij
            (by rw [c.length_encoded]; omega))
        · exact le_rfl
      rw [prevOffset, h.isOver.getRestartPoint hr hsize, Outcome.ok_bind, if_pos hle]
      exact ih (by omega)

/-- For the first two entries the check looks at the last key of the block only. -/
theorem Shows.checkCorruption_eq (h : it.Shows c i e) (hi : i ≤ 1)
    (hsize : c.builder.buffer.length < 2 ^ 32) (lastKey firstKey : Bytes) :
    it.checkCorruption lastKey firstKey =
      if compare (extractUserKey lastKey) e.key = .gt then .error .exit else .ok () := by
  have hbuffer : it.restarts ≤ c.block.length := by
    rw [h.isOver.restarts, IndexContents.block, PlainBlockBuilder.finish, List.length_append]
    exact Nat.le_add_right _ _
  obtain ⟨r, hr⟩ := decodeKeyV4_ok (p := 0) hbuffer
  rw [checkCorruption, h.isOver.data]
  dsimp only
  rw [h.prevOffset_eq_zero hi hsize h.restartIndex, Outcome.ok_bind, hr, Outcome.ok_bind,
    if_pos rfl, h.key]

end IndexBlockIter

section Runs

variable {u : Comparator} {S : KeyShortening u} {o : TableOptions} {t : Table u} {i : ℕ}
  {b : TableBlock u × BlockHandle}

/-- Wherever `Get` finds the index iterator valid, it shows an entry. -/
theorem Visited.shows (hsize : (t.indexBlock S o).length ≤ 2 ^ 31) {key : Bytes}
    {it : IndexBlockIter} (h : Visited u (t.newIndexIterator S o) key it)
    (hvalid : it.valid = true) : ∃ i e, it.Shows (t.index S o) i e := by
  have hover := Table.over_newIndexIterator (S := S) (o := o) hsize
  rw [Table.indexBlock_eq] at hsize
  replace hsize := IndexBlockIter.length_buffer_lt hsize
  induction h with
  | seek hseek =>
      obtain ⟨it', hseek', hlands⟩ :=
        IndexBlockIter.seek_spec hsize Table.sorted_index hover key
      obtain rfl := Except.ok.inj (hseek.symm.trans hseek')
      split at hlands
      · next j _ =>
          obtain ⟨e, he⟩ := hlands
          exact ⟨j, e, he⟩
      · rw [hvalid] at hlands
        cases hlands
  | next _ hbefore hnext ih =>
      obtain ⟨i, e, hshows⟩ := ih hbefore
      obtain ⟨it', hnext', hentry⟩ := IndexBlockIter.next_spec hsize hshows.toAt
      obtain rfl := Except.ok.inj (hnext.symm.trans hnext')
      split at hentry
      · next e' _ => exact ⟨i + 1, e', hentry⟩
      · rw [hvalid] at hentry
        cases hentry

/-- `Get` of the first key of a block comes to the entry of the block. -/
theorem exists_visited (hsize : (t.indexBlock S o).length ≤ 2 ^ 31)
    (hb : (t.written o)[i]? = some b) : ∃ it e, it.Shows (t.index S o) i e ∧
      Visited u (t.newIndexIterator S o) b.1.firstKey it := by
  have hover := Table.over_newIndexIterator (S := S) (o := o) hsize
  rw [Table.indexBlock_eq] at hsize
  replace hsize := IndexBlockIter.length_buffer_lt hsize
  obtain ⟨it, hseek, hlands⟩ :=
    IndexBlockIter.seek_spec hsize Table.sorted_index hover b.1.firstKey
  rw [Table.seek_firstKey hb] at hlands
  obtain ⟨e, he⟩ := hlands
  exact ⟨it, e, he, Visited.seek hseek⟩

theorem IndexBlockIter.Shows.value_eq {it : IndexBlockIter} {e : IndexEntry}
    (h : it.Shows (t.index S o) i e) (hb : (t.written o)[i]? = some b) :
    it.value = .ok b.2 := by
  obtain rfl := Option.some.inj ((Table.getElem?_entries hb).symm.trans h.entry)
  exact h.value

variable {C : Gcm} {digest : Digest} {useDeltaEncoding : Bool} {sstKey : Key} {globalSeqno : ℕ}

/-- For the first two entries `Get` stops at a block if its last user key comes after the key
of the entry as a string. -/
theorem IndexBlockIter.Shows.checkServedBlock_eq {it : IndexBlockIter} {e : IndexEntry}
    (h : it.Shows (t.index S o) i e) (hi : i ≤ 1) (hsize : (t.indexBlock S o).length ≤ 2 ^ 31)
    (hblocks : ∀ b ∈ t.blocks,
      (b.stored C digest useDeltaEncoding sstKey).contents.length ≤ 2 ^ 31)
    (hb : b ∈ t.written o) :
    checkServedBlock C u globalSeqno it (b.1.stored C digest useDeltaEncoding sstKey) =
      if compare (extractUserKey b.1.lastKey) e.key = .gt then .error .exit else .ok () := by
  have hstored : (b.1.stored C digest useDeltaEncoding sstKey).contents.length ≤ 2 ^ 31 := by
    apply hblocks
    rw [← map_fst_writtenFrom o 0 t.blocks]
    exact List.mem_map_of_mem hb
  rw [Table.indexBlock_eq] at hsize
  replace hsize := IndexBlockIter.length_buffer_lt hsize
  rw [checkServedBlock_stored it b.1 hstored, h.checkCorruption_eq hi hsize]

/-- What it means for the first two entries that the check does its work. -/
theorem SubstitutionDetected.lastKey_iff
    (h : SubstitutionDetected C digest useDeltaEncoding sstKey globalSeqno S o t)
    (hsize : (t.indexBlock S o).length ≤ 2 ^ 31)
    (hblocks : ∀ b ∈ t.blocks,
      (b.stored C digest useDeltaEncoding sstKey).contents.length ≤ 2 ^ 31)
    (hi : i ≤ 1) (hb : (t.written o)[i]? = some b) {e : IndexEntry}
    (he : (t.index S o).entries[i]? = some e) {b' : TableBlock u × BlockHandle}
    (hb' : b' ∈ t.written o) :
    compare (extractUserKey b'.1.lastKey) e.key = .gt ↔ b'.2 ≠ b.2 := by
  obtain ⟨it, e', hshows, hvisited⟩ := exists_visited hsize hb
  obtain rfl : e' = e := Option.some.inj (hshows.entry.symm.trans he)
  obtain ⟨handle, hhandle, hall⟩ :=
    h (b.1.contents.entries.head b.1.ne_nil).1 it hvisited hshows.valid
  obtain rfl : b.2 = handle := Except.ok.inj ((hshows.value_eq hb).symm.trans hhandle)
  have hcheck := hall b' hb'
  rw [hshows.checkServedBlock_eq hi hsize hblocks hb'] at hcheck
  split_ifs at hcheck with hgt hsame hsame
  · exact iff_of_true hgt hsame
  · exact iff_of_false hgt (not_not.mpr hsame)

/-- With two data blocks the check cannot do its work: the last keys of both would have to
come after each other. -/
theorem not_substitutionDetected {b₀ b₁ : TableBlock u} {bs : List (TableBlock u)}
    (ht : t.blocks = b₀ :: b₁ :: bs) (hsize : (t.indexBlock S o).length ≤ 2 ^ 31)
    (hblocks : ∀ b ∈ t.blocks,
      (b.stored C digest useDeltaEncoding sstKey).contents.length ≤ 2 ^ 31) :
    ¬ SubstitutionDetected C digest useDeltaEncoding sstKey globalSeqno S o t := by
  intro h
  have hwritten : t.written o = writtenFrom o 0 (b₀ :: b₁ :: bs) := by rw [Table.written, ht]
  have hb₀ : (t.written o)[0]? = some (b₀, ⟨0, b₀.size⟩) := by
    rw [hwritten]
    rfl
  have hb₁ : (t.written o)[1]? =
      some (b₁, ⟨u64 (0 + b₀.size + kBlockTrailerSize + o.padBytes b₀.size), b₁.size⟩) := by
    rw [hwritten]
    rfl
  have hne : (⟨0, b₀.size⟩ : BlockHandle) ≠
      ⟨u64 (0 + b₀.size + kBlockTrailerSize + o.padBytes b₀.size), b₁.size⟩ := by
    intro heq
    have hoffset := congrArg BlockHandle.offset heq
    have hpad := o.padBytes_le b₀.size
    have hle := b₀.size_le
    simp only [u64, kBlockTrailerSize] at hoffset
    omega
  have hm₀ := List.mem_of_getElem? hb₀
  have hm₁ := List.mem_of_getElem? hb₁
  have he₀ := Table.getElem?_entries (S := S) hb₀
  have he₁ := Table.getElem?_entries (S := S) hb₁
  have h00 := (h.lastKey_iff hsize hblocks (Nat.zero_le 1) hb₀ he₀ hm₀).not.mpr (not_not.mpr rfl)
  have h10 := (h.lastKey_iff hsize hblocks (Nat.zero_le 1) hb₀ he₀ hm₁).mpr hne.symm
  have h11 := (h.lastKey_iff hsize hblocks le_rfl hb₁ he₁ hm₁).not.mpr (not_not.mpr rfl)
  have h01 := (h.lastKey_iff hsize hblocks le_rfl hb₁ he₁ hm₀).mpr hne
  have hlt₀ : compare (extractUserKey b₀.lastKey) (extractUserKey b₁.lastKey) = .lt :=
    Std.TransCmp.lt_of_isLE_of_lt (Ordering.isLE_iff_ne_gt.mpr h00)
      (Std.OrientedCmp.gt_iff_lt.mp h10)
  have hlt₁ : compare (extractUserKey b₁.lastKey) (extractUserKey b₀.lastKey) = .lt :=
    Std.TransCmp.lt_of_isLE_of_lt (Ordering.isLE_iff_ne_gt.mpr h11)
      (Std.OrientedCmp.gt_iff_lt.mp h01)
  have hswap := Std.OrientedCmp.gt_iff_lt.mpr hlt₁
  rw [hlt₀] at hswap
  cases hswap

/-- The check does its work in no table with two data blocks; with one, if the last user key
of the block does not come after the key of its index entry as a string. -/
theorem substitutionDetected_iff (hsize : (t.indexBlock S o).length ≤ 2 ^ 31)
    (hblocks : ∀ b ∈ t.blocks,
      (b.stored C digest useDeltaEncoding sstKey).contents.length ≤ 2 ^ 31) :
    SubstitutionDetected C digest useDeltaEncoding sstKey globalSeqno S o t ↔
      t.blocks = [] ∨ ∃ b, t.blocks = [b] ∧
        compare (extractUserKey b.lastKey) (indexKey (o.formatVersion ≤ 2)
          (ShortenedIndexBuilder.separator S o.indexShortening b.lastKey none)) ≠ .gt := by
  match hshape : t.blocks with
  | [] =>
      refine iff_of_true ?_ (Or.inl rfl)
      intro key it hvisited hvalid
      obtain ⟨i, e, hshows⟩ := hvisited.shows hsize hvalid
      obtain ⟨hi, -⟩ := List.getElem?_eq_some_iff.mp hshows.entry
      have hwritten : t.written o = [] := by
        rw [Table.written, hshape]
        rfl
      rw [Table.length_entries, hwritten] at hi
      exact absurd hi (Nat.not_lt_zero i)
  | b₀ :: b₁ :: bs =>
      refine iff_of_false (not_substitutionDetected hshape hsize hblocks) ?_
      rintro (hnil | ⟨b, hb, -⟩)
      · cases hnil
      · cases hb
  | [b] =>
      have hwritten : t.written o = [(b, ⟨0, b.size⟩)] := by
        rw [Table.written, hshape]
        rfl
      have hb : (t.written o)[0]? = some (b, ⟨0, b.size⟩) := by
        rw [hwritten]
        rfl
      have hmem := List.mem_of_getElem? hb
      have he := Table.getElem?_entries (S := S) hb
      have hkey : indexKey (t.plusSeq S o) (ShortenedIndexBuilder.separator S o.indexShortening
          b.lastKey ((t.written o)[0 + 1]?.map (·.1.firstKey))) =
          indexKey (o.formatVersion ≤ 2)
            (ShortenedIndexBuilder.separator S o.indexShortening b.lastKey none) := by
        have hseq : t.plusSeq S o = decide (o.formatVersion ≤ 2) := by
          rw [Table.plusSeq, Table.indexBuilder, hwritten]
          exact Bool.or_false _
        rw [hseq, hwritten]
        rfl
      have hiff : SubstitutionDetected C digest useDeltaEncoding sstKey globalSeqno S o t ↔
          compare (extractUserKey b.lastKey) (indexKey (o.formatVersion ≤ 2)
            (ShortenedIndexBuilder.separator S o.indexShortening b.lastKey none)) ≠ .gt := by
        rw [← hkey]
        constructor
        · intro h
          exact (h.lastKey_iff hsize hblocks (Nat.zero_le 1) hb he hmem).not.mpr (not_not.mpr rfl)
        · intro hle key it hvisited hvalid
          obtain ⟨i, e, hshows⟩ := hvisited.shows hsize hvalid
          obtain ⟨hi, -⟩ := List.getElem?_eq_some_iff.mp hshows.entry
          rw [Table.length_entries, hwritten, List.length_singleton] at hi
          obtain rfl : i = 0 := Nat.lt_one_iff.mp hi
          obtain rfl := Option.some.inj (he.symm.trans hshows.entry)
          refine ⟨_, hshows.value_eq hb, ?_⟩
          intro b' hb'
          rw [hshows.checkServedBlock_eq (Nat.zero_le 1) hsize hblocks hb']
          rw [hwritten, List.mem_singleton] at hb'
          subst hb'
          rw [if_neg hle, if_pos rfl]
      rw [hiff]
      constructor
      · exact fun hle => Or.inr ⟨b, rfl, hle⟩
      · rintro (hnil | ⟨b', hb', hle⟩)
        · cases hnil
        · obtain rfl : b = b' := (List.cons.inj hb').1
          exact hle

end Runs

/-- Two data blocks of one value each. -/
def putOfABlock : TableBlock bytewiseComparator where
  contents := ⟨[(⟨[97, 1, 2, 0, 0, 0, 0, 0, 0], by decide⟩, [120])], by decide⟩
  size := 65
  ne_nil := by decide
  size_pos := by decide
  size_le := by decide

theorem putOfBBlock_internal :
    kNumInternalBytes ≤ ([98, 1, 1, 0, 0, 0, 0, 0, 0] : Bytes).length := by decide

def putOfBBlock : TableBlock bytewiseComparator where
  contents := ⟨[(⟨[98, 1, 1, 0, 0, 0, 0, 0, 0], putOfBBlock_internal⟩, [121])], by decide⟩
  size := 65
  ne_nil := by decide
  size_pos := by decide
  size_le := by decide

def oneBlock : Table bytewiseComparator := ⟨[putOfABlock], by decide⟩

def twoBlocks : Table bytewiseComparator := ⟨[putOfABlock, putOfBBlock], by decide⟩

def defaultTableOptions : TableOptions where
  indexBlockRestartInterval := 1
  formatVersion := 4
  indexShortening := .shortenSeparators
  blockAlign := false
  alignment := 4096
  interval_pos := by decide
  alignment_le := le_rfl

theorem substitutionDetected_iff_oneBlock :
    SubstitutionDetected sampleGcm sampleDigest true sampleKey 0
      (KeyShortening.none bytewiseComparator) defaultTableOptions oneBlock :=
  (substitutionDetected_iff (by decide +kernel) (by decide +kernel)).mpr
    (Or.inr ⟨putOfABlock, rfl, by decide⟩)

/-- With the first block served for the second entry `Get` goes on. -/
theorem twoBlocks_not_substitutionDetected :
    ¬ SubstitutionDetected sampleGcm sampleDigest true sampleKey 0
      (KeyShortening.none bytewiseComparator) defaultTableOptions twoBlocks :=
  not_substitutionDetected (show _ = putOfABlock :: putOfBBlock :: [] from rfl)
    (by decide +kernel) (by decide +kernel)

end Tweezer
