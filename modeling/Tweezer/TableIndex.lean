import Mathlib.Data.List.Chain
import Tweezer.BlockTable
import Tweezer.IndexSeek

/-!
# The index of a table

What `BlockBasedTableBuilder` puts into the index of a table: one entry for each data block,
with a key between the last key of the block and the first one of the next. Such an index
leads from the first key of a block to that block.
-/

namespace Tweezer

/-- A data block of a table: its entries, and the size of its stored form. -/
structure TableBlock (u : Comparator) where
  contents : BlockEntries u
  size : ℕ
  ne_nil : contents.entries ≠ []
  size_pos : 0 < size
  size_le : size ≤ 2 ^ 31

namespace TableBlock

variable {u : Comparator} (b : TableBlock u)

def firstKey : Bytes := (b.contents.entries.head b.ne_nil).1.val

def lastKey : Bytes := (b.contents.entries.getLast b.ne_nil).1.val

theorem isLE_firstKey_lastKey : (icmp u b.firstKey b.lastKey).isLE := by
  have hpos := List.length_pos_of_ne_nil b.ne_nil
  rw [firstKey, lastKey, List.head_eq_getElem, List.getLast_eq_getElem]
  rcases Nat.lt_or_ge 0 (b.contents.entries.length - 1) with h | h
  · exact Ordering.isLE_of_eq_lt
      (List.pairwise_iff_getElem.mp b.contents.sorted 0 _ hpos (by omega) h)
  · have hlast : b.contents.entries.length - 1 = 0 := by omega
    simp only [hlast]
    exact Ordering.isLE_of_eq_eq Std.ReflCmp.compare_self

end TableBlock

/-- The data blocks of a table, their keys in order. -/
structure Table (u : Comparator) where
  blocks : List (TableBlock u)
  sorted : (blocks.flatMap fun b => b.contents.entries).Pairwise
    fun a b => icmp u a.1.val b.1.val = .lt

structure TableOptions where
  indexBlockRestartInterval : ℕ
  formatVersion : ℕ
  indexShortening : IndexShorteningMode
  blockAlign : Bool
  alignment : ℕ
  interval_pos : 0 < indexBlockRestartInterval
  alignment_le : alignment ≤ 4096

namespace TableOptions

variable (o : TableOptions)

/-- `use_delta_encoding_for_index_values`. -/
def useDeltaEncodingForIndexValues : Bool := 4 ≤ o.formatVersion && !o.blockAlign

/-- The bytes that `WriteRawBlock` puts behind a data block of this size. -/
def padBytes (size : ℕ) : ℕ :=
  if o.blockAlign then (o.alignment - (size + kBlockTrailerSize) % o.alignment) % o.alignment
  else 0

theorem padBytes_le (size : ℕ) : o.padBytes size ≤ 4096 := by
  unfold padBytes
  split_ifs
  · rcases Nat.eq_zero_or_pos o.alignment with hzero | hpos
    · rw [hzero]
      simp
    · exact (le_of_lt (Nat.mod_lt _ hpos)).trans o.alignment_le
  · exact Nat.zero_le _

end TableOptions

section Index

variable {u : Comparator} (S : KeyShortening u) (o : TableOptions)

/-- The data blocks with the handles that they are written under, from this offset on. -/
def writtenFrom : ℕ → List (TableBlock u) → List (TableBlock u × BlockHandle)
  | _, [] => []
  | offset, b :: bs => (b, ⟨offset, b.size⟩) ::
      writtenFrom (u64 (offset + b.size + kBlockTrailerSize + o.padBytes b.size)) bs

/-- `AddIndexEntry` for every data block, the key after the block being the first one of its
successor. -/
def addIndexEntries (i : ShortenedIndexBuilder) :
    List (TableBlock u × BlockHandle) → ShortenedIndexBuilder
  | [] => i
  | b :: bs =>
      addIndexEntries (i.addIndexEntry S b.1.lastKey (bs.head?.map (·.1.firstKey)) b.2) bs

namespace Table

variable (t : Table u)

def written : List (TableBlock u × BlockHandle) := writtenFrom o 0 t.blocks

def indexBuilder : ShortenedIndexBuilder :=
  addIndexEntries S (.create o.indexBlockRestartInterval o.formatVersion
    o.useDeltaEncodingForIndexValues o.indexShortening) (t.written o)

def indexBlock : Bytes := (t.indexBuilder S o).finish

/-- `NewIndexIterator` of the reader, which takes the form of the keys and of the values from
the properties that the builder wrote. -/
def newIndexIterator : IndexBlockIter :=
  (Block.create (t.indexBlock S o)).newIndexIterator (t.indexBuilder S o).seperatorIsKeyPlusSeq
    (!o.useDeltaEncodingForIndexValues)

end Table

/-- The key of an index entry in the form that the index uses. -/
def indexKey (plusSeq : Bool) (key : Bytes) : Bytes :=
  if plusSeq then key else extractUserKey key

/-- The entries of the index. -/
def indexEntries (mode : IndexShorteningMode) (plusSeq : Bool) :
    List (TableBlock u × BlockHandle) → List IndexEntry
  | [] => []
  | b :: bs => ⟨indexKey plusSeq (ShortenedIndexBuilder.separator S mode b.1.lastKey
      (bs.head?.map (·.1.firstKey))), b.2⟩ :: indexEntries mode plusSeq bs

section Separators

variable {S} {a b next : Bytes}

theorem ucmp_isLE_of_icmp_isLE (h : (icmp u a b).isLE) :
    (u.compare (extractUserKey a) (extractUserKey b)).isLE :=
  Ordering.isLE_left_of_isLE_then h

theorem icmp_lt_of_ucmp_lt (h : u.compare (extractUserKey a) (extractUserKey b) = .lt) :
    icmp u a b = .lt := by
  rw [icmp, h]
  rfl

theorem icmp_isLE_self (u : Comparator) (a : Bytes) : (icmp u a a).isLE :=
  Ordering.isLE_of_eq_eq Std.ReflCmp.compare_self

theorem isLE_shortenTo (u : Comparator) (key tmp : Bytes) :
    (icmp u key (shortenTo u key tmp)).isLE := by
  unfold shortenTo
  split_ifs with h
  · apply Ordering.isLE_of_eq_lt
    apply icmp_lt_of_ucmp_lt
    rw [extractUserKey_append]
    exact h.2
  · exact icmp_isLE_self u key

theorem isLE_separator (S : KeyShortening u) (mode : IndexShorteningMode) (last : Bytes)
    (next : Option Bytes) :
    (icmp u last (ShortenedIndexBuilder.separator S mode last next)).isLE := by
  cases next with
  | none =>
      rw [ShortenedIndexBuilder.separator]
      split_ifs
      · exact isLE_shortenTo u last _
      · exact icmp_isLE_self u last
  | some next =>
      rw [ShortenedIndexBuilder.separator]
      split_ifs
      · exact icmp_isLE_self u last
      · exact isLE_shortenTo u last _

/-- A key that was shortened stays below the first key of the next block. -/
theorem separator_lt (S : KeyShortening u) (mode : IndexShorteningMode) {last next : Bytes}
    (h : icmp u last next = .lt) :
    icmp u (ShortenedIndexBuilder.separator S mode last (some next)) next = .lt := by
  rw [ShortenedIndexBuilder.separator]
  split_ifs
  · exact h
  · unfold findShortestSeparator shortenTo
    split_ifs with hshort
    · apply icmp_lt_of_ucmp_lt
      rw [extractUserKey_append]
      by_cases hlt : u.compare (extractUserKey last) (extractUserKey next) = .lt
      · exact (S.separator_between _ _ hlt).2
      · rw [S.separator_unchanged _ _ hlt, ucmp_self] at hshort
        cases hshort.2
    · exact h

/-- What the index compares: internal keys, or their user keys. -/
def compareIndexKeys (u : Comparator) (plusSeq : Bool) : Bytes → Bytes → Ordering :=
  if plusSeq then icmp u else u.compare

theorem isLE_indexKey (plusSeq : Bool) (h : (icmp u a b).isLE) :
    (compareIndexKeys u plusSeq (indexKey plusSeq a) (indexKey plusSeq b)).isLE := by
  cases plusSeq with
  | true => exact h
  | false => exact ucmp_isLE_of_icmp_isLE h

theorem indexKey_lt (plusSeq : Bool) (h : icmp u a b = .lt)
    (hseq : plusSeq = false → u.compare (extractUserKey a) (extractUserKey b) ≠ .eq) :
    compareIndexKeys u plusSeq (indexKey plusSeq a) (indexKey plusSeq b) = .lt := by
  cases plusSeq with
  | true => exact h
  | false =>
      have hle := ucmp_isLE_of_icmp_isLE (Ordering.isLE_of_eq_lt h)
      exact (Ordering.isLE_iff_eq_lt_or_eq_eq.mp hle).resolve_right (hseq rfl)

theorem icmp_lt_of_indexKey_lt (plusSeq : Bool)
    (h : compareIndexKeys u plusSeq (indexKey plusSeq a) (indexKey plusSeq b) = .lt) :
    icmp u a b = .lt := by
  cases plusSeq with
  | true => exact h
  | false => exact icmp_lt_of_ucmp_lt h

end Separators

section Written

variable {o} {bs : List (TableBlock u)} {offset : ℕ}

theorem map_fst_writtenFrom (o : TableOptions) (offset : ℕ) (bs : List (TableBlock u)) :
    (writtenFrom o offset bs).map Prod.fst = bs := by
  induction bs generalizing offset with
  | nil => rfl
  | cons b bs ih => rw [writtenFrom, List.map_cons, ih]

theorem fits_writtenFrom (hoffset : offset < 2 ^ 64) :
    ∀ b ∈ writtenFrom o offset bs, b.2.Fits := by
  induction bs generalizing offset with
  | nil => exact fun b hb => absurd hb List.not_mem_nil
  | cons b bs ih =>
      intro c hc
      rcases List.mem_cons.mp hc with rfl | hc
      · exact ⟨hoffset, lt_of_le_of_lt b.size_le (by decide)⟩
      · exact ih (Nat.mod_lt _ (by decide)) c hc

theorem follows_writtenFrom (halign : o.blockAlign = false) (offset : ℕ)
    (bs : List (TableBlock u)) :
    (writtenFrom o offset bs).IsChain fun a b => a.2.Follows b.2 := by
  induction bs generalizing offset with
  | nil => exact List.IsChain.nil
  | cons b bs ih =>
      have hpad : o.padBytes b.size = 0 := by
        rw [TableOptions.padBytes, halign]
        rfl
      cases bs with
      | nil => exact List.IsChain.singleton _
      | cons b' bs =>
          have hnull : BlockHandle.isNull ⟨offset, b.size⟩ = false := by
            simp [BlockHandle.isNull, Nat.ne_of_gt b.size_pos]
          refine List.isChain_cons_cons.mpr ⟨⟨?_, hnull⟩, ih _⟩
          rw [hpad, Nat.add_zero]

end Written

section Entries

variable {S} {mode : IndexShorteningMode} {plusSeq : Bool}
  {bs : List (TableBlock u × BlockHandle)}

theorem getElem?_indexEntries (S : KeyShortening u) (mode : IndexShorteningMode)
    (plusSeq : Bool) (bs : List (TableBlock u × BlockHandle)) (i : ℕ) :
    (indexEntries S mode plusSeq bs)[i]? = bs[i]?.map fun b =>
      ⟨indexKey plusSeq (ShortenedIndexBuilder.separator S mode b.1.lastKey
        (bs[i + 1]?.map (·.1.firstKey))), b.2⟩ := by
  induction bs generalizing i with
  | nil => rfl
  | cons b bs ih =>
      cases i with
      | zero =>
          rw [indexEntries, List.head?_eq_getElem?]
          rfl
      | succ i =>
          rw [indexEntries, List.getElem?_cons_succ, ih]
          rfl

theorem map_handle_indexEntries (S : KeyShortening u) (mode : IndexShorteningMode)
    (plusSeq : Bool) (bs : List (TableBlock u × BlockHandle)) :
    (indexEntries S mode plusSeq bs).map IndexEntry.handle = bs.map Prod.snd := by
  induction bs with
  | nil => rfl
  | cons b bs ih => rw [indexEntries, List.map_cons, List.map_cons, ih]

/-- Whether user keys are not enough to tell some block from the next one. -/
def anyNeedsSeq (S : KeyShortening u) (mode : IndexShorteningMode) :
    List (TableBlock u × BlockHandle) → Bool
  | [] => false
  | b :: bs =>
      ShortenedIndexBuilder.needsSeq u (ShortenedIndexBuilder.separator S mode b.1.lastKey
        (bs.head?.map (·.1.firstKey))) (bs.head?.map (·.1.firstKey)) || anyNeedsSeq S mode bs

theorem needsSeq_getElem? (h : anyNeedsSeq S mode bs = false) {i : ℕ}
    {b : TableBlock u × BlockHandle} (hb : bs[i]? = some b) :
    ShortenedIndexBuilder.needsSeq u (ShortenedIndexBuilder.separator S mode b.1.lastKey
      (bs[i + 1]?.map (·.1.firstKey))) (bs[i + 1]?.map (·.1.firstKey)) = false := by
  induction bs generalizing i with
  | nil => cases hb
  | cons b' bs ih =>
      obtain ⟨hhead, hrest⟩ := Bool.or_eq_false_iff.mp h
      cases i with
      | zero =>
          obtain rfl : b' = b := Option.some.inj hb
          rw [List.head?_eq_getElem?] at hhead
          exact hhead
      | succ i => exact ih hrest hb

/-- The two block builders hold the entries in the two forms of their keys; the one with user
keys only as long as these are enough. -/
theorem addIndexEntries_eq (S : KeyShortening u) (i : ShortenedIndexBuilder)
    (bs : List (TableBlock u × BlockHandle)) :
    (addIndexEntries S i bs).indexBlockBuilder = i.indexBlockBuilder.addAll
        (encodedEntries i.useValueDeltaEncoding i.lastEncodedHandle
          (indexEntries S i.shorteningMode true bs)) ∧
      (addIndexEntries S i bs).seperatorIsKeyPlusSeq =
        (i.seperatorIsKeyPlusSeq || anyNeedsSeq S i.shorteningMode bs) ∧
      ((addIndexEntries S i bs).seperatorIsKeyPlusSeq = false →
        (addIndexEntries S i bs).indexBlockBuilderWithoutSeq =
          i.indexBlockBuilderWithoutSeq.addAll
            (encodedEntries i.useValueDeltaEncoding i.lastEncodedHandle
              (indexEntries S i.shorteningMode false bs))) := by
  induction bs generalizing i with
  | nil => exact ⟨rfl, (Bool.or_false _).symm, fun _ => rfl⟩
  | cons b bs ih =>
      obtain ⟨hwith, hseq, hwithout⟩ :=
        ih (i.addIndexEntry S b.1.lastKey (bs.head?.map (·.1.firstKey)) b.2)
      refine ⟨hwith, ?_, ?_⟩
      · rw [addIndexEntries, hseq, anyNeedsSeq, ← Bool.or_assoc]
        rfl
      · intro hfalse
        rw [addIndexEntries] at hfalse ⊢
        rw [hwithout hfalse]
        rw [hseq] at hfalse
        have hnow := (Bool.or_eq_false_iff.mp hfalse).1
        have hbuilder : (i.addIndexEntry S b.1.lastKey (bs.head?.map (·.1.firstKey))
            b.2).indexBlockBuilderWithoutSeq = i.indexBlockBuilderWithoutSeq.add
              (extractUserKey (ShortenedIndexBuilder.separator S i.shorteningMode b.1.lastKey
                (bs.head?.map (·.1.firstKey)))) (IndexValue.encode b.2 none)
              (if i.useValueDeltaEncoding && !i.lastEncodedHandle.isNull then
                IndexValue.encode b.2 (some i.lastEncodedHandle) else []) := by
          unfold ShortenedIndexBuilder.addIndexEntry at hnow ⊢
          dsimp only at hnow ⊢
          rw [hnow]
          rfl
        rw [hbuilder]
        rfl

end Entries

namespace Table

variable (t : Table u)

def plusSeq : Bool := (t.indexBuilder S o).seperatorIsKeyPlusSeq

/-- What the index block of the table is built of. -/
def index : IndexContents where
  interval := o.indexBlockRestartInterval
  valueDelta := o.useDeltaEncodingForIndexValues
  keyIncludesSeq := t.plusSeq S o
  entries := indexEntries S o.indexShortening (t.plusSeq S o) (t.written o)
  interval_pos := o.interval_pos
  fits := by
    intro e he
    have hmem := List.mem_map_of_mem (f := IndexEntry.handle) he
    rw [map_handle_indexEntries] at hmem
    obtain ⟨b, hb, hhandle⟩ := List.mem_map.mp hmem
    rw [← hhandle]
    exact fits_writtenFrom (by decide) b hb
  follows := by
    intro hdelta
    have halign : o.blockAlign = false := by
      rw [TableOptions.useDeltaEncodingForIndexValues, Bool.and_eq_true] at hdelta
      simpa using hdelta.2
    have hchain := follows_writtenFrom halign 0 t.blocks
    rw [← List.isChain_map Prod.snd, ← map_handle_indexEntries S o.indexShortening
      (t.plusSeq S o), List.isChain_map] at hchain
    exact hchain

theorem indexBlock_eq : t.indexBlock S o = (t.index S o).block := by
  obtain ⟨hwith, -, hwithout⟩ := addIndexEntries_eq S
    (.create o.indexBlockRestartInterval o.formatVersion o.useDeltaEncodingForIndexValues
      o.indexShortening) (t.written o)
  rw [indexBlock, ShortenedIndexBuilder.finish, IndexContents.block, IndexContents.builder,
    IndexContents.encoded, index]
  dsimp only
  rw [← plusSeq]
  cases hseq : t.plusSeq S o with
  | true =>
      rw [if_pos rfl]
      exact congrArg PlainBlockBuilder.finish hwith
  | false =>
      rw [if_neg Bool.false_ne_true]
      exact congrArg PlainBlockBuilder.finish (hwithout hseq)

variable {S o t} {i j : ℕ} {b b' : TableBlock u × BlockHandle}

theorem getElem?_blocks (hb : (t.written o)[i]? = some b) : t.blocks[i]? = some b.1 := by
  have hmap := congrArg (Option.map Prod.fst) hb
  rw [← List.getElem?_map, written, map_fst_writtenFrom] at hmap
  exact hmap

theorem lastKey_lt_firstKey (hij : i < j) (hb : (t.written o)[i]? = some b)
    (hb' : (t.written o)[j]? = some b') : icmp u b.1.lastKey b'.1.firstKey = .lt := by
  obtain ⟨hi, hbi⟩ := List.getElem?_eq_some_iff.mp (getElem?_blocks hb)
  obtain ⟨hj, hbj⟩ := List.getElem?_eq_some_iff.mp (getElem?_blocks hb')
  have hacross := List.pairwise_iff_getElem.mp (List.pairwise_flatMap.mp t.sorted).2 i j hi hj hij
  rw [hbi, hbj] at hacross
  exact hacross _ (List.getLast_mem b.1.ne_nil) _ (List.head_mem b'.1.ne_nil)

/-- The entry of a block, with its key. -/
theorem getElem?_entries (hb : (t.written o)[i]? = some b) : (t.index S o).entries[i]? =
    some ⟨indexKey (t.plusSeq S o) (ShortenedIndexBuilder.separator S o.indexShortening
      b.1.lastKey ((t.written o)[i + 1]?.map (·.1.firstKey))), b.2⟩ := by
  rw [index, getElem?_indexEntries, hb]
  rfl

theorem length_entries : (t.index S o).entries.length = (t.written o).length := by
  have hmap := congrArg List.length
    (map_handle_indexEntries S o.indexShortening (t.plusSeq S o) (t.written o))
  rwa [List.length_map, List.length_map] at hmap

theorem seekKey_eq (key : Bytes) : (t.index S o).seekKey key = indexKey (t.plusSeq S o) key := rfl

theorem compare_eq : (t.index S o).compare u = compareIndexKeys u (t.plusSeq S o) := rfl

/-- The key of an entry is not below those of its block, and below those of the next. -/
theorem isLE_entry_key (hb : (t.written o)[i]? = some b) {e : IndexEntry}
    (he : (t.index S o).entries[i]? = some e) {key : Bytes}
    (hkey : (icmp u key b.1.lastKey).isLE) :
    ((t.index S o).compare u ((t.index S o).seekKey key) e.key).isLE := by
  obtain rfl := Option.some.inj ((getElem?_entries hb).symm.trans he)
  exact isLE_indexKey _ (Std.TransCmp.isLE_trans hkey (isLE_separator S _ _ _))

theorem entry_key_lt (hb : (t.written o)[i]? = some b)
    (hb' : (t.written o)[i + 1]? = some b') {e : IndexEntry}
    (he : (t.index S o).entries[i]? = some e) :
    (t.index S o).compare u e.key ((t.index S o).seekKey b'.1.firstKey) = .lt := by
  obtain rfl := Option.some.inj ((getElem?_entries hb).symm.trans he)
  rw [hb']
  refine indexKey_lt _ (separator_lt S _ (lastKey_lt_firstKey (Nat.lt_succ_self i) hb hb')) ?_
  intro hseq
  obtain ⟨-, hplus, -⟩ := addIndexEntries_eq S
    (.create o.indexBlockRestartInterval o.formatVersion o.useDeltaEncodingForIndexValues
      o.indexShortening) (t.written o)
  have hfalse : t.plusSeq S o = false := hseq
  rw [← indexBuilder, ← plusSeq, hfalse] at hplus
  have hneeds := needsSeq_getElem? (Bool.or_eq_false_iff.mp hplus.symm).2 hb
  rw [hb'] at hneeds
  have hdiffer : (u.compare (extractUserKey (ShortenedIndexBuilder.separator S
      o.indexShortening b.1.lastKey (some b'.1.firstKey))) (extractUserKey b'.1.firstKey) ==
        .eq) = false := hneeds
  simpa using hdiffer

/-- The keys of the index are in order. -/
theorem sorted_index : (t.index S o).Sorted u := by
  have hchain : (t.index S o).keys.IsChain fun a b =>
      (t.index S o).compare u a b = .lt := by
    rw [List.isChain_iff_getElem]
    intro i hi
    have hlen : i + 1 < (t.written o).length := by
      rwa [← length_entries (S := S), ← List.length_map IndexEntry.key]
    have hb := List.getElem?_eq_getElem (show i < (t.written o).length by omega)
    have hb' := List.getElem?_eq_getElem hlen
    have he := getElem?_entries (S := S) hb
    have he' := getElem?_entries (S := S) hb'
    have hlt := entry_key_lt hb hb' he
    have hle := isLE_entry_key hb' he' ((t.written o)[i + 1]).1.isLE_firstKey_lastKey
    have hk := List.getElem?_eq_some_iff.mp (IndexContents.getElem?_keys he)
    have hk' := List.getElem?_eq_some_iff.mp (IndexContents.getElem?_keys he')
    rw [hk.2, hk'.2]
    exact Std.TransCmp.lt_of_lt_of_isLE hlt hle
  have htrans : Trans (fun a b => (t.index S o).compare u a b = .lt)
      (fun a b => (t.index S o).compare u a b = .lt)
      (fun a b => (t.index S o).compare u a b = .lt) :=
    ⟨fun hab hbc => Std.TransCmp.lt_trans hab hbc⟩
  exact List.isChain_iff_pairwise.mp hchain

/-- The first key of a block leads to the entry of the block. -/
theorem seek_firstKey (hb : (t.written o)[i]? = some b) :
    OrderedCursor.seek ((t.index S o).compare u) (t.index S o).keys
      ((t.index S o).seekKey b.1.firstKey) = some i := by
  have he := getElem?_entries (S := S) hb
  have hle := isLE_entry_key hb he b.1.isLE_firstKey_lastKey
  refine OrderedCursor.seek_eq_some_of_sorted sorted_index (IndexContents.getElem?_keys he) ?_ ?_
  · intro hlt
    have hgt := Std.OrientedCmp.gt_iff_lt.mpr hlt
    rw [hgt] at hle
    cases hle
  · intro j k hj hk
    subst hj
    rw [IndexContents.keys, List.getElem?_map] at hk
    obtain ⟨e', he', rfl⟩ := Option.map_eq_some_iff.mp hk
    obtain ⟨hlt, -⟩ := List.getElem?_eq_some_iff.mp hb
    exact entry_key_lt (List.getElem?_eq_getElem (show j < (t.written o).length by omega)) hb he'

/-- The reader opens the index that the builder wrote. -/
theorem newIndexIterator_spec (hsize : (t.indexBlock S o).length ≤ 2 ^ 31) :
    (t.newIndexIterator S o).Over (t.index S o) ∧ (t.newIndexIterator S o).status = .ok := by
  rw [indexBlock_eq] at hsize
  rw [newIndexIterator, indexBlock_eq]
  exact IndexBlockIter.newIndexIterator_block (IndexBlockIter.length_buffer_lt hsize)

theorem over_newIndexIterator (hsize : (t.indexBlock S o).length ≤ 2 ^ 31) :
    (t.newIndexIterator S o).Over (t.index S o) :=
  (newIndexIterator_spec hsize).1

end Table

end Index

end Tweezer
