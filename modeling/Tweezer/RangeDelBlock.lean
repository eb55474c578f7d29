import Tweezer.BlockFetcher
import Tweezer.PlainBlock
import Tweezer.RangeTombstone

/-!
# The block of range deletions of a table

`WriteRangeDelBlock` and `ReadRangeDelBlock`. The block is built in the original format and
encrypted as a whole like the other meta blocks, but it is read like a data block: without being
decrypted, and as a `Block` whose restart points lie at its very beginning.
-/

namespace Tweezer

open FragmentedRangeTombstoneList

/-- A range deletion as an entry of the table. -/
def RangeTombstone.tableEntry (t : RangeTombstone) : Bytes × Bytes :=
  (t.startKey ++ Bytes.leEncode 8 (packSequenceAndType t.seq ValueType.rangeDeletion.code),
    t.endKey)

/-- `range_del_block` after the entries were added to it. -/
def rangeDelBlock (entries : List (Bytes × Bytes)) : PlainBlockBuilder :=
  entries.foldl (fun b e => b.add e.1 e.2 []) (.create 1 true false)

/-- `WriteRangeDelBlock`: there is no such block for a builder that is empty. -/
def writeRangeDelBlock (E : TableEnv) (entries : List (Bytes × Bytes)) (unset : Octets 4) :
    Option RawBlock :=
  if (rangeDelBlock entries).buffer = [] then none
  else some (writeRawBlock E (rangeDelBlock entries).finish kNoCompression false unset)

/-- `ReadRangeDelBlock` on opening, `none` being a status that is not OK. The loops over the
entries have at most `fuel` turns. -/
def readRangeDelBlock (E : TableEnv) (u : Comparator) (l : BlockLookup) (fuel : ℕ) :
    Option RawBlock → Outcome (Option (List RangeTombstoneStack))
  | none => .ok (some [])
  | some b => do
      let contents ← (retrieveBlock E l .rangeDeletion true b).1
      match contents with
      | none => .ok none
      | some contents =>
          let it := (Block.trusted contents).newDataIterator
          if it.status ≠ .ok then .ok none
          else do
            let it ← it.seekToFirst
            let entries ← it.rest fuel
            .ok (some (create u entries))

/-- The tombstones that a table is opened with are the fragments of those that were added. -/
def RangeDelsRoundTrip (E : TableEnv) (u : Comparator) (l : BlockLookup) (unset : Octets 4)
    (ts : List RangeTombstone) : Prop :=
  Outcome.Settles
    (fun fuel => readRangeDelBlock E u l fuel
      (writeRangeDelBlock E (ts.map RangeTombstone.tableEntry) unset))
    (some (create u (ts.map RangeTombstone.tableEntry)))

/-- An iterator over a block whose entries end where they begin finds none. -/
theorem rest_trusted {contents : Bytes} (h : 8 ≤ contents.length) (fuel : ℕ) :
    ((Block.trusted contents).newDataIterator.seekToFirst >>= DataBlockIter.rest (fuel + 1)) =
      .ok [] := by
  have hsize : ¬ contents.length < 4 := by omega
  have hopened : (Block.trusted contents).newDataIterator =
      { DataBlockIter.fresh with data := some contents, numRestarts := 1, restartIndex := 1 } := by
    simp [Block.newDataIterator, Block.trusted, hsize, h, DataBlockIter.fresh]
  have hfetch : contents.fetch 0 4 = .ok (contents.slice 0 4) := Bytes.fetch_of_le (by omega)
  rw [hopened, DataBlockIter.seekToFirst]
  simp [DataBlockIter.seekToRestartPoint, DataBlockIter.getRestartPoint, DataBlockIter.fresh,
    hfetch, DataBlockIter.parseNextDataKey, DataBlockIter.rest, DataBlockIter.valid]

/-- A block in which range deletions were written is read as none of them, if at all. -/
theorem readRangeDelBlock_some (E : TableEnv) (u : Comparator) (l : BlockLookup) (b : RawBlock)
    (fuel : ℕ) {ts : List RangeTombstoneStack}
    (h : readRangeDelBlock E u l (fuel + 1) (some b) = .ok (some ts)) : ts = [] := by
  unfold readRangeDelBlock at h
  obtain ⟨contents, -, h⟩ := Outcome.bind_eq_ok.mp h
  cases contents with
  | none => cases h
  | some contents =>
      dsimp only at h
      by_cases hshort : contents.length < 8
      · have hstatus : (Block.trusted contents).newDataIterator.status ≠ .ok := by
          have hsize : (Block.trusted contents).size < 8 := by
            rw [Block.trusted]
            dsimp only
            split_ifs <;> omega
          rw [Block.newDataIterator, if_pos hsize]
          exact fun hok => nomatch hok
        rw [if_pos hstatus] at h
        cases h
      · have hrest := rest_trusted (not_lt.mp hshort) fuel
        by_cases hstatus : (Block.trusted contents).newDataIterator.status ≠ .ok
        · rw [if_pos hstatus] at h
          cases h
        · rw [if_neg hstatus] at h
          obtain ⟨it, hit, h⟩ := Outcome.bind_eq_ok.mp h
          rw [hit, Outcome.ok_bind] at hrest
          rw [hrest, Outcome.ok_bind] at h
          cases h
          rfl

theorem extractUserKey_tableEntry (t : RangeTombstone) :
    extractUserKey t.tableEntry.1 = t.startKey := extractUserKey_append _ _

/-- Every entry leaves bytes in the block. -/
theorem rangeDelBlock_buffer_ne_nil {entries : List (Bytes × Bytes)} (h : entries ≠ []) :
    (rangeDelBlock entries).buffer ≠ [] := by
  induction entries using List.reverseRecOn with
  | nil => exact absurd rfl h
  | append_singleton entries e _ =>
      unfold rangeDelBlock
      rw [List.foldl_append, List.foldl_cons, List.foldl_nil]
      exact PlainBlockBuilder.buffer_add_ne_nil _ _ _ _

/-- Range deletions come back from a table exactly if there are none. -/
theorem rangeDelsRoundTrip_iff (E : TableEnv) (u : Comparator) (l : BlockLookup) (unset : Octets 4)
    (ts : List RangeTombstone) (hvalid : ∀ t ∈ ts, u.compare t.startKey t.endKey = .lt) :
    RangeDelsRoundTrip E u l unset ts ↔ ts = [] := by
  constructor
  · intro h
    by_contra hne
    have hentries : ts.map RangeTombstone.tableEntry ≠ [] := fun hnil =>
      hne (List.map_eq_nil_iff.mp hnil)
    obtain ⟨n, hn⟩ := h.enough
    have hread := hn (n + 1) (Nat.le_succ n)
    rw [writeRangeDelBlock, if_neg (rangeDelBlock_buffer_ne_nil hentries)] at hread
    have hnil := readRangeDelBlock_some E u l _ n hread
    rw [create_eq_nil_iff] at hnil
    · exact hentries hnil
    · intro e he
      obtain ⟨t, ht, rfl⟩ := List.mem_map.mp he
      rw [extractUserKey_tableEntry]
      exact hvalid t ht
  · rintro rfl
    exact Outcome.settles_const rfl

/-- A deletion of the keys from `a` up to `c`. -/
def rangeAToC : RangeTombstone := ⟨[97], [99], 1⟩

theorem rangeDelsRoundTrip_iff_aToC :
    RangeDelsRoundTrip sampleTableEnv bytewiseComparator sampleBlockLookup ⟨[0, 0, 0, 0], rfl⟩
      [rangeAToC] ↔ [rangeAToC] = [] :=
  rangeDelsRoundTrip_iff sampleTableEnv bytewiseComparator sampleBlockLookup
    ⟨[0, 0, 0, 0], rfl⟩ [rangeAToC] (by decide)

theorem aToC_not_roundTrip :
    ¬ RangeDelsRoundTrip sampleTableEnv bytewiseComparator sampleBlockLookup
      ⟨[0, 0, 0, 0], rfl⟩ [rangeAToC] := by
  intro h
  obtain ⟨n, hn⟩ := h.enough
  have hread := hn (n + 1) (Nat.le_succ n)
  have hwritten : (rangeDelBlock ([rangeAToC].map RangeTombstone.tableEntry)).buffer ≠ [] := by
    decide +kernel
  rw [writeRangeDelBlock, if_neg hwritten] at hread
  have hnil := readRangeDelBlock_some sampleTableEnv _ _ _ n hread
  have hvalid : ∀ e ∈ [rangeAToC].map RangeTombstone.tableEntry,
      bytewiseComparator.compare (extractUserKey e.1) e.2 = .lt := by
    decide +kernel
  have hfragments := (create_eq_nil_iff hvalid).mp hnil
  cases hfragments

end Tweezer
