import Tweezer.Chunks
import Tweezer.TableIteratorBlocks

/-!
# The table iterator as a cursor

The iterator over a table beside the reference cursor over all its entries. The two go together
call by call under a condition on the reference, which names what the iterator gets wrong where a
data block ends: the entries at which a block iterator does not count as valid, the last entries
that it does not get past, the calls that go back over the start of a block, and those that look
for the last entry of one.
-/

namespace Tweezer

open OrderedCursor

namespace OpenTable

variable (T : OpenTable)

/-- The entries of the table, data block by data block. -/
def chunks : List (List (InternalKey × Bytes)) := T.table.blocks.map fun b => b.contents.entries

def entries : List (InternalKey × Bytes) := T.chunks.flatten

end OpenTable

namespace BlockBasedTableIterator

/-- The iterator shows the entry at the position of the cursor. -/
def Agrees (R : PointReader) (I : BlockBasedTableIterator) (es : List (InternalKey × Bytes))
    (pos : Option ℕ) : Prop :=
  I.valid = pos.isSome ∧ ∀ p ∈ pos, ∀ e ∈ es[p]?,
    I.key = e.1.val ∧ ∃ I', I.value R = .ok (e.2, I')

/-- Every call ends and agrees with the reference cursor, whether or not the values are read
between the calls. -/
def Follows (R : PointReader) (o : IteratorOptions) (es : List (InternalKey × Bytes)) :
    BlockBasedTableIterator → Option ℕ → List (Op InternalKey) → Prop
  | _, _, [] => True
  | I, pos, op :: ops =>
      ∃ fuel I', I.call R o fuel op = .ok I' ∧
        I'.Agrees R es (step (ikeyCompare R.comparator) (keysOf es) pos op) ∧
        Follows R o es I' (step (ikeyCompare R.comparator) (keysOf es) pos op) ops ∧
        ∀ v I'', I'.value R = .ok (v, I'') →
          Follows R o es I'' (step (ikeyCompare R.comparator) (keysOf es) pos op) ops

end BlockBasedTableIterator

/-! ### The condition on a call -/

section Condition

variable (u : Comparator) (chunks : List (List (InternalKey × Bytes)))

/-- The iterator over the data block counts as valid at this entry: it is not the last one of the
block, or its value is not empty. -/
def ShownAt (p : ℕ) : Prop :=
  ∀ x ∈ Chunks.place chunks p, ∀ es ∈ chunks[x.1]?, Shown es x.2

instance (p : ℕ) : Decidable (ShownAt chunks p) :=
  inferInstanceAs (Decidable (∀ x ∈ _, ∀ es ∈ _, _))

/-- The entry is the first one of its data block. -/
def FirstOfBlock (p : ℕ) : Prop := ∀ x ∈ Chunks.place chunks p, x.2 = 0

instance (p : ℕ) : Decidable (FirstOfBlock chunks p) :=
  inferInstanceAs (Decidable (∀ x ∈ _, _))

/-- If the entry is the last one of its data block, the iterator over the block gets past it. -/
def LeavesBlock (p : ℕ) : Prop :=
  ∀ x ∈ Chunks.place chunks p, ∀ es ∈ chunks[x.1]?, x.2 + 1 = es.length → lastSize es ≤ 20000

instance (p : ℕ) : Decidable (LeavesBlock chunks p) :=
  inferInstanceAs (Decidable (∀ x ∈ _, ∀ es ∈ _, _ → _))

/-- The condition on one call, in terms of the reference cursor's position before it. -/
def TableCallFollows (pos : Option ℕ) : Op InternalKey → Prop
  | .seekToFirst => ShownAt chunks 0
  | .seekToLast => chunks.flatten = []
  | .seek t => ∀ p ∈ seek (ikeyCompare u) (keysOf chunks.flatten) t, ShownAt chunks p
  | .seekForPrev t => chunks.flatten = [] ∨
      ∃ p ∈ seek (ikeyCompare u) (keysOf chunks.flatten) t, ShownAt chunks p ∧
        (FirstOfBlock chunks p →
          ∀ k ∈ (keysOf chunks.flatten)[p]?, ikeyCompare u k t ≠ .gt)
  | .next => ∀ p ∈ pos, LeavesBlock chunks p ∧ ShownAt chunks (p + 1)
  | .prev => ∀ p ∈ pos, ¬ FirstOfBlock chunks p

instance (pos : Option ℕ) (op : Op InternalKey) : Decidable (TableCallFollows u chunks pos op) :=
  match op with
  | .seekToFirst => inferInstanceAs (Decidable (ShownAt chunks 0))
  | .seekToLast => inferInstanceAs (Decidable (_ = _))
  | .seek _ => inferInstanceAs (Decidable (∀ p ∈ _, _))
  | .seekForPrev _ => inferInstanceAs (Decidable (_ ∨ ∃ p ∈ _, _ ∧ (_ → ∀ k ∈ _, _)))
  | .next => inferInstanceAs (Decidable (∀ p ∈ _, _))
  | .prev => inferInstanceAs (Decidable (∀ p ∈ _, _))

def TableCallsFollow : Option ℕ → List (Op InternalKey) → Prop
  | _, [] => True
  | pos, op :: ops =>
      TableCallFollows u chunks pos op ∧
        TableCallsFollow (step (ikeyCompare u) (keysOf chunks.flatten) pos op) ops

instance decidableTableCallsFollow :
    ∀ pos ops, Decidable (TableCallsFollow u chunks pos ops)
  | _, [] => inferInstanceAs (Decidable True)
  | pos, op :: ops =>
      have := decidableTableCallsFollow (step (ikeyCompare u) (keysOf chunks.flatten) pos op) ops
      inferInstanceAs (Decidable (_ ∧ _))

end Condition

section Positions

variable {chunks : List (List (InternalKey × Bytes))} {es : List (InternalKey × Bytes)}
  {p k i : ℕ}

theorem shownAt_iff (h : Chunks.Holds chunks p k i es) : ShownAt chunks p ↔ Shown es i := by
  unfold ShownAt
  rw [h.place_eq]
  simp [h.chunk]

theorem firstOfBlock_iff (h : Chunks.Holds chunks p k i es) : FirstOfBlock chunks p ↔ i = 0 := by
  unfold FirstOfBlock
  rw [h.place_eq]
  simp

theorem leavesBlock_iff (h : Chunks.Holds chunks p k i es) :
    LeavesBlock chunks p ↔ (i + 1 = es.length → lastSize es ≤ 20000) := by
  unfold LeavesBlock
  rw [h.place_eq]
  simp [h.chunk]

theorem shownAt_of_length_le (h : chunks.flatten.length ≤ p) : ShownAt chunks p := by
  intro x hx
  obtain ⟨c, hholds⟩ := Chunks.place_eq_some.mp (show Chunks.place chunks p = some (x.1, x.2) from hx)
  have hlt := hholds.lt_length
  omega

end Positions

/-! ### Where the index leads -/

namespace OpenTable

variable {T : OpenTable} {k : ℕ} {b : TableBlock T.comparator × BlockHandle} {t : InternalKey}

theorem sorted_entries (T : OpenTable) :
    (keysOf T.entries).Pairwise (fun a b => ikeyCompare T.comparator a b = .lt) := by
  have hsorted := T.table.sorted
  rw [List.flatMap_def] at hsorted
  exact List.pairwise_map.mpr hsorted

theorem keysOf_entries (T : OpenTable) : keysOf T.entries = (T.chunks.map keysOf).flatten :=
  List.map_flatten

theorem chunk_of_written (hb : (T.table.written T.tableOptions)[k]? = some b) :
    T.chunks[k]? = some b.1.contents.entries := by
  rw [chunks, List.getElem?_map, Table.getElem?_blocks hb]
  rfl

theorem length_chunks (T : OpenTable) :
    T.chunks.length = (T.table.written T.tableOptions).length := by
  rw [chunks, List.length_map, length_written]

/-- The first position behind a data block. -/
def after (T : OpenTable) (k : ℕ) : Option ℕ :=
  if Chunks.start T.chunks (k + 1) < T.entries.length then some (Chunks.start T.chunks (k + 1))
  else none

theorem holds_start (hb : (T.table.written T.tableOptions)[k]? = some b) :
    Chunks.Holds T.chunks (Chunks.start T.chunks k) k 0 b.1.contents.entries :=
  Chunks.holds_start (chunk_of_written hb) b.1.ne_nil

theorem after_of_some (hb : (T.table.written T.tableOptions)[k + 1]? = some b) :
    T.after k = some (Chunks.start T.chunks (k + 1)) :=
  if_pos (holds_start hb).lt_length

theorem after_of_none (hb : (T.table.written T.tableOptions)[k + 1]? = none) :
    T.after k = none := by
  apply if_neg
  rw [Chunks.start_of_length_le, entries]
  · exact Nat.lt_irrefl _
  · rw [length_chunks]
    exact List.getElem?_eq_none_iff.mp hb

theorem entries_eq_nil_iff : T.entries = [] ↔ T.indexContents.entries = [] := by
  rw [← List.length_eq_zero_iff, ← List.length_eq_zero_iff, length_entries, ← length_written]
  constructor
  · intro hzero
    by_contra hne
    have hlt := (holds_start (List.getElem?_eq_getElem (Nat.pos_of_ne_zero hne))).lt_length
    rw [← entries, hzero] at hlt
    exact absurd hlt (Nat.not_lt_zero _)
  · intro hzero
    rw [entries, ← Chunks.start_of_length_le (k := 0) (by rw [length_chunks, hzero]),
      Chunks.start_zero]

/-- The last key of a data block. -/
theorem getElem?_last (hb : (T.table.written T.tableOptions)[k]? = some b) {p : ℕ}
    (hp : Chunks.start T.chunks (k + 1) = p + 1) {a : InternalKey}
    (ha : (keysOf T.entries)[p]? = some a) : a.val = b.1.lastKey := by
  have hpos := List.length_pos_of_ne_nil b.1.ne_nil
  have hchunk := chunk_of_written hb
  rw [Chunks.start_succ hchunk] at hp
  have hholds : Chunks.Holds T.chunks p k (b.1.contents.entries.length - 1)
      b.1.contents.entries := ⟨hchunk, by omega, by omega⟩
  obtain ⟨v, hv⟩ := getElem?_keysOf.mp ha
  have hget := hholds.getElem?
  rw [← List.getLast?_eq_getElem?, List.getLast?_eq_some_getLast b.1.ne_nil] at hget
  rw [TableBlock.lastKey, ← Option.some.inj (hv.symm.trans hget)]

theorem getElem?_first (hb : (T.table.written T.tableOptions)[k]? = some b) {a : InternalKey}
    (ha : (keysOf T.entries)[Chunks.start T.chunks k]? = some a) : a.val = b.1.firstKey := by
  obtain ⟨v, hv⟩ := getElem?_keysOf.mp ha
  have hget := (holds_start hb).getElem?
  rw [← List.head?_eq_getElem?, List.head?_eq_some_head b.1.ne_nil] at hget
  rw [TableBlock.firstKey, ← Option.some.inj (hv.symm.trans hget)]

/-- The target lies behind the data blocks before this one, and before those after it. -/
structure Leads (T : OpenTable) (t : InternalKey) (k : ℕ) : Prop where
  behind : ∀ j b, k = j + 1 → (T.table.written T.tableOptions)[j]? = some b →
    icmp T.comparator b.1.lastKey t.val = .lt
  before : ∀ b, (T.table.written T.tableOptions)[k + 1]? = some b →
    icmp T.comparator t.val b.1.firstKey = .lt

/-- The search over the whole table comes down to the one in the block. -/
theorem Leads.seek_eq (h : T.Leads t k) (hb : (T.table.written T.tableOptions)[k]? = some b) :
    seek (ikeyCompare T.comparator) (keysOf T.entries) t =
      match seek (ikeyCompare T.comparator) (keysOf b.1.contents.entries) t with
      | some j => some (Chunks.start T.chunks k + j)
      | none => T.after k := by
  have hchunk : (T.chunks.map keysOf)[k]? = some (keysOf b.1.contents.entries) := by
    rw [List.getElem?_map, chunk_of_written hb]
    rfl
  have hstart : ∀ j, Chunks.start (T.chunks.map keysOf) j = Chunks.start T.chunks j :=
    Chunks.start_map Prod.fst T.chunks
  have hsorted := T.sorted_entries
  rw [keysOf_entries] at hsorted ⊢
  rw [Chunks.seek_flatten hsorted hchunk]
  · rw [hstart, hstart, ← keysOf_entries, length_keysOf]
    rfl
  · intro p a hp ha
    rw [hstart] at hp
    rw [← keysOf_entries] at ha
    cases k with
    | zero => cases hp
    | succ j =>
        obtain ⟨hlt, -⟩ := List.getElem?_eq_some_iff.mp hb
        have hb' := List.getElem?_eq_getElem
          (show j < (T.table.written T.tableOptions).length by omega)
        have hlast := getElem?_last hb' hp ha
        have hlt := h.behind j _ rfl hb'
        rw [← hlast] at hlt
        exact hlt
  · intro a ha
    rw [hstart, ← keysOf_entries] at ha
    cases hb' : (T.table.written T.tableOptions)[k + 1]? with
    | none =>
        have hle := List.getElem?_eq_none_iff.mp hb'
        rw [Chunks.start_of_length_le (by rw [length_chunks]; exact hle),
          List.getElem?_eq_none_iff.mpr (by rw [length_keysOf, entries])] at ha
        cases ha
    | some b' =>
        have hlt := h.before b' hb'
        rw [← getElem?_first hb' ha] at hlt
        intro hgt
        have hswap := Std.OrientedCmp.gt_of_lt hlt
        rw [show icmp T.comparator a.val t.val = .lt from hgt] at hswap
        cases hswap

/-- A block whose entry of the index lies below the target. -/
theorem lastKey_lt (hb : (T.table.written T.tableOptions)[k]? = some b) {e : IndexEntry}
    (he : T.indexContents.entries[k]? = some e)
    (hlt : T.indexContents.compare T.comparator e.key (T.indexContents.seekKey t.val) = .lt) :
    icmp T.comparator b.1.lastKey t.val = .lt := by
  have hle := Table.isLE_entry_key hb he
    (show (icmp T.comparator b.1.lastKey b.1.lastKey).isLE from icmp_isLE_self _ _)
  have hkeys : T.indexContents.compare T.comparator (T.indexContents.seekKey b.1.lastKey)
      (T.indexContents.seekKey t.val) = .lt := Std.TransCmp.lt_of_isLE_of_lt hle hlt
  exact icmp_lt_of_indexKey_lt (T.table.plusSeq T.shortening T.tableOptions) hkeys

theorem exists_entry (hb : (T.table.written T.tableOptions)[k]? = some b) :
    ∃ e, T.indexContents.entries[k]? = some e := by
  obtain ⟨hk, -⟩ := List.getElem?_eq_some_iff.mp hb
  exact ⟨_, List.getElem?_eq_getElem (by rwa [length_entries, ← length_written])⟩

/-- The index leads to the block of a target. -/
theorem leads_of_firstBlock (h : T.firstBlock t = some k) : T.Leads t k := by
  obtain ⟨⟨key, hkey, hnot⟩, hbefore⟩ := seek_eq_some h
  constructor
  · rintro j b rfl hb
    obtain ⟨e, he⟩ := exists_entry hb
    exact lastKey_lt hb he (hbefore j e.key (Nat.lt_succ_self j) (IndexContents.getElem?_keys he))
  · intro b hb
    obtain ⟨hlt, -⟩ := List.getElem?_eq_some_iff.mp hb
    have hb' := List.getElem?_eq_getElem
      (show k < (T.table.written T.tableOptions).length by omega)
    obtain ⟨e, he⟩ := exists_entry hb'
    have hnext := Table.entry_key_lt hb' hb he
    rw [IndexContents.getElem?_keys he] at hkey
    obtain rfl := Option.some.inj hkey
    have hle : (T.indexContents.compare T.comparator (T.indexContents.seekKey t.val) e.key).isLE := by
      have hswap : T.indexContents.compare T.comparator (T.indexContents.seekKey t.val) e.key =
          (T.indexContents.compare T.comparator e.key (T.indexContents.seekKey t.val)).swap :=
        Std.OrientedCmp.eq_swap
      rw [hswap]
      cases hcmp : T.indexContents.compare T.comparator e.key (T.indexContents.seekKey t.val) with
      | lt => exact absurd hcmp hnot
      | eq => rfl
      | gt => rfl
    have hkeys : T.indexContents.compare T.comparator (T.indexContents.seekKey t.val)
        (T.indexContents.seekKey b.1.firstKey) = .lt := Std.TransCmp.lt_of_isLE_of_lt hle hnext
    exact icmp_lt_of_indexKey_lt (T.table.plusSeq T.shortening T.tableOptions) hkeys

/-- Where the index has no entry for the target, the table has none. -/
theorem seek_of_firstBlock (h : T.firstBlock t = none) :
    seek (ikeyCompare T.comparator) (keysOf T.entries) t = none := by
  apply seek_eq_none_of_sorted T.sorted_entries
  intro p a hp ha
  obtain ⟨n, hn⟩ : ∃ n, (T.table.written T.tableOptions).length = n + 1 := by
    apply Nat.exists_eq_succ_of_ne_zero
    intro hzero
    rw [length_keysOf, entries, ← Chunks.start_of_length_le (k := 0)
      (by rw [length_chunks, hzero])] at hp
    cases hp
  have hb := List.getElem?_eq_getElem (show n < (T.table.written T.tableOptions).length by omega)
  obtain ⟨e, he⟩ := exists_entry hb
  have hstart : Chunks.start T.chunks (n + 1) = p + 1 := by
    rw [Chunks.start_of_length_le (by rw [length_chunks, hn]), ← hp, length_keysOf, entries]
  have hlt := lastKey_lt (t := t) hb he
    (seek_eq_none h e.key (List.mem_of_getElem? (IndexContents.getElem?_keys he)))
  rw [← getElem?_last hb hstart ha] at hlt
  exact hlt

theorem getElem?_keysOf_block {j : ℕ} (hb : (T.table.written T.tableOptions)[k]? = some b)
    {a : InternalKey} (ha : (keysOf b.1.contents.entries)[j]? = some a) :
    (keysOf T.entries)[Chunks.start T.chunks k + j]? = some a := by
  obtain ⟨v, hv⟩ := getElem?_keysOf.mp ha
  obtain ⟨hlt, -⟩ := List.getElem?_eq_some_iff.mp hv
  have hholds : Chunks.Holds T.chunks (Chunks.start T.chunks k + j) k j b.1.contents.entries :=
    ⟨chunk_of_written hb, hlt, rfl⟩
  exact getElem?_keysOf.mpr ⟨v, hholds.getElem?.trans hv⟩

/-- Where the data block has an entry not above the target, behind others or equal to it, the last
such entry of the table is the one of the block. -/
theorem Leads.seekForPrev_eq {j : ℕ} (h : T.Leads t k)
    (hb : (T.table.written T.tableOptions)[k]? = some b)
    (hseek : seek (ikeyCompare T.comparator) (keysOf b.1.contents.entries) t = some j)
    (hfirst : j = 0 → ∀ a ∈ (keysOf b.1.contents.entries)[0]?,
      ikeyCompare T.comparator a t ≠ .gt) :
    ∃ j', OrderedCursor.seekForPrev (ikeyCompare T.comparator) (keysOf b.1.contents.entries) t =
        some j' ∧
      OrderedCursor.seekForPrev (ikeyCompare T.comparator) (keysOf T.entries) t =
        some (Chunks.start T.chunks k + j') := by
  have hwhole := h.seek_eq hb
  rw [hseek] at hwhole
  dsimp only at hwhole
  obtain ⟨⟨a, ha, hat⟩, -⟩ := seek_eq_some hseek
  have ha' := getElem?_keysOf_block hb ha
  by_cases hgt : ikeyCompare T.comparator a t = .gt
  · cases j with
    | zero => exact absurd hgt (hfirst rfl a ha)
    | succ j =>
        exact ⟨j, seekForPrev_of_gt b.1.contents.sorted_keysOf hseek ha hgt,
          seekForPrev_of_gt T.sorted_entries hwhole ha' hgt⟩
  · have heq : ikeyCompare T.comparator a t = .eq := by
      cases hcmp : ikeyCompare T.comparator a t with
      | lt => exact absurd hcmp hat
      | eq => rfl
      | gt => exact absurd hcmp hgt
    exact ⟨j, seekForPrev_of_eq b.1.contents.sorted_keysOf ha heq,
      seekForPrev_of_eq T.sorted_entries ha' heq⟩

end OpenTable

end Tweezer
