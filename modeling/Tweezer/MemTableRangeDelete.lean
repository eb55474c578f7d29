import Tweezer.MemTableRanges

/-!
# Which keys the range deletions of a memtable delete

The list of tombstones that `Get` looks a key up in is built from the bytes outside the
enclave, which are the ciphertexts of the end keys.
-/

namespace Tweezer

open FragmentedRangeTombstoneList

/-- Calls of `Add`, with distinct pairs of key and sequence number in each table, and ranges
that end behind their start. -/
structure RangeHistory (u : Comparator) where
  calls : List (ℕ × MemTableCall)
  distinct : DistinctCalls u calls
  valid : ∀ r ∈ rangesOf calls, u.compare r.key r.value = .lt

namespace RangeHistory

variable {u : Comparator} (h : RangeHistory u)

def points : List MemTableAdd := pointsOf h.calls

def ranges : List RangeDeletionAdd := rangesOf h.calls

end RangeHistory

/-- A range deletion as it was meant. -/
def MemTableEntry.tombstone (r : RangeDeletionAdd) : RangeTombstone := ⟨r.key, r.value, r.seq.val⟩

/-- `Get` finds a deletion, or finds nothing and tells its caller of one. -/
def TellsOfDeletion (cover : ℕ) (r : MemTable.GetResult) : Prop :=
  r.found = true ∧ r.status = .notFound ∨
    r.found = false ∧ r.status ≠ .mergeInProgress ∧ 0 < cover

def TreatsAsDeleted (E : MemTableEnv) (t : MemTables) (op : AssociativeMergeOperator)
    (inplace doMerge : Bool) (q : MemTableLookup) : Prop :=
  ∃ cover r, t.maxCoveringTombstoneSeq E inplace q.key q.snapshot = .ok cover ∧
    t.get E (some op) inplace doMerge q.key q.snapshot = .ok r ∧ TellsOfDeletion cover r

/-- The newest visible point entry is a deletion, or a visible range deletion that is newer
covers the key. -/
def IsDeleted (u : Comparator) (points : List MemTableAdd) (ranges : List RangeDeletionAdd)
    (q : MemTableLookup) : Prop :=
  match versions u q points with
  | [] => ∃ r ∈ ranges, r.seq.val ≤ q.snapshot ∧ r.tombstone.Covers u q.key
  | a :: _ => a.type = .deletion ∨ a.type = .singleDeletion ∨
      ∃ r ∈ ranges, r.seq.val ≤ q.snapshot ∧ a.seq.val < r.seq.val ∧ r.tombstone.Covers u q.key

/-- The tombstone list is built, from the plaintext end keys. -/
def TombstonesBuilt (E : MemTableEnv) (t : MemTables) (inplace : Bool)
    (ranges : List RangeDeletionAdd) : Prop :=
  ∃ entries, t.rangeDelEntries = .ok entries ∧
    t.newRangeTombstoneIterator E inplace = .ok (create E.ucmp entries) ∧
    entries.Perm (ranges.map fun r => (r.internalKey, r.value))

/-- The calls go through, and then the range deletions delete what they should, for every key
and snapshot. -/
def RangesDelete (E : MemTableEnv) (history : RangeHistory E.ucmp) (memory : Memory)
    (shardCount : ℕ) (op : AssociativeMergeOperator) (inplace : Bool) : Prop :=
  ∃ t, (MemTables.empty memory shardCount).addAll E history.calls = .ok t ∧
    TombstonesBuilt E t inplace history.ranges ∧
    ∀ doMerge q, TreatsAsDeleted E t op inplace doMerge q ↔
      IsDeleted E.ucmp history.points history.ranges q

section Tombstones

variable {E : MemTableEnv} {t : MemTables} {points : List MemTableAdd}
  {ranges : List RangeDeletionAdd} {pcells : List (MemTableAdd × ℕ)}
  {rcells : List (RangeDeletionAdd × ℕ)} {regions : List (ℕ × ℕ)} {inplace : Bool}

/-- The iterator over the range deletions gives their keys and what lies outside. -/
theorem rangeDelEntries_read (h : t.Keeps E points ranges pcells rcells regions) :
    t.rangeDelEntries = .ok (rcells.map fun c =>
      (c.1.internalKey, t.points.memory.read c.2 c.1.value.length)) := by
  have hptr := h.rangeTable.ptr_lt
  have hvalue := h.rangeTable.value_le
  rw [MemTables.rangeDelEntries, h.rangeTable.table_eq]
  generalize rcells = cells at hptr hvalue ⊢
  induction cells with
  | nil => rfl
  | cons c cells ih =>
      rw [List.map_cons, List.mapM_cons,
        iteratorEntry_recordOf (hptr c List.mem_cons_self) (hvalue c List.mem_cons_self),
        ih (fun d hd => hptr d (List.mem_cons_of_mem _ hd))
          (fun d hd => hvalue d (List.mem_cons_of_mem _ hd))]
      rfl

theorem rangeDelEntries_eq (h : t.Keeps E points ranges pcells rcells regions)
    (hstored : Stored E t.points.memory rcells) :
    t.rangeDelEntries = .ok (rcells.map fun c =>
      (c.1.internalKey, E.cipher.enc E.memtableKey c.1.value)) := by
  rw [rangeDelEntries_read h]
  congr 1
  apply List.map_congr_left
  intro c hc
  rw [hstored c hc]

/-- An entry of the iterator is read as the range deletion that it is, if its end key is right. -/
theorem tombstone_of_entry (r : RangeDeletionAdd) {end_ : Bytes} (hend : end_ = r.value) :
    (⟨extractUserKey r.internalKey, end_, extractInternalKeyFooter r.internalKey / 256⟩ :
      RangeTombstone) = r.tombstone := by
  have hcode := r.type.code_lt
  have hseq : extractInternalKeyFooter r.internalKey / 256 = r.seq.val := by
    rw [footer_internalKey]
    omega
  rw [hseq, extractUserKey_internalKey, hend]
  rfl

theorem newRangeTombstoneIterator_eq (h : t.Keeps E points ranges pcells rcells regions)
    (hstored : Stored E t.points.memory rcells) (inplace : Bool) :
    t.newRangeTombstoneIterator E inplace =
      if inplace = false ∧ 1 < ranges.length then .error .outOfBuffer
      else .ok (create E.ucmp (rcells.map fun c =>
        (c.1.internalKey, E.cipher.enc E.memtableKey c.1.value))) := by
  rw [MemTables.newRangeTombstoneIterator, rangeDelEntries_eq h hstored, Outcome.ok_bind,
    List.length_map, h.rangeTable.length_cells]

/-- The list is built from the plaintext exactly if the end keys are their own ciphertexts, and
there is one at most where values are not updated in place. -/
theorem tombstonesBuilt_iff (h : t.Keeps E points ranges pcells rcells regions)
    (hstored : Stored E t.points.memory rcells) :
    TombstonesBuilt E t inplace ranges ↔
      (inplace = true ∨ ranges.length ≤ 1) ∧
        ∀ r ∈ ranges, E.cipher.enc E.memtableKey r.value = r.value := by
  have hbuilt := newRangeTombstoneIterator_eq h hstored inplace
  have hcond : (inplace = true ∨ ranges.length ≤ 1) ↔ ¬(inplace = false ∧ 1 < ranges.length) := by
    cases inplace <;> simp
  constructor
  · rintro ⟨entries, hentries, hlist, hperm⟩
    rw [rangeDelEntries_eq h hstored] at hentries
    obtain rfl := Except.ok.inj hentries
    refine ⟨?_, fun r hr => ?_⟩
    · rw [hcond]
      intro hbad
      rw [hbuilt, if_pos hbad] at hlist
      cases hlist
    · obtain ⟨c, hc, rfl⟩ := List.mem_map.mp (h.rangeTable.perm.mem_iff.mpr hr)
      have hmem : (c.1.internalKey, E.cipher.enc E.memtableKey c.1.value) ∈
          ranges.map fun r => (r.internalKey, r.value) :=
        hperm.mem_iff.mp (List.mem_map.mpr ⟨c, hc, rfl⟩)
      obtain ⟨r, hr', hpair⟩ := List.mem_map.mp hmem
      obtain ⟨d, hd, rfl⟩ := List.mem_map.mp (h.rangeTable.perm.mem_iff.mpr hr')
      have hikey : d.1.internalKey = c.1.internalKey := congrArg Prod.fst hpair
      have hsame : c = d := by
        apply h.rangeTable.eq_of_compareCells hc hd
        rw [compareCells, ← compareKeySeq_internalKey, hikey, compareKeySeq_internalKey]
        exact Std.ReflCmp.compare_self
      subst hsame
      exact (congrArg Prod.snd hpair).symm
  · rintro ⟨hpinned, hends⟩
    refine ⟨_, rangeDelEntries_eq h hstored, ?_, ?_⟩
    · rw [hbuilt, if_neg (hcond.mp hpinned)]
    · have hplain : (rcells.map fun c => (c.1.internalKey, E.cipher.enc E.memtableKey c.1.value)) =
          (rcells.map Prod.fst).map fun r => (r.internalKey, r.value) := by
        rw [List.map_map]
        refine List.map_congr_left fun c hc => ?_
        have hr := h.rangeTable.perm.mem_iff.mp (List.mem_map_of_mem hc)
        rw [Function.comp_apply, hends c.1 hr]
      rw [hplain]
      exact h.rangeTable.perm.map _

/-- With the plaintext end keys, the lookup finds the newest visible range deletion over the
key. -/
theorem maxCoveringTombstoneSeq_eq (h : t.Keeps E points ranges pcells rcells regions)
    (hstored : Stored E t.points.memory rcells)
    (hvalid : ∀ r ∈ ranges, E.ucmp.compare r.key r.value = .lt)
    (hpinned : inplace = true ∨ ranges.length ≤ 1)
    (hends : ∀ r ∈ ranges, E.cipher.enc E.memtableKey r.value = r.value)
    (key : Bytes) (snapshot : ℕ) :
    t.maxCoveringTombstoneSeq E inplace key snapshot =
      .ok (maxCovering E.ucmp (ranges.map MemTableEntry.tombstone) snapshot key) := by
  rw [MemTables.maxCoveringTombstoneSeq]
  by_cases hnil : ranges = []
  · rw [if_pos (h.rangesEmpty_iff.mpr hnil), hnil]
    rfl
  have hnot : ¬(inplace = false ∧ 1 < ranges.length) := by
    rintro ⟨hfalse, hlt⟩
    rcases hpinned with htrue | hle
    · exact absurd (htrue.symm.trans hfalse) (by decide)
    · exact absurd hlt (not_lt.mpr hle)
  have hmem : ∀ c ∈ rcells, c.1 ∈ ranges := fun c hc =>
    h.rangeTable.perm.mem_iff.mp (List.mem_map_of_mem hc)
  rw [if_neg (fun hempty => hnil (h.rangesEmpty_iff.mp hempty)),
    newRangeTombstoneIterator_eq h hstored, if_neg hnot, Outcome.ok_bind,
    maxCoveringTombstoneSeqnum_create]
  · congr 1
    rw [tombstonesOf, List.map_map, ← maxCovering_perm (h.rangeTable.perm.map _), List.map_map]
    congr 1
    apply List.map_congr_left
    intro c hc
    exact tombstone_of_entry c.1 (hends c.1 (hmem c hc))
  · intro e he
    obtain ⟨c, hc, rfl⟩ := List.mem_map.mp he
    dsimp only
    rw [extractUserKey_internalKey, hends c.1 (hmem c hc)]
    exact hvalid c.1 (hmem c hc)

end Tombstones

/-- An operand waits for its base, and no deletion has been found. -/
def Saver.Merging (s : Saver) : Prop := s.mergeInProgress = true ∧ s.status ≠ .notFound

namespace Saver

variable {E : MemTableEnv} {memory : Memory} {s s' : Saver} {more : Bool}

theorem Merging.fullMerge {base : Option Bytes} (h : s.Merging)
    (heq : s.fullMerge base = .ok s') : s'.Merging := by
  unfold Saver.fullMerge at heq
  obtain ⟨operands, -, heq⟩ := Outcome.bind_eq_ok.mp heq
  cases hop : s.mergeOperator with
  | none =>
      rw [hop] at heq
      cases heq
  | some op =>
      rw [hop] at heq
      dsimp only at heq
      cases hmerge : op.fullMergeV2 s.userKey base operands with
      | none =>
          rw [hmerge] at heq
          cases heq
          exact ⟨h.1, fun hstatus => nomatch hstatus⟩
      | some result =>
          rw [hmerge] at heq
          cases heq
          exact ⟨h.1, fun hstatus => nomatch hstatus⟩

theorem Merging.baseValue {v : Bytes} (h : s.Merging) (heq : s.baseValue E memory v = .ok s') :
    s'.Merging := by
  unfold Saver.baseValue at heq
  rw [if_pos h.1] at heq
  cases hmerge : s.doMerge with
  | false =>
      rw [if_neg (by rw [hmerge]; exact Bool.false_ne_true)] at heq
      cases heq
      exact h
  | true =>
      rw [if_pos hmerge] at heq
      by_cases hvalue : s.value.isSome = true
      · rw [if_pos hvalue] at heq
        exact h.fullMerge heq
      · rw [if_neg hvalue] at heq
        cases heq
        exact h

theorem Merging.saveBase {v : Bytes} (h : s.Merging)
    (heq : s.saveBase E memory v = .ok (s', more)) : s'.Merging := by
  unfold Saver.saveBase at heq
  obtain ⟨s₁, hbase, heq⟩ := Outcome.bind_eq_ok.mp heq
  have hok : Merging { s with status := .ok } := ⟨h.1, fun hstatus => nomatch hstatus⟩
  have h₁ := hok.baseValue hbase
  cases heq
  exact h₁

theorem Merging.saveDeletion (h : s.Merging) (heq : s.saveDeletion = .ok (s', more)) :
    s'.Merging := by
  unfold Saver.saveDeletion Saver.deletionValue at heq
  obtain ⟨s₁, hvalue, heq⟩ := Outcome.bind_eq_ok.mp heq
  have h₁ : s₁.Merging := by
    rw [if_pos h.1] at hvalue
    by_cases hsome : s.value.isSome = true
    · rw [if_pos hsome] at hvalue
      exact h.fullMerge hvalue
    · rw [if_neg hsome] at hvalue
      cases hvalue
      exact h
  cases heq
  exact h₁

/-- Every merge operand begins or continues a merge. -/
theorem merging_saveMerge {op : AssociativeMergeOperator} {v : Bytes}
    (hop : s.mergeOperator = some op) (hstatus : s.status ≠ .notFound)
    (heq : s.saveMerge E memory v = .ok (s', more)) : s'.Merging := by
  unfold Saver.saveMerge at heq
  rw [hop] at heq
  obtain ⟨⟨data, tags⟩, -, heq⟩ := Outcome.bind_eq_ok.mp heq
  simp only [AssociativeMergeOperator.shouldMerge, Bool.and_false, Bool.false_eq_true,
    if_false] at heq
  cases heq
  exact ⟨rfl, hstatus⟩

theorem Merging.saveMerge {v : Bytes} (h : s.Merging)
    (heq : s.saveMerge E memory v = .ok (s', more)) : s'.Merging := by
  cases hop : s.mergeOperator with
  | some op => exact merging_saveMerge hop h.2 heq
  | none =>
      unfold Saver.saveMerge at heq
      rw [hop] at heq
      cases heq
      exact ⟨h.1, fun hstatus => nomatch hstatus⟩

/-- Whatever the record is, the callback goes on merging. -/
theorem Merging.saveValue {entry : Bytes} (h : s.Merging)
    (heq : MemTable.saveValue E memory s entry = .ok (s', more)) : s'.Merging := by
  unfold MemTable.saveValue at heq
  obtain ⟨⟨ikey, rest⟩, -, heq⟩ := Outcome.bind_eq_ok.mp heq
  dsimp only at heq
  by_cases hlen : ikey.length < kNumInternalBytes
  · rw [if_pos hlen] at heq
    cases heq
  rw [if_neg hlen] at heq
  by_cases hkey : E.ucmp.compare (extractUserKey ikey) s.userKey = .eq
  swap
  · rw [if_neg hkey] at heq
    cases heq
    exact h
  rw [if_pos hkey] at heq
  obtain ⟨seq, hseq⟩ : ∃ seq, seq = extractInternalKeyFooter ikey / 256 := ⟨_, rfl⟩
  have h₁ : Merging { s with seq := seq } := h
  rw [← hseq] at heq
  cases htype : ValueType.ofCode? (extractValueType ikey) with
  | none =>
      rw [htype] at heq
      cases heq
      exact ⟨h₁.1, fun hstatus => nomatch hstatus⟩
  | some type =>
      rw [htype] at heq
      by_cases hcover : s.maxCoveringTombstoneSeq > seq
      · cases type <;> simp only [hcover, if_true] at heq <;> exact h₁.saveDeletion heq
      · cases type with
        | value =>
            simp only [hcover, if_false] at heq
            obtain ⟨v, -, heq⟩ := Outcome.bind_eq_ok.mp heq
            exact h₁.saveBase heq
        | merge =>
            simp only [hcover, if_false] at heq
            obtain ⟨v, -, heq⟩ := Outcome.bind_eq_ok.mp heq
            exact h₁.saveMerge heq
        | blobIndex =>
            simp only [hcover, if_false] at heq
            cases heq
            exact ⟨h₁.1, fun hstatus => nomatch hstatus⟩
        | deletion => exact h₁.saveDeletion heq
        | singleDeletion => exact h₁.saveDeletion heq
        | rangeDeletion => exact h₁.saveDeletion heq
        | deletionWithTimestamp => exact h₁.saveDeletion heq

theorem Merging.getLoop {entries : List Bytes} (h : s.Merging)
    (heq : MemTable.getLoop E memory s entries = .ok s') : s'.Merging := by
  induction entries generalizing s with
  | nil =>
      cases heq
      exact h
  | cons entry entries ih =>
      unfold MemTable.getLoop at heq
      obtain ⟨⟨s₁, more⟩, hsave, heq⟩ := Outcome.bind_eq_ok.mp heq
      have h₁ := h.saveValue hsave
      cases more with
      | true => exact ih h₁ heq
      | false =>
          cases heq
          exact h₁

end Saver

theorem getResult_found_status {s : Saver} {r : MemTable.GetResult}
    (h : MemTable.getResult s = .ok r) :
    r.found = s.foundFinalValue ∧
      r.status = if !s.foundFinalValue && s.mergeInProgress then .mergeInProgress else s.status := by
  unfold MemTable.getResult at h
  obtain ⟨operands, -, h⟩ := Outcome.bind_eq_ok.mp h
  cases h
  exact ⟨rfl, rfl⟩

theorem Saver.Merging.not_tellsOfDeletion {s : Saver} {r : MemTable.GetResult} (h : s.Merging)
    (hr : MemTable.getResult s = .ok r) (cover : ℕ) : ¬ TellsOfDeletion cover r := by
  obtain ⟨hfound, hstatus⟩ := getResult_found_status hr
  unfold TellsOfDeletion
  rw [hfound, hstatus, h.1]
  cases s.foundFinalValue with
  | true => simpa using h.2
  | false => simp

section Deleted

variable {E : MemTableEnv} {memory : Memory} {op : AssociativeMergeOperator}
  {inplace doMerge : Bool} {key : Bytes} {cover : ℕ}

/-- A base value is found with an OK status. -/
theorem status_baseValue {seq : ℕ} {v : Bytes} {s : Saver}
    (h : (collected op inplace doMerge key cover [] seq).baseValue E memory v = .ok s) :
    s.status = .ok := by
  cases doMerge with
  | false =>
      cases h
      rfl
  | true =>
      obtain ⟨⟨data, tags⟩, -, h⟩ := Outcome.bind_eq_ok.mp h
      cases h
      rfl

/-- The first record is a deletion under `cover`, or a range deletion covers what has none. -/
def FirstDeleted (cover : ℕ) : List (MemTableAdd × ℕ) → Prop
  | [] => 0 < cover
  | c :: _ => (c.1.under cover).type = .deletion ∨ (c.1.under cover).type = .singleDeletion

/-- What the loop of `Get` tells depends on the newest visible version alone. -/
theorem getLoop_tells_iff (visible rest : List (MemTableAdd × ℕ))
    (hkey : ∀ c ∈ visible, E.ucmp.compare c.1.key key = .eq)
    (hrest : ∀ c ∈ rest.head?, E.ucmp.compare c.1.key key ≠ .eq) :
    (∃ r, (MemTable.getLoop E memory
        (collected op inplace doMerge key cover [] kMaxSequenceNumber)
        ((visible ++ rest).map fun c => recordOf E c.1 c.2) >>= MemTable.getResult) = .ok r ∧
          TellsOfDeletion cover r) ↔ FirstDeleted cover visible := by
  cases visible with
  | nil =>
      rw [List.nil_append, getLoop_other rest hrest, Outcome.ok_bind, getResult_collected,
        if_pos (Or.inr rfl), FirstDeleted]
      constructor
      · rintro ⟨r, hr, htells⟩
        cases hr
        rcases htells with ⟨hfound, -⟩ | ⟨-, -, hcover⟩
        · cases hfound
        · exact hcover
      · intro hcover
        exact ⟨_, rfl, Or.inr ⟨rfl, (by rintro ⟨⟩), hcover⟩⟩
  | cons c visible =>
      have hk := hkey c List.mem_cons_self
      rw [List.cons_append, List.map_cons, FirstDeleted]
      have hdeleted : (c.1.under cover).type = .deletion ∨ (c.1.under cover).type = .singleDeletion →
          ∃ r, (MemTable.getLoop E memory
            (collected op inplace doMerge key cover [] kMaxSequenceNumber)
            (recordOf E c.1 c.2 :: (visible ++ rest).map fun c => recordOf E c.1 c.2) >>=
              MemTable.getResult) = .ok r ∧ TellsOfDeletion cover r := by
        intro ht
        rw [getLoop_stop (saveValue_deletion hk ht)]
        exact ⟨_, rfl, Or.inl ⟨rfl, rfl⟩⟩
      refine ⟨?_, hdeleted⟩
      rintro ⟨r, hr, htells⟩
      rcases type_cases (c.1.under cover) with ht | ht | ht | ht
      · rw [getLoop_stop (saveValue_value hk ht)] at hr
        obtain ⟨s, hs, hr⟩ := Outcome.bind_eq_ok.mp hr
        obtain ⟨hfound, hstatus⟩ := getResult_found_status hr
        have hbase := status_baseValue hs
        have hok : r.status = .ok := hstatus.trans hbase
        rcases htells with ⟨-, hnot⟩ | ⟨hnot, -⟩
        · exact absurd (hok.symm.trans hnot) (by decide)
        · cases hfound.symm.trans hnot
      · rw [MemTable.getLoop, saveValue_merge hk ht] at hr
        obtain ⟨s, hs, hr⟩ := Outcome.bind_eq_ok.mp hr
        obtain ⟨⟨s₁, more⟩, hsave, hs⟩ := Outcome.bind_eq_ok.mp hs
        have h₁ : s₁.Merging := Saver.merging_saveMerge rfl
          (by rintro ⟨⟩) hsave
        have hmerging : s.Merging := by
          cases more with
          | true => exact h₁.getLoop hs
          | false =>
              cases hs
              exact h₁
        exact absurd htells (hmerging.not_tellsOfDeletion hr cover)
      · exact Or.inl ht
      · exact Or.inr ht

theorem exists_tombstone_iff (u : Comparator) (ranges : List RangeDeletionAdd) (snapshot : ℕ)
    (key : Bytes) (n : ℕ) :
    n < maxCovering u (ranges.map MemTableEntry.tombstone) snapshot key ↔
      ∃ r ∈ ranges, r.seq.val ≤ snapshot ∧ n < r.seq.val ∧ r.tombstone.Covers u key := by
  rw [lt_maxCovering_iff]
  constructor
  · rintro ⟨s, hs, hcovers, hle, hlt⟩
    obtain ⟨r, hr, rfl⟩ := List.mem_map.mp hs
    exact ⟨r, hr, hle, hlt, hcovers⟩
  · rintro ⟨r, hr, hle, hlt, hcovers⟩
    exact ⟨r.tombstone, List.mem_map_of_mem hr, hcovers, hle, hlt⟩

/-- An entry is a deletion under `cover` if it is one, or is older. -/
theorem under_type_deletion_iff (a : MemTableAdd) :
    (a.under cover).type = .deletion ∨ (a.under cover).type = .singleDeletion ↔
      a.type = .deletion ∨ a.type = .singleDeletion ∨ a.seq.val < cover := by
  unfold MemTableEntry.under
  by_cases hlt : a.seq.val < cover
  · simp [hlt]
  · simp [hlt]

end Deleted

/-- With the right covering sequence number, `Get` treats as deleted what is. -/
theorem MemTables.Keeps.treatsAsDeleted_iff {E : MemTableEnv} {t : MemTables}
    {points : List MemTableAdd} {ranges : List RangeDeletionAdd} {pcells : List (MemTableAdd × ℕ)}
    {rcells : List (RangeDeletionAdd × ℕ)} {regions : List (ℕ × ℕ)} {inplace : Bool}
    (h : t.Keeps E points ranges pcells rcells regions) (op : AssociativeMergeOperator)
    (doMerge : Bool) {q : MemTableLookup}
    (hcover : t.maxCoveringTombstoneSeq E inplace q.key q.snapshot =
      .ok (maxCovering E.ucmp (ranges.map MemTableEntry.tombstone) q.snapshot q.key)) :
    TreatsAsDeleted E t op inplace doMerge q ↔ IsDeleted E.ucmp points ranges q := by
  obtain ⟨cover, hmax⟩ : ∃ cover, cover =
    maxCovering E.ucmp (ranges.map MemTableEntry.tombstone) q.snapshot q.key := ⟨_, rfl⟩
  have hlt := exists_tombstone_iff E.ucmp ranges q.snapshot q.key
  rw [← hmax] at hcover hlt
  have htells : TreatsAsDeleted E t op inplace doMerge q ↔
      ∃ r, t.get E (some op) inplace doMerge q.key q.snapshot = .ok r ∧
        TellsOfDeletion cover r := by
    unfold TreatsAsDeleted
    constructor
    · rintro ⟨cover', r, hcover', hr, htells⟩
      cases hcover.symm.trans hcover'
      exact ⟨r, hr, htells⟩
    · rintro ⟨r, hr, htells⟩
      exact ⟨cover, r, hcover, hr, htells⟩
  have hversions := map_filter_eq_versions (u := E.ucmp) (q := q) Prod.fst h.pointTable.perm
    h.pointTable.sorted
  have hdeleted : IsDeleted E.ucmp points ranges q ↔
      FirstDeleted cover (pcells.filter fun c => Visible E.ucmp q c.1) := by
    rw [IsDeleted, ← hversions]
    cases pcells.filter fun c => Visible E.ucmp q c.1 with
    | nil =>
        rw [FirstDeleted, hlt 0]
        apply exists_congr
        intro r
        simp only [r.seq.property.1, true_and]
    | cons c visible =>
        rw [FirstDeleted, under_type_deletion_iff, hlt, List.map_cons]
  rw [htells, hdeleted]
  by_cases hempty : points = [] ∧ ranges = []
  · have hfirst : t.points.isEmpty = true := decide_eq_true (h.isEmpty_iff.mpr hempty)
    have hcells : pcells = [] := List.map_eq_nil_iff.mp (hempty.1 ▸ h.pointTable.perm).eq_nil
    have hzero : cover = 0 := by rw [hmax, hempty.2]; rfl
    simp only [MemTables.get, hfirst, if_true, hcells, List.filter_nil, hzero, FirstDeleted]
    constructor
    · rintro ⟨r, hr, htells⟩
      cases hr
      rcases htells with ⟨hfound, -⟩ | ⟨-, -, hpos⟩
      · cases hfound
      · exact hpos
    · intro hpos
      exact absurd hpos (lt_irrefl 0)
  · have hfirst : ¬ t.points.isEmpty = true := by
      rw [MemTable.isEmpty, decide_eq_true_iff, h.isEmpty_iff]
      exact hempty
    obtain ⟨rest, hrest, hseek⟩ := seekRecords_eq h.pointTable q
    have hget : t.get E (some op) inplace doMerge q.key q.snapshot =
        MemTable.getLoop E t.points.memory
          (collected op inplace doMerge q.key cover [] kMaxSequenceNumber)
          (((pcells.filter fun c => Visible E.ucmp q c.1) ++ rest).map fun c =>
            recordOf E c.1 c.2) >>= MemTable.getResult := by
      rw [MemTables.get, if_neg hfirst, hcover, Outcome.ok_bind, hseek]
      rfl
    rw [hget]
    apply getLoop_tells_iff
    · intro c hc
      exact (visible_iff.mp (List.mem_filter.mp hc).2).1
    · exact hrest

/-- The range deletions delete exactly their ranges exactly if every call fits, at most one of
them is added where values are not updated in place, and the encryption of each end key is the
end key. -/
theorem rangesDelete_iff (E : MemTableEnv) (history : RangeHistory E.ucmp) (memory : Memory)
    (shardCount : ℕ) (op : AssociativeMergeOperator) (inplace : Bool)
    (hhost : history.calls.length ≤ E.host.blocks) :
    RangesDelete E history memory shardCount op inplace ↔
      (∀ c ∈ history.calls, c.2.Fits) ∧ (inplace = true ∨ history.ranges.length ≤ 1) ∧
        ∀ r ∈ history.ranges, E.cipher.enc E.memtableKey r.value = r.value := by
  have hempty : (MemTables.empty memory shardCount).Keeps E (pointsOf []) (rangesOf []) [] [] [] :=
    MemTables.keeps_empty E memory shardCount
  obtain ⟨hsome, honly⟩ := hempty.addAll (fun c hc => nomatch hc) (fun c hc => nomatch hc)
    history.calls hhost history.distinct
  constructor
  · rintro ⟨t, ht, hbuilt, -⟩
    have hfits := honly t ht
    obtain ⟨t', pcells, rcells, regions, ht', h, -, hstored⟩ := hsome hfits
    cases ht.symm.trans ht'
    exact ⟨hfits, (tombstonesBuilt_iff h hstored).mp hbuilt⟩
  · rintro ⟨hfits, hpinned, hends⟩
    obtain ⟨t, pcells, rcells, regions, ht, h, -, hstored⟩ := hsome hfits
    refine ⟨t, ht, (tombstonesBuilt_iff h hstored).mpr ⟨hpinned, hends⟩, fun doMerge q => ?_⟩
    exact h.treatsAsDeleted_iff op doMerge
      (maxCoveringTombstoneSeq_eq h hstored history.valid hpinned hends q.key q.snapshot)

theorem rangeDeletion_mem : ValueType.rangeDeletion ∈ [ValueType.rangeDeletion] := by decide

/-- A range deletion whose end key of one byte is its own ciphertext. -/
def oneRange : RangeHistory sampleEnv.ucmp where
  calls := [(0, .inr ⟨⟨1, one_sequence⟩, .rangeDeletion, [97], [99], rangeDeletion_mem, length_a⟩)]
  distinct := ⟨.nil, List.pairwise_singleton _ _⟩
  valid := by decide

theorem rangesDelete_iff_oneRange :
    RangesDelete sampleEnv oneRange (fun _ => 0) 1 appendOperator false := by
  apply (rangesDelete_iff sampleEnv oneRange (fun _ => 0) 1 appendOperator false (by decide)).mpr
  refine ⟨?_, Or.inr (by decide), by decide⟩
  intro c hc
  obtain rfl := List.mem_singleton.mp hc
  exact ⟨by decide, by decide⟩

/-- A put, and a range deletion over its key with an end key of two bytes. -/
def putThenRange : RangeHistory sampleEnv.ucmp where
  calls := [(0, .inl ⟨⟨1, one_sequence⟩, .value, [99, 1], [118], value_mem_pointTypes, by decide⟩),
    (0, .inr ⟨⟨2, two_sequence⟩, .rangeDeletion, [97], [99, 2], rangeDeletion_mem, length_a⟩)]
  distinct := ⟨List.pairwise_singleton _ _, List.pairwise_singleton _ _⟩
  valid := by decide

/-- The ciphertext of the end key sorts before the key, and `Get` returns the value. -/
theorem putThenRange_not_rangesDelete :
    ¬ RangesDelete sampleEnv putThenRange (fun _ => 0) 1 appendOperator false := by
  rintro ⟨t, ht, -, hdeletes⟩
  obtain ⟨q, hq⟩ : ∃ q : MemTableLookup, q = ⟨[99, 1], 2, by decide, by decide⟩ := ⟨_, rfl⟩
  have hfound : ((MemTables.empty (fun _ => 0) 1).addAll sampleEnv putThenRange.calls >>= fun t =>
      t.get sampleEnv (some appendOperator) false true [99, 1] 2) =
      .ok ⟨true, .ok, some [118], 1, []⟩ := by
    decide
  have hdeleted : IsDeleted sampleEnv.ucmp putThenRange.points putThenRange.ranges q := by
    subst hq
    refine Or.inr (Or.inr ⟨_, List.mem_singleton.mpr rfl, ?_⟩)
    decide
  obtain ⟨cover, r, -, hr, htells⟩ := (hdeletes true q).mpr hdeleted
  rw [ht, Outcome.ok_bind] at hfound
  subst hq
  cases hr.symm.trans hfound
  rcases htells with ⟨-, hstatus⟩ | ⟨hnot, -⟩
  · cases hstatus
  · cases hnot

end Tweezer
