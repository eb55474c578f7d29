import Mathlib.Data.List.Sort
import Tweezer.RangeTombstone

/-!
# Fragments that share their sequence numbers

`FragmentedRangeTombstoneList` as it lies in memory: the fragments name stretches of one
sequence of numbers, and for a compaction only those are stored that some snapshot still sees.
The stretches of the list are the stacks of `fragmentTombstones`, so that the sweep is argued
about there.
-/

namespace Tweezer

/-- A fragment, its sequence numbers being those between two indices. -/
structure TombstoneSpan where
  startKey : Bytes
  endKey : Bytes
  seqStartIdx : ℕ
  seqEndIdx : ℕ
  deriving DecidableEq, Repr

structure FragmentedRangeTombstoneList where
  tombstones : List TombstoneSpan
  tombstoneSeqs : List ℕ
  deriving DecidableEq, Repr

namespace FragmentedRangeTombstoneList

/-- The sequence numbers that a snapshot keeps, from the newest on. Below one that is kept the
next is the newest that the snapshot before it sees. -/
def preservedBy (snapshots : List ℕ) : ℕ → List ℕ → List ℕ
  | _, [] => []
  | nextSnapshot, seq :: seqs =>
      if seq ≤ nextSnapshot then
        match (snapshots.takeWhile fun s => s < seq).getLast? with
        | none => [seq]  -- the topmost one that the earliest snapshot sees
        | some s => seq :: preservedBy snapshots s seqs
      else preservedBy snapshots nextSnapshot seqs

def storedSeqnums (forCompaction : Bool) (snapshots seqnumsToFlush : List ℕ) : List ℕ :=
  if forCompaction then preservedBy snapshots kMaxSequenceNumber seqnumsToFlush
  else seqnumsToFlush

section Build

variable (u : Comparator) (forCompaction : Bool) (snapshots : List ℕ)

/-- The end of the loop body of `flush_current_tombstones`, which stores one fragment. -/
def flushTombstone (l : FragmentedRangeTombstoneList) (startKey endKey : Bytes)
    (ends : List (Bytes × ℕ)) : FragmentedRangeTombstoneList :=
  let seqs := storedSeqnums forCompaction snapshots (seqnumsToFlush ends)
  let startIdx := l.tombstoneSeqs.length
  ⟨l.tombstones ++ [⟨startKey, endKey, startIdx, startIdx + seqs.length⟩], l.tombstoneSeqs ++ seqs⟩

/-- `flush_current_tombstones`, with the end keys that stay in the working set. -/
def flushCurrent (nextStartKey : Bytes) : FragmentedRangeTombstoneList → Bytes →
    List (Bytes × ℕ) → FragmentedRangeTombstoneList × List (Bytes × ℕ)
  | l, _, [] => (l, [])
  | l, curStartKey, e :: ends =>
      if u.compare curStartKey e.1 = .eq then flushCurrent nextStartKey l curStartKey ends
      else if u.compare nextStartKey e.1 ≠ .gt then
        (flushTombstone forCompaction snapshots l curStartKey nextStartKey (e :: ends), e :: ends)
      else
        flushCurrent nextStartKey
          (flushTombstone forCompaction snapshots l curStartKey e.1 (e :: ends)) e.1 ends

/-- The locals of `FragmentTombstones` and the list that it fills. -/
structure Sweep where
  curStartKey : Bytes
  curEndKeys : List (Bytes × ℕ)
  list : FragmentedRangeTombstoneList

def sweepTombstone (st : Sweep) (t : RangeTombstone) : Sweep :=
  if st.curEndKeys ≠ [] ∧ u.compare st.curStartKey t.startKey ≠ .eq then
    let (list, left) := flushCurrent u forCompaction snapshots t.startKey st.list st.curStartKey
      st.curEndKeys
    ⟨t.startKey, emplace u left (t.endKey, t.seq), list⟩
  else ⟨t.startKey, emplace u st.curEndKeys (t.endKey, t.seq), st.list⟩

/-- `FragmentTombstones`. -/
def fragment (ts : List RangeTombstone) : FragmentedRangeTombstoneList :=
  let st := ts.foldl (sweepTombstone u forCompaction snapshots) ⟨[], [], ⟨[], []⟩⟩
  match st.curEndKeys.getLast? with
  | none => st.list
  | some last =>
      (flushCurrent u forCompaction snapshots last.1 st.list st.curStartKey st.curEndKeys).1

/-- The constructor. -/
def build (entries : List (Bytes × Bytes)) : FragmentedRangeTombstoneList :=
  let inOrder : Bytes × Bytes → Bytes × Bytes → Bool := fun a b => icmp u a.1 b.1 ≠ .gt
  fragment u forCompaction snapshots (tombstonesOf
    (if entries.IsChain (fun a b => inOrder a b = true) then entries
      else entries.mergeSort inOrder))

end Build

/-- What `seq_iter` gives between the two indices of a fragment. -/
def seqsOf (l : FragmentedRangeTombstoneList) (st : TombstoneSpan) : List ℕ :=
  (l.tombstoneSeqs.drop st.seqStartIdx).take (st.seqEndIdx - st.seqStartIdx)

/-- `SeekToCoveringTombstone`: the first fragment that ends behind the target, and where in the
sequence numbers the first one within the upper bound is. -/
def seekToCoveringTombstone (u : Comparator) (l : FragmentedRangeTombstoneList) (upperBound : ℕ)
    (target : Bytes) : Option (TombstoneSpan × ℕ) :=
  (l.tombstones.find? fun st => u.compare target st.endKey = .lt).map fun st =>
    (st, st.seqStartIdx + (l.seqsOf st).findIdx fun seq => seq ≤ upperBound)

/-- `MaxCoveringTombstoneSeqnum` of an iterator over the list. -/
def maxCoveringSeqnum (u : Comparator) (l : FragmentedRangeTombstoneList) (upperBound : ℕ)
    (targetUserKey : Bytes) : ℕ :=
  match seekToCoveringTombstone u l upperBound targetUserKey with
  | none => 0
  | some (st, seqPos) =>
      if seqPos ≠ st.seqEndIdx ∧ u.compare st.startKey targetUserKey ≠ .gt then
        l.tombstoneSeqs.getD seqPos 0
      else 0

section Snapshots

variable {snapshots : List ℕ} {upper seq : ℕ}

/-- A snapshot below a number is not above the last one below it. -/
theorem exists_last_below (hsorted : snapshots.Pairwise (· ≤ ·)) (hmem : upper ∈ snapshots)
    (hlt : upper < seq) :
    ∃ s, (snapshots.takeWhile fun s => s < seq).getLast? = some s ∧ upper ≤ s := by
  induction snapshots with
  | nil => cases hmem
  | cons a snapshots ih =>
      obtain ⟨ha, hsorted'⟩ := List.pairwise_cons.mp hsorted
      have hseq : a < seq := by
        rcases List.mem_cons.mp hmem with rfl | hmem
        · exact hlt
        · exact (ha upper hmem).trans_lt hlt
      rw [List.takeWhile_cons_of_pos (by simpa using hseq), List.getLast?_cons]
      refine ⟨_, rfl, ?_⟩
      rcases List.mem_cons.mp hmem with rfl | hmem
      · cases hlast : (snapshots.takeWhile fun s => s < seq).getLast? with
        | none => exact le_refl _
        | some s =>
            exact ha s ((List.takeWhile_sublist _).subset (List.mem_of_getLast? hlast))
      · obtain ⟨s, hs, hle⟩ := ih hsorted' hmem
        rw [hs]
        exact hle

/-- What is preserved answers a snapshot as all the sequence numbers would, by induction on
them: the next snapshot is never below the one that is asked for. -/
theorem find?_preservedBy (hsorted : snapshots.Pairwise (· ≤ ·)) (seqs : List ℕ)
    (nextSnapshot : ℕ) (h : upper = nextSnapshot ∨ (upper ∈ snapshots ∧ upper ≤ nextSnapshot)) :
    (preservedBy snapshots nextSnapshot seqs).find? (fun seq => seq ≤ upper) =
      seqs.find? fun seq => seq ≤ upper := by
  induction seqs generalizing nextSnapshot with
  | nil => rfl
  | cons seq seqs ih =>
      have hnext : upper ≤ nextSnapshot := by
        rcases h with rfl | ⟨-, hle⟩
        · exact le_refl _
        · exact hle
      rw [preservedBy]
      by_cases hkept : seq ≤ nextSnapshot
      · rw [if_pos hkept]
        by_cases hseq : seq ≤ upper
        · rw [List.find?_cons_of_pos (by simpa using hseq)]
          cases (snapshots.takeWhile fun s => s < seq).getLast? with
          | none => exact List.find?_cons_of_pos (by simpa using hseq)
          | some s => exact List.find?_cons_of_pos (by simpa using hseq)
        · -- the snapshot asked for is below this number, so it is not the bound itself
          have hmem : upper ∈ snapshots := by
            rcases h with rfl | ⟨hmem, -⟩
            · exact absurd hkept hseq
            · exact hmem
          obtain ⟨s, hs, hle⟩ := exists_last_below hsorted hmem (not_le.mp hseq)
          rw [hs]
          dsimp only
          rw [List.find?_cons_of_neg (by simpa using hseq),
            List.find?_cons_of_neg (by simpa using hseq)]
          exact ih s (Or.inr ⟨hmem, hle⟩)
      · have hseq : ¬seq ≤ upper := fun hle => hkept (hle.trans hnext)
        rw [if_neg hkept, List.find?_cons_of_neg (by simpa using hseq)]
        exact ih nextSnapshot h

theorem preservedBy_ne_nil {nextSnapshot : ℕ} {seqs : List ℕ} (hne : seqs ≠ [])
    (hle : ∀ seq ∈ seqs, seq ≤ nextSnapshot) : preservedBy snapshots nextSnapshot seqs ≠ [] := by
  cases seqs with
  | nil => exact absurd rfl hne
  | cons seq seqs =>
      rw [preservedBy, if_pos (hle seq List.mem_cons_self)]
      cases (snapshots.takeWhile fun s => s < seq).getLast? with
      | none => exact List.cons_ne_nil _ _
      | some s => exact List.cons_ne_nil _ _

/-- The sequence numbers that a list can be read at. -/
def Answers (forCompaction : Bool) (snapshots : List ℕ) (upper : ℕ) : Prop :=
  forCompaction = true → upper ∈ snapshots ∨ upper = kMaxSequenceNumber

instance (forCompaction : Bool) (snapshots : List ℕ) (upper : ℕ) :
    Decidable (Answers forCompaction snapshots upper) :=
  inferInstanceAs (Decidable (_ → _))

end Snapshots

/-- The fragments with the sequence numbers that they name. -/
def asStacks (l : FragmentedRangeTombstoneList) : List RangeTombstoneStack :=
  l.tombstones.map fun st => ⟨st.startKey, st.endKey, l.seqsOf st⟩

/-- Indices that name stretches of the sequence numbers. -/
def InBounds (l : FragmentedRangeTombstoneList) : Prop :=
  ∀ st ∈ l.tombstones, st.seqStartIdx ≤ st.seqEndIdx ∧ st.seqEndIdx ≤ l.tombstoneSeqs.length

/-- The list stores these stacks. -/
structure Stores (l : FragmentedRangeTombstoneList) (sts : List RangeTombstoneStack) : Prop where
  inBounds : l.InBounds
  asStacks_eq : l.asStacks = sts

theorem length_seqsOf {l : FragmentedRangeTombstoneList} (h : l.InBounds) {st : TombstoneSpan}
    (hst : st ∈ l.tombstones) : (l.seqsOf st).length = st.seqEndIdx - st.seqStartIdx := by
  obtain ⟨hle, hend⟩ := h st hst
  rw [seqsOf, List.length_take, List.length_drop]
  omega

theorem getElem?_seqsOf {l : FragmentedRangeTombstoneList} (h : l.InBounds) {st : TombstoneSpan}
    (hst : st ∈ l.tombstones) {i : ℕ} (hi : i < (l.seqsOf st).length) :
    (l.seqsOf st)[i]? = l.tombstoneSeqs[st.seqStartIdx + i]? := by
  rw [length_seqsOf h hst] at hi
  rw [seqsOf, List.getElem?_take_of_lt hi, List.getElem?_drop]

/-- Appending sequence numbers changes nothing in the stretches that are already named. -/
theorem seqsOf_append {l : FragmentedRangeTombstoneList} (h : l.InBounds) {st : TombstoneSpan}
    (hst : st ∈ l.tombstones) (tombstones : List TombstoneSpan) (seqs : List ℕ) :
    seqsOf ⟨tombstones, l.tombstoneSeqs ++ seqs⟩ st = l.seqsOf st := by
  obtain ⟨hle, hend⟩ := h st hst
  rw [seqsOf, seqsOf, List.drop_append_of_le_length (hle.trans hend), List.take_append_of_le_length]
  rw [List.length_drop]
  omega

section Stacks

variable {u : Comparator} {forCompaction : Bool} {snapshots : List ℕ}

def storedStack (forCompaction : Bool) (snapshots : List ℕ) (st : RangeTombstoneStack) :
    RangeTombstoneStack :=
  { st with seqs := storedSeqnums forCompaction snapshots st.seqs }

theorem Stores.flushTombstone {l : FragmentedRangeTombstoneList}
    {sts : List RangeTombstoneStack} (h : l.Stores sts) (forCompaction : Bool)
    (snapshots : List ℕ) (startKey endKey : Bytes) (ends : List (Bytes × ℕ)) :
    (flushTombstone forCompaction snapshots l startKey endKey ends).Stores
      (sts ++ [storedStack forCompaction snapshots ⟨startKey, endKey, seqnumsToFlush ends⟩]) := by
  unfold FragmentedRangeTombstoneList.flushTombstone
  dsimp only
  constructor
  · intro st hst
    rw [List.length_append]
    rcases List.mem_append.mp hst with hst | hst
    · obtain ⟨hle, hend⟩ := h.inBounds st hst
      exact ⟨hle, hend.trans (Nat.le_add_right _ _)⟩
    · obtain rfl := List.mem_singleton.mp hst
      exact ⟨Nat.le_add_right _ _, le_refl _⟩
  · rw [FragmentedRangeTombstoneList.asStacks, List.map_append]
    congr 1
    · rw [← h.asStacks_eq, FragmentedRangeTombstoneList.asStacks]
      apply List.map_congr_left
      intro st hst
      rw [seqsOf_append h.inBounds hst]
    · simp only [List.map_cons, List.map_nil, seqsOf, storedStack, List.drop_left,
        Nat.add_sub_cancel_left, List.take_length]

/-- The loop of `flush_current_tombstones` appends what `flushCurrentTombstones` gives, by
induction on the end keys. -/
theorem Stores.flushCurrent (nextStartKey : Bytes) (ends : List (Bytes × ℕ))
    (curStartKey : Bytes) {l : FragmentedRangeTombstoneList} {sts : List RangeTombstoneStack}
    (h : l.Stores sts) :
    (flushCurrent u forCompaction snapshots nextStartKey l curStartKey ends).1.Stores
        (sts ++ (flushCurrentTombstones u nextStartKey curStartKey ends).1.map
          (storedStack forCompaction snapshots)) ∧
      (flushCurrent u forCompaction snapshots nextStartKey l curStartKey ends).2 =
        (flushCurrentTombstones u nextStartKey curStartKey ends).2 := by
  induction ends generalizing curStartKey l sts with
  | nil =>
      refine ⟨?_, rfl⟩
      rw [flushCurrentTombstones, List.map_nil, List.append_nil]
      exact h
  | cons e ends ih =>
      rw [FragmentedRangeTombstoneList.flushCurrent, flushCurrentTombstones]
      by_cases heq : u.compare curStartKey e.1 = .eq
      · rw [if_pos heq, if_pos heq]
        exact ih curStartKey h
      · rw [if_neg heq, if_neg heq]
        by_cases hnext : u.compare nextStartKey e.1 ≠ .gt
        · rw [if_pos hnext, if_pos hnext]
          exact ⟨h.flushTombstone _ _ _ _ _, rfl⟩
        · rw [if_neg hnext, if_neg hnext]
          obtain ⟨hstores, hleft⟩ := ih e.1 (h.flushTombstone forCompaction snapshots curStartKey
            e.1 (e :: ends))
          refine ⟨?_, hleft⟩
          dsimp only
          rw [List.map_cons, List.append_cons]
          exact hstores

/-- The sweep that stores stands where the one over stacks does. -/
structure Follows (forCompaction : Bool) (snapshots : List ℕ) (sw : Sweep) (st : Fragmenting) :
    Prop where
  curStartKey : sw.curStartKey = st.curStartKey
  curEndKeys : sw.curEndKeys = st.curEndKeys
  list : sw.list.Stores (st.tombstones.map (storedStack forCompaction snapshots))

theorem Follows.sweepTombstone {sw : Sweep} {st : Fragmenting}
    (h : Follows forCompaction snapshots sw st) (t : RangeTombstone) :
    Follows forCompaction snapshots (sweepTombstone u forCompaction snapshots sw t)
      (addTombstone u st t) := by
  rw [FragmentedRangeTombstoneList.sweepTombstone, addTombstone, h.curStartKey, h.curEndKeys]
  by_cases hflush : st.curEndKeys ≠ [] ∧ u.compare st.curStartKey t.startKey ≠ .eq
  · rw [if_pos hflush, if_pos hflush]
    obtain ⟨hstores, hleft⟩ := h.list.flushCurrent (u := u) t.startKey st.curEndKeys st.curStartKey
    refine ⟨rfl, ?_, ?_⟩
    · dsimp only
      rw [hleft]
    · dsimp only
      rw [List.map_append]
      exact hstores
  · rw [if_neg hflush, if_neg hflush]
    exact ⟨rfl, rfl, h.list⟩

theorem fragment_stores (ts : List RangeTombstone) :
    (fragment u forCompaction snapshots ts).Stores
      ((fragmentTombstones u ts).map (storedStack forCompaction snapshots)) := by
  have hstart : Follows forCompaction snapshots ⟨[], [], ⟨[], []⟩⟩ ⟨[], [], []⟩ :=
    ⟨rfl, rfl, (fun _ h => nomatch h), rfl⟩
  have hloop : ∀ (sw : Sweep) (st : Fragmenting), Follows forCompaction snapshots sw st →
      Follows forCompaction snapshots (ts.foldl (sweepTombstone u forCompaction snapshots) sw)
        (ts.foldl (addTombstone u) st) := by
    induction ts with
    | nil => exact fun _ _ h => h
    | cons t ts ih => exact fun sw st h => ih _ _ (h.sweepTombstone t)
  have h := hloop _ _ hstart
  rw [fragment, fragmentTombstones, h.curEndKeys, h.curStartKey]
  cases (ts.foldl (addTombstone u) ⟨[], [], []⟩).curEndKeys.getLast? with
  | none => exact h.list
  | some last =>
      dsimp only
      rw [List.map_append]
      exact (h.list.flushCurrent last.1 _ _).1

theorem build_stores (u : Comparator) (forCompaction : Bool) (snapshots : List ℕ)
    (entries : List (Bytes × Bytes)) :
    (build u forCompaction snapshots entries).Stores
      ((create u entries).map (storedStack forCompaction snapshots)) :=
  fragment_stores _

end Stacks

section Lookup

variable {u : Comparator}

/-- Looking a key up through the indices is looking it up in the stacks. -/
theorem maxCoveringSeqnum_eq {l : FragmentedRangeTombstoneList} (h : l.InBounds) (upper : ℕ)
    (key : Bytes) :
    maxCoveringSeqnum u l upper key = maxCoveringTombstoneSeqnum u l.asStacks upper key := by
  rw [maxCoveringSeqnum, seekToCoveringTombstone, maxCoveringTombstoneSeqnum, asStacks,
    List.find?_map]
  have hpred : ((fun st : RangeTombstoneStack => decide (u.compare key st.endKey = .lt)) ∘
      fun st : TombstoneSpan => ⟨st.startKey, st.endKey, l.seqsOf st⟩) =
      fun st => decide (u.compare key st.endKey = .lt) := rfl
  rw [hpred]
  cases hfind : l.tombstones.find? fun st => u.compare key st.endKey = .lt with
  | none => rfl
  | some st =>
      have hst := List.mem_of_find?_eq_some hfind
      have hlen := length_seqsOf h hst
      have hle := (h st hst).1
      simp only [Option.map_some]
      cases hseq : (l.seqsOf st).find? fun seq => seq ≤ upper with
      | none =>
          have hidx : ((l.seqsOf st).findIdx fun seq => seq ≤ upper) = (l.seqsOf st).length :=
            List.findIdx_eq_length.mpr fun seq hmem => by
              simpa using List.find?_eq_none.mp hseq seq hmem
          rw [hidx, hlen, Nat.add_sub_cancel' hle, if_neg (fun hne => hne.1 rfl)]
      | some seq =>
          have hlt : ((l.seqsOf st).findIdx fun seq => seq ≤ upper) < (l.seqsOf st).length :=
            List.findIdx_lt_length.mpr
              ⟨seq, List.mem_of_find?_eq_some hseq, by simpa using List.find?_some hseq⟩
          have hget : l.tombstoneSeqs.getD
              (st.seqStartIdx + (l.seqsOf st).findIdx fun seq => seq ≤ upper) 0 = seq := by
            rw [List.getD_eq_getElem?_getD, ← getElem?_seqsOf h hst hlt,
              ← List.find?_eq_getElem?_findIdx, hseq]
            rfl
          have hne : st.seqStartIdx + ((l.seqsOf st).findIdx fun seq => seq ≤ upper) ≠
              st.seqEndIdx := by omega
          simp only [hget, ne_eq, hne, not_false_eq_true, true_and]

theorem find?_storedSeqnums {forCompaction : Bool} {snapshots : List ℕ} {upper : ℕ}
    (hsorted : snapshots.Pairwise (· ≤ ·)) (hupper : Answers forCompaction snapshots upper)
    {seqs : List ℕ} (hseqs : ∀ seq ∈ seqs, seq ≤ kMaxSequenceNumber) :
    (storedSeqnums forCompaction snapshots seqs).find? (fun seq => seq ≤ upper) =
      seqs.find? fun seq => seq ≤ upper := by
  cases forCompaction with
  | false => rfl
  | true =>
      rw [storedSeqnums, if_pos rfl]
      by_cases hle : upper ≤ kMaxSequenceNumber
      · apply find?_preservedBy hsorted
        rcases hupper rfl with hmem | rfl
        · exact Or.inr ⟨hmem, hle⟩
        · exact Or.inl rfl
      · -- a snapshot above every sequence number sees the newest, which is always stored
        cases seqs with
        | nil => rfl
        | cons seq seqs =>
            have hseq := hseqs seq List.mem_cons_self
            have hbound : seq ≤ upper := hseq.trans (not_le.mp hle).le
            rw [preservedBy, if_pos hseq, List.find?_cons_of_pos (by simpa using hbound)]
            cases (snapshots.takeWhile fun s => s < seq).getLast? with
            | none => exact List.find?_cons_of_pos (by simpa using hbound)
            | some s => exact List.find?_cons_of_pos (by simpa using hbound)

theorem storedSeqnums_ne_nil (forCompaction : Bool) (snapshots : List ℕ) {seqs : List ℕ}
    (hne : seqs ≠ []) (hseqs : ∀ seq ∈ seqs, seq ≤ kMaxSequenceNumber) :
    storedSeqnums forCompaction snapshots seqs ≠ [] := by
  cases forCompaction with
  | false => exact hne
  | true => exact preservedBy_ne_nil hne hseqs

/-- Stacks with what a compaction stores of them answer a read as they are. -/
theorem maxCoveringTombstoneSeqnum_stored {forCompaction : Bool} {snapshots : List ℕ} {upper : ℕ}
    (hsorted : snapshots.Pairwise (· ≤ ·)) (hupper : Answers forCompaction snapshots upper)
    {sts : List RangeTombstoneStack} (hseqs : ∀ st ∈ sts, ∀ seq ∈ st.seqs, seq ≤ kMaxSequenceNumber)
    (key : Bytes) :
    maxCoveringTombstoneSeqnum u (sts.map (storedStack forCompaction snapshots)) upper key =
      maxCoveringTombstoneSeqnum u sts upper key := by
  rw [maxCoveringTombstoneSeqnum, maxCoveringTombstoneSeqnum, List.find?_map]
  have hpred : (fun st : RangeTombstoneStack => decide (u.compare key st.endKey = .lt)) ∘
      storedStack forCompaction snapshots = fun st => decide (u.compare key st.endKey = .lt) := rfl
  rw [hpred]
  cases hfind : sts.find? fun st => u.compare key st.endKey = .lt with
  | none => rfl
  | some st =>
      simp only [Option.map_some, storedStack]
      rw [find?_storedSeqnums hsorted hupper (hseqs st (List.mem_of_find?_eq_some hfind))]

end Lookup

section NonEmpty

variable {u : Comparator}

theorem seqnumsToFlush_ne_nil (e : Bytes × ℕ) (ends : List (Bytes × ℕ)) :
    seqnumsToFlush (e :: ends) ≠ [] :=
  List.ne_nil_of_mem (mem_seqnumsToFlush.mpr ⟨e, List.mem_cons_self, rfl⟩)

theorem flushCurrentTombstones_ne_nil (nextStartKey : Bytes) (ends : List (Bytes × ℕ))
    (curStartKey : Bytes) :
    ∀ st ∈ (flushCurrentTombstones u nextStartKey curStartKey ends).1, st.seqs ≠ [] := by
  induction ends generalizing curStartKey with
  | nil => exact fun _ h => nomatch h
  | cons e ends ih =>
      rw [flushCurrentTombstones]
      by_cases heq : u.compare curStartKey e.1 = .eq
      · rw [if_pos heq]
        exact ih curStartKey
      · rw [if_neg heq]
        by_cases hnext : u.compare nextStartKey e.1 ≠ .gt
        · rw [if_pos hnext]
          intro st hst
          obtain rfl := List.mem_singleton.mp hst
          exact seqnumsToFlush_ne_nil e ends
        · rw [if_neg hnext]
          intro st hst
          rcases List.mem_cons.mp hst with rfl | hst
          · exact seqnumsToFlush_ne_nil e ends
          · exact ih e.1 st hst

theorem addTombstone_ne_nil {st : Fragmenting} (h : ∀ s ∈ st.tombstones, s.seqs ≠ [])
    (t : RangeTombstone) : ∀ s ∈ (addTombstone u st t).tombstones, s.seqs ≠ [] := by
  rw [addTombstone]
  by_cases hflush : st.curEndKeys ≠ [] ∧ u.compare st.curStartKey t.startKey ≠ .eq
  · rw [if_pos hflush]
    intro s hs
    rcases List.mem_append.mp hs with hs | hs
    · exact h s hs
    · exact flushCurrentTombstones_ne_nil _ _ _ s hs
  · rw [if_neg hflush]
    exact h

theorem fragmentTombstones_ne_nil (ts : List RangeTombstone) :
    ∀ s ∈ fragmentTombstones u ts, s.seqs ≠ [] := by
  have hloop : ∀ st : Fragmenting, (∀ s ∈ st.tombstones, s.seqs ≠ []) →
      ∀ s ∈ (ts.foldl (addTombstone u) st).tombstones, s.seqs ≠ [] := by
    induction ts with
    | nil => exact fun _ h => h
    | cons t ts ih => exact fun st h => ih _ (addTombstone_ne_nil h t)
  have h := hloop ⟨[], [], []⟩ (fun _ h => nomatch h)
  rw [fragmentTombstones]
  cases (ts.foldl (addTombstone u) ⟨[], [], []⟩).curEndKeys.getLast? with
  | none => exact h
  | some last =>
      intro s hs
      rcases List.mem_append.mp hs with hs | hs
      · exact h s hs
      · exact flushCurrentTombstones_ne_nil _ _ _ s hs

end NonEmpty

section Main

variable {u : Comparator} {entries : List (Bytes × Bytes)}

theorem footer_div_le (k : Bytes) : extractInternalKeyFooter k / 256 ≤ kMaxSequenceNumber := by
  have hlt : extractInternalKeyFooter k < 256 ^ 8 := by
    refine (Bytes.leDecode_lt _).trans_le (Nat.pow_le_pow_right (by decide) ?_)
    rw [List.length_drop, kNumInternalBytes]
    omega
  rw [kMaxSequenceNumber]
  omega

/-- The stacks of any entries, in a linear order of their keys. -/
theorem create_lined {κ : Type} [LinearOrder κ] {f : Bytes → κ}
    (hf : ∀ a b, u.compare a b = compare (f a) (f b))
    (hvalid : ∀ e ∈ entries, u.compare (extractUserKey e.1) e.2 = .lt) :
    (∃ low high, Lined f low high (create u entries)) ∧
      ∀ st ∈ create u entries, st.seqs ≠ [] ∧ ∀ seq ∈ st.seqs, seq ≤ kMaxSequenceNumber := by
  obtain ⟨l, hperm, hsorted, hcreate⟩ := create_eq_sorted u entries
  have hvalid' : ∀ t ∈ tombstonesOf l, f t.startKey < f t.endKey := by
    intro t ht
    obtain ⟨e, he, rfl⟩ := List.mem_map.mp ht
    have hlt := hvalid e (hperm.mem_iff.mp he)
    rwa [hf, compare_lt_iff_lt] at hlt
  have hstarts : (tombstonesOf l).Pairwise fun a b => f a.startKey ≤ f b.startKey := by
    rw [tombstonesOf, List.pairwise_map]
    apply hsorted.imp
    intro a b hab
    have hle := start_ne_gt_of_icmp hab
    rwa [hf, ne_eq, compare_gt_iff_gt, not_lt] at hle
  obtain ⟨⟨low, high, hlined⟩, hover⟩ := fragmentTombstones_spec hf hvalid' hstarts
  rw [hcreate]
  refine ⟨⟨low, high, hlined⟩, fun st hst => ⟨fragmentTombstones_ne_nil _ st hst, ?_⟩⟩
  intro seq hseq
  -- a number that is stored is the one of a tombstone, so it fits into the footer of a key
  have hlies : LiesOver f st (f st.startKey) seq :=
    ⟨le_refl _, (hlined.within st hst).2.1, hseq⟩
  obtain ⟨t, ht, rfl, -⟩ := (hover _ _).mp ⟨st, hst, hlies⟩
  obtain ⟨e, -, rfl⟩ := List.mem_map.mp ht
  exact footer_div_le e.1

/-- Fragments that are not empty, in order and apart from each other. -/
structure WellFormed (u : Comparator) (l : FragmentedRangeTombstoneList) : Prop where
  inBounds : l.InBounds
  nonempty : ∀ st ∈ l.tombstones,
    u.compare st.startKey st.endKey = .lt ∧ st.seqStartIdx < st.seqEndIdx
  sorted : l.tombstones.Pairwise fun a b => u.compare a.startKey b.startKey = .lt
  disjoint : l.tombstones.Pairwise fun a b => u.compare a.endKey b.startKey ≠ .gt

theorem build_wellFormed (forCompaction : Bool) (snapshots : List ℕ)
    (hvalid : ∀ e ∈ entries, u.compare (extractUserKey e.1) e.2 = .lt) :
    (build u forCompaction snapshots entries).WellFormed u := by
  have := u.transCmp
  obtain ⟨κ, _, f, hf⟩ := OrderedCursor.exists_linearOrder u.compare
  obtain ⟨⟨low, high, hlined⟩, hseqs⟩ := create_lined hf hvalid
  obtain ⟨l, hl⟩ : ∃ l, l = build u forCompaction snapshots entries := ⟨_, rfl⟩
  have hstores := build_stores u forCompaction snapshots entries
  rw [← hl] at hstores ⊢
  have hmem : ∀ st ∈ l.tombstones, ∃ s ∈ create u entries,
      s.startKey = st.startKey ∧ s.endKey = st.endKey ∧
        storedSeqnums forCompaction snapshots s.seqs = l.seqsOf st := by
    intro st hst
    have hin : (⟨st.startKey, st.endKey, l.seqsOf st⟩ : RangeTombstoneStack) ∈ l.asStacks :=
      List.mem_map_of_mem hst
    rw [hstores.asStacks_eq] at hin
    obtain ⟨s, hs, heq⟩ := List.mem_map.mp hin
    obtain ⟨hstart, hend, hnums⟩ := RangeTombstoneStack.mk.inj heq
    exact ⟨s, hs, hstart, hend, hnums⟩
  have hlt : ∀ st ∈ l.tombstones, f st.startKey < f st.endKey := by
    intro st hst
    obtain ⟨s, hs, hstart, hend, -⟩ := hmem st hst
    rw [← hstart, ← hend]
    exact (hlined.within s hs).2.1
  have hbehind : l.tombstones.Pairwise fun a b => f a.endKey ≤ f b.startKey := by
    have h := hlined.behind
    have hmap : l.asStacks.Pairwise fun a b => f a.endKey ≤ f b.startKey := by
      rw [hstores.asStacks_eq, List.pairwise_map]
      exact h
    exact List.pairwise_map.mp hmap
  refine ⟨hstores.inBounds, fun st hst => ⟨?_, ?_⟩, ?_, ?_⟩
  · rw [hf, compare_lt_iff_lt]
    exact hlt st hst
  · obtain ⟨s, hs, -, -, hnums⟩ := hmem st hst
    have hne := storedSeqnums_ne_nil forCompaction snapshots (hseqs s hs).1 (hseqs s hs).2
    rw [hnums] at hne
    have hlen := length_seqsOf hstores.inBounds hst
    have hpos := List.length_pos_of_ne_nil hne
    omega
  · apply hbehind.imp_of_mem
    intro a b ha _ hab
    rw [hf, compare_lt_iff_lt]
    exact (hlt a ha).trans_le hab
  · apply hbehind.imp
    intro a b hab
    rw [hf, ne_eq, compare_gt_iff_gt, not_lt]
    exact hab

theorem maxCoveringSeqnum_build {forCompaction : Bool} {snapshots : List ℕ} {upper : ℕ}
    (hsorted : snapshots.Pairwise (· ≤ ·)) (hupper : Answers forCompaction snapshots upper)
    (hvalid : ∀ e ∈ entries, u.compare (extractUserKey e.1) e.2 = .lt) (key : Bytes) :
    maxCoveringSeqnum u (build u forCompaction snapshots entries) upper key =
      maxCovering u (tombstonesOf entries) upper key := by
  have := u.transCmp
  obtain ⟨κ, _, f, hf⟩ := OrderedCursor.exists_linearOrder u.compare
  obtain ⟨-, hseqs⟩ := create_lined hf hvalid
  have hstores := build_stores u forCompaction snapshots entries
  calc maxCoveringSeqnum u (build u forCompaction snapshots entries) upper key
      = maxCoveringTombstoneSeqnum u
          ((create u entries).map (storedStack forCompaction snapshots)) upper key := by
        rw [maxCoveringSeqnum_eq hstores.inBounds, hstores.asStacks_eq]
    _ = maxCoveringTombstoneSeqnum u (create u entries) upper key :=
        maxCoveringTombstoneSeqnum_stored hsorted hupper (fun st hst => (hseqs st hst).2) key
    _ = maxCovering u (tombstonesOf entries) upper key :=
        maxCoveringTombstoneSeqnum_create hvalid upper key

/-- Built for reads, the fragments answer every read as the tombstones would; built for a
compaction, every read at a snapshot and at the tip. -/
theorem build_covers (u : Comparator) (entries : List (Bytes × Bytes))
    (hvalid : ∀ e ∈ entries, u.compare (extractUserKey e.1) e.2 = .lt) :
    ((build u false [] entries).WellFormed u ∧ ∀ upper key,
      maxCoveringSeqnum u (build u false [] entries) upper key =
        maxCovering u (tombstonesOf entries) upper key) ∧
    ∀ snapshots : List ℕ, snapshots.Pairwise (· ≤ ·) →
      (build u true snapshots entries).WellFormed u ∧
        ∀ upper, upper ∈ snapshots ∨ upper = kMaxSequenceNumber → ∀ key,
          maxCoveringSeqnum u (build u true snapshots entries) upper key =
            maxCovering u (tombstonesOf entries) upper key := by
  refine ⟨⟨build_wellFormed _ _ hvalid, fun upper key => ?_⟩, fun snapshots hsorted =>
    ⟨build_wellFormed _ _ hvalid, fun upper hupper key => ?_⟩⟩
  · exact maxCoveringSeqnum_build .nil (fun h => Bool.noConfusion h) hvalid key
  · exact maxCoveringSeqnum_build hsorted (fun _ => hupper) hvalid key

/-- The tombstones from `c` to `e`, from `a` to `d` and from `a` to `c`, out of order. -/
def overlapping : List (Bytes × Bytes) :=
  [([99] ++ Bytes.leEncode 8 (7 * 256 + 15), [101]),
    ([97] ++ Bytes.leEncode 8 (3 * 256 + 15), [100]),
    ([97] ++ Bytes.leEncode 8 (5 * 256 + 15), [99])]

theorem build_covers_overlapping :
    (build bytewiseComparator true [4] overlapping).WellFormed bytewiseComparator ∧
      ∀ key, maxCoveringSeqnum bytewiseComparator
          (build bytewiseComparator true [4] overlapping) 4 key =
        maxCovering bytewiseComparator (tombstonesOf overlapping) 4 key := by
  obtain ⟨-, hcompaction⟩ := build_covers bytewiseComparator overlapping (by decide)
  obtain ⟨hformed, hcovers⟩ := hcompaction [4] (List.pairwise_singleton _ _)
  exact ⟨hformed, hcovers 4 (Or.inl (List.mem_singleton.mpr rfl))⟩

end Main

end FragmentedRangeTombstoneList

end Tweezer
