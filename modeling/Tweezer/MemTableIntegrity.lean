import Tweezer.MemTableRangeDelete

/-!
# The memtable against a host that changes the values

Runs of adds and reads in which the host may write anything to the memory outside in between.
`Decryption` only reports a tag that does not agree, and `MemTableIterator::value` looks at
none, so that a read stands for the plaintext only where the host has left alone what it reads.
-/

namespace Tweezer

open FragmentedRangeTombstoneList

/-- What becomes of one key of a `MultiGet`. -/
inductive MultiGetResult where
  | got (r : MemTable.GetResult)
  | aborted
  deriving DecidableEq, Repr

namespace MemTables

variable (E : MemTableEnv) (t : MemTables) (op : AssociativeMergeOperator) (inplace : Bool)

/-- The loop of `MultiGet`, `size` being that of the values so far, and whether it has run into
the limit. Keys that are not done by then are aborted. -/
def multiGetLoop (softLimit : ℕ) : ℕ → List MemTableLookup → Outcome (List MultiGetResult × Bool)
  | _, [] => .ok ([], false)
  | size, q :: qs => do
      let r ← t.get E (some op) inplace true q.key q.snapshot
      let valueSize := (r.value.getD []).length
      if r.found ∧ softLimit < size + valueSize then
        .ok (.got r :: qs.map fun _ => .aborted, true)
      else do
        let (rs, limited) ← multiGetLoop softLimit (if r.found then size + valueSize else size) qs
        .ok ((if limited ∧ !r.found then .aborted else .got r) :: rs, limited)

def multiGet (softLimit : ℕ) (qs : List MemTableLookup) : Outcome (List MultiGetResult) := do
  let (rs, _) ← t.multiGetLoop E op inplace softLimit 0 qs
  .ok rs

end MemTables

/-- What happens to a memtable: adds, reads, and the host at work on the memory outside. -/
inductive MemTableStep where
  | add (cpu : ℕ) (call : MemTableCall)
  | change (memory : Memory)
  | get (q : MemTableLookup) (doMerge : Bool)
  | multiGet (qs : List MemTableLookup) (softLimit : ℕ)
  /-- `value()` of an iterator that stands at the entry `i` of either table. -/
  | value (useRangeDelTable : Bool) (i : ℕ)

namespace MemTableStep

def calls : MemTableStep → List (ℕ × MemTableCall)
  | add cpu call => [(cpu, call)]
  | change _ | get _ _ | multiGet _ _ | value _ _ => []

def next (E : MemTableEnv) (t : MemTables) : MemTableStep → Outcome MemTables
  | add cpu call => do
      let (_, t) ← t.add E cpu call
      .ok t
  | change memory => .ok { t with points := { t.points with memory := memory } }
  | _ => .ok t

end MemTableStep

section Plain

variable (u : Comparator) (op : AssociativeMergeOperator)

end Plain

section Intact

variable (E : MemTableEnv) (op : AssociativeMergeOperator) (inplace : Bool)
  (points : List MemTableAdd) (ranges : List RangeDeletionAdd) (t : MemTables)

/-- What a lookup reads outside stands for the plaintext: the end keys outside cover the key as
the added ones do, what is decrypted is the ciphertext that was put there, and records are not
used in place of values. -/
structure GetIntact (doMerge : Bool) (q : MemTableLookup) : Prop where
  pinned : inplace = true ∨ ranges.length ≤ 1
  covers : ∀ entries, t.rangeDelEntries = .ok entries →
    maxCoveringTombstoneSeqnum E.ucmp (create E.ucmp entries) q.snapshot q.key =
      maxCovering E.ucmp (ranges.map MemTableEntry.tombstone) q.snapshot q.key
  intact : DecryptsOnly (fun c => (c.1.under
    (maxCovering E.ucmp (ranges.map MemTableEntry.tombstone) q.snapshot q.key)).type) doMerge
      (Intact E t.points.memory) true
      ((versions E.ucmp q points).zip (t.points.visibleRecords E.ucmp q))
  follows : GetFollows op doMerge q.key inplace []
    (((versions E.ucmp q points).zip (t.points.visibleRecords E.ucmp q)).map fun c => (c.1.under
      (maxCovering E.ucmp (ranges.map MemTableEntry.tombstone) q.snapshot q.key), c.2))

end Intact

section Reads

variable {E : MemTableEnv} {op : AssociativeMergeOperator} {inplace doMerge : Bool}
  {t : MemTables} {points : List MemTableAdd} {ranges : List RangeDeletionAdd}
  {pcells : List (MemTableAdd × ℕ)} {rcells : List (RangeDeletionAdd × ℕ)}
  {regions : List (ℕ × ℕ)} {q : MemTableLookup}

theorem GetIntact.maxCoveringTombstoneSeq_eq
    (hget : GetIntact E op inplace points ranges t doMerge q)
    (h : t.Keeps E points ranges pcells rcells regions) :
    t.maxCoveringTombstoneSeq E inplace q.key q.snapshot =
      .ok (maxCovering E.ucmp (ranges.map MemTableEntry.tombstone) q.snapshot q.key) := by
  rw [MemTables.maxCoveringTombstoneSeq]
  by_cases hnil : ranges = []
  · rw [if_pos (h.rangesEmpty_iff.mpr hnil), hnil]
    rfl
  have hlen := h.rangeTable.length_cells
  have hentries := rangeDelEntries_read h
  have hnot : ¬(inplace = false ∧ 1 < rcells.length) := by
    rintro ⟨hfalse, hlt⟩
    rcases hget.pinned with htrue | hle
    · exact absurd (htrue.symm.trans hfalse) (by decide)
    · exact absurd hlt (not_lt.mpr (hlen ▸ hle))
  rw [if_neg (fun hempty => hnil (h.rangesEmpty_iff.mp hempty)),
    MemTables.newRangeTombstoneIterator, hentries, Outcome.ok_bind, List.length_map,
    if_neg hnot, Outcome.ok_bind, hget.covers _ hentries]

end Reads

section Run

variable {E : MemTableEnv} {op : AssociativeMergeOperator} {inplace : Bool}

/-- A step keeps the two tables: the host changes nothing inside, and neither does a read. -/
theorem MemTables.Keeps.next {t t' : MemTables} {done : List (ℕ × MemTableCall)}
    {pcells : List (MemTableAdd × ℕ)} {rcells : List (RangeDeletionAdd × ℕ)}
    {regions : List (ℕ × ℕ)}
    (h : t.Keeps E (pointsOf done) (rangesOf done) pcells rcells regions) (step : MemTableStep)
    (hhost : (done ++ step.calls).length ≤ E.host.blocks)
    (hdistinct : DistinctCalls E.ucmp (done ++ step.calls)) (hnext : step.next E t = .ok t') :
    ∃ pcells' rcells' regions', t'.Keeps E (pointsOf (done ++ step.calls))
      (rangesOf (done ++ step.calls)) pcells' rcells' regions' := by
  cases step with
  | add cpu call =>
      have hlen := length_pointsOf_add_rangesOf done
      have hlt : done.length < E.host.blocks := by
        rw [MemTableStep.calls, List.length_append, List.length_singleton] at hhost
        omega
      by_cases hfits : call.Fits
      · obtain ⟨t₁, pcells', rcells', regions', hadd, hkeeps, -, -⟩ :=
          h.add cpu hfits hlt hdistinct
        rw [MemTableStep.next, hadd] at hnext
        cases hnext
        exact ⟨pcells', rcells', regions', hkeeps⟩
      · obtain ⟨e, he⟩ := h.add_stops cpu hfits (by omega)
        rw [MemTableStep.next, he] at hnext
        cases hnext
  | change memory =>
      cases hnext
      rw [MemTableStep.calls, List.append_nil]
      exact ⟨pcells, rcells, regions, h.pointTable, h.rangeTable, h.arena, h.blocks_le,
        h.isEmpty_iff, h.rangesEmpty_iff⟩
  | get q doMerge =>
      cases hnext
      rw [MemTableStep.calls, List.append_nil]
      exact ⟨pcells, rcells, regions, h⟩
  | multiGet qs softLimit =>
      cases hnext
      rw [MemTableStep.calls, List.append_nil]
      exact ⟨pcells, rcells, regions, h⟩
  | value useRangeDelTable i =>
      cases hnext
      rw [MemTableStep.calls, List.append_nil]
      exact ⟨pcells, rcells, regions, h⟩

end Run

end Tweezer
