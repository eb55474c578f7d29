import Tweezer.MemTableCorrect
import Tweezer.RangeTombstone

/-!
# The memtable with its range deletions

`db/memtable.cc` keeps range deletions in a table of their own, over the same arena. `Get`
reads that table through a `MemTableIterator`, whose `value` is a copy of the bytes outside in
a buffer that the next call of `value` replaces.
-/

namespace Tweezer

/-- `table_` with the arena and the memory outside, and `range_del_table_`. -/
structure MemTables where
  points : MemTable
  rangeDelTable : List Bytes
  isRangeDelTableEmpty : Bool

/-- The arguments of `Add`, by the table the entry goes to. -/
abbrev MemTableCall := MemTableAdd ⊕ RangeDeletionAdd

namespace MemTables

def empty (memory : Memory) (shardCount : ℕ) : MemTables := ⟨.empty memory shardCount, [], true⟩

def add (E : MemTableEnv) (t : MemTables) (cpu : ℕ) : MemTableCall → Outcome (Bool × MemTables)
  | .inl a => do
      let (inserted, m) ← t.points.add E cpu a
      .ok (inserted, { t with points := m })
  | .inr r => do
      let (inserted, m) ← { t.points with table := t.rangeDelTable }.add E cpu r
      .ok (inserted, ⟨{ m with table := t.points.table }, m.table,
        if inserted then false else t.isRangeDelTableEmpty⟩)

def addAll (E : MemTableEnv) : MemTables → List (ℕ × MemTableCall) → Outcome MemTables
  | t, [] => .ok t
  | t, (cpu, a) :: calls => do
      let (_, t) ← t.add E cpu a
      addAll E t calls

/-- What a `MemTableIterator` over the range deletions gives. -/
def rangeDelEntries (t : MemTables) : Outcome (List (Bytes × Bytes)) :=
  t.rangeDelTable.mapM t.points.iteratorEntry

/-- `NewRangeTombstoneIterator` on a table that is not empty. The fragmenter keeps the end keys
by reference where values count as pinned, which is where they are not updated in place: all
but the last of them are gone when it comes back to them. -/
def newRangeTombstoneIterator (E : MemTableEnv) (t : MemTables) (inplaceUpdateSupport : Bool) :
    Outcome (List RangeTombstoneStack) := do
  let entries ← t.rangeDelEntries
  if inplaceUpdateSupport = false ∧ 1 < entries.length then .error .outOfBuffer
  else .ok (FragmentedRangeTombstoneList.create E.ucmp entries)

/-- `max_covering_tombstone_seq` as `Get` finds it. -/
def maxCoveringTombstoneSeq (E : MemTableEnv) (t : MemTables) (inplaceUpdateSupport : Bool)
    (key : Bytes) (snapshot : ℕ) : Outcome ℕ :=
  if t.isRangeDelTableEmpty then .ok 0
  else do
    let tombstones ← t.newRangeTombstoneIterator E inplaceUpdateSupport
    .ok (FragmentedRangeTombstoneList.maxCoveringTombstoneSeqnum E.ucmp tombstones snapshot key)

def get (E : MemTableEnv) (t : MemTables) (op : Option AssociativeMergeOperator)
    (inplaceUpdateSupport doMerge : Bool) (key : Bytes) (snapshot : ℕ) :
    Outcome MemTable.GetResult :=
  let s := MemTable.newSaver op inplaceUpdateSupport doMerge key
  if t.points.isEmpty then MemTable.getResult s
  else do
    let cover ← t.maxCoveringTombstoneSeq E inplaceUpdateSupport key snapshot
    let s ← MemTable.getLoop E t.points.memory { s with maxCoveringTombstoneSeq := cover }
      (MemTable.seekRecords E.ucmp t.points.table (MemTable.lookupKey key snapshot))
    MemTable.getResult s

end MemTables

variable {types : List ValueType} {E : MemTableEnv}

theorem TableKeeps.append_regions {table : List Bytes} {adds : List (MemTableEntry types)}
    {cells : List (MemTableEntry types × ℕ)} {regions : List (ℕ × ℕ)}
    (h : TableKeeps E table adds cells regions) (more : List (ℕ × ℕ)) :
    TableKeeps E table adds cells (regions ++ more) :=
  ⟨h.perm, h.sorted, h.table_eq, fun c hc => List.mem_append_left _ (h.mem_regions c hc),
    h.value_le, h.ptr_lt⟩

/-- Different cells hold different versions. -/
theorem TableKeeps.eq_of_compareCells {table : List Bytes} {adds : List (MemTableEntry types)}
    {cells : List (MemTableEntry types × ℕ)} {regions : List (ℕ × ℕ)}
    (h : TableKeeps E table adds cells regions) {c d : MemTableEntry types × ℕ} (hc : c ∈ cells)
    (hd : d ∈ cells) (heq : compareCells E.ucmp c d = .eq) : c = d := by
  have hne : cells.Pairwise fun c d => compareCells E.ucmp c d ≠ .eq :=
    h.sorted.imp fun hlt => by
      rw [hlt]
      decide
  have : Std.Symm fun c d : MemTableEntry types × ℕ => compareCells E.ucmp c d ≠ .eq :=
    ⟨fun c d hcd heq => hcd (Std.OrientedCmp.eq_comm.mp heq)⟩
  by_contra hcd
  exact hne.forall hc hd hcd heq

/-- An add that neither ends the process nor overruns its record. -/
def MemTableCall.Fits : MemTableCall → Prop
  | .inl a => AddFits a
  | .inr r => AddFits r

/-- The entries of a sequence of calls, for either table. -/
def pointsOf (calls : List (ℕ × MemTableCall)) : List MemTableAdd :=
  calls.filterMap fun c => c.2.getLeft?

def rangesOf (calls : List (ℕ × MemTableCall)) : List RangeDeletionAdd :=
  calls.filterMap fun c => c.2.getRight?

theorem pointsOf_append (calls calls' : List (ℕ × MemTableCall)) :
    pointsOf (calls ++ calls') = pointsOf calls ++ pointsOf calls' := List.filterMap_append

theorem rangesOf_append (calls calls' : List (ℕ × MemTableCall)) :
    rangesOf (calls ++ calls') = rangesOf calls ++ rangesOf calls' := List.filterMap_append

theorem length_pointsOf_add_rangesOf (calls : List (ℕ × MemTableCall)) :
    (pointsOf calls).length + (rangesOf calls).length = calls.length := by
  induction calls with
  | nil => rfl
  | cons call calls ih =>
      obtain ⟨cpu, a | r⟩ := call
      · have hp : pointsOf ((cpu, .inl a) :: calls) = a :: pointsOf calls := rfl
        have hr : rangesOf ((cpu, .inl a) :: calls) = rangesOf calls := rfl
        rw [hp, hr, List.length_cons, List.length_cons]
        omega
      · have hp : pointsOf ((cpu, .inr r) :: calls) = pointsOf calls := rfl
        have hr : rangesOf ((cpu, .inr r) :: calls) = r :: rangesOf calls := rfl
        rw [hp, hr, List.length_cons, List.length_cons]
        omega

/-- The pairs of key and sequence number in each table are distinct. -/
structure DistinctCalls (u : Comparator) (calls : List (ℕ × MemTableCall)) : Prop where
  points : (pointsOf calls).Pairwise fun a b => compareAdds u a b ≠ .eq
  ranges : (rangesOf calls).Pairwise fun a b => compareAdds u a b ≠ .eq

theorem DistinctCalls.of_append {u : Comparator} {calls calls' : List (ℕ × MemTableCall)}
    (h : DistinctCalls u (calls ++ calls')) : DistinctCalls u calls := by
  obtain ⟨hp, hr⟩ := h
  rw [pointsOf_append] at hp
  rw [rangesOf_append] at hr
  exact ⟨(List.pairwise_append.mp hp).1, (List.pairwise_append.mp hr).1⟩

/-- The invariant of the two tables, whatever the host does to the memory outside. -/
structure MemTables.Keeps (E : MemTableEnv) (t : MemTables) (points : List MemTableAdd)
    (ranges : List RangeDeletionAdd) (pcells : List (MemTableAdd × ℕ))
    (rcells : List (RangeDeletionAdd × ℕ)) (regions : List (ℕ × ℕ)) : Prop where
  pointTable : TableKeeps E t.points.table points pcells regions
  rangeTable : TableKeeps E t.rangeDelTable ranges rcells regions
  arena : t.points.arena.Inv E.host regions
  blocks_le : t.points.arena.arena.blocks ≤ points.length + ranges.length
  isEmpty_iff : t.points.firstSeqno = 0 ↔ points = [] ∧ ranges = []
  rangesEmpty_iff : t.isRangeDelTableEmpty = true ↔ ranges = []

namespace MemTables

variable {t : MemTables} {points : List MemTableAdd} {ranges : List RangeDeletionAdd}
  {pcells : List (MemTableAdd × ℕ)} {rcells : List (RangeDeletionAdd × ℕ)}
  {regions : List (ℕ × ℕ)}

theorem keeps_empty (E : MemTableEnv) (memory : Memory) (shardCount : ℕ) :
    (empty memory shardCount).Keeps E [] [] [] [] [] :=
  ⟨tableKeeps_nil E [], tableKeeps_nil E [], UntrustedConcurrentArena.inv_create shardCount,
    Nat.zero_le _, ⟨fun _ => ⟨rfl, rfl⟩, fun _ => rfl⟩, ⟨fun _ => rfl, fun _ => rfl⟩⟩

/-- A point entry that fits is added, and nothing else changes. -/
theorem Keeps.add_point (h : t.Keeps E points ranges pcells rcells regions) (cpu : ℕ)
    (a : MemTableAdd) (hfits : AddFits a) (hhost : points.length + ranges.length < E.host.blocks)
    (hdistinct : ∀ b ∈ points, compareAdds E.ucmp a b ≠ .eq) :
    ∃ t' pcells' regions', t.add E cpu (.inl a) = .ok (true, t') ∧
      t'.Keeps E (points ++ [a]) ranges pcells' rcells regions' ∧
      (Stored E t.points.memory pcells → Stored E t'.points.memory pcells') ∧
      (Stored E t.points.memory rcells → Stored E t'.points.memory rcells) := by
  have hblocks := h.blocks_le
  obtain ⟨m', cells', p, hadd, hadded⟩ := h.pointTable.add h.arena cpu a hfits.1 hfits.2 (by omega)
    hdistinct
  have hle := hadded.blocks_le
  refine ⟨{ t with points := m' }, cells', _, ?_, ⟨hadded.keeps, h.rangeTable.append_regions _,
    hadded.arena, ?_, ?_, h.rangesEmpty_iff⟩, hadded.stored h.pointTable.mem_regions,
    hadded.stored_of_mem h.rangeTable.mem_regions⟩
  · rw [add, hadd, Outcome.ok_bind]
  · rw [List.length_append, List.length_singleton]
    dsimp only
    omega
  · constructor
    · exact fun hz => absurd hz hadded.firstSeqno_ne
    · rintro ⟨hnil, -⟩
      exact absurd hnil (List.append_ne_nil_of_right_ne_nil _ (List.cons_ne_nil _ _))

/-- A range deletion that fits is added, and nothing else changes. -/
theorem Keeps.add_range (h : t.Keeps E points ranges pcells rcells regions) (cpu : ℕ)
    (r : RangeDeletionAdd) (hfits : AddFits r)
    (hhost : points.length + ranges.length < E.host.blocks)
    (hdistinct : ∀ b ∈ ranges, compareAdds E.ucmp r b ≠ .eq) :
    ∃ t' rcells' regions', t.add E cpu (.inr r) = .ok (true, t') ∧
      t'.Keeps E points (ranges ++ [r]) pcells rcells' regions' ∧
      (Stored E t.points.memory rcells → Stored E t'.points.memory rcells') ∧
      (Stored E t.points.memory pcells → Stored E t'.points.memory pcells) := by
  have hblocks := h.blocks_le
  obtain ⟨m, hm⟩ : ∃ m : MemTable, m = { t.points with table := t.rangeDelTable } := ⟨_, rfl⟩
  have htable : m.table = t.rangeDelTable := by rw [hm]
  have hmemory : m.memory = t.points.memory := by rw [hm]
  have harena : m.arena = t.points.arena := by rw [hm]
  have hranges : TableKeeps E m.table ranges rcells regions := htable ▸ h.rangeTable
  obtain ⟨m', cells', p, hadd, hadded⟩ := hranges.add (harena ▸ h.arena) cpu r hfits.1 hfits.2
    (by rw [harena]; omega) hdistinct
  have hle := hadded.blocks_le
  have hstored := hadded.stored h.rangeTable.mem_regions
  have hothers := hadded.stored_of_mem h.pointTable.mem_regions
  rw [harena] at hle
  rw [hmemory] at hstored hothers
  refine ⟨⟨{ m' with table := t.points.table }, m'.table, false⟩, cells', _, ?_,
    ⟨h.pointTable.append_regions _, hadded.keeps, hadded.arena, ?_, ?_, ?_⟩, hstored, hothers⟩
  · rw [add, ← hm, hadd, Outcome.ok_bind]
    rfl
  · rw [List.length_append, List.length_singleton]
    dsimp only
    omega
  · constructor
    · exact fun hz => absurd hz hadded.firstSeqno_ne
    · rintro ⟨-, hnil⟩
      exact absurd hnil (List.append_ne_nil_of_right_ne_nil _ (List.cons_ne_nil _ _))
  · constructor
    · exact fun hfalse => absurd hfalse Bool.false_ne_true
    · exact fun hnil =>
        absurd hnil (List.append_ne_nil_of_right_ne_nil _ (List.cons_ne_nil _ _))

/-- A call that does not fit stops the process. -/
theorem Keeps.add_stops (h : t.Keeps E points ranges pcells rcells regions) (cpu : ℕ)
    {call : MemTableCall} (hfits : ¬ call.Fits)
    (hhost : points.length + ranges.length < E.host.blocks) :
    ∃ e, t.add E cpu call = .error e := by
  have hblocks := h.blocks_le
  have hstop : ∀ {types : List ValueType} (m : MemTable) (a : MemTableEntry types),
      m.arena = t.points.arena → ¬ AddFits a → ∃ e, m.add E cpu a = .error e := by
    intro types m a harena hnot
    by_cases hvalue : a.value.length ≤ kUntrustedBlockSize
    · exact ⟨_, MemTable.add_overrun (harena ▸ h.arena) cpu a hvalue (fun hrecord =>
        hnot ⟨hvalue, hrecord⟩) (by rw [harena]; omega)⟩
    · exact ⟨_, MemTable.add_exit (harena ▸ h.arena) cpu a (not_le.mp hvalue)⟩
  cases call with
  | inl a =>
      obtain ⟨e, he⟩ := hstop t.points a rfl hfits
      exact ⟨e, by rw [add, he, Outcome.error_bind]⟩
  | inr r =>
      obtain ⟨e, he⟩ := hstop { t.points with table := t.rangeDelTable } r rfl hfits
      exact ⟨e, by rw [add, he, Outcome.error_bind]⟩

/-- After the calls in `done`, one more that fits. -/
theorem Keeps.add {done : List (ℕ × MemTableCall)}
    (h : t.Keeps E (pointsOf done) (rangesOf done) pcells rcells regions) (cpu : ℕ)
    {call : MemTableCall} (hfits : call.Fits) (hhost : done.length < E.host.blocks)
    (hdistinct : DistinctCalls E.ucmp (done ++ [(cpu, call)])) :
    ∃ t' pcells' rcells' regions', t.add E cpu call = .ok (true, t') ∧
      t'.Keeps E (pointsOf (done ++ [(cpu, call)])) (rangesOf (done ++ [(cpu, call)])) pcells'
        rcells' regions' ∧
      (Stored E t.points.memory pcells → Stored E t'.points.memory pcells') ∧
      (Stored E t.points.memory rcells → Stored E t'.points.memory rcells') := by
  obtain ⟨hpoints, hranges⟩ := hdistinct
  rw [pointsOf_append] at hpoints ⊢
  rw [rangesOf_append] at hranges ⊢
  have hlen := length_pointsOf_add_rangesOf done
  cases call with
  | inl a =>
      have hp : pointsOf [(cpu, .inl a)] = [a] := rfl
      have hr : rangesOf [(cpu, (.inl a : MemTableCall))] = [] := rfl
      rw [hp] at hpoints ⊢
      rw [hr, List.append_nil]
      have hnew : ∀ b ∈ pointsOf done, compareAdds E.ucmp a b ≠ .eq := by
        intro b hb heq
        exact (List.pairwise_append.mp hpoints).2.2 b hb a List.mem_cons_self
          (Std.OrientedCmp.eq_comm.mp heq)
      obtain ⟨t', pcells', regions', hadd, hkeeps, hp', hr'⟩ :=
        h.add_point cpu a hfits (by omega) hnew
      exact ⟨t', pcells', rcells, regions', hadd, hkeeps, hp', hr'⟩
  | inr r =>
      have hp : pointsOf [(cpu, (.inr r : MemTableCall))] = [] := rfl
      have hr : rangesOf [(cpu, .inr r)] = [r] := rfl
      rw [hr] at hranges ⊢
      rw [hp, List.append_nil]
      have hnew : ∀ b ∈ rangesOf done, compareAdds E.ucmp r b ≠ .eq := by
        intro b hb heq
        exact (List.pairwise_append.mp hranges).2.2 b hb r List.mem_cons_self
          (Std.OrientedCmp.eq_comm.mp heq)
      obtain ⟨t', rcells', regions', hadd, hkeeps, hr', hp'⟩ :=
        h.add_range cpu r hfits (by omega) hnew
      exact ⟨t', pcells, rcells', regions', hadd, hkeeps, hp', hr'⟩

/-- A sequence of calls goes through exactly if each of them fits, and then leaves both tables
in order, with every value stored outside. -/
theorem Keeps.addAll {done : List (ℕ × MemTableCall)}
    (h : t.Keeps E (pointsOf done) (rangesOf done) pcells rcells regions)
    (hpoints : Stored E t.points.memory pcells) (hranges : Stored E t.points.memory rcells)
    (calls : List (ℕ × MemTableCall)) (hhost : (done ++ calls).length ≤ E.host.blocks)
    (hdistinct : DistinctCalls E.ucmp (done ++ calls)) :
    ((∀ c ∈ calls, c.2.Fits) → ∃ t' pcells' rcells' regions', t.addAll E calls = .ok t' ∧
        t'.Keeps E (pointsOf (done ++ calls)) (rangesOf (done ++ calls)) pcells' rcells'
          regions' ∧
        Stored E t'.points.memory pcells' ∧ Stored E t'.points.memory rcells') ∧
      (∀ t', t.addAll E calls = .ok t' → ∀ c ∈ calls, c.2.Fits) := by
  induction calls generalizing t done pcells rcells regions with
  | nil =>
      rw [List.append_nil]
      constructor
      · intro _
        exact ⟨t, pcells, rcells, regions, rfl, h, hpoints, hranges⟩
      · intro t' _ c hc
        cases hc
  | cons call calls ih =>
      obtain ⟨cpu, call⟩ := call
      have hshift : done ++ (cpu, call) :: calls = done ++ [(cpu, call)] ++ calls := by
        rw [List.append_assoc, List.singleton_append]
      have hlen := length_pointsOf_add_rangesOf done
      rw [hshift] at hhost hdistinct ⊢
      rw [List.length_append, List.length_append, List.length_singleton] at hhost
      by_cases hfits : call.Fits
      · obtain ⟨t₁, pcells₁, rcells₁, regions₁, hadd, hkeeps, hp, hr⟩ :=
          h.add cpu hfits (by omega) hdistinct.of_append
        obtain ⟨hsome, honly⟩ := ih hkeeps (hp hpoints) (hr hranges)
          (by rw [List.length_append, List.length_append, List.length_singleton]; omega) hdistinct
        rw [MemTables.addAll, hadd, Outcome.ok_bind]
        dsimp only
        constructor
        · intro hall
          exact hsome fun c hc => hall c (List.mem_cons_of_mem _ hc)
        · intro t' ht' c hc
          rcases List.mem_cons.mp hc with rfl | hc
          · exact hfits
          · exact honly t' ht' c hc
      · obtain ⟨e, he⟩ := h.add_stops cpu hfits (by omega)
        rw [MemTables.addAll, he, Outcome.error_bind]
        constructor
        · intro hall
          exact absurd (hall _ List.mem_cons_self) hfits
        · intro t' ht'
          cases ht'

end MemTables

end Tweezer
