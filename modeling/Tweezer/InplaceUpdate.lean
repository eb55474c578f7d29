import Tweezer.MemTableRangeDelete

/-!
# Updating the memtable in place

`MemTable::Update` and `MemTable::UpdateCallback`. Both take the length-prefixed bytes behind the
internal key for the value and write over them; what is there are the size, the tag and the
address that stand for the value.
-/

namespace Tweezer

/-- What `inplace_callback` returns: nothing to update, the buffer overwritten with a value that
is not longer than the old one, or a new value. -/
inductive UpdateResult where
  | updateFailed
  | updatedInplace (b : Bytes)
  | updated (b : Bytes)
  deriving DecidableEq, Repr

/-- The new value, wherever it is. -/
def UpdateResult.value? : UpdateResult → Option Bytes
  | updateFailed => none
  | updatedInplace b | updated b => some b

/-- `inplace_callback`, by the value that is there and the delta. -/
structure InplaceCallback where
  call : Bytes → Bytes → UpdateResult
  inplace_le : ∀ existing delta b, call existing delta = .updatedInplace b →
    b.length ≤ existing.length

/-- Keys above 2GB are not supported. -/
abbrev UserKey := {k : Bytes // k.length ≤ 2 ^ 31}

theorem UserKey.length_le (key : UserKey) : key.val.length ≤ 2 ^ 31 :=
  key.property

/-- `Add(seq, kTypeValue, key, value)`. -/
def putOf (seq : SequenceNumber) (key : UserKey) (value : Bytes) : MemTableAdd :=
  ⟨seq, .value, key.val, value, value_mem_pointTypes, key.length_le⟩

/-- What is written before a version is looked for. -/
def lookupAt (seq : SequenceNumber) (key : UserKey) : MemTableLookup :=
  ⟨key.val, seq.val, key.length_le, seq.property.2⟩

/-- `w` written over the start of `b`. -/
def Bytes.overwrite (b w : Bytes) : Bytes := w ++ b.drop w.length

namespace MemTable

variable (E : MemTableEnv) (m : MemTable)

/-- The entry that `Update` and `UpdateCallback` seek, if it is a put of the key: where it is in
the table, and what it holds from the internal key on. -/
def seekPut (key : Bytes) (seq : ℕ) : Outcome (Option (ℕ × Bytes × Bytes)) :=
  match seekRecords E.ucmp m.table (lookupKey key seq) with
  | [] => .ok none
  | entry :: rest => do
      let (ikey, value) ← getLengthPrefixedSlice entry
      if ikey.length < kNumInternalBytes then .error .outOfBuffer
      else if E.ucmp.compare (extractUserKey ikey) key = .eq ∧
          ValueType.ofCode? (extractValueType ikey) = some .value then
        .ok (some (m.table.length - (rest.length + 1), entry, value))
      else .ok none

/-- The table with what follows the internal key of a record replaced. -/
def writeValue (i : ℕ) (entry value written : Bytes) : MemTable :=
  { m with table := m.table.set i (entry.take (entry.length - value.length) ++ written) }

/-- `Update`. -/
def update (cpu : ℕ) (seq : SequenceNumber) (key : UserKey) (value : Bytes) :
    Outcome MemTable := do
  let found ← m.seekPut E key.val seq.val
  match found with
  | none => do
      let (_, m) ← m.add E cpu (putOf seq key value)
      .ok m
  | some (i, entry, old) => do
      let (prevValue, _) ← getLengthPrefixedSlice old
      let newSize := u32 value.length
      if newSize ≤ u32 prevValue.length then
        .ok (m.writeValue i entry old (old.overwrite (putVarint32 newSize ++ value)))
      else do
        let (_, m) ← m.add E cpu (putOf seq key value)
        .ok m

/-- The bytes behind the internal key after a callback has left `b` in the buffer. -/
def writtenInplace (old prevValue behind b : Bytes) : Bytes :=
  let written : Bytes := old.take (old.length - prevValue.length - behind.length) ++
    (prevValue.overwrite b ++ behind)
  if b.length < prevValue.length then written.overwrite (putVarint32 b.length ++ b) else written

/-- `UpdateCallback`. -/
def updateCallback (callback : InplaceCallback) (cpu : ℕ) (seq : SequenceNumber) (key : UserKey)
    (delta : Bytes) : Outcome (Bool × MemTable) := do
  let found ← m.seekPut E key.val seq.val
  match found with
  | none => .ok (false, m)
  | some (i, entry, old) => do
      let (prevValue, behind) ← getLengthPrefixedSlice old
      match callback.call prevValue delta with
      | .updateFailed => .ok (true, m)
      | .updatedInplace b =>
          .ok (true, m.writeValue i entry old (writtenInplace old prevValue behind b))
      | .updated b => do
          let (_, m) ← m.add E cpu (putOf seq key b)
          .ok (true, m)

end MemTable

/-- A write to a memtable with in-place updates. -/
inductive InplaceCall where
  | add (c : MemTableCall)
  | update (seq : SequenceNumber) (key : UserKey) (value : Bytes)
  | updateCallback (seq : SequenceNumber) (key : UserKey) (delta : Bytes)

/-- The key and the sequence number of a write. -/
def MemTableCall.version : MemTableCall → Bytes × ℕ
  | .inl a => a.version
  | .inr r => r.version

namespace InplaceCall

def version : InplaceCall → Bytes × ℕ
  | add c => c.version
  | update seq key _ | updateCallback seq key _ => (key.val, seq.val)

variable (E : MemTableEnv) (callback : InplaceCallback)

def step (t : MemTables) (cpu : ℕ) : InplaceCall → Outcome MemTables
  | add c => do
      let (_, t) ← t.add E cpu c
      .ok t
  | update seq key value => do
      let m ← t.points.update E cpu seq key value
      .ok { t with points := m }
  | updateCallback seq key delta => do
      let (_, m) ← t.points.updateCallback E callback cpu seq key delta
      .ok { t with points := m }

def run : MemTables → List (ℕ × InplaceCall) → Outcome MemTables
  | t, [] => .ok t
  | t, (cpu, c) :: calls => do
      let t ← c.step E callback t cpu
      run t calls

/-! The plaintext map with the same updates, as the writes that lead to it. -/

/-- The value of the key in the map, if it has one. -/
def plainValue (u : Comparator) (done : List (ℕ × MemTableCall)) (seq : SequenceNumber)
    (key : UserKey) : Option Bytes :=
  match (versions u (lookupAt seq key) (pointsOf done)).head? with
  | none => none
  | some a =>
      if a.type = .value ∧
          ¬ a.seq.val < maxCovering u ((rangesOf done).map MemTableEntry.tombstone) seq.val key.val
      then some a.value else none

/-- The new value that a callback gives on the map. -/
def plainAnswer (u : Comparator) (done : List (ℕ × MemTableCall)) (seq : SequenceNumber)
    (key : UserKey) (delta : Bytes) : Option Bytes :=
  (plainValue u done seq key).bind fun v => (callback.call v delta).value?

def plainStep (u : Comparator) (done : List (ℕ × MemTableCall)) (cpu : ℕ) :
    InplaceCall → List (ℕ × MemTableCall)
  | add c => done ++ [(cpu, c)]
  | update seq key value => done ++ [(cpu, .inl (putOf seq key value))]
  | updateCallback seq key delta =>
      match plainAnswer callback u done seq key delta with
      | some b => done ++ [(cpu, .inl (putOf seq key b))]
      | none => done

def plainRun (u : Comparator) :
    List (ℕ × MemTableCall) → List (ℕ × InplaceCall) → List (ℕ × MemTableCall)
  | done, [] => done
  | done, (cpu, c) :: calls => plainRun u (c.plainStep callback u done cpu) calls

/-- A write that neither stops nor writes over what stands for a value: a new value that is
longer than the 28 bytes that stand for the old one, if the newest version of the key is a put,
and a callback that answers on these bytes as on the value, not in place. -/
def Kept (t : MemTables) (done : List (ℕ × MemTableCall)) : InplaceCall → Prop
  | add (.inl a) => AddFits a
  | add (.inr r) => AddFits r ∧ E.cipher.enc E.memtableKey r.value = r.value
  | update seq key value => AddFits (putOf seq key value) ∧
      ∀ a ∈ (versions E.ucmp (lookupAt seq key) (pointsOf done)).head?, a.type = .value →
        28 < value.length
  | updateCallback seq key delta =>
      ∀ c ∈ ((versions E.ucmp (lookupAt seq key) (pointsOf done)).zip
          (t.points.visibleRecords E.ucmp (lookupAt seq key))).head?, c.1.type = .value →
        (∀ b, callback.call c.2 delta ≠ .updatedInplace b) ∧
        (callback.call c.2 delta).value? = plainAnswer callback E.ucmp done seq key delta ∧
        ∀ b, callback.call c.2 delta = .updated b → AddFits (putOf seq key b)

/-- A run of such writes. -/
def RunKept : MemTables → List (ℕ × MemTableCall) → List (ℕ × InplaceCall) → Prop
  | _, _, [] => True
  | t, done, (cpu, c) :: calls => c.Kept E callback t done ∧
      ∀ t', c.step E callback t cpu = .ok t' →
        RunKept t' (c.plainStep callback E.ucmp done cpu) calls

end InplaceCall

section Seek

variable {E : MemTableEnv} {m : MemTable} {adds : List MemTableAdd} {cells : List (MemTableAdd × ℕ)}
  {regions : List (ℕ × ℕ)}

/-- What is sought is the newest version, if it is a put. -/
theorem seekPut_eq (h : TableKeeps E m.table adds cells regions) (seq : SequenceNumber)
    (key : UserKey) :
    ∃ i, m.seekPut E key.val seq.val =
      .ok ((((versions E.ucmp (lookupAt seq key) adds).zip
        (m.visibleRecords E.ucmp (lookupAt seq key))).head?.filter
          fun c => c.1.type = .value).map fun c =>
        (i, putVarint32 c.1.internalKey.length ++ (c.1.internalKey ++ (putVarint32 28 ++ c.2)),
          putVarint32 28 ++ c.2)) := by
  obtain ⟨rest, hrest, hseek⟩ := seekRecords_eq h (lookupAt seq key)
  have hparse : ∀ c : MemTableAdd × ℕ, getLengthPrefixedSlice (recordOf E c.1 c.2) =
      .ok (c.1.internalKey, putVarint32 28 ++ valueRecordOf E c.1 c.2) :=
    fun c => getLengthPrefixedSlice_recordOf E c.1 c.2
  have hlong : ∀ c : MemTableAdd × ℕ, ¬c.1.internalKey.length < kNumInternalBytes := by
    intro c
    rw [length_internalKey]
    exact Nat.not_lt.mpr (Nat.le_add_left _ _)
  have htype : ∀ c : MemTableAdd × ℕ,
      ValueType.ofCode? (extractValueType c.1.internalKey) = some c.1.type := by
    intro c
    have hcode := c.1.type.code_lt
    rw [extractValueType, footer_internalKey, Nat.mul_comm, Nat.mul_add_mod,
      Nat.mod_eq_of_lt hcode, ValueType.ofCode?_code]
  change MemTable.seekRecords E.ucmp m.table (MemTable.lookupKey key.val seq.val) = _ at hseek
  rw [visible_versions h]
  cases hvisible : cells.filter fun c => Visible E.ucmp (lookupAt seq key) c.1 with
  | nil =>
      rw [hvisible, List.nil_append] at hseek
      refine ⟨0, ?_⟩
      rw [MemTable.seekPut, hseek]
      cases rest with
      | nil => rfl
      | cons d rest =>
          have hne : E.ucmp.compare d.1.key key.val ≠ .eq := hrest d rfl
          rw [List.map_cons]
          dsimp only
          rw [hparse, Outcome.ok_bind]
          dsimp only
          rw [if_neg (hlong d), extractUserKey_internalKey, if_neg fun hd => hne hd.1]
          rfl
  | cons c visible =>
      have hc : c ∈ cells.filter fun c => Visible E.ucmp (lookupAt seq key) c.1 := by
        rw [hvisible]
        exact List.mem_cons_self
      have heq : E.ucmp.compare c.1.key key.val = .eq :=
        (visible_iff.mp (List.mem_filter.mp hc).2).1
      rw [hvisible] at hseek
      refine ⟨m.table.length - (((visible ++ rest).map fun c => recordOf E c.1 c.2).length + 1), ?_⟩
      rw [MemTable.seekPut, hseek, List.cons_append, List.map_cons]
      dsimp only
      rw [hparse, Outcome.ok_bind]
      dsimp only
      rw [if_neg (hlong c), extractUserKey_internalKey, htype]
      by_cases hvalue : c.1.type = .value
      · rw [if_pos ⟨heq, congrArg some hvalue⟩]
        simp only [List.map_cons, List.head?_cons, Option.filter_some, hvalue, decide_true, if_true,
          Option.map_some]
        rfl
      · rw [if_neg fun hboth => hvalue (Option.some.inj hboth.2)]
        simp only [List.map_cons, List.head?_cons, Option.filter_some, hvalue, decide_false]
        rfl

theorem head?_versions (h : TableKeeps E m.table adds cells regions) {q : MemTableLookup} :
    (versions E.ucmp q adds).head? =
      ((versions E.ucmp q adds).zip (m.visibleRecords E.ucmp q)).head?.map Prod.fst := by
  rw [visible_versions h, ← map_filter_eq_versions Prod.fst h.perm h.sorted, ← List.head?_map,
    List.map_map]
  rfl

/-- The put that is sought is the newest version, with the 28 bytes that stand for its value. -/
theorem put_of_filter (h : TableKeeps E m.table adds cells regions) {q : MemTableLookup}
    {c : MemTableAdd × Bytes}
    (hc : (((versions E.ucmp q adds).zip (m.visibleRecords E.ucmp q)).head?.filter
      fun c => c.1.type = .value) = some c) :
    ((versions E.ucmp q adds).zip (m.visibleRecords E.ucmp q)).head? = some c ∧
      (versions E.ucmp q adds).head? = some c.1 ∧ c.1.type = .value ∧
      getLengthPrefixedSlice (putVarint32 28 ++ c.2) = .ok (c.2, []) ∧ c.2.length = 28 := by
  obtain ⟨hhead, hvalue⟩ := Option.filter_eq_some_iff.mp hc
  have hmem := List.mem_of_mem_head? hhead
  rw [visible_versions h] at hmem
  obtain ⟨d, -, rfl⟩ := List.mem_map.mp hmem
  refine ⟨hhead, ?_, of_decide_eq_true hvalue, getLengthPrefixedSlice_valueRecordOf E d.1 d.2,
    length_valueRecord _ _ _⟩
  rw [head?_versions h, hhead]
  rfl

end Seek

/-- The two tables hold these writes, and the memory outside their values. -/
def MemTables.Sound (E : MemTableEnv) (t : MemTables) (done : List (ℕ × MemTableCall)) : Prop :=
  ∃ pcells rcells regions, t.Keeps E (pointsOf done) (rangesOf done) pcells rcells regions ∧
    Stored E t.points.memory pcells ∧ Stored E t.points.memory rcells

/-- Each write has a version of its own. -/
def VersionsApart (u : Comparator) (done : List (ℕ × MemTableCall)) : Prop :=
  done.Pairwise fun c d => compareVersions u c.2.version d.2.version ≠ .eq

theorem VersionsApart.distinct {u : Comparator} {done : List (ℕ × MemTableCall)}
    (h : VersionsApart u done) : DistinctCalls u done := by
  constructor
  · unfold pointsOf
    rw [List.pairwise_filterMap]
    apply h.imp
    rintro ⟨_, a | r⟩ ⟨_, b | r'⟩ hne x hx y hy
    · cases hx
      cases hy
      exact hne
    · cases hy
    · cases hx
    · cases hx
  · unfold rangesOf
    rw [List.pairwise_filterMap]
    apply h.imp
    rintro ⟨_, a | r⟩ ⟨_, b | r'⟩ hne x hx y hy
    · cases hx
    · cases hx
    · cases hy
    · cases hx
      cases hy
      exact hne

section Step

variable {E : MemTableEnv} {callback : InplaceCallback} {t : MemTables}
  {done : List (ℕ × MemTableCall)} {c : InplaceCall}

theorem MemTables.Sound.add (h : t.Sound E done) (cpu : ℕ) {call : MemTableCall}
    (hfits : call.Fits) (hhost : done.length < E.host.blocks)
    (hapart : VersionsApart E.ucmp (done ++ [(cpu, call)])) :
    ∃ t', t.add E cpu call = .ok (true, t') ∧ t'.Sound E (done ++ [(cpu, call)]) := by
  obtain ⟨pcells, rcells, regions, hkeeps, hp, hr⟩ := h
  obtain ⟨t', pcells', rcells', regions', hadd, hkeeps', hp', hr'⟩ :=
    hkeeps.add cpu hfits hhost hapart.distinct
  exact ⟨t', hadd, pcells', rcells', regions', hkeeps', hp' hp, hr' hr⟩

/-- A put goes to the table of points. -/
theorem MemTables.Sound.put (h : t.Sound E done) (cpu : ℕ) {a : MemTableAdd} (hfits : AddFits a)
    (hhost : done.length < E.host.blocks)
    (hapart : VersionsApart E.ucmp (done ++ [(cpu, .inl a)])) :
    ∃ m, t.points.add E cpu a = .ok (true, m) ∧
      ({ t with points := m } : MemTables).Sound E (done ++ [(cpu, .inl a)]) := by
  have hcall : MemTableCall.Fits (.inl a) := hfits
  obtain ⟨t', hadd, hsound⟩ := h.add cpu hcall hhost hapart
  obtain ⟨⟨inserted, m⟩, hm, heq⟩ := Outcome.bind_eq_ok.mp hadd
  cases heq
  exact ⟨m, hm, hsound⟩

/-- What a write leaves behind is a write of its version, or none. -/
theorem plainStep_eq (callback : InplaceCallback) (u : Comparator) (done : List (ℕ × MemTableCall)) (cpu : ℕ)
    (c : InplaceCall) :
    c.plainStep callback u done cpu = done ∨ ∃ call : MemTableCall,
      c.plainStep callback u done cpu = done ++ [(cpu, call)] ∧ call.version = c.version := by
  cases c with
  | add c => exact Or.inr ⟨c, rfl, rfl⟩
  | update seq key value => exact Or.inr ⟨_, rfl, rfl⟩
  | updateCallback seq key delta =>
      rw [InplaceCall.plainStep]
      cases InplaceCall.plainAnswer callback u done seq key delta with
      | none => exact Or.inl rfl
      | some b => exact Or.inr ⟨_, rfl, rfl⟩

theorem versionsApart_plainStep (callback : InplaceCallback) {u : Comparator}
    (hdone : VersionsApart u done) (cpu : ℕ) {c : InplaceCall}
    (hnew : ∀ d ∈ done, compareVersions u d.2.version c.version ≠ .eq) :
    VersionsApart u (c.plainStep callback u done cpu) := by
  rcases plainStep_eq callback u done cpu c with heq | ⟨call, heq, hversion⟩
  · rw [heq]
    exact hdone
  · rw [heq]
    apply List.pairwise_append.mpr
    refine ⟨hdone, List.pairwise_singleton _ _, ?_⟩
    intro d hd e he
    rw [List.mem_singleton.mp he, hversion]
    exact hnew d hd

/-- A write that is kept goes through and leaves what the plaintext map holds. -/
theorem MemTables.Sound.step (h : t.Sound E done) (cpu : ℕ) (hkept : c.Kept E callback t done)
    (hhost : done.length < E.host.blocks)
    (hapart : VersionsApart E.ucmp (c.plainStep callback E.ucmp done cpu)) :
    ∃ t', c.step E callback t cpu = .ok t' ∧
      t'.Sound E (c.plainStep callback E.ucmp done cpu) := by
  cases c with
  | add call =>
      have hfits : call.Fits := by
        cases call with
        | inl a => exact hkept
        | inr r => exact hkept.1
      obtain ⟨t', hadd, hsound⟩ := h.add cpu hfits hhost hapart
      refine ⟨t', ?_, hsound⟩
      rw [InplaceCall.step, hadd, Outcome.ok_bind]
  | update seq key value =>
      obtain ⟨hfits, hlong⟩ := hkept
      obtain ⟨m, hadd, hsound⟩ := h.put cpu hfits hhost hapart
      obtain ⟨pcells, rcells, regions, hkeeps, -⟩ := h
      obtain ⟨i, hseek⟩ := seekPut_eq hkeeps.pointTable seq key
      refine ⟨_, ?_, hsound⟩
      rw [InplaceCall.step, MemTable.update, hseek, Outcome.ok_bind]
      cases hfound : ((versions E.ucmp (lookupAt seq key) (pointsOf done)).zip
          (t.points.visibleRecords E.ucmp (lookupAt seq key))).head?.filter
            fun c => c.1.type = .value with
      | none =>
          simp only [Option.map_none, hadd, Outcome.ok_bind]
      | some c =>
          obtain ⟨-, hnewest, hvalue, hparse, hsize⟩ := put_of_filter hkeeps.pointTable hfound
          have hlt := hlong c.1 hnewest hvalue
          have hvalueLe : value.length ≤ kUntrustedBlockSize := hfits.1
          have hnew : u32 value.length = value.length := by
            apply u32_of_lt
            rw [kUntrustedBlockSize] at hvalueLe
            omega
          have hold : u32 c.2.length = 28 := by rw [hsize]; rfl
          have hnot : ¬u32 value.length ≤ u32 c.2.length := by
            rw [hnew, hold]
            omega
          simp only [Option.map_some, hparse, Outcome.ok_bind, hnot, if_false, hadd]
  | updateCallback seq key delta =>
      have hsound := h
      obtain ⟨pcells, rcells, regions, hkeeps, -⟩ := h
      obtain ⟨i, hseek⟩ := seekPut_eq hkeeps.pointTable seq key
      rw [InplaceCall.step, MemTable.updateCallback, hseek, Outcome.ok_bind]
      cases hfound : ((versions E.ucmp (lookupAt seq key) (pointsOf done)).zip
          (t.points.visibleRecords E.ucmp (lookupAt seq key))).head?.filter
            fun c => c.1.type = .value with
      | none =>
          -- the newest version is no put, on the map either
          have hplain : InplaceCall.plainAnswer callback E.ucmp done seq key delta = none := by
            rw [InplaceCall.plainAnswer, InplaceCall.plainValue, head?_versions hkeeps.pointTable]
            rw [Option.filter_eq_none_iff] at hfound
            cases hhead : ((versions E.ucmp (lookupAt seq key) (pointsOf done)).zip
                (t.points.visibleRecords E.ucmp (lookupAt seq key))).head? with
            | none => rfl
            | some c =>
                have htype := hfound c hhead
                rw [decide_eq_true_eq] at htype
                simp only [Option.map_some]
                rw [if_neg fun hboth => htype hboth.1]
                rfl
          rw [InplaceCall.plainStep, hplain]
          exact ⟨t, rfl, hsound⟩
      | some c =>
          obtain ⟨hhead, -, hvalue, hparse, -⟩ := put_of_filter hkeeps.pointTable hfound
          obtain ⟨hinplace, hanswer, hfits⟩ := hkept c hhead hvalue
          simp only [Option.map_some, hparse, Outcome.ok_bind]
          rw [InplaceCall.plainStep, ← hanswer] at hapart ⊢
          cases hcall : callback.call c.2 delta with
          | updateFailed => exact ⟨t, rfl, hsound⟩
          | updatedInplace b => exact absurd hcall (hinplace b)
          | updated b =>
              rw [hcall] at hapart
              obtain ⟨m, hadd, hsound'⟩ := hsound.put cpu (hfits b hcall) hhost hapart
              refine ⟨_, ?_, hsound'⟩
              simp only [hadd, Outcome.ok_bind]

end Step

section Run

variable {E : MemTableEnv} {callback : InplaceCallback} {t : MemTables}
  {done : List (ℕ × MemTableCall)}

/-- The range deletions are not empty, and their end keys are their own ciphertexts. -/
def RangesPlain (E : MemTableEnv) (done : List (ℕ × MemTableCall)) : Prop :=
  ∀ r ∈ rangesOf done, E.ucmp.compare r.key r.value = .lt ∧
    E.cipher.enc E.memtableKey r.value = r.value

/-- `Get` under the range deletions gives what the plaintext gives exactly if the records of the
visible versions stand for it. -/
theorem MemTables.Sound.get_iff (h : t.Sound E done) (hranges : RangesPlain E done)
    (op : AssociativeMergeOperator) (doMerge : Bool) (q : MemTableLookup) {cover : ℕ}
    (hcover : cover =
      maxCovering E.ucmp ((rangesOf done).map MemTableEntry.tombstone) q.snapshot q.key) :
    t.get E (some op) true doMerge q.key q.snapshot =
        .ok (plainGet op doMerge q.key [] kMaxSequenceNumber
          ((versions E.ucmp q (pointsOf done)).map fun a => a.under cover)) ↔
      GetFollows op doMerge q.key true []
        (((versions E.ucmp q (pointsOf done)).zip (t.points.visibleRecords E.ucmp q)).map
          fun c => (c.1.under cover, c.2)) := by
  obtain ⟨pcells, rcells, regions, hkeeps, hp, hr⟩ := h
  have hmax := maxCoveringTombstoneSeq_eq hkeeps hr (fun r hr => (hranges r hr).1) (Or.inl rfl)
    (fun r hr => (hranges r hr).2) q.key q.snapshot
  rw [← hcover] at hmax
  by_cases hempty : pointsOf done = [] ∧ rangesOf done = []
  · have hfirst : t.points.isEmpty = true := decide_eq_true (hkeeps.isEmpty_iff.mpr hempty)
    have hnone : versions E.ucmp q (pointsOf done) = [] := by
      rw [hempty.1]
      rfl
    rw [hnone]
    simp only [MemTables.get, hfirst, if_true]
    exact iff_of_true rfl (Or.inl rfl)
  · have hfirst : ¬t.points.isEmpty = true := by
      rw [MemTable.isEmpty, decide_eq_true_iff, hkeeps.isEmpty_iff]
      exact hempty
    have hintact := hkeeps.pointTable.intact_of_stored hp cover doMerge q
    have hloop := hkeeps.pointTable.getLoop_iff op true cover hintact
    have hget : t.get E (some op) true doMerge q.key q.snapshot =
        (MemTable.getLoop E t.points.memory
          (collected op true doMerge q.key cover [] kMaxSequenceNumber)
          (MemTable.seekRecords E.ucmp t.points.table (MemTable.lookupKey q.key q.snapshot)) >>=
            MemTable.getResult) := by
      rw [MemTables.get, if_neg hfirst, hmax, Outcome.ok_bind]
      rfl
    rw [hget]
    exact hloop

theorem rangesPlain_plainStep (cpu : ℕ) {c : InplaceCall} (h : RangesPlain E done)
    (hkept : c.Kept E callback t done)
    (hvalid : ∀ r, c = .add (.inr r) → E.ucmp.compare r.key r.value = .lt) :
    RangesPlain E (c.plainStep callback E.ucmp done cpu) := by
  have hput : ∀ a : MemTableAdd, RangesPlain E (done ++ [(cpu, .inl a)]) := by
    intro a r hr
    rw [rangesOf_append] at hr
    exact h r (by simpa [rangesOf] using hr)
  cases c with
  | add call =>
      cases call with
      | inl a => exact hput a
      | inr r =>
          intro r' hr'
          rw [InplaceCall.plainStep, rangesOf_append] at hr'
          rcases List.mem_append.mp hr' with hr' | hr'
          · exact h r' hr'
          · obtain rfl : r' = r := by simpa [rangesOf] using hr'
            exact ⟨hvalid r' rfl, hkept.2⟩
  | update seq key value => exact hput _
  | updateCallback seq key delta =>
      rw [InplaceCall.plainStep]
      cases InplaceCall.plainAnswer callback E.ucmp done seq key delta with
      | none => exact h
      | some b => exact hput _

/-- A run of writes that are kept goes through, and leaves what the plaintext map holds. -/
theorem MemTables.Sound.run {calls : List (ℕ × InplaceCall)} (h : t.Sound E done)
    (hranges : RangesPlain E done) (hkept : InplaceCall.RunKept E callback t done calls)
    (hhost : done.length + calls.length ≤ E.host.blocks) (hdone : VersionsApart E.ucmp done)
    (hcalls : calls.Pairwise fun c d => compareVersions E.ucmp c.2.version d.2.version ≠ .eq)
    (hnew : ∀ d ∈ done, ∀ c ∈ calls, compareVersions E.ucmp d.2.version c.2.version ≠ .eq)
    (hvalid : ∀ cpu r, (cpu, .add (.inr r)) ∈ calls → E.ucmp.compare r.key r.value = .lt) :
    ∃ t', InplaceCall.run E callback t calls = .ok t' ∧
      t'.Sound E (InplaceCall.plainRun callback E.ucmp done calls) ∧
      RangesPlain E (InplaceCall.plainRun callback E.ucmp done calls) := by
  induction calls generalizing t done with
  | nil => exact ⟨t, rfl, h, hranges⟩
  | cons call calls ih =>
      obtain ⟨cpu, c⟩ := call
      obtain ⟨hstep, hrest⟩ := hkept
      rw [List.length_cons] at hhost
      have hfresh : ∀ d ∈ done, compareVersions E.ucmp d.2.version c.version ≠ .eq :=
        fun d hd => hnew d hd (cpu, c) List.mem_cons_self
      have hapart := versionsApart_plainStep callback hdone cpu hfresh
      obtain ⟨t', ht', hsound⟩ := h.step cpu hstep (by omega) hapart
      have hplain := rangesPlain_plainStep cpu hranges hstep fun r hr =>
        hvalid cpu r (by rw [hr]; exact List.mem_cons_self)
      obtain ⟨hfirst, htail⟩ := List.pairwise_cons.mp hcalls
      rw [InplaceCall.run, ht', Outcome.ok_bind]
      apply ih hsound hplain (hrest t' ht') _ hapart htail
      · intro d hd c' hc'
        rcases plainStep_eq callback E.ucmp done cpu c with heq | ⟨call, heq, hversion⟩
        · rw [heq] at hd
          exact hnew d hd c' (List.mem_cons_of_mem _ hc')
        · rw [heq] at hd
          rcases List.mem_append.mp hd with hd | hd
          · exact hnew d hd c' (List.mem_cons_of_mem _ hc')
          · rw [List.mem_singleton.mp hd, hversion]
            exact hfirst c' hc'
      · intro cpu' r hr
        exact hvalid cpu' r (List.mem_cons_of_mem _ hr)
      · rcases plainStep_eq callback E.ucmp done cpu c with heq | ⟨call, heq, -⟩
        · rw [heq]
          omega
        · rw [heq, List.length_append, List.length_singleton]
          omega

end Run

end Tweezer
