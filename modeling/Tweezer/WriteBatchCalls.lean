import Tweezer.WriteBatchContents

/-!
# Batches over all the calls that build them

What a batch is for is a list of records, the lists that its save points go back to, and the
list at which its part for the log ends. Every call on the string and on the lengths, counts
and flags that the batch keeps is a call on these lists, and so are the batches that come of
merging others.
-/

namespace Tweezer

structure BatchContents where
  sequence : ℕ
  records : List BatchRecord
  savePoints : List (List BatchRecord)
  walTermPoint : Option (List BatchRecord)

inductive BatchCall where
  | put (columnFamily : UInt32) (key value : Bytes)
  | delete (columnFamily : UInt32) (key : Bytes)
  | singleDelete (columnFamily : UInt32) (key : Bytes)
  | deleteRange (columnFamily : UInt32) (beginKey endKey : Bytes)
  | merge (columnFamily : UInt32) (key value : Bytes)
  | putBlobIndex (columnFamily : UInt32) (key value : Bytes)
  | putLogData (blob : Bytes)
  | insertNoop
  | markEndPrepare (xid : Bytes) (writeAfterCommit unpreparedBatch : Bool)
  | markCommit (xid : Bytes)
  | markRollback (xid : Bytes)
  | clear
  | setSavePoint
  | rollbackToSavePoint
  | popSavePoint
  | markWalTerminationPoint
  | setSequence (seq : ℕ)

namespace BatchCall

def run : BatchCall → WriteBatch → BatchStatus × WriteBatch
  | put cf key value, b => b.put cf key value
  | delete cf key, b => b.delete cf key
  | singleDelete cf key, b => b.singleDelete cf key
  | deleteRange cf beginKey endKey, b => b.deleteRange cf beginKey endKey
  | merge cf key value, b => b.merge cf key value
  | putBlobIndex cf key value, b => b.putBlobIndex cf key value
  | putLogData blob, b => b.putLogData blob
  | insertNoop, b => (.ok, b.insertNoop)
  | markEndPrepare xid writeAfterCommit unpreparedBatch, b =>
      (.ok, b.markEndPrepare xid writeAfterCommit unpreparedBatch)
  | markCommit xid, b => (.ok, b.markCommit xid)
  | markRollback xid, b => (.ok, b.markRollback xid)
  | clear, b => (.ok, b.clear)
  | setSavePoint, b => (.ok, b.setSavePoint)
  | rollbackToSavePoint, b => b.rollbackToSavePoint
  | popSavePoint, b => b.popSavePoint
  | markWalTerminationPoint, b => (.ok, b.markWalTerminationPoint)
  | setSequence seq, b => (.ok, b.setSequence seq)

/-- The format has a length for the strings that the call does not check itself. -/
def Short : BatchCall → Prop
  | delete _ key => key.length < 2 ^ 32
  | singleDelete _ key => key.length < 2 ^ 32
  | deleteRange _ beginKey endKey => beginKey.length < 2 ^ 32 ∧ endKey.length < 2 ^ 32
  | putBlobIndex _ key value => key.length < 2 ^ 32 ∧ value.length < 2 ^ 32
  | putLogData blob => blob.length < 2 ^ 32
  | markEndPrepare xid _ _ => xid.length < 2 ^ 32
  | markCommit xid => xid.length < 2 ^ 32
  | markRollback xid => xid.length < 2 ^ 32
  | _ => True

/-- A prepared section begins with a no-op, and only one that is written before its commit can
be unprepared. -/
def Ready : BatchCall → BatchContents → Prop
  | markEndPrepare _ writeAfterCommit unpreparedBatch, c =>
      c.records.head? = some .noop ∧ ¬ (writeAfterCommit ∧ unpreparedBatch)
  | _, _ => True

end BatchCall

def beginMarker (writeAfterCommit unpreparedBatch : Bool) : BatchRecord :=
  if writeAfterCommit then .beginPrepare
  else if unpreparedBatch then .beginUnprepare else .beginPersistedPrepare

namespace BatchContents

/-- A record more, unless the batch would be too large with it. -/
def add (c : BatchContents) (maxBytes : ℕ) (r : BatchRecord) : BatchStatus × BatchContents :=
  if maxBytes ≠ 0 ∧ maxBytes < WriteBatch.kHeader + (encodeAll (c.records ++ [r])).length then
    (.memoryLimit, c)
  else (.ok, { c with records := c.records ++ [r] })

/-- A record more after the check of its sizes. -/
def addChecked (c : BatchContents) (maxBytes : ℕ) (key value : Bytes) (r : BatchRecord) :
    BatchStatus × BatchContents :=
  match WriteBatch.checkSizes key value with
  | .ok => c.add maxBytes r
  | s => (s, c)

/-- What a call is for. -/
def call (maxBytes : ℕ) : BatchCall → BatchContents → BatchStatus × BatchContents
  | .put cf key value, c => c.addChecked maxBytes key value (.put cf key value)
  | .delete cf key, c => c.add maxBytes (.delete cf key)
  | .singleDelete cf key, c => c.add maxBytes (.singleDelete cf key)
  | .deleteRange cf beginKey endKey, c => c.add maxBytes (.deleteRange cf beginKey endKey)
  | .merge cf key value, c => c.addChecked maxBytes key value (.merge cf key value)
  | .putBlobIndex cf key value, c => c.add maxBytes (.putBlobIndex cf key value)
  | .putLogData blob, c => c.add maxBytes (.logData blob)
  | .insertNoop, c => (.ok, { c with records := c.records ++ [.noop] })
  | .markEndPrepare xid writeAfterCommit unpreparedBatch, c =>
      (.ok, { c with
        records := beginMarker writeAfterCommit unpreparedBatch ::
          (c.records.tail ++ [.endPrepare xid])
        savePoints := [] })
  | .markCommit xid, c => (.ok, { c with records := c.records ++ [.commit xid] })
  | .markRollback xid, c => (.ok, { c with records := c.records ++ [.rollback xid] })
  | .clear, _ => (.ok, ⟨0, [], [], none⟩)
  | .setSavePoint, c => (.ok, { c with savePoints := c.records :: c.savePoints })
  | .rollbackToSavePoint, c => match c.savePoints with
      | [] => (.notFound, c)
      | records :: savePoints => (.ok, { c with records := records, savePoints := savePoints })
  | .popSavePoint, c => match c.savePoints with
      | [] => (.notFound, c)
      | _ :: savePoints => (.ok, { c with savePoints := savePoints })
  | .markWalTerminationPoint, c => (.ok, { c with walTermPoint := some c.records })
  | .setSequence seq, c => (.ok, { c with sequence := u64 seq })

/-- The records that `Append` takes. -/
def appended (c : BatchContents) (walOnly : Bool) : List BatchRecord :=
  if walOnly then c.walTermPoint.getD c.records else c.records

/-- The string of a batch with these records. -/
def rep (c : BatchContents) : Bytes :=
  Bytes.leEncode 8 c.sequence ++ (Bytes.leEncode 4 (u32 (countOf c.records)) ++
    encodeAll c.records)

end BatchContents

/-- The batches that calls can build. Where a part of a batch is appended, the records at its
end are still those of the time at which the end was marked. -/
inductive Built : WriteBatch → BatchContents → Prop where
  | create (maxBytes : ℕ) : Built (WriteBatch.create maxBytes) ⟨0, [], [], none⟩
  | call {b : WriteBatch} {c : BatchContents} (d : BatchCall) :
      Built b c → d.Short → d.Ready c → Built (d.run b).2 (c.call b.maxBytes d).2
  | append {dst src : WriteBatch} {c d : BatchContents} (walOnly : Bool) :
      Built dst c → Built src d → d.appended walOnly <+: d.records →
      Built (dst.append src walOnly) { c with records := c.records ++ d.appended walOnly }

/-! ### The batch of some contents -/

def savePointOf (records : List BatchRecord) : SavePoint :=
  ⟨WriteBatch.kHeader + (encodeAll records).length, u32 (countOf records), flagsOf records⟩

/-- The batch is as it has to be for its contents. -/
structure Holds (b : WriteBatch) (c : BatchContents) : Prop where
  rep : b.rep = c.rep
  contentFlags : b.contentFlags = flagsOf c.records
  savePoints : b.savePoints = c.savePoints.map savePointOf
  walTermPoint : b.walTermPoint = c.walTermPoint.elim ⟨0, 0, 0⟩ savePointOf
  short : ∀ r ∈ c.records, r.Short
  nested : (c.records :: c.savePoints).IsChain fun rs ts => ts <+: rs

theorem BatchContents.length_rep (c : BatchContents) :
    c.rep.length = WriteBatch.kHeader + (encodeAll c.records).length := by
  simp only [rep, List.length_append, Bytes.length_leEncode, WriteBatch.kHeader]
  omega

theorem leEncode_eight_append_drop (n : ℕ) (a : Bytes) :
    (Bytes.leEncode 8 n ++ a).take 8 = Bytes.leEncode 8 n := by
  rw [List.take_left' (Bytes.length_leEncode 8 n)]

/-- The count of a header is replaced, and the rest stays. -/
theorem WriteBatch.setCount_rep {b : WriteBatch} {seq count : ℕ} {rest : Bytes}
    (h : b.rep = Bytes.leEncode 8 seq ++ (Bytes.leEncode 4 count ++ rest)) (n : ℕ) :
    (b.setCount n).rep = Bytes.leEncode 8 seq ++ (Bytes.leEncode 4 (u32 n) ++ rest) := by
  have hdrop : b.rep.drop 12 = rest := by
    rw [h, ← List.append_assoc]
    exact List.drop_left' (by simp)
  rw [setCount]
  dsimp only
  rw [hdrop, h, leEncode_eight_append_drop]

theorem WriteBatch.count_of_rep {b : WriteBatch} {seq count : ℕ} {rest : Bytes}
    (h : b.rep = Bytes.leEncode 8 seq ++ (Bytes.leEncode 4 (u32 count) ++ rest)) :
    b.count = u32 count := by
  have hlt : u32 count < 256 ^ 4 := Nat.mod_lt _ (by decide)
  rw [WriteBatch.count, h,
    Bytes.slice_eq_of_append (Bytes.length_leEncode 8 _) (Bytes.length_leEncode 4 _),
    Bytes.leDecode_leEncode_of_lt hlt]

/-- A batch goes back to records that it has still at its front. -/
theorem WriteBatch.goBack_rep {b : WriteBatch} {seq count : ℕ} {rs : List BatchRecord}
    {t : Bytes}
    (h : b.rep = Bytes.leEncode 8 seq ++ (Bytes.leEncode 4 count ++ (encodeAll rs ++ t))) :
    (b.goBack (savePointOf rs)).rep =
      Bytes.leEncode 8 seq ++ (Bytes.leEncode 4 (u32 (countOf rs)) ++ encodeAll rs) := by
  have htake : b.rep.take (savePointOf rs).size =
      Bytes.leEncode 8 seq ++ (Bytes.leEncode 4 count ++ encodeAll rs) := by
    rw [h, ← List.append_assoc, ← List.append_assoc, ← List.append_assoc]
    apply List.take_left'
    simp only [List.length_append, Bytes.length_leEncode, savePointOf, kHeader]
  have hback := WriteBatch.setCount_rep (b := { b with rep := b.rep.take (savePointOf rs).size })
    htake (savePointOf rs).count
  rw [goBack]
  dsimp only
  rw [hback]
  simp [savePointOf, u32]

namespace Holds

variable {b : WriteBatch} {c : BatchContents}

theorem count (h : Holds b c) : b.count = u32 (countOf c.records) :=
  WriteBatch.count_of_rep h.rep

theorem length_rep (h : Holds b c) :
    b.rep.length = WriteBatch.kHeader + (encodeAll c.records).length := by
  rw [h.rep, c.length_rep]

theorem savePoint (h : Holds b c) : b.savePoint = savePointOf c.records := by
  rw [WriteBatch.savePoint, h.length_rep, h.count, h.contentFlags, savePointOf]

/-- Records more at the end of a batch. -/
theorem append (h : Holds b c) {rs : List BatchRecord} (hrs : ∀ r ∈ rs, r.Short)
    {b' : WriteBatch}
    (hrep : b'.rep = Bytes.leEncode 8 c.sequence ++
      (Bytes.leEncode 4 (u32 (countOf (c.records ++ rs))) ++ encodeAll (c.records ++ rs)))
    (hflags : b'.contentFlags = flagsOf (c.records ++ rs))
    (hpoints : b'.savePoints = b.savePoints) (hterm : b'.walTermPoint = b.walTermPoint) :
    Holds b' { c with records := c.records ++ rs } := by
  refine ⟨hrep, hflags, hpoints.trans h.savePoints, hterm.trans h.walTermPoint, ?_, ?_⟩
  · intro r hr
    rcases List.mem_append.mp hr with hold | hnew
    · exact h.short r hold
    · exact hrs r hnew
  · have hnested := h.nested
    cases hc : c.savePoints with
    | nil => exact List.IsChain.singleton _
    | cons p ps =>
        rw [hc, List.isChain_cons_cons] at hnested
        rw [List.isChain_cons_cons]
        exact ⟨hnested.1.trans (List.prefix_append _ _), hnested.2⟩

/-- `LocalSavePoint::commit` behind a record that was appended. -/
theorem commit (h : Holds b c) {r : BatchRecord} (hr : r.Short) {d : WriteBatch}
    (hrep : d.rep = Bytes.leEncode 8 c.sequence ++
      (Bytes.leEncode 4 (u32 (countOf (c.records ++ [r]))) ++ encodeAll (c.records ++ [r])))
    (hflags : d.contentFlags = flagsOf (c.records ++ [r]))
    (hpoints : d.savePoints = b.savePoints) (hterm : d.walTermPoint = b.walTermPoint)
    (hmax : d.maxBytes = b.maxBytes) :
    (d.commit b.savePoint).1 = (c.add b.maxBytes r).1 ∧
      Holds (d.commit b.savePoint).2 (c.add b.maxBytes r).2 := by
  have hnew : Holds d { c with records := c.records ++ [r] } :=
    h.append (by simpa using hr) hrep hflags hpoints hterm
  rw [WriteBatch.commit, BatchContents.add, hmax, hnew.length_rep]
  by_cases hbig : b.maxBytes ≠ 0 ∧
      b.maxBytes < WriteBatch.kHeader + (encodeAll (c.records ++ [r])).length
  · rw [if_pos hbig, if_pos hbig, h.savePoint]
    refine ⟨rfl, ?_, rfl, hpoints.trans h.savePoints, hterm.trans h.walTermPoint, h.short,
      h.nested⟩
    rw [encodeAll_append] at hrep
    exact WriteBatch.goBack_rep hrep
  · rw [if_neg hbig, if_neg hbig]
    exact ⟨rfl, hnew⟩

/-- A record that counts. -/
theorem addCounted (h : Holds b c) {r : BatchRecord} (hr : r.Short) (hcounts : r.counts = true) :
    (b.addCounted r.encode r.flag).1 = (c.add b.maxBytes r).1 ∧
      Holds (b.addCounted r.encode r.flag).2 (c.add b.maxBytes r).2 := by
  apply h.commit (d := { b.setCount (b.count + 1) with
    rep := (b.setCount (b.count + 1)).rep ++ r.encode
    contentFlags := (b.setCount (b.count + 1)).contentFlags ||| r.flag }) hr
  · have hone : countOf [r] = 1 := by simp [countOf, hcounts]
    rw [WriteBatch.setCount_rep h.rep, h.count, u32_u32_add, countOf_append, hone]
    simp [encodeAll]
  · have hone : flagsOf [r] = r.flag := Nat.or_zero _
    rw [flagsOf_append, hone]
    exact congrArg (· ||| r.flag) h.contentFlags
  · rfl
  · rfl
  · rfl

/-- A record that does not count and is not limited. -/
theorem appendMark (h : Holds b c) {r : BatchRecord} (hr : r.Short) (hcounts : r.counts = false)
    {b' : WriteBatch} (hrep : b'.rep = b.rep ++ r.encode)
    (hflags : b'.contentFlags = b.contentFlags ||| r.flag)
    (hpoints : b'.savePoints = b.savePoints) (hterm : b'.walTermPoint = b.walTermPoint) :
    Holds b' { c with records := c.records ++ [r] } := by
  apply h.append (by simpa using hr) _ _ hpoints hterm
  · have hzero : countOf [r] = 0 := by simp [countOf, hcounts]
    rw [hrep, h.rep, countOf_append, hzero]
    simp [BatchContents.rep, encodeAll]
  · have hone : flagsOf [r] = r.flag := Nat.or_zero _
    rw [hflags, h.contentFlags, flagsOf_append, hone]

theorem checkSizes_ok {key value : Bytes} (h : WriteBatch.checkSizes key value = .ok) :
    key.length < 2 ^ 32 ∧ value.length < 2 ^ 32 := by
  unfold WriteBatch.checkSizes at h
  split_ifs at h with hkey hvalue
  omega

/-- A record that counts, behind the check of its sizes. -/
theorem addChecked (h : Holds b c) {key value : Bytes} {r : BatchRecord}
    (hr : key.length < 2 ^ 32 ∧ value.length < 2 ^ 32 → r.Short) (hcounts : r.counts = true)
    {result : BatchStatus × WriteBatch}
    (hok : WriteBatch.checkSizes key value = .ok → result = b.addCounted r.encode r.flag)
    (hbad : WriteBatch.checkSizes key value ≠ .ok →
      result = (WriteBatch.checkSizes key value, b)) :
    result.1 = (c.addChecked b.maxBytes key value r).1 ∧
      Holds result.2 (c.addChecked b.maxBytes key value r).2 := by
  by_cases hs : WriteBatch.checkSizes key value = .ok
  · have hadd : c.addChecked b.maxBytes key value r = c.add b.maxBytes r := by
      simp [BatchContents.addChecked, hs]
    rw [hok hs, hadd]
    exact h.addCounted (hr (checkSizes_ok hs)) hcounts
  · have hadd : c.addChecked b.maxBytes key value r =
        (WriteBatch.checkSizes key value, c) := by
      unfold BatchContents.addChecked
      split
      · contradiction
      · rfl
    rw [hbad hs, hadd]
    exact ⟨rfl, h⟩

omit b c in
theorem set_kHeader (seq count : ℕ) (x y : UInt8) (rest : Bytes) :
    (Bytes.leEncode 8 seq ++ (Bytes.leEncode 4 count ++ x :: rest)).set WriteBatch.kHeader y =
      Bytes.leEncode 8 seq ++ (Bytes.leEncode 4 count ++ y :: rest) := by
  rw [List.set_append_right _ _ (by rw [Bytes.length_leEncode]; decide), Bytes.length_leEncode,
    List.set_append_right _ _ (by rw [Bytes.length_leEncode]; decide), Bytes.length_leEncode]
  rfl

omit b c in
/-- The flags of a section whose begin marker was set afterwards. -/
theorem flagsOf_prepared (rs : List BatchRecord) (xid : Bytes)
    {writeAfterCommit unpreparedBatch : Bool} (hpolicy : ¬ (writeAfterCommit ∧ unpreparedBatch)) :
    flagsOf (beginMarker writeAfterCommit unpreparedBatch :: (rs ++ [.endPrepare xid])) =
      (flagsOf (.noop :: rs) ||| (ContentFlags.hasEndPrepare ||| ContentFlags.hasBeginPrepare)) |||
        (if unpreparedBatch then ContentFlags.hasBeginUnprepare else 0) := by
  have hrs : ∀ r : BatchRecord, flagsOf (r :: (rs ++ [.endPrepare xid])) =
      r.flag ||| (flagsOf rs ||| ContentFlags.hasEndPrepare) := by
    intro r
    rw [flagsOf, List.foldr_cons, ← flagsOf, flagsOf_append, flagsOf_singleton,
      BatchRecord.flag]
  have hnoop : flagsOf (.noop :: rs) = flagsOf rs := Nat.zero_or _
  rw [hrs, hnoop]
  have hmove : ∀ x y z : ℕ, x ||| (y ||| z) = y ||| (z ||| x) := fun x y z => by
    rw [Nat.or_comm, Nat.or_assoc]
  cases writeAfterCommit <;> cases unpreparedBatch
  · exact (hmove _ _ _).trans (Nat.or_zero _).symm
  · change (ContentFlags.hasBeginPrepare ||| ContentFlags.hasBeginUnprepare) |||
      (flagsOf rs ||| ContentFlags.hasEndPrepare) = _
    rw [hmove, Nat.or_assoc, Nat.or_assoc, ← Nat.or_assoc ContentFlags.hasEndPrepare]
    rfl
  · exact (hmove _ _ _).trans (Nat.or_zero _).symm
  · exact absurd ⟨rfl, rfl⟩ hpolicy

theorem markEndPrepare (h : Holds b c) {xid : Bytes} (hxid : xid.length < 2 ^ 32)
    {writeAfterCommit unpreparedBatch : Bool} (hhead : c.records.head? = some .noop)
    (hpolicy : ¬ (writeAfterCommit ∧ unpreparedBatch)) :
    Holds (b.markEndPrepare xid writeAfterCommit unpreparedBatch)
      (c.call b.maxBytes (.markEndPrepare xid writeAfterCommit unpreparedBatch)).2 := by
  obtain ⟨rs, hrs⟩ : ∃ rs, c.records = .noop :: rs := by
    cases hc : c.records with
    | nil => simp [hc] at hhead
    | cons r rs => exact ⟨rs, by simp_all⟩
  have hshort := h.short
  rw [hrs] at hshort
  refine ⟨?_, ?_, rfl, h.walTermPoint, ?_, List.IsChain.singleton _⟩
  · have hrep : b.rep = Bytes.leEncode 8 c.sequence ++ (Bytes.leEncode 4 (u32 (countOf rs)) ++
        UInt8.ofNat kTypeNoop :: encodeAll rs) := by
      rw [h.rep, BatchContents.rep, hrs]
      rfl
    have hcount : countOf (beginMarker writeAfterCommit unpreparedBatch ::
        (rs ++ [.endPrepare xid])) = countOf rs := by
      cases writeAfterCommit <;> cases unpreparedBatch <;>
        simp [beginMarker, countOf, BatchRecord.counts]
    simp only [WriteBatch.markEndPrepare, BatchContents.call, BatchContents.rep, hrep,
      set_kHeader, hrs, List.tail_cons, hcount, List.append_assoc]
    cases writeAfterCommit <;> cases unpreparedBatch <;>
      simp [beginMarker, BatchRecord.encode, encodeAll]
  · have hflags := h.contentFlags
    rw [hrs] at hflags
    simp only [WriteBatch.markEndPrepare, BatchContents.call, hrs, List.tail_cons,
      flagsOf_prepared rs xid hpolicy, hflags]
    cases unpreparedBatch
    · exact (Nat.or_zero _).symm
    · rfl
  · intro r hr
    simp only [BatchContents.call, hrs, List.tail_cons, List.mem_cons, List.mem_append,
      List.not_mem_nil, or_false] at hr
    rcases hr with rfl | hmem | rfl
    · cases writeAfterCommit <;> cases unpreparedBatch <;> trivial
    · exact hshort r (List.mem_cons_of_mem _ hmem)
    · exact hxid

theorem setSavePoint (h : Holds b c) :
    Holds b.setSavePoint { c with savePoints := c.records :: c.savePoints } := by
  refine ⟨h.rep, h.contentFlags, ?_, h.walTermPoint, h.short, ?_⟩
  · rw [WriteBatch.setSavePoint]
    dsimp only
    rw [h.savePoint, h.savePoints, List.map_cons]
  · exact List.isChain_cons_cons.mpr ⟨List.prefix_refl _, h.nested⟩

theorem dropSavePoint (h : Holds b c) {p : List BatchRecord} {ps : List (List BatchRecord)}
    (hpoints : c.savePoints = p :: ps) : p <+: c.records ∧
      Holds { b with savePoints := ps.map savePointOf } { c with savePoints := ps } := by
  have hnested := h.nested
  rw [hpoints, List.isChain_cons_cons] at hnested
  refine ⟨hnested.1, h.rep, h.contentFlags, rfl, h.walTermPoint, h.short, ?_⟩
  cases ps with
  | nil => exact List.IsChain.singleton _
  | cons q qs =>
      obtain ⟨hp, hq⟩ := List.isChain_cons_cons.mp hnested.2
      exact List.isChain_cons_cons.mpr ⟨hp.trans hnested.1, hq⟩

/-- A batch that goes back to records that it began with. -/
theorem goBack (h : Holds b c) {p : List BatchRecord} (hp : p <+: c.records)
    (hnested : (p :: c.savePoints).IsChain fun rs ts => ts <+: rs) :
    Holds (b.goBack (savePointOf p)) { c with records := p } := by
  obtain ⟨t, ht⟩ := hp
  refine ⟨?_, rfl, h.savePoints, h.walTermPoint, ?_, hnested⟩
  · apply WriteBatch.goBack_rep (t := encodeAll t)
    rw [h.rep, BatchContents.rep, ← ht, encodeAll_append]
  · intro r hr
    exact h.short r (ht ▸ List.mem_append_left t hr)

theorem rollbackToSavePoint (h : Holds b c) :
    b.rollbackToSavePoint.1 = (c.call b.maxBytes .rollbackToSavePoint).1 ∧
      Holds b.rollbackToSavePoint.2 (c.call b.maxBytes .rollbackToSavePoint).2 := by
  cases hc : c.savePoints with
  | nil =>
      have hb : b.savePoints = [] := by rw [h.savePoints, hc, List.map_nil]
      simp only [WriteBatch.rollbackToSavePoint, BatchContents.call, hb, hc]
      exact ⟨trivial, h⟩
  | cons p ps =>
      have hb : b.savePoints = savePointOf p :: ps.map savePointOf := by
        rw [h.savePoints, hc, List.map_cons]
      obtain ⟨hp, hdrop⟩ := h.dropSavePoint hc
      have hnested := h.nested
      rw [hc, List.isChain_cons_cons] at hnested
      simp only [WriteBatch.rollbackToSavePoint, BatchContents.call, hb, hc]
      by_cases hsize : (savePointOf p).size = b.rep.length
      · rw [if_pos hsize]
        -- the records have a string of the same length, so none was added
        have heq : p = c.records := by
          obtain ⟨t, ht⟩ := hp
          have hlen : (encodeAll t).length = 0 := by
            rw [h.length_rep, ← ht, encodeAll_append, List.length_append] at hsize
            simp only [savePointOf] at hsize
            omega
          have hnil : t = [] := List.length_eq_zero_iff.mp
            (Nat.le_zero.mp (hlen ▸ length_le_encodeAll t))
          rw [← ht, hnil, List.append_nil]
        rw [heq]
        exact ⟨rfl, hdrop⟩
      · have hpos : (savePointOf p).size ≠ 0 := by simp [savePointOf, WriteBatch.kHeader]
        rw [if_neg hsize, if_neg hpos]
        exact ⟨rfl, hdrop.goBack hp hnested.2⟩

theorem popSavePoint (h : Holds b c) :
    b.popSavePoint.1 = (c.call b.maxBytes .popSavePoint).1 ∧
      Holds b.popSavePoint.2 (c.call b.maxBytes .popSavePoint).2 := by
  cases hc : c.savePoints with
  | nil =>
      have hb : b.savePoints = [] := by rw [h.savePoints, hc, List.map_nil]
      simp only [WriteBatch.popSavePoint, BatchContents.call, hb, hc]
      exact ⟨trivial, h⟩
  | cons p ps =>
      have hb : b.savePoints = savePointOf p :: ps.map savePointOf := by
        rw [h.savePoints, hc, List.map_cons]
      simp only [WriteBatch.popSavePoint, BatchContents.call, hb, hc]
      exact ⟨trivial, (h.dropSavePoint hc).2⟩

theorem setSequence (h : Holds b c) (seq : ℕ) :
    Holds (b.setSequence seq) { c with sequence := u64 seq } := by
  refine ⟨?_, h.contentFlags, h.savePoints, h.walTermPoint, h.short, h.nested⟩
  rw [WriteBatch.setSequence, BatchContents.rep]
  dsimp only
  rw [h.rep, BatchContents.rep, List.drop_left' (Bytes.length_leEncode 8 _)]

theorem create (maxBytes : ℕ) : Holds (WriteBatch.create maxBytes) ⟨0, [], [], none⟩ :=
  ⟨rfl, rfl, rfl, rfl, fun _ hr => absurd hr List.not_mem_nil, List.IsChain.singleton _⟩

/-- Every call does to the batch what it is for. -/
theorem call (h : Holds b c) (d : BatchCall) (hshort : d.Short) (hready : d.Ready c) :
    (d.run b).1 = (c.call b.maxBytes d).1 ∧ Holds (d.run b).2 (c.call b.maxBytes d).2 := by
  cases d with
  | put cf key value =>
      apply h.addChecked (r := .put cf key value) id rfl
      · intro hs
        simp only [BatchCall.run, WriteBatch.put, hs, BatchRecord.encode, BatchRecord.flag]
      · intro hs
        simp only [BatchCall.run, WriteBatch.put]
  | delete cf key => exact h.addCounted (r := .delete cf key) hshort rfl
  | singleDelete cf key => exact h.addCounted (r := .singleDelete cf key) hshort rfl
  | deleteRange cf beginKey endKey =>
      exact h.addCounted (r := .deleteRange cf beginKey endKey) hshort rfl
  | merge cf key value =>
      apply h.addChecked (r := .merge cf key value) id rfl
      · intro hs
        simp only [BatchCall.run, WriteBatch.merge, hs, BatchRecord.encode, BatchRecord.flag]
      · intro hs
        simp only [BatchCall.run, WriteBatch.merge]
  | putBlobIndex cf key value => exact h.addCounted (r := .putBlobIndex cf key value) hshort rfl
  | putLogData blob =>
      apply h.commit (r := .logData blob) (d := { b with
        rep := b.rep ++ UInt8.ofNat kTypeLogData :: putLengthPrefixedSlice blob }) hshort _ _
        rfl rfl rfl
      · have hzero : countOf [BatchRecord.logData blob] = 0 := rfl
        rw [h.rep, countOf_append, hzero]
        simp [BatchContents.rep, encodeAll, BatchRecord.encode]
      · rw [flagsOf_append, flagsOf_singleton, ← h.contentFlags]
        exact (Nat.or_zero _).symm
  | insertNoop =>
      refine ⟨rfl, ?_⟩
      exact h.appendMark (r := .noop) trivial rfl rfl (Nat.or_zero _).symm rfl rfl
  | markEndPrepare xid writeAfterCommit unpreparedBatch =>
      exact ⟨rfl, h.markEndPrepare hshort hready.1 hready.2⟩
  | markCommit xid => exact ⟨rfl, h.appendMark (r := .commit xid) hshort rfl rfl rfl rfl rfl⟩
  | markRollback xid => exact ⟨rfl, h.appendMark (r := .rollback xid) hshort rfl rfl rfl rfl rfl⟩
  | clear => exact ⟨rfl, create b.maxBytes⟩
  | setSavePoint => exact ⟨rfl, h.setSavePoint⟩
  | rollbackToSavePoint => exact h.rollbackToSavePoint
  | popSavePoint => exact h.popSavePoint
  | markWalTerminationPoint =>
      exact ⟨rfl, h.rep, h.contentFlags, h.savePoints, h.savePoint, h.short, h.nested⟩
  | setSequence seq => exact ⟨rfl, h.setSequence seq⟩

/-- `Append` takes the records of the other batch up to where it is asked to. -/
theorem appendBatch {dst src : WriteBatch} {d : BatchContents} (hdst : Holds dst c)
    (hsrc : Holds src d) (walOnly : Bool) (hpre : d.appended walOnly <+: d.records) :
    Holds (dst.append src walOnly) { c with records := c.records ++ d.appended walOnly } := by
  have hupTo : (if walOnly && !src.walTermPoint.isCleared then src.walTermPoint
      else src.savePoint) = savePointOf (d.appended walOnly) := by
    rw [hsrc.savePoint, hsrc.walTermPoint, BatchContents.appended]
    cases walOnly with
    | false => rfl
    | true => cases hterm : d.walTermPoint with
      | none => rfl
      | some rs => simp [SavePoint.isCleared, savePointOf, WriteBatch.kHeader]
  obtain ⟨t, ht⟩ := hpre
  have htaken : (src.rep.drop WriteBatch.kHeader).take
      ((savePointOf (d.appended walOnly)).size - WriteBatch.kHeader) =
      encodeAll (d.appended walOnly) := by
    have hbody : src.rep.drop WriteBatch.kHeader = encodeAll d.records := by
      rw [hsrc.rep, BatchContents.rep, ← List.append_assoc]
      exact List.drop_left' (by simp [WriteBatch.kHeader])
    rw [hbody, ← ht, encodeAll_append]
    exact List.take_left' (by simp [savePointOf])
  simp only [WriteBatch.append, hupTo, htaken]
  apply hdst.append
  · intro r hr
    exact hsrc.short r (ht ▸ List.mem_append_left t hr)
  · rw [WriteBatch.setCount_rep hdst.rep, hdst.count, encodeAll_append, countOf_append,
      List.append_assoc, List.append_assoc]
    simp [savePointOf, u32]
  · rw [flagsOf_append]
    exact congrArg (· ||| _) hdst.contentFlags
  · rfl
  · rfl

end Holds

theorem Built.holds {b : WriteBatch} {c : BatchContents} (h : Built b c) : Holds b c := by
  induction h with
  | create maxBytes => exact Holds.create maxBytes
  | call d _ hshort hready ih => exact (ih.call d hshort hready).2
  | append walOnly _ _ hpre ihdst ihsrc => exact ihdst.appendBatch ihsrc walOnly hpre

theorem BatchContents.iterate_of_rep {b : WriteBatch} {c : BatchContents} (hrep : b.rep = c.rep)
    (hshort : ∀ r ∈ c.records, r.Short) {σ : Type} (H : Handler σ) (h : σ) :
    b.iterate H h = .ok (visit H c.records true h) := by
  have hlen : b.rep.length = WriteBatch.kHeader + (encodeAll c.records).length := by
    rw [hrep, c.length_rep]
  have hbody : b.rep.drop WriteBatch.kHeader = encodeAll c.records := by
    rw [hrep, BatchContents.rep, ← List.append_assoc]
    exact List.drop_left' (by simp [WriteBatch.kHeader])
  have hcount : u32 (0 + countOf c.records) = b.count := by
    rw [WriteBatch.count_of_rep hrep, Nat.zero_add]
  have hrecords := length_le_encodeAll c.records
  rw [WriteBatch.iterate, if_neg (by omega)]
  simp only [hbody]
  exact iterateLoop_visit c.records hshort _ (by omega) .noop false true 0 hcount h

theorem flagsOf_and {rs : List BatchRecord} (flag : ℕ) :
    flagsOf rs &&& flag ≠ 0 ↔ ∃ r ∈ rs, r.flag &&& flag ≠ 0 := by
  induction rs with
  | nil => simp [flagsOf]
  | cons r rs ih =>
      have hcons : flagsOf (r :: rs) = r.flag ||| flagsOf rs := rfl
      rw [hcons, Nat.and_or_distrib_right, Ne, Nat.or_eq_zero_iff, not_and_or]
      simp only [List.mem_cons, exists_eq_or_imp]
      exact or_congr Iff.rfl ih

theorem flagsOf_deferred (rs : List BatchRecord) : flagsOf rs &&& ContentFlags.deferred = 0 := by
  by_contra h
  obtain ⟨r, -, hr⟩ := (flagsOf_and _).mp h
  apply hr
  cases r <;> (simp only [BatchRecord.flag]; decide)

theorem Holds.has {b : WriteBatch} {c : BatchContents} (h : Holds b c) (flag : ℕ) :
    b.has flag = .ok (decide (∃ r ∈ c.records, r.flag &&& flag ≠ 0)) := by
  rw [WriteBatch.has, WriteBatch.computeContentFlags, h.contentFlags,
    if_neg (not_not.mpr (flagsOf_deferred _))]
  exact congrArg Except.ok (decide_eq_decide.mpr (flagsOf_and flag))

end Tweezer
