import Mathlib.Data.List.Nodup
import Tweezer.WriteBatchCalls

/-!
# Inserting a batch into the memtables

`MemTableInserter`, the handler with which a batch is inserted, of `db/write_batch.cc`, without
prepared transactions and for memtables that are not updated in place. A memtable is the list
of its entries in the order in which they were added; it takes no second entry of a key and a
sequence number.
-/

namespace Tweezer

/-- What `MemTable::Add` is given. -/
structure MemEntry where
  seq : ℕ
  type : ValueType
  key : Bytes
  value : Bytes
  deriving DecidableEq, Repr

/-- A column family: what the manifest says of it, what its flushed files hold, its immutable
memtables, the oldest first, each with the log that began behind it, and its memtable. -/
structure ColumnFamily where
  id : UInt32
  name : String
  tableFactoryName : String
  isDeleteRangeSupported : Bool
  userComparator : Comparator
  manifestLogNumber : ℕ
  logNumber : ℕ
  flushed : List MemEntry
  imm : List (List MemEntry × ℕ)
  mem : List MemEntry

namespace ColumnFamily

/-- Whether an entry stands in an entry's way: one of the same table, with its key and its
sequence number. -/
def clashes (cf : ColumnFamily) (d e : MemEntry) : Bool :=
  d.seq = e.seq && cf.userComparator.compare d.key e.key == .eq &&
    (d.type == .rangeDeletion) == (e.type == .rangeDeletion)

/-- `MemTable::Add`, which says whether it added the entry. -/
def add (cf : ColumnFamily) (e : MemEntry) : Bool × ColumnFamily :=
  if cf.mem.any fun d => cf.clashes d e then (false, cf)
  else (true, { cf with mem := cf.mem ++ [e] })

end ColumnFamily

/-- What an inserter is made with. -/
structure InserterOptions where
  ignoreMissingColumnFamilies : Bool
  recoveringLogNumber : ℕ
  seqPerBatch : Bool
  batchPerTxn : Bool

/-- Whether the log that is replayed is older than what the column family has flushed. -/
def InserterOptions.skips (o : InserterOptions) (cf : ColumnFamily) : Bool :=
  o.recoveringLogNumber ≠ 0 && o.recoveringLogNumber < cf.logNumber

/-- `MemTableInserter`, with the column families that it works on. -/
structure MemTableInserter where
  sequence : ℕ
  families : List ColumnFamily
  hasValidWrites : Bool

namespace MemTableInserter

variable (o : InserterOptions)

def maybeAdvanceSeq (batchBoundary : Bool) (h : MemTableInserter) : MemTableInserter :=
  if batchBoundary = o.seqPerBatch then { h with sequence := h.sequence + 1 } else h

/-- `SeekToColumnFamily`: the column family, or what the call returns instead. -/
def seekToColumnFamily (id : UInt32) (h : MemTableInserter) :
    Except BatchStatus ColumnFamily :=
  match h.families.find? (fun cf => cf.id == id) with
  | none => .error (if o.ignoreMissingColumnFamilies then .ok
      else .invalidArgument "Invalid column family specified in write batch")
  | some cf => if o.skips cf then .error .ok else .ok cf

/-- The memtable of a column family is replaced. -/
def setFamily (cf : ColumnFamily) (h : MemTableInserter) : MemTableInserter :=
  { h with families := h.families.map fun d => if d.id = cf.id then cf else d }

/-- An entry for the memtable, and the sequence number behind it. -/
def addEntry (cf : ColumnFamily) (type : ValueType) (key value : Bytes)
    (h : MemTableInserter) : BatchStatus × MemTableInserter :=
  match cf.add ⟨h.sequence, type, key, value⟩ with
  | (true, cf) => (.ok, maybeAdvanceSeq o false (h.setFamily cf))
  | (false, _) =>
      (.tryAgain "key+seq exists", maybeAdvanceSeq o false (maybeAdvanceSeq o true h))

/-- A record of a column family. Where the column family is not to be written to, the sequence
number is used up all the same. -/
def withFamily (id : UInt32) (h : MemTableInserter)
    (write : ColumnFamily → MemTableInserter → BatchStatus × MemTableInserter) :
    BatchStatus × MemTableInserter :=
  match seekToColumnFamily o id h with
  | .error status => (status, maybeAdvanceSeq o false h)
  | .ok cf => write cf { h with hasValidWrites := true }

def putCFImpl (type : ValueType) (id : UInt32) (key value : Bytes) (h : MemTableInserter) :
    BatchStatus × MemTableInserter :=
  withFamily o id h fun cf => addEntry o cf type key value

def putCF (id : UInt32) (key value : Bytes) (h : MemTableInserter) :
    BatchStatus × MemTableInserter := putCFImpl o .value id key value h

def deleteCF (id : UInt32) (key : Bytes) (h : MemTableInserter) :
    BatchStatus × MemTableInserter :=
  withFamily o id h fun cf => addEntry o cf .deletion key []

def singleDeleteCF (id : UInt32) (key : Bytes) (h : MemTableInserter) :
    BatchStatus × MemTableInserter :=
  withFamily o id h fun cf => addEntry o cf .singleDeletion key []

/-- A deletion of a range in its column family, unless the range is empty. -/
def addRange (beginKey endKey : Bytes) (cf : ColumnFamily) (h : MemTableInserter) :
    BatchStatus × MemTableInserter :=
  if ¬ cf.isDeleteRangeSupported then
    (.notSupported ("DeleteRange not supported for table type " ++ cf.tableFactoryName ++
      " in CF " ++ cf.name), h)
  else match cf.userComparator.compare beginKey endKey with
    | .gt => (.invalidArgument "end key comes before start key", h)
    | .eq => (.ok, h)
    | .lt => addEntry o cf .rangeDeletion beginKey endKey h

def deleteRangeCF (id : UInt32) (beginKey endKey : Bytes) (h : MemTableInserter) :
    BatchStatus × MemTableInserter :=
  withFamily o id h (addRange o beginKey endKey)

def mergeCF (id : UInt32) (key value : Bytes) (h : MemTableInserter) :
    BatchStatus × MemTableInserter :=
  withFamily o id h fun cf => addEntry o cf .merge key value

def putBlobIndexCF (id : UInt32) (key value : Bytes) (h : MemTableInserter) :
    BatchStatus × MemTableInserter := putCFImpl o .blobIndex id key value h

def markBeginPrepare (_unprepare : Bool) (h : MemTableInserter) :
    BatchStatus × MemTableInserter :=
  if o.recoveringLogNumber ≠ 0 then
    (.notSupported "WAL contains prepared transactions. Open with TransactionDB::Open().", h)
  else (.ok, h)

/-- `MarkEndPrepare`, `MarkCommit` and `MarkRollback` where no transaction was recovered. -/
def markBoundary (_xid : Bytes) (h : MemTableInserter) : BatchStatus × MemTableInserter :=
  (.ok, maybeAdvanceSeq o true h)

def markNoop (emptyBatch : Bool) (h : MemTableInserter) : BatchStatus × MemTableInserter :=
  (.ok, if emptyBatch then h else maybeAdvanceSeq o true h)

end MemTableInserter

open MemTableInserter in
def memTableInserter (o : InserterOptions) : Handler MemTableInserter where
  putCF := putCF o
  deleteCF := deleteCF o
  singleDeleteCF := singleDeleteCF o
  deleteRangeCF := deleteRangeCF o
  mergeCF := mergeCF o
  putBlobIndexCF := putBlobIndexCF o
  logData _ h := h
  markBeginPrepare := markBeginPrepare o
  markEndPrepare := markBoundary o
  markCommit := markBoundary o
  markRollback := markBoundary o
  markNoop := markNoop o
  continues h := (true, h)
  writeAfterCommit := !o.seqPerBatch
  writeBeforePrepare := !o.batchPerTxn

/-! ### The entries of some records -/

/-- The entry that a record makes, and the column family that it is for. -/
def BatchRecord.entry (seq : ℕ) : BatchRecord → Option (UInt32 × MemEntry)
  | put cf key value => some (cf, ⟨seq, .value, key, value⟩)
  | delete cf key => some (cf, ⟨seq, .deletion, key, []⟩)
  | singleDelete cf key => some (cf, ⟨seq, .singleDeletion, key, []⟩)
  | deleteRange cf beginKey endKey => some (cf, ⟨seq, .rangeDeletion, beginKey, endKey⟩)
  | merge cf key value => some (cf, ⟨seq, .merge, key, value⟩)
  | putBlobIndex cf key value => some (cf, ⟨seq, .blobIndex, key, value⟩)
  | _ => none

/-- The entries of records of which the first has the sequence number `seq`. -/
def entriesFrom : ℕ → List BatchRecord → List (UInt32 × MemEntry)
  | _, [] => []
  | seq, r :: rs => (r.entry seq).toList ++ entriesFrom (seq + if r.counts then 1 else 0) rs

def forFamily (id : UInt32) (entries : List (UInt32 × MemEntry)) : List MemEntry :=
  entries.filterMap fun p => if p.1 = id then some p.2 else none

/-- The column families, each with its entries at the end of its memtable unless the inserter
skips it. -/
def receive (o : InserterOptions) (entries : List (UInt32 × MemEntry)) (cf : ColumnFamily) :
    ColumnFamily :=
  if o.skips cf then cf else { cf with mem := cf.mem ++ forFamily cf.id entries }

/-- The record is no mark of a transaction, it has a column family, and a range of keys that it
deletes is one. -/
def BatchRecord.Acceptable (o : InserterOptions) (families : List ColumnFamily) :
    BatchRecord → Prop
  | put cf _ _ => o.ignoreMissingColumnFamilies ∨ ∃ f ∈ families, f.id = cf
  | delete cf _ => o.ignoreMissingColumnFamilies ∨ ∃ f ∈ families, f.id = cf
  | singleDelete cf _ => o.ignoreMissingColumnFamilies ∨ ∃ f ∈ families, f.id = cf
  | deleteRange cf beginKey endKey =>
      (o.ignoreMissingColumnFamilies ∨ ∃ f ∈ families, f.id = cf) ∧
        ∀ f ∈ families, f.id = cf → f.isDeleteRangeSupported ∧
          f.userComparator.compare beginKey endKey = .lt
  | merge cf _ _ => o.ignoreMissingColumnFamilies ∨ ∃ f ∈ families, f.id = cf
  | putBlobIndex cf _ _ => o.ignoreMissingColumnFamilies ∨ ∃ f ∈ families, f.id = cf
  | logData _ => True
  | noop => True
  | _ => False

/-- No memtable has an entry with this sequence number. -/
def Fresh (families : List ColumnFamily) (seq : ℕ) : Prop :=
  ∀ cf ∈ families, ∀ d ∈ cf.mem, d.seq ≠ seq

section

variable {o : InserterOptions} {families : List ColumnFamily}

@[simp] theorem receive_nil (cf : ColumnFamily) : receive o [] cf = cf := by
  simp [receive, forFamily]

@[simp] theorem map_receive_nil (families : List ColumnFamily) :
    families.map (receive o []) = families :=
  (List.map_congr_left fun cf _ => receive_nil cf).trans (List.map_id _)

theorem receive_of_ne {cf : ColumnFamily} {id : UInt32} (h : cf.id ≠ id) (e : MemEntry) :
    receive o [(id, e)] cf = cf := by
  simp [receive, forFamily, Ne.symm h]

theorem eq_of_id_eq (hids : (families.map ColumnFamily.id).Nodup) {f g : ColumnFamily}
    (hf : f ∈ families) (hg : g ∈ families) (h : f.id = g.id) : f = g :=
  List.inj_on_of_nodup_map hids hf hg h

theorem ColumnFamily.add_fresh {e : MemEntry} (hfresh : Fresh families e.seq)
    {cf : ColumnFamily} (hcf : cf ∈ families) :
    cf.add e = (true, { cf with mem := cf.mem ++ [e] }) := by
  have hnone : cf.mem.any (fun d => cf.clashes d e) = false := by
    rw [List.any_eq_false]
    intro d hd
    simp [ColumnFamily.clashes, hfresh cf hcf d hd]
  rw [ColumnFamily.add, hnone]
  rfl

theorem find_of_mem (hids : (families.map ColumnFamily.id).Nodup) {cf : ColumnFamily}
    (hcf : cf ∈ families) : families.find? (fun f => f.id == cf.id) = some cf := by
  cases hfind : families.find? (fun f => f.id == cf.id) with
  | none => simpa using List.find?_eq_none.mp hfind cf hcf
  | some f =>
      have hid : f.id = cf.id := by simpa using List.find?_some hfind
      rw [eq_of_id_eq hids (List.mem_of_find?_eq_some hfind) hcf hid]

theorem setFamily_received (hids : (families.map ColumnFamily.id).Nodup) {cf : ColumnFamily}
    (hcf : cf ∈ families) (hskip : o.skips cf = false) (e : MemEntry) :
    families.map (fun f => if f.id = cf.id then { cf with mem := cf.mem ++ [e] } else f) =
      families.map (receive o [(cf.id, e)]) := by
  apply List.map_congr_left
  intro f hf
  by_cases hid : f.id = cf.id
  · obtain rfl := eq_of_id_eq hids hf hcf hid
    simp [receive, hskip, forFamily]
  · rw [if_neg hid, receive_of_ne hid]

theorem received_skipped {id : UInt32}
    (h : ∀ cf ∈ families, cf.id = id → o.skips cf = true) (e : MemEntry) :
    families.map (receive o [(id, e)]) = families := by
  conv_rhs => rw [← List.map_id families]
  apply List.map_congr_left
  intro f hf
  by_cases hid : f.id = id
  · simp [receive, h f hf hid]
  · exact receive_of_ne hid e

variable {v : Bool}

/-- What a record of a column family does: its column family receives the entry, if it is there
and not skipped, and the sequence number is used up. -/
theorem withFamily_received (hseq : o.seqPerBatch = false)
    (hids : (families.map ColumnFamily.id).Nodup) {id : UInt32}
    (hthere : o.ignoreMissingColumnFamilies = true ∨ ∃ f ∈ families, f.id = id) {seq : ℕ}
    (hfresh : Fresh families seq) (type : ValueType) (key value : Bytes)
    {write : ColumnFamily → MemTableInserter → BatchStatus × MemTableInserter}
    (hwrite : ∀ cf ∈ families, cf.id = id → ∀ h,
      write cf h = MemTableInserter.addEntry o cf type key value h) :
    ∃ v', MemTableInserter.withFamily o id ⟨seq, families, v⟩ write =
      (.ok, ⟨seq + 1, families.map (receive o [(id, ⟨seq, type, key, value⟩)]), v'⟩) := by
  have hadvance : ∀ h, MemTableInserter.maybeAdvanceSeq o false h =
      { h with sequence := h.sequence + 1 } := fun h => by
    rw [MemTableInserter.maybeAdvanceSeq, if_pos hseq.symm]
  by_cases hcf : ∃ cf ∈ families, cf.id = id
  · obtain ⟨cf, hmem, rfl⟩ := hcf
    have hfind := find_of_mem hids hmem
    cases hskip : o.skips cf with
    | true =>
        refine ⟨v, ?_⟩
        rw [received_skipped]
        · simp [MemTableInserter.withFamily, MemTableInserter.seekToColumnFamily, hfind, hskip,
            hadvance]
        · intro f hf hid
          rwa [eq_of_id_eq hids hf hmem hid]
    | false =>
        refine ⟨true, ?_⟩
        rw [← setFamily_received hids hmem hskip]
        simp [MemTableInserter.withFamily, MemTableInserter.seekToColumnFamily, hfind, hskip,
          hwrite cf hmem rfl, MemTableInserter.addEntry,
          ColumnFamily.add_fresh (e := ⟨seq, type, key, value⟩) hfresh hmem, hadvance,
          MemTableInserter.setFamily]
  · have hnone : families.find? (fun cf => cf.id == id) = none := by
      rw [List.find?_eq_none]
      intro f hf
      simpa using fun hid => hcf ⟨f, hf, hid⟩
    refine ⟨v, ?_⟩
    rw [received_skipped fun f hf hid => absurd ⟨f, hf, hid⟩ hcf]
    simp [MemTableInserter.withFamily, MemTableInserter.seekToColumnFamily, hnone, hadvance,
      hthere.resolve_right hcf]

theorem addRange_of_lt {cf : ColumnFamily} {beginKey endKey : Bytes}
    (hsupported : cf.isDeleteRangeSupported = true)
    (hlt : cf.userComparator.compare beginKey endKey = .lt) (h : MemTableInserter) :
    MemTableInserter.addRange o beginKey endKey cf h =
      MemTableInserter.addEntry o cf .rangeDeletion beginKey endKey h := by
  rw [MemTableInserter.addRange, if_neg (not_not.mpr hsupported), hlt]

/-- What one record does. -/
theorem dispatch_received (hseq : o.seqPerBatch = false)
    (hids : (families.map ColumnFamily.id).Nodup) {r : BatchRecord}
    (hr : r.Acceptable o families) {seq : ℕ}
    (hfresh : r.counts = true → Fresh families seq) (emptyBatch : Bool) :
    ∃ emptyBatch' v', (memTableInserter o).dispatch r emptyBatch ⟨seq, families, v⟩ =
      (.ok, emptyBatch', if r.counts then 1 else 0,
        ⟨seq + (if r.counts then 1 else 0), families.map (receive o (r.entry seq).toList),
          v'⟩) := by
  have hboundary : ∀ h, MemTableInserter.maybeAdvanceSeq o true h = h := fun h => by
    rw [MemTableInserter.maybeAdvanceSeq, hseq, if_neg Bool.true_eq_false_eq_False]
  cases r with
  | put cf key value =>
      obtain ⟨v', hv⟩ := withFamily_received (v := v) hseq hids hr (hfresh rfl) .value
        key value (fun _ _ _ _ => rfl)
      refine ⟨false, v', ?_⟩
      simp [Handler.dispatch, memTableInserter, MemTableInserter.putCF,
        MemTableInserter.putCFImpl, hv, BatchStatus.isOk, BatchRecord.counts, BatchRecord.entry]
  | delete cf key =>
      obtain ⟨v', hv⟩ := withFamily_received (v := v) hseq hids hr (hfresh rfl) .deletion
        key [] (fun _ _ _ _ => rfl)
      refine ⟨false, v', ?_⟩
      simp [Handler.dispatch, memTableInserter, MemTableInserter.deleteCF, hv, BatchStatus.isOk,
        BatchRecord.counts, BatchRecord.entry]
  | singleDelete cf key =>
      obtain ⟨v', hv⟩ := withFamily_received (v := v) hseq hids hr (hfresh rfl)
        .singleDeletion key [] (fun _ _ _ _ => rfl)
      refine ⟨false, v', ?_⟩
      simp [Handler.dispatch, memTableInserter, MemTableInserter.singleDeleteCF, hv,
        BatchStatus.isOk, BatchRecord.counts, BatchRecord.entry]
  | deleteRange cf beginKey endKey =>
      obtain ⟨v', hv⟩ := withFamily_received (v := v) hseq hids hr.1 (hfresh rfl)
        .rangeDeletion beginKey endKey
        fun f hf hid h => addRange_of_lt (hr.2 f hf hid).1 (hr.2 f hf hid).2 h
      refine ⟨false, v', ?_⟩
      simp only [Handler.dispatch, memTableInserter, MemTableInserter.deleteRangeCF, hv]
      rfl
  | merge cf key value =>
      obtain ⟨v', hv⟩ := withFamily_received (v := v) hseq hids hr (hfresh rfl) .merge
        key value (fun _ _ _ _ => rfl)
      refine ⟨false, v', ?_⟩
      simp [Handler.dispatch, memTableInserter, MemTableInserter.mergeCF, hv, BatchStatus.isOk,
        BatchRecord.counts, BatchRecord.entry]
  | putBlobIndex cf key value =>
      obtain ⟨v', hv⟩ := withFamily_received (v := v) hseq hids hr (hfresh rfl) .blobIndex
        key value (fun _ _ _ _ => rfl)
      refine ⟨emptyBatch, v', ?_⟩
      simp [Handler.dispatch, memTableInserter, MemTableInserter.putBlobIndexCF,
        MemTableInserter.putCFImpl, hv, BatchStatus.isOk, BatchRecord.counts, BatchRecord.entry]
  | logData blob =>
      refine ⟨false, v, ?_⟩
      simp [Handler.dispatch, memTableInserter, BatchRecord.counts, BatchRecord.entry]
  | noop =>
      refine ⟨true, v, ?_⟩
      simp [Handler.dispatch, memTableInserter, MemTableInserter.markNoop, hboundary,
        BatchRecord.counts, BatchRecord.entry]
  | _ => exact hr.elim

end

end Tweezer
