import Tweezer.MemTable

/-!
# Looking a key up in the memtable

`SaveValue`, `MemTable::Get` and what they use of `MergeContext` and `MergeHelper`. A merge
operand that counts as pinned is kept as a reference; the plaintext of an operand lives in a
buffer of the callback, so such a reference outlives what it refers to.
-/

namespace Tweezer

/-- A user's `AssociativeMergeOperator`: `Merge` on the value so far and one operand. -/
structure AssociativeMergeOperator where
  merge : Bytes → Option Bytes → Bytes → Option Bytes

/-- `FullMergeV2`: the operands one by one, oldest first. -/
def AssociativeMergeOperator.fullMergeV2 (op : AssociativeMergeOperator) (key : Bytes) :
    Option Bytes → List Bytes → Option (Option Bytes)
  | existing, [] => some existing
  | existing, operand :: operands =>
      match op.merge key existing operand with
      | none => none
      | some v => op.fullMergeV2 key (some v) operands

/-- `ShouldMerge`, which associative operators leave at its default. -/
def AssociativeMergeOperator.shouldMerge (_ : AssociativeMergeOperator) : Bool := false

inductive GetStatus where
  | ok
  | notFound
  | mergeInProgress
  | corruption
  | invalidArgument
  | notSupported
  deriving DecidableEq, Repr

/-- An entry of the operand list: a copy, a slice of memory that stays, or a slice of a
buffer that is gone once the callback has returned. -/
inductive Operand where
  | copied (b : Bytes)
  | pinned (b : Bytes)
  | dangling
  deriving DecidableEq, Repr

def Operand.read : Operand → Outcome Bytes
  | copied b => .ok b
  | pinned b => .ok b
  | dangling => .error .outOfBuffer

/-- `GetOperands` on a list that was pushed newest first. -/
def readOperands (operands : List Operand) : Outcome (List Bytes) :=
  operands.reverse.mapM Operand.read

structure Saver where
  status : GetStatus
  userKey : Bytes
  foundFinalValue : Bool
  mergeInProgress : Bool
  /-- `none` for a null pointer, otherwise what it points to. -/
  value : Option Bytes
  seq : ℕ
  mergeOperator : Option AssociativeMergeOperator
  operands : List Operand
  maxCoveringTombstoneSeq : ℕ
  inplaceUpdateSupport : Bool
  doMerge : Bool

namespace Saver

/-- `MergeContext::PushOperand` for a slice of memory that stays. -/
def pushOperand (s : Saver) (v : Bytes) : Saver :=
  { s with operands := s.operands ++ [if s.inplaceUpdateSupport then .copied v else .pinned v] }

/-- `MergeContext::PushOperand` for a slice of a local buffer. -/
def pushLocal (s : Saver) (v : Bytes) : Saver :=
  { s with operands := s.operands ++ [if s.inplaceUpdateSupport then .copied v else .dangling] }

/-- `MergeHelper::TimedFullMerge` on the operands collected so far. -/
def fullMerge (s : Saver) (existing : Option Bytes) : Outcome Saver := do
  let operands ← readOperands s.operands
  match s.mergeOperator with
  | none => .error .outOfBuffer
  | some op =>
      match op.fullMergeV2 s.userKey existing operands with
      | some result => .ok { s with status := .ok, value := result }
      | none => .ok { s with status := .corruption }

/-- The value that a base entry gives; `v` is the record in place of the value. -/
def baseValue (E : MemTableEnv) (memory : Memory) (s : Saver) (v : Bytes) : Outcome Saver :=
  if s.mergeInProgress then
    if s.doMerge then
      if s.value.isSome then s.fullMerge (some v) else .ok s
    else .ok (s.pushOperand v)
  else if !s.doMerge then .ok (s.pushOperand v)
  else if s.value.isSome then do
    let (data, tags) ← MemTable.readUntrusted memory v
    .ok { s with value := some (decryption E.cipher data E.memtableKey tags).1 }
  else .ok s

/-- The branch of `SaveValue` for `kTypeValue`. -/
def saveBase (E : MemTableEnv) (memory : Memory) (s : Saver) (v : Bytes) :
    Outcome (Saver × Bool) := do
  let s ← { s with status := .ok }.baseValue E memory v
  .ok ({ s with foundFinalValue := true }, false)

/-- The value that a deletion gives. -/
def deletionValue (s : Saver) : Outcome Saver :=
  if s.mergeInProgress then
    if s.value.isSome then s.fullMerge none else .ok s
  else .ok { s with status := .notFound }

/-- The branch of `SaveValue` for the deletions. -/
def saveDeletion (s : Saver) : Outcome (Saver × Bool) := do
  let s ← s.deletionValue
  .ok ({ s with foundFinalValue := true }, false)

/-- The branch of `SaveValue` for `kTypeMerge`, and whether to go on. -/
def saveMerge (E : MemTableEnv) (memory : Memory) (s : Saver) (v : Bytes) :
    Outcome (Saver × Bool) :=
  match s.mergeOperator with
  | none => .ok ({ s with status := .invalidArgument, foundFinalValue := true }, false)
  | some op => do
      let (data, tags) ← MemTable.readUntrusted memory v
      let (v, _) := decryption E.cipher data E.memtableKey tags
      let s := { s with mergeInProgress := true }.pushLocal v
      if s.doMerge && op.shouldMerge then
        let s ← s.fullMerge none
        .ok ({ s with foundFinalValue := true }, false)
      else .ok (s, true)

end Saver

namespace MemTable

/-- `SaveValue`, and whether to go on to the next entry. -/
def saveValue (E : MemTableEnv) (memory : Memory) (s : Saver) (entry : Bytes) :
    Outcome (Saver × Bool) := do
  let (ikey, rest) ← getLengthPrefixedSlice entry
  if ikey.length < kNumInternalBytes then .error .outOfBuffer
  else if E.ucmp.compare (extractUserKey ikey) s.userKey = .eq then
    let seq := extractInternalKeyFooter ikey / 256
    let s := { s with seq := seq }
    match ValueType.ofCode? (extractValueType ikey) with
    | some .value =>
        if s.maxCoveringTombstoneSeq > seq then s.saveDeletion
        else getLengthPrefixedSlice rest >>= fun (v, _) => s.saveBase E memory v
    | some .merge =>
        if s.maxCoveringTombstoneSeq > seq then s.saveDeletion
        else getLengthPrefixedSlice rest >>= fun (v, _) => s.saveMerge E memory v
    | some .blobIndex =>
        if s.maxCoveringTombstoneSeq > seq then s.saveDeletion
        else .ok ({ s with status := .notSupported, foundFinalValue := true }, false)
    | some .deletion | some .deletionWithTimestamp | some .singleDeletion
    | some .rangeDeletion => s.saveDeletion
    | none => .ok ({ s with status := .corruption }, false)
  else .ok (s, false)

/-- The loop of `SkipListRep::Get`. -/
def getLoop (E : MemTableEnv) (memory : Memory) : Saver → List Bytes → Outcome Saver
  | s, [] => .ok s
  | s, entry :: entries => do
      let (s, more) ← saveValue E memory s entry
      if more then getLoop E memory s entries else .ok s

/-- The key that `LookupKey` seeks for. -/
def lookupKey (key : Bytes) (seq : ℕ) : Bytes :=
  key ++ Bytes.leEncode 8 (packSequenceAndType seq kValueTypeForSeek.code)

/-- The records from the first one not before the target on. -/
def seekRecords (u : Comparator) (table : List Bytes) (target : Bytes) : List Bytes :=
  table.dropWhile fun r => compareRecords u r
    (putVarint32 (u32 target.length) ++ target) = .lt

/-- What a caller of `Get` sees: the result, the sequence number, and the operands that are
left in its merge context, oldest first. -/
structure GetResult where
  found : Bool
  status : GetStatus
  value : Option Bytes
  seq : ℕ
  operands : List Bytes
  deriving DecidableEq, Repr

/-- `Get` starts with a fresh status and merge context. It is asked for a value exactly when
merging is. -/
def newSaver (op : Option AssociativeMergeOperator) (inplaceUpdateSupport doMerge : Bool)
    (key : Bytes) : Saver where
  status := .ok
  userKey := key
  foundFinalValue := false
  mergeInProgress := false
  value := if doMerge then some [] else none
  seq := kMaxSequenceNumber
  mergeOperator := op
  operands := []
  maxCoveringTombstoneSeq := 0
  inplaceUpdateSupport := inplaceUpdateSupport
  doMerge := doMerge

/-- The end of `Get`, and what its caller reads from the merge context. -/
def getResult (s : Saver) : Outcome GetResult := do
  let operands ← readOperands s.operands
  .ok ⟨s.foundFinalValue,
    if !s.foundFinalValue && s.mergeInProgress then .mergeInProgress else s.status,
    if s.foundFinalValue ∧ s.status = .ok then s.value else none, s.seq, operands⟩

def get (E : MemTableEnv) (m : MemTable) (op : Option AssociativeMergeOperator)
    (inplaceUpdateSupport doMerge : Bool) (key : Bytes) (snapshot : ℕ) : Outcome GetResult :=
  let s := newSaver op inplaceUpdateSupport doMerge key
  if m.isEmpty then getResult s
  else do
    let s ← getLoop E m.memory s (seekRecords E.ucmp m.table (lookupKey key snapshot))
    getResult s

end MemTable

end Tweezer
