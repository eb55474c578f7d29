import Tweezer.MemTableGet

/-!
# Merging the versions of a key in a flush or a compaction

`MergeHelper::MergeUntil` of `db/merge_helper.cc` with `MergeContext`, over an iterator that
begins with a merge operand, and `MergeOutputIterator` over what it leaves. There is no
compaction filter, no range deletion aggregator and no snapshot checker.
-/

namespace Tweezer

/-- What a flush or a compaction uses of a user's `MergeOperator`. A result is none if the
operator reports that it could not merge. -/
structure MergeOperator where
  fullMergeV2 : Bytes → Option Bytes → List Bytes → Option Bytes
  partialMergeMulti : Bytes → List Bytes → Option Bytes
  allowSingleOperand : Bool

/-- Operands can be merged in one go or in two, and what `PartialMergeMulti` makes of some
operands stands for them. -/
structure MergeOperator.Associative (op : MergeOperator) : Prop where
  compose : ∀ key base ops ops', ops ≠ [] → ops' ≠ [] →
    op.fullMergeV2 key base (ops ++ ops') =
      (op.fullMergeV2 key base ops).bind fun v => op.fullMergeV2 key (some v) ops'
  agrees : ∀ key ops p, op.partialMergeMulti key ops = some p → ops ≠ [] →
    ∀ base, op.fullMergeV2 key base [p] = op.fullMergeV2 key base ops

/-- A version of a key. There are no blob files and no timestamps. -/
structure KeyVersion where
  sequence : ℕ
  type : ValueType
  value : Bytes
  type_mem : type ∈ pointTypes
  deriving DecidableEq, Repr

/-- An entry of the input: its key may not parse. -/
inductive InternalEntry where
  | corrupted
  | version (userKey : Bytes) (v : KeyVersion)
  deriving DecidableEq, Repr

/-! ### `MergeContext` -/

/-- The operands, from the newest on if they are reversed. -/
structure MergeContext where
  operandList : List Bytes
  operandsReversed : Bool
  deriving DecidableEq, Repr

namespace MergeContext

def empty : MergeContext := ⟨[], true⟩

def clear (c : MergeContext) : MergeContext := { c with operandList := [] }

def setDirectionForward (c : MergeContext) : MergeContext :=
  if c.operandsReversed then ⟨c.operandList.reverse, false⟩ else c

def setDirectionBackward (c : MergeContext) : MergeContext :=
  if c.operandsReversed then c else ⟨c.operandList.reverse, true⟩

def pushOperand (c : MergeContext) (operand : Bytes) : MergeContext :=
  let c := c.setDirectionBackward
  { c with operandList := c.operandList ++ [operand] }

/-- `GetOperands`: the operands from the oldest on. -/
def operands (c : MergeContext) : List Bytes := c.setDirectionForward.operandList

@[simp] theorem operands_empty : empty.operands = [] := rfl

@[simp] theorem operands_clear (c : MergeContext) : c.clear.operands = [] := by
  cases c with
  | mk l reversed => cases reversed <;> rfl

@[simp] theorem operands_setDirectionForward (c : MergeContext) :
    c.setDirectionForward.operands = c.operands := by
  cases c with
  | mk l reversed => cases reversed <;> rfl

/-- An operand that is pushed is the oldest. -/
@[simp] theorem operands_pushOperand (c : MergeContext) (operand : Bytes) :
    (c.pushOperand operand).operands = operand :: c.operands := by
  cases c with
  | mk l reversed =>
      cases reversed
      · simp [pushOperand, operands, setDirectionBackward, setDirectionForward]
      · simp [pushOperand, operands, setDirectionBackward, setDirectionForward]

end MergeContext

/-! ### `MergeUntil` -/

structure ParsedInternalKey where
  userKey : Bytes
  sequence : ℕ
  type : ValueType
  deriving DecidableEq, Repr

inductive MergeStatus where
  | ok
  | mergeInProgress
  | corruption
  deriving DecidableEq, Repr

/-- The members of `MergeHelper` that `MergeUntil` uses and no call of it changes. -/
structure MergeHelper where
  userComparator : Comparator
  userMergeOperator : MergeOperator
  assertValidInternalKey : Bool

/-- What a call of `MergeUntil` leaves. The keys are those of a deque, the front first. -/
structure MergeOutcome where
  status : MergeStatus
  keys : List ParsedInternalKey
  mergeContext : MergeContext
  iter : List InternalEntry

/-- The loop breaks, having hit another user key or not, or the function returns from it. -/
inductive MergeLoopEnd where
  | break (hitTheNextUserKey : Bool) (o : MergeOutcome)
  | return (o : MergeOutcome)

namespace MergeHelper

variable (H : MergeHelper)

/-- `TimedFullMerge` of operands that are not none, as no call here has none. -/
def timedFullMerge (key : Bytes) (value : Option Bytes) (operands : List Bytes) : Option Bytes :=
  H.userMergeOperator.fullMergeV2 key value operands

/-- A result of merging takes the place of the operands, under the key of the newest. -/
def replaceAll (keys : List ParsedInternalKey) (ctx : MergeContext) (type : ValueType)
    (mergeResult : Bytes) : List ParsedInternalKey × MergeContext :=
  ((keys.getLast?.map fun k => { k with type := type }).toList, ctx.clear.pushOperand mergeResult)

/-- What a version that is not a merge does: the operands are merged over it. -/
def mergeBase (userKey : Bytes) (v : KeyVersion) (keys : List ParsedInternalKey)
    (ctx : MergeContext) (entry : InternalEntry) (rest : List InternalEntry) : MergeOutcome :=
  if keys = [] then ⟨.ok, keys, ctx, entry :: rest⟩
  else
    let val := if v.type = .value then some v.value else none
    match H.timedFullMerge userKey val ctx.operands with
    | some mergeResult =>
        let (keys, ctx) := replaceAll keys ctx .value mergeResult
        ⟨.ok, keys, ctx, rest⟩
    | none => ⟨.corruption, keys, ctx, rest⟩

/-- The loop of `MergeUntil`. -/
def mergeLoop (origUserKey : Bytes) (stopBefore : ℕ) : Bool → List ParsedInternalKey →
    MergeContext → List InternalEntry → MergeLoopEnd
  | _, keys, ctx, [] => .break false ⟨.ok, keys, ctx, []⟩
  | _, keys, ctx, .corrupted :: rest =>
      if H.assertValidInternalKey then .return ⟨.corruption, keys, ctx, .corrupted :: rest⟩
      else .break false ⟨.ok, keys, ctx, .corrupted :: rest⟩
  | firstKey, keys, ctx, .version userKey v :: rest =>
      if firstKey = false ∧ H.userComparator.compare userKey origUserKey ≠ .eq then
        .break true ⟨.ok, keys, ctx, .version userKey v :: rest⟩
      else if firstKey = false ∧ 0 < stopBefore ∧ v.sequence ≤ stopBefore then
        .break false ⟨.ok, keys, ctx, .version userKey v :: rest⟩
      else if v.type ≠ .merge then
        .return (H.mergeBase userKey v keys ctx (.version userKey v) rest)
      else
        mergeLoop origUserKey stopBefore false (⟨userKey, v.sequence, v.type⟩ :: keys)
          (ctx.pushOperand v.value) rest

/-- Merging the operands without a base, in what is surely the whole history of the key. -/
def mergeBeginning (origUserKey : Bytes) (o : MergeOutcome) : MergeOutcome :=
  match H.timedFullMerge origUserKey none o.mergeContext.operands with
  | some mergeResult =>
      let (keys, ctx) := replaceAll o.keys o.mergeContext .value mergeResult
      { o with status := .ok, keys := keys, mergeContext := ctx }
  | none => { o with status := .corruption }

/-- Merging the operands into one, if the operator can. -/
def mergeOperands (origUserKey : Bytes) (o : MergeOutcome) : MergeOutcome :=
  let operands := o.mergeContext.operands
  if 2 ≤ operands.length ∨
      (H.userMergeOperator.allowSingleOperand = true ∧ operands.length = 1) then
    match H.userMergeOperator.partialMergeMulti origUserKey operands with
    | some mergeResult =>
        { o with
          status := .mergeInProgress
          keys := o.keys.getLast?.toList
          mergeContext := o.mergeContext.clear.pushOperand mergeResult }
    | none => { o with status := .mergeInProgress }
  else { o with status := .mergeInProgress }

/-- `MergeUntil`, on an iterator that stands at a merge operand. -/
def mergeUntil (stopBefore : ℕ) (atBottom : Bool) (iter : List InternalEntry) : MergeOutcome :=
  match iter with
  | .version origUserKey _ :: _ =>
      match H.mergeLoop origUserKey stopBefore true [] .empty iter with
      | .return o => o
      | .break hitTheNextUserKey o =>
          if o.mergeContext.operands = [] then o
          else if (hitTheNextUserKey = true ∨ o.iter = []) ∧ atBottom = true then
            H.mergeBeginning origUserKey o
          else H.mergeOperands origUserKey o
  | _ => ⟨.corruption, [], .empty, iter⟩

end MergeHelper

/-- The entries that `MergeOutputIterator` goes over. -/
def MergeOutcome.output (o : MergeOutcome) : List (ParsedInternalKey × Bytes) :=
  o.keys.reverse.zip o.mergeContext.operands.reverse

end Tweezer
