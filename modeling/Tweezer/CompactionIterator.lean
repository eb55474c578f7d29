import Tweezer.InternalKey

/-!
# The entries that a flush or a compaction keeps

`CompactionIterator` of `db/compaction/compaction_iterator.cc` over values, deletions and single
deletions, without a compaction filter, range tombstones, blob files, timestamps or a snapshot
checker. Assertions and messages to the log are left out.
-/

namespace Tweezer

/-- An internal key with its value. -/
structure CompactionEntry where
  userKey : Bytes
  sequence : ℕ
  type : ValueType
  value : Bytes
  sequence_le : sequence ≤ kMaxSequenceNumber
  type_mem : type ∈ [ValueType.value, .deletion, .singleDeletion]
  deriving DecidableEq, Repr

/-- The entry with the user key as it was first seen, which is equal to its own. -/
def CompactionEntry.withKey (e : CompactionEntry) (userKey : Bytes) : CompactionEntry :=
  { e with userKey := userKey }

/-- What `CompactionProxy` tells of a compaction. The oracle says yes at the bottommost level. -/
structure CompactionProxy where
  bottommostLevel : Bool
  keyNotExistsBeyondOutputLevel : Bytes → Bool
  allowIngestBehind : Bool
  preserveDeletes : Bool
  not_exists : bottommostLevel = true → ∀ key, keyNotExistsBeyondOutputLevel key = true

/-- The members that the constructor sets and nothing changes. A flush has no compaction. The
snapshots are in ascending order, as `SnapshotList::GetAll` lists them, and the write-conflict
snapshot is one of them if there is one. -/
structure CompactionIterator where
  cmp : Comparator
  snapshots : List ℕ
  earliestWriteConflictSnapshot : ℕ
  compaction : Option CompactionProxy
  preserveDeletesSeqnum : ℕ
  ascending : snapshots.Pairwise (· < ·)
  snapshots_le : ∀ s ∈ snapshots, s ≤ kMaxSequenceNumber
  conflict_mem : earliestWriteConflictSnapshot ∈ snapshots ∨
    earliestWriteConflictSnapshot = kMaxSequenceNumber

namespace CompactionIterator

/-- The members that change. The input stands at the first of its entries, and `output` has the
key and the value if the iterator is valid. -/
structure State where
  input : List CompactionEntry
  output : Option CompactionEntry
  atNext : Bool
  hasCurrentUserKey : Bool
  currentUserKey : Bytes
  currentUserKeySnapshot : ℕ
  hasOutputtedKey : Bool
  clearAndOutputNextKey : Bool

def State.init (input : List CompactionEntry) : State where
  input := input
  output := none
  atNext := false
  hasCurrentUserKey := false
  currentUserKey := []
  currentUserKeySnapshot := 0
  hasOutputtedKey := false
  clearAndOutputNextKey := false

variable (C : CompactionIterator)

def earliestSnapshot : ℕ := C.snapshots.head?.getD kMaxSequenceNumber

def bottommostLevel : Bool :=
  match C.compaction with
  | none => false
  | some c => c.bottommostLevel && !c.allowIngestBehind

/-- The earliest snapshot that sees the sequence number: `findEarliestVisibleSnapshot`, and with
no snapshots what is visible at the tip. -/
def earliestVisibleSnapshot (seq : ℕ) : ℕ :=
  (C.snapshots.find? fun s => seq ≤ s).getD kMaxSequenceNumber

/-- The snapshot before it, with 0 for none. -/
def prevSnapshot (seq : ℕ) : ℕ := (C.snapshots.takeWhile fun s => s < seq).getLast?.getD 0

def ikeyNotNeededForIncrementalSnapshot (seq : ℕ) : Bool :=
  match C.compaction with
  | none => false
  | some c => !c.preserveDeletes || seq < C.preserveDeletesSeqnum

/-- Whether there is a compaction whose oracle says that the key is nowhere below. -/
def keyNotExistsBeyondOutputLevel (key : Bytes) : Bool :=
  match C.compaction with
  | none => false
  | some c => c.keyNotExistsBeyondOutputLevel key

def sameUserKey (a b : Bytes) : Bool := C.cmp.compare a b = .eq

/-! ### `NextFromInput` -/

/-- A user key that is not the current one becomes current. -/
def enterUserKey (s : State) (e : CompactionEntry) : State :=
  if s.hasCurrentUserKey && C.sameUserKey e.userKey s.currentUserKey then s
  else { s with
    hasCurrentUserKey := true
    currentUserKey := e.userKey
    currentUserKeySnapshot := 0
    hasOutputtedKey := false }

/-- A single deletion with no version of its key behind it. -/
def singleDeletionAtEnd (s : State) (ikey : CompactionEntry) : State :=
  let s := { s with hasCurrentUserKey := false }
  if C.keyNotExistsBeyondOutputLevel ikey.userKey && ikey.sequence ≤ C.earliestSnapshot then s
  else { s with output := some ikey, atNext := true }

/-- The case of a single deletion, with the input already behind it. -/
def singleDeletion (s : State) (ikey : CompactionEntry) (prevSnapshot : ℕ) : State :=
  match s.input with
  | [] => C.singleDeletionAtEnd s ikey
  | next :: rest =>
      if C.sameUserKey ikey.userKey next.userKey then
        if prevSnapshot = 0 ∨ prevSnapshot < next.sequence then
          if next.type = .singleDeletion then s
          else if s.hasOutputtedKey = true ∨
              ikey.sequence ≤ C.earliestWriteConflictSnapshot then
            { s with input := rest }
          else { s with output := some ikey, atNext := true, clearAndOutputNextKey := true }
        else { s with output := some ikey, atNext := true }
      else C.singleDeletionAtEnd s ikey

/-- The versions of the key behind a deletion that no snapshot tells from it. -/
def skippable (ikey : CompactionEntry) (prevSnapshot : ℕ) (next : CompactionEntry) : Bool :=
  C.sameUserKey ikey.userKey next.userKey &&
    (prevSnapshot = 0 || prevSnapshot < next.sequence)

/-- The case of a deletion at the bottommost level, with the input already behind it. -/
def bottommostDeletion (s : State) (ikey : CompactionEntry) (prevSnapshot : ℕ) : State :=
  let s := { s with input := s.input.dropWhile (C.skippable ikey prevSnapshot) }
  match s.input with
  | [] => s
  | next :: _ =>
      if C.sameUserKey ikey.userKey next.userKey then
        { s with output := some ikey, atNext := true }
      else s

/-- What becomes of the entry `e` in front of `rest`, whose user key is current. -/
def consider (s : State) (e : CompactionEntry) (rest : List CompactionEntry) : State :=
  let ikey := e.withKey s.currentUserKey
  let lastSnapshot := s.currentUserKeySnapshot
  let snapshot := C.earliestVisibleSnapshot ikey.sequence
  let prev := C.prevSnapshot ikey.sequence
  let s := { s with currentUserKeySnapshot := snapshot }
  let behind := { s with input := rest }
  if s.clearAndOutputNextKey then
    { s with output := some { ikey with value := [] }, clearAndOutputNextKey := false }
  else if ikey.type = .singleDeletion then C.singleDeletion behind ikey prev
  else if lastSnapshot = snapshot ∨ (0 < lastSnapshot ∧ lastSnapshot < snapshot) then behind
  else if ikey.type = .deletion ∧ ikey.sequence ≤ C.earliestSnapshot ∧
      C.ikeyNotNeededForIncrementalSnapshot ikey.sequence = true ∧
      C.keyNotExistsBeyondOutputLevel ikey.userKey = true then behind
  else if ikey.type = .deletion ∧ C.bottommostLevel = true ∧
      C.ikeyNotNeededForIncrementalSnapshot ikey.sequence = true then
    C.bottommostDeletion behind ikey prev
  else { s with output := some ikey }

/-- One turn of the loop. -/
def visit (s : State) (e : CompactionEntry) (rest : List CompactionEntry) : State :=
  C.consider (C.enterUserKey s e) e rest

/-- The loop. A turn passes an entry or has an output, so that the length of the input is enough
for `fuel`. -/
def nextLoop : ℕ → State → State
  | 0, s => s
  | fuel + 1, s =>
      match s.output, s.input with
      | none, e :: rest => nextLoop fuel (C.visit s e rest)
      | _, _ => s

def nextFromInput (s : State) : State :=
  C.nextLoop s.input.length { s with atNext := false, output := none }

/-! ### `PrepareOutput`, `SeekToFirst` and `Next` -/

/-- `PrepareOutput` of an entry: the sequence number of what all snapshots see is set to zero at
the bottommost level. -/
def prepare (e : CompactionEntry) : CompactionEntry :=
  if C.bottommostLevel = true ∧ C.ikeyNotNeededForIncrementalSnapshot e.sequence = true ∧
      e.sequence ≤ C.earliestSnapshot then
    { e with sequence := 0, sequence_le := Nat.zero_le _ }
  else e

def prepareOutput (s : State) : State := { s with output := s.output.map C.prepare }

def seekToFirst (s : State) : State := C.prepareOutput (C.nextFromInput s)

def next (s : State) : State :=
  let s := if s.atNext then s else { s with input := s.input.tail }
  let s := C.nextFromInput s
  C.prepareOutput (if s.output.isSome then { s with hasOutputtedKey := true } else s)

/-- The entries that a caller gets: `SeekToFirst`, then `Next` while the iterator is valid. Each
comes from an entry of the input, so that the length of the input is enough for `fuel`. -/
def outputsFrom : ℕ → State → List CompactionEntry
  | 0, _ => []
  | fuel + 1, s =>
      match s.output with
      | none => []
      | some e => e :: outputsFrom fuel (C.next s)

def outputs (input : List CompactionEntry) : List CompactionEntry :=
  C.outputsFrom input.length (C.seekToFirst (State.init input))

end CompactionIterator

end Tweezer
