import Tweezer.MemTableRanges
import Tweezer.OwnedBuffer

/-!
# The values of a memtable iterator and who keeps them

`MemTableIterator` of `db/memtable.cc` with the buffer that `value` fills, and two callers that
copy a value only where the iterator does not call it pinned: the loop of `FragmentTombstones`
in `db/range_tombstone_fragmenter.cc` and that of `MergeUntil` in `db/merge_helper.cc`.
-/

namespace Tweezer

/-- What a caller has of a value: the slice it was given, or a copy. -/
inductive KeptValue where
  | slice (s : BufferSlice)
  | copy (b : Bytes)
  deriving DecidableEq, Repr

def KeptValue.read (h : BufferHeap UInt8) : KeptValue → Option Bytes
  | slice s => h.read s
  | copy b => some b

/-- An iterator over the records of a memtable. -/
structure MemTableIterator where
  pos : Option ℕ
  tmpBuf : OwnedBuffer UInt8
  valuePinned : Bool

namespace MemTableIterator

/-- A new iterator has no buffer yet. -/
def create (heap : BufferHeap UInt8) (inplaceUpdateSupport : Bool) : MemTableIterator where
  pos := none
  tmpBuf := ⟨heap, none, fun _ h => nomatch h⟩
  valuePinned := !inplaceUpdateSupport

variable (u : Comparator) (m : MemTable)

/-- The moves, those that the skip list's iterator has. -/
inductive Move where
  | seekToFirst
  | seekToLast
  | seek (target : Bytes)
  | next
  | prev
  deriving DecidableEq, Repr

def Move.toOp : Move → OrderedCursor.Op Bytes
  | seekToFirst => .seekToFirst
  | seekToLast => .seekToLast
  | seek target => .seek (putVarint32 (u32 target.length) ++ target)
  | next => .next
  | prev => .prev

/-- Where a move leads. `Next` and `Prev` need an entry to start from. -/
def Move.run (pos : Option ℕ) (mv : Move) : Outcome (Option ℕ) :=
  if mv.toOp.Allowed pos then .ok (OrderedCursor.step (MemTable.compareRecords u) m.table pos mv.toOp)
  else .error .outOfBuffer

def move (it : MemTableIterator) (mv : Move) : Outcome MemTableIterator := do
  let pos ← mv.run u m it.pos
  .ok { it with pos := pos }

/-- The key and the value of an entry. -/
def entryAt (pos : Option ℕ) : Outcome (Bytes × Bytes) :=
  match pos.bind fun i => m.table[i]? with
  | some record => m.iteratorEntry record
  | none => .error .outOfBuffer

def key (it : MemTableIterator) : Outcome Bytes := do
  let (k, _) ← entryAt m it.pos
  .ok k

/-- `value`: a new buffer takes the place of the one before. -/
def value (it : MemTableIterator) : Outcome (BufferSlice × MemTableIterator) := do
  let (_, v) ← entryAt m it.pos
  let (slice, tmpBuf) := it.tmpBuf.reset v
  .ok (slice, { it with tmpBuf := tmpBuf })

/-- What a slice denotes now. -/
def readSlice (it : MemTableIterator) (slice : BufferSlice) : Outcome Bytes :=
  match it.tmpBuf.heap.read slice with
  | some b => .ok b
  | none => .error .outOfBuffer

/-- How a caller keeps a value that looks at `IsValuePinned`. -/
def keep (it : MemTableIterator) (slice : BufferSlice) : Outcome KeptValue :=
  if it.valuePinned then .ok (.slice slice)
  else do
    let b ← it.readSlice slice
    .ok (.copy b)

inductive Op where
  | move (mv : Move)
  | value
  deriving DecidableEq, Repr

/-- A sequence of calls, and the slices that `value` returned. -/
def run (it : MemTableIterator) : List Op → Outcome (List BufferSlice × MemTableIterator)
  | [] => .ok ([], it)
  | .move mv :: ops => do
      let it ← it.move u m mv
      run it ops
  | .value :: ops => do
      let (slice, it) ← it.value m
      let (slices, it) ← run it ops
      .ok (slice :: slices, it)

/-- The values of the entries at which these calls ask for one. -/
def valuesAsked (pos : Option ℕ) : List Op → Outcome (List Bytes)
  | [] => .ok []
  | .move mv :: ops => do
      let pos ← mv.run u m pos
      valuesAsked pos ops
  | .value :: ops => do
      let (_, v) ← entryAt m pos
      let vs ← valuesAsked pos ops
      .ok (v :: vs)

/-- The loop of `FragmentTombstones` that takes the tombstones from the iterator, each with its
end key, for at most `fuel` of them. -/
def takeTombstones : ℕ → MemTableIterator → Outcome (List (Bytes × KeptValue) × MemTableIterator)
  | 0, _ => .error .diverged
  | fuel + 1, it =>
      if it.pos = none then .ok ([], it)
      else do
        let ikey ← it.key m
        let (slice, it) ← it.value m
        let tombstoneEndKey ← it.keep slice
        let it ← it.move u m .next
        let (rest, it) ← takeTombstones fuel it
        .ok ((ikey, tombstoneEndKey) :: rest, it)

def fragmentTombstones (it : MemTableIterator) :
    Outcome (List (Bytes × KeptValue) × MemTableIterator) := do
  let it ← it.move u m .seekToFirst
  takeTombstones u m (m.table.length + 1) it

end MemTableIterator

/-- `CompactionFilter::Decision` for a merge operand. -/
inductive FilterDecision where
  | keep
  | remove
  | changeValue (b : Bytes)
  | removeAndSkipUntil
  deriving DecidableEq, Repr

/-- What the loop of `MergeUntil` depends on beside the iterator. Without a snapshot checker
every sequence number counts as visible in the snapshot, without a filter every operand is kept,
and without a range deletion aggregator none is deleted. -/
structure MergeSettings where
  ucmp : Comparator
  stopBefore : ℕ
  inSnapshot : ℕ → Bool
  latestSnapshot : ℕ
  filterMerge : Bytes → Bytes → FilterDecision
  shouldDelete : Bytes → Bool

/-- How the loop ends. -/
inductive MergeEnd where
  | atEnd
  | corruptedKey
  | nextUserKey
  | earlierSnapshot
  | noOperands
  | base (ikey : Bytes) (value : BufferSlice)
  | skipUntil
  deriving DecidableEq, Repr

/-- `ParseInternalKey`: user key, sequence number and type. -/
def parseInternalKey (ikey : Bytes) : Option (Bytes × ℕ × ValueType) :=
  if ikey.length < kNumInternalBytes then none
  else match ValueType.ofCode? (extractValueType ikey) with
    | some t => some (extractUserKey ikey, extractInternalKeyFooter ikey / 256, t)
    | none => none

namespace MergeSettings

/-- What is done with an operand. -/
def decide (S : MergeSettings) (origUserKey ikey value : Bytes) (seq : ℕ) : FilterDecision :=
  let filter := if seq ≤ S.latestSnapshot then .keep else S.filterMerge origUserKey value
  if filter ≠ .removeAndSkipUntil ∧ S.shouldDelete ikey then .remove else filter

/-- An entry that is not the first one ends the loop. -/
def stops (S : MergeSettings) (origUserKey userKey : Bytes) (seq : ℕ) : Option MergeEnd :=
  if S.ucmp.compare userKey origUserKey ≠ .eq then some .nextUserKey
  else if 0 < S.stopBefore ∧ seq ≤ S.stopBefore ∧ S.inSnapshot seq then some .earlierSnapshot
  else none

/-- What the loop does with an entry: it ends, it takes a base value and ends, or it takes an
operand. -/
inductive Entry where
  | stop (e : MergeEnd)
  | base
  | operand (seq : ℕ)

def entry (S : MergeSettings) (origUserKey : Bytes) (first noOperands : Bool) (ikey : Bytes) :
    Entry :=
  match parseInternalKey ikey with
  | none => .stop .corruptedKey
  | some (userKey, seq, type) =>
      match if first then none else S.stops origUserKey userKey seq with
      | some e => .stop e
      | none =>
          if type = .merge then .operand seq
          else if noOperands then .stop .noOperands
          else .base

end MergeSettings

namespace MemTableIterator

variable (u : Comparator) (m : MemTable) (S : MergeSettings) (origUserKey : Bytes)

/-- `PushOperand`, with the key of the entry. -/
def pushOperand (it : MemTableIterator) (operands : List (Bytes × KeptValue)) (ikey : Bytes)
    (slice : BufferSlice) : FilterDecision → Outcome (List (Bytes × KeptValue))
  | .keep => do
      let kept ← it.keep slice
      .ok (operands ++ [(ikey, kept)])
  | .changeValue b => .ok (operands ++ [(ikey, .copy b)])
  | .remove => .ok operands
  | .removeAndSkipUntil => .ok []

/-- The loop of `MergeUntil`, for at most `fuel` entries, with the operands that it has
collected. -/
def mergeLoop : ℕ → Bool → List (Bytes × KeptValue) → MemTableIterator →
    Outcome (MergeEnd × List (Bytes × KeptValue) × MemTableIterator)
  | 0, _, _, _ => .error .diverged
  | fuel + 1, first, operands, it =>
      if it.pos = none then .ok (.atEnd, operands, it)
      else do
        let ikey ← it.key m
        match S.entry origUserKey first operands.isEmpty ikey with
        | .stop e => .ok (e, operands, it)
        | .base => do
            let (slice, it) ← it.value m
            .ok (.base ikey slice, operands, it)
        | .operand seq => do
            let (slice, it) ← it.value m
            let v ← it.readSlice slice
            let decision := S.decide origUserKey ikey v seq
            let operands ← it.pushOperand operands ikey slice decision
            if decision = .removeAndSkipUntil then .ok (.skipUntil, operands, it)
            else do
              let it ← it.move u m .next
              mergeLoop fuel false operands it

/-- `MergeUntil` up to where it has collected its operands. -/
def mergeUntil (it : MemTableIterator) :
    Outcome (MergeEnd × List (Bytes × KeptValue) × MemTableIterator) := do
  let originalKey ← it.key m
  mergeLoop u m S (extractUserKey originalKey) (m.table.length + 1) true [] it

end MemTableIterator

/-- A value that `MergeUntil` asks for, and what it does with it. -/
structure MergeCall where
  ikey : Bytes
  value : Bytes
  decision : FilterDecision
  deriving DecidableEq, Repr

namespace MergeCall

/-- The operand that comes of it. -/
def operand (c : MergeCall) : Option (Bytes × Bytes) :=
  match c.decision with
  | .keep => some (c.ikey, c.value)
  | .changeValue b => some (c.ikey, b)
  | .remove | .removeAndSkipUntil => none

/-- The slice or the copy that stands for it. -/
def kept (slice : BufferSlice) (c : MergeCall) : Option (Bytes × KeptValue) :=
  match c.decision with
  | .keep => some (c.ikey, .slice slice)
  | .changeValue b => some (c.ikey, .copy b)
  | .remove | .removeAndSkipUntil => none

def dropped (c : MergeCall) : MergeCall := { c with decision := .remove }

/-- The operands of a list of calls that returned these slices. -/
def keptOf (slices : List BufferSlice) (calls : List MergeCall) : List (Bytes × KeptValue) :=
  (slices.zip calls).filterMap fun r => r.2.kept r.1

end MergeCall

namespace MemTableIterator

variable (u : Comparator) (m : MemTable)

/-- The internal keys and values from an entry on. -/
def entriesFrom : ℕ → Option ℕ → Outcome (List (Bytes × Bytes))
  | 0, _ => .error .diverged
  | fuel + 1, pos =>
      if pos = none then .ok []
      else do
        let e ← entryAt m pos
        let pos ← Move.next.run u m pos
        let rest ← entriesFrom fuel pos
        .ok (e :: rest)

/-- The calls of `value` that the loop of `MergeUntil` makes, by the entries alone. -/
def mergeCalls (S : MergeSettings) (origUserKey : Bytes) :
    ℕ → Bool → List MergeCall → Option ℕ → Outcome (List MergeCall)
  | 0, _, _, _ => .error .diverged
  | fuel + 1, first, calls, pos =>
      if pos = none then .ok calls
      else do
        let (ikey, v) ← entryAt m pos
        match S.entry origUserKey first (calls.filterMap MergeCall.operand).isEmpty ikey with
        | .stop _ => .ok calls
        | .base => .ok (calls ++ [⟨ikey, v, .remove⟩])
        | .operand seq => do
            let c : MergeCall := ⟨ikey, v, S.decide origUserKey ikey v seq⟩
            if c.decision = .removeAndSkipUntil then .ok (calls.map MergeCall.dropped ++ [c])
            else do
              let pos ← Move.next.run u m pos
              mergeCalls S origUserKey fuel false (calls ++ [c]) pos

/-- The calls of `value` by `MergeUntil`. -/
def mergeUntilCalls (S : MergeSettings) (pos : Option ℕ) : Outcome (List MergeCall) := do
  let (originalKey, _) ← entryAt m pos
  mergeCalls u m S (extractUserKey originalKey) (m.table.length + 1) true [] pos

variable {u m} {it it' : MemTableIterator}

section Calls

theorem move_eq {mv : Move} (h : it.move u m mv = .ok it') :
    mv.run u m it.pos = .ok it'.pos ∧ it'.tmpBuf = it.tmpBuf ∧ it'.valuePinned = it.valuePinned := by
  obtain ⟨pos, hpos, hit⟩ := Outcome.bind_eq_ok.mp h
  cases hit
  exact ⟨hpos, rfl, rfl⟩

theorem value_eq {slice : BufferSlice} (h : it.value m = .ok (slice, it')) :
    ∃ k v, entryAt m it.pos = .ok (k, v) ∧ slice = (it.tmpBuf.reset v).1 ∧
      it' = { it with tmpBuf := (it.tmpBuf.reset v).2 } := by
  obtain ⟨⟨k, v⟩, hentry, hit⟩ := Outcome.bind_eq_ok.mp h
  cases hit
  exact ⟨k, v, hentry, rfl, rfl⟩

theorem key_eq {k : Bytes} (h : it.key m = .ok k) : ∃ v, entryAt m it.pos = .ok (k, v) := by
  obtain ⟨⟨k, v⟩, hentry, hk⟩ := Outcome.bind_eq_ok.mp h
  cases hk
  exact ⟨v, hentry⟩

theorem keep_of_pinned (hpinned : it.valuePinned = true) (slice : BufferSlice) :
    it.keep slice = .ok (.slice slice) := by
  rw [keep, if_pos hpinned]

/-- A run leaves the buffer as replacing it for the values that were asked for does. -/
theorem run_eq {ops : List Op} {slices : List BufferSlice} (h : it.run u m ops = .ok (slices, it')) :
    ∃ vs, valuesAsked u m it.pos ops = .ok vs ∧ (slices, it'.tmpBuf) = it.tmpBuf.resets vs := by
  induction ops generalizing it slices with
  | nil =>
      cases h
      exact ⟨[], rfl, rfl⟩
  | cons op ops ih =>
      cases op with
      | move mv =>
          obtain ⟨it₁, hmove, hrest⟩ := Outcome.bind_eq_ok.mp h
          obtain ⟨hpos, hbuf, -⟩ := move_eq hmove
          obtain ⟨vs, hvs, heq⟩ := ih hrest
          refine ⟨vs, ?_, hbuf ▸ heq⟩
          rw [valuesAsked, hpos, Outcome.ok_bind]
          exact hvs
      | value =>
          obtain ⟨⟨slice, it₁⟩, hvalue, hrest⟩ := Outcome.bind_eq_ok.mp h
          obtain ⟨⟨rest, it₂⟩, hrun, hend⟩ := Outcome.bind_eq_ok.mp hrest
          cases hend
          obtain ⟨k, v, hentry, rfl, rfl⟩ := value_eq hvalue
          obtain ⟨vs, hvs, heq⟩ := ih hrun
          refine ⟨v :: vs, ?_, ?_⟩
          · rw [valuesAsked, hentry, Outcome.ok_bind]
            dsimp only
            dsimp only at hvs
            rw [hvs, Outcome.ok_bind]
          · rw [OwnedBuffer.resets, ← heq]

/-- The loop of `FragmentTombstones` keeps the slice of every entry. -/
theorem takeTombstones_eq {fuel : ℕ} {taken : List (Bytes × KeptValue)}
    (hpinned : it.valuePinned = true) (h : it.takeTombstones u m fuel = .ok (taken, it')) :
    ∃ es, entriesFrom u m fuel it.pos = .ok es ∧
      it'.tmpBuf = (it.tmpBuf.resets (es.map Prod.snd)).2 ∧
      taken = ((it.tmpBuf.resets (es.map Prod.snd)).1.zip es).map
        (fun r => (r.2.1, .slice r.1)) := by
  induction fuel generalizing it taken with
  | zero => cases h
  | succ fuel ih =>
      rw [takeTombstones] at h
      rw [entriesFrom]
      split_ifs at h ⊢ with hpos
      · cases h
        exact ⟨[], rfl, rfl, rfl⟩
      · obtain ⟨ikey, hkey, h⟩ := Outcome.bind_eq_ok.mp h
        obtain ⟨⟨slice, it₁⟩, hvalue, h⟩ := Outcome.bind_eq_ok.mp h
        obtain ⟨kept, hkeep, h⟩ := Outcome.bind_eq_ok.mp h
        obtain ⟨it₂, hmove, h⟩ := Outcome.bind_eq_ok.mp h
        obtain ⟨⟨rest, it₃⟩, hrest, hend⟩ := Outcome.bind_eq_ok.mp h
        cases hend
        obtain ⟨v', hentry'⟩ := key_eq hkey
        obtain ⟨k, v, hentry, rfl, rfl⟩ := value_eq hvalue
        obtain ⟨rfl, -⟩ := Prod.mk.inj (Except.ok.inj (hentry.symm.trans hentry'))
        obtain ⟨hnext, hbuf, hpin⟩ := move_eq hmove
        rw [keep_of_pinned (by exact hpinned)] at hkeep
        cases hkeep
        obtain ⟨es, hes, hbuf', htaken⟩ := ih (hpin.trans hpinned) hrest
        refine ⟨(k, v) :: es, ?_, ?_, ?_⟩
        · dsimp only at hnext
          rw [hentry, Outcome.ok_bind, hnext, Outcome.ok_bind, hes, Outcome.ok_bind]
        · rw [hbuf', hbuf]
          rfl
        · rw [htaken, hbuf]
          rfl

end Calls

end MemTableIterator

namespace MergeCall

theorem kept_isSome (slice : BufferSlice) (c : MergeCall) :
    (c.kept slice).isSome = c.operand.isSome := by
  unfold kept operand
  cases c.decision <;> rfl

theorem keptOf_append {slices slices' : List BufferSlice} {calls calls' : List MergeCall}
    (h : slices.length = calls.length) :
    keptOf (slices ++ slices') (calls ++ calls') = keptOf slices calls ++ keptOf slices' calls' := by
  rw [keptOf, List.zip_append h, List.filterMap_append]
  rfl

theorem keptOf_cons (slice : BufferSlice) (slices : List BufferSlice) (c : MergeCall)
    (calls : List MergeCall) :
    keptOf (slice :: slices) (c :: calls) = (c.kept slice).toList ++ keptOf slices calls := by
  rw [keptOf, List.zip_cons_cons, List.filterMap_cons]
  cases c.kept slice <;> rfl

theorem keptOf_isEmpty {slices : List BufferSlice} {calls : List MergeCall}
    (h : slices.length = calls.length) :
    (keptOf slices calls).isEmpty = (calls.filterMap operand).isEmpty := by
  induction calls generalizing slices with
  | nil =>
      rw [keptOf, List.zip_nil_right]
      rfl
  | cons c calls ih =>
      cases slices with
      | nil => cases h
      | cons slice slices =>
          have hsome := c.kept_isSome slice
          rw [keptOf_cons, List.filterMap_cons]
          cases hkept : c.kept slice <;> cases hoperand : c.operand
          · exact ih (Nat.succ.inj h)
          · rw [hkept, hoperand] at hsome
            cases hsome
          · rw [hkept, hoperand] at hsome
            cases hsome
          · rfl

theorem keptOf_eq_nil (slices : List BufferSlice) {calls : List MergeCall}
    (h : ∀ c ∈ calls, c.operand = none) : keptOf slices calls = [] := by
  rw [keptOf, List.filterMap_eq_nil_iff]
  intro r hr
  have hsome := r.2.kept_isSome r.1
  rw [h r.2 (List.of_mem_zip hr).2] at hsome
  exact Option.not_isSome_iff_eq_none.mp (by simp [hsome])

end MergeCall

namespace MemTableIterator

variable {u : Comparator} {m : MemTable} {S : MergeSettings} {origUserKey : Bytes}

theorem readSlice_of_reset (it : MemTableIterator) (v : Bytes) :
    ({ it with tmpBuf := (it.tmpBuf.reset v).2 } : MemTableIterator).readSlice
      (it.tmpBuf.reset v).1 = .ok v := by
  rw [readSlice]
  dsimp only
  rw [OwnedBuffer.read_reset]

/-- One more call takes one more slice, and replaces the buffer. -/
theorem resets_call {o : OwnedBuffer UInt8} {calls : List MergeCall} {it : MemTableIterator}
    (hbuf : it.tmpBuf = (o.resets (calls.map MergeCall.value)).2) (c : MergeCall) :
    (o.resets ((calls ++ [c]).map MergeCall.value)).2 = (it.tmpBuf.reset c.value).2 ∧
      MergeCall.keptOf (o.resets ((calls ++ [c]).map MergeCall.value)).1 (calls ++ [c]) =
        MergeCall.keptOf (o.resets (calls.map MergeCall.value)).1 calls ++
          (c.kept (it.tmpBuf.reset c.value).1).toList := by
  have hlength : (o.resets (calls.map MergeCall.value)).1.length = calls.length := by
    rw [OwnedBuffer.length_resets, List.length_map]
  rw [List.map_append, List.map_singleton, OwnedBuffer.resets_concat, ← hbuf]
  refine ⟨rfl, ?_⟩
  rw [MergeCall.keptOf_append hlength, MergeCall.keptOf_cons]
  exact congrArg _ (List.append_nil _)

theorem pushOperand_eq {it : MemTableIterator} (hpinned : it.valuePinned = true)
    (operands : List (Bytes × KeptValue)) (slice : BufferSlice) (c : MergeCall)
    (hskip : c.decision ≠ .removeAndSkipUntil) :
    it.pushOperand operands c.ikey slice c.decision = .ok (operands ++ (c.kept slice).toList) := by
  unfold pushOperand MergeCall.kept
  cases hd : c.decision with
  | keep =>
      dsimp only
      rw [keep_of_pinned hpinned, Outcome.ok_bind]
      rfl
  | changeValue b => rfl
  | remove => exact congrArg _ (List.append_nil operands).symm
  | removeAndSkipUntil => exact absurd hd hskip

/-- The loop of `MergeUntil` leaves the buffer as replacing it for the values it asks for does,
and its operands are those of these calls. -/
theorem mergeLoop_eq {o : OwnedBuffer UInt8} {fuel : ℕ} {first : Bool} {calls : List MergeCall}
    {operands operands' : List (Bytes × KeptValue)} {it it' : MemTableIterator} {e : MergeEnd}
    (hpinned : it.valuePinned = true)
    (hbuf : it.tmpBuf = (o.resets (calls.map MergeCall.value)).2)
    (hoperands : operands = MergeCall.keptOf (o.resets (calls.map MergeCall.value)).1 calls)
    (h : it.mergeLoop u m S origUserKey fuel first operands = .ok (e, operands', it')) :
    ∃ calls', mergeCalls u m S origUserKey fuel first calls it.pos = .ok calls' ∧
      it'.tmpBuf = (o.resets (calls'.map MergeCall.value)).2 ∧
      operands' = MergeCall.keptOf (o.resets (calls'.map MergeCall.value)).1 calls' := by
  induction fuel generalizing first calls operands it with
  | zero => cases h
  | succ fuel ih =>
      rw [mergeLoop] at h
      rw [mergeCalls]
      split_ifs at h ⊢ with hpos
      · cases h
        exact ⟨calls, rfl, hbuf, hoperands⟩
      obtain ⟨ikey, hkey, h⟩ := Outcome.bind_eq_ok.mp h
      obtain ⟨v, hentry⟩ := key_eq hkey
      rw [hentry, Outcome.ok_bind]
      dsimp only at h ⊢
      have hempty : operands.isEmpty = (calls.filterMap MergeCall.operand).isEmpty := by
        rw [hoperands]
        apply MergeCall.keptOf_isEmpty
        rw [OwnedBuffer.length_resets, List.length_map]
      rw [← hempty]
      cases hstep : S.entry origUserKey first operands.isEmpty ikey with
      | stop e' =>
          rw [hstep] at h
          cases h
          exact ⟨calls, rfl, hbuf, hoperands⟩
      | base =>
          rw [hstep] at h
          obtain ⟨⟨slice, it₁⟩, hvalue, hend⟩ := Outcome.bind_eq_ok.mp h
          cases hend
          obtain ⟨k, v', hentry', rfl, rfl⟩ := value_eq hvalue
          obtain ⟨rfl, rfl⟩ := Prod.mk.inj (Except.ok.inj (hentry.symm.trans hentry'))
          obtain ⟨hbuf', hkept⟩ := resets_call hbuf ⟨ikey, v, .remove⟩
          refine ⟨_, rfl, hbuf'.symm, ?_⟩
          rw [hkept, ← hoperands]
          exact (List.append_nil _).symm
      | operand seq =>
          rw [hstep] at h
          obtain ⟨⟨slice, it₁⟩, hvalue, h⟩ := Outcome.bind_eq_ok.mp h
          obtain ⟨k, v', hentry', rfl, rfl⟩ := value_eq hvalue
          obtain ⟨rfl, rfl⟩ := Prod.mk.inj (Except.ok.inj (hentry.symm.trans hentry'))
          dsimp only at h
          rw [readSlice_of_reset, Outcome.ok_bind] at h
          dsimp only
          generalize S.decide origUserKey ikey v seq = d at h ⊢
          obtain ⟨operands₁, hpush, h⟩ := Outcome.bind_eq_ok.mp h
          obtain ⟨hbuf', hkept⟩ := resets_call hbuf ⟨ikey, v, d⟩
          by_cases hskip : d = .removeAndSkipUntil
          · rw [if_pos hskip] at h ⊢
            rw [hskip] at hpush
            cases hpush
            cases h
            obtain ⟨c, hc⟩ : ∃ c : MergeCall, c = ⟨ikey, v, d⟩ := ⟨_, rfl⟩
            rw [← hc] at hbuf' ⊢
            have hvalues : (calls.map MergeCall.dropped ++ [c]).map MergeCall.value =
                (calls ++ [c]).map MergeCall.value := by
              rw [List.map_append, List.map_append, List.map_map]
              rfl
            refine ⟨_, rfl, ?_, ?_⟩
            · rw [hvalues, hbuf', hc]
            · apply Eq.symm
              apply MergeCall.keptOf_eq_nil
              intro d' hd'
              rcases List.mem_append.mp hd' with hd' | hd'
              · obtain ⟨d'', -, rfl⟩ := List.mem_map.mp hd'
                rfl
              · rw [List.mem_singleton.mp hd', hc, hskip]
                rfl
          · rw [if_neg hskip] at h ⊢
            obtain ⟨it₂, hmove, hloop⟩ := Outcome.bind_eq_ok.mp h
            obtain ⟨hnext, hbuf₂, hpin₂⟩ := move_eq hmove
            have hpin₁ : (⟨it.pos, (it.tmpBuf.reset v).2, it.valuePinned⟩ :
                MemTableIterator).valuePinned = true := hpinned
            have hpushed := pushOperand_eq hpin₁ operands (it.tmpBuf.reset v).1 ⟨ikey, v, d⟩ hskip
            obtain rfl := Except.ok.inj (hpush.symm.trans hpushed)
            dsimp only at hnext
            rw [hnext, Outcome.ok_bind]
            apply ih (hpin₂.trans hpinned) _ _ hloop
            · rw [hbuf₂, hbuf']
            · rw [hkept, ← hoperands]

/-- Taking the entries one by one from one on is taking all that are left. -/
theorem entriesFrom_eq {k i : ℕ} (hk : i + k = m.table.length) :
    entriesFrom u m (k + 1) (if i < m.table.length then some i else none) =
      (m.table.drop i).mapM m.iteratorEntry := by
  induction k generalizing i with
  | zero =>
      rw [if_neg (by omega), List.drop_of_length_le (by omega)]
      rfl
  | succ k ih =>
      have hlt : i < m.table.length := by omega
      have hentry : entryAt m (some i) = m.iteratorEntry m.table[i] := by
        rw [entryAt, Option.bind_some, List.getElem?_eq_getElem hlt]
      have hnext : Move.next.run u m (some i) =
          .ok (if i + 1 < m.table.length then some (i + 1) else none) := by
        rw [Move.run, if_pos (by exact rfl)]
        rfl
      have hrest := ih (i := i + 1) (by omega)
      rw [if_pos hlt, entriesFrom, if_neg (by simp), hentry, hnext, List.drop_eq_getElem_cons hlt,
        List.mapM_cons]
      simp only [Outcome.ok_bind, hrest]
      rfl

/-- What the loop of `FragmentTombstones` takes are all the entries of the table. -/
theorem fragmentTombstones_eq {taken : List (Bytes × KeptValue)} {it it' : MemTableIterator}
    (hpinned : it.valuePinned = true) (h : it.fragmentTombstones u m = .ok (taken, it')) :
    ∃ es, m.table.mapM m.iteratorEntry = .ok es ∧
      it'.tmpBuf = (it.tmpBuf.resets (es.map Prod.snd)).2 ∧
      taken = ((it.tmpBuf.resets (es.map Prod.snd)).1.zip es).map
        (fun r => (r.2.1, .slice r.1)) := by
  obtain ⟨it₁, hmove, htake⟩ := Outcome.bind_eq_ok.mp h
  obtain ⟨hpos, hbuf, hpin⟩ := move_eq hmove
  obtain ⟨es, hes, hbuf', htaken⟩ := takeTombstones_eq (hpin.trans hpinned) htake
  rw [hbuf] at hbuf' htaken
  refine ⟨es, ?_, hbuf', htaken⟩
  have hall := entriesFrom_eq (u := u) (m := m) (Nat.zero_add _)
  rw [List.drop_zero] at hall
  have hfirst : it₁.pos = if 0 < m.table.length then some 0 else none := by
    rw [Move.run, if_pos (by exact trivial)] at hpos
    rw [← Except.ok.inj hpos]
    change (if m.table = [] then none else some 0) = _
    by_cases hempty : m.table = []
    · rw [if_pos hempty, hempty, if_neg (by simp)]
    · rw [if_neg hempty, if_pos (List.length_pos_of_ne_nil hempty)]
  rw [← hall, ← hfirst]
  exact hes

theorem mergeUntil_eq {operands : List (Bytes × KeptValue)} {it it' : MemTableIterator}
    {e : MergeEnd} (hpinned : it.valuePinned = true)
    (h : it.mergeUntil u m S = .ok (e, operands, it')) :
    ∃ calls, mergeUntilCalls u m S it.pos = .ok calls ∧
      it'.tmpBuf = (it.tmpBuf.resets (calls.map MergeCall.value)).2 ∧
      operands = MergeCall.keptOf (it.tmpBuf.resets (calls.map MergeCall.value)).1 calls := by
  obtain ⟨originalKey, hkey, hloop⟩ := Outcome.bind_eq_ok.mp h
  obtain ⟨v, hentry⟩ := key_eq hkey
  have hnone : ([] : List (Bytes × KeptValue)) = MergeCall.keptOf
      (it.tmpBuf.resets (([] : List MergeCall).map MergeCall.value)).1 [] := rfl
  obtain ⟨calls, hcalls, hbuf, hoperands⟩ := mergeLoop_eq hpinned rfl hnone hloop
  refine ⟨calls, ?_, hbuf, hoperands⟩
  rw [mergeUntilCalls, hentry, Outcome.ok_bind]
  exact hcalls

/-- Of two ways to pick from a list that pick the same entries, the picks are the same when
they are so entry by entry. -/
theorem filterMap_map_eq_iff {α β γ δ : Type} {l : List α} {p : α → Option β} {q : α → Option γ}
    {f : β → δ} {g : γ → δ} (h : ∀ r ∈ l, (p r).isSome = (q r).isSome) :
    (l.filterMap p).map f = (l.filterMap q).map g ↔ ∀ r ∈ l, (p r).map f = (q r).map g := by
  induction l with
  | nil => simp
  | cons a l ih =>
      have hrest := ih fun r hr => h r (List.mem_cons_of_mem a hr)
      have ha := h a List.mem_cons_self
      rw [List.forall_mem_cons, ← hrest, List.filterMap_cons, List.filterMap_cons]
      cases hp : p a <;> cases hq : q a
      · simp
      · rw [hp, hq] at ha
        cases ha
      · rw [hp, hq] at ha
        cases ha
      · simp

/-- What an operand is kept as denotes the operand exactly when the slice denotes the value. -/
theorem kept_read_iff (heap : BufferHeap UInt8) (slice : BufferSlice) (c : MergeCall) :
    (c.kept slice).map (fun o => (o.1, o.2.read heap)) = c.operand.map (fun o => (o.1, some o.2)) ↔
      (c.decision = .keep → heap.read slice = some c.value) := by
  unfold MergeCall.kept MergeCall.operand
  cases hd : c.decision with
  | keep => simp [KeptValue.read]
  | changeValue b => simp [KeptValue.read]
  | remove => simp
  | removeAndSkipUntil => simp

theorem keptOf_read_iff (o : OwnedBuffer UInt8) (calls : List MergeCall) :
    (MergeCall.keptOf (o.resets (calls.map MergeCall.value)).1 calls).map
        (fun p => (p.1, p.2.read (o.resets (calls.map MergeCall.value)).2.heap)) =
      (calls.filterMap MergeCall.operand).map (fun p => (p.1, some p.2)) ↔
      ∀ c ∈ calls.dropLast, c.decision = .keep → c.value = [] := by
  have hread := OwnedBuffer.forall_read_iff o calls MergeCall.value fun c => c.decision = .keep
  have hlength : (o.resets (calls.map MergeCall.value)).1.length = calls.length := by
    rw [OwnedBuffer.length_resets, List.length_map]
  have hcalls : calls.filterMap MergeCall.operand =
      ((o.resets (calls.map MergeCall.value)).1.zip calls).filterMap (fun r => r.2.operand) := by
    have hsnd := List.map_snd_zip (Nat.le_of_eq hlength.symm)
    conv_lhs => rw [← hsnd, List.filterMap_map]
    rfl
  rw [hcalls, MergeCall.keptOf, filterMap_map_eq_iff fun r _ => r.2.kept_isSome r.1, ← hread]
  simp only [kept_read_iff]

/-- Of the values that `value` returns while it calls them pinned, of the end keys that the
fragmenter keeps and of the operands that a merge collects, all denote what they were taken for
exactly when, of those that were asked for, all but the last were empty or not kept. -/
theorem valuesStay_iff (u : Comparator) (m : MemTable) (S : MergeSettings) (it : MemTableIterator)
    (hpinned : it.valuePinned = true) :
    (∀ ops slices it', it.run u m ops = .ok (slices, it') →
      ∃ vs, valuesAsked u m it.pos ops = .ok vs ∧
        (slices.map it'.tmpBuf.heap.read = vs.map some ↔ ∀ v ∈ vs.dropLast, v = [])) ∧
    (∀ taken it', it.fragmentTombstones u m = .ok (taken, it') →
      ∃ es, m.table.mapM m.iteratorEntry = .ok es ∧
        (taken.map (fun t => (t.1, t.2.read it'.tmpBuf.heap)) = es.map (fun e => (e.1, some e.2)) ↔
          ∀ e ∈ es.dropLast, e.2 = [])) ∧
    (∀ e operands it', it.mergeUntil u m S = .ok (e, operands, it') →
      ∃ calls, mergeUntilCalls u m S it.pos = .ok calls ∧
        (operands.map (fun p => (p.1, p.2.read it'.tmpBuf.heap)) =
            (calls.filterMap MergeCall.operand).map (fun p => (p.1, some p.2)) ↔
          ∀ c ∈ calls.dropLast, c.decision = .keep → c.value = [])) := by
  refine ⟨?_, ?_, ?_⟩
  · intro ops slices it' h
    obtain ⟨vs, hvs, heq⟩ := run_eq h
    have hread := OwnedBuffer.map_read_iff it.tmpBuf vs id
    rw [List.map_id] at hread
    obtain ⟨hslices, hbuf⟩ := Prod.mk.inj heq
    refine ⟨vs, hvs, ?_⟩
    rw [hslices, hbuf]
    exact hread
  · intro taken it' h
    obtain ⟨es, hes, hbuf, htaken⟩ := fragmentTombstones_eq hpinned h
    have hread := OwnedBuffer.forall_read_iff it.tmpBuf es Prod.snd fun _ => True
    have hlength : (it.tmpBuf.resets (es.map Prod.snd)).1.length = es.length := by
      rw [OwnedBuffer.length_resets, List.length_map]
    have hes' : es = ((it.tmpBuf.resets (es.map Prod.snd)).1.zip es).map Prod.snd :=
      (List.map_snd_zip (Nat.le_of_eq hlength.symm)).symm
    refine ⟨es, hes, ?_⟩
    simp only [forall_const] at hread
    rw [htaken, hbuf, ← hread]
    conv_lhs =>
      rhs
      rw [hes']
    rw [List.map_map, List.map_map, List.map_inj_left]
    apply forall_congr'
    intro r
    simp [KeptValue.read]
  · intro e operands it' h
    obtain ⟨calls, hcalls, hbuf, hoperands⟩ := mergeUntil_eq hpinned h
    refine ⟨calls, hcalls, ?_⟩
    rw [hoperands, hbuf]
    exact keptOf_read_iff it.tmpBuf calls

end MemTableIterator

/-- A put of `b` under the key `a`, and one of `d` under `c`. -/
def putAPutC : List (ℕ × MemTableAdd) :=
  [(0, ⟨⟨1, one_sequence⟩, .value, [97], [98], value_mem_pointTypes, length_a⟩),
    (0, ⟨⟨2, two_sequence⟩, .value, [99], [100], value_mem_pointTypes, by decide⟩)]

/-- The slice of the first value is gone as soon as the second value is asked for. -/
theorem putAPutC_value_gone :
    ((MemTable.empty (fun _ => 0) 1).addAll sampleEnv putAPutC >>= fun m =>
      (MemTableIterator.create ⟨[]⟩ false).run bytewiseComparator m
        [.move .seekToFirst, .value, .move .next, .value] >>= fun (slices, it) =>
      .ok (it.valuePinned, slices.map it.tmpBuf.heap.read)) =
      .ok (true, [none, some [100]]) := by
  decide +kernel

theorem valuesStay_iff_putAPutC :
    ∃ m slices it' vs, (MemTable.empty (fun _ => 0) 1).addAll sampleEnv putAPutC = .ok m ∧
      (MemTableIterator.create ⟨[]⟩ false).run bytewiseComparator m
        [.move .seekToFirst, .value, .move .next] = .ok (slices, it') ∧
      MemTableIterator.valuesAsked bytewiseComparator m none
        [.move .seekToFirst, .value, .move .next] = .ok vs ∧
      (slices.map it'.tmpBuf.heap.read = vs.map some ↔ ∀ v ∈ vs.dropLast, v = []) := by
  have hok : ((MemTable.empty (fun _ => 0) 1).addAll sampleEnv putAPutC >>= fun m =>
      (MemTableIterator.create ⟨[]⟩ false).run bytewiseComparator m
        [.move .seekToFirst, .value, .move .next] >>= fun (slices, it) =>
      .ok (slices.map it.tmpBuf.heap.read)) = .ok [some [98]] := by
    decide +kernel
  obtain ⟨m, hm, h⟩ := Outcome.bind_eq_ok.mp hok
  obtain ⟨⟨slices, it'⟩, hrun, -⟩ := Outcome.bind_eq_ok.mp h
  obtain ⟨vs, hvs, hiff⟩ := (MemTableIterator.valuesStay_iff bytewiseComparator m
    ⟨bytewiseComparator, 0, fun _ => true, 0, fun _ _ => .keep, fun _ => false⟩
    (.create ⟨[]⟩ false) rfl).1 _ slices it' hrun
  exact ⟨m, slices, it', vs, hm, hrun, hvs, hiff⟩

end Tweezer
