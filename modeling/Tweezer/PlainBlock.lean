import Tweezer.EncryptedBlock

/-!
# Blocks of the original format

`BlockBuilder` without `data_block`, and `Block`, `BlockIter` and `DataBlockIter` of
`table/block_based/block.{h,cc}`. Entries share key prefixes with their predecessors up to
the next restart point; the offsets of the restart points and their number end the block.
-/

namespace Tweezer

structure PlainBlockBuilder where
  blockRestartInterval : ℕ
  useDeltaEncoding : Bool
  useValueDeltaEncoding : Bool
  buffer : Bytes
  restarts : List ℕ
  counter : ℕ
  lastKey : Bytes
  deriving DecidableEq

namespace PlainBlockBuilder

def create (blockRestartInterval : ℕ) (useDeltaEncoding useValueDeltaEncoding : Bool) :
    PlainBlockBuilder :=
  ⟨blockRestartInterval, useDeltaEncoding, useValueDeltaEncoding, [], [0], 0, []⟩

/-- An entry: the lengths of the shared prefix, of the rest of the key and, unless values are
delta encoded, of the value, then the rest of the key and the value. -/
def entry (b : PlainBlockBuilder) (shared : ℕ) (key value deltaValue : Bytes) : Bytes :=
  putVarint32 shared ++ (putVarint32 (key.length - shared) ++
    ((if b.useValueDeltaEncoding then [] else putVarint32 value.length) ++ (key.drop shared ++
      if shared ≠ 0 ∧ b.useValueDeltaEncoding then deltaValue else value)))

def add (b : PlainBlockBuilder) (key value deltaValue : Bytes) : PlainBlockBuilder :=
  let restart : Bool := b.blockRestartInterval ≤ b.counter
  let shared :=
    if !restart && b.useDeltaEncoding then Bytes.commonPrefix key b.lastKey else 0
  { b with
    buffer := b.buffer ++ b.entry shared key value deltaValue
    restarts := if restart then b.restarts ++ [u32 b.buffer.length] else b.restarts
    counter := (if restart then 0 else b.counter) + 1
    lastKey := if b.useDeltaEncoding then key else b.lastKey }

/-- `Finish`, the footer being the number of restart points. -/
def finish (b : PlainBlockBuilder) : Bytes :=
  b.buffer ++ (b.restarts.flatMap (Bytes.leEncode 4) ++ Bytes.leEncode 4 b.restarts.length)

theorem buffer_add_ne_nil (b : PlainBlockBuilder) (key value deltaValue : Bytes) :
    (b.add key value deltaValue).buffer ≠ [] := by
  have hentry : ∀ shared, b.entry shared key value deltaValue ≠ [] := by
    intro shared hnil
    rw [entry, List.append_eq_nil_iff] at hnil
    have hpos := Bytes.length_varintEncode_pos 4 (u32 shared)
    rw [← putVarint32, hnil.1] at hpos
    exact absurd hpos (lt_irrefl 0)
  exact List.append_ne_nil_of_right_ne_nil _ (hentry _)

end PlainBlockBuilder

/-- `DecodeEntry` at offset `p`: the three lengths, and the offset behind them; `none` for the
null pointer. -/
def decodeEntry (data : Bytes) (p limit : ℕ) : Outcome (Option (ℕ × ℕ × ℕ × ℕ)) := do
  let head ← data.fetch p 3
  match head with
  | [shared, nonShared, valueLength] =>
      if (shared ||| nonShared ||| valueLength) < 128 then
        .ok (some (shared.toNat, nonShared.toNat, valueLength.toNat, p + 3))
      else
        match Bytes.varintDecode 5 (data.slice p (limit - p)) with
        | none => .ok none
        | some (shared, rest) =>
            match Bytes.varintDecode 5 rest with
            | none => .ok none
            | some (nonShared, rest) =>
                match Bytes.varintDecode 5 rest with
                | none => .ok none
                | some (valueLength, rest) =>
                    .ok (some (u32 shared, u32 nonShared, u32 valueLength, limit - rest.length))
  | _ => .error .outOfBuffer

/-- A `Block` once its constructor is through. -/
structure Block where
  data : Bytes
  size : ℕ
  restartOffset : ℕ
  numRestarts : ℕ
  deriving DecidableEq

/-- The constructor that `EncryptedBlock` uses, with its own check of the size. -/
def Block.trusted (contents : Bytes) : Block :=
  ⟨contents, if contents.length < 4 then 0 else contents.length, 0, 1⟩

structure DataBlockIter where
  data : Option Bytes
  restarts : ℕ
  numRestarts : ℕ
  current : ℕ
  restartIndex : ℕ
  rawKey : Bytes
  valueOffset : ℕ
  valueSize : ℕ
  status : Status
  deriving DecidableEq

namespace DataBlockIter

def fresh : DataBlockIter := ⟨none, 0, 0, 0, 0, [], 0, 0, .ok⟩

def invalidate (it : DataBlockIter) (s : Status) : DataBlockIter :=
  { it with data := none, current := it.restarts, status := s }

def valid (it : DataBlockIter) : Bool := it.current < it.restarts

def nextEntryOffset (it : DataBlockIter) : ℕ := u32 (it.valueOffset + it.valueSize)

def getRestartPoint (it : DataBlockIter) (data : Bytes) (index : ℕ) : Outcome ℕ := do
  let p ← data.fetch (it.restarts + index * 4) 4
  .ok (Bytes.leDecode p)

def seekToRestartPoint (it : DataBlockIter) (data : Bytes) (index : ℕ) : Outcome DataBlockIter := do
  let offset ← it.getRestartPoint data index
  .ok { it with rawKey := [], restartIndex := index, valueOffset := offset, valueSize := 0 }

def corruptionError (it : DataBlockIter) : DataBlockIter :=
  { it with
    current := it.restarts, restartIndex := it.numRestarts,
    status := .corruption "bad entry in block", rawKey := [], valueSize := 0 }

/-- The loop that moves the restart index up to the current entry, over at most `fuel`
restart points. -/
def advanceRestartIndex (data : Bytes) : ℕ → DataBlockIter → Outcome DataBlockIter
  | 0, it => .ok it
  | fuel + 1, it =>
      if it.restartIndex + 1 < it.numRestarts then do
        let point ← it.getRestartPoint data (it.restartIndex + 1)
        if point < it.current then
          advanceRestartIndex data fuel { it with restartIndex := it.restartIndex + 1 }
        else .ok it
      else .ok it

/-- `ParseNextDataKey`, without what it returns: that the iterator is valid. -/
def parseNextDataKey (it : DataBlockIter) (data : Bytes) : Outcome DataBlockIter :=
  let it := { it with current := it.nextEntryOffset }
  if it.restarts ≤ it.current then
    .ok { it with current := it.restarts, restartIndex := it.numRestarts }
  else do
    let decoded ← decodeEntry data it.current it.restarts
    match decoded with
    | none => .ok it.corruptionError
    | some (shared, nonShared, valueLength, p) =>
        if it.rawKey.length < shared then .ok it.corruptionError
        else do
          let rest ← data.fetch p nonShared
          let it := { it with
            rawKey := it.rawKey.take shared ++ rest
            valueOffset := p + nonShared
            valueSize := valueLength }
          if shared = 0 then it.advanceRestartIndex data it.numRestarts else .ok it

def seekToFirst (it : DataBlockIter) : Outcome DataBlockIter :=
  match it.data with
  | none => .ok it
  | some data => do
      let it ← it.seekToRestartPoint data 0
      it.parseNextDataKey data

def next (it : DataBlockIter) : Outcome DataBlockIter :=
  match it.data with
  | none => .error .outOfBuffer
  | some data => it.parseNextDataKey data

/-- `key()` and `value()`. -/
def entry (it : DataBlockIter) : Outcome (Bytes × Bytes) :=
  match it.data with
  | none => .error .outOfBuffer
  | some data => do
      let value ← data.fetch it.valueOffset it.valueSize
      .ok (it.rawKey, value)

/-- The entries from where the iterator stands on. -/
def rest : ℕ → DataBlockIter → Outcome (List (Bytes × Bytes))
  | 0, _ => .error .diverged
  | fuel + 1, it =>
      if it.valid then do
        let e ← it.entry
        let it ← it.next
        let more ← rest fuel it
        .ok (e :: more)
      else .ok []

end DataBlockIter

/-- `NewDataIterator`. -/
def Block.newDataIterator (b : Block) : DataBlockIter :=
  if b.size < 8 then DataBlockIter.fresh.invalidate (.corruption "bad block contents")
  else if b.numRestarts = 0 then DataBlockIter.fresh.invalidate .ok
  else { DataBlockIter.fresh with
    data := some b.data, restarts := b.restartOffset, numRestarts := b.numRestarts,
    current := b.restartOffset, restartIndex := b.numRestarts }

end Tweezer
