import Mathlib.Logic.Function.Basic
import Tweezer.OrderedLinks

/-!
# The skip list of a memtable

`memtable/inlineskiplist.h`. A node is its key and the height that `AllocateKey` drew, numbered
by its allocation. A pointer is a node or nothing: nothing stands for `head_` where a
predecessor is meant and for `nullptr` where a successor is. Calls go from one access of shared
memory to the next, so that any number of them can be interleaved: every step loads one link,
or the height of the list, or exchanges one of them.
-/

namespace Tweezer

structure SkipNode (κ : Type) where
  id : ℕ
  key : κ
  height : ℕ
  deriving DecidableEq

/-- The links `next level` of all nodes, and `max_height_`. -/
structure InlineSkipList (κ : Type) where
  next : ℕ → Option (SkipNode κ) → Option (SkipNode κ)
  maxHeight : ℕ

/-- `Splice`: for every level up to `height_` a pair of nodes. -/
structure Splice (κ : Type) where
  height : ℕ
  prev : ℕ → Option (SkipNode κ)
  next : ℕ → Option (SkipNode κ)

/-- A splice that was never used. -/
def Splice.unused {κ : Type} : Splice κ := ⟨0, fun _ => none, fun _ => none⟩

def Splice.set {κ : Type} (s : Splice κ) (i : ℕ) (before next : Option (SkipNode κ)) : Splice κ :=
  { s with prev := Function.update s.prev i before, next := Function.update s.next i next }

/-- Where a call of `Insert` stands. -/
inductive InsertStage (κ : Type) where
  | start
  | raise (maxHeight : ℕ)
  | validate (recomputeHeight : ℕ)
  | search (level : ℕ) (before after : Option (SkipNode κ))
  | link (level : ℕ)
  | again (level : ℕ) (before : Option (SkipNode κ))
  | returned (inserted : Bool)

/-- A call of `Insert<UseCAS>(key, splice, allow_partial_splice_fix)` for the node `x`. -/
structure Inserting (κ : Type) where
  x : SkipNode κ
  useCas : Bool
  allowPartialFix : Bool
  splice : Splice κ
  stage : InsertStage κ
  maxHeight : ℕ
  recomputeHeight : ℕ
  spliceIsValid : Bool

namespace InlineSkipList

variable {κ : Type} [DecidableEq κ] (cmp : κ → κ → Ordering)

def create : InlineSkipList κ := ⟨fun _ _ => none, 1⟩

/-- `SetNext`. -/
def setNext (s : InlineSkipList κ) (level : ℕ) (p q : Option (SkipNode κ)) : InlineSkipList κ :=
  { s with next := Function.update s.next level (Function.update (s.next level) p q) }

/-- `KeyIsAfterNode`; the null node counts as infinite. -/
def keyIsAfterNode (key : κ) : Option (SkipNode κ) → Bool
  | none => false
  | some n => cmp n.key key = .lt

/-- `while (nodes[height] == bad) ++height`, in at most `fuel` turns. No node of a splice is
on its topmost level. -/
def skipSame (nodes : ℕ → Option (SkipNode κ)) (bad : Option (SkipNode κ)) : ℕ → ℕ → ℕ
  | 0, height => height
  | fuel + 1, height => if nodes height = bad then skipSame nodes bad fuel (height + 1) else height

end InlineSkipList

namespace Inserting

open InlineSkipList

variable {κ : Type} [DecidableEq κ] (cmp : κ → κ → Ordering)

/-- `RecomputeSpliceLevels` begins, unless nothing is left to recompute. -/
def recompute (c : Inserting κ) (height : ℕ) : Inserting κ :=
  { c with
    recomputeHeight := height
    stage := match height with
      | 0 => .link 0
      | level + 1 => .search level (c.splice.prev height) (c.splice.next height) }

/-- The height of the list is known to be `maxHeight`. -/
def chooseLevels (c : Inserting κ) (maxHeight : ℕ) : Inserting κ :=
  let c := { c with maxHeight := maxHeight }
  if c.splice.height < maxHeight then
    { c with splice := { c.splice.set maxHeight none none with height := maxHeight } }.recompute
      maxHeight
  else { c with stage := .validate 0 }

/-- A turn of the loop that looks for a level of the splice that brackets the key. -/
def validateTurn (c : Inserting κ) (s : InlineSkipList κ) (r : ℕ) : Inserting κ :=
  if r < c.maxHeight then
    if s.next r (c.splice.prev r) ≠ c.splice.next r then { c with stage := .validate (r + 1) }
    else if c.splice.prev r ≠ none ∧ ¬ keyIsAfterNode cmp c.x.key (c.splice.prev r) then
      { c with stage := .validate (if c.allowPartialFix then
          skipSame c.splice.prev (c.splice.prev r) (c.maxHeight - r) r else c.maxHeight) }
    else if keyIsAfterNode cmp c.x.key (c.splice.next r) then
      { c with stage := .validate (if c.allowPartialFix then
          skipSame c.splice.next (c.splice.next r) (c.maxHeight - r) r else c.maxHeight) }
    else c.recompute r
  else c.recompute r

/-- A turn of `FindSpliceForLevel` for one of the levels that are recomputed. -/
def searchTurn (c : Inserting κ) (s : InlineSkipList κ) (level : ℕ)
    (before after : Option (SkipNode κ)) : Inserting κ :=
  let next := s.next level before
  if next = after ∨ ¬ keyIsAfterNode cmp c.x.key next then
    { c with
      splice := c.splice.set level before next
      stage := match level with
        | 0 => .link 0
        | level + 1 => .search level before next }
  else { c with stage := .search level next after }

/-- A turn of `FindSpliceForLevel` after an exchange failed. -/
def againTurn (c : Inserting κ) (s : InlineSkipList κ) (level : ℕ)
    (before : Option (SkipNode κ)) : Inserting κ :=
  let next := s.next level before
  if next = none ∨ ¬ keyIsAfterNode cmp c.x.key next then
    { c with
      splice := c.splice.set level before next
      spliceIsValid := c.spliceIsValid && !(c.useCas && 0 < level)
      stage := .link level }
  else { c with stage := .again level next }

/-- The checks for a duplicate key, which are made on level 0 only. -/
def duplicate (c : Inserting κ) (level : ℕ) : Bool :=
  level = 0 && ((c.splice.next 0).any (fun n => cmp c.x.key n.key != .lt) ||
    (c.splice.prev 0).any fun n => cmp n.key c.x.key != .lt)

/-- All levels are linked: the splice is kept for the next call, or given up. -/
def finish (c : Inserting κ) : Inserting κ :=
  { c with
    splice := if c.spliceIsValid then
        { c.splice with prev := fun i => if i < c.x.height then some c.x else c.splice.prev i }
      else { c.splice with height := 0 }
    stage := .returned true }

/-- The node is linked at `level`, with a compare-and-exchange if other inserts may run. -/
def linkTurn (c : Inserting κ) (s : InlineSkipList κ) (level : ℕ) :
    InlineSkipList κ × Inserting κ :=
  if c.x.height ≤ level then (s, c.finish)
  else if ¬ c.useCas ∧ c.recomputeHeight ≤ level ∧
      s.next level (c.splice.prev level) ≠ c.splice.next level then
    (s, { c with stage := .again level (c.splice.prev level) })
  else if c.duplicate cmp level then (s, { c with stage := .returned false })
  else
    let s := s.setNext level (some c.x) (c.splice.next level)
    if c.useCas ∧ s.next level (c.splice.prev level) ≠ c.splice.next level then
      (s, { c with stage := .again level (c.splice.prev level) })
    else (s.setNext level (c.splice.prev level) (some c.x), { c with stage := .link (level + 1) })

/-- One step of the call. `weak` says that a weak exchange fails although it need not. -/
def step (weak : Bool) (s : InlineSkipList κ) (c : Inserting κ) :
    InlineSkipList κ × Inserting κ :=
  match c.stage with
  | .start => (s, { c with stage := .raise s.maxHeight })
  | .raise maxHeight =>
      if maxHeight < c.x.height then
        if s.maxHeight = maxHeight ∧ ¬ weak then
          ({ s with maxHeight := c.x.height }, c.chooseLevels c.x.height)
        else (s, { c with stage := .raise s.maxHeight })
      else (s, c.chooseLevels maxHeight)
  | .validate r => (s, c.validateTurn cmp s r)
  | .search level before after => (s, c.searchTurn cmp s level before after)
  | .link level => c.linkTurn cmp s level
  | .again level before => (s, c.againTurn cmp s level before)
  | .returned _ => (s, c)

end Inserting

/-- `FindGreaterOrEqual`, `FindLessThan` and `FindLast`. -/
inductive FindKind (κ : Type) where
  | greaterOrEqual (key : κ)
  | lessThan (key : κ)
  | last

/-- Where a search stands: at a node on a level, having seen `last_bigger` or
`last_not_after` on the level above. -/
inductive FindStage (κ : Type) where
  | start
  | at (level : ℕ) (x lastSeen : Option (SkipNode κ))
  | returned (node : Option (SkipNode κ))

structure Finding (κ : Type) where
  kind : FindKind κ
  stage : FindStage κ

namespace Finding

open InlineSkipList

variable {κ : Type} [DecidableEq κ] (cmp : κ → κ → Ordering)

/-- The next level below, or the answer on level 0. -/
def descend (f : Finding κ) (level : ℕ) (x lastSeen answer : Option (SkipNode κ)) : Finding κ :=
  { f with stage := match level with
      | 0 => .returned answer
      | level + 1 => .at level x lastSeen }

def greaterOrEqualTurn (f : Finding κ) (s : InlineSkipList κ) (key : κ) (level : ℕ)
    (x lastBigger : Option (SkipNode κ)) : Finding κ :=
  match s.next level x with
  | none => f.descend level x none none
  | some n =>
      if some n = lastBigger then f.descend level x (some n) (some n)
      else match cmp n.key key with
        | .eq => { f with stage := .returned (some n) }
        | .lt => { f with stage := .at level (some n) lastBigger }
        | .gt => f.descend level x (some n) (some n)

def lessThanTurn (f : Finding κ) (s : InlineSkipList κ) (key : κ) (level : ℕ)
    (x lastNotAfter : Option (SkipNode κ)) : Finding κ :=
  let next := s.next level x
  if next ≠ lastNotAfter ∧ keyIsAfterNode cmp key next then
    { f with stage := .at level next lastNotAfter }
  else f.descend level x next x

def lastTurn (f : Finding κ) (s : InlineSkipList κ) (level : ℕ) (x : Option (SkipNode κ)) :
    Finding κ :=
  match s.next level x with
  | none => f.descend level x none x
  | some n => { f with stage := .at level (some n) none }

def step (s : InlineSkipList κ) (f : Finding κ) : Finding κ :=
  match f.stage with
  | .start => { f with stage := .at (s.maxHeight - 1) none none }
  | .at level x lastSeen =>
      match f.kind with
      | .greaterOrEqual key => f.greaterOrEqualTurn cmp s key level x lastSeen
      | .lessThan key => f.lessThanTurn cmp s key level x lastSeen
      | .last => f.lastTurn s level x
  | .returned _ => f

end Finding

end Tweezer
