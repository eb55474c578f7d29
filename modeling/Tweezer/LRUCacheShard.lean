import Mathlib.Data.Finset.Basic
import Mathlib.Algebra.BigOperators.Group.Finset.Basic
import Mathlib.Logic.Function.Basic
import Tweezer.Bytes

/-!
# A shard of the block cache

`cache/lru_cache.cc`. The entries of the hash table that nobody refers to are on a list, the
oldest first, from which room is made; the newer end of the list is a pool for entries of high
priority. Every assertion of the code is a condition without which an operation has no result,
so that a subtraction from a counter has one only if it does not underflow. A handle that was
freed can no longer be read, and no number is used for a second handle.
-/

namespace Tweezer

inductive CacheMetadataChargePolicy where
  | dontChargeCacheMetadata
  | fullChargeCacheMetadata
  deriving DecidableEq, Repr

/-- `LRUHandle`, without the value and the links of the lists that it is on. -/
structure LRUHandle where
  key : Bytes
  hash : ℕ
  charge : ℕ
  refs : ℕ
  inCache : Bool
  isHighPri : Bool
  inHighPriPool : Bool
  hasHit : Bool
  deriving DecidableEq, Repr

/-- What the pool uses of doubles: a share of a capacity, and whether a usage exceeds it. No
usage is zero and more than a share that is not negative. -/
structure PoolArith where
  Double : Type
  nonneg : Double → Bool
  positive : Double → Bool
  times : ℕ → Double → Double
  exceeds : ℕ → Double → Bool
  not_exceeds_zero : ∀ capacity ratio, nonneg ratio = true →
    exceeds 0 (times capacity ratio) = false

structure LRUCacheEnv extends PoolArith where
  metadataChargePolicy : CacheMetadataChargePolicy
  /-- The bytes that the memory of a handle takes. -/
  usableSize : ℕ → ℕ

/-- Addition of `size_t`. -/
def addSize (a b : ℕ) : ℕ := (a + b) % 2 ^ 64

/-- `LRUHandle::Ref`. -/
def LRUHandle.ref (e : LRUHandle) : LRUHandle := { e with refs := (e.refs + 1) % 2 ^ 32 }

def LRUHandle.calcTotalCharge (E : LRUCacheEnv) (i : ℕ) (e : LRUHandle) : ℕ :=
  match E.metadataChargePolicy with
  | .dontChargeCacheMetadata => addSize e.charge 0
  | .fullChargeCacheMetadata => addSize e.charge (E.usableSize i)

/-- `LRUCacheShard`. The list runs from `lru_.next` on, and `lruLowPri` is none at its head. -/
structure LRUCacheShard (E : LRUCacheEnv) where
  capacity : ℕ
  strictCapacityLimit : Bool
  highPriPoolRatio : E.Double
  highPriPoolCapacity : E.Double
  highPriPoolUsage : ℕ
  lru : List ℕ
  lruLowPri : Option ℕ
  table : Bytes × ℕ → Option ℕ
  usage : ℕ
  lruUsage : ℕ
  handles : ℕ → Option LRUHandle
  allocated : ℕ
  freed : List ℕ

inductive InsertStatus where
  | ok
  | okOverwritten
  | incomplete (message : String)
  deriving DecidableEq, Repr

namespace LRUCacheShard

variable {E : LRUCacheEnv}

/-- The node in front of `i`, none if that is the head. -/
def before (l : List ℕ) (i : ℕ) : Option ℕ := (l.takeWhile (· ≠ i)).getLast?

/-- The node behind one, or behind the head. -/
def after (l : List ℕ) : Option ℕ → Option ℕ
  | none => l.head?
  | some i => ((l.dropWhile (· ≠ i)).drop 1).head?

def insertAfter (l : List ℕ) (i : ℕ) : Option ℕ → List ℕ
  | none => i :: l
  | some j => l.takeWhile (· ≠ j) ++ j :: i :: (l.dropWhile (· ≠ j)).drop 1

def setHandle (s : LRUCacheShard E) (i : ℕ) (e : LRUHandle) : LRUCacheShard E :=
  { s with handles := Function.update s.handles i (some e) }

/-- `LRU_Remove`. -/
def lruRemove (s : LRUCacheShard E) (i : ℕ) : Option (LRUCacheShard E) := do
  let e ← s.handles i
  let totalCharge := e.calcTotalCharge E i
  if i ∈ s.lru ∧ totalCharge ≤ s.lruUsage ∧
      (e.inHighPriPool = true → totalCharge ≤ s.highPriPoolUsage) then
    some { s with
      lruLowPri := if s.lruLowPri = some i then before s.lru i else s.lruLowPri
      lru := s.lru.erase i
      lruUsage := s.lruUsage - totalCharge
      highPriPoolUsage :=
        if e.inHighPriPool then s.highPriPoolUsage - totalCharge else s.highPriPoolUsage }
  else none

/-- `MaintainPoolSize`, which passes no more nodes than the list has. -/
def maintainPoolSizeLoop : ℕ → LRUCacheShard E → Option (LRUCacheShard E)
  | 0, s => if E.exceeds s.highPriPoolUsage s.highPriPoolCapacity then none else some s
  | n + 1, s =>
      if E.exceeds s.highPriPoolUsage s.highPriPoolCapacity then do
        let i ← after s.lru s.lruLowPri
        let e ← s.handles i
        let totalCharge := e.calcTotalCharge E i
        if totalCharge ≤ s.highPriPoolUsage then
          maintainPoolSizeLoop n { (s.setHandle i { e with inHighPriPool := false }) with
            lruLowPri := some i
            highPriPoolUsage := s.highPriPoolUsage - totalCharge }
        else none
      else some s

def maintainPoolSize (s : LRUCacheShard E) : Option (LRUCacheShard E) :=
  maintainPoolSizeLoop s.lru.length s

/-- `LRU_Insert`. -/
def lruInsert (s : LRUCacheShard E) (i : ℕ) : Option (LRUCacheShard E) := do
  let e ← s.handles i
  let totalCharge := e.calcTotalCharge E i
  if i ∈ s.lru then none
  else if E.positive s.highPriPoolRatio = true ∧ (e.isHighPri || e.hasHit) = true then
    let s ← maintainPoolSize { (s.setHandle i { e with inHighPriPool := true }) with
      lru := s.lru ++ [i]
      highPriPoolUsage := addSize s.highPriPoolUsage totalCharge }
    some { s with lruUsage := addSize s.lruUsage totalCharge }
  else
    some { (s.setHandle i { e with inHighPriPool := false }) with
      lru := insertAfter s.lru i s.lruLowPri
      lruLowPri := some i
      lruUsage := addSize s.lruUsage totalCharge }

/-- Out of the hash table and no longer `IN_CACHE`. -/
def uncache (s : LRUCacheShard E) (i : ℕ) (e : LRUHandle) : LRUCacheShard E :=
  { (s.setHandle i { e with inCache := false }) with
    table := Function.update s.table (e.key, e.hash) none }

def subUsage (s : LRUCacheShard E) (totalCharge : ℕ) : Option (LRUCacheShard E) :=
  if totalCharge ≤ s.usage then some { s with usage := s.usage - totalCharge } else none

/-- What `EvictFromLRU` and `EraseUnRefEntries` do with the oldest entry. -/
def evictOldest (s : LRUCacheShard E) (old : ℕ) : Option (LRUCacheShard E) := do
  let e ← s.handles old
  if e.inCache = true ∧ e.refs = 0 then
    let s ← s.lruRemove old
    (s.uncache old e).subUsage (e.calcTotalCharge E old)
  else none

/-- Their loop, which takes no more entries than the list has. -/
def evictLoop (more : LRUCacheShard E → Bool) :
    ℕ → LRUCacheShard E → List ℕ → Option (LRUCacheShard E × List ℕ)
  | 0, s, deleted => some (s, deleted)
  | n + 1, s, deleted =>
      match s.lru with
      | [] => some (s, deleted)
      | old :: _ =>
          if more s then do
            let s ← s.evictOldest old
            evictLoop more n s (deleted ++ [old])
          else some (s, deleted)

def evictFromLRU (s : LRUCacheShard E) (charge : ℕ) : Option (LRUCacheShard E × List ℕ) :=
  evictLoop (fun s => s.capacity < addSize s.usage charge) s.lru.length s []

/-- `LRUHandle::Free`. -/
def free (s : LRUCacheShard E) (i : ℕ) : Option (LRUCacheShard E) := do
  let e ← s.handles i
  if e.refs = 0 then
    some { s with handles := Function.update s.handles i none, freed := s.freed ++ [i] }
  else none

def freeAll (s : LRUCacheShard E) (deleted : List ℕ) : Option (LRUCacheShard E) :=
  deleted.foldlM free s

def eraseUnRefEntries (s : LRUCacheShard E) : Option (LRUCacheShard E) := do
  let (s, lastReferenceList) ← evictLoop (fun _ => true) s.lru.length s []
  s.freeAll lastReferenceList

def setCapacity (s : LRUCacheShard E) (capacity : ℕ) : Option (LRUCacheShard E) := do
  let (s, lastReferenceList) ← evictFromLRU { s with
    capacity := capacity
    highPriPoolCapacity := E.times capacity s.highPriPoolRatio } 0
  s.freeAll lastReferenceList

/-- The constructor, in front of its call of `SetCapacity`. -/
def empty (strictCapacityLimit : Bool) (highPriPoolRatio : E.Double) : LRUCacheShard E where
  capacity := 0
  strictCapacityLimit := strictCapacityLimit
  highPriPoolRatio := highPriPoolRatio
  highPriPoolCapacity := E.times 0 highPriPoolRatio
  highPriPoolUsage := 0
  lru := []
  lruLowPri := none
  table := fun _ => none
  usage := 0
  lruUsage := 0
  handles := fun _ => none
  allocated := 0
  freed := []

def setStrictCapacityLimit (s : LRUCacheShard E) (strictCapacityLimit : Bool) :
    LRUCacheShard E :=
  { s with strictCapacityLimit := strictCapacityLimit }

def lookup (s : LRUCacheShard E) (key : Bytes) (hash : ℕ) :
    Option (Option ℕ × LRUCacheShard E) :=
  match s.table (key, hash) with
  | none => some (none, s)
  | some i => do
      let e ← s.handles i
      if e.inCache then
        let s ← if e.refs = 0 then s.lruRemove i else some s
        some (some i, s.setHandle i { e.ref with hasHit := true })
      else none

def ref (s : LRUCacheShard E) (i : ℕ) : Option (LRUCacheShard E) := do
  let e ← s.handles i
  if 0 < e.refs then some (s.setHandle i e.ref) else none

def setHighPriorityPoolRatio (s : LRUCacheShard E) (highPriPoolRatio : E.Double) :
    Option (LRUCacheShard E) :=
  maintainPoolSize { s with
    highPriPoolRatio := highPriPoolRatio
    highPriPoolCapacity := E.times s.capacity highPriPoolRatio }

/-- The end of `Release` for the last reference. -/
def releaseLast (s : LRUCacheShard E) (i : ℕ) (e : LRUHandle) :
    Option (Bool × LRUCacheShard E) := do
  let s ← s.subUsage (e.calcTotalCharge E i)
  let s ← s.free i
  some (true, s)

def release (s : LRUCacheShard E) (handle : Option ℕ) (forceErase : Bool) :
    Option (Bool × LRUCacheShard E) :=
  match handle with
  | none => some (false, s)
  | some i => do
      let e ← s.handles i
      if 0 < e.refs then
        let e := { e with refs := e.refs - 1 }
        let s := s.setHandle i e
        if e.refs = 0 ∧ e.inCache = true then
          if s.capacity < s.usage ∨ forceErase = true then
            if s.lru = [] ∨ forceErase = true then (s.uncache i e).releaseLast i e else none
          else do
            let s ← s.lruInsert i
            some (false, s)
        else if e.refs = 0 then s.releaseLast i e
        else some (false, s)
      else none

/-- What `Insert` does with the entry that it finds under the key of the new one. -/
def insertOverwrites (s : LRUCacheShard E) (old : Option ℕ) :
    Option (LRUCacheShard E × List ℕ) :=
  match old with
  | none => some (s, [])
  | some old => do
      let e ← s.handles old
      if e.inCache then
        let s := s.setHandle old { e with inCache := false }
        if e.refs = 0 then do
          let s ← s.lruRemove old
          let s ← s.subUsage (e.calcTotalCharge E old)
          some (s, [old])
        else some (s, [])
      else none

/-- `Insert` where there is no room: without a handle the entry is freed as if it had been
evicted at once. -/
def insertNoRoom (s : LRUCacheShard E) (deleted : List ℕ) (i : ℕ) (e : LRUHandle)
    (wantsHandle : Bool) : Option ((InsertStatus × Option ℕ) × LRUCacheShard E) :=
  if wantsHandle then do
    let s ← { s with allocated := i + 1, freed := s.freed ++ [i] }.freeAll deleted
    some ((.incomplete "Insert failed due to LRU cache being full.", none), s)
  else do
    let s ← { (s.setHandle i { e with inCache := false }) with allocated := i + 1 }.freeAll
      (deleted ++ [i])
    some ((.ok, none), s)

/-- `Insert` where the entry comes into the hash table. -/
def insertRoom (s : LRUCacheShard E) (deleted : List ℕ) (i : ℕ) (e : LRUHandle)
    (wantsHandle : Bool) : Option ((InsertStatus × Option ℕ) × LRUCacheShard E) := do
  let old := s.table (e.key, e.hash)
  let s := { (s.setHandle i e) with
    allocated := i + 1
    table := Function.update s.table (e.key, e.hash) (some i)
    usage := addSize s.usage (e.calcTotalCharge E i) }
  let (s, overwritten) ← s.insertOverwrites old
  let status := if old = none then InsertStatus.ok else .okOverwritten
  let s ← if wantsHandle then some (s.setHandle i e.ref) else s.lruInsert i
  let s ← s.freeAll (deleted ++ overwritten)
  some ((status, if wantsHandle then some i else none), s)

/-- `Insert`, with what is put into `handle` where the caller wants one. Nothing refers to the
new entry before room is made for it. -/
def insert (s : LRUCacheShard E) (key : Bytes) (hash charge : ℕ) (wantsHandle highPri : Bool) :
    Option ((InsertStatus × Option ℕ) × LRUCacheShard E) := do
  let i := s.allocated
  let e : LRUHandle := ⟨key, hash, charge, 0, true, highPri, false, false⟩
  let totalCharge := e.calcTotalCharge E i
  let (s, deleted) ← s.evictFromLRU totalCharge
  if s.capacity < addSize s.usage totalCharge ∧ (s.strictCapacityLimit || !wantsHandle) = true then
    s.insertNoRoom deleted i e wantsHandle
  else s.insertRoom deleted i e wantsHandle

def erase (s : LRUCacheShard E) (key : Bytes) (hash : ℕ) : Option (LRUCacheShard E) :=
  match s.table (key, hash) with
  | none => some s
  | some i => do
      let e ← s.handles i
      if e.inCache then
        let s := s.uncache i e
        if e.refs = 0 then do
          let s ← s.lruRemove i
          let s ← s.subUsage (e.calcTotalCharge E i)
          s.free i
        else some s
      else none

end LRUCacheShard

end Tweezer
