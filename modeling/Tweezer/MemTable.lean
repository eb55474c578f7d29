import Tweezer.Coding
import Tweezer.EncDec
import Tweezer.InternalKey
import Tweezer.OrderedCursor
import Tweezer.UntrustedArena

/-!
# The memtable

`db/memtable.cc` built with `MEMTABLE`. An entry's record, in the enclave, holds the internal
key and 28 bytes in place of the value: its size, its tag and the address of its ciphertext
in the arena outside. The skip list of records is a list in its order, and memory outside
the enclave is a function of the address.
-/

namespace Tweezer

/-- A sequence number that a write can carry: the first one is 1. -/
abbrev SequenceNumber := {s : ℕ // 0 < s ∧ s ≤ kMaxSequenceNumber}

/-- The entries that go to the table of points. -/
def pointTypes : List ValueType := [.value, .merge, .deletion, .singleDeletion]

/-- The arguments of `MemTable::Add` for an entry of one of `types`. Keys above 2GB are not
supported. -/
structure MemTableEntry (types : List ValueType) where
  seq : SequenceNumber
  type : ValueType
  key : Bytes
  value : Bytes
  type_mem : type ∈ types
  length_key : key.length ≤ 2 ^ 31

abbrev MemTableAdd := MemTableEntry pointTypes

/-- A range deletion, from its key to its value. -/
abbrev RangeDeletionAdd := MemTableEntry [.rangeDeletion]

variable {types : List ValueType}

def MemTableEntry.internalKey (a : MemTableEntry types) : Bytes :=
  a.key ++ Bytes.leEncode 8 (packSequenceAndType a.seq.val a.type.code)

structure MemTable where
  table : List Bytes
  arena : UntrustedConcurrentArena
  memory : Memory
  firstSeqno : ℕ

/-- What the records of one database are encrypted with, and where. -/
structure MemTableEnv where
  cipher : Gcm
  memtableKey : Key
  ucmp : Comparator
  host : BlockAllocator

namespace MemTable

/-- The order of the skip list, by the keys at the front of the records. -/
def compareRecords (u : Comparator) (a b : Bytes) : Ordering :=
  let key := fun r => match getLengthPrefixedSlice r with
    | .ok (k, _) => k
    | .error _ => []
  compareKeySeq u (key a) (key b)

/-- `InsertKey`, which refuses a key that is already there. -/
def insertKey (u : Comparator) (r : Bytes) (table : List Bytes) : Option (List Bytes) :=
  OrderedCursor.insert (compareRecords u) r table

def empty (memory : Memory) (shardCount : ℕ) : MemTable := ⟨[], .create shardCount, memory, 0⟩

def isEmpty (m : MemTable) : Bool := m.firstSeqno = 0

/-- `encoded_len`, the size that is asked for. The length byte in front of the 28 bytes is
not counted. -/
def encodedLen (internalKeySize : ℕ) : ℕ :=
  u32 ((putVarint32 internalKeySize).length + internalKeySize + 4 + 16 + 8)

/-- The size, tag and address that stand for a value. -/
def valueRecord (size : ℕ) (tags : Mac) (ptr : ℕ) : Bytes :=
  Bytes.leEncode 4 (u32 size) ++ (tags.val ++ Bytes.leEncode 8 ptr)

/-- `Add`, on a core whose `tls_cpuid` is `cpu`. The node that the skip list allocates is
rounded up to eight bytes, and the record may use these too. -/
def add (E : MemTableEnv) (m : MemTable) (cpu : ℕ) (a : MemTableEntry types) :
    Outcome (Bool × MemTable) := do
  let keySize := u32 a.key.length
  let internalKeySize := u32 (keySize + 8)
  let (untrustBuf, arena) ← m.arena.allocateAligned E.host cpu a.value.length
  let memory := m.memory.write untrustBuf a.value
  let (encrypted, tags) := encryption E.cipher a.value E.memtableKey
  let memory := memory.write untrustBuf encrypted
  let record := putVarint32 internalKeySize ++ (a.key.take keySize ++
    (Bytes.leEncode 8 (packSequenceAndType a.seq.val a.type.code) ++
      (putVarint32 28 ++ valueRecord a.value.length tags untrustBuf)))
  if roundUp8 (encodedLen internalKeySize) < record.length then .error .outOfBuffer
  else match insertKey E.ucmp record m.table with
    | none => .ok (false, { m with arena := arena, memory := memory })
    | some table => .ok (true, ⟨table, arena, memory,
        if m.firstSeqno = 0 then a.seq.val else m.firstSeqno⟩)

/-- A sequence of calls, each with the core it runs on. -/
def addAll (E : MemTableEnv) : MemTable → List (ℕ × MemTableEntry types) → Outcome MemTable
  | m, [] => .ok m
  | m, (cpu, a) :: adds => do
      let (_, m) ← m.add E cpu a
      addAll E m adds

/-- The bytes outside the enclave that a value record points to, and its tag. -/
def readUntrusted (memory : Memory) (v : Bytes) : Outcome (Bytes × Mac) := do
  let size ← v.fetch 0 4
  let tags ← v.fetchOctets 4 16
  let ptr ← v.fetch 20 8
  .ok (memory.read (Bytes.leDecode ptr) (Bytes.leDecode size), tags)

/-- `MemTableIterator::key` and `MemTableIterator::value` at a record. -/
def iteratorEntry (m : MemTable) (record : Bytes) : Outcome (Bytes × Bytes) := do
  let (key, rest) ← getLengthPrefixedSlice record
  let (untrustedV, _) ← getLengthPrefixedSlice rest
  let (v, _) ← readUntrusted m.memory untrustedV
  .ok (key, v)

end MemTable

end Tweezer
