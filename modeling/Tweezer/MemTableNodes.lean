import Tweezer.MemTableCorrect
import Tweezer.TrustedArena

/-!
# The node of a memtable record

`MemTable::Add` asks the skip list for `encoded_len` bytes and writes one more, since the length
byte in front of the 28 bytes is not counted. The piece that the arena hands out for the node is
rounded up to eight bytes; where there is nothing to round, the last byte of the record lies
behind it, where another node may begin.
-/

namespace Tweezer

/-- A call of `MemTable::Add` on a core whose `tls_cpuid` is `cpu`, with the height that
`RandomHeight` draws for the node. -/
structure NodeAdd where
  cpu : ℕ
  height : ℕ
  seq : ℕ
  type : ValueType
  key : Bytes
  value : Bytes

/-- Where one entry was written: its node, with the size that was asked for the record, and
its value outside, again with the size that was asked for. -/
structure AddedNode where
  raw : ℕ
  height : ℕ
  encodedLen : ℕ
  record : Bytes
  untrustBuf : ℕ
  untrustSize : ℕ
  value : Bytes

/-- The arena of a memtable inside, for both of its tables, and the one outside. -/
structure MemTableArenas where
  trusted : ConcurrentArena
  untrusted : UntrustedConcurrentArena

namespace AddedNode

/-- The links of a node, the last of which the struct holds. -/
def linkBytes (height : ℕ) : ℕ := 8 * (height - 1) + 8

/-- `Key()` of the node. -/
def buf (n : AddedNode) : ℕ := n.raw + linkBytes n.height

/-- What is written of the node: its links and its record. -/
def written (n : AddedNode) : Set ℕ := region n.raw (linkBytes n.height + n.record.length)

/-- The piece that the arena handed out. -/
def piece (n : AddedNode) : ℕ × ℕ := (n.raw, roundUp8 (linkBytes n.height + n.encodedLen))

end AddedNode

namespace MemTableArenas

variable (E : MemTableEnv) (heap : HeapAllocator)

/-- `AllocateNode`. -/
def allocateNode (c : ConcurrentArena) (cpu keySize height : ℕ) : ℕ × ConcurrentArena :=
  c.allocateAligned heap cpu (AddedNode.linkBytes height + keySize)

/-- The constructor of `InlineSkipList`, with a head of twelve levels and a splice. -/
def createTable (c : ConcurrentArena) (cpu : ℕ) : ConcurrentArena :=
  let (_, c) := allocateNode heap c cpu 0 12
  let (_, c) := c.allocateAligned heap cpu (24 + 2 * (8 * 13))
  c

/-- The constructor of `MemTable`, for its two tables. -/
def create (blockSize shardCount inlineBlock cpu : ℕ) : MemTableArenas :=
  ⟨createTable heap (createTable heap (.create blockSize shardCount inlineBlock) cpu) cpu,
    .create shardCount⟩

/-- `Add` up to the insertion into the skip list. -/
def add (s : MemTableArenas) (a : NodeAdd) : Outcome (AddedNode × MemTableArenas) := do
  let keySize := u32 a.key.length
  let internalKeySize := u32 (keySize + 8)
  let encodedLen := MemTable.encodedLen internalKeySize
  let (raw, trusted) := allocateNode heap s.trusted a.cpu encodedLen a.height
  let (untrustBuf, untrusted) ← s.untrusted.allocateAligned E.host a.cpu a.value.length
  let (encrypted, tags) := encryption E.cipher a.value E.memtableKey
  let record := putVarint32 internalKeySize ++ (a.key.take keySize ++
    (Bytes.leEncode 8 (packSequenceAndType a.seq a.type.code) ++
      (putVarint32 28 ++ MemTable.valueRecord a.value.length tags untrustBuf)))
  .ok (⟨raw, a.height, encodedLen, record, untrustBuf, a.value.length, encrypted⟩,
    ⟨trusted, untrusted⟩)

/-- A sequence of calls, and what each of them wrote. -/
def addAll : MemTableArenas → List NodeAdd → Outcome (List AddedNode × MemTableArenas)
  | s, [] => .ok ([], s)
  | s, a :: adds => do
      let (n, s) ← s.add E heap a
      let (ns, s) ← addAll s adds
      .ok (n :: ns, s)

end MemTableArenas

/-- Every record and every value stays inside of what was asked for it, and what was written for
different entries is apart, so that no entry writes to the bytes that another one is decoded
from. -/
structure RecordsFit (nodes : List AddedNode) : Prop where
  record : ∀ n ∈ nodes, region n.buf n.record.length ⊆ region n.buf n.encodedLen
  value : ∀ n ∈ nodes, region n.untrustBuf n.value.length ⊆ region n.untrustBuf n.untrustSize
  apart : nodes.Pairwise fun n m => Disjoint n.written m.written
  valuesApart : nodes.Pairwise fun n m => Disjoint (region n.untrustBuf n.value.length)
    (region m.untrustBuf m.value.length)

namespace MemTableArenas

variable {E : MemTableEnv} {heap : HeapAllocator} {s s' : MemTableArenas} {a : NodeAdd}
  {n : AddedNode} {nodes : List AddedNode} {adds : List NodeAdd}

/-- What an add asks for and what it writes. -/
theorem add_eq (h : s.add E heap a = .ok (n, s')) :
    ∃ untrustBuf, n.encodedLen = MemTable.encodedLen (u32 (u32 a.key.length + 8)) ∧
      n.height = a.height ∧
      (n.raw, s'.trusted) = allocateNode heap s.trusted a.cpu n.encodedLen a.height ∧
      n.record = putVarint32 (u32 (u32 a.key.length + 8)) ++ (a.key.take (u32 a.key.length) ++
        (Bytes.leEncode 8 (packSequenceAndType a.seq a.type.code) ++ (putVarint32 28 ++
          MemTable.valueRecord a.value.length (encryption E.cipher a.value E.memtableKey).2
            untrustBuf))) := by
  unfold add at h
  obtain ⟨⟨untrustBuf, untrusted⟩, -, h⟩ := Outcome.bind_eq_ok.mp h
  cases h
  exact ⟨untrustBuf, rfl, rfl, rfl, rfl⟩

theorem length_record (h : s.add E heap a = .ok (n, s')) :
    n.record.length = (putVarint32 (u32 (u32 a.key.length + 8))).length + u32 a.key.length + 37 := by
  obtain ⟨untrustBuf, -, -, -, hrecord⟩ := add_eq h
  have h28 : (putVarint32 28).length = 1 := by decide
  have hkey : (a.key.take (u32 a.key.length)).length = u32 a.key.length := by
    rw [List.length_take]
    exact Nat.min_eq_left (Nat.mod_le _ _)
  rw [hrecord]
  simp only [List.length_append, length_valueRecord, h28, hkey, Bytes.length_leEncode]
  omega

/-- Every record is longer than what is asked for, if only by the one byte that is not
counted. -/
theorem encodedLen_lt (h : s.add E heap a = .ok (n, s')) : n.encodedLen < n.record.length := by
  obtain ⟨untrustBuf, hasked, -⟩ := add_eq h
  have hle : u32 (u32 a.key.length + 8) ≤ u32 a.key.length + 8 := Nat.mod_le _ _
  have hwrap := Nat.mod_le ((putVarint32 (u32 (u32 a.key.length + 8))).length +
    u32 (u32 a.key.length + 8) + 4 + 16 + 8) (2 ^ 32)
  rw [length_record h, hasked, MemTable.encodedLen]
  unfold u32 at *
  omega

theorem addAll_encodedLen_lt (h : s.addAll E heap adds = .ok (nodes, s')) :
    nodes.length = adds.length ∧ ∀ n ∈ nodes, n.encodedLen < n.record.length := by
  induction adds generalizing s nodes with
  | nil =>
      cases h
      exact ⟨rfl, fun _ hn => nomatch hn⟩
  | cons a adds ih =>
      obtain ⟨⟨n, s₁⟩, hadd, h⟩ := Outcome.bind_eq_ok.mp h
      obtain ⟨⟨ns, s₂⟩, hrest, h⟩ := Outcome.bind_eq_ok.mp h
      cases h
      obtain ⟨hlength, hall⟩ := ih hrest
      refine ⟨by rw [List.length_cons, List.length_cons, hlength], ?_⟩
      intro m hm
      rcases List.mem_cons.mp hm with rfl | hm
      · exact encodedLen_lt hadd
      · exact hall m hm

end MemTableArenas

theorem region_subset_iff {p n k : ℕ} : region p n ⊆ region p k ↔ n ≤ k := by
  constructor
  · intro h
    by_contra hlt
    have hmem : p + k ∈ region p n := mem_region.mpr ⟨Nat.le_add_right _ _, by omega⟩
    have hin := mem_region.mp (h hmem)
    omega
  · intro h
    exact region_subset (le_refl _) (by omega)

/-! ### Which entries run into each other -/

theorem disjoint_region_iff {p n q k : ℕ} (hn : 0 < n) (hk : 0 < k) :
    Disjoint (region p n) (region q k) ↔ p + n ≤ q ∨ q + k ≤ p := by
  constructor
  · intro h
    by_contra hboth
    have hmem : max p q ∈ region p n ∧ max p q ∈ region q k := by
      rw [mem_region, mem_region]
      omega
    exact Set.disjoint_left.mp h hmem.1 hmem.2
  · rintro (hle | hle)
    · exact disjoint_region hle
    · exact (disjoint_region hle).symm

namespace AddedNode

/-- The record of `n` ends behind its piece, where `m` begins. -/
def Overruns (n m : AddedNode) : Prop :=
  n.encodedLen % 8 = 0 ∧ m.raw = n.raw + n.piece.2

/-- A record that is longer by one byte than what was asked for. -/
def LongerByOne (n : AddedNode) : Prop := n.record.length = n.encodedLen + 1

theorem disjoint_written_iff {n m : AddedNode} (hn : n.LongerByOne) (hm : m.LongerByOne)
    (hpieces : Disjoint (region n.piece.1 n.piece.2) (region m.piece.1 m.piece.2)) :
    Disjoint n.written m.written ↔ ¬ n.Overruns m ∧ ¬ m.Overruns n := by
  unfold piece linkBytes roundUp8 at hpieces
  rw [disjoint_region_iff (by dsimp only; omega) (by dsimp only; omega)] at hpieces
  unfold written Overruns piece linkBytes roundUp8
  rw [disjoint_region_iff (by omega) (by omega), hn, hm]
  dsimp only at hpieces ⊢
  omega

theorem Overruns.not_disjoint {n m : AddedNode} (h : n.Overruns m)
    (hlong : n.encodedLen < n.record.length) : ¬ Disjoint n.written m.written := by
  obtain ⟨hsize, hraw⟩ := h
  unfold piece linkBytes roundUp8 at hraw
  unfold written linkBytes
  rw [disjoint_region_iff (by omega) (by omega)]
  dsimp only at hraw
  omega

end AddedNode

namespace MemTableArenas

variable {E : MemTableEnv} {heap : HeapAllocator} {s s' : MemTableArenas} {a : NodeAdd}
  {n : AddedNode} {nodes : List AddedNode} {adds : List NodeAdd} {pieces : List (ℕ × ℕ)}

theorem longerByOne (h : s.add E heap a = .ok (n, s')) (hkey : a.key.length ≤ 2 ^ 31) :
    n.LongerByOne := by
  obtain ⟨untrustBuf, hasked, -⟩ := add_eq h
  have hvarint : (putVarint32 (u32 (u32 a.key.length + 8))).length ≤ 5 :=
    Bytes.length_varintEncode_le 4 _
  have hsize : u32 (u32 a.key.length + 8) = u32 a.key.length + 8 := by
    unfold u32
    omega
  rw [hsize] at hvarint
  rw [AddedNode.LongerByOne, length_record h, hasked, MemTable.encodedLen, hsize]
  unfold u32 at *
  omega

theorem apart_add (h : s.add E heap a = .ok (n, s'))
    (hapart : (s.trusted.holdings pieces).Apart) :
    (s'.trusted.holdings (pieces ++ [n.piece])).Apart := by
  obtain ⟨untrustBuf, -, hheight, hraw, -⟩ := add_eq h
  have hnext := ConcurrentArena.apart_allocateAligned heap hapart a.cpu
    (AddedNode.linkBytes a.height + n.encodedLen)
  obtain ⟨hptr, htrusted⟩ := Prod.mk.inj hraw
  rw [htrusted, AddedNode.piece, hptr, hheight]
  exact hnext

theorem apart_addAll (h : s.addAll E heap adds = .ok (nodes, s'))
    (hapart : (s.trusted.holdings pieces).Apart) :
    (s'.trusted.holdings (pieces ++ nodes.map AddedNode.piece)).Apart := by
  induction adds generalizing s nodes pieces with
  | nil =>
      cases h
      rwa [List.map_nil, List.append_nil]
  | cons a adds ih =>
      obtain ⟨⟨n, s₁⟩, hadd, h⟩ := Outcome.bind_eq_ok.mp h
      obtain ⟨⟨ns, s₂⟩, hrest, h⟩ := Outcome.bind_eq_ok.mp h
      cases h
      have hnext := ih hrest (apart_add hadd hapart)
      rwa [List.append_assoc, List.singleton_append] at hnext

theorem addAll_longerByOne (h : s.addAll E heap adds = .ok (nodes, s'))
    (hkeys : ∀ a ∈ adds, a.key.length ≤ 2 ^ 31) : ∀ n ∈ nodes, n.LongerByOne := by
  induction adds generalizing s nodes with
  | nil =>
      cases h
      exact fun _ hn => nomatch hn
  | cons a adds ih =>
      obtain ⟨⟨n, s₁⟩, hadd, h⟩ := Outcome.bind_eq_ok.mp h
      obtain ⟨⟨ns, s₂⟩, hrest, h⟩ := Outcome.bind_eq_ok.mp h
      cases h
      intro m hm
      rcases List.mem_cons.mp hm with rfl | hm
      · exact longerByOne hadd (hkeys a List.mem_cons_self)
      · exact ih hrest (fun b hb => hkeys b (List.mem_cons_of_mem _ hb)) m hm

/-- What was written for different entries is apart exactly if no node begins right behind a
record whose size is a multiple of eight. -/
theorem written_apart_iff (h : s.addAll E heap adds = .ok (nodes, s'))
    (hapart : (s.trusted.holdings pieces).Apart) (hkeys : ∀ a ∈ adds, a.key.length ≤ 2 ^ 31) :
    nodes.Pairwise (fun n m => Disjoint n.written m.written) ↔
      nodes.Pairwise fun n m => ¬ n.Overruns m ∧ ¬ m.Overruns n := by
  have hlong := addAll_longerByOne h hkeys
  have hall := apart_addAll h hapart
  have hpieces : nodes.Pairwise fun n m =>
      Disjoint (region n.piece.1 n.piece.2) (region m.piece.1 m.piece.2) := by
    rw [List.pairwise_iff_getElem]
    intro i j hi hj hij
    have hget : ∀ k (hk : k < nodes.length),
        (pieces ++ nodes.map AddedNode.piece)[pieces.length + k]? = some (nodes[k]).piece := by
      intro k hk
      rw [List.getElem?_append_right (Nat.le_add_right _ _), Nat.add_sub_cancel_left,
        List.getElem?_map, List.getElem?_eq_getElem hk]
      rfl
    exact hall.disjoint_pieces (by omega) (hget i hi) (hget j hj)
  constructor
  · intro hdisjoint
    apply (hpieces.and hdisjoint).imp_of_mem
    rintro n m hn hm ⟨hpiece, hwritten⟩
    exact (AddedNode.disjoint_written_iff (hlong n hn) (hlong m hm) hpiece).mp hwritten
  · intro hover
    apply (hpieces.and hover).imp_of_mem
    rintro n m hn hm ⟨hpiece, hnot⟩
    exact (AddedNode.disjoint_written_iff (hlong n hn) (hlong m hm) hpiece).mpr hnot

/-- The arenas of a new memtable. -/
theorem apart_create (blockSize shardCount inlineBlock cpu : ℕ) :
    ∃ pieces, ((create heap blockSize shardCount inlineBlock cpu).trusted.holdings pieces).Apart := by
  have htable : ∀ (c : ConcurrentArena) (pieces : List (ℕ × ℕ)), (c.holdings pieces).Apart →
      ∃ pieces', ((createTable heap c cpu).holdings pieces').Apart := by
    intro c pieces hc
    have hhead := ConcurrentArena.apart_allocateAligned heap hc cpu (AddedNode.linkBytes 12 + 0)
    exact ⟨_, ConcurrentArena.apart_allocateAligned heap hhead cpu (24 + 2 * (8 * 13))⟩
  obtain ⟨pieces, hfirst⟩ := htable _ _ (ConcurrentArena.apart_create blockSize shardCount inlineBlock)
  exact htable _ _ hfirst

end MemTableArenas

/-- No entry that was added fits what was allocated for it. -/
theorem recordsFit_iff {E : MemTableEnv} {heap : HeapAllocator} {s s' : MemTableArenas}
    {adds : List NodeAdd} {nodes : List AddedNode}
    (h : s.addAll E heap adds = .ok (nodes, s')) : RecordsFit nodes ↔ adds = [] := by
  obtain ⟨hlength, hlong⟩ := MemTableArenas.addAll_encodedLen_lt h
  constructor
  · intro hfit
    cases nodes with
    | nil => exact List.eq_nil_of_length_eq_zero hlength.symm
    | cons n ns =>
        have hle := region_subset_iff.mp (hfit.record n List.mem_cons_self)
        have hlt := hlong n List.mem_cons_self
        omega
  · rintro rfl
    cases h
    exact ⟨(fun _ hn => nomatch hn), (fun _ hn => nomatch hn), .nil, .nil⟩

/-- A heap that places each block behind all others. -/
def sampleHeap : HeapAllocator where
  place held _ := held.foldr (fun b top => max (b.1 + b.2) top) 0
  apart := by
    intro held n b hb
    have hle : b.1 + b.2 ≤ held.foldr (fun b top => max (b.1 + b.2) top) 0 := by
      induction held with
      | nil => exact absurd hb List.not_mem_nil
      | cons d held ih =>
          rw [List.foldr_cons]
          rcases List.mem_cons.mp hb with rfl | hb
          · exact le_max_left _ _
          · exact le_trans (ih hb) (le_max_right _ _)
    exact (disjoint_region hle).symm

/-- Two puts with keys of three bytes. -/
def shortPuts : List NodeAdd :=
  [⟨0, 1, 1, .value, [97, 97, 97], [1]⟩, ⟨0, 1, 2, .value, [98, 98, 98], [2]⟩]

theorem shortPuts_addAll : ∃ n m s', (MemTableArenas.create sampleHeap 4096 8 64 0).addAll
    sampleEnv sampleHeap shortPuts = .ok ([n, m], s') ∧ n.encodedLen < n.record.length ∧
      n.Overruns m :=
  ⟨_, _, _, rfl, by decide, by decide, by decide⟩

/-- The second node begins right behind the first one, on the last byte of its record. -/
theorem shortPuts_not_fit : ∃ n m s', (MemTableArenas.create sampleHeap 4096 8 64 0).addAll
    sampleEnv sampleHeap shortPuts = .ok ([n, m], s') ∧
      ¬ RecordsFit [n, m] ∧ ¬ Disjoint n.written m.written := by
  obtain ⟨n, m, s', hrun, hlong, hover⟩ := shortPuts_addAll
  refine ⟨n, m, s', hrun, ?_, hover.not_disjoint hlong⟩
  intro hfit
  have hle := region_subset_iff.mp (hfit.record n List.mem_cons_self)
  omega

theorem recordsFit_shortPuts : ∃ nodes s', (MemTableArenas.create sampleHeap 4096 8 64 0).addAll
    sampleEnv sampleHeap shortPuts = .ok (nodes, s') ∧ (RecordsFit nodes ↔ shortPuts = []) := by
  obtain ⟨n, m, s', hrun, -, -⟩ := shortPuts_addAll
  exact ⟨[n, m], s', hrun, recordsFit_iff hrun⟩

end Tweezer
