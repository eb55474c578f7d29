import Tweezer.MemTableGet

/-!
# What a sequence of adds leaves behind

The invariant of the memtable: its records are those of the entries added, in the order of
the skip list, and for each of them the arena memory at its address holds the ciphertext of
its value. Adding keeps it, unless the value is longer than a block of the arena or the
record is longer than the node that was allocated for it.
-/

namespace Tweezer

variable {types : List ValueType}

def MemTableEntry.version (a : MemTableEntry types) : Bytes × ℕ := (a.key, a.seq.val)

def compareAdds (u : Comparator) (a b : MemTableEntry types) : Ordering :=
  compareVersions u a.version b.version

instance (u : Comparator) : Std.TransCmp (fun a b : MemTableEntry types => compareAdds u a b) :=
  transCmp_comap (inferInstanceAs (Std.TransCmp (compareVersions u))) MemTableEntry.version

/-- Calls of `Add` with distinct pairs of key and sequence number, each with its core. -/
structure MemTableHistory (u : Comparator) where
  calls : List (ℕ × MemTableAdd)
  distinct : (calls.map Prod.snd).Pairwise (fun a b => compareAdds u a b ≠ .eq)

def MemTableHistory.adds {u : Comparator} (h : MemTableHistory u) : List MemTableAdd :=
  h.calls.map Prod.snd

/-- The record of an entry whose value lies at `ptr`. -/
def valueRecordOf (E : MemTableEnv) (a : MemTableEntry types) (ptr : ℕ) : Bytes :=
  MemTable.valueRecord a.value.length (encryption E.cipher a.value E.memtableKey).2 ptr

def recordOf (E : MemTableEnv) (a : MemTableEntry types) (ptr : ℕ) : Bytes :=
  putVarint32 a.internalKey.length ++ (a.internalKey ++ (putVarint32 28 ++ valueRecordOf E a ptr))

/-- The record of this key fits the node that is allocated for it. -/
def RecordFits (a : MemTableEntry types) : Prop := MemTable.encodedLen a.internalKey.length % 8 ≠ 0

instance (a : MemTableEntry types) : Decidable (RecordFits a) := inferInstanceAs (Decidable (_ ≠ _))

variable {E : MemTableEnv} {a b : MemTableEntry types} {ptr : ℕ}

theorem length_internalKey (a : MemTableEntry types) : a.internalKey.length = a.key.length + 8 := by
  rw [MemTableEntry.internalKey, List.length_append, Bytes.length_leEncode]

theorem ValueType.code_lt (t : ValueType) : t.code < 256 := by
  cases t <;> decide

theorem packSequenceAndType_eq {seq code : ℕ} (hs : seq ≤ kMaxSequenceNumber) (hc : code < 256) :
    packSequenceAndType seq code = seq * 256 + code := by
  rw [kMaxSequenceNumber] at hs
  rw [packSequenceAndType]
  omega

theorem packSequenceAndType_lt (seq code : ℕ) : packSequenceAndType seq code < 2 ^ 64 :=
  Nat.mod_lt _ (Nat.two_pow_pos 64)

theorem extractUserKey_internalKey (a : MemTableEntry types) : extractUserKey a.internalKey = a.key :=
  extractUserKey_append _ _

theorem footer_internalKey (a : MemTableEntry types) :
    extractInternalKeyFooter a.internalKey = a.seq.val * 256 + a.type.code := by
  rw [MemTableEntry.internalKey, extractInternalKeyFooter_append _ (packSequenceAndType_lt _ _),
    packSequenceAndType_eq a.seq.property.2 a.type.code_lt]

theorem compareKeySeq_internalKey (u : Comparator) (a b : MemTableEntry types) :
    compareKeySeq u a.internalKey b.internalKey = compareAdds u a b := by
  have ha := a.type.code_lt
  have hb := b.type.code_lt
  rw [compareKeySeq, extractUserKey_internalKey, extractUserKey_internalKey, footer_internalKey,
    footer_internalKey, compareAdds, compareVersions, MemTableEntry.version, MemTableEntry.version,
    show (b.seq.val * 256 + b.type.code) / 256 = b.seq.val by omega,
    show (a.seq.val * 256 + a.type.code) / 256 = a.seq.val by omega]

theorem length_valueRecord (size : ℕ) (tags : Mac) (ptr : ℕ) :
    (MemTable.valueRecord size tags ptr).length = 28 := by
  rw [MemTable.valueRecord, List.length_append, List.length_append, Bytes.length_leEncode,
    Bytes.length_leEncode, tags.property]

theorem getLengthPrefixedSlice_recordOf (E : MemTableEnv) (a : MemTableEntry types) (ptr : ℕ) :
    getLengthPrefixedSlice (recordOf E a ptr) =
      .ok (a.internalKey, putVarint32 28 ++ valueRecordOf E a ptr) := by
  have hlen := length_internalKey a
  have hkey := a.length_key
  exact getLengthPrefixedSlice_putVarint32 (by omega) _

theorem getLengthPrefixedSlice_valueRecordOf (E : MemTableEnv) (a : MemTableEntry types) (ptr : ℕ) :
    getLengthPrefixedSlice (putVarint32 28 ++ valueRecordOf E a ptr) =
      .ok (valueRecordOf E a ptr, []) := by
  have hlen : (valueRecordOf E a ptr).length = 28 := length_valueRecord _ _ _
  have h := getLengthPrefixedSlice_putVarint32 (s := valueRecordOf E a ptr)
    (by rw [hlen]; decide) []
  rwa [List.append_nil, hlen] at h

theorem compareRecords_recordOf (p q : ℕ) :
    MemTable.compareRecords E.ucmp (recordOf E a p) (recordOf E b q) = compareAdds E.ucmp a b := by
  rw [MemTable.compareRecords]
  dsimp only
  rw [getLengthPrefixedSlice_recordOf, getLengthPrefixedSlice_recordOf]
  exact compareKeySeq_internalKey E.ucmp a b

/-- The address in a record leads to the bytes written for it. -/
theorem readUntrusted_valueRecordOf {memory : Memory} (hptr : ptr < 2 ^ 64)
    (hsize : a.value.length ≤ kUntrustedBlockSize) :
    MemTable.readUntrusted memory (valueRecordOf E a ptr) =
      .ok (memory.read ptr a.value.length, (encryption E.cipher a.value E.memtableKey).2) := by
  obtain ⟨tags, htags⟩ : ∃ t, t = (encryption E.cipher a.value E.memtableKey).2 := ⟨_, rfl⟩
  have htl := tags.property
  rw [kUntrustedBlockSize] at hsize
  have hu : u32 a.value.length = a.value.length := u32_of_lt (by omega)
  obtain ⟨size, hs⟩ : ∃ s, s = Bytes.leEncode 4 a.value.length := ⟨_, rfl⟩
  obtain ⟨addr, haddr⟩ : ∃ s, s = Bytes.leEncode 8 ptr := ⟨_, rfl⟩
  have hsl : size.length = 4 := by rw [hs, Bytes.length_leEncode]
  have hal : addr.length = 8 := by rw [haddr, Bytes.length_leEncode]
  have hsd : Bytes.leDecode size = a.value.length := by
    rw [hs]
    exact Bytes.leDecode_leEncode_of_lt (lt_of_le_of_lt hsize (by decide))
  have had : Bytes.leDecode addr = ptr := by
    rw [haddr]
    exact Bytes.leDecode_leEncode_of_lt (lt_of_lt_of_le hptr (by decide))
  have hrecord : valueRecordOf E a ptr = size ++ (tags.val ++ addr) := by
    rw [valueRecordOf, MemTable.valueRecord, hu, ← htags, ← hs, ← haddr]
  have hlen : (size ++ (tags.val ++ addr)).length = 28 := by
    rw [List.length_append, List.length_append, hsl, htl, hal]
  have htag : Bytes.fetchOctets (size ++ (tags.val ++ addr)) 4 16 = .ok tags := by
    rw [Bytes.fetchOctets_of_le (by omega)]
    exact congrArg _ (Subtype.ext (Bytes.slice_eq_of_append hsl htl))
  have hptr' : Bytes.fetch (size ++ (tags.val ++ addr)) 20 8 = .ok addr := by
    have hfront : (size ++ tags.val).length = 20 := by rw [List.length_append, hsl, htl]
    rw [Bytes.fetch_of_le (by omega), ← List.append_assoc, Bytes.slice,
      Bytes.drop_append_of_length hfront, List.take_of_length_le hal.le]
  rw [hrecord, MemTable.readUntrusted, Bytes.fetch_of_le (by omega), Bytes.slice_zero_append hsl,
    Outcome.ok_bind, htag, Outcome.ok_bind, hptr', Outcome.ok_bind, had, hsd, htags]

/-- What the iterator gives at a record: its key, and the bytes outside as they are. -/
theorem iteratorEntry_recordOf {m : MemTable} (hptr : ptr < 2 ^ 64)
    (hsize : a.value.length ≤ kUntrustedBlockSize) :
    m.iteratorEntry (recordOf E a ptr) =
      .ok (a.internalKey, m.memory.read ptr a.value.length) := by
  rw [MemTable.iteratorEntry, getLengthPrefixedSlice_recordOf, Outcome.ok_bind]
  dsimp only
  rw [getLengthPrefixedSlice_valueRecordOf, Outcome.ok_bind]
  dsimp only
  rw [readUntrusted_valueRecordOf hptr hsize]
  rfl

/-- Every record is longer by one byte than what is asked for. -/
theorem length_recordOf (E : MemTableEnv) (a : MemTableEntry types) (ptr : ℕ) :
    (recordOf E a ptr).length = MemTable.encodedLen a.internalKey.length + 1 := by
  have hlen := length_internalKey a
  have hkey := a.length_key
  have h28 : (putVarint32 28).length = 1 := by decide
  have hvarint : (putVarint32 a.internalKey.length).length ≤ 5 :=
    Bytes.length_varintEncode_le 4 _
  have hvalue : (valueRecordOf E a ptr).length = 28 := length_valueRecord _ _ _
  rw [recordOf, MemTable.encodedLen, u32_of_lt (by omega)]
  simp only [List.length_append, hvalue, h28]
  omega

theorem recordFits_iff (E : MemTableEnv) (a : MemTableEntry types) (ptr : ℕ) :
    RecordFits a ↔
      ¬ roundUp8 (MemTable.encodedLen a.internalKey.length) < (recordOf E a ptr).length := by
  rw [RecordFits, length_recordOf, roundUp8]
  omega

/-- The order of cells. -/
def compareCells (u : Comparator) (c d : MemTableEntry types × ℕ) : Ordering := compareAdds u c.1 d.1

instance (u : Comparator) :
    Std.TransCmp (fun c d : MemTableEntry types × ℕ => compareCells u c d) :=
  transCmp_comap (inferInstanceAs (Std.TransCmp fun a b : MemTableEntry types => compareAdds u a b)) Prod.fst

/-- What a table keeps, whatever happens to the memory outside. The cells are the entries with
their addresses, in the order of the skip list; the regions are the pieces of memory that the
arena has handed out. -/
structure TableKeeps (E : MemTableEnv) (table : List Bytes) (adds : List (MemTableEntry types))
    (cells : List (MemTableEntry types × ℕ)) (regions : List (ℕ × ℕ)) : Prop where
  perm : (cells.map Prod.fst).Perm adds
  sorted : cells.Pairwise (fun c d => compareCells E.ucmp c d = .lt)
  table_eq : table = cells.map fun c => recordOf E c.1 c.2
  mem_regions : ∀ c ∈ cells, (c.2, roundUp8 c.1.value.length) ∈ regions
  value_le : ∀ c ∈ cells, c.1.value.length ≤ kUntrustedBlockSize
  ptr_lt : ∀ c ∈ cells, c.2 < 2 ^ 64

theorem TableKeeps.length_cells {E : MemTableEnv} {table : List Bytes}
    {adds : List (MemTableEntry types)} {cells : List (MemTableEntry types × ℕ)}
    {regions : List (ℕ × ℕ)} (h : TableKeeps E table adds cells regions) :
    cells.length = adds.length := by
  rw [← h.perm.length_eq, List.length_map]

/-- The memory outside holds the ciphertext of every value. -/
def Stored (E : MemTableEnv) (memory : Memory) (cells : List (MemTableEntry types × ℕ)) : Prop :=
  ∀ c ∈ cells, memory.read c.2 c.1.value.length = E.cipher.enc E.memtableKey c.1.value

/-- The invariant of the memtable. -/
structure MemTable.Holds (E : MemTableEnv) (m : MemTable) (adds : List (MemTableEntry types))
    (cells : List (MemTableEntry types × ℕ)) (regions : List (ℕ × ℕ)) : Prop
    extends TableKeeps E m.table adds cells regions where
  arena : m.arena.Inv E.host regions
  reads : Stored E m.memory cells
  blocks_le : m.arena.arena.blocks ≤ adds.length
  isEmpty_iff : m.firstSeqno = 0 ↔ adds = []

theorem tableKeeps_nil (E : MemTableEnv) (regions : List (ℕ × ℕ)) :
    TableKeeps E [] ([] : List (MemTableEntry types)) [] regions :=
  ⟨.refl _, .nil, rfl, (fun _ h => nomatch h), (fun _ h => nomatch h), (fun _ h => nomatch h)⟩

theorem stored_nil (E : MemTableEnv) (memory : Memory) :
    Stored E memory ([] : List (MemTableEntry types × ℕ)) := fun _ h => nomatch h

theorem MemTable.holds_empty (E : MemTableEnv) (memory : Memory) (shardCount : ℕ) :
    (MemTable.empty memory shardCount).Holds E ([] : List (MemTableEntry types)) [] [] :=
  ⟨tableKeeps_nil E [], UntrustedConcurrentArena.inv_create shardCount, stored_nil E memory,
    Nat.zero_le _, ⟨fun _ => rfl, fun _ => rfl⟩⟩

theorem insertKey_recordOf (c : MemTableEntry types × ℕ) (cells : List (MemTableEntry types × ℕ)) :
    MemTable.insertKey E.ucmp (recordOf E c.1 c.2) (cells.map fun c => recordOf E c.1 c.2) =
      (OrderedCursor.insert (compareCells E.ucmp) c cells).map
        (List.map fun c => recordOf E c.1 c.2) := by
  rw [MemTable.insertKey]
  induction cells with
  | nil => rfl
  | cons d cells ih =>
      rw [List.map_cons, OrderedCursor.insert, OrderedCursor.insert, compareRecords_recordOf,
        compareCells, ih]
      cases compareAdds E.ucmp c.1 d.1 with
      | lt => rfl
      | eq => rfl
      | gt => rw [Option.map_map, Option.map_map]; rfl

/-- What an old cell reads is not touched by a write to the region that was handed out last. -/
theorem UntrustedConcurrentArena.Inv.read_write {host : BlockAllocator}
    {c : UntrustedConcurrentArena} {regions : List (ℕ × ℕ)} {p n q k l : ℕ}
    (h : c.Inv host (regions ++ [(p, n)])) (hq : (q, k) ∈ regions) (hl : l ≤ k) {memory : Memory}
    {data : Bytes} (hdata : data.length ≤ n) :
    (memory.write p data).read q l = memory.read q l := by
  obtain ⟨i, hi⟩ := List.mem_iff_getElem?.mp hq
  have hlt : i < regions.length := (List.getElem?_eq_some_iff.mp hi).1
  have hne : Owner.value regions.length ≠ Owner.value i := fun heq => by
    have := Owner.value.inj heq
    omega
  have hown : c.own host (regions ++ [(p, n)]) (.value i) = region q k := by
    rw [own_value_append_of_ne (by omega)]
    ext a
    simp [own, hi]
  have hapart := h.apart hne
  rw [Function.onFun, own_value_append_self, hown] at hapart
  apply Memory.read_write_of_disjoint
  exact hapart.mono (region_subset (le_refl _) (by omega)) (region_subset (le_refl _) (by omega))

variable {m : MemTable} {adds : List (MemTableEntry types)} {cells : List (MemTableEntry types × ℕ)}
  {regions : List (ℕ × ℕ)}

/-- `add` once the memory for the value is there. -/
theorem MemTable.add_of_allocated (cpu : ℕ) (a : MemTableEntry types) {arena : UntrustedConcurrentArena}
    (h : m.arena.allocateAligned E.host cpu a.value.length = .ok (ptr, arena)) :
    m.add E cpu a =
      let memory := m.memory.write ptr (E.cipher.enc E.memtableKey a.value)
      if roundUp8 (MemTable.encodedLen a.internalKey.length) < (recordOf E a ptr).length then
        .error .outOfBuffer
      else match MemTable.insertKey E.ucmp (recordOf E a ptr) m.table with
        | none => .ok (false, { m with arena := arena, memory := memory })
        | some table => .ok (true, ⟨table, arena, memory,
            if m.firstSeqno = 0 then a.seq.val else m.firstSeqno⟩) := by
  have hkey := a.length_key
  have hlen := length_internalKey a
  have hu : u32 a.key.length = a.key.length := u32_of_lt (by omega)
  have hu8 : u32 (a.key.length + 8) = a.internalKey.length := by
    rw [u32_of_lt (by omega), hlen]
  have hwrite : (m.memory.write ptr a.value).write ptr (E.cipher.enc E.memtableKey a.value) =
      m.memory.write ptr (E.cipher.enc E.memtableKey a.value) :=
    Memory.write_write (E.cipher.length_enc _ _).symm
  have hrecord : putVarint32 a.internalKey.length ++ (a.key.take a.key.length ++
      (Bytes.leEncode 8 (packSequenceAndType a.seq.val a.type.code) ++ (putVarint32 28 ++
        MemTable.valueRecord a.value.length (encryption E.cipher a.value E.memtableKey).2 ptr))) =
      recordOf E a ptr := by
    rw [recordOf, MemTableEntry.internalKey, List.take_length, List.append_assoc]
    rfl
  rw [MemTable.add, h, Outcome.ok_bind]
  simp only [hu, hu8, ← hrecord, ← hwrite]
  rfl

/-- What an add leaves: the table has the entry with its address, and the memory outside has
its ciphertext there. -/
structure MemTable.Added (E : MemTableEnv) (m m' : MemTable) (a : MemTableEntry types)
    (adds : List (MemTableEntry types)) (cells cells' : List (MemTableEntry types × ℕ))
    (regions : List (ℕ × ℕ)) (ptr : ℕ) : Prop where
  keeps : TableKeeps E m'.table (adds ++ [a]) cells' (regions ++ [(ptr, roundUp8 a.value.length)])
  arena : m'.arena.Inv E.host (regions ++ [(ptr, roundUp8 a.value.length)])
  perm : cells'.Perm ((a, ptr) :: cells)
  memory : m'.memory = m.memory.write ptr (E.cipher.enc E.memtableKey a.value)
  blocks_le : m'.arena.arena.blocks ≤ m.arena.arena.blocks + 1
  firstSeqno : m'.firstSeqno = if m.firstSeqno = 0 then a.seq.val else m.firstSeqno

/-- An entry that fits is added, to a table that keeps what it should in an arena in order. -/
theorem TableKeeps.add (h : TableKeeps E m.table adds cells regions)
    (harena : m.arena.Inv E.host regions) (cpu : ℕ) (a : MemTableEntry types)
    (hvalue : a.value.length ≤ kUntrustedBlockSize) (hfits : RecordFits a)
    (hhost : m.arena.arena.blocks < E.host.blocks)
    (hdistinct : ∀ b ∈ adds, compareAdds E.ucmp a b ≠ .eq) :
    ∃ m' cells' ptr, m.add E cpu a = .ok (true, m') ∧
      MemTable.Added E m m' a adds cells cells' regions ptr := by
  obtain ⟨p, arena, halloc, hinv, hlt, hblocks⟩ := harena.allocateAligned cpu
    (b := a.value.length) hhost ((UntrustedConcurrentArena.roundUp8_le_iff _).mpr hvalue)
  obtain ⟨cells', hcells⟩ : ∃ l, OrderedCursor.insert (compareCells E.ucmp) (a, p) cells = some l := by
    apply OrderedCursor.insert_of_ne
    intro d hd
    exact hdistinct d.1 (h.perm.mem_iff.mp (List.mem_map_of_mem hd))
  have hperm := OrderedCursor.insert_perm hcells
  have hcell : ∀ {P : MemTableEntry types × ℕ → Prop}, P (a, p) → (∀ d ∈ cells, P d) →
      ∀ d ∈ cells', P d := by
    intro P hnew hold d hd
    rcases List.mem_cons.mp (hperm.mem_iff.mp hd) with rfl | hd
    · exact hnew
    · exact hold d hd
  refine ⟨⟨cells'.map fun c => recordOf E c.1 c.2, arena,
    m.memory.write p (E.cipher.enc E.memtableKey a.value),
    if m.firstSeqno = 0 then a.seq.val else m.firstSeqno⟩, cells', p, ?_,
    ⟨?_, ?_, rfl, ?_, ?_, ?_⟩, hinv, hperm, rfl, hblocks, rfl⟩
  · rw [MemTable.add_of_allocated cpu a halloc]
    dsimp only
    rw [if_neg ((recordFits_iff E a p).mp hfits), h.table_eq,
      insertKey_recordOf (a, p) cells, hcells, Option.map_some]
  · exact (hperm.map Prod.fst).trans ((h.perm.cons a).trans (List.perm_append_singleton a adds).symm)
  · exact OrderedCursor.insert_sorted h.sorted hcells
  · exact hcell (List.mem_append_right _ (List.mem_singleton.mpr rfl))
      fun d hd => List.mem_append_left _ (h.mem_regions d hd)
  · exact hcell hvalue h.value_le
  · exact hcell (by dsimp only; omega) h.ptr_lt

/-- What is stored for other entries stays there. -/
theorem MemTable.Added.stored_of_mem {types' : List ValueType} {m' : MemTable} {a : MemTableEntry types}
    {cells' : List (MemTableEntry types × ℕ)} (h : MemTable.Added E m m' a adds cells cells' regions ptr)
    {others : List (MemTableEntry types' × ℕ)}
    (hmem : ∀ c ∈ others, (c.2, roundUp8 c.1.value.length) ∈ regions)
    (hstored : Stored E m.memory others) : Stored E m'.memory others := by
  intro c hc
  have hlen : ∀ n, n ≤ roundUp8 n := fun n => by
    rw [roundUp8]
    omega
  have henc : (E.cipher.enc E.memtableKey a.value).length = a.value.length :=
    E.cipher.length_enc _ _
  rw [h.memory, h.arena.read_write (hmem c hc) (hlen _) (by rw [henc]; exact hlen _)]
  exact hstored c hc

theorem MemTable.Added.stored {m' : MemTable} {a : MemTableEntry types}
    {cells' : List (MemTableEntry types × ℕ)} (h : MemTable.Added E m m' a adds cells cells' regions ptr)
    (hmem : ∀ c ∈ cells, (c.2, roundUp8 c.1.value.length) ∈ regions)
    (hstored : Stored E m.memory cells) : Stored E m'.memory cells' := by
  intro c hc
  rcases List.mem_cons.mp (h.perm.mem_iff.mp hc) with rfl | hc
  · have henc : (E.cipher.enc E.memtableKey a.value).length = a.value.length :=
      E.cipher.length_enc _ _
    dsimp only
    rw [h.memory, ← henc, Memory.read_write]
  · exact h.stored_of_mem hmem hstored c hc

theorem MemTable.Added.firstSeqno_ne {m' : MemTable} {a : MemTableEntry types}
    {cells' : List (MemTableEntry types × ℕ)}
    (h : MemTable.Added E m m' a adds cells cells' regions ptr) : m'.firstSeqno ≠ 0 := by
  have hpos := a.seq.property.1
  rw [h.firstSeqno]
  split_ifs with hfirst
  · omega
  · exact hfirst

theorem MemTable.Holds.add (h : m.Holds E adds cells regions) (cpu : ℕ) (a : MemTableEntry types)
    (hvalue : a.value.length ≤ kUntrustedBlockSize) (hfits : RecordFits a)
    (hhost : adds.length < E.host.blocks) (hdistinct : ∀ b ∈ adds, compareAdds E.ucmp a b ≠ .eq) :
    ∃ m' cells' regions', m.add E cpu a = .ok (true, m') ∧
      m'.Holds E (adds ++ [a]) cells' regions' := by
  have hblocks := h.blocks_le
  obtain ⟨m', cells', p, hadd, hadded⟩ := h.toTableKeeps.add h.arena cpu a hvalue hfits (by omega)
    hdistinct
  refine ⟨m', cells', _, hadd, hadded.keeps, hadded.arena, hadded.stored h.mem_regions h.reads,
    ?_, ?_⟩
  · rw [List.length_append, List.length_singleton]
    exact hadded.blocks_le.trans (Nat.succ_le_succ hblocks)
  · constructor
    · exact fun hz => absurd hz hadded.firstSeqno_ne
    · intro hnil
      exact absurd hnil (List.append_ne_nil_of_right_ne_nil _ (List.cons_ne_nil _ _))

/-- A value longer than a block ends the process. -/
theorem MemTable.add_exit (h : m.arena.Inv E.host regions) (cpu : ℕ) (a : MemTableEntry types)
    (hvalue : kUntrustedBlockSize < a.value.length) : m.add E cpu a = .error .exit := by
  have hlong : kUntrustedBlockSize < roundUp8 a.value.length := by
    have := (UntrustedConcurrentArena.roundUp8_le_iff a.value.length).not.mpr (by omega)
    omega
  rw [MemTable.add, h.allocateAligned_exit cpu hlong, Outcome.error_bind]

/-- A record that is longer than its node runs over its end. -/
theorem MemTable.add_overrun (h : m.arena.Inv E.host regions) (cpu : ℕ) (a : MemTableEntry types)
    (hvalue : a.value.length ≤ kUntrustedBlockSize) (hfits : ¬ RecordFits a)
    (hhost : m.arena.arena.blocks < E.host.blocks) : m.add E cpu a = .error .outOfBuffer := by
  obtain ⟨p, arena, halloc, -⟩ := h.allocateAligned cpu (b := a.value.length) hhost
    ((UntrustedConcurrentArena.roundUp8_le_iff _).mpr hvalue)
  rw [MemTable.add_of_allocated cpu a halloc]
  exact if_pos (not_not.mp ((recordFits_iff E a p).not.mp hfits))

/-- An add that neither ends the process nor overruns its record. -/
def AddFits (a : MemTableEntry types) : Prop := a.value.length ≤ kUntrustedBlockSize ∧ RecordFits a

/-- A sequence of adds goes through exactly if each of them fits, and then leaves the
invariant behind. -/
theorem MemTable.Holds.addAll (h : m.Holds E adds cells regions) (calls : List (ℕ × MemTableEntry types))
    (hhost : adds.length + calls.length ≤ E.host.blocks)
    (hdistinct : (adds ++ calls.map Prod.snd).Pairwise
      (fun a b => compareAdds E.ucmp a b ≠ .eq)) :
    ((∀ c ∈ calls, AddFits c.2) → ∃ m' cells' regions', m.addAll E calls = .ok m' ∧
        m'.Holds E (adds ++ calls.map Prod.snd) cells' regions') ∧
      (∀ m', m.addAll E calls = .ok m' → ∀ c ∈ calls, AddFits c.2) := by
  induction calls generalizing m adds cells regions with
  | nil =>
      constructor
      · intro _
        exact ⟨m, cells, regions, rfl, by rwa [List.map_nil, List.append_nil]⟩
      · intro m' _ c hc
        cases hc
  | cons call calls ih =>
      obtain ⟨cpu, a⟩ := call
      rw [List.length_cons] at hhost
      have hblocks := h.blocks_le
      have hdistinct' : ∀ b ∈ adds, compareAdds E.ucmp a b ≠ .eq := by
        intro b hb heq
        rw [List.map_cons, List.pairwise_append] at hdistinct
        exact hdistinct.2.2 b hb a List.mem_cons_self (Std.OrientedCmp.eq_comm.mp heq)
      have hshift : adds ++ ((cpu, a) :: calls).map Prod.snd =
          (adds ++ [a]) ++ calls.map Prod.snd := by
        rw [List.map_cons, List.append_assoc, List.singleton_append]
      by_cases hvalue : a.value.length ≤ kUntrustedBlockSize
      · by_cases hfits : RecordFits a
        · obtain ⟨m₁, cells₁, regions₁, hadd, hholds⟩ :=
            h.add cpu a hvalue hfits (by omega) hdistinct'
          rw [hshift] at hdistinct ⊢
          obtain ⟨hsome, honly⟩ := ih hholds (by
            rw [List.length_append, List.length_singleton]
            omega) hdistinct
          rw [MemTable.addAll, hadd, Outcome.ok_bind]
          dsimp only
          constructor
          · intro hall
            exact hsome fun c hc => hall c (List.mem_cons_of_mem _ hc)
          · intro m' hm' c hc
            rcases List.mem_cons.mp hc with rfl | hc
            · exact ⟨hvalue, hfits⟩
            · exact honly m' hm' c hc
        · rw [MemTable.addAll, m.add_overrun h.arena cpu a hvalue hfits (by omega), Outcome.error_bind]
          constructor
          · intro hall
            exact absurd (hall _ List.mem_cons_self).2 hfits
          · intro m' hm'
            cases hm'
      · rw [MemTable.addAll, m.add_exit h.arena cpu a (by omega), Outcome.error_bind]
        constructor
        · intro hall
          exact absurd (hall _ List.mem_cons_self).1 hvalue
        · intro m' hm'
          cases hm'

end Tweezer
