import Tweezer.BlockFetcher
import Tweezer.LabelledMemory
import Tweezer.MemTableRanges

/-!
# What lies outside the enclave

Runs of `MemTable::Add`, of table opens and of block reads, with every write to the untrusted
arena and to the buffers of the untrusted allocator. Encryption and decryption work in place, so
that a value lies outside before it is encrypted there, and a block that is read into a buffer
outside is decrypted in it.
-/

namespace Tweezer

open LabelledWrite

def UntrustedWrite.labelled (w : UntrustedWrite) : LabelledWrite Origin :=
  ⟨w.address, w.pieces.flatMap fun p => p.2.map (Prod.mk p.1)⟩

def UntrustedWrite.data (w : UntrustedWrite) : Bytes := w.pieces.flatMap Prod.snd

/-- The writes of `Add` to the arena outside: the value, and its ciphertext in the same place. -/
def MemTable.addWrites {types : List ValueType} (E : MemTableEnv) (m : MemTable) (cpu : ℕ)
    (a : MemTableEntry types) : List UntrustedWrite :=
  match m.arena.allocateAligned E.host cpu a.value.length with
  | .error _ => []
  | .ok (untrustBuf, _) => [⟨untrustBuf, [(.plaintext, a.value)]⟩,
      ⟨untrustBuf, [(.ciphertext, (encryption E.cipher a.value E.memtableKey).1)]⟩]

def MemTableCall.value : MemTableCall → Bytes
  | .inl a => a.value
  | .inr r => r.value

def MemTables.addWrites (E : MemTableEnv) (t : MemTables) (cpu : ℕ) :
    MemTableCall → List UntrustedWrite
  | .inl a => t.points.addWrites E cpu a
  | .inr r => t.points.addWrites E cpu r

/-- What happens outside: adds, and reads of blocks. A table is opened by a read of its
metaindex block and of its properties, and then by reads through `RetrieveBlock`. -/
inductive UntrustedStep where
  | add (cpu : ℕ) (call : MemTableCall)
  | readMetaIndexBlock (f : BlockFetcher) (b : RawBlock)
  | readProperties (f : BlockFetcher) (b : RawBlock)
  | retrieveBlock (l : BlockLookup) (type : BlockType) (useCache : Bool) (b : RawBlock)

namespace UntrustedStep

section

variable (E : MemTableEnv) (B : TableEnv) (t : MemTables)

def writes : UntrustedStep → List UntrustedWrite
  | add cpu call => t.addWrites E cpu call
  | readMetaIndexBlock f b => (f.forMetaIndex.readBlockContents B b).2
  | readProperties f b => (f.forProperties.readBlockContents B b).2
  | retrieveBlock l type useCache b => (Tweezer.retrieveBlock B l type useCache b).2

def next : UntrustedStep → Outcome MemTables
  | add cpu call => do
      let (_, t) ← t.add E cpu call
      .ok t
  | readMetaIndexBlock f b => do
      let _ ← (f.forMetaIndex.readBlockContents B b).1
      .ok t
  | readProperties f b => do
      let _ ← (f.forProperties.readBlockContents B b).1
      .ok t
  | retrieveBlock l type useCache b => do
      let _ ← (Tweezer.retrieveBlock B l type useCache b).1
      .ok t

/-- What a step reads a block with, if it reads one. -/
def fetch : UntrustedStep → Option (BlockFetcher × RawBlock)
  | add _ _ => none
  | readMetaIndexBlock f b => some (f.forMetaIndex, b)
  | readProperties f b => some (f.forProperties, b)
  | retrieveBlock l type useCache b =>
      if (useCache && l.blockCache && l.cached.isSome) || l.noIo then none
      else some (l.fetcherFor type (!useCache), b)

end

end UntrustedStep

/-- All writes outside of a run, until it is through or the process stops. -/
def untrustedTrace (E : MemTableEnv) (B : TableEnv) :
    MemTables → List UntrustedStep → List UntrustedWrite
  | _, [] => []
  | t, s :: steps => s.writes E B t ++
      match s.next E B t with
      | .ok t' => untrustedTrace E B t' steps
      | .error _ => []

section Shapes

/-- Entries that differ only in the bytes of their keys and values. -/
structure MemTableEntry.SameShape {types : List ValueType} (a a' : MemTableEntry types) :
    Prop where
  seq : a.seq = a'.seq
  type : a.type = a'.type
  key : a.key.length = a'.key.length
  value : a.value.length = a'.value.length

def MemTableCall.SameShape : MemTableCall → MemTableCall → Prop
  | .inl a, .inl a' => a.SameShape a'
  | .inr r, .inr r' => r.SameShape r'
  | _, _ => False

def RawBlock.SameShape (b b' : RawBlock) : Prop := b.data.length = b'.data.length ∧ b.type = b'.type

def BlockSource.SameShape : BlockSource → BlockSource → Prop
  | .uncompressedPage page, .uncompressedPage page' => page.length = page'.length
  | .rawPage page, .rawPage page' => page.SameShape page'
  | .prefetchBuffer, .prefetchBuffer => True
  | .file, .file => True
  | _, _ => False

/-- Reads with the same options that find blocks of the same shape, and the same answer of the
MAC check if there is one. -/
structure SameRead (B : TableEnv) (r r' : BlockFetcher × RawBlock) : Prop where
  fetcher : r'.1 = { r.1 with source := r'.1.source }
  source : r.1.source.SameShape r'.1.source
  block : r.2.SameShape r'.2
  mac : r.1.decrypt = true → ((BlockFetcher.checkHmac B r.2.data).isOk ↔
    (BlockFetcher.checkHmac B r'.2.data).isOk)

def UntrustedStep.SameShape (B : TableEnv) : UntrustedStep → UntrustedStep → Prop
  | .add cpu call, .add cpu' call' => cpu = cpu' ∧ call.SameShape call'
  | .add _ _, _ => False
  | _, .add _ _ => False
  | s, s' => Option.Rel (SameRead B) s.fetch s'.fetch

end Shapes

/-- Some writes in turn. -/
def UntrustedWrite.applyAll (memory : Memory) (writes : List UntrustedWrite) : Memory :=
  writes.foldl (fun m w => m.write w.address w.data) memory

theorem MemTable.add_memory {types : List ValueType} {E : MemTableEnv} {m m' : MemTable} {cpu : ℕ}
    {a : MemTableEntry types} {inserted : Bool} (h : m.add E cpu a = .ok (inserted, m')) :
    m'.memory = UntrustedWrite.applyAll m.memory (m.addWrites E cpu a) := by
  cases halloc : m.arena.allocateAligned E.host cpu a.value.length with
  | error e =>
      rw [MemTable.add, halloc] at h
      cases h
  | ok p =>
      obtain ⟨ptr, arena⟩ := p
      have hwrites : UntrustedWrite.applyAll m.memory (m.addWrites E cpu a) =
          m.memory.write ptr (E.cipher.enc E.memtableKey a.value) := by
        rw [MemTable.addWrites, halloc]
        simp only [UntrustedWrite.applyAll, List.foldl_cons, List.foldl_nil, UntrustedWrite.data,
          List.flatMap_cons, List.flatMap_nil, List.append_nil, encryption]
        exact Memory.write_write (E.cipher.length_enc _ _).symm
      rw [MemTable.add_of_allocated cpu a halloc] at h
      dsimp only at h
      rw [hwrites]
      by_cases hrecord : roundUp8 (encodedLen a.internalKey.length) < (recordOf E a ptr).length
      · rw [if_pos hrecord] at h
        cases h
      rw [if_neg hrecord] at h
      cases hinsert : insertKey E.ucmp (recordOf E a ptr) m.table with
      | none =>
          rw [hinsert] at h
          cases h
          rfl
      | some table =>
          rw [hinsert] at h
          cases h
          rfl

/-- The writes of a call of `Add` are what changes the memory outside. -/
theorem MemTables.add_memory {E : MemTableEnv} {t t' : MemTables} {cpu : ℕ} {call : MemTableCall}
    {inserted : Bool} (h : t.add E cpu call = .ok (inserted, t')) :
    t'.points.memory = UntrustedWrite.applyAll t.points.memory (t.addWrites E cpu call) := by
  cases call with
  | inl a =>
      obtain ⟨⟨inserted', m⟩, hadd, h⟩ := Outcome.bind_eq_ok.mp h
      cases h
      exact MemTable.add_memory hadd
  | inr r =>
      obtain ⟨⟨inserted', m⟩, hadd, h⟩ := Outcome.bind_eq_ok.mp h
      cases h
      have hmemory := MemTable.add_memory hadd
      exact hmemory

/-- What is asked of a run: after every single write there is no plaintext outside, and what a
run of the same shape has there differs only in ciphertext and in bytes of files. -/
def SealedOutside (E : MemTableEnv) (B : TableEnv) (memory : Memory) (shardCount : ℕ)
    (steps : List UntrustedStep) : Prop :=
  let trace := fun steps =>
    (untrustedTrace E B (.empty memory shardCount) steps).map UntrustedWrite.labelled
  Never .plaintext (trace steps) ∧
    ∀ steps', List.Forall₂ (UntrustedStep.SameShape B) steps steps' →
      Agree .plaintext (trace steps) (trace steps')

section Condition

/-- The plaintext of a block stays inside: it is not decrypted, or not in a buffer outside, and
uncompressed before it could be copied to one. -/
def BlockFetcher.DecryptsInside (B : TableEnv) (f : BlockFetcher) (b : RawBlock) : Prop :=
  f.decrypt = false ∨ b.data.length ≤ kHmacSize ∨
    (B.digest B.sstKey (b.data.take (b.data.length - kHmacSize))).val ≠
      b.data.drop (b.data.length - kHmacSize) ∨
    match f.usedBuf (b.data.length + kBlockTrailerSize) with
    | .page | .mapped => True
    | .heapBuf | .compressedBuf => False
    | .stackBuf | .prefetchBuf | .directIoBuf => f.doUncompress = true ∧ b.type ≠ kNoCompression

/-- The plaintext of a step stays inside. Without memory for its value, `Add` ends the process. -/
def UntrustedStep.StaysInside (E : MemTableEnv) (B : TableEnv) (t : MemTables) :
    UntrustedStep → Prop
  | .add cpu call => call.value = [] ∨
      ¬ (t.points.arena.allocateAligned E.host cpu call.value.length).isOk
  | s => ∀ r, s.fetch = some r → r.1.DecryptsInside B r.2

/-- `P` holds of every step that a run comes to. -/
def EachUntrustedStep (E : MemTableEnv) (B : TableEnv) (P : MemTables → UntrustedStep → Prop) :
    MemTables → List UntrustedStep → Prop
  | _, [] => True
  | t, s :: steps => P t s ∧ ∀ t', s.next E B t = .ok t' → EachUntrustedStep E B P t' steps

end Condition

/-- None of some writes has a byte of plaintext. -/
def PlainFree (writes : List UntrustedWrite) : Prop :=
  Never .plaintext (writes.map UntrustedWrite.labelled)

theorem plainFree_nil : PlainFree [] := by
  rw [PlainFree, never_iff]
  exact fun w hw => nomatch hw

theorem plainFree_append {writes writes' : List UntrustedWrite} :
    PlainFree (writes ++ writes') ↔ PlainFree writes ∧ PlainFree writes' := by
  rw [PlainFree, List.map_append, never_append]
  rfl

theorem plainFree_singleton (w : UntrustedWrite) :
    PlainFree [w] ↔ ∀ p ∈ w.pieces, p.1 = .plaintext → p.2 = [] := by
  rw [PlainFree, never_iff]
  constructor
  · intro h p hp hplain
    by_contra hne
    obtain ⟨x, hx⟩ := List.exists_mem_of_ne_nil _ hne
    refine h w.labelled (by simp) (p.1, x) ?_ hplain
    exact List.mem_flatMap.mpr ⟨p, hp, List.mem_map_of_mem hx⟩
  · intro h v hv q hq hplain
    obtain rfl : v = w.labelled := by simpa using hv
    obtain ⟨p, hp, hmem⟩ := List.mem_flatMap.mp hq
    obtain ⟨x, hx, rfl⟩ := List.mem_map.mp hmem
    rw [h p hp hplain] at hx
    exact nomatch hx

theorem plainFree_writeTo {address : Option ℕ} {pieces : List (Origin × Bytes)} :
    PlainFree (BlockFetcher.writeTo address pieces) ↔
      address = none ∨ ∀ p ∈ pieces, p.1 = .plaintext → p.2 = [] := by
  cases address with
  | none => exact iff_of_true plainFree_nil (.inl rfl)
  | some a => rw [BlockFetcher.writeTo, plainFree_singleton]; simp

theorem plainFree_finish (B : TableEnv) (f : BlockFetcher) {buf : UsedBuf} {type : UInt8}
    {slice : Bytes} {size : ℕ} {loaded : List (Origin × Bytes)} :
    PlainFree (f.finish B buf type slice size loaded).2 ↔
      (f.doUncompress = true ∧ type ≠ kNoCompression) ∨ f.copyAddress type buf = none ∨
        ∀ p ∈ loaded, p.1 = .plaintext → p.2 = [] := by
  unfold BlockFetcher.finish
  by_cases h : f.doUncompress = true ∧ type ≠ kNoCompression
  · rw [if_pos h]
    exact iff_of_true plainFree_nil (.inl h)
  · rw [if_neg h, or_iff_right h]
    exact plainFree_writeTo

theorem checkHmac_eq_ok {B : TableEnv} {data plain : Bytes}
    (h : BlockFetcher.checkHmac B data = .ok plain) :
    kHmacSize ≤ data.length ∧ plain.length = data.length - kHmacSize ∧
      (B.digest B.sstKey (data.take (data.length - kHmacSize))).val =
        data.drop (data.length - kHmacSize) := by
  unfold BlockFetcher.checkHmac at h
  dsimp only at h
  split_ifs at h with hshort hmac
  refine ⟨not_lt.mp hshort, ?_, hmac⟩
  rw [← Except.ok.inj h]
  simp

theorem checkHmac_eq_error {B : TableEnv} {data : Bytes} {e : Stop}
    (h : BlockFetcher.checkHmac B data = .error e) :
    data.length ≤ kHmacSize ∨ (B.digest B.sstKey (data.take (data.length - kHmacSize))).val ≠
      data.drop (data.length - kHmacSize) := by
  unfold BlockFetcher.checkHmac at h
  dsimp only at h
  split_ifs at h with hshort hmac
  · exact .inl hshort.le
  · exact .inr hmac

theorem decryptsInside_iff {B : TableEnv} {f : BlockFetcher} {b : RawBlock} {plain : Bytes}
    (hdecrypt : f.decrypt = true) (hmac : BlockFetcher.checkHmac B b.data = .ok plain) :
    f.DecryptsInside B b ↔ plain = [] ∨
      match f.usedBuf (b.data.length + kBlockTrailerSize) with
      | .page | .mapped => True
      | .heapBuf | .compressedBuf => False
      | .stackBuf | .prefetchBuf | .directIoBuf =>
          f.doUncompress = true ∧ b.type ≠ kNoCompression := by
  obtain ⟨hle, hlen, heq⟩ := checkHmac_eq_ok hmac
  have hnil : b.data.length ≤ kHmacSize ↔ plain = [] := by
    rw [← List.length_eq_zero_iff, hlen]
    omega
  simp [BlockFetcher.DecryptsInside, hdecrypt, heq, hnil]

/-- A fetch from the file or the prefetch buffer whose MAC is right: the plaintext is outside
if the file was read into a buffer there, or if the block is copied to one. -/
theorem plainFree_readBlockContents_decrypted {B : TableEnv} {f : BlockFetcher} {b : RawBlock}
    {plain : Bytes} (hsource : f.source = .prefetchBuffer ∨ f.source = .file)
    (hdecrypt : f.decrypt = true) (hmac : BlockFetcher.checkHmac B b.data = .ok plain) :
    PlainFree (f.readBlockContents B b).2 ↔
      f.usedBuf (b.data.length + kBlockTrailerSize) = .mapped ∨ plain = [] ∨
        (f.readAddress (f.usedBuf (b.data.length + kBlockTrailerSize)) = none ∧
          ((f.doUncompress = true ∧ b.type ≠ kNoCompression) ∨
            f.copyAddress b.type (f.usedBuf (b.data.length + kBlockTrailerSize)) = none)) := by
  have hwrites : (f.readBlockContents B b).2 =
      if f.usedBuf (b.data.length + kBlockTrailerSize) = .mapped then []
      else
        BlockFetcher.writeTo (f.readAddress (f.usedBuf (b.data.length + kBlockTrailerSize)))
            [(.file, b.data ++ b.trailer)] ++
          BlockFetcher.writeTo (f.readAddress (f.usedBuf (b.data.length + kBlockTrailerSize)))
            [(.plaintext, plain)] ++
          (f.finish B (f.usedBuf (b.data.length + kBlockTrailerSize)) b.type
            (plain ++ b.data.drop (b.data.length - kHmacSize)) plain.length
            [(.plaintext, plain),
              (.file, b.data.drop (b.data.length - kHmacSize) ++ b.trailer)]).2 := by
    unfold BlockFetcher.readBlockContents
    rcases hsource with h | h <;> rw [h] <;> simp only [hdecrypt, if_true, hmac] <;> split_ifs <;>
      rfl
  rw [hwrites]
  by_cases hmapped : f.usedBuf (b.data.length + kBlockTrailerSize) = .mapped
  · rw [if_pos hmapped]
    exact iff_of_true plainFree_nil (.inl hmapped)
  · rw [if_neg hmapped, or_iff_right hmapped, plainFree_append, plainFree_append,
      plainFree_finish]
    by_cases hplain : plain = [] <;> simp [plainFree_writeTo, hplain]

/-- A block is read without plaintext outside exactly if its plaintext stays inside. -/
theorem plainFree_readBlockContents (B : TableEnv) (f : BlockFetcher) (b : RawBlock) :
    PlainFree (f.readBlockContents B b).2 ↔ f.DecryptsInside B b := by
  by_cases hsource : f.source = .prefetchBuffer ∨ f.source = .file
  · have hread : ∀ address, PlainFree (BlockFetcher.writeTo address
        [(.file, b.data ++ b.trailer)]) := fun address =>
      plainFree_writeTo.mpr (.inr (by simp))
    by_cases hdecrypt : f.decrypt = true
    · cases hmac : BlockFetcher.checkHmac B b.data with
      | error e =>
          have hwrites : PlainFree (f.readBlockContents B b).2 := by
            unfold BlockFetcher.readBlockContents
            rcases hsource with h | h <;> simp [h, hdecrypt, hmac, hread]
          exact iff_of_true hwrites (.inr ((checkHmac_eq_error hmac).imp id .inl))
      | ok plain =>
          rw [plainFree_readBlockContents_decrypted hsource hdecrypt hmac,
            decryptsInside_iff hdecrypt hmac]
          cases f.usedBuf (b.data.length + kBlockTrailerSize) with
          | directIoBuf =>
              have hcopy : f.copyAddress b.type .directIoBuf ≠ none := by
                unfold BlockFetcher.copyAddress
                split_ifs <;> simp
              simp [BlockFetcher.readAddress, hcopy]
          | _ => simp [BlockFetcher.readAddress, BlockFetcher.copyAddress]
    · have hwrites : PlainFree (f.readBlockContents B b).2 := by
        unfold BlockFetcher.readBlockContents
        rcases hsource with h | h <;>
          simp [h, hdecrypt, plainFree_append, plainFree_finish, hread]
      exact iff_of_true hwrites (.inl (by simpa using hdecrypt))
  · have hpage : f.usedBuf (b.data.length + kBlockTrailerSize) = .page := by
      unfold BlockFetcher.usedBuf
      cases hs : f.source <;> simp_all
    have hwrites : (f.readBlockContents B b).2 = [] := by
      unfold BlockFetcher.readBlockContents BlockFetcher.finish
      cases hs : f.source with
      | uncompressedPage page => rfl
      | rawPage page =>
          dsimp only
          split_ifs <;> simp [hpage, BlockFetcher.copyAddress, BlockFetcher.writeTo]
      | prefetchBuffer => exact absurd (.inl hs) hsource
      | file => exact absurd (.inr hs) hsource
    rw [hwrites, BlockFetcher.DecryptsInside, hpage]
    exact iff_of_true plainFree_nil (.inr (.inr (.inr trivial)))

theorem retrieveBlock_eq (B : TableEnv) (l : BlockLookup) (type : BlockType) (useCache : Bool)
    (b : RawBlock) :
    retrieveBlock B l type useCache b =
      match (UntrustedStep.retrieveBlock l type useCache b).fetch with
      | some r => r.1.readBlockContents B r.2
      | none => (.ok (if useCache && l.blockCache then l.cached else none), []) := by
  simp only [retrieveBlock, UntrustedStep.fetch]
  cases useCache && l.blockCache <;> cases l.cached <;> cases l.noIo <;> rfl

namespace UntrustedStep

variable {E : MemTableEnv} {B : TableEnv} {t : MemTables} {s : UntrustedStep}

/-- A step that fetches a block writes what the fetch writes, and ends where that ends. -/
theorem of_fetch {r : BlockFetcher × RawBlock} (h : s.fetch = some r) :
    s.writes E B t = (r.1.readBlockContents B r.2).2 ∧
      s.next E B t = (r.1.readBlockContents B r.2).1 >>= fun _ => .ok t := by
  cases s with
  | add cpu call => cases h
  | readMetaIndexBlock f b =>
      cases h
      exact ⟨rfl, rfl⟩
  | readProperties f b =>
      cases h
      exact ⟨rfl, rfl⟩
  | retrieveBlock l type useCache b =>
      have heq := retrieveBlock_eq B l type useCache b
      rw [h] at heq
      dsimp only at heq
      rw [writes, next, heq]
      exact ⟨rfl, rfl⟩

/-- A read that fetches no block writes nothing. -/
theorem of_fetch_eq_none (h : s.fetch = none) (hread : ∀ cpu call, s ≠ .add cpu call) :
    s.writes E B t = [] ∧ s.next E B t = .ok t := by
  cases s with
  | add cpu call => exact absurd rfl (hread cpu call)
  | readMetaIndexBlock f b => cases h
  | readProperties f b => cases h
  | retrieveBlock l type useCache b =>
      have heq := retrieveBlock_eq B l type useCache b
      rw [h] at heq
      dsimp only at heq
      rw [writes, next, heq]
      exact ⟨rfl, rfl⟩

theorem plainFree_addWrites {cpu : ℕ} {call : MemTableCall} :
    PlainFree (t.addWrites E cpu call) ↔ call.value = [] ∨
      ¬ (t.points.arena.allocateAligned E.host cpu call.value.length).isOk := by
  have hentry : ∀ {types : List ValueType} (a : MemTableEntry types),
      PlainFree (t.points.addWrites E cpu a) ↔ a.value = [] ∨
        ¬ (t.points.arena.allocateAligned E.host cpu a.value.length).isOk := by
    intro types a
    unfold MemTable.addWrites
    cases t.points.arena.allocateAligned E.host cpu a.value.length with
    | error e => exact iff_of_true plainFree_nil (.inr (by simp [Except.isOk, Except.toBool]))
    | ok p =>
        have hsplit : ∀ w w' : UntrustedWrite, [w, w'] = [w] ++ [w'] := fun _ _ => rfl
        dsimp only
        rw [hsplit, plainFree_append, plainFree_singleton, plainFree_singleton]
        simp [Except.isOk, Except.toBool]
  cases call with
  | inl a => exact hentry a
  | inr r => exact hentry r

/-- What a step writes outside is free of plaintext exactly if its plaintext stays inside. -/
theorem plainFree_writes : PlainFree (s.writes E B t) ↔ s.StaysInside E B t := by
  by_cases hadd : ∃ cpu call, s = .add cpu call
  · obtain ⟨cpu, call, rfl⟩ := hadd
    exact plainFree_addWrites
  · have hread : ∀ cpu call, s ≠ .add cpu call := fun cpu call h => hadd ⟨cpu, call, h⟩
    have hinside : s.StaysInside E B t ↔ ∀ r, s.fetch = some r → r.1.DecryptsInside B r.2 := by
      cases s with
      | add cpu call => exact absurd rfl (hread cpu call)
      | _ => rfl
    rw [hinside]
    cases hfetch : s.fetch with
    | none =>
        rw [(of_fetch_eq_none hfetch hread).1]
        exact iff_of_true plainFree_nil fun r hr => nomatch hr
    | some r =>
        rw [(of_fetch hfetch).1, plainFree_readBlockContents]
        simp

end UntrustedStep

/-- A run keeps plaintext inside exactly if each step that it comes to does. -/
theorem plainFree_untrustedTrace {E : MemTableEnv} {B : TableEnv} (t : MemTables)
    (steps : List UntrustedStep) :
    PlainFree (untrustedTrace E B t steps) ↔
      EachUntrustedStep E B (UntrustedStep.StaysInside E B) t steps := by
  induction steps generalizing t with
  | nil => exact iff_of_true plainFree_nil trivial
  | cons s steps ih =>
      rw [untrustedTrace, EachUntrustedStep, plainFree_append, UntrustedStep.plainFree_writes]
      apply and_congr_right
      intro _
      cases hnext : s.next E B t with
      | error e => exact iff_of_true plainFree_nil fun t' ht' => nomatch ht'
      | ok t' =>
          dsimp only
          rw [ih]
          constructor
          · rintro h t'' ht''
            cases ht''
            exact h
          · intro h
            exact h t' rfl

section TwoRuns

def outlines (writes : List UntrustedWrite) : List (ℕ × List Origin) :=
  (writes.map UntrustedWrite.labelled).map outline

theorem outlines_append (writes writes' : List UntrustedWrite) :
    outlines (writes ++ writes') = outlines writes ++ outlines writes' := by
  rw [outlines, List.map_append, List.map_append]
  rfl

/-- Of a write, the outline shows the address and how many bytes of each origin there are. -/
theorem outline_labelled (w : UntrustedWrite) :
    outline w.labelled =
      (w.address, w.pieces.flatMap fun p => List.replicate p.2.length p.1) := by
  rw [outline, UntrustedWrite.labelled, List.map_flatMap]
  simp [Function.comp_def]

theorem outlines_writeTo (address : Option ℕ) (pieces : List (Origin × Bytes)) :
    outlines (BlockFetcher.writeTo address pieces) =
      (address.map fun a =>
        (a, pieces.flatMap fun p => List.replicate p.2.length p.1)).toList := by
  cases address with
  | none => rfl
  | some a => exact congrArg (fun o => [o]) (outline_labelled ⟨a, pieces⟩)

theorem outlines_finish (B : TableEnv) (f : BlockFetcher) (buf : UsedBuf) (type : UInt8)
    (slice : Bytes) (size : ℕ) (loaded : List (Origin × Bytes)) :
    outlines (f.finish B buf type slice size loaded).2 =
      if f.doUncompress = true ∧ type ≠ kNoCompression then []
      else outlines (BlockFetcher.writeTo (f.copyAddress type buf) loaded) := by
  rw [BlockFetcher.finish]
  split_ifs <;> rfl

/-- Fetches of the same shape from the file or the prefetch buffer. -/
theorem readBlockContents_sameShape {B : TableEnv} {f : BlockFetcher} {b b' : RawBlock}
    (hsource : f.source = .prefetchBuffer ∨ f.source = .file) (hblock : b.SameShape b')
    (hmac : f.decrypt = true → ((BlockFetcher.checkHmac B b.data).isOk ↔
      (BlockFetcher.checkHmac B b'.data).isOk)) :
    outlines (f.readBlockContents B b).2 = outlines (f.readBlockContents B b').2 ∧
      ((f.readBlockContents B b).1.isOk ↔ (f.readBlockContents B b').1.isOk) := by
  obtain ⟨hlength, htype⟩ := hblock
  have htrailer := b.length_trailer
  have htrailer' := b'.length_trailer
  have hloaded : ∀ buf size,
      outlines (f.finish B buf b.type b.data size [(.file, b.data ++ b.trailer)]).2 =
        outlines (f.finish B buf b'.type b'.data size [(.file, b'.data ++ b'.trailer)]).2 := by
    intro buf size
    simp [outlines_finish, outlines_writeTo, hlength, htype, htrailer, htrailer']
  have hread : ∀ address,
      outlines (BlockFetcher.writeTo address [(.file, b.data ++ b.trailer)]) =
        outlines (BlockFetcher.writeTo address [(.file, b'.data ++ b'.trailer)]) := by
    intro address
    simp [outlines_writeTo, hlength, htrailer, htrailer']
  by_cases hdecrypt : f.decrypt = true
  · have hmac := hmac hdecrypt
    cases h : BlockFetcher.checkHmac B b.data with
    | error e =>
        cases h' : BlockFetcher.checkHmac B b'.data with
        | error e' =>
            unfold BlockFetcher.readBlockContents
            rcases hsource with hs | hs <;>
              simp [hs, hdecrypt, h, h', hlength, hread, Except.isOk, Except.toBool]
        | ok plain' => simp [h, h', Except.isOk, Except.toBool] at hmac
    | ok plain =>
        cases h' : BlockFetcher.checkHmac B b'.data with
        | error e' => simp [h, h', Except.isOk, Except.toBool] at hmac
        | ok plain' =>
            have hplain : plain.length = plain'.length := by
              rw [(checkHmac_eq_ok h).2.1, (checkHmac_eq_ok h').2.1, hlength]
            unfold BlockFetcher.readBlockContents
            by_cases hmapped : f.usedBuf (b'.data.length + kBlockTrailerSize) = .mapped
            · rcases hsource with hs | hs <;>
                simp [hs, hdecrypt, h, h', hlength, hmapped, Except.isOk, Except.toBool]
            · rcases hsource with hs | hs <;>
                simp [hs, hdecrypt, h, h', hlength, htype, hmapped, hread, hplain, outlines_append,
                  outlines_finish, outlines_writeTo, htrailer, htrailer', Except.isOk,
                  Except.toBool]
  · unfold BlockFetcher.readBlockContents
    rcases hsource with hs | hs <;>
      simp [hs, hdecrypt, hlength, outlines_append, hread, hloaded, Except.isOk, Except.toBool]

/-- Reads of the same shape write the same outline, and end in the same way. -/
theorem sameRead_outlines {B : TableEnv} {r r' : BlockFetcher × RawBlock} (h : SameRead B r r') :
    outlines (r.1.readBlockContents B r.2).2 = outlines (r'.1.readBlockContents B r'.2).2 ∧
      ((r.1.readBlockContents B r.2).1.isOk ↔ (r'.1.readBlockContents B r'.2).1.isOk) := by
  obtain ⟨f, b⟩ := r
  obtain ⟨f', b'⟩ := r'
  obtain ⟨hfetcher, hsource, hblock, hmac⟩ := h
  dsimp only at hfetcher hsource hblock hmac ⊢
  have hsame : f'.source = f.source → f' = f := fun heq => by rw [hfetcher, heq]
  cases hs : f.source with
  | prefetchBuffer =>
      rw [hs] at hsource
      cases hs' : f'.source with
      | prefetchBuffer =>
          rw [hsame (hs'.trans hs.symm)]
          exact readBlockContents_sameShape (.inl hs) hblock hmac
      | _ => simp [BlockSource.SameShape, hs'] at hsource
  | file =>
      rw [hs] at hsource
      cases hs' : f'.source with
      | file =>
          rw [hsame (hs'.trans hs.symm)]
          exact readBlockContents_sameShape (.inr hs) hblock hmac
      | _ => simp [BlockSource.SameShape, hs'] at hsource
  | uncompressedPage page =>
      rw [hs] at hsource
      cases hs' : f'.source with
      | uncompressedPage page' =>
          unfold BlockFetcher.readBlockContents
          simp [hs, hs', Except.isOk, Except.toBool]
      | _ => simp [BlockSource.SameShape, hs'] at hsource
  | rawPage page =>
      rw [hs] at hsource
      cases hs' : f'.source with
      | rawPage page' =>
          rw [hs'] at hsource
          obtain ⟨hlength, htype⟩ := hsource
          have hdecrypt : f'.decrypt = f.decrypt := by rw [hfetcher]
          have huncompress : f'.doUncompress = f.doUncompress := by rw [hfetcher]
          have hpage : ∀ n, f.usedBuf n = .page := fun n => by rw [BlockFetcher.usedBuf, hs]
          have hpage' : ∀ n, f'.usedBuf n = .page := fun n => by rw [BlockFetcher.usedBuf, hs']
          unfold BlockFetcher.readBlockContents
          by_cases hshort : f.decrypt = true ∧ page'.data.length < kHmacSize
          · simp [hs, hs', hdecrypt, hlength, hshort, Except.isOk, Except.toBool]
          · simp [hs, hs', hdecrypt, hlength, htype, hshort, huncompress, hpage, hpage',
              outlines_finish, BlockFetcher.copyAddress, BlockFetcher.writeTo, Except.isOk,
              Except.toBool]
      | _ => simp [BlockSource.SameShape, hs'] at hsource

/-- What becomes of the arena in a call of `Add`, which is a matter of lengths. -/
def arenaAfter (E : MemTableEnv) (arena : UntrustedConcurrentArena) (cpu keyLength valueLength : ℕ) :
    Outcome UntrustedConcurrentArena := do
  let (_, arena) ← arena.allocateAligned E.host cpu valueLength
  if MemTable.encodedLen (keyLength + 8) % 8 = 0 then .error .outOfBuffer else .ok arena

theorem MemTable.add_arena {types : List ValueType} (E : MemTableEnv) (m : MemTable) (cpu : ℕ)
    (a : MemTableEntry types) :
    (m.add E cpu a).map (fun r => r.2.arena) =
      arenaAfter E m.arena cpu a.key.length a.value.length := by
  unfold arenaAfter
  cases halloc : m.arena.allocateAligned E.host cpu a.value.length with
  | error e =>
      rw [MemTable.add, halloc]
      rfl
  | ok p =>
      obtain ⟨ptr, arena⟩ := p
      rw [MemTable.add_of_allocated cpu a halloc, Outcome.ok_bind]
      dsimp only
      have hfits := recordFits_iff E a ptr
      rw [RecordFits, length_internalKey] at hfits
      by_cases h : encodedLen (a.key.length + 8) % 8 = 0
      · rw [if_pos h, if_pos (by rw [length_internalKey]; tauto)]
        rfl
      · rw [if_neg h, if_neg (by rw [length_internalKey]; tauto)]
        cases insertKey E.ucmp (recordOf E a ptr) m.table with
        | none => rfl
        | some table => rfl

/-- `Add` on tables with the same arena, for entries of the same shape. -/
theorem addWrites_sameShape {E : MemTableEnv} {t t' : MemTables} {call call' : MemTableCall}
    (harena : t.points.arena = t'.points.arena) (cpu : ℕ) (h : call.SameShape call') :
    outlines (t.addWrites E cpu call) = outlines (t'.addWrites E cpu call') ∧
      (t.add E cpu call).map (fun r => r.2.points.arena) =
        (t'.add E cpu call').map (fun r => r.2.points.arena) := by
  have hwrites : ∀ {types : List ValueType} (a a' : MemTableEntry types), a.SameShape a' →
      outlines (t.points.addWrites E cpu a) = outlines (t'.points.addWrites E cpu a') := by
    intro types a a' ha
    unfold MemTable.addWrites
    rw [harena, ha.value]
    cases t'.points.arena.allocateAligned E.host cpu a'.value.length with
    | error e => rfl
    | ok p => simp [outlines, outline_labelled, encryption, ha.value]
  cases call with
  | inl a =>
      cases call' with
      | inr r' => exact absurd h id
      | inl a' =>
          have hmap : ∀ (t : MemTables) (a : MemTableAdd),
              (t.add E cpu (.inl a)).map (fun r => r.2.points.arena) =
                (t.points.add E cpu a).map fun r => r.2.arena := by
            intro t a
            rw [MemTables.add]
            cases t.points.add E cpu a <;> rfl
          refine ⟨hwrites a a' h, ?_⟩
          rw [hmap, hmap, MemTable.add_arena, MemTable.add_arena, harena, h.key, h.value]
  | inr r =>
      cases call' with
      | inl a' => exact absurd h id
      | inr r' =>
          have hmap : ∀ (t : MemTables) (r : RangeDeletionAdd),
              (t.add E cpu (.inr r)).map (fun r => r.2.points.arena) =
                (({ t.points with table := t.rangeDelTable } : MemTable).add E cpu r).map
                  fun r => r.2.arena := by
            intro t r
            rw [MemTables.add]
            cases ({ t.points with table := t.rangeDelTable } : MemTable).add E cpu r <;> rfl
          refine ⟨hwrites r r' h, ?_⟩
          rw [hmap, hmap, MemTable.add_arena, MemTable.add_arena, harena, h.key, h.value]

/-- Steps of the same shape, on tables with the same arena. -/
theorem UntrustedStep.sameShape {E : MemTableEnv} {B : TableEnv} {t t' : MemTables}
    {s s' : UntrustedStep} (harena : t.points.arena = t'.points.arena) (h : s.SameShape B s') :
    outlines (s.writes E B t) = outlines (s'.writes E B t') ∧
      (s.next E B t).toOption.map (fun t => t.points.arena) =
        (s'.next E B t').toOption.map fun t => t.points.arena := by
  by_cases hadd : ∃ cpu call, s = .add cpu call
  · obtain ⟨cpu, call, rfl⟩ := hadd
    cases s' with
    | add cpu' call' =>
        obtain ⟨rfl, hcall⟩ := h
        obtain ⟨hwrites, hmap⟩ := addWrites_sameShape (E := E) harena cpu hcall
        refine ⟨hwrites, ?_⟩
        have hnext : ∀ (t : MemTables) (call : MemTableCall),
            ((UntrustedStep.add cpu call).next E B t).toOption.map (fun t => t.points.arena) =
              ((t.add E cpu call).map fun r => r.2.points.arena).toOption := by
          intro t call
          rw [next]
          cases t.add E cpu call <;> rfl
        rw [hnext, hnext, hmap]
    | _ => exact absurd h id
  · have hread : ∀ cpu call, s ≠ .add cpu call := fun cpu call h => hadd ⟨cpu, call, h⟩
    have hread' : ∀ cpu call, s' ≠ .add cpu call := by
      rintro cpu call rfl
      cases s with
      | add cpu' call' => exact hread cpu' call' rfl
      | _ => exact absurd h id
    have hfetch : Option.Rel (SameRead B) s.fetch s'.fetch := by
      cases s with
      | add cpu call => exact absurd rfl (hread cpu call)
      | _ =>
          cases s' with
          | add cpu call => exact absurd rfl (hread' cpu call)
          | _ => exact h
    cases hr : s.fetch with
    | none =>
        rw [hr] at hfetch
        cases hr' : s'.fetch with
        | some r' => rw [hr'] at hfetch; cases hfetch
        | none =>
            obtain ⟨hwrites, hnext⟩ := of_fetch_eq_none (E := E) (B := B) (t := t) hr hread
            obtain ⟨hwrites', hnext'⟩ := of_fetch_eq_none (E := E) (B := B) (t := t') hr' hread'
            rw [hwrites, hwrites', hnext, hnext']
            exact ⟨rfl, congrArg some harena⟩
    | some r =>
        rw [hr] at hfetch
        cases hr' : s'.fetch with
        | none => rw [hr'] at hfetch; cases hfetch
        | some r' =>
            rw [hr'] at hfetch
            cases hfetch with
            | some hsame =>
                obtain ⟨hwrites, hnext⟩ := of_fetch (E := E) (B := B) (t := t) hr
                obtain ⟨hwrites', hnext'⟩ := of_fetch (E := E) (B := B) (t := t') hr'
                obtain ⟨houtlines, hok⟩ := sameRead_outlines hsame
                rw [hwrites, hwrites', hnext, hnext']
                refine ⟨houtlines, ?_⟩
                cases hc : (r.1.readBlockContents B r.2).1 with
                | error e =>
                    cases hc' : (r'.1.readBlockContents B r'.2).1 with
                    | error e' => rfl
                    | ok c' => simp [hc, hc', Except.isOk, Except.toBool] at hok
                | ok c =>
                    cases hc' : (r'.1.readBlockContents B r'.2).1 with
                    | error e' => simp [hc, hc', Except.isOk, Except.toBool] at hok
                    | ok c' => exact congrArg some harena

/-- Runs of the same shape leave the same outline outside. -/
theorem outlines_untrustedTrace {E : MemTableEnv} {B : TableEnv} {steps steps' : List UntrustedStep}
    (h : List.Forall₂ (UntrustedStep.SameShape B) steps steps') (t t' : MemTables)
    (harena : t.points.arena = t'.points.arena) :
    outlines (untrustedTrace E B t steps) = outlines (untrustedTrace E B t' steps') := by
  induction h generalizing t t' with
  | nil => rfl
  | @cons s s' steps steps' hstep _ ih =>
      obtain ⟨hwrites, hnext⟩ := UntrustedStep.sameShape (E := E) harena hstep
      rw [untrustedTrace, untrustedTrace, outlines_append, outlines_append, hwrites]
      congr 1
      cases hn : s.next E B t with
      | error e =>
          cases hn' : s'.next E B t' with
          | error e' => rfl
          | ok u' => simp [hn, hn', Except.toOption] at hnext
      | ok u =>
          cases hn' : s'.next E B t' with
          | error e' => simp [hn, hn', Except.toOption] at hnext
          | ok u' =>
              apply ih
              simpa [hn, hn', Except.toOption] using hnext

end TwoRuns

/-- Nothing is outside but ciphertext and bytes of files exactly in the runs whose every step
keeps its plaintext inside. -/
theorem sealedOutside_iff (E : MemTableEnv) (B : TableEnv) (memory : Memory) (shardCount : ℕ)
    (steps : List UntrustedStep) :
    SealedOutside E B memory shardCount steps ↔
      EachUntrustedStep E B (UntrustedStep.StaysInside E B) (.empty memory shardCount) steps := by
  rw [← plainFree_untrustedTrace]
  constructor
  · intro h
    exact h.1
  · intro h
    refine ⟨h, ?_⟩
    intro steps' hsame
    exact agree_of_outline (outlines_untrustedTrace hsame _ _ rfl) h

/-- One put of a single byte. -/
def oneUntrustedPut : List UntrustedStep :=
  [.add 0 (.inl ⟨⟨1, one_sequence⟩, .value, [107], [118], value_mem_pointTypes, length_k⟩)]

/-- The value lies outside after the first write of its `Add`. -/
theorem oneUntrustedPut_not_sealed :
    ¬ SealedOutside sampleEnv sampleTableEnv (fun _ => 0) 1 oneUntrustedPut := by
  intro h
  have hfirst : after ((untrustedTrace sampleEnv sampleTableEnv (.empty (fun _ => 0) 1)
      oneUntrustedPut).map UntrustedWrite.labelled |>.take 1) 4096 = some (.plaintext, 118) := by
    decide +kernel
  exact h.1 _ (List.take_prefix 1 _) 4096 118 hfirst

end Tweezer
