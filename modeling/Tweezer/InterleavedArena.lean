import Tweezer.TrustedArena

/-!
# The arena outside the enclave, used by many cores

`Untrusted_Arena` with both of its ends, and `UntrustedConcurrentArena` as any number of threads use
it. Aligned memory comes from the front of a block and other memory from its end. A thread
goes through one critical section at a time, of the arena or of a shard; it holds the mutex of a
shard while it loads it from the arena.
-/

namespace Tweezer.Interleaved

/-- `tc_malloc`, which places every block at a multiple of the alignment unit. -/
structure AlignedHeap extends HeapAllocator where
  aligned : ∀ held n, kAlignUnit ∣ place held n

/-- `Untrusted_Arena`. Its blocks are given with their sizes, the newest first. -/
structure UntrustedArena where
  kBlockSize : ℕ
  blocks : List (ℕ × ℕ)
  alignedAllocPtr : ℕ
  unalignedAllocPtr : ℕ
  allocBytesRemaining : ℕ
  deriving DecidableEq

namespace UntrustedArena

variable (heap : AlignedHeap)

def create (blockSize : ℕ) : UntrustedArena := ⟨optimizeBlockSize blockSize, [], 0, 0, 0⟩

def isInInlineBlock (a : UntrustedArena) : Bool := a.blocks.isEmpty

def allocateNewBlock (a : UntrustedArena) (blockBytes : ℕ) : ℕ × UntrustedArena :=
  let block := heap.place a.blocks blockBytes
  (block, { a with blocks := (block, blockBytes) :: a.blocks })

def allocateFallback (a : UntrustedArena) (bytes : ℕ) (aligned : Bool) :
    Outcome (ℕ × UntrustedArena) :=
  if a.kBlockSize < bytes then .error .exit
  else
    let size := a.kBlockSize
    let (blockHead, a) := a.allocateNewBlock heap size
    let a := { a with allocBytesRemaining := size - bytes }
    if aligned then
      .ok (blockHead, { a with
        alignedAllocPtr := blockHead + bytes
        unalignedAllocPtr := blockHead + size })
    else
      .ok (blockHead + size - bytes, { a with
        alignedAllocPtr := blockHead
        unalignedAllocPtr := blockHead + size - bytes })

def allocate (a : UntrustedArena) (bytes : ℕ) : Outcome (ℕ × UntrustedArena) :=
  if bytes ≤ a.allocBytesRemaining then
    .ok (a.unalignedAllocPtr - bytes, { a with
      unalignedAllocPtr := a.unalignedAllocPtr - bytes
      allocBytesRemaining := a.allocBytesRemaining - bytes })
  else a.allocateFallback heap bytes false

def allocateAligned (a : UntrustedArena) (bytes : ℕ) : Outcome (ℕ × UntrustedArena) :=
  let currentMod := a.alignedAllocPtr % kAlignUnit
  let slop := if currentMod = 0 then 0 else kAlignUnit - currentMod
  let needed := bytes + slop
  if needed ≤ a.allocBytesRemaining then
    .ok (a.alignedAllocPtr + slop, { a with
      alignedAllocPtr := a.alignedAllocPtr + needed
      allocBytesRemaining := a.allocBytesRemaining - needed })
  else a.allocateFallback heap bytes true

end UntrustedArena

/-- A call of `Allocate` or `AllocateAligned` for at most a block. -/
structure Request (blockSize : ℕ) where
  aligned : Bool
  bytes : ℕ
  /-- A huge page size was given, which only an aligned request can do. -/
  hugePage : Bool
  bytes_pos : 0 < bytes
  bytes_le : bytes ≤ optimizeBlockSize blockSize

variable {blockSize : ℕ}

/-- The size with which `AllocateImpl` is called. -/
def Request.size (r : Request blockSize) : ℕ := if r.aligned then roundUp8 r.bytes else r.bytes

def Request.forceArena (r : Request blockSize) : Bool := r.aligned && r.hugePage

/-- The function that `AllocateImpl` is called with. -/
def Request.func (heap : AlignedHeap) (r : Request blockSize) (a : UntrustedArena) :
    Outcome (ℕ × UntrustedArena) :=
  if r.aligned then a.allocateAligned heap r.size else a.allocate heap r.size

/-- A shard. While its mutex is held, `serving` is the request of the holder, and the new `avail`
once the shard has been loaded. -/
structure Shard (blockSize : ℕ) where
  serving : Option (Request blockSize × Option ℕ)
  freeBegin : ℕ
  allocatedAndUnused : ℕ
  /-- The piece that the shard last took from the arena. -/
  chunk : ℕ × ℕ

/-- Where a thread is in `AllocateImpl`. -/
inductive Stage (blockSize : ℕ) where
  | idle
  | arena (r : Request blockSize)
  | shard (r : Request blockSize) (i : ℕ)
  | inShard (i : ℕ)

/-- A range that was returned, with what a request was rounded up to, and the chunk of the shard
that handed it out. -/
structure Returned where
  ptr : ℕ
  size : ℕ
  aligned : Bool
  chunk : Option (ℕ × ℕ)

structure State (blockSize : ℕ) where
  arena : UntrustedArena
  shards : ℕ → Shard blockSize
  threads : ℕ → Stage blockSize
  returned : List Returned

/-- `shard_block_size_`. -/
def shardBlockSize (blockSize : ℕ) : ℕ := min (128 * 1024) (blockSize / 8)

/-- What the scheduler chooses. A thread that calls has some `tls_cpuid`, may or may not get the
mutexes it tries to lock, and repicks some shard if it does not get the one of its own. -/
inductive Choice (blockSize : ℕ) where
  | call (thread : ℕ) (r : Request blockSize) (cpuid : ℕ) (tryArena tryShard : Bool) (repick : ℕ)
  | step (thread : ℕ)

namespace State

variable (heap : AlignedHeap) (shardCount : ℕ)

def create (blockSize : ℕ) : State blockSize :=
  ⟨.create blockSize, fun _ => ⟨none, 0, 0, (0, 0)⟩, fun _ => .idle, []⟩

/-- The first part of `AllocateImpl`, which takes no lock for good. -/
def pick (s : State blockSize) (r : Request blockSize) (cpuid : ℕ) (tryArena tryShard : Bool)
    (repick : ℕ) : Stage blockSize :=
  if shardBlockSize blockSize / 4 < r.size ∨ r.forceArena = true ∨
      (cpuid = 0 ∧ (s.shards 0).allocatedAndUnused = 0 ∧ tryArena = true) then .arena r
  else .shard r ((if tryShard then cpuid else repick) % shardCount)

def moveThread (s : State blockSize) (t : ℕ) (stage : Stage blockSize) : State blockSize :=
  { s with threads := Function.update s.threads t stage }

def setShard (s : State blockSize) (i : ℕ) (shard : Shard blockSize) : State blockSize :=
  { s with shards := Function.update s.shards i shard }

def giveBack (s : State blockSize) (ptr size : ℕ) (aligned : Bool) (chunk : Option (ℕ × ℕ)) :
    State blockSize :=
  { s with returned := s.returned ++ [⟨ptr, size, aligned, chunk⟩] }

/-- The request is passed on to the arena, under its mutex. -/
def direct (s : State blockSize) (r : Request blockSize) : Outcome (State blockSize) := do
  let (ptr, arena) ← r.func heap s.arena
  .ok ({ s with arena := arena }.giveBack ptr r.size r.aligned none)

/-- The end of `AllocateImpl`: memory for the request out of a shard with `avail` bytes. The mutex
of the shard is released. -/
def takeFromShard (s : State blockSize) (r : Request blockSize) (i avail : ℕ) : State blockSize :=
  let shard := s.shards i
  let shard := { shard with serving := none, allocatedAndUnused := avail - r.size }
  if r.size % 8 = 0 then
    (s.setShard i { shard with freeBegin := shard.freeBegin + r.size }).giveBack
      shard.freeBegin r.size r.aligned (some shard.chunk)
  else
    (s.setShard i shard).giveBack
      (shard.freeBegin + avail - r.size) r.size r.aligned (some shard.chunk)

/-- The size of the piece with which a shard is loaded again. -/
def reloadSize (s : State blockSize) : ℕ :=
  let exact := s.arena.allocBytesRemaining
  if shardBlockSize blockSize / 2 ≤ exact ∧ exact < shardBlockSize blockSize * 2 then exact
  else shardBlockSize blockSize

/-- The part of `AllocateImpl` under the mutexes of the shard and of the arena. -/
def reload (s : State blockSize) (t : ℕ) (r : Request blockSize) (i : ℕ) :
    Outcome (State blockSize) :=
  let shard := s.shards i
  if r.size ≤ s.arena.allocBytesRemaining ∧ s.arena.isInInlineBlock = true then
    ((s.setShard i { shard with serving := none }).moveThread t .idle).direct heap r
  else do
    let avail := s.reloadSize
    let (ptr, arena) ← s.arena.allocateAligned heap avail
    .ok ({ s with arena := arena }.setShard i
      { shard with serving := some (r, some avail), freeBegin := ptr, chunk := (ptr, avail) })

/-- A critical section of a thread. -/
def advance (s : State blockSize) (t : ℕ) : Outcome (State blockSize) :=
  match s.threads t with
  | .idle => .ok s
  | .arena r => (s.moveThread t .idle).direct heap r
  | .shard r i =>
      let shard := s.shards i
      -- the mutex is held by another thread
      if shard.serving.isSome then .ok s
      else if shard.allocatedAndUnused < r.size then
        .ok ((s.setShard i { shard with serving := some (r, none) }).moveThread t (.inShard i))
      else .ok ((s.moveThread t .idle).takeFromShard r i shard.allocatedAndUnused)
  | .inShard i =>
      match (s.shards i).serving with
      | none => .ok s
      | some (r, none) => s.reload heap t r i
      | some (r, some avail) => .ok ((s.moveThread t .idle).takeFromShard r i avail)

def next (s : State blockSize) : Choice blockSize → Outcome (State blockSize)
  | .call t r cpuid tryArena tryShard repick =>
      match s.threads t with
      | .idle => .ok (s.moveThread t (s.pick shardCount r cpuid tryArena tryShard repick))
      | _ => .ok s
  | .step t => s.advance heap t

def run : State blockSize → List (Choice blockSize) → Outcome (State blockSize)
  | s, [] => .ok s
  | s, choice :: choices => do
      let s ← s.next heap shardCount choice
      run s choices

/-- What was returned does not overlap and lies in the blocks of the arena, aligned requests at
multiples of a pointer's size, and what a shard handed out in the chunk that it had then. -/
structure Sound (s : State blockSize) : Prop where
  apart : ∀ (i j : ℕ) (a b : Returned), i ≠ j → s.returned[i]? = some a → s.returned[j]? = some b →
    Disjoint (region a.ptr a.size) (region b.ptr b.size)
  inBlock : ∀ a ∈ s.returned, ∃ b ∈ s.arena.blocks,
    region a.ptr a.size ⊆ region b.1 b.2 ∧ b.2 = s.arena.kBlockSize
  aligned : ∀ a ∈ s.returned, a.aligned = true → 8 ∣ a.ptr
  inChunk : ∀ a ∈ s.returned, ∀ chunk ∈ a.chunk, region a.ptr a.size ⊆ region chunk.1 chunk.2

end State

/-! ### What an allocation out of the arena keeps -/

/-- The range lies in a block of the arena. -/
def UntrustedArena.Inside (a : UntrustedArena) (p n : ℕ) : Prop :=
  ∃ b ∈ a.blocks, b.1 ≤ p ∧ p + n ≤ b.1 + b.2

structure UntrustedArena.Wf (blockSize : ℕ) (a : UntrustedArena) : Prop where
  size : a.kBlockSize = optimizeBlockSize blockSize
  ends : a.alignedAllocPtr + a.allocBytesRemaining = a.unalignedAllocPtr
  inside : a.allocBytesRemaining = 0 ∨ a.Inside a.alignedAllocPtr a.allocBytesRemaining
  blocks : ∀ b ∈ a.blocks, kAlignUnit ∣ b.1 ∧ b.2 = a.kBlockSize

/-- The current block and the heap that is free, among what else is held. -/
def UntrustedArena.share (a : UntrustedArena) (h : Holdings) : Holdings :=
  { h with
    rest := (a.alignedAllocPtr, a.allocBytesRemaining)
    free := {x | ∀ b ∈ a.blocks, x ∉ region b.1 b.2} }

/-- The arena gives `n` bytes at `p`. -/
structure Gives (blockSize : ℕ) (h : Holdings) (a a' : UntrustedArena) (p n : ℕ) (aligned : Bool) :
    Prop where
  wf : a'.Wf blockSize
  apart : (a'.share { h with pieces := h.pieces ++ [(p, n)] }).Apart
  inside : a'.Inside p n
  keeps : ∀ b ∈ a.blocks, b ∈ a'.blocks
  aligned : aligned = true → kAlignUnit ∣ p

theorem UntrustedArena.Inside.mono {a a' : UntrustedArena} {p n : ℕ}
    (hblocks : ∀ b ∈ a.blocks, b ∈ a'.blocks) (h : a.Inside p n) : a'.Inside p n := by
  obtain ⟨b, hb, hin⟩ := h
  exact ⟨b, hblocks b hb, hin⟩

section Arena

variable (heap : AlignedHeap) {h : Holdings} {a : UntrustedArena} {n : ℕ}

/-- A new block takes the place of the current one. -/
theorem gives_allocateFallback (hwf : a.Wf blockSize) (hapart : (a.share h).Apart)
    (hn : n ≤ a.kBlockSize) (aligned : Bool) :
    ∃ p a', a.allocateFallback heap n aligned = .ok (p, a') ∧
      Gives blockSize h a a' p n aligned := by
  obtain ⟨block, hblock⟩ : ∃ block, block = heap.place a.blocks a.kBlockSize := ⟨_, rfl⟩
  have hdvd : kAlignUnit ∣ block := hblock ▸ heap.aligned _ _
  have hplace := ConcurrentArena.region_place_subset heap.toHeapAllocator a.blocks a.kBlockSize
  rw [← hblock] at hplace
  have hnew := hapart.newRest hplace
    (ConcurrentArena.free_cons_subset (block, a.kBlockSize) a.blocks)
    (ConcurrentArena.disjoint_free_cons (block, a.kBlockSize) a.blocks)
  have hblocks : ∀ b ∈ (block, a.kBlockSize) :: a.blocks,
      kAlignUnit ∣ b.1 ∧ b.2 = a.kBlockSize := by
    intro b hb
    rcases List.mem_cons.mp hb with rfl | hb
    · exact ⟨hdvd, rfl⟩
    · exact hwf.blocks b hb
  unfold UntrustedArena.allocateFallback UntrustedArena.allocateNewBlock
  rw [if_neg (by omega)]
  dsimp only
  rw [← hblock]
  cases aligned with
  | true =>
      have hcarve := hnew.carve (k := 0) (n := n) (by dsimp only; omega)
      refine ⟨block, _, if_pos rfl, ⟨hwf.size, by dsimp only; omega, ?_, hblocks⟩, hcarve, ?_,
        fun b hb => List.mem_cons_of_mem _ hb, fun _ => hdvd⟩
      · exact Or.inr ⟨_, List.mem_cons_self, by dsimp only; omega, by dsimp only; omega⟩
      · exact ⟨_, List.mem_cons_self, le_rfl, by dsimp only; omega⟩
  | false =>
      have hcarve := hnew.carveEnd (n := n) (by dsimp only; omega)
      have hptr : block + a.kBlockSize - n = block + (a.kBlockSize - n) := by omega
      refine ⟨block + a.kBlockSize - n, _, if_neg Bool.false_ne_true,
        ⟨hwf.size, by dsimp only; omega, ?_, hblocks⟩, ?_, ?_,
        fun b hb => List.mem_cons_of_mem _ hb, by rintro ⟨⟩⟩
      · exact Or.inr ⟨_, List.mem_cons_self, le_rfl, by dsimp only; omega⟩
      · rw [hptr]
        exact hcarve
      · exact ⟨_, List.mem_cons_self, by dsimp only; omega, by dsimp only; omega⟩

theorem gives_allocate (hwf : a.Wf blockSize) (hapart : (a.share h).Apart) (hpos : 0 < n)
    (hn : n ≤ a.kBlockSize) :
    ∃ p a', a.allocate heap n = .ok (p, a') ∧ Gives blockSize h a a' p n false := by
  unfold UntrustedArena.allocate
  by_cases hfit : n ≤ a.allocBytesRemaining
  · have hends := hwf.ends
    obtain ⟨b, hb, hle, hin⟩ := hwf.inside.resolve_left (by omega)
    have hcarve := hapart.carveEnd (n := n) hfit
    have hptr : a.unalignedAllocPtr - n = a.alignedAllocPtr + (a.allocBytesRemaining - n) := by
      omega
    rw [if_pos hfit]
    refine ⟨a.unalignedAllocPtr - n, _, rfl, ⟨hwf.size, by dsimp only; omega, ?_, hwf.blocks⟩, ?_,
      ⟨b, hb, by omega, by omega⟩, fun b hb => hb, by rintro ⟨⟩⟩
    · exact Or.inr ⟨b, hb, hle, by dsimp only; omega⟩
    · rw [hptr]
      exact hcarve
  · rw [if_neg hfit]
    exact gives_allocateFallback heap hwf hapart hn false

theorem gives_allocateAligned (hwf : a.Wf blockSize) (hapart : (a.share h).Apart) (hpos : 0 < n)
    (hn : n ≤ a.kBlockSize) :
    ∃ p a', a.allocateAligned heap n = .ok (p, a') ∧ Gives blockSize h a a' p n true := by
  obtain ⟨slop, hslop⟩ : ∃ slop, slop = if a.alignedAllocPtr % kAlignUnit = 0 then 0
      else kAlignUnit - a.alignedAllocPtr % kAlignUnit := ⟨_, rfl⟩
  unfold UntrustedArena.allocateAligned
  dsimp only
  rw [← hslop]
  by_cases hfit : n + slop ≤ a.allocBytesRemaining
  · have hends := hwf.ends
    obtain ⟨b, hb, hle, hin⟩ := hwf.inside.resolve_left (by omega)
    have hcarve := hapart.carve (k := slop) (n := n) (by dsimp only [UntrustedArena.share]; omega)
    have hdvd : kAlignUnit ∣ a.alignedAllocPtr + slop := by
      rw [hslop]
      unfold kAlignUnit
      split_ifs <;> omega
    rw [if_pos hfit]
    refine ⟨a.alignedAllocPtr + slop, _, rfl,
      ⟨hwf.size, by dsimp only; omega, ?_, hwf.blocks⟩, hcarve,
      ⟨b, hb, by omega, by omega⟩, fun b hb => hb, fun _ => hdvd⟩
    exact Or.inr ⟨b, hb, by dsimp only; omega, by dsimp only; omega⟩
  · rw [if_neg hfit]
    exact gives_allocateFallback heap hwf hapart hn true

end Arena

theorem Request.size_pos (r : Request blockSize) : 0 < r.size := by
  have hpos := r.bytes_pos
  unfold Request.size roundUp8
  split_ifs <;> omega

theorem eight_dvd_optimizeBlockSize (blockSize : ℕ) : 8 ∣ optimizeBlockSize blockSize := by
  unfold optimizeBlockSize kAlignUnit
  dsimp only
  split_ifs <;> omega

theorem Request.size_le (r : Request blockSize) : r.size ≤ optimizeBlockSize blockSize := by
  have hle := r.bytes_le
  have hdvd := eight_dvd_optimizeBlockSize blockSize
  unfold Request.size roundUp8
  split_ifs <;> omega

theorem Request.eight_dvd_size {r : Request blockSize} (h : r.aligned = true) : r.size % 8 = 0 := by
  unfold Request.size roundUp8
  rw [if_pos h]
  omega

/-- What is left of a shard. -/
def Shard.left (d : Shard blockSize) : ℕ :=
  match d.serving with
  | some (_, some avail) => avail
  | _ => d.allocatedAndUnused

structure Shard.Ok (a : UntrustedArena) (d : Shard blockSize) : Prop where
  aligned : 8 ∣ d.freeBegin
  inChunk : d.chunk.1 ≤ d.freeBegin ∧ d.freeBegin + d.left ≤ d.chunk.1 + d.chunk.2
  inside : d.left = 0 ∨ a.Inside d.freeBegin d.left
  small : ∀ r x, d.serving = some (r, x) → r.size ≤ shardBlockSize blockSize / 4
  avail : ∀ r avail, d.serving = some (r, some avail) → r.size ≤ avail

structure Returned.Ok (a : UntrustedArena) (e : Returned) : Prop where
  inside : a.Inside e.ptr e.size
  aligned : e.aligned = true → 8 ∣ e.ptr
  inChunk : ∀ chunk ∈ e.chunk, chunk.1 ≤ e.ptr ∧ e.ptr + e.size ≤ chunk.1 + chunk.2

def pieces (returned : List Returned) : List (ℕ × ℕ) := returned.map fun e => (e.ptr, e.size)

theorem Shard.Ok.mono {a a' : UntrustedArena} {d : Shard blockSize} (h : d.Ok a)
    (hblocks : ∀ b ∈ a.blocks, b ∈ a'.blocks) : d.Ok a' :=
  ⟨h.aligned, h.inChunk, h.inside.imp_right fun hin => hin.mono hblocks, h.small, h.avail⟩

theorem Returned.Ok.mono {a a' : UntrustedArena} {e : Returned} (h : e.Ok a)
    (hblocks : ∀ b ∈ a.blocks, b ∈ a'.blocks) : e.Ok a' :=
  ⟨h.inside.mono hblocks, h.aligned, h.inChunk⟩

theorem pieces_append (returned : List Returned) (e : Returned) :
    pieces (returned ++ [e]) = pieces returned ++ [(e.ptr, e.size)] := List.map_append

namespace State

/-- What the shards hold and what was returned. -/
def held (s : State blockSize) : Holdings where
  rest := (0, 0)
  shards i := ((s.shards i).freeBegin, (s.shards i).left)
  free := ∅
  pieces := pieces s.returned

structure Inv (s : State blockSize) : Prop where
  wf : s.arena.Wf blockSize
  apart : (s.arena.share s.held).Apart
  shards : ∀ i, (s.shards i).Ok s.arena
  waits : ∀ t r i, s.threads t = .shard r i → r.size ≤ shardBlockSize blockSize / 4
  returned : ∀ e ∈ s.returned, e.Ok s.arena

variable (heap : AlignedHeap) {s : State blockSize} {r : Request blockSize}
  {t i : ℕ}

theorem inv_create (blockSize : ℕ) : (create blockSize).Inv := by
  refine ⟨⟨rfl, rfl, Or.inl rfl, by rintro b ⟨⟩⟩, ?_, ?_, (by rintro t r i ⟨⟩),
    (by rintro e ⟨⟩)⟩
  · intro o o' hne
    cases o <;> cases o' <;>
      simp [Function.onFun, Holdings.own, UntrustedArena.share, held, create, Shard.left,
        UntrustedArena.create, pieces] at hne ⊢
  · exact fun i => ⟨dvd_zero 8, ⟨le_rfl, le_rfl⟩, Or.inl rfl, (by rintro _ _ ⟨⟩),
      (by rintro _ _ ⟨⟩)⟩

theorem Inv.moveThread (h : s.Inv) (t : ℕ) {stage : Stage blockSize}
    (hstage : ∀ r i, stage = .shard r i → r.size ≤ shardBlockSize blockSize / 4) :
    (s.moveThread t stage).Inv := by
  refine ⟨h.wf, h.apart, h.shards, ?_, h.returned⟩
  intro t' r i hwait
  by_cases ht : t' = t
  · subst ht
    rw [State.moveThread] at hwait
    dsimp only at hwait
    rw [Function.update_self] at hwait
    exact hstage r i hwait
  · rw [State.moveThread] at hwait
    dsimp only at hwait
    rw [Function.update_of_ne ht] at hwait
    exact h.waits t' r i hwait

theorem Inv.idle (h : s.Inv) (t : ℕ) : (s.moveThread t .idle).Inv :=
  h.moveThread t fun _ _ hs => nomatch hs

/-- A request that the arena serves. -/
theorem Inv.func (h : s.Inv) (r : Request blockSize) : ∃ p a',
    r.func heap s.arena = .ok (p, a') ∧ Gives blockSize s.held s.arena a' p r.size r.aligned := by
  have hsize : r.size ≤ s.arena.kBlockSize := h.wf.size ▸ r.size_le
  unfold Request.func
  cases haligned : r.aligned with
  | true => exact gives_allocateAligned heap h.wf h.apart r.size_pos hsize
  | false => exact gives_allocate heap h.wf h.apart r.size_pos hsize

theorem Inv.direct (h : s.Inv) (r : Request blockSize) :
    ∃ s', s.direct heap r = .ok s' ∧ s'.Inv := by
  obtain ⟨p, a', hfunc, hgives⟩ := h.func heap r
  refine ⟨{ s with arena := a' }.giveBack p r.size r.aligned none, ?_, hgives.wf, ?_,
    fun i => (h.shards i).mono hgives.keeps, h.waits, ?_⟩
  · rw [State.direct, hfunc, Outcome.ok_bind]
  · have hheld : ({ s with arena := a' }.giveBack p r.size r.aligned none).held =
        { s.held with pieces := s.held.pieces ++ [(p, r.size)] } := by
      unfold held giveBack
      dsimp only
      rw [pieces_append]
    rw [hheld]
    exact hgives.apart
  · intro e he
    rcases List.mem_append.mp he with he | he
    · exact (h.returned e he).mono hgives.keeps
    · obtain rfl := List.mem_singleton.mp he
      refine ⟨hgives.inside, fun haligned => ?_, fun chunk hchunk => nomatch hchunk⟩
      exact Nat.dvd_trans (by decide) (hgives.aligned haligned)

/-- What the shards hold when one of them changes. -/
theorem held_setShard (s : State blockSize) (i : ℕ) (d : Shard blockSize) :
    (s.setShard i d).held =
      { s.held with shards := Function.update s.held.shards i (d.freeBegin, d.left) } := by
  unfold held setShard
  dsimp only
  congr 1
  funext j
  by_cases hj : j = i
  · subst hj
    simp only [Function.update_self]
  · simp only [Function.update_of_ne hj]

theorem held_giveBack (s : State blockSize) (p n : ℕ) (aligned : Bool) (chunk : Option (ℕ × ℕ)) :
    (s.giveBack p n aligned chunk).held =
      { s.held with pieces := s.held.pieces ++ [(p, n)] } := by
  unfold held giveBack
  dsimp only
  rw [pieces_append]

theorem shards_setShard (h : s.Inv) {d : Shard blockSize} (hd : d.Ok s.arena) (i j : ℕ) :
    ((s.setShard i d).shards j).Ok s.arena := by
  unfold setShard
  dsimp only
  by_cases hj : j = i
  · subst hj
    rw [Function.update_self]
    exact hd
  · rw [Function.update_of_ne hj]
    exact h.shards j

/-- A shard hands out a piece of what it has left, and keeps another part. -/
theorem Inv.cutShard (h : s.Inv) {d : Shard blockSize} {e : Returned} (hd : d.Ok s.arena)
    (he : e.Ok s.arena)
    (hpiece : region e.ptr e.size ⊆ region (s.shards i).freeBegin (s.shards i).left)
    (hleft : region d.freeBegin d.left ⊆ region (s.shards i).freeBegin (s.shards i).left)
    (hdisjoint : Disjoint (region e.ptr e.size) (region d.freeBegin d.left)) :
    ((s.setShard i d).giveBack e.ptr e.size e.aligned e.chunk).Inv := by
  refine ⟨h.wf, ?_, shards_setShard h hd i, h.waits, ?_⟩
  · have hcut := h.apart.cutShard (i := i) hpiece hleft hdisjoint
    rw [held_giveBack, held_setShard]
    exact hcut
  · intro e' he'
    rcases List.mem_append.mp he' with he' | he'
    · exact h.returned e' he'
    · obtain rfl := List.mem_singleton.mp he'
      exact he

/-- The end of `AllocateImpl`: aligned memory from the front of the shard, other memory from its
end. -/
theorem Inv.takeFromShard (h : s.Inv) {avail : ℕ} (hleft : (s.shards i).left = avail)
    (hle : r.size ≤ avail) : (s.takeFromShard r i avail).Inv := by
  have hok := h.shards i
  have hpos := r.size_pos
  obtain ⟨hchunk, hchunk'⟩ := hok.inChunk
  obtain ⟨b, hb, hlow, hhigh⟩ := hok.inside.resolve_left (by omega)
  rw [hleft] at hchunk' hhigh
  unfold State.takeFromShard
  dsimp only
  by_cases hmod : r.size % 8 = 0
  · rw [if_pos hmod]
    have haligned := hok.aligned
    have hd : ({ s.shards i with
        serving := none, freeBegin := (s.shards i).freeBegin + r.size,
        allocatedAndUnused := avail - r.size } : Shard blockSize).Ok s.arena := by
      refine ⟨by dsimp only; omega, ⟨by dsimp only; omega, ?_⟩, Or.inr ⟨b, hb, ?_, ?_⟩,
        (fun _ _ h => nomatch h), (fun _ _ h => nomatch h)⟩
      all_goals
        dsimp only [Shard.left]
        omega
    have he : (⟨(s.shards i).freeBegin, r.size, r.aligned, some (s.shards i).chunk⟩ :
        Returned).Ok s.arena := by
      refine ⟨⟨b, hb, hlow, by dsimp only; omega⟩, fun _ => hok.aligned, ?_⟩
      intro chunk hmem
      obtain rfl := Option.some.inj hmem
      exact ⟨hchunk, by dsimp only; omega⟩
    apply h.cutShard hd he
    · rw [hleft]
      exact region_subset le_rfl (by dsimp only; omega)
    · rw [hleft]
      exact region_subset (by dsimp only; omega) (by dsimp only [Shard.left]; omega)
    · exact disjoint_region le_rfl
  · rw [if_neg hmod]
    have hd : ({ s.shards i with
        serving := none, allocatedAndUnused := avail - r.size } : Shard blockSize).Ok s.arena := by
      refine ⟨hok.aligned, ⟨hchunk, ?_⟩, Or.inr ⟨b, hb, hlow, ?_⟩,
        (fun _ _ h => nomatch h), (fun _ _ h => nomatch h)⟩
      all_goals
        dsimp only [Shard.left]
        omega
    have he : (⟨(s.shards i).freeBegin + avail - r.size, r.size, r.aligned,
        some (s.shards i).chunk⟩ : Returned).Ok s.arena := by
      refine ⟨⟨b, hb, by dsimp only; omega, by dsimp only; omega⟩, ?_, ?_⟩
      · exact fun hreq => absurd (Request.eight_dvd_size hreq) hmod
      · intro chunk hmem
        obtain rfl := Option.some.inj hmem
        exact ⟨by dsimp only; omega, by dsimp only; omega⟩
    apply h.cutShard hd he
    · rw [hleft]
      exact region_subset (by dsimp only; omega) (by dsimp only; omega)
    · rw [hleft]
      exact region_subset le_rfl (by dsimp only [Shard.left]; omega)
    · exact (disjoint_region (by dsimp only [Shard.left]; omega)).symm

theorem reloadSize_ge (s : State blockSize) : shardBlockSize blockSize / 2 ≤ s.reloadSize := by
  unfold reloadSize
  dsimp only
  split_ifs with hexact
  · exact hexact.1
  · exact Nat.div_le_self _ _

theorem shardBlockSize_le (blockSize : ℕ) :
    shardBlockSize blockSize * 2 ≤ optimizeBlockSize blockSize := by
  unfold shardBlockSize optimizeBlockSize kAlignUnit
  dsimp only
  split_ifs <;> omega

theorem reloadSize_le (s : State blockSize) : s.reloadSize ≤ optimizeBlockSize blockSize := by
  have hle := shardBlockSize_le blockSize
  unfold reloadSize
  dsimp only
  split_ifs with hexact <;> omega

/-- The mutex of a shard is taken or released, and no memory moves. -/
theorem Inv.setServing (h : s.Inv) {d : Shard blockSize}
    (hbegin : d.freeBegin = (s.shards i).freeBegin) (hleft : d.left = (s.shards i).left) (hchunk : d.chunk = (s.shards i).chunk)
    (hsmall : ∀ r x, d.serving = some (r, x) →
      r.size ≤ shardBlockSize blockSize / 4 ∧ x = none) : (s.setShard i d).Inv := by
  have hok := h.shards i
  have hd : d.Ok s.arena := by
    refine ⟨hbegin ▸ hok.aligned, ?_, ?_, fun r x hx => (hsmall r x hx).1, ?_⟩
    · rw [hbegin, hleft, hchunk]
      exact hok.inChunk
    · rw [hbegin, hleft]
      exact hok.inside
    · intro r avail hserving
      exact absurd (hsmall r _ hserving).2 (by simp)
  refine ⟨h.wf, ?_, shards_setShard h hd i, h.waits, h.returned⟩
  have hsame : Function.update s.held.shards i (d.freeBegin, d.left) = s.held.shards := by
    rw [hbegin, hleft]
    exact Function.update_eq_self i s.held.shards
  rw [held_setShard, hsame]
  exact h.apart

/-- A shard is loaded again: what it had left is given up. -/
theorem Inv.reload (h : s.Inv) (hserving : (s.shards i).serving = some (r, none)) :
    ∃ s', s.reload heap t r i = .ok s' ∧ s'.Inv := by
  have hok := h.shards i
  have hpos := r.size_pos
  have hsmall := hok.small r none hserving
  unfold State.reload
  dsimp only
  by_cases hinline : r.size ≤ s.arena.allocBytesRemaining ∧ s.arena.isInInlineBlock = true
  · rw [if_pos hinline]
    have hreleased := h.setServing (i := i) (d := { s.shards i with serving := none }) rfl
      (by simp only [Shard.left, hserving]) rfl (fun _ _ h => nomatch h)
    exact (hreleased.idle t).direct heap r
  · rw [if_neg hinline]
    have hge := reloadSize_ge s
    obtain ⟨p, a', halloc, hgives⟩ := gives_allocateAligned heap h.wf h.apart
      (show 0 < s.reloadSize by omega) (h.wf.size ▸ reloadSize_le s)
    obtain ⟨b, hb, hlow, hhigh⟩ := hgives.inside
    have hdvd := hgives.aligned rfl
    rw [halloc, Outcome.ok_bind]
    have hd : ({ s.shards i with
        serving := some (r, some s.reloadSize), freeBegin := p, chunk := (p, s.reloadSize) } :
          Shard blockSize).Ok a' := by
      refine ⟨Nat.dvd_trans (by decide) hdvd, ⟨le_rfl, le_rfl⟩, Or.inr ⟨b, hb, hlow, hhigh⟩, ?_, ?_⟩
      · rintro r' x hx
        obtain ⟨rfl, -⟩ := Prod.mk.inj (Option.some.inj hx)
        exact hsmall
      · rintro r' avail hx
        obtain ⟨rfl, havail⟩ := Prod.mk.inj (Option.some.inj hx)
        obtain rfl := Option.some.inj havail
        omega
    refine ⟨_, rfl, hgives.wf, ?_, ?_, h.waits, fun e he => (h.returned e he).mono hgives.keeps⟩
    · have hload := Holdings.Apart.reload (h := a'.share s.held) hgives.apart i
      rw [held_setShard]
      exact hload
    · intro j
      unfold setShard
      dsimp only
      by_cases hj : j = i
      · subst hj
        rw [Function.update_self]
        exact hd
      · rw [Function.update_of_ne hj]
        exact (h.shards j).mono hgives.keeps

/-- A critical section of a thread, by cases on where the thread is. -/
theorem Inv.advance (h : s.Inv) (t : ℕ) : ∃ s', s.advance heap t = .ok s' ∧ s'.Inv := by
  unfold State.advance
  cases hstage : s.threads t with
  | idle => exact ⟨s, rfl, h⟩
  | arena r => exact (h.idle t).direct heap r
  | shard r i =>
      dsimp only
      have hsmall := h.waits t r i hstage
      cases hserving : (s.shards i).serving with
      | some x => exact ⟨s, by rw [Option.isSome_some, if_pos rfl], h⟩
      | none =>
          have hleft : (s.shards i).left = (s.shards i).allocatedAndUnused := by
            simp only [Shard.left, hserving]
          rw [Option.isSome_none, if_neg Bool.false_ne_true]
          by_cases hunused : (s.shards i).allocatedAndUnused < r.size
          · rw [if_pos hunused]
            have hlocked := h.setServing (i := i)
              (d := { s.shards i with serving := some (r, none) }) rfl (by rw [hleft]; rfl) rfl
              (fun r' x hx => by
                obtain ⟨rfl, rfl⟩ := Prod.mk.inj (Option.some.inj hx)
                exact ⟨hsmall, rfl⟩)
            exact ⟨_, rfl, hlocked.moveThread t fun _ _ hs => nomatch hs⟩
          · rw [if_neg hunused]
            exact ⟨_, rfl, (h.idle t).takeFromShard hleft (by omega)⟩
  | inShard i =>
      dsimp only
      cases hserving : (s.shards i).serving with
      | none => exact ⟨s, rfl, h⟩
      | some x =>
          obtain ⟨r, _ | avail⟩ := x
          · exact h.reload heap hserving
          · have hleft : (s.shards i).left = avail := by simp only [Shard.left, hserving]
            exact ⟨_, rfl, (h.idle t).takeFromShard hleft ((h.shards i).avail r avail hserving)⟩

theorem Inv.next (shardCount : ℕ) (h : s.Inv) (choice : Choice blockSize) :
    ∃ s', s.next heap shardCount choice = .ok s' ∧ s'.Inv := by
  cases choice with
  | step t => exact h.advance heap t
  | call t r cpuid tryArena tryShard repick =>
      rw [State.next]
      cases hstage : s.threads t with
      | idle =>
          refine ⟨_, rfl, h.moveThread t ?_⟩
          intro r' i hpick
          unfold pick at hpick
          by_cases hlarge : shardBlockSize blockSize / 4 < r.size
          · rw [if_pos (Or.inl hlarge)] at hpick
            cases hpick
          · split_ifs at hpick
            all_goals
              obtain ⟨rfl, -⟩ := Stage.shard.inj hpick
              exact Nat.not_lt.mp hlarge
      | arena _ | shard _ _ | inShard _ => exact ⟨s, rfl, h⟩

theorem Inv.run (shardCount : ℕ) (h : s.Inv) (schedule : List (Choice blockSize)) :
    ∃ s', s.run heap shardCount schedule = .ok s' ∧ s'.Inv := by
  induction schedule generalizing s with
  | nil => exact ⟨s, rfl, h⟩
  | cons choice choices ih =>
      obtain ⟨s₁, hnext, h₁⟩ := h.next heap shardCount choice
      obtain ⟨s', hrun, h'⟩ := ih h₁
      exact ⟨s', by rw [State.run, hnext, Outcome.ok_bind, hrun], h'⟩

theorem Inv.sound (h : s.Inv) : s.Sound := by
  refine ⟨?_, ?_, fun e he => (h.returned e he).aligned, ?_⟩
  · intro i j a b hij ha hb
    apply h.apart.disjoint_pieces hij (v := (a.ptr, a.size)) (w := (b.ptr, b.size))
    · exact List.getElem?_map.trans (by rw [ha]; rfl)
    · exact List.getElem?_map.trans (by rw [hb]; rfl)
  · intro e he
    obtain ⟨b, hb, hlow, hhigh⟩ := (h.returned e he).inside
    exact ⟨b, hb, region_subset hlow hhigh, (h.wf.blocks b hb).2⟩
  · intro e he chunk hchunk
    obtain ⟨hlow, hhigh⟩ := (h.returned e he).inChunk chunk hchunk
    exact region_subset hlow hhigh

end State

/-- For every block size, any number of shards and threads, and every interleaving of requests of
at most a block: no call fails, and what was returned is sound. -/
theorem allocations_sound (heap : AlignedHeap) (blockSize shardCount : ℕ)
    (schedule : List (Choice blockSize)) :
    ∃ s, (State.create blockSize).run heap shardCount schedule = .ok s ∧ s.Sound := by
  obtain ⟨s, hrun, hinv⟩ := (State.inv_create blockSize).run heap shardCount schedule
  exact ⟨s, hrun, hinv.sound⟩

/-- Blocks one behind the other. -/
def sampleAlignedHeap : AlignedHeap where
  place held _ := held.foldr (fun b top => max ((b.1 + b.2 + 15) / 16 * 16) top) 16
  apart := by
    intro held n b hb
    have hle : b.1 + b.2 ≤ held.foldr (fun b top => max ((b.1 + b.2 + 15) / 16 * 16) top) 16 := by
      induction held with
      | nil => exact absurd hb List.not_mem_nil
      | cons d held ih =>
          rw [List.foldr_cons]
          rcases List.mem_cons.mp hb with rfl | hb
          · exact le_trans (by omega) (le_max_left _ _)
          · exact le_trans (ih hb) (le_max_right _ _)
    exact (disjoint_region hle).symm
  aligned := by
    intro held n
    unfold kAlignUnit
    induction held with
    | nil => exact dvd_refl 16
    | cons d held ih =>
        rw [List.foldr_cons]
        rcases max_choice ((d.1 + d.2 + 15) / 16 * 16)
            (held.foldr (fun b top => max ((b.1 + b.2 + 15) / 16 * 16) top) 16) with hmax | hmax
        · rw [hmax]
          exact Nat.dvd_mul_left 16 _
        · rw [hmax]
          exact ih

/-- Two threads meet at one shard: the second one waits until it is loaded. -/
example : ((State.create 4096).run sampleAlignedHeap 8
    [.call 0 ⟨true, 10, false, by decide, by decide⟩ 1 true true 0,
      .call 1 ⟨false, 5, false, by decide, by decide⟩ 0 false false 9,
      .step 0, .step 1, .step 0, .step 0, .step 1] >>= fun s =>
        .ok (s.returned.map fun e => (e.ptr, e.size, e.chunk))) =
      .ok [(16, 16, some (16, 512)), (523, 5, some (16, 512))] := by
  decide +kernel

/-- What the model of one thread at a time keeps of the arena. -/
def UntrustedArena.front (a : UntrustedArena) : Tweezer.UntrustedArena :=
  ⟨a.blocks.length, a.alignedAllocPtr, a.allocBytesRemaining⟩

/-- An aligned allocation there is this one, where the host hands out the same block next. -/
theorem UntrustedArena.front_allocateAligned {heap : AlignedHeap} {host : BlockAllocator}
    {a : UntrustedArena} (hsize : a.kBlockSize = kUntrustedBlockSize)
    (hleft : a.blocks.length < host.blocks)
    (hplace : heap.place a.blocks kUntrustedBlockSize = host.base a.blocks.length) (n : ℕ) :
    a.front.allocateAligned host n =
      a.allocateAligned heap n >>= fun r => .ok (r.1, r.2.front) := by
  unfold Tweezer.UntrustedArena.allocateAligned Tweezer.UntrustedArena.slop allocateAligned front
  dsimp only
  by_cases hfit : n + (if a.alignedAllocPtr % kAlignUnit = 0 then 0
      else kAlignUnit - a.alignedAllocPtr % kAlignUnit) ≤ a.allocBytesRemaining
  · rw [if_pos hfit, if_pos hfit, Outcome.ok_bind]
  · rw [if_neg hfit, if_neg hfit]
    unfold Tweezer.UntrustedArena.allocateFallback allocateFallback allocateNewBlock
    dsimp only
    rw [hsize]
    by_cases hlarge : kUntrustedBlockSize < n
    · rw [if_pos hlarge, if_pos hlarge, Outcome.error_bind]
    · rw [if_neg hlarge, if_neg hlarge, if_pos hleft, if_pos rfl, Outcome.ok_bind, hplace]
      rfl

end Tweezer.Interleaved
