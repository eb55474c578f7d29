import Tweezer.Holdings
import Tweezer.UntrustedArena

/-!
# The arena for records inside the enclave

`Arena` and `ConcurrentArena` of `memory/`, without huge pages. The first pieces come out of a
block inside of the arena itself, later ones out of blocks from the heap, and anything longer
than a quarter of a block gets one of its own. Whatever was handed out stays apart.
-/

namespace Tweezer

/-- `Arena::kInlineSize`. -/
def kInlineSize : ℕ := 2048

/-- `OptimizeBlockSize`. -/
def optimizeBlockSize (blockSize : ℕ) : ℕ :=
  let blockSize := min (2 * 2 ^ 30) (max 4096 blockSize)
  if blockSize % kAlignUnit = 0 then blockSize else (1 + blockSize / kAlignUnit) * kAlignUnit

/-- The heap of the enclave: where `new char[n]` places a block, away from those that are
held. -/
structure HeapAllocator where
  place : List (ℕ × ℕ) → ℕ → ℕ
  apart : ∀ held n, ∀ b ∈ held, Disjoint (region (place held n) n) (region b.1 b.2)

/-- The blocks that are held, the inline block as the last of them, and the current one. -/
structure Arena where
  kBlockSize : ℕ
  held : List (ℕ × ℕ)
  alignedPtr : ℕ
  remaining : ℕ
  deriving DecidableEq

namespace Arena

variable (heap : HeapAllocator)

def create (blockSize inlineBlock : ℕ) : Arena :=
  ⟨optimizeBlockSize blockSize, [(inlineBlock, kInlineSize)], inlineBlock, kInlineSize⟩

def isInInlineBlock (a : Arena) : Bool := a.held.length ≤ 1

def allocateNewBlock (a : Arena) (bytes : ℕ) : ℕ × Arena :=
  let block := heap.place a.held bytes
  (block, { a with held := (block, bytes) :: a.held })

def allocateFallback (a : Arena) (bytes : ℕ) : ℕ × Arena :=
  if a.kBlockSize / 4 < bytes then a.allocateNewBlock heap bytes
  else
    let (blockHead, a) := a.allocateNewBlock heap a.kBlockSize
    (blockHead, { a with alignedPtr := blockHead + bytes, remaining := a.kBlockSize - bytes })

def slop (a : Arena) : ℕ :=
  if a.alignedPtr % kAlignUnit = 0 then 0 else kAlignUnit - a.alignedPtr % kAlignUnit

def allocateAligned (a : Arena) (bytes : ℕ) : ℕ × Arena :=
  let needed := bytes + a.slop
  if needed ≤ a.remaining then
    (a.alignedPtr + a.slop,
      { a with alignedPtr := a.alignedPtr + needed, remaining := a.remaining - needed })
  else a.allocateFallback heap bytes

end Arena

structure ConcurrentArena where
  shardBlockSize : ℕ
  shards : ℕ → Shard
  shardCount : ℕ
  arena : Arena

namespace ConcurrentArena

variable (heap : HeapAllocator)

def create (blockSize shardCount inlineBlock : ℕ) : ConcurrentArena :=
  ⟨min (128 * 1024) (blockSize / 8), fun _ => ⟨0, 0⟩, shardCount, .create blockSize inlineBlock⟩

def allocateDirect (c : ConcurrentArena) (bytes : ℕ) : ℕ × ConcurrentArena :=
  let (ptr, arena) := c.arena.allocateAligned heap bytes
  (ptr, { c with arena := arena })

/-- The shard hands out memory from its beginning. -/
def takeFromShard (c : ConcurrentArena) (i bytes : ℕ) : ℕ × ConcurrentArena :=
  let s := c.shards i
  (s.freeBegin, { c with
    shards := Function.update c.shards i ⟨s.freeBegin + bytes, s.allocatedAndUnused - bytes⟩ })

/-- The size of the piece with which a shard is loaded again. -/
def reloadSize (c : ConcurrentArena) : ℕ :=
  if c.shardBlockSize / 2 ≤ c.arena.remaining ∧ c.arena.remaining < c.shardBlockSize * 2 then
    c.arena.remaining
  else c.shardBlockSize

/-- `AllocateImpl` on a core whose `tls_cpuid` is `cpu`, when no lock is taken. -/
def allocateImpl (c : ConcurrentArena) (cpu bytes : ℕ) : ℕ × ConcurrentArena :=
  if c.shardBlockSize / 4 < bytes ∨ (cpu = 0 ∧ (c.shards 0).allocatedAndUnused = 0) then
    c.allocateDirect heap bytes
  else
    let i := cpu % c.shardCount
    if (c.shards i).allocatedAndUnused < bytes then
      if bytes ≤ c.arena.remaining ∧ c.arena.isInInlineBlock then c.allocateDirect heap bytes
      else
        let avail := c.reloadSize
        let (ptr, c) := c.allocateDirect heap avail
        { c with shards := Function.update c.shards i ⟨ptr, avail⟩ }.takeFromShard i bytes
    else c.takeFromShard i bytes

def allocateAligned (c : ConcurrentArena) (cpu bytes : ℕ) : ℕ × ConcurrentArena :=
  c.allocateImpl heap cpu (roundUp8 bytes)

/-- Who holds what: the current block, the shards, the pieces handed out, and the heap
everything that is not in a block. -/
def holdings (c : ConcurrentArena) (pieces : List (ℕ × ℕ)) : Holdings where
  rest := (c.arena.alignedPtr, c.arena.remaining)
  shards i := ((c.shards i).freeBegin, (c.shards i).allocatedAndUnused)
  free := {a | ∀ b ∈ c.arena.held, a ∉ region b.1 b.2}
  pieces := pieces

variable {c : ConcurrentArena} {pieces : List (ℕ × ℕ)} {n i : ℕ}

theorem apart_create (blockSize shardCount inlineBlock : ℕ) :
    ((create blockSize shardCount inlineBlock).holdings []).Apart := by
  have hblock : Disjoint (region inlineBlock kInlineSize)
      {a | ∀ b ∈ [(inlineBlock, kInlineSize)], a ∉ region b.1 b.2} := by
    rw [Set.disjoint_left]
    intro a ha hfree
    exact hfree _ (List.mem_singleton.mpr rfl) ha
  intro o o' hne
  cases o with
  | rest =>
      cases o' with
      | free => exact hblock
      | rest => exact absurd rfl hne
      | _ => simp [Function.onFun, Holdings.own, holdings, create]
  | free =>
      cases o' with
      | rest => exact hblock.symm
      | free => exact absurd rfl hne
      | _ => simp [Function.onFun, Holdings.own, holdings, create]
  | _ => simp [Function.onFun, Holdings.own, holdings, create]

/-- A new block lies in what was free, and no longer does. -/
theorem region_place_subset (held : List (ℕ × ℕ)) (bytes : ℕ) :
    region (heap.place held bytes) bytes ⊆ {a | ∀ b ∈ held, a ∉ region b.1 b.2} := by
  intro a ha b hb hmem
  exact Set.disjoint_left.mp (heap.apart held bytes b hb) ha hmem

theorem free_cons_subset (b : ℕ × ℕ) (held : List (ℕ × ℕ)) :
    {a | ∀ d ∈ b :: held, a ∉ region d.1 d.2} ⊆ {a | ∀ d ∈ held, a ∉ region d.1 d.2} := by
  intro a ha d hd
  exact ha d (List.mem_cons_of_mem _ hd)

theorem disjoint_free_cons (b : ℕ × ℕ) (held : List (ℕ × ℕ)) :
    Disjoint (region b.1 b.2) {a | ∀ d ∈ b :: held, a ∉ region d.1 d.2} := by
  rw [Set.disjoint_left]
  intro a ha hfree
  exact hfree b List.mem_cons_self ha

/-- What an allocation keeps: the pieces stay apart with the new one among them. -/
theorem apart_allocateDirect (h : (c.holdings pieces).Apart) (n : ℕ) :
    ((c.allocateDirect heap n).2.holdings (pieces ++ [((c.allocateDirect heap n).1, n)])).Apart := by
  unfold allocateDirect Arena.allocateAligned
  dsimp only
  by_cases hfit : n + c.arena.slop ≤ c.arena.remaining
  · rw [if_pos hfit]
    exact h.carve (k := c.arena.slop) (n := n) (by dsimp only [holdings]; omega)
  · rw [if_neg hfit]
    unfold Arena.allocateFallback Arena.allocateNewBlock
    dsimp only
    by_cases hlong : c.arena.kBlockSize / 4 < n
    · rw [if_pos hlong]
      exact h.newPiece (region_place_subset heap _ _) (free_cons_subset _ _)
        (disjoint_free_cons (_, _) _)
    · rw [if_neg hlong]
      have hnew := h.newRest (region_place_subset heap c.arena.held c.arena.kBlockSize)
        (free_cons_subset (_, _) _) (disjoint_free_cons (_, _) _)
      have hcarve := hnew.carve (k := 0) (n := n) (by dsimp only; omega)
      exact hcarve

/-- A shard as its beginning and length. -/
theorem holdings_update (c : ConcurrentArena) (i : ℕ) (s : Shard) (pieces : List (ℕ × ℕ)) :
    ({ c with shards := Function.update c.shards i s } : ConcurrentArena).holdings pieces =
      { c.holdings pieces with
        shards := Function.update (c.holdings pieces).shards i
          (s.freeBegin, s.allocatedAndUnused) } := by
  unfold holdings
  dsimp only
  congr 1
  funext j
  by_cases hj : j = i
  · subst hj
    simp only [Function.update_self]
  · simp only [Function.update_of_ne hj]

theorem apart_takeFromShard (h : (c.holdings pieces).Apart)
    (hn : n ≤ (c.shards i).allocatedAndUnused) :
    ((c.takeFromShard i n).2.holdings (pieces ++ [((c.takeFromShard i n).1, n)])).Apart := by
  have htake := h.takeFromShard (i := i) hn
  rw [takeFromShard]
  dsimp only
  rw [holdings_update]
  exact htake

theorem apart_load {p : ℕ} (h : (c.holdings (pieces ++ [(p, n)])).Apart) (i : ℕ) :
    (({ c with shards := Function.update c.shards i ⟨p, n⟩ } :
      ConcurrentArena).holdings pieces).Apart := by
  have hload := Holdings.Apart.reload (h := c.holdings pieces) h i
  rw [holdings_update]
  exact hload

theorem reloadSize_ge (c : ConcurrentArena) : c.shardBlockSize / 2 ≤ c.reloadSize := by
  unfold reloadSize
  split_ifs with h
  · exact h.1
  · omega

/-- An allocation of any size succeeds and leaves the pieces apart. -/
theorem apart_allocateAligned (h : (c.holdings pieces).Apart) (cpu bytes : ℕ) :
    ((c.allocateAligned heap cpu bytes).2.holdings
      (pieces ++ [((c.allocateAligned heap cpu bytes).1, roundUp8 bytes)])).Apart := by
  unfold allocateAligned allocateImpl
  by_cases hdirect : c.shardBlockSize / 4 < roundUp8 bytes ∨
      (cpu = 0 ∧ (c.shards 0).allocatedAndUnused = 0)
  · rw [if_pos hdirect]
    exact apart_allocateDirect heap h _
  · rw [if_neg hdirect]
    dsimp only
    by_cases hreload : (c.shards (cpu % c.shardCount)).allocatedAndUnused < roundUp8 bytes
    · rw [if_pos hreload]
      by_cases hinline : roundUp8 bytes ≤ c.arena.remaining ∧ c.arena.isInInlineBlock = true
      · rw [if_pos hinline]
        exact apart_allocateDirect heap h _
      · rw [if_neg hinline]
        have hpiece := apart_load (apart_allocateDirect heap h c.reloadSize)
          (cpu % c.shardCount)
        have hle : roundUp8 bytes ≤ c.reloadSize := by
          have hsmall := Nat.not_lt.mp fun hlarge => hdirect (Or.inl hlarge)
          have hsize := c.reloadSize_ge
          omega
        apply apart_takeFromShard hpiece
        dsimp only
        rw [Function.update_self]
        exact hle
    · rw [if_neg hreload]
      exact apart_takeFromShard h (Nat.not_lt.mp hreload)

end ConcurrentArena

end Tweezer
