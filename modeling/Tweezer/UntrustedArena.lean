import Tweezer.Memory
import Tweezer.Outcome

/-!
# The arena for values outside the enclave

`Untrusted_Arena` and `UntrustedConcurrentArena` of `memory/`. Values are carved out of
blocks of 4096 bytes that the host hands out, either directly or through a shard that the
calling core keeps. A value longer than a block ends the process.
-/

namespace Tweezer

/-- `Untrusted_Arena::kMinBlockSize`, the size of every block. -/
def kUntrustedBlockSize : ℕ := 4096

/-- `shard_block_size_`, an eighth of the block size. -/
def kShardBlockSize : ℕ := 512

def kAlignUnit : ℕ := 16

/-- The host's `tc_malloc`: where the blocks it hands out lie. Behind the last of them it
returns a null pointer. -/
structure BlockAllocator where
  blocks : ℕ
  base : ℕ → ℕ
  inRange : ∀ n < blocks, base n + kUntrustedBlockSize < 2 ^ 64
  apart : ∀ m n, m < blocks → n < blocks → m ≠ n →
    Disjoint (region (base m) kUntrustedBlockSize) (region (base n) kUntrustedBlockSize)

structure UntrustedArena where
  blocks : ℕ
  alignedPtr : ℕ
  remaining : ℕ

structure Shard where
  freeBegin : ℕ
  allocatedAndUnused : ℕ

structure UntrustedConcurrentArena where
  arena : UntrustedArena
  shards : ℕ → Shard
  shardCount : ℕ

namespace UntrustedArena

variable (host : BlockAllocator)

def create : UntrustedArena := ⟨0, 0, 0⟩

def allocateFallback (a : UntrustedArena) (bytes : ℕ) : Outcome (ℕ × UntrustedArena) :=
  if kUntrustedBlockSize < bytes then .error .exit
  else if a.blocks < host.blocks then
    .ok (host.base a.blocks,
      ⟨a.blocks + 1, host.base a.blocks + bytes, kUntrustedBlockSize - bytes⟩)
  else .error .outOfBuffer

def slop (a : UntrustedArena) : ℕ :=
  if a.alignedPtr % kAlignUnit = 0 then 0 else kAlignUnit - a.alignedPtr % kAlignUnit

def allocateAligned (a : UntrustedArena) (bytes : ℕ) : Outcome (ℕ × UntrustedArena) :=
  let needed := bytes + a.slop
  if needed ≤ a.remaining then
    .ok (a.alignedPtr + a.slop,
      { a with alignedPtr := a.alignedPtr + needed, remaining := a.remaining - needed })
  else a.allocateFallback host bytes

end UntrustedArena

/-- `((bytes - 1) | 7) + 1`, which for no bytes wraps around to none. -/
def roundUp8 (bytes : ℕ) : ℕ := (bytes + 7) / 8 * 8

namespace UntrustedConcurrentArena

variable (host : BlockAllocator)

def create (shardCount : ℕ) : UntrustedConcurrentArena := ⟨.create, fun _ => ⟨0, 0⟩, shardCount⟩

def allocateDirect (c : UntrustedConcurrentArena) (bytes : ℕ) :
    Outcome (ℕ × UntrustedConcurrentArena) := do
  let (ptr, arena) ← c.arena.allocateAligned host bytes
  .ok (ptr, { c with arena := arena })

/-- The shard hands out memory from its beginning. -/
def takeFromShard (c : UntrustedConcurrentArena) (i bytes : ℕ) : ℕ × UntrustedConcurrentArena :=
  let s := c.shards i
  (s.freeBegin, { c with
    shards := Function.update c.shards i ⟨s.freeBegin + bytes, s.allocatedAndUnused - bytes⟩ })

/-- The size of the piece with which a shard is loaded again. -/
def reloadSize (c : UntrustedConcurrentArena) : ℕ :=
  if kShardBlockSize / 2 ≤ c.arena.remaining ∧ c.arena.remaining < kShardBlockSize * 2 then
    c.arena.remaining
  else kShardBlockSize

/-- `AllocateImpl` on a core whose `tls_cpuid` is `cpu`, when no lock is taken. -/
def allocateImpl (c : UntrustedConcurrentArena) (cpu bytes : ℕ) :
    Outcome (ℕ × UntrustedConcurrentArena) :=
  if kShardBlockSize / 4 < bytes ∨ (cpu = 0 ∧ (c.shards 0).allocatedAndUnused = 0) then
    c.allocateDirect host bytes
  else
    let i := cpu % c.shardCount
    if (c.shards i).allocatedAndUnused < bytes then
      if bytes ≤ c.arena.remaining ∧ c.arena.blocks = 0 then c.allocateDirect host bytes
      else do
        let avail := c.reloadSize
        let (ptr, c) ← c.allocateDirect host avail
        .ok ({ c with shards := Function.update c.shards i ⟨ptr, avail⟩ }.takeFromShard i bytes)
    else .ok (c.takeFromShard i bytes)

def allocateAligned (c : UntrustedConcurrentArena) (cpu bytes : ℕ) :
    Outcome (ℕ × UntrustedConcurrentArena) :=
  c.allocateImpl host cpu (roundUp8 bytes)

/-- What holds memory: the rest of the current block, the shards, the blocks that the host
has not handed out yet, and each value handed out so far. -/
inductive Owner where
  | rest
  | shard (i : ℕ)
  | block (n : ℕ)
  | value (n : ℕ)
  deriving DecidableEq

/-- The memory of each owner; `values` are the addresses and sizes handed out. -/
def own (c : UntrustedConcurrentArena) (values : List (ℕ × ℕ)) : Owner → Set ℕ
  | .rest => region c.arena.alignedPtr c.arena.remaining
  | .shard i => region (c.shards i).freeBegin (c.shards i).allocatedAndUnused
  | .block n => {a | c.arena.blocks ≤ n ∧ n < host.blocks ∧
      a ∈ region (host.base n) kUntrustedBlockSize}
  | .value n => {a | ∃ v ∈ values[n]?, a ∈ region v.1 v.2}

structure Inv (c : UntrustedConcurrentArena) (values : List (ℕ × ℕ)) : Prop where
  apart : Pairwise (Function.onFun Disjoint (c.own host values))
  remaining_le : c.arena.remaining ≤ kUntrustedBlockSize
  rest_lt : c.arena.alignedPtr + c.arena.remaining < 2 ^ 64
  shard_lt : ∀ i, (c.shards i).freeBegin + (c.shards i).allocatedAndUnused < 2 ^ 64

variable {host} {c : UntrustedConcurrentArena} {values : List (ℕ × ℕ)} {p n i : ℕ}

theorem own_value_append_of_ne {v : ℕ × ℕ} {j : ℕ} (hj : j ≠ values.length) :
    c.own host (values ++ [v]) (.value j) = c.own host values (.value j) := by
  have hget : (values ++ [v])[j]? = values[j]? := by
    rcases Nat.lt_or_gt_of_ne hj with h | h
    · exact List.getElem?_append_left h
    · rw [List.getElem?_eq_none (by rw [List.length_append, List.length_singleton]; omega),
        List.getElem?_eq_none (by omega)]
  simp only [own, hget]

theorem own_value_append_self : c.own host (values ++ [(p, n)]) (.value values.length) =
    region p n := by
  ext a
  simp [own]

theorem own_value_length : c.own host values (.value values.length) = ∅ := by
  ext a
  simp [own]

theorem inv_create (shardCount : ℕ) : (create shardCount).Inv host [] := by
  have hblocks : ∀ m n, m ≠ n → Disjoint ((create shardCount).own host [] (.block m))
      ((create shardCount).own host [] (.block n)) := by
    intro m n hmn
    rw [Set.disjoint_left]
    rintro a ⟨-, hm, ha⟩ ⟨-, hn, ha'⟩
    exact Set.disjoint_left.mp (host.apart m n hm hn hmn) ha ha'
  refine ⟨?_, Nat.zero_le _, Nat.two_pow_pos 64, fun _ => Nat.two_pow_pos 64⟩
  intro o o' hne
  cases o with
  | block m =>
      cases o' with
      | block n => exact hblocks m n fun h => hne (congrArg _ h)
      | _ => simp [Function.onFun, own, create, UntrustedArena.create]
  | _ => simp [Function.onFun, own, create, UntrustedArena.create]

/-- The next block becomes the current one. -/
theorem Inv.newBlock (h : c.Inv host values) (hb : c.arena.blocks < host.blocks) :
    ({ c with arena := ⟨c.arena.blocks + 1, host.base c.arena.blocks, kUntrustedBlockSize⟩ } :
      UntrustedConcurrentArena).Inv host values := by
  refine ⟨?_, le_refl _, host.inRange _ hb, h.shard_lt⟩
  refine disjoint_of_take h.apart (t := .rest) (g := .block c.arena.blocks) ?_ ?_ ?_
  · intro a ha
    exact ⟨le_refl _, hb, ha⟩
  · rw [Set.disjoint_left]
    rintro a - ⟨hle, -⟩
    exact absurd hle (Nat.not_succ_le_self _)
  · intro o ho
    cases o with
    | rest => exact absurd rfl ho
    | block n =>
        rintro a ⟨hle, hrest⟩
        exact ⟨Nat.le_of_succ_le hle, hrest⟩
    | shard i => exact subset_rfl
    | value n => exact subset_rfl

/-- A value is carved out of the current block, behind the bytes skipped for alignment. -/
theorem Inv.carve (h : c.Inv host values) {k : ℕ} (hn : k + n ≤ c.arena.remaining) :
    ({ c with arena := ⟨c.arena.blocks, c.arena.alignedPtr + (n + k),
        c.arena.remaining - (n + k)⟩ } : UntrustedConcurrentArena).Inv host
      (values ++ [(c.arena.alignedPtr + k, n)]) := by
  have hle := h.remaining_le
  have hlt := h.rest_lt
  refine ⟨?_, ?_, ?_, h.shard_lt⟩
  · refine disjoint_of_take h.apart (t := .value values.length) (g := .rest) ?_ ?_ ?_
    · rw [own_value_append_self]
      exact region_subset (by omega) (by omega)
    · rw [own_value_append_self]
      exact disjoint_region (by dsimp only; omega)
    · intro o ho
      cases o with
      | rest => exact region_subset (by dsimp only; omega) (by dsimp only; omega)
      | block n => exact subset_rfl
      | shard i => exact subset_rfl
      | value j =>
          rw [own_value_append_of_ne fun hj => ho (congrArg _ hj)]
          exact subset_rfl
  · dsimp only
    omega
  · dsimp only
    omega

/-- A value is carved out of a shard. -/
theorem Inv.takeFromShard (h : c.Inv host values) (hp : (c.takeFromShard i n).1 = p)
    (hn : n ≤ (c.shards i).allocatedAndUnused) :
    (c.takeFromShard i n).2.Inv host (values ++ [(p, n)]) := by
  have hlt := h.shard_lt i
  obtain rfl : (c.shards i).freeBegin = p := hp
  have hshard : (c.takeFromShard i n).2.own host (values ++ [((c.shards i).freeBegin, n)])
      (.shard i) = region ((c.shards i).freeBegin + n) ((c.shards i).allocatedAndUnused - n) := by
    simp [own, UntrustedConcurrentArena.takeFromShard]
  refine ⟨?_, h.remaining_le, h.rest_lt, ?_⟩
  · refine disjoint_of_take h.apart (t := .value values.length) (g := .shard i) ?_ ?_ ?_
    · rw [own_value_append_self]
      exact region_subset (le_refl _) (by omega)
    · rw [own_value_append_self, hshard]
      exact disjoint_region (le_refl _)
    · intro o ho
      cases o with
      | rest => exact subset_rfl
      | block n => exact subset_rfl
      | shard j =>
          by_cases hj : j = i
          · subst hj
            rw [hshard]
            exact region_subset (by omega) (by omega)
          · have hsame : (c.takeFromShard i n).2.shards j = c.shards j :=
              Function.update_of_ne hj _ _
            rw [own, hsame]
            exact subset_rfl
      | value j =>
          rw [own_value_append_of_ne fun hj => ho (congrArg _ hj)]
          exact subset_rfl
  · intro j
    by_cases hj : j = i
    · subst hj
      simp only [UntrustedConcurrentArena.takeFromShard, Function.update_self]
      omega
    · simp only [UntrustedConcurrentArena.takeFromShard, Function.update_of_ne hj]
      exact h.shard_lt j

/-- A shard is loaded with the piece that was carved out last. -/
theorem Inv.reload (h : c.Inv host (values ++ [(p, n)])) (hlt : p + n < 2 ^ 64) (i : ℕ) :
    ({ c with shards := Function.update c.shards i ⟨p, n⟩ } : UntrustedConcurrentArena).Inv host
      values := by
  refine ⟨?_, h.remaining_le, h.rest_lt, ?_⟩
  · refine disjoint_of_take h.apart (t := .shard i) (g := .value values.length) ?_ ?_ ?_
    · rw [own_value_append_self]
      simp only [own, Function.update_self]
      exact subset_rfl
    · rw [own_value_length]
      exact Set.disjoint_empty _
    · intro o ho
      cases o with
      | rest => exact subset_rfl
      | block n => exact subset_rfl
      | shard j =>
          have hj : j ≠ i := fun hj => ho (congrArg _ hj)
          simp only [own, Function.update_of_ne hj]
          exact subset_rfl
      | value j =>
          by_cases hj : j = values.length
          · rw [hj, own_value_length]
            exact Set.empty_subset _
          · rw [own_value_append_of_ne hj]
            exact subset_rfl
  · intro j
    by_cases hj : j = i
    · subst hj
      simp only [Function.update_self]
      exact hlt
    · simp only [Function.update_of_ne hj]
      exact h.shard_lt j

/-- What an allocation keeps: the regions stay apart with the new one among them. -/
def Allocates (host : BlockAllocator) (c : UntrustedConcurrentArena) (values : List (ℕ × ℕ))
    (n : ℕ) (result : Outcome (ℕ × UntrustedConcurrentArena)) : Prop :=
  ∃ p c', result = .ok (p, c') ∧ c'.Inv host (values ++ [(p, n)]) ∧ p + n < 2 ^ 64 ∧
    c'.arena.blocks ≤ c.arena.blocks + 1

theorem Inv.allocateDirect (h : c.Inv host values) (hb : c.arena.blocks < host.blocks)
    (hn : n ≤ kUntrustedBlockSize) : Allocates host c values n (c.allocateDirect host n) := by
  have hle := h.remaining_le
  have hlt := h.rest_lt
  by_cases hfit : n + c.arena.slop ≤ c.arena.remaining
  · have hcarve := h.carve (show c.arena.slop + n ≤ c.arena.remaining by omega)
    refine ⟨_, _, ?_, hcarve, by omega, Nat.le_succ _⟩
    rw [UntrustedConcurrentArena.allocateDirect, UntrustedArena.allocateAligned, if_pos hfit,
      Outcome.ok_bind]
  · have hcarve := (h.newBlock hb).carve (k := 0) (n := n) (by dsimp only; omega)
    have hrange := host.inRange _ hb
    refine ⟨_, _, ?_, hcarve, by dsimp only; omega, le_refl _⟩
    rw [UntrustedConcurrentArena.allocateDirect, UntrustedArena.allocateAligned, if_neg hfit,
      UntrustedArena.allocateFallback, if_neg (by omega), if_pos hb, Outcome.ok_bind]
    rfl

theorem Inv.allocateShard (h : c.Inv host values) (hn : n ≤ (c.shards i).allocatedAndUnused) :
    Allocates host c values n (.ok (c.takeFromShard i n)) := by
  have hlt := h.shard_lt i
  exact ⟨_, _, rfl, h.takeFromShard rfl hn, (Nat.add_le_add_left hn _).trans_lt hlt, Nat.le_succ _⟩

theorem reloadSize_le (c : UntrustedConcurrentArena) :
    kShardBlockSize / 2 ≤ c.reloadSize ∧ c.reloadSize < kShardBlockSize * 2 := by
  rw [reloadSize]
  split_ifs with h
  · exact h
  · decide

/-- With memory left at the host, an allocation within a block succeeds. -/
theorem Inv.allocateAligned (h : c.Inv host values) (cpu : ℕ) {b : ℕ}
    (hb : c.arena.blocks < host.blocks) (hn : roundUp8 b ≤ kUntrustedBlockSize) :
    Allocates host c values (roundUp8 b) (c.allocateAligned host cpu b) := by
  rw [UntrustedConcurrentArena.allocateAligned, allocateImpl]
  by_cases hdirect : kShardBlockSize / 4 < roundUp8 b ∨
      (cpu = 0 ∧ (c.shards 0).allocatedAndUnused = 0)
  · rw [if_pos hdirect]
    exact h.allocateDirect hb hn
  rw [if_neg hdirect]
  dsimp only
  by_cases hreload : (c.shards (cpu % c.shardCount)).allocatedAndUnused < roundUp8 b
  · rw [if_pos hreload]
    by_cases hinline : roundUp8 b ≤ c.arena.remaining ∧ c.arena.blocks = 0
    · rw [if_pos hinline]
      exact h.allocateDirect hb hn
    · obtain ⟨hlow, hhigh⟩ := reloadSize_le c
      obtain ⟨p, c', hc, hinv, hlt, hblocks⟩ := h.allocateDirect hb
        (show c.reloadSize ≤ kUntrustedBlockSize from hhigh.le.trans (by decide))
      have hsmall : roundUp8 b ≤ kShardBlockSize / 4 :=
        Nat.le_of_not_lt fun hlarge => hdirect (Or.inl hlarge)
      have hle : roundUp8 b ≤ c.reloadSize := hsmall.trans (le_trans (by decide) hlow)
      have hreloaded := hinv.reload hlt (cpu % c.shardCount)
      obtain ⟨c₁, hc₁⟩ : ∃ c₁, c₁ = ({ c' with
          shards := Function.update c'.shards (cpu % c.shardCount) ⟨p, c.reloadSize⟩ } :
        UntrustedConcurrentArena) := ⟨_, rfl⟩
      have hself : c₁.shards (cpu % c.shardCount) = ⟨p, c.reloadSize⟩ := by
        rw [hc₁]
        exact Function.update_self _ _ _
      rw [← hc₁] at hreloaded
      obtain ⟨p', c'', hc', hinv', hlt', hblocks'⟩ :=
        hreloaded.allocateShard (i := cpu % c.shardCount) (n := roundUp8 b) (by rwa [hself])
      rw [if_neg hinline, hc, Outcome.ok_bind]
      dsimp only
      rw [← hc₁]
      refine ⟨p', c'', hc', hinv', hlt', ?_⟩
      rw [← (Prod.mk.inj (Except.ok.inj hc')).2]
      exact (congrArg (fun d => d.arena.blocks) hc₁).le.trans hblocks
  · rw [if_neg hreload]
    exact h.allocateShard (by omega)

/-- Anything longer than a block ends the process. -/
theorem Inv.allocateAligned_exit (h : c.Inv host values) (cpu : ℕ) {bytes : ℕ}
    (hn : kUntrustedBlockSize < roundUp8 bytes) :
    c.allocateAligned host cpu bytes = .error .exit := by
  have hle := h.remaining_le
  have hlarge : kShardBlockSize / 4 < roundUp8 bytes :=
    lt_trans (by decide : kShardBlockSize / 4 < kUntrustedBlockSize) hn
  rw [UntrustedConcurrentArena.allocateAligned, allocateImpl, if_pos (Or.inl hlarge),
    UntrustedConcurrentArena.allocateDirect, UntrustedArena.allocateAligned, if_neg (by omega),
    UntrustedArena.allocateFallback, if_pos hn, Outcome.error_bind]

theorem roundUp8_le_iff (bytes : ℕ) :
    roundUp8 bytes ≤ kUntrustedBlockSize ↔ bytes ≤ kUntrustedBlockSize := by
  rw [roundUp8, kUntrustedBlockSize]
  omega

end UntrustedConcurrentArena

end Tweezer
