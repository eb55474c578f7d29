import Mathlib.Algebra.Order.Ring.Rat
import Mathlib.Data.Nat.Cast.Order.Ring
import Tweezer.LRUCacheOps

/-!
# Runs of a cache shard

Any sequence of calls in which references are used and given back as they were handed out. As
long as the counters are wide enough every call has a result, and the books hold after it.
-/

namespace Tweezer.LRUCacheShard

variable {E : LRUCacheEnv}

/-- A shard and its callers, who hold `held i` references to the handle `i`. -/
structure Client (E : LRUCacheEnv) where
  shard : LRUCacheShard E
  held : ℕ → ℕ

inductive Op (E : LRUCacheEnv) where
  | insert (key : Bytes) (hash charge : ℕ) (wantsHandle highPri : Bool)
  | lookup (key : Bytes) (hash : ℕ)
  | ref (handle : ℕ)
  | release (handle : Option ℕ) (forceErase : Bool)
  | erase (key : Bytes) (hash : ℕ)
  | eraseUnRefEntries
  | setCapacity (capacity : ℕ)
  | setHighPriorityPoolRatio (ratio : E.Double)
  | setStrictCapacityLimit (strict : Bool)

/-- One call. Callers count the references that they are given and give back. -/
def Client.step (c : Client E) : Op E → Option (Client E)
  | .insert key hash charge wantsHandle highPri => do
      let ((_, handle), s) ← c.shard.insert key hash charge wantsHandle highPri
      some ⟨s, gain c.held handle⟩
  | .lookup key hash => do
      let (handle, s) ← c.shard.lookup key hash
      some ⟨s, gain c.held handle⟩
  | .ref i => do
      let s ← c.shard.ref i
      some ⟨s, gain c.held (some i)⟩
  | .release handle forceErase => do
      let (_, s) ← c.shard.release handle forceErase
      some ⟨s, match handle with
        | none => c.held
        | some i => Function.update c.held i (c.held i - 1)⟩
  | .erase key hash => do
      let s ← c.shard.erase key hash
      some ⟨s, c.held⟩
  | .eraseUnRefEntries => do
      let s ← c.shard.eraseUnRefEntries
      some ⟨s, c.held⟩
  | .setCapacity capacity => do
      let s ← c.shard.setCapacity capacity
      some ⟨s, c.held⟩
  | .setHighPriorityPoolRatio ratio => do
      let s ← c.shard.setHighPriorityPoolRatio ratio
      some ⟨s, c.held⟩
  | .setStrictCapacityLimit strict => some ⟨c.shard.setStrictCapacityLimit strict, c.held⟩

def Client.run (c : Client E) (ops : List (Op E)) : Option (Client E) := ops.foldlM step c

/-- A new shard, with the capacity that the constructor sets last. -/
def Client.create (E : LRUCacheEnv) (capacity : ℕ) (strictCapacityLimit : Bool)
    (highPriPoolRatio : E.Double) : Option (Client E) := do
  let s ← (LRUCacheShard.empty strictCapacityLimit highPriPoolRatio).setCapacity capacity
  some ⟨s, fun _ => 0⟩

/-- Only references that are held are used or given back, and no ratio is negative. -/
def Client.Permitted (c : Client E) : Op E → Bool
  | .ref i => c.held i ≠ 0
  | .release (some i) _ => c.held i ≠ 0
  | .setHighPriorityPoolRatio ratio => E.nonneg ratio
  | _ => true

/-- The counters are wide enough for the call: the charges of the entries for `size_t`, and the
references to one entry for `uint32_t`. -/
def Client.InRange (c : Client E) : Op E → Bool
  | .insert key hash charge _ highPri =>
      c.shard.usage + LRUHandle.calcTotalCharge E c.shard.allocated
        ⟨key, hash, charge, 0, true, highPri, false, false⟩ < 2 ^ 64
  | .lookup key hash => (c.shard.table (key, hash)).all fun i => c.held i + 1 < 2 ^ 32
  | .ref i => c.held i + 1 < 2 ^ 32
  | _ => true

/-- A condition on the calls, each in the state that it is made in. -/
def Client.Along (p : Client E → Op E → Bool) : Client E → List (Op E) → Bool
  | _, [] => true
  | c, op :: ops => p c op && (c.step op).all fun c' => Along p c' ops

open scoped Classical in
/-- What the counters, the list and the handles say of the entries. -/
structure Client.Sound (c : Client E) : Prop where
  usage : c.shard.usage = ∑ i ∈ Finset.range c.shard.allocated,
    if (∃ k, c.shard.table k = some i) ∨ 0 < c.held i then c.shard.chargeAt i else 0
  lru_mem : ∀ i, i ∈ c.shard.lru ↔ (∃ k, c.shard.table k = some i) ∧ c.held i = 0
  lruUsage : c.shard.lruUsage = (c.shard.lru.map c.shard.chargeAt).sum
  pool : ∃ low high, c.shard.lru = low ++ high ∧ (low ++ high).Nodup ∧
    c.shard.lruLowPri = low.getLast? ∧
    (∀ i ∈ low, ∃ e, c.shard.handles i = some e ∧ e.inHighPriPool = false) ∧
    (∀ i ∈ high, ∃ e, c.shard.handles i = some e ∧ e.inHighPriPool = true) ∧
    c.shard.highPriPoolUsage = (high.map c.shard.chargeAt).sum
  freedOnce : c.shard.freed.Nodup
  freed : ∀ i, i ∈ c.shard.freed ↔
    i < c.shard.allocated ∧ (¬∃ k, c.shard.table k = some i) ∧ c.held i = 0

/-- Every run of calls that meet the condition has a result, and the books hold in it. -/
def KeepsBooks (E : LRUCacheEnv) (p : Client E → Op E → Bool) : Prop :=
  ∀ capacity strictCapacityLimit highPriPoolRatio, E.nonneg highPriPoolRatio = true →
    ∀ ops : List (Op E), ∃ c,
      Client.create E capacity strictCapacityLimit highPriPoolRatio = some c ∧
      (c.Along p ops = true → ∃ c', c.run ops = some c' ∧ c'.Sound)

theorem Core.mem_table {s : LRUCacheShard E} {held : ℕ → ℕ} {deleted : List ℕ}
    (h : Core s held deleted none) (i : ℕ) :
    (∃ k, s.table k = some i) ↔ ∃ e, s.handles i = some e ∧ e.inCache = true := by
  constructor
  · rintro ⟨k, hk⟩
    obtain ⟨e, he, hcache, -, -⟩ := (h.table k i).mp hk
    exact ⟨e, he, hcache⟩
  · rintro ⟨e, he, hcache⟩
    exact ⟨_, h.table_of_inCache he hcache fun h => nomatch h⟩

theorem Books.sound {c : Client E} (h : Books c.shard c.held) : c.Sound := by
  have hcore := h.good.core
  obtain ⟨low, high, hlru⟩ := h.good.lru
  -- an entry with a handle is in the hash table or referenced, since nothing waits to be freed
  have hresident : ∀ i e, c.shard.handles i = some e →
      ((∃ k, c.shard.table k = some i) ∨ 0 < c.held i) ∧ e.resident = true := by
    intro i e he
    have hr : e.resident = true := by
      by_contra hdead
      have hmem := (hcore.waiting i).mpr ⟨e, he, Bool.eq_false_iff.mpr hdead⟩
      cases hmem
    refine ⟨?_, hr⟩
    rw [hcore.mem_table, h.good.refs_eq he]
    rw [LRUHandle.resident, Bool.or_eq_true, decide_eq_true_iff] at hr
    exact hr.imp_left fun hcache => ⟨e, he, hcache⟩
  have hnone : ∀ i, c.shard.handles i = none → (¬∃ k, c.shard.table k = some i) ∧ c.held i = 0 := by
    intro i hi
    refine ⟨?_, ?_⟩
    · rw [hcore.mem_table]
      rintro ⟨e, he, -⟩
      rw [hi] at he
      cases he
    · rw [← hcore.refs, refsAt, hi]
  refine ⟨?_, ?_, ?_, ⟨low, high, hlru.list, hlru.nodup, hlru.lowPri, hlru.lowFlag, hlru.highFlag,
    hlru.highUsage⟩, hcore.freedOnce, ?_⟩
  · rw [hcore.usage]
    apply Finset.sum_congr rfl
    intro i _
    rw [residentCharge, chargeAt]
    cases hi : c.shard.handles i with
    | none => exact (ite_self 0).symm
    | some e =>
        obtain ⟨hin, hr⟩ := hresident i e hi
        rw [if_pos hin]
        dsimp only
        rw [if_pos hr]
  · intro i
    rw [h.good.listed i List.not_mem_nil, hcore.mem_table, ← hcore.refs, refsAt, Evictable]
    cases hi : c.shard.handles i with
    | none =>
        apply iff_of_false
        · rintro ⟨e, he, -⟩
          cases he
        · rintro ⟨⟨e, he, -⟩, -⟩
          cases he
    | some e => simp only [Option.some.injEq, exists_eq_left']
  · rw [hlru.list]
    exact hlru.usage
  · intro i
    rw [hcore.gone]
    refine and_congr_right fun _ => ⟨hnone i, fun hout => ?_⟩
    cases hi : c.shard.handles i with
    | none => rfl
    | some e =>
        refine absurd (hresident i e hi).1 ?_
        rw [not_or, hout.2]
        exact ⟨hout.1, lt_irrefl 0⟩

/-- The constructor. -/
theorem create_books (capacity : ℕ) (strict : Bool) {ratio : E.Double}
    (hratio : E.nonneg ratio = true) :
    ∃ c, Client.create E capacity strict ratio = some c ∧ Books c.shard c.held := by
  have hempty : Books (LRUCacheShard.empty strict ratio : LRUCacheShard E) fun _ => 0 := by
    refine ⟨⟨⟨fun _ _ => rfl, fun i => ?_, .nil, fun _ => rfl, fun i => ?_, .nil, fun k i => ?_,
      rfl, Nat.two_pow_pos 64⟩, ⟨[], [], ⟨rfl, .nil, rfl, (fun _ h => nomatch h),
        (fun _ h => nomatch h), rfl⟩, rfl⟩, (fun _ h => nomatch h), fun i _ => ?_⟩, fun _ => rfl,
      hratio, E.not_exceeds_zero _ _ hratio⟩
    · exact iff_of_false (fun h => nomatch h) fun h => absurd h.1 (Nat.not_lt_zero i)
    · exact iff_of_false (fun h => nomatch h) fun h => nomatch h.choose_spec.1
    · exact iff_of_false (fun h => nomatch h) fun h => nomatch h.choose_spec.1
    · exact iff_of_false (fun h => nomatch h) fun h => nomatch h.choose_spec.1
  obtain ⟨s, hrun, hbooks⟩ := hempty.setCapacity capacity
  rw [Client.create, hrun]
  exact ⟨_, rfl, hbooks⟩

/-- Every call keeps the books. -/
theorem Books.step {c : Client E} (h : Books c.shard c.held) (op : Op E)
    (hpermitted : c.Permitted op = true) (hrange : c.InRange op = true) :
    ∃ c', c.step op = some c' ∧ Books c'.shard c'.held := by
  cases op with
  | insert key hash charge wantsHandle highPri =>
      obtain ⟨status, handle, s', hrun, hbooks⟩ := h.insert key hash charge wantsHandle highPri
        (of_decide_eq_true hrange)
      rw [Client.step, hrun]
      exact ⟨_, rfl, hbooks⟩
  | lookup key hash =>
      obtain ⟨s', hrun, hbooks⟩ := h.lookup key hash fun i hi => by
        rw [Client.InRange, hi] at hrange
        exact of_decide_eq_true hrange
      rw [Client.step, hrun]
      exact ⟨_, rfl, hbooks⟩
  | ref i =>
      obtain ⟨s', hrun, hbooks⟩ := h.ref (of_decide_eq_true hpermitted) (of_decide_eq_true hrange)
      rw [Client.step, hrun]
      exact ⟨_, rfl, hbooks⟩
  | release handle forceErase =>
      cases handle with
      | none => exact ⟨c, rfl, h⟩
      | some i =>
          obtain ⟨last, s', hrun, hbooks⟩ := h.release (of_decide_eq_true hpermitted) forceErase
          rw [Client.step, hrun]
          exact ⟨_, rfl, hbooks⟩
  | erase key hash =>
      obtain ⟨s', hrun, hbooks⟩ := h.erase key hash
      rw [Client.step, hrun]
      exact ⟨_, rfl, hbooks⟩
  | eraseUnRefEntries =>
      obtain ⟨s', hrun, hbooks⟩ := h.eraseUnRefEntries
      rw [Client.step, hrun]
      exact ⟨_, rfl, hbooks⟩
  | setCapacity capacity =>
      obtain ⟨s', hrun, hbooks⟩ := h.setCapacity capacity
      rw [Client.step, hrun]
      exact ⟨_, rfl, hbooks⟩
  | setHighPriorityPoolRatio ratio =>
      obtain ⟨s', hrun, hbooks⟩ := h.setHighPriorityPoolRatio ratio hpermitted
      rw [Client.step, hrun]
      exact ⟨_, rfl, hbooks⟩
  | setStrictCapacityLimit strict => exact ⟨_, rfl, h.setStrictCapacityLimit strict⟩

theorem Books.run {c : Client E} (h : Books c.shard c.held) (ops : List (Op E))
    (halong : c.Along (fun c op => c.Permitted op && c.InRange op) ops = true) :
    ∃ c', c.run ops = some c' ∧ Books c'.shard c'.held := by
  induction ops generalizing c with
  | nil => exact ⟨c, rfl, h⟩
  | cons op ops ih =>
      rw [Client.Along, Bool.and_eq_true, Bool.and_eq_true] at halong
      obtain ⟨⟨hpermitted, hrange⟩, hrest⟩ := halong
      obtain ⟨c₁, hstep, hbooks⟩ := h.step op hpermitted hrange
      rw [hstep] at hrest
      obtain ⟨c', hrun, hbooks'⟩ := ih hbooks hrest
      refine ⟨c', ?_, hbooks'⟩
      rw [Client.run, List.foldlM_cons, hstep]
      exact hrun

/-- Where the counters are wide enough for every call, the books are kept and nothing fails. -/
theorem keepsBooks (E : LRUCacheEnv) :
    KeepsBooks E fun c op => c.Permitted op && c.InRange op := by
  intro capacity strict ratio hratio ops
  obtain ⟨c, hcreate, hbooks⟩ := create_books capacity strict hratio
  refine ⟨c, hcreate, fun halong => ?_⟩
  obtain ⟨c', hrun, hbooks'⟩ := hbooks.run ops halong
  exact ⟨c', hrun, hbooks'.sound⟩

/-- Doubles that are exact, and a cache that does not charge for its handles. -/
def sampleCacheEnv : LRUCacheEnv where
  Double := ℚ
  nonneg ratio := 0 ≤ ratio
  positive ratio := 0 < ratio
  times capacity ratio := capacity * ratio
  exceeds usage share := share < usage
  not_exceeds_zero capacity ratio h := by
    have hratio : 0 ≤ ratio := of_decide_eq_true h
    have hshare : 0 ≤ (capacity : ℚ) * ratio := mul_nonneg (Nat.cast_nonneg capacity) hratio
    exact decide_eq_false (not_lt.mpr hshare)
  metadataChargePolicy := .dontChargeCacheMetadata
  usableSize _ := 100

/-- Two entries of half the range of `size_t` are inserted, and one is released with
`force_erase`. -/
def halfAndHalf : List (Op sampleCacheEnv) :=
  [.insert [97] 0 (2 ^ 63) true false, .insert [98] 0 (2 ^ 63) true false, .release (some 0) true]

/-- The counter has wrapped around, so that the charge of the released entry is more than it. -/
theorem halfAndHalf_not_keepsBooks : ¬KeepsBooks sampleCacheEnv Client.Permitted := by
  intro h
  obtain ⟨c, hcreate, hkeeps⟩ := h 10 false (0 : ℚ) rfl halfAndHalf
  have hpermitted : (Client.create sampleCacheEnv 10 false (0 : ℚ)).all
      (fun c => c.Along Client.Permitted halfAndHalf) = true := by decide +kernel
  have hfails : (Client.create sampleCacheEnv 10 false (0 : ℚ)).all
      (fun c => (c.run halfAndHalf).isNone) = true := by decide +kernel
  rw [hcreate] at hpermitted hfails
  obtain ⟨c', hrun, -⟩ := hkeeps hpermitted
  have hnone : (c.run halfAndHalf).isNone = true := hfails
  rw [hrun] at hnone
  cases hnone

end Tweezer.LRUCacheShard
