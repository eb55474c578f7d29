import Tweezer.LRUCacheBooks

/-!
# The steps of a cache shard

The parts that the operations of a shard are made of have a result, and keep the books: no
assertion fails, so that no subtraction underflows.
-/

namespace Tweezer.LRUCacheShard

variable {E : LRUCacheEnv}

/-- The books between the steps of an operation. The entries `out` are off the list. -/
structure Good (s : LRUCacheShard E) (held : ℕ → ℕ) (deleted : List ℕ) (shadow : Option ℕ)
    (out : List ℕ) : Prop where
  core : Core s held deleted shadow
  lru : ∃ low high, Lru s low high
  notMem : ∀ i ∈ out, i ∉ s.lru
  listed : ∀ i, i ∉ out → (i ∈ s.lru ↔ s.Evictable i)

structure SameParams (s s' : LRUCacheShard E) : Prop where
  capacity : s'.capacity = s.capacity
  strictCapacityLimit : s'.strictCapacityLimit = s.strictCapacityLimit
  highPriPoolRatio : s'.highPriPoolRatio = s.highPriPoolRatio
  highPriPoolCapacity : s'.highPriPoolCapacity = s.highPriPoolCapacity
  allocated : s'.allocated = s.allocated

theorem SameParams.refl (s : LRUCacheShard E) : SameParams s s := ⟨rfl, rfl, rfl, rfl, rfl⟩

theorem SameParams.trans {s s' s'' : LRUCacheShard E} (h : SameParams s s')
    (h' : SameParams s' s'') : SameParams s s'' :=
  ⟨h'.capacity.trans h.capacity, h'.strictCapacityLimit.trans h.strictCapacityLimit,
    h'.highPriPoolRatio.trans h.highPriPoolRatio,
    h'.highPriPoolCapacity.trans h.highPriPoolCapacity, h'.allocated.trans h.allocated⟩

theorem SameBooks.params {s s' : LRUCacheShard E} (h : SameBooks s s') : SameParams s s' :=
  ⟨h.capacity, h.strictCapacityLimit, h.highPriPoolRatio, h.highPriPoolCapacity, h.allocated⟩

structure SameList (s s' : LRUCacheShard E) : Prop where
  lru : s'.lru = s.lru
  lruLowPri : s'.lruLowPri = s.lruLowPri
  highPriPoolUsage : s'.highPriPoolUsage = s.highPriPoolUsage
  lruUsage : s'.lruUsage = s.lruUsage

theorem subUsage_of_le {s : LRUCacheShard E} {c : ℕ} (h : c ≤ s.usage) :
    s.subUsage c = some { s with usage := s.usage - c } := if_pos h

section Steps

variable {s s' : LRUCacheShard E} {held held' : ℕ → ℕ} {deleted deleted' : List ℕ}
  {shadow shadow' : Option ℕ} {out : List ℕ} {i : ℕ} {e e' : LRUHandle}

theorem resident_of_inCache (h : e.inCache = true) : e.resident = true := by
  rw [LRUHandle.resident, h]
  rfl

theorem resident_of_refs (h : e.refs ≠ 0) : e.resident = true := by
  rw [LRUHandle.resident, decide_eq_true (Nat.pos_of_ne_zero h), Bool.or_true]

theorem not_resident (hcache : e.inCache = false) (hrefs : e.refs = 0) : e.resident = false := by
  rw [LRUHandle.resident, hcache, hrefs]
  rfl

theorem Good.charge_le (h : Good s held deleted shadow out) (he : s.handles i = some e)
    (hr : e.resident = true) : e.calcTotalCharge E i ≤ s.usage := by
  have hle := h.core.sum_le (List.nodup_singleton i) fun j hj => by
    rw [List.mem_singleton.mp hj]
    exact ⟨e, he, hr⟩
  rwa [List.map_singleton, List.sum_singleton, chargeAt, he] at hle

theorem Good.nodup (h : Good s held deleted shadow out) : s.lru.Nodup := by
  obtain ⟨low, high, hlru⟩ := h.lru
  rw [hlru.list]
  exact hlru.nodup

theorem Good.refs_eq (h : Good s held deleted shadow out) (he : s.handles i = some e) :
    held i = e.refs := by
  rw [← h.core.refs, refsAt, he]

theorem Good.off (h : Good s held deleted shadow out) (hi : i ∉ s.lru) :
    Good s held deleted shadow (i :: out) := by
  refine ⟨h.core, h.lru, fun j hj => ?_, fun j hj => ?_⟩
  · rcases List.mem_cons.mp hj with rfl | hj
    · exact hi
    · exact h.notMem j hj
  · exact h.listed j fun hmem => hj (List.mem_cons_of_mem _ hmem)

/-- An entry with a reference is not on the list. -/
theorem Good.notMem_of_refs (h : Good s held deleted shadow out) (he : s.handles i = some e)
    (hrefs : e.refs ≠ 0) : i ∉ s.lru := by
  intro hmem
  obtain ⟨d, hd, -, hzero⟩ := (h.listed i fun hout => h.notMem i hout hmem).mp hmem
  rw [he] at hd
  cases hd
  exact hrefs hzero

/-- An entry that is off the list, and need not be on it. -/
theorem Good.back (h : Good s held deleted shadow (i :: out)) (hnot : ¬s.Evictable i) :
    Good s held deleted shadow out := by
  refine ⟨h.core, h.lru, fun j hj => h.notMem j (List.mem_cons_of_mem _ hj), fun j hj => ?_⟩
  rcases eq_or_ne j i with rfl | hji
  · exact iff_of_false (h.notMem j List.mem_cons_self) hnot
  · exact h.listed j fun hmem => (List.mem_cons.mp hmem).elim hji hj

/-- A handle that is off the list is rewritten. -/
theorem Good.rewrite (h : Good s held deleted shadow (i :: out))
    (hcore : Core s' held' deleted' shadow')
    (hhandles : s'.handles = Function.update s.handles i (some e')) (hlist : SameList s s') :
    Good s' held' deleted' shadow' (i :: out) := by
  have hi := h.notMem i List.mem_cons_self
  obtain ⟨low, high, hlru⟩ := h.lru
  refine ⟨hcore, ⟨low, high, ?_⟩, fun j hj => ?_, fun j hj => ?_⟩
  · refine hlru.of_agree hlist.lru hlist.lruLowPri hlist.highPriPoolUsage hlist.lruUsage ?_
    intro j hj
    rw [hhandles, Function.update_of_ne (ne_of_mem_of_not_mem hj hi)]
  · rw [hlist.lru]
    exact h.notMem j hj
  · have hji : j ≠ i := fun hji => hj (hji ▸ List.mem_cons_self)
    rw [hlist.lru, Evictable, hhandles, Function.update_of_ne hji]
    exact h.listed j hj

theorem not_evictable (he : s.handles i = some e) (h : ¬(e.inCache = true ∧ e.refs = 0)) :
    ¬s.Evictable i := by
  rintro ⟨d, hd, hd'⟩
  rw [he] at hd
  cases hd
  exact h hd'

/-- `LRU_Remove` takes an entry off the list. -/
theorem Good.lruRemove (h : Good s held deleted shadow out) (hi : i ∈ s.lru) :
    ∃ s', s.lruRemove i = some s' ∧ Good s' held deleted shadow (i :: out) ∧ SameBooks s s' ∧
      s'.lru = s.lru.erase i ∧ s'.handles = s.handles := by
  obtain ⟨low, high, hlru⟩ := h.lru
  obtain ⟨s', hrun, hlru', hsame, hlist, hhandles⟩ := hlru.lruRemove hi
  have hmem : ∀ j, j ≠ i → (j ∈ s'.lru ↔ j ∈ s.lru) := fun j hj => by
    rw [hlist, h.nodup.mem_erase_iff, and_iff_right hj]
  refine ⟨s', hrun, ⟨h.core.of_same hsame, ⟨_, _, hlru'⟩, fun j hj => ?_, fun j hj => ?_⟩,
    hsame, hlist, hhandles⟩
  · rcases List.mem_cons.mp hj with rfl | hj
    · rw [hlist]
      exact h.nodup.not_mem_erase
    · rw [hlist]
      exact fun hmem => h.notMem j hj (List.mem_of_mem_erase hmem)
  · rw [List.mem_cons, not_or] at hj
    rw [hmem j hj.1, hsame.evictable]
    exact h.listed j hj.2

/-- An entry that nobody refers to goes back on the list. -/
theorem Good.putBack (h : Good s held deleted none (i :: out)) (hout : i ∉ out)
    (he : s.handles i = some e) (hcache : e.inCache = true) (hrefs : e.refs = 0)
    (hcap : E.exceeds 0 s.highPriPoolCapacity = false) :
    ∃ s', s.lruInsert i = some s' ∧ Good s' held deleted none out ∧ SameBooks s s' := by
  obtain ⟨low, high, hlru⟩ := h.lru
  have hi := h.notMem i List.mem_cons_self
  have hroom : s.lruUsage + e.calcTotalCharge E i < 2 ^ 64 := by
    have hle := h.core.sum_le (List.nodup_cons.mpr ⟨hi, h.nodup⟩) fun j hj => by
      rcases List.mem_cons.mp hj with rfl | hj
      · exact ⟨e, he, resident_of_inCache hcache⟩
      · obtain ⟨d, hd, hdc, -⟩ := (h.listed j fun hmem => h.notMem j hmem hj).mp hj
        exact ⟨d, hd, resident_of_inCache hdc⟩
    rw [List.map_cons, List.sum_cons, chargeAt, he] at hle
    have husage := hlru.usage
    rw [← hlru.list] at husage
    have hlt := h.core.usage_lt
    dsimp only at hle
    omega
  obtain ⟨s', low', high', hrun, hlru', hsame, hmem⟩ := hlru.lruInsert hi he hcap hroom
  refine ⟨s', hrun, ⟨h.core.of_same hsame, ⟨low', high', hlru'⟩, fun j hj => ?_, fun j hj => ?_⟩,
    hsame⟩
  · rw [hmem, not_or]
    exact ⟨ne_of_mem_of_not_mem hj hout, h.notMem j (List.mem_cons_of_mem _ hj)⟩
  · rw [hmem, hsame.evictable]
    rcases eq_or_ne j i with rfl | hji
    · exact iff_of_true (Or.inl rfl) ⟨e, he, hcache, hrefs⟩
    · rw [or_iff_right hji]
      exact h.listed j fun hmem => (List.mem_cons.mp hmem).elim hji hj

/-- A handle that is in use gets another number of references. -/
theorem Good.setRefs (h : Good s held deleted none (i :: out)) (he : s.handles i = some e)
    (hresident : e.resident = true) {n : ℕ} (hn : n ≠ 0) (hit : Bool) :
    Good (s.setHandle i { e with refs := n, hasHit := hit }) (Function.update held i n) deleted
      none out := by
  have hhandles : (s.setHandle i { e with refs := n, hasHit := hit }).handles =
      Function.update s.handles i (some { e with refs := n, hasHit := hit }) := rfl
  refine (h.rewrite ?_ hhandles ⟨rfl, rfl, rfl, rfl⟩).back
    (not_evictable (Function.update_self _ _ _) fun hzero => hn hzero.2)
  refine h.core.stay he hresident hhandles rfl (resident_of_refs hn) rfl rfl ?_ (fun j hj => ?_)
    (h.core.table_keep he hhandles rfl rfl rfl rfl) rfl
  · exact Function.update_self _ _ _
  · exact Function.update_of_ne hj _ _

theorem Good.free (h : Good s held (i :: deleted) none []) :
    ∃ s', s.free i = some s' ∧ Good s' held deleted none [] ∧ SameParams s s' ∧ s'.lru = s.lru ∧
      s'.usage = s.usage := by
  obtain ⟨e, he, hdead⟩ := (h.core.waiting i).mp List.mem_cons_self
  have hi : i ∉ s.lru := by
    rw [h.listed i List.not_mem_nil]
    rintro ⟨d, hd, hd', -⟩
    rw [he] at hd
    cases hd
    rw [resident_of_inCache hd'] at hdead
    cases hdead
  obtain ⟨low, high, hlru⟩ := h.lru
  obtain ⟨hrun, hcore⟩ := h.core.free
  refine ⟨_, hrun, ⟨hcore, ⟨low, high, ?_⟩, (fun _ hj => nomatch hj), fun j _ => ?_⟩,
    ⟨rfl, rfl, rfl, rfl, rfl⟩, rfl, rfl⟩
  · refine hlru.of_agree rfl rfl rfl rfl fun j hj => ?_
    exact Function.update_of_ne (ne_of_mem_of_not_mem hj hi) _ _
  · rw [Evictable]
    dsimp only
    rcases eq_or_ne j i with rfl | hji
    · rw [Function.update_self]
      exact iff_of_false hi (fun hex => nomatch hex.choose_spec.1)
    · rw [Function.update_of_ne hji]
      exact h.listed j List.not_mem_nil

/-- What waits is freed, by induction on it. -/
theorem Good.freeAll (h : Good s held deleted none []) :
    ∃ s', s.freeAll deleted = some s' ∧ Good s' held [] none [] ∧ SameParams s s' ∧
      s'.lru = s.lru ∧ s'.usage = s.usage := by
  induction deleted generalizing s with
  | nil => exact ⟨s, rfl, h, SameParams.refl s, rfl, rfl⟩
  | cons i deleted ih =>
      obtain ⟨s₁, hfree, hgood, hparams, hlru, husage⟩ := h.free
      obtain ⟨s', hrun, hgood', hparams', hlru', husage'⟩ := ih hgood
      refine ⟨s', ?_, hgood', hparams.trans hparams', hlru'.trans hlru, husage'.trans husage⟩
      rw [LRUCacheShard.freeAll, List.foldlM_cons, hfree]
      exact hrun

/-- An entry that is off the list goes out of the books, and out of the hash table if it was
there. -/
theorem Good.leave (h : Good s held deleted shadow (i :: out)) (he : s.handles i = some e)
    (hresident : e.resident = true) (hhandles : s'.handles = Function.update s.handles i (some e'))
    (hlist : SameList s s') (hcharge : e'.charge = e.charge) (hcache : e'.inCache = false)
    (hrefs : e'.refs = 0) (hfreed : s'.freed = s.freed) (hallocated : s'.allocated = s.allocated)
    (hself : held' i = 0) (hheld : ∀ j, j ≠ i → held' j = held j)
    (htable : ∀ k j, s'.table k = some j ↔
      ∃ e, s'.handles j = some e ∧ e.inCache = true ∧ (e.key, e.hash) = k ∧ shadow' ≠ some j)
    (husage : s'.usage = s.usage - e.calcTotalCharge E i) :
    Good s' held' (deleted ++ [i]) shadow' out := by
  have hat : s'.handles i = some e' := by
    rw [hhandles]
    exact Function.update_self _ _ _
  have hnot : ¬(e'.inCache = true ∧ e'.refs = 0) := by
    rw [hcache]
    exact fun h => nomatch h.1
  refine (h.rewrite ?_ hhandles hlist).back (not_evictable hat hnot)
  refine h.core.leave he hresident hhandles hcharge (not_resident hcache hrefs) hfreed
    hallocated (hself.trans hrefs.symm) hheld htable ?_
  have hle := h.charge_le he hresident
  omega

/-- The oldest entry goes out of the books. -/
theorem Good.evictOldest (h : Good s held deleted none []) {old : ℕ} {rest : List ℕ}
    (hlru : s.lru = old :: rest) :
    ∃ s', s.evictOldest old = some s' ∧ Good s' held (deleted ++ [old]) none [] ∧
      SameParams s s' ∧ s'.lru = rest ∧ s'.usage ≤ s.usage := by
  have hmem : old ∈ s.lru := hlru ▸ List.mem_cons_self
  obtain ⟨e, he, hcache, hrefs⟩ := (h.listed old List.not_mem_nil).mp hmem
  obtain ⟨s₁, hremove, hgood, hsame, hlist, hhandles₁⟩ := h.lruRemove hmem
  have he₁ : s₁.handles old = some e := hhandles₁ ▸ he
  have hresident := resident_of_inCache hcache
  have hle : e.calcTotalCharge E old ≤ (s₁.uncache old e).usage := hgood.charge_le he₁ hresident
  refine ⟨{ (s₁.uncache old e) with usage := (s₁.uncache old e).usage - e.calcTotalCharge E old },
    ?_, ?_, ⟨hsame.capacity, hsame.strictCapacityLimit, hsame.highPriPoolRatio,
      hsame.highPriPoolCapacity, hsame.allocated⟩, ?_, ?_⟩
  · rw [LRUCacheShard.evictOldest, he]
    simp only [Option.bind_eq_bind, Option.bind_some]
    rw [if_pos ⟨hcache, hrefs⟩, hremove, Option.bind_some]
    exact subUsage_of_le hle
  · exact hgood.leave he₁ hresident rfl ⟨rfl, rfl, rfl, rfl⟩
      rfl rfl hrefs rfl rfl ((hgood.refs_eq he₁).trans hrefs) (fun _ _ => rfl)
      (hgood.core.table_clear he₁ rfl hcache (fun h => nomatch h) rfl rfl) rfl
  · change s₁.lru = rest
    rw [hlist, hlru, List.erase_cons_head]
  · change s₁.usage - _ ≤ s.usage
    rw [← hsame.usage]
    exact Nat.sub_le _ _

/-- Room is made until there is enough or nothing is left to evict. -/
theorem Good.evictLoop (more : LRUCacheShard E → Bool) (n : ℕ) (h : Good s held deleted none [])
    (hn : s.lru.length ≤ n) :
    ∃ s' deleted', s.evictLoop more n deleted = some (s', deleted') ∧
      Good s' held deleted' none [] ∧ SameParams s s' ∧ s'.usage ≤ s.usage ∧
        (s'.lru = [] ∨ more s' = false) := by
  induction n generalizing s deleted with
  | zero =>
      exact ⟨s, deleted, rfl, h, SameParams.refl s, le_refl _,
        Or.inl (List.eq_nil_of_length_eq_zero (Nat.le_zero.mp hn))⟩
  | succ n ih =>
      rw [LRUCacheShard.evictLoop]
      cases hlru : s.lru with
      | nil => exact ⟨s, deleted, rfl, h, SameParams.refl s, le_refl _, Or.inl hlru⟩
      | cons old rest =>
          dsimp only
          by_cases hmore : more s = true
          · obtain ⟨s₁, hevict, hgood, hparams, hrest, husage⟩ := h.evictOldest hlru
            have hlen : s₁.lru.length ≤ n := by
              rw [hlru, List.length_cons] at hn
              rw [hrest]
              omega
            obtain ⟨s', deleted', hrun, hgood', hparams', husage', hexit⟩ := ih hgood hlen
            refine ⟨s', deleted', ?_, hgood', hparams.trans hparams', husage'.trans husage, hexit⟩
            rw [if_pos hmore, hevict]
            exact hrun
          · rw [if_neg hmore]
            exact ⟨s, deleted, rfl, h, SameParams.refl s, le_refl _,
              Or.inr (Bool.eq_false_iff.mpr hmore)⟩

end Steps

end Tweezer.LRUCacheShard
