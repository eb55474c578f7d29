import Tweezer.LRUCacheSteps

/-!
# The operations of a cache shard

Each operation of a shard has a result and keeps the books. Room is made for an entry before it
is inserted, so that the list is empty while more is in use than the capacity.
-/

namespace Tweezer.LRUCacheShard

variable {E : LRUCacheEnv}

/-- The books between two operations. -/
structure Books (s : LRUCacheShard E) (held : ℕ → ℕ) : Prop where
  good : Good s held [] none []
  full : s.capacity < s.usage → s.lru = []
  ratio : E.nonneg s.highPriPoolRatio = true
  pool : E.exceeds 0 s.highPriPoolCapacity = false

/-- One more reference to what was handed out. -/
def gain (held : ℕ → ℕ) : Option ℕ → ℕ → ℕ
  | none => held
  | some i => Function.update held i (held i + 1)

section Operations

variable {s s' : LRUCacheShard E} {held held' : ℕ → ℕ} {i : ℕ}

theorem Books.of_params (h : Books s held) (hgood : Good s' held' [] none [])
    (hparams : SameParams s s') (husage : s'.usage ≤ s.usage) (hlru : s.lru = [] → s'.lru = []) :
    Books s' held' where
  good := hgood
  full hlt := hlru (h.full (by rw [hparams.capacity] at hlt; omega))
  ratio := hparams.highPriPoolRatio ▸ h.ratio
  pool := hparams.highPriPoolCapacity ▸ h.pool

theorem Books.exists_handle (h : Books s held) (hi : held i ≠ 0) :
    ∃ e, s.handles i = some e ∧ e.refs = held i := by
  rw [← h.good.core.refs, refsAt] at hi ⊢
  cases he : s.handles i with
  | none =>
      rw [he] at hi
      exact absurd rfl hi
  | some e => exact ⟨e, rfl, rfl⟩

theorem Books.lookup (h : Books s held) (key : Bytes) (hash : ℕ)
    (hroom : ∀ i, s.table (key, hash) = some i → held i + 1 < 2 ^ 32) :
    ∃ s', s.lookup key hash = some (s.table (key, hash), s') ∧
      Books s' (gain held (s.table (key, hash))) := by
  rw [LRUCacheShard.lookup]
  cases htable : s.table (key, hash) with
  | none => exact ⟨s, rfl, h⟩
  | some i =>
      obtain ⟨e, he, hcache, -, -⟩ := (h.good.core.table _ i).mp htable
      have hrefs := h.good.refs_eq he
      have href : { e.ref with hasHit := true } =
          { e with refs := held i + 1, hasHit := true } := by
        rw [LRUHandle.ref, ← hrefs, Nat.mod_eq_of_lt (hroom i htable)]
      have hresident := resident_of_inCache hcache
      simp only [he, Option.bind_eq_bind, Option.bind_some, href]
      rw [if_pos hcache]
      by_cases hzero : e.refs = 0
      · have hi : i ∈ s.lru := (h.good.listed i List.not_mem_nil).mpr ⟨e, he, hcache, hzero⟩
        obtain ⟨s₁, hremove, hgood, hsame, hlist, hhandles⟩ := h.good.lruRemove hi
        rw [if_pos hzero, hremove]
        refine ⟨_, rfl, h.of_params (hgood.setRefs (hhandles ▸ he) hresident
          (Nat.succ_ne_zero _) true) ⟨hsame.capacity, hsame.strictCapacityLimit,
            hsame.highPriPoolRatio, hsame.highPriPoolCapacity, hsame.allocated⟩
          hsame.usage.le fun hnil => ?_⟩
        rw [hnil] at hi
        cases hi
      · rw [if_neg hzero]
        have hoff := h.good.off (h.good.notMem_of_refs he hzero)
        exact ⟨_, rfl, h.of_params (hoff.setRefs he hresident (Nat.succ_ne_zero _) true)
          ⟨rfl, rfl, rfl, rfl, rfl⟩ (le_refl _) id⟩

theorem Books.ref (h : Books s held) (hi : held i ≠ 0) (hroom : held i + 1 < 2 ^ 32) :
    ∃ s', s.ref i = some s' ∧ Books s' (gain held (some i)) := by
  obtain ⟨e, he, hrefs⟩ := h.exists_handle hi
  rw [← hrefs] at hi
  have href : e.ref = { e with refs := held i + 1, hasHit := e.hasHit } := by
    rw [LRUHandle.ref, hrefs, Nat.mod_eq_of_lt hroom]
  rw [LRUCacheShard.ref]
  simp only [he, Option.bind_eq_bind, Option.bind_some, href]
  rw [if_pos (Nat.pos_of_ne_zero hi)]
  have hoff := h.good.off (h.good.notMem_of_refs he hi)
  exact ⟨_, rfl, h.of_params (hoff.setRefs he (resident_of_refs hi) (Nat.succ_ne_zero _) e.hasHit)
    ⟨rfl, rfl, rfl, rfl, rfl⟩ (le_refl _) id⟩

theorem Books.setHighPriorityPoolRatio (h : Books s held) (ratio : E.Double)
    (hratio : E.nonneg ratio = true) :
    ∃ s', s.setHighPriorityPoolRatio ratio = some s' ∧ Books s' held := by
  obtain ⟨low, high, hlru⟩ := h.good.lru
  obtain ⟨t, ht⟩ : ∃ t : LRUCacheShard E, t = { s with
    highPriPoolRatio := ratio
    highPriPoolCapacity := E.times s.capacity ratio } := ⟨_, rfl⟩
  have hpool : Pool t low high := by
    rw [ht]
    exact ⟨hlru.list, hlru.nodup, hlru.lowPri, hlru.lowFlag, hlru.highFlag, hlru.highUsage⟩
  have hcap : E.exceeds 0 t.highPriPoolCapacity = false := by
    rw [ht]
    exact E.not_exceeds_zero _ _ hratio
  have hcore : Core t held [] none := by
    have hc := h.good.core
    rw [ht]
    exact ⟨hc.fresh, hc.gone, hc.freedOnce, hc.refs, hc.waiting, hc.deletedOnce, hc.table, hc.usage,
      hc.usage_lt⟩
  obtain ⟨s', moved, high', hrun, hsplit, hpool', hsame, hlist, hlruUsage⟩ :=
    hpool.maintainPoolSize hcap
  rw [LRUCacheShard.setHighPriorityPoolRatio, ← ht]
  refine ⟨s', hrun, ⟨⟨hcore.of_same hsame, ⟨_, _, hpool', ?_⟩, (fun _ hj => nomatch hj),
    fun j hj => ?_⟩, fun hlt => ?_, ?_, ?_⟩⟩
  · rw [hsame.chargeAt_eq, hlruUsage, List.append_assoc, ← hsplit, ht]
    exact hlru.usage
  · rw [hlist, hsame.evictable, ht]
    exact h.good.listed j hj
  · rw [hlist, ht]
    rw [hsame.capacity, hsame.usage, ht] at hlt
    exact h.full hlt
  · rw [hsame.highPriPoolRatio, ht]
    exact hratio
  · rw [hsame.highPriPoolCapacity]
    exact hcap

theorem Books.setStrictCapacityLimit (h : Books s held) (strict : Bool) :
    Books (s.setStrictCapacityLimit strict) held := by
  have hc := h.good.core
  obtain ⟨low, high, hlru⟩ := h.good.lru
  refine ⟨⟨?_, ⟨low, high, ?_⟩, h.good.notMem, h.good.listed⟩, h.full, h.ratio, h.pool⟩
  · exact ⟨hc.fresh, hc.gone, hc.freedOnce, hc.refs, hc.waiting, hc.deletedOnce, hc.table, hc.usage,
      hc.usage_lt⟩
  · exact hlru.of_agree rfl rfl rfl rfl fun _ _ => rfl

theorem Books.eraseUnRefEntries (h : Books s held) :
    ∃ s', s.eraseUnRefEntries = some s' ∧ Books s' held := by
  obtain ⟨s₁, deleted, hevict, hgood, hparams, husage, hexit⟩ :=
    h.good.evictLoop (fun _ => true) s.lru.length (le_refl _)
  obtain ⟨s', hfree, hgood', hparams', hlru', husage'⟩ := hgood.freeAll
  rw [LRUCacheShard.eraseUnRefEntries, hevict]
  refine ⟨s', hfree, h.of_params hgood' (hparams.trans hparams') (husage'.trans_le husage) ?_⟩
  intro _
  rw [hlru']
  exact hexit.resolve_right Bool.noConfusion

theorem Books.setCapacity (h : Books s held) (capacity : ℕ) :
    ∃ s', s.setCapacity capacity = some s' ∧ Books s' held := by
  obtain ⟨t, ht⟩ : ∃ t : LRUCacheShard E, t = { s with
    capacity := capacity
    highPriPoolCapacity := E.times capacity s.highPriPoolRatio } := ⟨_, rfl⟩
  have hgood : Good t held [] none [] := by
    have hc := h.good.core
    obtain ⟨low, high, hlru⟩ := h.good.lru
    rw [ht]
    refine ⟨⟨hc.fresh, hc.gone, hc.freedOnce, hc.refs, hc.waiting, hc.deletedOnce, hc.table,
      hc.usage, hc.usage_lt⟩, ⟨low, high, ?_⟩, h.good.notMem, h.good.listed⟩
    exact hlru.of_agree rfl rfl rfl rfl fun _ _ => rfl
  obtain ⟨s₁, deleted, hevict, hgood₁, hparams, husage, hexit⟩ :=
    hgood.evictLoop (fun s => s.capacity < addSize s.usage 0) t.lru.length (le_refl _)
  obtain ⟨s', hfree, hgood', hparams', hlru', husage'⟩ := hgood₁.freeAll
  rw [LRUCacheShard.setCapacity, ← ht, evictFromLRU, hevict]
  refine ⟨s', hfree, hgood', fun hlt => ?_, ?_, ?_⟩
  · rw [hlru']
    refine hexit.resolve_right fun hstop => ?_
    have hnot := of_decide_eq_false hstop
    rw [addSize, Nat.add_zero, Nat.mod_eq_of_lt hgood₁.core.usage_lt] at hnot
    rw [hparams'.capacity, husage'] at hlt
    exact hnot hlt
  · rw [hparams'.highPriPoolRatio, hparams.highPriPoolRatio, ht]
    exact h.ratio
  · rw [hparams'.highPriPoolCapacity, hparams.highPriPoolCapacity, ht]
    exact E.not_exceeds_zero _ _ h.ratio

/-- The end of `Release` for an entry that was just taken out of the books. -/
theorem Books.releaseLast (h : Books s held) (t : LRUCacheShard E) (i : ℕ) (e : LRUHandle)
    (hle : e.calcTotalCharge E i ≤ t.usage) (husage : t.usage = s.usage) (hlru : t.lru = s.lru)
    (hparams : SameParams s t)
    (hgood : Good { t with usage := t.usage - e.calcTotalCharge E i } held' [i] none []) :
    ∃ s', t.releaseLast i e = some (true, s') ∧ Books s' held' := by
  obtain ⟨s', hfree, hgood', hparams', hlru', husage'⟩ := hgood.free
  rw [LRUCacheShard.releaseLast, subUsage_of_le hle]
  simp only [Option.bind_eq_bind, Option.bind_some, hfree]
  refine ⟨s', rfl, h.of_params hgood' (SameParams.trans ?_ hparams') ?_ ?_⟩
  · exact ⟨hparams.capacity, hparams.strictCapacityLimit, hparams.highPriPoolRatio,
      hparams.highPriPoolCapacity, hparams.allocated⟩
  · rw [husage', ← husage]
    exact Nat.sub_le _ _
  · rw [hlru', ← hlru]
    exact id

theorem Books.release (h : Books s held) (hi : held i ≠ 0) (forceErase : Bool) :
    ∃ last s', s.release (some i) forceErase = some (last, s') ∧
      Books s' (Function.update held i (held i - 1)) := by
  obtain ⟨e, he, hrefs⟩ := h.exists_handle hi
  rw [← hrefs] at hi
  have hresident := resident_of_refs hi
  have hoff := h.good.off (h.good.notMem_of_refs he hi)
  have hself : Function.update held i (held i - 1) i = e.refs - 1 := by
    rw [Function.update_self, hrefs]
  have hheld : ∀ j, j ≠ i → Function.update held i (held i - 1) j = held j := fun j hj =>
    Function.update_of_ne hj _ _
  have hle : e.calcTotalCharge E i ≤ s.usage := h.good.charge_le he hresident
  rw [LRUCacheShard.release]
  simp only [he, Option.bind_eq_bind, Option.bind_some]
  rw [if_pos (Nat.pos_of_ne_zero hi)]
  by_cases hlast : e.refs - 1 = 0
  · by_cases hcache : e.inCache = true
    · rw [if_pos ⟨hlast, hcache⟩]
      by_cases hevict : s.capacity < s.usage ∨ forceErase = true
      · -- out of the hash table as well
        have hempty : s.lru = [] ∨ forceErase = true := hevict.imp_left h.full
        rw [if_pos (by exact hevict), if_pos (by exact hempty)]
        have hgood : Good { ((s.setHandle i { e with refs := e.refs - 1 }).uncache i
            { e with refs := e.refs - 1 }) with usage := s.usage - e.calcTotalCharge E i }
            (Function.update held i (held i - 1)) [i] none [] :=
          hoff.leave he hresident (Function.update_idem _ _ _) ⟨rfl, rfl, rfl, rfl⟩ rfl rfl hlast
            rfl rfl (hself.trans hlast) hheld
            (h.good.core.table_clear he (Function.update_idem _ _ _) hcache (fun h => nomatch h)
              rfl rfl) rfl
        obtain ⟨s', hrun, hbooks⟩ := h.releaseLast
          ((s.setHandle i { e with refs := e.refs - 1 }).uncache i { e with refs := e.refs - 1 }) i
          { e with refs := e.refs - 1 } hle rfl rfl ⟨rfl, rfl, rfl, rfl, rfl⟩ hgood
        exact ⟨true, s', hrun, hbooks⟩
      · -- back on the list
        rw [if_neg (by exact hevict)]
        have hcore : Core (s.setHandle i { e with refs := e.refs - 1 })
            (Function.update held i (held i - 1)) [] none :=
          h.good.core.stay he hresident rfl rfl (resident_of_inCache hcache) rfl rfl hself hheld
            (h.good.core.table_keep he rfl rfl rfl rfl rfl) rfl
        have hgood := hoff.rewrite hcore rfl ⟨rfl, rfl, rfl, rfl⟩
        obtain ⟨s', hrun, hgood', hsame⟩ := hgood.putBack List.not_mem_nil
          (Function.update_self _ _ _) hcache hlast h.pool
        rw [hrun]
        refine ⟨false, s', rfl, ⟨hgood', fun hlt => ?_, ?_, ?_⟩⟩
        · rw [hsame.capacity, hsame.usage] at hlt
          exact absurd (Or.inl hlt) hevict
        · rw [hsame.highPriPoolRatio]
          exact h.ratio
        · rw [hsame.highPriPoolCapacity]
          exact h.pool
    · rw [if_neg (fun hand => hcache hand.2), if_pos hlast]
      have hcache' := Bool.eq_false_iff.mpr hcache
      have hgood : Good { (s.setHandle i { e with refs := e.refs - 1 }) with
          usage := s.usage - e.calcTotalCharge E i } (Function.update held i (held i - 1)) [i] none
            [] :=
        hoff.leave he hresident rfl ⟨rfl, rfl, rfl, rfl⟩ rfl hcache' hlast rfl rfl
          (hself.trans hlast) hheld (h.good.core.table_keep he rfl rfl rfl rfl rfl) rfl
      obtain ⟨s', hrun, hbooks⟩ := h.releaseLast (s.setHandle i { e with refs := e.refs - 1 }) i
        { e with refs := e.refs - 1 } hle rfl rfl ⟨rfl, rfl, rfl, rfl, rfl⟩ hgood
      exact ⟨true, s', hrun, hbooks⟩
  · rw [if_neg (fun hand => hlast hand.1), if_neg hlast]
    have hgood := hoff.setRefs he hresident hlast e.hasHit
    rw [hrefs] at hgood
    exact ⟨false, _, rfl, h.of_params (by rw [hrefs]; exact hgood) ⟨rfl, rfl, rfl, rfl, rfl⟩
      (le_refl _) id⟩

/-- `LRU_Remove` does not look at whether the entry is in the hash table. -/
theorem lruRemove_update {e : LRUHandle} (he : s.handles i = some e) (e' : LRUHandle)
    (hpool : e'.inHighPriPool = e.inHighPriPool) (hcharge : e'.charge = e.charge)
    (table : Bytes × ℕ → Option ℕ) :
    lruRemove { s with handles := Function.update s.handles i (some e'), table := table } i =
      (s.lruRemove i).map fun t =>
        { t with handles := Function.update t.handles i (some e'), table := table } := by
  have hcalc : e'.calcTotalCharge E i = e.calcTotalCharge E i := by
    rw [LRUHandle.calcTotalCharge, LRUHandle.calcTotalCharge, hcharge]
  rw [lruRemove, lruRemove, he]
  dsimp only
  rw [Function.update_self]
  simp only [Option.bind_eq_bind, Option.bind_some, hcalc, hpool]
  by_cases hasserts : i ∈ s.lru ∧ e.calcTotalCharge E i ≤ s.lruUsage ∧
      (e.inHighPriPool = true → e.calcTotalCharge E i ≤ s.highPriPoolUsage)
  · rw [if_pos hasserts, if_pos hasserts]
    rfl
  · rw [if_neg hasserts, if_neg hasserts]
    rfl

theorem Books.erase (h : Books s held) (key : Bytes) (hash : ℕ) :
    ∃ s', s.erase key hash = some s' ∧ Books s' held := by
  rw [LRUCacheShard.erase]
  cases htable : s.table (key, hash) with
  | none => exact ⟨s, rfl, h⟩
  | some i =>
      obtain ⟨e, he, hcache, -, -⟩ := (h.good.core.table _ i).mp htable
      simp only [he, Option.bind_eq_bind, Option.bind_some]
      rw [if_pos hcache]
      by_cases hzero : e.refs = 0
      · have hi : i ∈ s.lru := (h.good.listed i List.not_mem_nil).mpr ⟨e, he, hcache, hzero⟩
        obtain ⟨s₁, hremove, hgood, hsame, hlist, hhandles⟩ := h.good.lruRemove hi
        have he₁ : s₁.handles i = some e := hhandles ▸ he
        have hle : e.calcTotalCharge E i ≤ s₁.usage :=
          hgood.charge_le he₁ (resident_of_inCache hcache)
        obtain ⟨t, ht⟩ : ∃ t : LRUCacheShard E, t = { s₁ with
          handles := Function.update s₁.handles i (some { e with inCache := false })
          table := Function.update s.table (e.key, e.hash) none } := ⟨_, rfl⟩
        have hrun : (s.uncache i e).lruRemove i = some t := by
          have hup := lruRemove_update he { e with inCache := false } rfl rfl
            (Function.update s.table (e.key, e.hash) none)
          rw [hremove, Option.map_some, ← ht] at hup
          exact hup
        have hle' : e.calcTotalCharge E i ≤ t.usage := by
          rw [ht]
          exact hle
        have hgood' : Good { t with usage := t.usage - e.calcTotalCharge E i } held [i] none
            [] := by
          rw [ht]
          refine hgood.leave he₁ (resident_of_inCache hcache) rfl ⟨rfl, rfl, rfl, rfl⟩ rfl rfl hzero
            rfl rfl ((hgood.refs_eq he₁).trans hzero) (fun _ _ => rfl)
            (hgood.core.table_clear he₁ rfl hcache (fun h => nomatch h) rfl ?_) rfl
          rw [hsame.table]
        obtain ⟨s', hfree, hgood'', hparams, hlru, husage⟩ := hgood'.free
        rw [if_pos hzero, hrun, Option.bind_some, subUsage_of_le hle', Option.bind_some]
        refine ⟨s', hfree, h.of_params hgood'' (SameParams.trans ?_ hparams) ?_ ?_⟩
        · rw [ht]
          exact ⟨hsame.capacity, hsame.strictCapacityLimit, hsame.highPriPoolRatio,
            hsame.highPriPoolCapacity, hsame.allocated⟩
        · rw [husage, ← hsame.usage, ht]
          exact Nat.sub_le _ _
        · intro hnil
          rw [hnil] at hi
          cases hi
      · rw [if_neg hzero]
        have hoff := h.good.off (h.good.notMem_of_refs he hzero)
        have hheld := h.good.refs_eq he
        have hcore : Core (s.uncache i e) held [] none :=
          h.good.core.stay he (resident_of_inCache hcache) rfl rfl (resident_of_refs hzero) rfl rfl
            hheld (fun _ _ => rfl)
            (h.good.core.table_clear he rfl hcache (fun h => nomatch h) rfl rfl) rfl
        have hgood := (hoff.rewrite hcore rfl ⟨rfl, rfl, rfl, rfl⟩).back
          (not_evictable (Function.update_self _ _ _) fun hand => nomatch hand.1)
        exact ⟨_, rfl, h.of_params hgood ⟨rfl, rfl, rfl, rfl, rfl⟩ (le_refl _) id⟩

/-- The entry that was found under the key of a new one learns that it was overwritten. -/
theorem Good.insertOverwrites {deleted : List ℕ} {old : ℕ} {e : LRUHandle}
    (h : Good s held deleted (some old) [i]) (he : s.handles old = some e)
    (hcache : e.inCache = true) (hne : old ≠ i) :
    ∃ s' overwritten, s.insertOverwrites (some old) = some (s', overwritten) ∧
      Good s' held (deleted ++ overwritten) none [i] ∧ SameParams s s' ∧ s'.usage ≤ s.usage ∧
        (s.lru = [] → s'.lru = []) ∧ s'.handles i = s.handles i := by
  have hout : old ∉ [i] := fun hmem => hne (List.mem_singleton.mp hmem)
  rw [LRUCacheShard.insertOverwrites]
  simp only [he, Option.bind_eq_bind, Option.bind_some]
  rw [if_pos hcache]
  by_cases hzero : e.refs = 0
  · have hmem : old ∈ s.lru := (h.listed old hout).mpr ⟨e, he, hcache, hzero⟩
    obtain ⟨s₁, hremove, hgood, hsame, hlist, hhandles⟩ := h.lruRemove hmem
    have he₁ : s₁.handles old = some e := hhandles ▸ he
    obtain ⟨t, ht⟩ : ∃ t : LRUCacheShard E, t = { s₁ with
      handles := Function.update s₁.handles old (some { e with inCache := false })
      table := s.table } := ⟨_, rfl⟩
    have hrun : (s.setHandle old { e with inCache := false }).lruRemove old = some t := by
      have hup := lruRemove_update he { e with inCache := false } rfl rfl s.table
      rw [hremove, Option.map_some, ← ht] at hup
      exact hup
    have hle : e.calcTotalCharge E old ≤ t.usage := by
      rw [ht]
      exact hgood.charge_le he₁ (resident_of_inCache hcache)
    rw [if_pos hzero, hrun, Option.bind_some, subUsage_of_le hle, Option.bind_some]
    refine ⟨_, [old], rfl, ?_, ?_, ?_, fun hnil => ?_, ?_⟩
    · rw [ht]
      exact hgood.leave he₁ (resident_of_inCache hcache) rfl ⟨rfl, rfl, rfl, rfl⟩ rfl rfl hzero
        rfl rfl ((hgood.refs_eq he₁).trans hzero) (fun _ _ => rfl)
        (hgood.core.table_shadow rfl rfl hsame.table.symm) rfl
    · rw [ht]
      exact ⟨hsame.capacity, hsame.strictCapacityLimit, hsame.highPriPoolRatio,
        hsame.highPriPoolCapacity, hsame.allocated⟩
    · rw [← hsame.usage, ht]
      exact Nat.sub_le _ _
    · rw [hnil] at hmem
      cases hmem
    · rw [ht]
      dsimp only
      rw [Function.update_of_ne hne.symm, hhandles]
  · rw [if_neg hzero]
    have hoff := h.off (h.notMem_of_refs he hzero)
    have hheld := h.refs_eq he
    have hcore : Core (s.setHandle old { e with inCache := false }) held deleted none :=
      h.core.stay he (resident_of_inCache hcache) rfl rfl (resident_of_refs hzero) rfl rfl
        hheld (fun _ _ => rfl) (h.core.table_shadow rfl rfl rfl) rfl
    have hgood := (hoff.rewrite hcore rfl ⟨rfl, rfl, rfl, rfl⟩).back
      (not_evictable (Function.update_self _ _ _) fun hand => nomatch hand.1)
    refine ⟨_, [], rfl, ?_, ⟨rfl, rfl, rfl, rfl, rfl⟩, le_refl _, id,
      Function.update_of_ne hne.symm _ _⟩
    rw [List.append_nil]
    exact hgood

/-- A new handle comes into the books, off the list. -/
theorem Good.add {deleted : List ℕ} (h : Good s held deleted none []) (s' : LRUCacheShard E)
    (e : LRUHandle) (hrefs : e.refs = 0)
    (hhandles : s'.handles = Function.update s.handles s.allocated (some e))
    (hlist : SameList s s') (hfreed : s'.freed = s.freed)
    (hallocated : s'.allocated = s.allocated + 1)
    (hcache : e.inCache = true → s'.table =
      Function.update s.table (e.key, e.hash) (some s.allocated))
    (hout : e.inCache = false → s'.table = s.table)
    (husage : s'.usage = s.usage + if e.inCache then e.calcTotalCharge E s.allocated else 0)
    (hlt : s'.usage < 2 ^ 64) :
    Good s' held (if e.inCache then deleted else deleted ++ [s.allocated])
      (if e.inCache then s.table (e.key, e.hash) else none) [s.allocated] := by
  have hnone := h.core.fresh s.allocated (le_refl _)
  have hnew : s.allocated ∉ s.lru := by
    rw [h.listed _ List.not_mem_nil]
    rintro ⟨d, hd, -⟩
    rw [hnone] at hd
    cases hd
  have hoff := h.off hnew
  exact hoff.rewrite (h.core.add hrefs hhandles hfreed hallocated hcache hout husage hlt) hhandles
    hlist

/-- The end of `Insert`. -/
theorem Good.books {deleted : List ℕ} (h : Good s held deleted none [])
    (hfull : s.capacity < s.usage → s.lru = []) (hratio : E.nonneg s.highPriPoolRatio = true)
    (hpool : E.exceeds 0 s.highPriPoolCapacity = false) :
    ∃ s', s.freeAll deleted = some s' ∧ Books s' held := by
  obtain ⟨s', hrun, hgood, hparams, hlru, husage⟩ := h.freeAll
  refine ⟨s', hrun, hgood, fun hlt => ?_, ?_, ?_⟩
  · rw [hparams.capacity, husage] at hlt
    rw [hlru]
    exact hfull hlt
  · rw [hparams.highPriPoolRatio]
    exact hratio
  · rw [hparams.highPriPoolCapacity]
    exact hpool

theorem Good.insertNoRoom {deleted : List ℕ} {e : LRUHandle} (h : Good s held deleted none [])
    (hrefs : e.refs = 0) (hfull : s.capacity < s.usage → s.lru = [])
    (hratio : E.nonneg s.highPriPoolRatio = true)
    (hpool : E.exceeds 0 s.highPriPoolCapacity = false) (wantsHandle : Bool) :
    ∃ status handle s', s.insertNoRoom deleted s.allocated e wantsHandle =
      some ((status, handle), s') ∧ Books s' (gain held handle) := by
  cases wantsHandle with
  | true =>
      have hgood : Good { s with
          allocated := s.allocated + 1
          freed := s.freed ++ [s.allocated] } held deleted none [] := by
        obtain ⟨low, high, hlru⟩ := h.lru
        refine ⟨h.core.addFreed, ⟨low, high, ?_⟩, h.notMem, h.listed⟩
        exact hlru.of_agree rfl rfl rfl rfl fun _ _ => rfl
      obtain ⟨s', hrun, hbooks⟩ := hgood.books hfull hratio hpool
      refine ⟨.incomplete "Insert failed due to LRU cache being full.", none, s', ?_, hbooks⟩
      rw [LRUCacheShard.insertNoRoom, if_pos rfl, hrun]
      rfl
  | false =>
      obtain ⟨t, ht⟩ : ∃ t : LRUCacheShard E, t =
        { (s.setHandle s.allocated { e with inCache := false }) with
          allocated := s.allocated + 1 } := ⟨_, rfl⟩
      have hgood : Good t held (deleted ++ [s.allocated]) none [s.allocated] := by
        have hhandles : t.handles = Function.update s.handles s.allocated
            (some { e with inCache := false }) := by rw [ht]; rfl
        have hadd := h.add t { e with inCache := false } hrefs hhandles
          (by rw [ht]; exact ⟨rfl, rfl, rfl, rfl⟩) (by rw [ht]; rfl) (by rw [ht]) (fun h => nomatch h) (fun _ => by rw [ht]; rfl)
          (by rw [ht]; rfl) (by rw [ht]; exact h.core.usage_lt)
        exact hadd
      have hnot : ¬t.Evictable s.allocated := by
        rw [ht]
        exact not_evictable (Function.update_self _ _ _) fun hand => nomatch hand.1
      obtain ⟨s', hrun, hbooks⟩ := (hgood.back hnot).books (by rw [ht]; exact hfull)
        (by rw [ht]; exact hratio) (by rw [ht]; exact hpool)
      refine ⟨.ok, none, s', ?_, hbooks⟩
      rw [LRUCacheShard.insertNoRoom, if_neg Bool.false_ne_true, ← ht, hrun]
      rfl

theorem Good.insertRoom {deleted : List ℕ} {e : LRUHandle} (h : Good s held deleted none [])
    (hrefs : e.refs = 0) (hcache : e.inCache = true)
    (hroom : s.usage + e.calcTotalCharge E s.allocated < 2 ^ 64)
    (hratio : E.nonneg s.highPriPoolRatio = true)
    (hpool : E.exceeds 0 s.highPriPoolCapacity = false) {wantsHandle : Bool}
    (hfull : s.capacity < s.usage + e.calcTotalCharge E s.allocated →
      wantsHandle = true ∧ s.lru = []) :
    ∃ status handle s', s.insertRoom deleted s.allocated e wantsHandle =
      some ((status, handle), s') ∧ Books s' (gain held handle) := by
  obtain ⟨t, ht⟩ : ∃ t : LRUCacheShard E, t = { (s.setHandle s.allocated e) with
    allocated := s.allocated + 1
    table := Function.update s.table (e.key, e.hash) (some s.allocated)
    usage := addSize s.usage (e.calcTotalCharge E s.allocated) } := ⟨_, rfl⟩
  have husage : t.usage = s.usage + e.calcTotalCharge E s.allocated := by
    rw [ht]
    exact Nat.mod_eq_of_lt hroom
  have hnone := h.core.fresh s.allocated (le_refl _)
  have hself : t.handles s.allocated = some e := by
    rw [ht]
    exact Function.update_self _ _ _
  have hgood : Good t held deleted (s.table (e.key, e.hash)) [s.allocated] := by
    have hhandles : t.handles = Function.update s.handles s.allocated (some e) := by rw [ht]; rfl
    have hadd := h.add t e hrefs hhandles (by rw [ht]; exact ⟨rfl, rfl, rfl, rfl⟩)
      (by rw [ht]; rfl) (by rw [ht]) (fun _ => by rw [ht])
      (fun hc => by rw [hcache] at hc; cases hc) (by rw [husage, if_pos hcache])
      (by rw [husage]; exact hroom)
    rwa [if_pos hcache, if_pos hcache] at hadd
  -- an entry that was overwritten leaves the list
  obtain ⟨s₁, overwritten, hover, hgood₁, hparams₁, husage₁, hlru₁, hself₁⟩ :
      ∃ s₁ overwritten,
        t.insertOverwrites (s.table (e.key, e.hash)) = some (s₁, overwritten) ∧
      Good s₁ held (deleted ++ overwritten) none [s.allocated] ∧ SameParams t s₁ ∧
        s₁.usage ≤ t.usage ∧ (t.lru = [] → s₁.lru = []) ∧
          s₁.handles s.allocated = t.handles s.allocated := by
    cases hold : s.table (e.key, e.hash) with
    | none =>
        rw [hold] at hgood
        refine ⟨t, [], rfl, ?_, SameParams.refl t, le_refl _, id, rfl⟩
        rw [List.append_nil]
        exact hgood
    | some old =>
        rw [hold] at hgood
        obtain ⟨d, hd, hdc, -, -⟩ := (h.core.table _ old).mp hold
        have hne : old ≠ s.allocated := by
          rintro rfl
          rw [hnone] at hd
          cases hd
        have hd' : t.handles old = some d := by
          rw [ht]
          exact (Function.update_of_ne hne _ _).trans hd
        exact hgood.insertOverwrites hd' hdc hne
  rw [hself] at hself₁
  have hcapacity : s₁.capacity = s.capacity := by
    rw [hparams₁.capacity, ht]
    rfl
  have hpool₁ : E.exceeds 0 s₁.highPriPoolCapacity = false := by
    rw [hparams₁.highPriPoolCapacity, ht]
    exact hpool
  have hratio₁ : E.nonneg s₁.highPriPoolRatio = true := by
    rw [hparams₁.highPriPoolRatio, ht]
    exact hratio
  have hfull₁ : s₁.capacity < s₁.usage → wantsHandle = true ∧ s₁.lru = [] := by
    intro hlt
    obtain ⟨hwants, hnil⟩ := hfull (by rw [hcapacity] at hlt; omega)
    refine ⟨hwants, hlru₁ ?_⟩
    rw [ht]
    exact hnil
  rw [LRUCacheShard.insertRoom, ← ht]
  simp only [Option.bind_eq_bind, hover, Option.bind_some]
  cases wantsHandle with
  | true =>
      have href : e.ref = { e with refs := 1, hasHit := e.hasHit } := by
        rw [LRUHandle.ref, hrefs]
        rfl
      have hheld : held s.allocated = 0 := by
        rw [hgood₁.refs_eq hself₁, hrefs]
      have hgood' := hgood₁.setRefs hself₁ (resident_of_inCache hcache) Nat.one_ne_zero e.hasHit
      obtain ⟨s', hrun, hbooks⟩ := hgood'.books (fun hlt => (hfull₁ hlt).2) hratio₁ hpool₁
      refine ⟨if s.table (e.key, e.hash) = none then .ok else .okOverwritten, some s.allocated, s',
        ?_, ?_⟩
      · rw [if_pos rfl, href, hrun]
        rfl
      · rw [gain, hheld]
        exact hbooks
  | false =>
      obtain ⟨s₂, hput, hgood₂, hsame⟩ := hgood₁.putBack List.not_mem_nil hself₁ hcache hrefs hpool₁
      obtain ⟨s', hrun, hbooks⟩ := hgood₂.books
        (fun hlt => by
          rw [hsame.capacity, hsame.usage] at hlt
          exact nomatch (hfull₁ hlt).1)
        (by rw [hsame.highPriPoolRatio]; exact hratio₁)
        (by rw [hsame.highPriPoolCapacity]; exact hpool₁)
      refine ⟨if s.table (e.key, e.hash) = none then .ok else .okOverwritten, none, s', ?_, hbooks⟩
      rw [if_neg Bool.false_ne_true, hput, Option.bind_some, hrun]
      rfl

theorem Books.insert (h : Books s held) (key : Bytes) (hash charge : ℕ) (wantsHandle highPri : Bool)
    (hroom : s.usage + LRUHandle.calcTotalCharge E s.allocated
      ⟨key, hash, charge, 0, true, highPri, false, false⟩ < 2 ^ 64) :
    ∃ status handle s', s.insert key hash charge wantsHandle highPri =
      some ((status, handle), s') ∧ Books s' (gain held handle) := by
  obtain ⟨e, he⟩ : ∃ e : LRUHandle, e = ⟨key, hash, charge, 0, true, highPri, false, false⟩ :=
    ⟨_, rfl⟩
  have hcache : e.inCache = true := by rw [he]
  have hrefs : e.refs = 0 := by rw [he]
  rw [← he] at hroom
  obtain ⟨s₁, deleted, hevict, hgood, hparams, husage, hexit⟩ := h.good.evictLoop
    (fun t => t.capacity < addSize t.usage (e.calcTotalCharge E s.allocated)) s.lru.length
    (le_refl _)
  rw [← hparams.allocated] at hexit hroom
  have hadd : addSize s₁.usage (e.calcTotalCharge E s₁.allocated) =
      s₁.usage + e.calcTotalCharge E s₁.allocated := Nat.mod_eq_of_lt (by omega)
  have hfull : s₁.capacity < s₁.usage + e.calcTotalCharge E s₁.allocated → s₁.lru = [] := by
    intro hlt
    refine hexit.resolve_right fun hstop => of_decide_eq_false hstop ?_
    rw [hadd]
    exact hlt
  have hratio : E.nonneg s₁.highPriPoolRatio = true := by
    rw [hparams.highPriPoolRatio]
    exact h.ratio
  have hpool : E.exceeds 0 s₁.highPriPoolCapacity = false := by
    rw [hparams.highPriPoolCapacity]
    exact h.pool
  rw [LRUCacheShard.insert, ← he, evictFromLRU, hevict, ← hparams.allocated]
  simp only [Option.bind_eq_bind, Option.bind_some, hadd]
  by_cases hno : s₁.capacity < s₁.usage + e.calcTotalCharge E s₁.allocated ∧
      (s₁.strictCapacityLimit || !wantsHandle) = true
  · rw [if_pos hno]
    exact hgood.insertNoRoom hrefs (fun hlt => hfull (by omega)) hratio hpool wantsHandle
  · rw [if_neg hno]
    refine hgood.insertRoom hrefs hcache (by omega) hratio hpool fun hlt => ⟨?_, hfull hlt⟩
    cases wantsHandle with
    | true => rfl
    | false => exact absurd ⟨hlt, by rw [Bool.not_false, Bool.or_true]⟩ hno

end Operations

end Tweezer.LRUCacheShard
