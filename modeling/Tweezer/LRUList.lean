import Mathlib.Algebra.BigOperators.Group.List.Basic
import Mathlib.Algebra.Order.BigOperators.Group.List
import Tweezer.LRUCacheShard

/-!
# The list of a cache shard

What holds of the list by itself: it is the low-priority entries and behind them the pool, the
inner pointer is at the last of the low-priority ones, and the counters are the sums of the
charges. Taking an entry out, putting one back and shrinking the pool keep this.
-/

namespace Tweezer.LRUCacheShard

section Nodes

variable {i j : ℕ} {l l' : List ℕ}

theorem takeWhile_append_ne (hi : i ∉ l) : (l ++ i :: l').takeWhile (· ≠ i) = l := by
  rw [List.takeWhile_append_of_pos, List.takeWhile_cons_of_neg (by simp), List.append_nil]
  intro a ha
  exact decide_eq_true fun h => hi (h ▸ ha)

theorem dropWhile_append_ne (hi : i ∉ l) : (l ++ i :: l').dropWhile (· ≠ i) = i :: l' := by
  rw [List.dropWhile_append_of_pos, List.dropWhile_cons_of_neg (by simp)]
  intro a ha
  exact decide_eq_true fun h => hi (h ▸ ha)

theorem before_append (hi : i ∉ l) : before (l ++ i :: l') i = l.getLast? := by
  rw [before, takeWhile_append_ne hi]

/-- The node behind the last one of the first part. -/
theorem after_append (hnodup : (l ++ j :: l').Nodup) :
    after (l ++ j :: l') l.getLast? = some j := by
  induction l using List.reverseRecOn with
  | nil => rfl
  | append_singleton l a _ =>
      rw [List.append_assoc] at hnodup ⊢
      have ha : a ∉ l := fun hmem =>
        (List.nodup_append.mp hnodup).2.2 a hmem a List.mem_cons_self rfl
      rw [List.getLast?_concat, after, List.singleton_append, dropWhile_append_ne ha]
      rfl

theorem insertAfter_append (hnodup : (l ++ l').Nodup) :
    insertAfter (l ++ l') i l.getLast? = l ++ i :: l' := by
  induction l using List.reverseRecOn with
  | nil => rfl
  | append_singleton l a _ =>
      rw [List.append_assoc] at hnodup ⊢
      have ha : a ∉ l := fun hmem =>
        (List.nodup_append.mp hnodup).2.2 a hmem a List.mem_cons_self rfl
      rw [List.getLast?_concat, insertAfter, List.singleton_append, takeWhile_append_ne ha,
        dropWhile_append_ne ha, List.append_assoc]
      rfl

end Nodes

variable {E : LRUCacheEnv}

/-- The charge of the entry that a handle is of. -/
def chargeAt (s : LRUCacheShard E) (i : ℕ) : ℕ :=
  match s.handles i with
  | none => 0
  | some e => e.calcTotalCharge E i

/-- The list is `low` and behind it the pool `high`. -/
structure Pool (s : LRUCacheShard E) (low high : List ℕ) : Prop where
  list : s.lru = low ++ high
  nodup : (low ++ high).Nodup
  lowPri : s.lruLowPri = low.getLast?
  lowFlag : ∀ i ∈ low, ∃ e, s.handles i = some e ∧ e.inHighPriPool = false
  highFlag : ∀ i ∈ high, ∃ e, s.handles i = some e ∧ e.inHighPriPool = true
  highUsage : s.highPriPoolUsage = (high.map s.chargeAt).sum

structure Lru (s : LRUCacheShard E) (low high : List ℕ) : Prop extends Pool s low high where
  usage : s.lruUsage = ((low ++ high).map s.chargeAt).sum

/-- The same but for the list: an entry may have moved out of the pool or into it. -/
structure SameBooks (s s' : LRUCacheShard E) : Prop where
  capacity : s'.capacity = s.capacity
  strictCapacityLimit : s'.strictCapacityLimit = s.strictCapacityLimit
  highPriPoolRatio : s'.highPriPoolRatio = s.highPriPoolRatio
  highPriPoolCapacity : s'.highPriPoolCapacity = s.highPriPoolCapacity
  table : s'.table = s.table
  usage : s'.usage = s.usage
  allocated : s'.allocated = s.allocated
  freed : s'.freed = s.freed
  handles : ∀ i, (s'.handles i).map (fun e => { e with inHighPriPool := false }) =
    (s.handles i).map fun e => { e with inHighPriPool := false }

theorem SameBooks.refl (s : LRUCacheShard E) : SameBooks s s :=
  ⟨rfl, rfl, rfl, rfl, rfl, rfl, rfl, rfl, fun _ => rfl⟩

theorem SameBooks.trans {s s' s'' : LRUCacheShard E} (h : SameBooks s s') (h' : SameBooks s' s'') :
    SameBooks s s'' where
  capacity := h'.capacity.trans h.capacity
  strictCapacityLimit := h'.strictCapacityLimit.trans h.strictCapacityLimit
  highPriPoolRatio := h'.highPriPoolRatio.trans h.highPriPoolRatio
  highPriPoolCapacity := h'.highPriPoolCapacity.trans h.highPriPoolCapacity
  table := h'.table.trans h.table
  usage := h'.usage.trans h.usage
  allocated := h'.allocated.trans h.allocated
  freed := h'.freed.trans h.freed
  handles i := (h'.handles i).trans (h.handles i)

theorem SameBooks.handle {s s' : LRUCacheShard E} (h : SameBooks s s') {i : ℕ} {e : LRUHandle}
    (hi : s.handles i = some e) : ∃ b, s'.handles i = some { e with inHighPriPool := b } := by
  have hmap := h.handles i
  rw [hi] at hmap
  cases hi' : s'.handles i with
  | none =>
      rw [hi'] at hmap
      cases hmap
  | some e' =>
      rw [hi', Option.map_some, Option.map_some, Option.some.injEq] at hmap
      cases e
      cases e'
      simp only [LRUHandle.mk.injEq] at hmap
      obtain ⟨rfl, rfl, rfl, rfl, rfl, rfl, -, rfl⟩ := hmap
      exact ⟨_, rfl⟩

theorem SameBooks.handle_none {s s' : LRUCacheShard E} (h : SameBooks s s') (i : ℕ) :
    s'.handles i = none ↔ s.handles i = none := by
  have hmap := congrArg Option.isNone (h.handles i)
  rw [Option.isNone_map, Option.isNone_map] at hmap
  rw [← Option.isNone_iff_eq_none, ← Option.isNone_iff_eq_none, hmap]

theorem SameBooks.symm {s s' : LRUCacheShard E} (h : SameBooks s s') : SameBooks s' s :=
  ⟨h.capacity.symm, h.strictCapacityLimit.symm, h.highPriPoolRatio.symm,
    h.highPriPoolCapacity.symm, h.table.symm, h.usage.symm, h.allocated.symm, h.freed.symm,
    fun i => (h.handles i).symm⟩

theorem SameBooks.chargeAt_eq {s s' : LRUCacheShard E} (h : SameBooks s s') :
    s'.chargeAt = s.chargeAt := by
  funext i
  rw [chargeAt, chargeAt]
  cases hi : s.handles i with
  | none => rw [(h.handle_none i).mpr hi]
  | some e =>
      obtain ⟨b, hb⟩ := h.handle hi
      rw [hb]
      rfl

theorem setHandle_same {s : LRUCacheShard E} {i : ℕ} {e : LRUHandle} (hi : s.handles i = some e)
    (b : Bool) : SameBooks s (s.setHandle i { e with inHighPriPool := b }) := by
  refine ⟨rfl, rfl, rfl, rfl, rfl, rfl, rfl, rfl, fun j => ?_⟩
  rw [setHandle]
  dsimp only
  rcases eq_or_ne j i with rfl | hj
  · rw [Function.update_self, hi]
    rfl
  · rw [Function.update_of_ne hj]

/-- Where the inner pointer goes when an entry is taken out. -/
theorem getLast?_erase {low high : List ℕ} {i : ℕ} (hnodup : (low ++ high).Nodup)
    (hi : i ∈ low ++ high) :
    (if low.getLast? = some i then before (low ++ high) i else low.getLast?) =
      (low.erase i).getLast? := by
  by_cases hlow : i ∈ low
  · obtain ⟨a, b, rfl⟩ := List.append_of_mem hlow
    rw [List.append_assoc, List.cons_append] at hnodup
    have hia : i ∉ a := fun hmem =>
      (List.nodup_append.mp hnodup).2.2 i hmem i List.mem_cons_self rfl
    have hib : i ∉ b := fun hmem => (List.nodup_cons.mp (List.nodup_append.mp hnodup).2.1).1
      (List.mem_append_left _ hmem)
    rw [List.erase_append_right _ hia, List.erase_cons_head]
    rcases List.eq_nil_or_concat' b with rfl | ⟨b, c, rfl⟩
    · rw [if_pos List.getLast?_concat, List.append_nil, List.append_assoc, List.singleton_append,
        before_append hia]
    · have hci : c ≠ i := by
        rintro rfl
        exact hib (List.mem_append_right _ (List.mem_singleton.mpr rfl))
      have hlast : (a ++ i :: (b ++ [c])).getLast? = some c := by
        rw [← List.cons_append, ← List.append_assoc, List.getLast?_concat]
      have hlast' : (a ++ (b ++ [c])).getLast? = some c := by
        rw [← List.append_assoc, List.getLast?_concat]
      rw [hlast, hlast', if_neg fun h => hci (Option.some.inj h)]
  · rw [List.erase_of_not_mem hlow, if_neg fun h => hlow (List.mem_of_getLast? h)]

theorem append_erase {low high : List ℕ} {i : ℕ} (hnodup : (low ++ high).Nodup) :
    (low ++ high).erase i = low.erase i ++ high.erase i := by
  by_cases hlow : i ∈ low
  · have hhigh : i ∉ high := fun hmem => (List.nodup_append.mp hnodup).2.2 i hlow i hmem rfl
    rw [List.erase_append_left _ hlow, List.erase_of_not_mem hhigh]
  · rw [List.erase_append_right _ hlow, List.erase_of_not_mem hlow]

theorem sum_erase {l : List ℕ} {i : ℕ} (f : ℕ → ℕ) (hi : i ∈ l) :
    ((l.erase i).map f).sum = (l.map f).sum - f i := by
  rw [← List.sum_map_erase f hi, Nat.add_sub_cancel_left]

theorem le_sum_of_mem {l : List ℕ} {i : ℕ} (f : ℕ → ℕ) (hi : i ∈ l) : f i ≤ (l.map f).sum :=
  List.le_sum_of_mem (List.mem_map_of_mem hi)

/-- An entry on the list has the flag of its part of the list. -/
theorem Pool.handle {s : LRUCacheShard E} {low high : List ℕ} (h : Pool s low high) {i : ℕ}
    (hi : i ∈ s.lru) : ∃ e, s.handles i = some e ∧ (e.inHighPriPool = true ↔ i ∈ high) := by
  rw [h.list] at hi
  rcases List.mem_append.mp hi with hlow | hhigh
  · obtain ⟨e, he, hflag⟩ := h.lowFlag i hlow
    refine ⟨e, he, fun h' => ?_, fun hhigh => ?_⟩
    · rw [hflag] at h'
      cases h'
    · exact absurd rfl ((List.nodup_append.mp h.nodup).2.2 i hlow i hhigh)
  · obtain ⟨e, he, hflag⟩ := h.highFlag i hhigh
    exact ⟨e, he, fun _ => hhigh, fun _ => hflag⟩

/-- Taking an entry out of the list, wherever it stands. -/
theorem Lru.lruRemove {s : LRUCacheShard E} {low high : List ℕ} (h : Lru s low high) {i : ℕ}
    (hi : i ∈ s.lru) :
    ∃ s', s.lruRemove i = some s' ∧ Lru s' (low.erase i) (high.erase i) ∧ SameBooks s s' ∧
      s'.lru = s.lru.erase i ∧ s'.handles = s.handles := by
  obtain ⟨e, he, hflag⟩ := h.handle hi
  have hmem := h.list ▸ hi
  have hcharge : s.chargeAt i = e.calcTotalCharge E i := by rw [chargeAt, he]
  have hlru : e.calcTotalCharge E i ≤ s.lruUsage := by
    rw [h.usage, ← hcharge]
    exact le_sum_of_mem _ hmem
  have hhigh : e.inHighPriPool = true → e.calcTotalCharge E i ≤ s.highPriPoolUsage := by
    intro hpool
    rw [h.highUsage, ← hcharge]
    exact le_sum_of_mem _ (hflag.mp hpool)
  rw [LRUCacheShard.lruRemove, he]
  simp only [Option.bind_eq_bind, Option.bind_some]
  rw [if_pos ⟨hi, hlru, hhigh⟩]
  refine ⟨_, rfl, ⟨⟨?_, ?_, ?_, ?_, ?_, ?_⟩, ?_⟩,
    ⟨rfl, rfl, rfl, rfl, rfl, rfl, rfl, rfl, fun _ => rfl⟩, rfl, rfl⟩
  · dsimp only
    rw [h.list, append_erase h.nodup]
  · rw [← append_erase h.nodup]
    exact h.nodup.erase i
  · dsimp only
    rw [h.lowPri, h.list, getLast?_erase h.nodup hmem]
  · exact fun j hj => h.lowFlag j (List.mem_of_mem_erase hj)
  · exact fun j hj => h.highFlag j (List.mem_of_mem_erase hj)
  · change (if e.inHighPriPool = true then s.highPriPoolUsage - e.calcTotalCharge E i
      else s.highPriPoolUsage) = ((high.erase i).map s.chargeAt).sum
    by_cases hpool : e.inHighPriPool = true
    · rw [if_pos hpool, sum_erase _ (hflag.mp hpool), hcharge, h.highUsage]
    · rw [if_neg hpool, List.erase_of_not_mem fun hmem => hpool (hflag.mpr hmem), h.highUsage]
  · change s.lruUsage - e.calcTotalCharge E i =
      ((low.erase i ++ high.erase i).map s.chargeAt).sum
    rw [← append_erase h.nodup, sum_erase _ hmem, hcharge, h.usage]

theorem Pool.notMem_of_cons {s : LRUCacheShard E} {low high : List ℕ} {i : ℕ}
    (h : Pool s low (i :: high)) : i ∉ low ++ high :=
  (List.nodup_cons.mp (List.nodup_middle.mp h.nodup)).1

/-- Shrinking the pool moves its oldest entries in front of it, by induction on the pool. The
pointer never runs into the head, since a pool of no charge does not exceed its capacity. -/
theorem Pool.maintainPoolSizeLoop {high low : List ℕ} {s : LRUCacheShard E} (h : Pool s low high)
    (hcap : E.exceeds 0 s.highPriPoolCapacity = false) {n : ℕ} (hn : high.length ≤ n) :
    ∃ s' moved high', s.maintainPoolSizeLoop n = some s' ∧ high = moved ++ high' ∧
      Pool s' (low ++ moved) high' ∧ SameBooks s s' ∧ s'.lru = s.lru ∧
        s'.lruUsage = s.lruUsage := by
  induction high generalizing low s n with
  | nil =>
      have hexceeds : E.exceeds s.highPriPoolUsage s.highPriPoolCapacity = false := by
        rw [h.highUsage]
        exact hcap
      refine ⟨s, [], [], ?_, rfl, ?_, SameBooks.refl s, rfl, rfl⟩
      · cases n with
        | zero => rw [LRUCacheShard.maintainPoolSizeLoop, hexceeds]; rfl
        | succ n => rw [LRUCacheShard.maintainPoolSizeLoop, hexceeds]; rfl
      · rw [List.append_nil]
        exact h
  | cons i high ih =>
      cases n with
      | zero => exact absurd hn (by simp)
      | succ n =>
          rw [LRUCacheShard.maintainPoolSizeLoop]
          by_cases hexceeds : E.exceeds s.highPriPoolUsage s.highPriPoolCapacity = true
          · obtain ⟨e, he, -⟩ := h.highFlag i List.mem_cons_self
            have hcharge : s.chargeAt i = e.calcTotalCharge E i := by rw [chargeAt, he]
            have hle : e.calcTotalCharge E i ≤ s.highPriPoolUsage := by
              rw [h.highUsage, ← hcharge]
              exact le_sum_of_mem _ List.mem_cons_self
            have hafter : after s.lru s.lruLowPri = some i := by
              rw [h.list, h.lowPri, after_append h.nodup]
            rw [if_pos hexceeds, hafter]
            simp only [Option.bind_eq_bind, Option.bind_some, he]
            rw [if_pos hle]
            obtain ⟨t, ht⟩ : ∃ t : LRUCacheShard E, t =
              { (s.setHandle i { e with inHighPriPool := false }) with
                lruLowPri := some i
                highPriPoolUsage := s.highPriPoolUsage - e.calcTotalCharge E i } := ⟨_, rfl⟩
            rw [← ht]
            have hi : i ∉ low ++ high := h.notMem_of_cons
            have hother : ∀ j, j ≠ i → t.handles j = s.handles j := fun j hj => by
              rw [ht]
              exact Function.update_of_ne hj _ _
            have hself : t.handles i = some { e with inHighPriPool := false } := by
              rw [ht]
              exact Function.update_self _ _ _
            have hsame : SameBooks s t := by
              have hset := setHandle_same he false
              rw [ht]
              exact ⟨rfl, rfl, rfl, rfl, rfl, rfl, rfl, rfl, hset.handles⟩
            have hpool : Pool t (low ++ [i]) high := by
              refine ⟨?_, ?_, ?_, ?_, ?_, ?_⟩
              · rw [ht, List.append_assoc]
                exact h.list
              · rw [List.append_assoc]
                exact h.nodup
              · rw [ht, List.getLast?_concat]
              · intro j hj
                rcases List.mem_append.mp hj with hj | hj
                · rw [hother j fun hji => hi (List.mem_append_left _ (hji ▸ hj))]
                  exact h.lowFlag j hj
                · rw [List.mem_singleton.mp hj]
                  exact ⟨_, hself, rfl⟩
              · intro j hj
                rw [hother j fun hji => hi (List.mem_append_right _ (hji ▸ hj))]
                exact h.highFlag j (List.mem_cons_of_mem _ hj)
              · rw [hsame.chargeAt_eq, ht]
                change s.highPriPoolUsage - e.calcTotalCharge E i = _
                rw [h.highUsage, List.map_cons, List.sum_cons, hcharge, Nat.add_sub_cancel_left]
            have hcap' : E.exceeds 0 t.highPriPoolCapacity = false := by
              rw [hsame.highPriPoolCapacity]
              exact hcap
            obtain ⟨s', moved, high', hrun, hsplit, hpool', hsame', hlru, hlruUsage⟩ :=
              ih hpool hcap' (Nat.le_of_succ_le_succ hn)
            refine ⟨s', i :: moved, high', hrun, ?_, ?_, hsame.trans hsame', ?_, ?_⟩
            · rw [hsplit, List.cons_append]
            · rw [List.append_cons]
              exact hpool'
            · rw [hlru, ht]
              rfl
            · rw [hlruUsage, ht]
              rfl
          · rw [if_neg hexceeds]
            refine ⟨s, [], i :: high, rfl, rfl, ?_, SameBooks.refl s, rfl, rfl⟩
            rw [List.append_nil]
            exact h

theorem Pool.maintainPoolSize {low high : List ℕ} {s : LRUCacheShard E} (h : Pool s low high)
    (hcap : E.exceeds 0 s.highPriPoolCapacity = false) :
    ∃ s' moved high', s.maintainPoolSize = some s' ∧ high = moved ++ high' ∧
      Pool s' (low ++ moved) high' ∧ SameBooks s s' ∧ s'.lru = s.lru ∧
        s'.lruUsage = s.lruUsage := by
  apply h.maintainPoolSizeLoop hcap
  rw [h.list, List.length_append]
  exact Nat.le_add_left _ _

/-- The list is as before where the handles of its entries are. -/
theorem Lru.of_agree {s s' : LRUCacheShard E} {low high : List ℕ} (h : Lru s low high)
    (hlru : s'.lru = s.lru) (hlowPri : s'.lruLowPri = s.lruLowPri)
    (hhigh : s'.highPriPoolUsage = s.highPriPoolUsage) (husage : s'.lruUsage = s.lruUsage)
    (hhandles : ∀ j ∈ s.lru, s'.handles j = s.handles j) : Lru s' low high := by
  rw [h.list] at hhandles
  have hcharge : ∀ j ∈ low ++ high, s'.chargeAt j = s.chargeAt j := by
    intro j hj
    rw [chargeAt, chargeAt, hhandles j hj]
  refine ⟨⟨hlru.trans h.list, h.nodup, hlowPri.trans h.lowPri, ?_, ?_, ?_⟩, ?_⟩
  · intro j hj
    rw [hhandles j (List.mem_append_left _ hj)]
    exact h.lowFlag j hj
  · intro j hj
    rw [hhandles j (List.mem_append_right _ hj)]
    exact h.highFlag j hj
  · rw [List.map_congr_left fun j hj => hcharge j (List.mem_append_right _ hj)]
    exact hhigh.trans h.highUsage
  · rw [List.map_congr_left hcharge]
    exact husage.trans h.usage

theorem Lru.setHandle {s : LRUCacheShard E} {low high : List ℕ} (h : Lru s low high) {i : ℕ}
    (hi : i ∉ s.lru) (e : LRUHandle) : Lru (s.setHandle i e) low high := by
  refine h.of_agree rfl rfl rfl rfl fun j hj => ?_
  exact Function.update_of_ne (ne_of_mem_of_not_mem hj hi) _ _

/-- Putting an entry on the list, at the end of the pool or of the entries in front of it. -/
theorem Lru.lruInsert {s : LRUCacheShard E} {low high : List ℕ} (h : Lru s low high) {i : ℕ}
    {e : LRUHandle} (hi : i ∉ s.lru) (he : s.handles i = some e)
    (hcap : E.exceeds 0 s.highPriPoolCapacity = false)
    (hroom : s.lruUsage + e.calcTotalCharge E i < 2 ^ 64) :
    ∃ s' low' high', s.lruInsert i = some s' ∧ Lru s' low' high' ∧ SameBooks s s' ∧
      ∀ j, j ∈ s'.lru ↔ j = i ∨ j ∈ s.lru := by
  have hi' : i ∉ low ++ high := h.list ▸ hi
  have hset : ∀ b, Lru (s.setHandle i { e with inHighPriPool := b }) low high := fun b =>
    h.setHandle hi _
  have hself : ∀ b, (s.setHandle i { e with inHighPriPool := b }).handles i =
      some { e with inHighPriPool := b } := fun b => Function.update_self _ _ _
  have hchargeSelf : ∀ b, (s.setHandle i { e with inHighPriPool := b }).chargeAt i =
      e.calcTotalCharge E i := fun b => by
    rw [chargeAt, hself b]
    rfl
  have hadd : addSize s.lruUsage (e.calcTotalCharge E i) = s.lruUsage + e.calcTotalCharge E i :=
    Nat.mod_eq_of_lt hroom
  rw [LRUCacheShard.lruInsert, he]
  simp only [Option.bind_eq_bind, Option.bind_some]
  rw [if_neg hi]
  by_cases hpri : E.positive s.highPriPoolRatio = true ∧ (e.isHighPri || e.hasHit) = true
  · rw [if_pos hpri]
    obtain ⟨t, ht⟩ : ∃ t : LRUCacheShard E, t =
      { (s.setHandle i { e with inHighPriPool := true }) with
        lru := s.lru ++ [i]
        highPriPoolUsage := addSize s.highPriPoolUsage (e.calcTotalCharge E i) } := ⟨_, rfl⟩
    rw [← ht]
    have hsame : SameBooks s t := by
      rw [ht]
      exact ⟨rfl, rfl, rfl, rfl, rfl, rfl, rfl, rfl, (setHandle_same he true).handles⟩
    have hhigh : addSize s.highPriPoolUsage (e.calcTotalCharge E i) =
        s.highPriPoolUsage + e.calcTotalCharge E i := by
      apply Nat.mod_eq_of_lt
      have hle : s.highPriPoolUsage ≤ s.lruUsage := by
        rw [h.highUsage, h.usage, List.map_append, List.sum_append]
        exact Nat.le_add_left _ _
      omega
    have hpool : Pool t low (high ++ [i]) := by
      refine ⟨?_, ?_, ?_, ?_, ?_, ?_⟩
      · rw [ht, ← List.append_assoc, ← h.list]
      · rw [← List.append_assoc, List.nodup_append]
        refine ⟨h.nodup, List.nodup_singleton i, fun a ha b hb hab => hi' ?_⟩
        rw [← List.mem_singleton.mp hb, ← hab]
        exact ha
      · rw [ht]
        exact h.lowPri
      · rw [ht]
        exact (hset true).lowFlag
      · intro j hj
        rw [ht]
        rcases List.mem_append.mp hj with hj | hj
        · exact (hset true).highFlag j hj
        · rw [List.mem_singleton.mp hj]
          exact ⟨_, hself true, rfl⟩
      · rw [ht]
        change addSize s.highPriPoolUsage (e.calcTotalCharge E i) =
          ((high ++ [i]).map (s.setHandle i { e with inHighPriPool := true }).chargeAt).sum
        rw [hhigh, List.map_append, List.sum_append, List.map_singleton, List.sum_singleton,
          hchargeSelf true, ← (hset true).highUsage]
        rfl
    obtain ⟨s', moved, high', hrun, hsplit, hpool', hsame', hlru, hlruUsage⟩ :=
      hpool.maintainPoolSize (by rw [hsame.highPriPoolCapacity]; exact hcap)
    rw [hrun]
    simp only [Option.bind_some]
    refine ⟨_, low ++ moved, high', rfl, ⟨?_, ?_⟩, ?_, ?_⟩
    · exact ⟨hpool'.list, hpool'.nodup, hpool'.lowPri, hpool'.lowFlag, hpool'.highFlag,
        hpool'.highUsage⟩
    · change addSize s'.lruUsage (e.calcTotalCharge E i) =
        ((low ++ moved ++ high').map s'.chargeAt).sum
      rw [(hsame.trans hsame').chargeAt_eq, hlruUsage, List.append_assoc, ← hsplit,
        ← List.append_assoc, List.map_append, List.sum_append, ← h.usage, List.map_singleton,
        List.sum_singleton, chargeAt, he, ht]
      exact hadd
    · have hall := hsame.trans hsame'
      exact ⟨hall.capacity, hall.strictCapacityLimit, hall.highPriPoolRatio,
        hall.highPriPoolCapacity, hall.table, hall.usage, hall.allocated, hall.freed,
        hall.handles⟩
    · intro j
      dsimp only
      rw [hlru, ht, List.mem_append, List.mem_singleton, or_comm]
  · rw [if_neg hpri]
    refine ⟨_, low ++ [i], high, rfl, ⟨⟨?_, ?_, ?_, ?_, ?_, ?_⟩, ?_⟩,
      ⟨rfl, rfl, rfl, rfl, rfl, rfl, rfl, rfl, (setHandle_same he false).handles⟩, ?_⟩
    · dsimp only
      rw [h.list, h.lowPri, insertAfter_append h.nodup, List.append_cons]
    · rw [List.append_assoc, List.singleton_append, List.nodup_middle]
      exact List.nodup_cons.mpr ⟨hi', h.nodup⟩
    · exact List.getLast?_concat.symm
    · intro j hj
      rcases List.mem_append.mp hj with hj | hj
      · exact (hset false).lowFlag j hj
      · rw [List.mem_singleton.mp hj]
        exact ⟨_, hself false, rfl⟩
    · exact (hset false).highFlag
    · exact (hset false).highUsage
    · change addSize s.lruUsage (e.calcTotalCharge E i) =
        ((low ++ [i] ++ high).map (s.setHandle i { e with inHighPriPool := false }).chargeAt).sum
      have husage := (hset false).usage
      rw [List.map_append, List.sum_append] at husage
      rw [hadd, List.map_append, List.sum_append, List.map_append, List.sum_append,
        List.map_singleton, List.sum_singleton, hchargeSelf false]
      change s.lruUsage = _ at husage
      omega
    · intro j
      dsimp only
      rw [h.list, h.lowPri, insertAfter_append h.nodup, List.mem_append, List.mem_cons,
        List.mem_append]
      tauto

end Tweezer.LRUCacheShard
