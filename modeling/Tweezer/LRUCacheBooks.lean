import Mathlib.Algebra.BigOperators.Intervals
import Mathlib.Algebra.Order.BigOperators.Group.Finset
import Tweezer.LRUList

/-!
# The books of a cache shard

What the counters, the hash table and the list of a shard say of its entries, at the points
between the steps of an operation: entries that were taken out may still wait to be freed, and
an entry may have been overwritten in the hash table but not know of it yet.
-/

namespace Tweezer

open Finset (range)

variable {E : LRUCacheEnv}

/-- In the hash table, or still referenced. -/
def LRUHandle.resident (e : LRUHandle) : Bool := e.inCache || decide (0 < e.refs)

namespace LRUCacheShard

def residentCharge (s : LRUCacheShard E) (i : ℕ) : ℕ :=
  match s.handles i with
  | none => 0
  | some e => if e.resident then e.calcTotalCharge E i else 0

def refsAt (s : LRUCacheShard E) (i : ℕ) : ℕ :=
  match s.handles i with
  | none => 0
  | some e => e.refs

def Evictable (s : LRUCacheShard E) (i : ℕ) : Prop :=
  ∃ e, s.handles i = some e ∧ e.inCache = true ∧ e.refs = 0

/-- The books in the middle of an operation. `held` counts the references that were given out,
`deleted` waits to be freed, and `shadow` is no longer in the hash table. -/
structure Core (s : LRUCacheShard E) (held : ℕ → ℕ) (deleted : List ℕ) (shadow : Option ℕ) :
    Prop where
  fresh : ∀ i, s.allocated ≤ i → s.handles i = none
  gone : ∀ i, i ∈ s.freed ↔ i < s.allocated ∧ s.handles i = none
  freedOnce : s.freed.Nodup
  refs : ∀ i, s.refsAt i = held i
  waiting : ∀ i, i ∈ deleted ↔ ∃ e, s.handles i = some e ∧ e.resident = false
  deletedOnce : deleted.Nodup
  table : ∀ k i, s.table k = some i ↔
    ∃ e, s.handles i = some e ∧ e.inCache = true ∧ (e.key, e.hash) = k ∧ shadow ≠ some i
  usage : s.usage = ∑ i ∈ range s.allocated, s.residentCharge i
  usage_lt : s.usage < 2 ^ 64

theorem sum_range_change {f g : ℕ → ℕ} {n i : ℕ} (hi : i < n) (h : ∀ j, j ≠ i → g j = f j) :
    ∑ j ∈ range n, g j + f i = ∑ j ∈ range n, f j + g i := by
  have hmem : i ∈ range n := Finset.mem_range.mpr hi
  have hrest : ∑ j ∈ (range n).erase i, g j = ∑ j ∈ (range n).erase i, f j :=
    Finset.sum_congr rfl fun j hj => h j (Finset.ne_of_mem_erase hj)
  have hg := Finset.add_sum_erase (range n) g hmem
  have hf := Finset.add_sum_erase (range n) f hmem
  omega

section Same

variable {s s' : LRUCacheShard E}

theorem SameBooks.exists_handle (h : SameBooks s s') (i : ℕ) (p : LRUHandle → Prop)
    (hp : ∀ e b, p { e with inHighPriPool := b } ↔ p e) :
    (∃ e, s'.handles i = some e ∧ p e) ↔ ∃ e, s.handles i = some e ∧ p e := by
  constructor
  · rintro ⟨e, he, hpe⟩
    obtain ⟨b, hb⟩ := h.symm.handle he
    exact ⟨_, hb, (hp e b).mpr hpe⟩
  · rintro ⟨e, he, hpe⟩
    obtain ⟨b, hb⟩ := h.handle he
    exact ⟨_, hb, (hp e b).mpr hpe⟩

theorem SameBooks.residentCharge (h : SameBooks s s') : s'.residentCharge = s.residentCharge := by
  funext i
  rw [LRUCacheShard.residentCharge, LRUCacheShard.residentCharge]
  cases hi : s.handles i with
  | none => rw [(h.handle_none i).mpr hi]
  | some e =>
      obtain ⟨b, hb⟩ := h.handle hi
      rw [hb]
      rfl

theorem SameBooks.refsAt (h : SameBooks s s') : s'.refsAt = s.refsAt := by
  funext i
  rw [LRUCacheShard.refsAt, LRUCacheShard.refsAt]
  cases hi : s.handles i with
  | none => rw [(h.handle_none i).mpr hi]
  | some e =>
      obtain ⟨b, hb⟩ := h.handle hi
      rw [hb]

theorem SameBooks.evictable (h : SameBooks s s') (i : ℕ) : s'.Evictable i ↔ s.Evictable i :=
  h.exists_handle i _ fun _ _ => Iff.rfl

/-- Moving entries on the list changes nothing else in the books. -/
theorem Core.of_same {held : ℕ → ℕ} {deleted : List ℕ} {shadow : Option ℕ}
    (h : Core s held deleted shadow) (hs : SameBooks s s') : Core s' held deleted shadow where
  fresh i hi := (hs.handle_none i).mpr (h.fresh i (hs.allocated ▸ hi))
  gone i := by rw [hs.freed, hs.allocated, hs.handle_none]; exact h.gone i
  freedOnce := hs.freed ▸ h.freedOnce
  refs i := by rw [hs.refsAt]; exact h.refs i
  waiting i := by rw [h.waiting i, hs.exists_handle i _ fun _ _ => Iff.rfl]
  deletedOnce := h.deletedOnce
  table k i := by rw [hs.table, h.table k i, hs.exists_handle i _ fun _ _ => Iff.rfl]
  usage := by rw [hs.usage, hs.allocated, hs.residentCharge]; exact h.usage
  usage_lt := hs.usage ▸ h.usage_lt

end Same

section Change

variable {s s' : LRUCacheShard E} {held held' : ℕ → ℕ} {deleted : List ℕ}
  {shadow shadow' : Option ℕ} {i : ℕ} {e e' : LRUHandle}

theorem Core.lt_allocated (h : Core s held deleted shadow) (he : s.handles i = some e) :
    i < s.allocated := by
  by_contra hle
  rw [h.fresh i (not_lt.mp hle)] at he
  cases he

theorem residentCharge_of_resident (he : s.handles i = some e) (hr : e.resident = true) :
    s.residentCharge i = e.calcTotalCharge E i := by
  rw [residentCharge, he]
  dsimp only
  rw [if_pos hr]

/-- A handle is rewritten: the entry may go out of the books, and then it waits to be freed. -/
theorem Core.change (h : Core s held deleted shadow) (he : s.handles i = some e)
    (hresident : e.resident = true) (hhandles : s'.handles = Function.update s.handles i (some e'))
    (hcharge : e'.charge = e.charge) (hfreed : s'.freed = s.freed)
    (hallocated : s'.allocated = s.allocated) (hself : held' i = e'.refs)
    (hheld : ∀ j, j ≠ i → held' j = held j)
    (htable : ∀ k j, s'.table k = some j ↔
      ∃ e, s'.handles j = some e ∧ e.inCache = true ∧ (e.key, e.hash) = k ∧ shadow' ≠ some j)
    (husage : s'.usage + (if e'.resident then 0 else e.calcTotalCharge E i) = s.usage) :
    Core s' held' (if e'.resident then deleted else deleted ++ [i]) shadow' := by
  have hi := h.lt_allocated he
  have hother : ∀ j, j ≠ i → s'.handles j = s.handles j := fun j hj => by
    rw [hhandles]
    exact Function.update_of_ne hj _ _
  have hat : s'.handles i = some e' := by
    rw [hhandles]
    exact Function.update_self _ _ _
  have hnot : i ∉ deleted := fun hmem => by
    obtain ⟨d, hd, hdead⟩ := (h.waiting i).mp hmem
    rw [he] at hd
    cases hd
    rw [hresident] at hdead
    cases hdead
  have hcalc : e'.calcTotalCharge E i = e.calcTotalCharge E i := by
    rw [LRUHandle.calcTotalCharge, LRUHandle.calcTotalCharge, hcharge]
  refine ⟨?_, ?_, hfreed ▸ h.freedOnce, ?_, ?_, ?_, htable, ?_, ?_⟩
  · intro j hj
    rw [hallocated] at hj
    rw [hother j (by omega)]
    exact h.fresh j hj
  · intro j
    rw [hfreed, hallocated]
    rcases eq_or_ne j i with rfl | hj
    · rw [h.gone, he, hat]
      simp only [reduceCtorEq, and_false]
    · rw [hother j hj]
      exact h.gone j
  · intro j
    rcases eq_or_ne j i with rfl | hj
    · rw [refsAt, hat, hself]
    · rw [refsAt, hother j hj, hheld j hj]
      exact h.refs j
  · intro j
    rcases eq_or_ne j i with rfl | hj
    · simp only [hat, Option.some.injEq, exists_eq_left']
      by_cases hr : e'.resident = true
      · rw [if_pos hr, hr]
        exact iff_of_false hnot (fun h => Bool.noConfusion h)
      · rw [if_neg hr]
        exact iff_of_true (List.mem_append_right _ (List.mem_singleton.mpr rfl))
          (Bool.eq_false_iff.mpr hr)
    · rw [hother j hj, ← h.waiting j]
      split_ifs
      · exact Iff.rfl
      · rw [List.mem_append, List.mem_singleton, or_iff_left hj]
  · split_ifs
    · exact h.deletedOnce
    · rw [List.nodup_append]
      refine ⟨h.deletedOnce, List.nodup_singleton i, fun a ha b hb hab => hnot ?_⟩
      rw [← List.mem_singleton.mp hb, ← hab]
      exact ha
  · have hsum := sum_range_change (f := s.residentCharge) (g := s'.residentCharge) hi
      fun j hj => by rw [residentCharge, residentCharge, hother j hj]
    rw [residentCharge_of_resident he hresident, ← h.usage] at hsum
    rw [hallocated]
    have hnew : s'.residentCharge i = if e'.resident then e.calcTotalCharge E i else 0 := by
      rw [residentCharge, hat]
      dsimp only
      rw [hcalc]
    rw [hnew] at hsum
    split_ifs at hsum husage
    · omega
    · omega
  · have hlt := h.usage_lt
    omega

/-- It goes out of the books. -/
theorem Core.leave (h : Core s held deleted shadow) (he : s.handles i = some e)
    (hresident : e.resident = true) (hhandles : s'.handles = Function.update s.handles i (some e'))
    (hcharge : e'.charge = e.charge) (hdead : e'.resident = false) (hfreed : s'.freed = s.freed)
    (hallocated : s'.allocated = s.allocated) (hself : held' i = e'.refs)
    (hheld : ∀ j, j ≠ i → held' j = held j)
    (htable : ∀ k j, s'.table k = some j ↔
      ∃ e, s'.handles j = some e ∧ e.inCache = true ∧ (e.key, e.hash) = k ∧ shadow' ≠ some j)
    (husage : s'.usage + e.calcTotalCharge E i = s.usage) :
    Core s' held' (deleted ++ [i]) shadow' := by
  have hchange := h.change he hresident hhandles hcharge hfreed hallocated hself hheld htable
  rw [hdead] at hchange
  exact hchange husage

/-- It stays in the books. -/
theorem Core.stay (h : Core s held deleted shadow) (he : s.handles i = some e)
    (hresident : e.resident = true) (hhandles : s'.handles = Function.update s.handles i (some e'))
    (hcharge : e'.charge = e.charge) (halive : e'.resident = true) (hfreed : s'.freed = s.freed)
    (hallocated : s'.allocated = s.allocated) (hself : held' i = e'.refs)
    (hheld : ∀ j, j ≠ i → held' j = held j)
    (htable : ∀ k j, s'.table k = some j ↔
      ∃ e, s'.handles j = some e ∧ e.inCache = true ∧ (e.key, e.hash) = k ∧ shadow' ≠ some j)
    (husage : s'.usage = s.usage) : Core s' held' deleted shadow' := by
  have hchange := h.change he hresident hhandles hcharge hfreed hallocated hself hheld htable
  rw [halive] at hchange
  exact hchange husage

theorem Core.table_of_inCache (h : Core s held deleted shadow) (he : s.handles i = some e)
    (hcache : e.inCache = true) (hshadow : shadow ≠ some i) :
    s.table (e.key, e.hash) = some i :=
  (h.table _ i).mpr ⟨e, he, hcache, rfl, hshadow⟩

/-- The hash table as it is answers for a handle that keeps its key and stays in it or out of
it. -/
theorem Core.table_keep (h : Core s held deleted shadow) (he : s.handles i = some e)
    (hhandles : s'.handles = Function.update s.handles i (some e')) (hkey : e'.key = e.key)
    (hhash : e'.hash = e.hash) (hcache : e'.inCache = e.inCache) (htable : s'.table = s.table)
    (k : Bytes × ℕ) (j : ℕ) :
    s'.table k = some j ↔
      ∃ e, s'.handles j = some e ∧ e.inCache = true ∧ (e.key, e.hash) = k ∧ shadow ≠ some j := by
  rw [htable, h.table k j, hhandles]
  rcases eq_or_ne j i with rfl | hj
  · rw [Function.update_self, he]
    simp only [Option.some.injEq, exists_eq_left', hkey, hhash, hcache]
  · rw [Function.update_of_ne hj]

/-- With its key cleared, the hash table answers for a handle that is no longer in it. -/
theorem Core.table_clear (h : Core s held deleted shadow) (he : s.handles i = some e)
    (hhandles : s'.handles = Function.update s.handles i (some e')) (hcache : e.inCache = true)
    (hshadow : shadow ≠ some i) (hcache' : e'.inCache = false)
    (htable : s'.table = Function.update s.table (e.key, e.hash) none) (k : Bytes × ℕ) (j : ℕ) :
    s'.table k = some j ↔
      ∃ e, s'.handles j = some e ∧ e.inCache = true ∧ (e.key, e.hash) = k ∧ shadow ≠ some j := by
  have hat := h.table_of_inCache he hcache hshadow
  rw [htable, hhandles]
  rcases eq_or_ne j i with rfl | hj
  · rw [Function.update_self]
    simp only [Option.some.injEq, exists_eq_left', hcache', Bool.false_eq_true, false_and,
      iff_false]
    rcases eq_or_ne k (e.key, e.hash) with rfl | hk
    · rw [Function.update_self]
      exact fun h => nomatch h
    · rw [Function.update_of_ne hk]
      intro hkj
      obtain ⟨d, hd, -, hkey, -⟩ := (h.table k j).mp hkj
      rw [he] at hd
      cases hd
      exact hk hkey.symm
  · rw [Function.update_of_ne hj, ← h.table k j]
    rcases eq_or_ne k (e.key, e.hash) with rfl | hk
    · rw [Function.update_self, hat]
      exact iff_of_false (fun h => nomatch h) fun h => hj (Option.some.inj h).symm
    · rw [Function.update_of_ne hk]

/-- The overwritten entry learns of it. -/
theorem Core.table_shadow (h : Core s held deleted (some i))
    (hhandles : s'.handles = Function.update s.handles i (some e')) (hcache' : e'.inCache = false)
    (htable : s'.table = s.table)
    (k : Bytes × ℕ) (j : ℕ) :
    s'.table k = some j ↔
      ∃ e, s'.handles j = some e ∧ e.inCache = true ∧ (e.key, e.hash) = k ∧ none ≠ some j := by
  rw [htable, h.table k j, hhandles]
  rcases eq_or_ne j i with rfl | hj
  · rw [Function.update_self]
    simp only [ne_eq, not_true_eq_false, and_false, exists_false, Option.some.injEq,
      exists_eq_left', hcache', Bool.false_eq_true, false_and]
  · rw [Function.update_of_ne hj]
    simp only [ne_eq, Option.some.injEq, Ne.symm hj, not_false_eq_true, reduceCtorEq]

end Change

section Free

variable {s : LRUCacheShard E} {held : ℕ → ℕ} {deleted : List ℕ} {shadow : Option ℕ} {i : ℕ}

/-- Entries that are apart from each other have no greater charge than all of them. -/
theorem Core.sum_le (h : Core s held deleted shadow) {l : List ℕ} (hnodup : l.Nodup)
    (hl : ∀ j ∈ l, ∃ e, s.handles j = some e ∧ e.resident = true) :
    (l.map s.chargeAt).sum ≤ s.usage := by
  have heq : l.map s.chargeAt = l.map s.residentCharge := by
    apply List.map_congr_left
    intro j hj
    obtain ⟨e, he, hr⟩ := hl j hj
    rw [residentCharge_of_resident he hr, chargeAt, he]
  rw [heq, ← List.sum_toFinset _ hnodup, h.usage]
  apply Finset.sum_le_sum_of_subset
  intro j hj
  obtain ⟨e, he, -⟩ := hl j (List.mem_toFinset.mp hj)
  exact Finset.mem_range.mpr (h.lt_allocated he)

/-- Freeing an entry that waits for it. -/
theorem Core.free (h : Core s held (i :: deleted) none) :
    s.free i = some { s with
      handles := Function.update s.handles i none
      freed := s.freed ++ [i] } ∧
    Core { s with
      handles := Function.update s.handles i none
      freed := s.freed ++ [i] } held deleted none := by
  obtain ⟨e, he, hdead⟩ := (h.waiting i).mp List.mem_cons_self
  have hi := h.lt_allocated he
  obtain ⟨hcache, hrefs⟩ : e.inCache = false ∧ e.refs = 0 := by
    simpa [LRUHandle.resident] using hdead
  obtain ⟨hnot, hdeleted⟩ := List.nodup_cons.mp h.deletedOnce
  have hother : ∀ j, j ≠ i → Function.update s.handles i none j = s.handles j := fun j hj =>
    Function.update_of_ne hj _ _
  refine ⟨?_, ⟨?_, ?_, ?_, ?_, ?_, hdeleted, ?_, ?_, h.usage_lt⟩⟩
  · rw [LRUCacheShard.free, he]
    simp only [Option.bind_eq_bind, Option.bind_some]
    rw [if_pos hrefs]
  · intro j hj
    rcases eq_or_ne j i with rfl | hji
    · exact Function.update_self _ _ _
    · exact (hother j hji).trans (h.fresh j hj)
  · intro j
    rw [List.mem_append, List.mem_singleton]
    rcases eq_or_ne j i with rfl | hji
    · exact iff_of_true (Or.inr rfl) ⟨hi, Function.update_self _ _ _⟩
    · rw [or_iff_left hji]
      dsimp only
      rw [hother j hji]
      exact h.gone j
  · rw [List.nodup_append]
    refine ⟨h.freedOnce, List.nodup_singleton i, ?_⟩
    rintro a ha b hb rfl
    rw [List.mem_singleton.mp hb, h.gone, he] at ha
    exact nomatch ha.2
  · intro j
    rcases eq_or_ne j i with rfl | hji
    · have hj := h.refs j
      rw [refsAt, he] at hj
      rw [refsAt]
      dsimp only
      rw [Function.update_self, ← hj]
      exact hrefs.symm
    · rw [refsAt]
      dsimp only
      rw [hother j hji]
      exact h.refs j
  · intro j
    dsimp only
    rcases eq_or_ne j i with rfl | hji
    · rw [Function.update_self]
      exact iff_of_false hnot (fun hex => nomatch hex.choose_spec.1)
    · rw [hother j hji, ← h.waiting j, List.mem_cons, or_iff_right hji]
  · intro k j
    dsimp only
    rcases eq_or_ne j i with rfl | hji
    · rw [Function.update_self, h.table k j, he]
      refine iff_of_false ?_ (fun hex => nomatch hex.choose_spec.1)
      rintro ⟨d, hd, hd', -⟩
      cases hd
      rw [hcache] at hd'
      cases hd'
    · rw [hother j hji]
      exact h.table k j
  · change s.usage = _
    rw [h.usage]
    apply Finset.sum_congr rfl
    intro j _
    rw [residentCharge, residentCharge]
    dsimp only
    rcases eq_or_ne j i with rfl | hji
    · rw [Function.update_self, he]
      dsimp only
      rw [hdead]
      rfl
    · rw [hother j hji]

end Free

section Add

variable {s s' : LRUCacheShard E} {held : ℕ → ℕ} {deleted : List ℕ} {e : LRUHandle}

theorem sum_allocated {f g : ℕ → ℕ} {n : ℕ} (h : ∀ j, j < n → g j = f j) :
    ∑ j ∈ range (n + 1), g j = ∑ j ∈ range n, f j + g n := by
  rw [Finset.sum_range_succ, Finset.sum_congr rfl fun j hj => h j (Finset.mem_range.mp hj)]

/-- A handle that is given back before it comes into the books. -/
theorem Core.addFreed (h : Core s held deleted none) :
    Core { s with allocated := s.allocated + 1, freed := s.freed ++ [s.allocated] } held deleted
      none := by
  have hnone := h.fresh s.allocated (le_refl _)
  refine ⟨?_, ?_, ?_, h.refs, h.waiting, h.deletedOnce, h.table, ?_, h.usage_lt⟩
  · exact fun j hj => h.fresh j (Nat.le_of_succ_le hj)
  · intro j
    dsimp only
    rw [List.mem_append, List.mem_singleton, h.gone]
    constructor
    · rintro (⟨hj, hgone⟩ | rfl)
      · exact ⟨Nat.lt_succ_of_lt hj, hgone⟩
      · exact ⟨Nat.lt_succ_self _, hnone⟩
    · rintro ⟨hj, hgone⟩
      rcases Nat.lt_succ_iff_lt_or_eq.mp hj with hj | rfl
      · exact Or.inl ⟨hj, hgone⟩
      · exact Or.inr rfl
  · rw [List.nodup_append]
    refine ⟨h.freedOnce, List.nodup_singleton _, ?_⟩
    rintro a ha b hb rfl
    rw [List.mem_singleton.mp hb, h.gone] at ha
    exact lt_irrefl _ ha.1
  · change s.usage = ∑ j ∈ range (s.allocated + 1), s.residentCharge j
    rw [sum_allocated (f := s.residentCharge) fun j _ => rfl, ← h.usage, residentCharge, hnone]
    rfl

/-- A new handle, in the hash table or waiting to be freed. -/
theorem Core.add (h : Core s held deleted none) (hrefs : e.refs = 0)
    (hhandles : s'.handles = Function.update s.handles s.allocated (some e))
    (hfreed : s'.freed = s.freed) (hallocated : s'.allocated = s.allocated + 1)
    (hcache : e.inCache = true → s'.table =
      Function.update s.table (e.key, e.hash) (some s.allocated))
    (hout : e.inCache = false → s'.table = s.table)
    (husage : s'.usage = s.usage + if e.inCache then e.calcTotalCharge E s.allocated else 0)
    (hlt : s'.usage < 2 ^ 64) :
    Core s' held (if e.inCache then deleted else deleted ++ [s.allocated])
      (if e.inCache then s.table (e.key, e.hash) else none) := by
  have hresident : e.resident = e.inCache := by simp [LRUHandle.resident, hrefs]
  have hnone := h.fresh s.allocated (le_refl _)
  have hother : ∀ j, j ≠ s.allocated → s'.handles j = s.handles j := fun j hj => by
    rw [hhandles]
    exact Function.update_of_ne hj _ _
  have hat : s'.handles s.allocated = some e := by
    rw [hhandles]
    exact Function.update_self _ _ _
  have hnot : s.allocated ∉ deleted := fun hmem => by
    obtain ⟨d, hd, -⟩ := (h.waiting _).mp hmem
    rw [hnone] at hd
    cases hd
  refine ⟨?_, ?_, hfreed ▸ h.freedOnce, ?_, ?_, ?_, ?_, ?_, hlt⟩
  · intro j hj
    rw [hallocated] at hj
    rw [hother j (by omega)]
    exact h.fresh j (by omega)
  · intro j
    rw [hfreed, hallocated, h.gone]
    rcases eq_or_ne j s.allocated with rfl | hj
    · rw [hat]
      exact iff_of_false (fun h => lt_irrefl _ h.1) (fun h => nomatch h.2)
    · rw [hother j hj]
      exact and_congr_left fun _ => ⟨fun h => by omega, fun h => by omega⟩
  · intro j
    rcases eq_or_ne j s.allocated with rfl | hj
    · rw [refsAt, hat, ← h.refs, refsAt, hnone]
      exact hrefs
    · rw [refsAt, hother j hj]
      exact h.refs j
  · intro j
    rcases eq_or_ne j s.allocated with rfl | hj
    · simp only [hat, Option.some.injEq, exists_eq_left', hresident]
      by_cases hc : e.inCache = true
      · rw [if_pos hc, hc]
        exact iff_of_false hnot (fun h => Bool.noConfusion h)
      · rw [if_neg hc]
        exact iff_of_true (List.mem_append_right _ (List.mem_singleton.mpr rfl))
          (Bool.eq_false_iff.mpr hc)
    · rw [hother j hj, ← h.waiting j]
      split_ifs
      · exact Iff.rfl
      · rw [List.mem_append, List.mem_singleton, or_iff_left hj]
  · split_ifs
    · exact h.deletedOnce
    · rw [List.nodup_append]
      refine ⟨h.deletedOnce, List.nodup_singleton _, ?_⟩
      rintro a ha b hb rfl
      exact hnot (List.mem_singleton.mp hb ▸ ha)
  · intro k j
    by_cases hc : e.inCache = true
    · rw [if_pos hc, hcache hc]
      rcases eq_or_ne j s.allocated with rfl | hj
      · have hold : s.table (e.key, e.hash) ≠ some s.allocated := fun htab => by
          obtain ⟨d, hd, -⟩ := (h.table _ _).mp htab
          rw [hnone] at hd
          cases hd
        simp only [hat, Option.some.injEq, exists_eq_left', hc, true_and, ne_eq, hold,
          not_false_eq_true, and_true]
        rcases eq_or_ne k (e.key, e.hash) with rfl | hk
        · rw [Function.update_self]
          exact iff_of_true rfl rfl
        · rw [Function.update_of_ne hk]
          refine iff_of_false (fun htab => ?_) fun heq => hk heq.symm
          obtain ⟨d, hd, -⟩ := (h.table _ _).mp htab
          rw [hnone] at hd
          cases hd
      · rw [hother j hj]
        rcases eq_or_ne k (e.key, e.hash) with rfl | hk
        · rw [Function.update_self]
          refine iff_of_false (fun heq => hj (Option.some.inj heq).symm) ?_
          rintro ⟨d, hd, hdc, hdk, hne⟩
          exact hne ((h.table _ j).mpr ⟨d, hd, hdc, hdk, fun h => nomatch h⟩)
        · rw [Function.update_of_ne hk, h.table k j]
          refine exists_congr fun d => and_congr_right fun hd => and_congr_right fun hdc =>
            and_congr_right fun hdk => iff_of_true (fun h => nomatch h) fun htab => ?_
          obtain ⟨d', hd', -, hdk', -⟩ := (h.table _ j).mp htab
          rw [hd] at hd'
          cases hd'
          exact hk (hdk.symm.trans hdk')
    · rw [if_neg hc, hout (Bool.eq_false_iff.mpr hc), h.table k j]
      rcases eq_or_ne j s.allocated with rfl | hj
      · rw [hnone, hat]
        refine iff_of_false (fun hex => nomatch hex.choose_spec.1) ?_
        rintro ⟨d, hd, hdc, -⟩
        cases hd
        exact hc hdc
      · rw [hother j hj]
  · rw [hallocated, sum_allocated (f := s.residentCharge), ← h.usage, husage, residentCharge, hat]
    · dsimp only
      rw [hresident]
    · intro j hj
      rw [residentCharge, residentCharge, hother j (by omega)]

end Add

end LRUCacheShard

end Tweezer
