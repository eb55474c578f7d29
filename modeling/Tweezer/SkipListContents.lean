import Tweezer.SkipListSafety

/-!
# What the links of a skip list make

The walks over the levels give sorted lists, each a part of the one below, and a call puts its
key into the list of level 0 as the insertion into a sorted list does.
-/

namespace Tweezer

open OrderedLinks InlineSkipList

variable {κ : Type}

namespace SkipListSystem

section Levels

variable {α : Type} [LinearOrder α] {f : κ → α} {S S' : LevelSets κ} {s s' : SkipListSystem κ}

theorem Inv.subset_calls (h : s.Inv f S) (i : ℕ) :
    S i ⊆ {n | n ∈ s.calls.map fun d => d.inserting.x} := by
  intro n hn
  obtain ⟨d, hd, hx⟩ := h.origin i n hn
  exact List.mem_map.mpr ⟨d, List.mem_of_getElem? hd, hx⟩

theorem Inv.finite (h : s.Inv f S) (i : ℕ) : (S i).Finite :=
  (List.finite_toSet _).subset (h.subset_calls i)

theorem Inv.ncard_le (h : s.Inv f S) (i : ℕ) : (S i).ncard ≤ s.calls.length := by
  classical
  have hsub : S i ⊆ ((s.calls.map fun d => d.inserting.x).toFinset : Set (SkipNode κ)) := by
    intro n hn
    rw [Finset.mem_coe, List.mem_toFinset]
    exact h.subset_calls i hn
  calc (S i).ncard ≤ (((s.calls.map fun d => d.inserting.x).toFinset : Set (SkipNode κ))).ncard :=
        Set.ncard_le_ncard hsub (Finset.finite_toSet _)
    _ ≤ s.calls.length := by
        rw [Set.ncard_coe_finset]
        apply (List.toFinset_card_le _).trans
        rw [List.length_map]

theorem Inv.walk_spec (h : s.Inv f S) (i : ℕ) {fuel : ℕ} (hfuel : s.calls.length ≤ fuel) :
    (walk (s.list.next i) fuel none).Pairwise (fun a b => a.pos f < b.pos f) ∧
      ∀ n, n ∈ walk (s.list.next i) fuel none ↔ n ∈ S i := by
  obtain ⟨hsorted, hmem⟩ := (h.levels.linked i).walk_spec (h.finite i) (inList_none _)
    (((Set.ncard_le_ncard (Set.sep_subset _ _) (h.finite i)).trans (h.ncard_le i)).trans hfuel)
  exact ⟨hsorted, fun n => (hmem n).trans (and_iff_left (WithBot.bot_lt_coe _))⟩

theorem Inv.level_sorted (h : s.Inv f S) (i : ℕ) :
    (s.level i).Pairwise (fun a b => a.pos f < b.pos f) := (h.walk_spec i le_rfl).1

theorem Inv.mem_level (h : s.Inv f S) {i : ℕ} {n : SkipNode κ} : n ∈ s.level i ↔ n ∈ S i :=
  (h.walk_spec i le_rfl).2 n

/-- The last link leads nowhere: a longer walk meets nothing else. -/
theorem Inv.walk_eq_level (h : s.Inv f S) (i : ℕ) {fuel : ℕ} (hfuel : s.calls.length ≤ fuel) :
    walk (s.list.next i) fuel none = s.level i :=
  walk_congr (h.walk_spec i hfuel).1 (h.level_sorted i) fun n =>
    ((h.walk_spec i hfuel).2 n).trans h.mem_level.symm

theorem Inv.level_succ_sublist (h : s.Inv f S) (i : ℕ) :
    (s.level (i + 1)).Sublist (s.level i) := by
  have := antisymm_pos (SkipNode.pos f)
  have hnodup : (s.level (i + 1)).Nodup :=
    (h.level_sorted (i + 1)).imp fun hlt heq => absurd (heq ▸ hlt) (lt_irrefl _)
  apply List.sublist_of_subperm_of_pairwise (r := fun a b => a.pos f < b.pos f)
    (List.subperm_of_subset hnodup fun n hn => ?_) (h.level_sorted (i + 1)) (h.level_sorted i)
  exact h.mem_level.mpr (h.levels.succ_subset i (h.mem_level.mp hn))

theorem Inv.contents_sorted (h : s.Inv f S) :
    s.contents.Pairwise (fun a b => f a < f b) := List.pairwise_map.mpr (h.level_sorted 0)

theorem Inv.mem_contents (h : s.Inv f S) {key : κ} :
    key ∈ s.contents ↔ ∃ n ∈ S 0, n.key = key := by
  unfold contents
  rw [List.mem_map]
  exact exists_congr fun n => and_congr_left fun _ => h.mem_level

theorem Inv.contents_eq (h : s.Inv f S) (h' : s'.Inv f S') (hS : S' 0 = S 0) :
    s'.contents = s.contents :=
  congrArg (List.map SkipNode.key)
    (walk_congr (h'.level_sorted 0) (h.level_sorted 0) fun n => by
      rw [h'.mem_level, h.mem_level, hS])

variable {cmp : κ → κ → Ordering} (hf : ∀ a b, cmp a b = compare (f a) (f b))
include hf

theorem transCmp_of_compare : Std.TransCmp cmp where
  eq_swap {a b} := by rw [hf a b, hf b a]; exact Std.OrientedCmp.eq_swap
  isLE_trans {a b k} := by rw [hf a b, hf b k, hf a k]; exact Std.TransCmp.isLE_trans

/-- A node that comes into level 0 brings its key into the sorted list. -/
theorem Inv.insert_contents (h : s.Inv f S) (h' : s'.Inv f S') {x : SkipNode κ} (hx : x ∉ S 0)
    (hS : S' 0 = insert x (S 0)) :
    OrderedCursor.insert cmp x.key s.contents = some s'.contents := by
  have := transCmp_of_compare hf
  have hlt : ∀ a b, cmp a b = .lt ↔ f a < f b := fun a b => by rw [hf, compare_lt_iff_lt]
  have hold : s.contents.Pairwise (fun a b => cmp a b = .lt) :=
    h.contents_sorted.imp fun {a b} hab => (hlt a b).mpr hab
  have hxS : x ∈ S' 0 := by
    rw [hS]
    exact Set.mem_insert _ _
  obtain ⟨l, hl⟩ : ∃ l, OrderedCursor.insert cmp x.key s.contents = some l := by
    apply OrderedCursor.insert_of_ne
    intro key hkey heq
    obtain ⟨n, hn, rfl⟩ := h.mem_contents.mp hkey
    rw [hf, compare_eq_iff_eq] at heq
    have hnS : n ∈ S' 0 := by
      rw [hS]
      exact Set.mem_insert_of_mem _ hn
    exact hx ((h'.levels.linked 0).inj hxS hnS heq ▸ hn)
  rw [hl, Option.some.injEq]
  have hperm : (s'.level 0).Perm (x :: s.level 0) := by
    refine (List.perm_ext_iff_of_nodup ?_ ?_).mpr fun n => ?_
    · exact (h'.level_sorted 0).imp fun hlt heq => absurd (heq ▸ hlt) (lt_irrefl _)
    · refine List.nodup_cons.mpr ⟨fun hmem => hx (h.mem_level.mp hmem), ?_⟩
      exact (h.level_sorted 0).imp fun hlt heq => absurd (heq ▸ hlt) (lt_irrefl _)
    · rw [List.mem_cons, h'.mem_level, h.mem_level, hS, Set.mem_insert_iff]
  have := antisymm_pos f
  have hsorted : l.Pairwise (fun a b => f a < f b) :=
    (OrderedCursor.insert_sorted hold hl).imp fun {a b} hab => (hlt a b).mp hab
  exact List.Perm.eq_of_pairwise' hsorted h'.contents_sorted
    ((OrderedCursor.insert_perm hl).trans (hperm.map SkipNode.key).symm)

/-- While an equal key is there nothing can be put in. -/
theorem Inv.insert_eq_none (h : s.Inv f S) {n : SkipNode κ} {key : κ} (hn : n ∈ S 0)
    (hkey : n.pos f = f key) : OrderedCursor.insert cmp key s.contents = none := by
  have := transCmp_of_compare hf
  have hlt : ∀ a b, cmp a b = .lt ↔ f a < f b := fun a b => by rw [hf, compare_lt_iff_lt]
  cases hinsert : OrderedCursor.insert cmp key s.contents with
  | none => rfl
  | some l =>
      have hsorted := OrderedCursor.insert_sorted
        (h.contents_sorted.imp fun {a b} hab => (hlt a b).mpr hab) hinsert
      have hnodup : (l.map f).Nodup := List.pairwise_map.mpr
        (hsorted.imp fun {a b} hab heq => absurd heq ((hlt a b).mp hab).ne)
      have hperm := (OrderedCursor.insert_perm hinsert).map f
      rw [hperm.nodup_iff, List.map_cons, List.nodup_cons] at hnodup
      exact absurd (List.mem_map.mpr ⟨n.key, h.mem_contents.mpr ⟨n, hn, rfl⟩, hkey⟩) hnodup.1

end Levels

end SkipListSystem

end Tweezer
