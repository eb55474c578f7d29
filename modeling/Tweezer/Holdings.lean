import Mathlib.Data.List.Basic
import Tweezer.Memory

/-!
# Who holds which part of a memory

Memory that is shared out between a rest to carve pieces from, a family of shards that were
loaded from it, what nobody holds, and the pieces handed out so far. The moves of an allocator
keep the holders apart: a new rest or a new piece comes out of what is free, a piece is carved
out of the rest or taken from a shard, and a shard is loaded with a piece.
-/

namespace Tweezer

structure Holdings where
  rest : ℕ × ℕ
  shards : ℕ → ℕ × ℕ
  free : Set ℕ
  pieces : List (ℕ × ℕ)

namespace Holdings

inductive Holder where
  | rest
  | shard (i : ℕ)
  | free
  | piece (n : ℕ)
  deriving DecidableEq

def own (h : Holdings) : Holder → Set ℕ
  | .rest => region h.rest.1 h.rest.2
  | .shard i => region (h.shards i).1 (h.shards i).2
  | .free => h.free
  | .piece n => {a | ∃ v ∈ h.pieces[n]?, a ∈ region v.1 v.2}

def Apart (h : Holdings) : Prop := Pairwise (Function.onFun Disjoint h.own)

variable {h : Holdings} {p q n m k i : ℕ} {free : Set ℕ}

theorem own_piece_last {h' : Holdings} (hpieces : h'.pieces = h.pieces ++ [(p, n)]) :
    h'.own (.piece h.pieces.length) = region p n := by
  ext a
  simp [own, hpieces]

theorem own_piece_length {h' : Holdings} (hpieces : h'.pieces = h.pieces) :
    h'.own (.piece h.pieces.length) = ∅ := by
  ext a
  simp [own, hpieces]

theorem own_piece_of_ne {h' : Holdings} {v : ℕ × ℕ} (hpieces : h'.pieces = h.pieces ++ [v])
    {j : ℕ} (hj : j ≠ h.pieces.length) : h'.own (.piece j) = h.own (.piece j) := by
  have hget : h'.pieces[j]? = h.pieces[j]? := by
    rw [hpieces]
    rcases Nat.lt_or_gt_of_ne hj with hlt | hgt
    · exact List.getElem?_append_left hlt
    · rw [List.getElem?_eq_none (by rw [List.length_append, List.length_singleton]; omega),
        List.getElem?_eq_none (by omega)]
  simp only [own, hget]

theorem Apart.disjoint_pieces (hapart : h.Apart) {j : ℕ} {v w : ℕ × ℕ} (hij : i ≠ j)
    (hv : h.pieces[i]? = some v) (hw : h.pieces[j]? = some w) :
    Disjoint (region v.1 v.2) (region w.1 w.2) := by
  have hne : Holder.piece i ≠ .piece j := fun heq => hij (Holder.piece.inj heq)
  have hpieces := hapart hne
  simp only [Function.onFun, own, hv, hw, Option.mem_some_iff, exists_eq_left'] at hpieces
  exact hpieces

/-- A rest that comes out of what is free. -/
theorem Apart.newRest (hapart : h.Apart) (hq : region q m ⊆ h.free) (hfree : free ⊆ h.free)
    (hdisjoint : Disjoint (region q m) free) :
    ({ h with rest := (q, m), free := free } : Holdings).Apart := by
  apply disjoint_of_take (t := .rest) (g := .free) hapart hq hdisjoint
  intro o ho
  cases o with
  | rest => exact absurd rfl ho
  | free => exact hfree
  | shard i => exact subset_rfl
  | piece n => exact subset_rfl

/-- A piece that comes out of what is free. -/
theorem Apart.newPiece (hapart : h.Apart) (hq : region q m ⊆ h.free) (hfree : free ⊆ h.free)
    (hdisjoint : Disjoint (region q m) free) :
    ({ h with free := free, pieces := h.pieces ++ [(q, m)] } : Holdings).Apart := by
  apply disjoint_of_take (t := .piece h.pieces.length) (g := .free) hapart
  · rw [own_piece_last rfl]
    exact hq
  · rw [own_piece_last rfl]
    exact hdisjoint
  · intro o ho
    cases o with
    | rest => exact subset_rfl
    | free => exact hfree
    | shard i => exact subset_rfl
    | piece j =>
        rw [own_piece_of_ne rfl fun hj => ho (congrArg _ hj)]

/-- A piece is cut off the rest, and another part of it is left. -/
theorem Apart.cutRest (hapart : h.Apart) (hpiece : region p n ⊆ region h.rest.1 h.rest.2)
    (hrest : region q m ⊆ region h.rest.1 h.rest.2)
    (hdisjoint : Disjoint (region p n) (region q m)) :
    ({ h with rest := (q, m), pieces := h.pieces ++ [(p, n)] } : Holdings).Apart := by
  apply disjoint_of_take (t := .piece h.pieces.length) (g := .rest) hapart
  · rw [own_piece_last rfl]
    exact hpiece
  · rw [own_piece_last rfl]
    exact hdisjoint
  · intro o ho
    cases o with
    | rest => exact hrest
    | free => exact subset_rfl
    | shard i => exact subset_rfl
    | piece j =>
        rw [own_piece_of_ne rfl fun hj => ho (congrArg _ hj)]

/-- A piece is cut off a shard, and another part of it is left. -/
theorem Apart.cutShard (hapart : h.Apart)
    (hpiece : region p n ⊆ region (h.shards i).1 (h.shards i).2)
    (hleft : region q m ⊆ region (h.shards i).1 (h.shards i).2)
    (hdisjoint : Disjoint (region p n) (region q m)) :
    ({ h with
      shards := Function.update h.shards i (q, m),
      pieces := h.pieces ++ [(p, n)] } : Holdings).Apart := by
  apply disjoint_of_take (t := .piece h.pieces.length) (g := .shard i) hapart
  · rw [own_piece_last rfl]
    exact hpiece
  · rw [own_piece_last rfl]
    simp only [own, Function.update_self]
    exact hdisjoint
  · intro o ho
    cases o with
    | rest => exact subset_rfl
    | free => exact subset_rfl
    | shard j =>
        by_cases hj : j = i
        · subst hj
          simp only [own, Function.update_self]
          exact hleft
        · simp only [own, Function.update_of_ne hj]
          exact subset_rfl
    | piece j =>
        rw [own_piece_of_ne rfl fun hj => ho (congrArg _ hj)]

/-- A piece is carved out of the rest, behind `k` bytes that are skipped. -/
theorem Apart.carve (hapart : h.Apart) (hn : k + n ≤ h.rest.2) :
    ({ h with
      rest := (h.rest.1 + (n + k), h.rest.2 - (n + k)),
      pieces := h.pieces ++ [(h.rest.1 + k, n)] } : Holdings).Apart := by
  apply hapart.cutRest
  · exact region_subset (by omega) (by omega)
  · exact region_subset (by omega) (by omega)
  · exact disjoint_region (by omega)

/-- A piece is carved out of the end of the rest. -/
theorem Apart.carveEnd (hapart : h.Apart) (hn : n ≤ h.rest.2) :
    ({ h with
      rest := (h.rest.1, h.rest.2 - n),
      pieces := h.pieces ++ [(h.rest.1 + (h.rest.2 - n), n)] } : Holdings).Apart := by
  apply hapart.cutRest
  · exact region_subset (by omega) (by omega)
  · exact region_subset le_rfl (by omega)
  · exact (disjoint_region le_rfl).symm

/-- A piece is taken from the front of a shard. -/
theorem Apart.takeFromShard (hapart : h.Apart) (hn : n ≤ (h.shards i).2) :
    ({ h with
      shards := Function.update h.shards i ((h.shards i).1 + n, (h.shards i).2 - n),
      pieces := h.pieces ++ [((h.shards i).1, n)] } : Holdings).Apart := by
  apply hapart.cutShard
  · exact region_subset le_rfl (by omega)
  · exact region_subset (by omega) (by omega)
  · exact disjoint_region le_rfl

/-- A piece is taken from the end of a shard. -/
theorem Apart.takeFromShardEnd (hapart : h.Apart) (hn : n ≤ (h.shards i).2) :
    ({ h with
      shards := Function.update h.shards i ((h.shards i).1, (h.shards i).2 - n),
      pieces := h.pieces ++ [((h.shards i).1 + (h.shards i).2 - n, n)] } : Holdings).Apart := by
  apply hapart.cutShard
  · exact region_subset (by omega) (by omega)
  · exact region_subset le_rfl (by omega)
  · exact (disjoint_region (by omega)).symm

/-- A shard is loaded with the piece that was handed out last. -/
theorem Apart.reload (hapart : ({ h with pieces := h.pieces ++ [(p, n)] } : Holdings).Apart)
    (i : ℕ) : ({ h with shards := Function.update h.shards i (p, n) } : Holdings).Apart := by
  apply disjoint_of_take (t := .shard i) (g := .piece h.pieces.length) hapart
  · rw [own_piece_last rfl]
    simp only [own, Function.update_self]
    exact subset_rfl
  · rw [own_piece_length rfl]
    exact Set.disjoint_empty _
  · intro o ho
    cases o with
    | rest => exact subset_rfl
    | free => exact subset_rfl
    | shard j =>
        have hj : j ≠ i := fun hj => ho (congrArg _ hj)
        simp only [own, Function.update_of_ne hj]
        exact subset_rfl
    | piece j =>
        by_cases hj : j = h.pieces.length
        · rw [hj, own_piece_length rfl]
          exact Set.empty_subset _
        · have hsame : ({ h with pieces := h.pieces ++ [(p, n)] } : Holdings).own (.piece j) =
              h.own (.piece j) := own_piece_of_ne rfl hj
          rw [hsame]
          exact subset_rfl

end Holdings

end Tweezer
