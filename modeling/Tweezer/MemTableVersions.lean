import Tweezer.MemTableAdd
import Mathlib.Data.List.Pairwise
import Mathlib.Data.List.Sort

/-!
# The memtable against a plaintext map of versions

For a user key and a snapshot, the versions that are visible are the same, and come in the
same order, in the skip list and in a map that keeps the plaintext. `Get` goes through them
from the newest on; what it gives is compared with what the plaintext gives.
-/

namespace Tweezer

/-- The arguments of `Get` that choose the versions. -/
structure MemTableLookup where
  key : Bytes
  snapshot : ℕ
  length_key : key.length ≤ 2 ^ 31
  snapshot_le : snapshot ≤ kMaxSequenceNumber

/-- A version of the key that is not newer than the snapshot. -/
def Visible (u : Comparator) (q : MemTableLookup) (a : MemTableAdd) : Bool :=
  u.compare a.key q.key = .eq ∧ a.seq.val ≤ q.snapshot

def NotOlder (a b : MemTableAdd) : Prop := b.seq.val ≤ a.seq.val

instance : DecidableRel NotOlder := fun _ _ => inferInstanceAs (Decidable (_ ≤ _))

instance : Std.Total NotOlder := ⟨fun _ _ => Nat.le_total _ _⟩

instance : IsTrans MemTableAdd NotOlder := ⟨fun _ _ _ h h' => Nat.le_trans h' h⟩

/-- The visible versions, newest first. -/
def versions (u : Comparator) (q : MemTableLookup) (adds : List MemTableAdd) : List MemTableAdd :=
  (adds.filter (Visible u q)).insertionSort NotOlder

section Order

variable {u : Comparator} {q : MemTableLookup} {a b : MemTableAdd}

theorem compareVersions_lt_iff {x y : Bytes × ℕ} :
    compareVersions u x y = .lt ↔
      u.compare x.1 y.1 = .lt ∨ (u.compare x.1 y.1 = .eq ∧ y.2 < x.2) := by
  rw [compareVersions, Ordering.then_eq_lt, Nat.compare_eq_lt]

theorem visible_iff : Visible u q a = true ↔
    u.compare a.key q.key = .eq ∧ compareVersions u a.version (q.key, q.snapshot) ≠ .lt := by
  have hcmp := compareVersions_lt_iff (u := u) (x := a.version) (y := (q.key, q.snapshot))
  rw [Visible, decide_eq_true_iff, Ne, hcmp]
  constructor
  · rintro ⟨heq, hle⟩
    refine ⟨heq, ?_⟩
    rintro (hlt | ⟨-, hlt⟩)
    · exact absurd (heq.symm.trans hlt) (by decide)
    · exact absurd hlt (Nat.not_lt.mpr hle)
  · rintro ⟨heq, hnot⟩
    exact ⟨heq, Nat.le_of_not_lt fun hlt => hnot (Or.inr ⟨heq, hlt⟩)⟩

/-- The sought versions lie behind those before the target, and in front of other keys. -/
theorem takeWhile_dropWhile_eq_filter {α : Type} (f : α → MemTableAdd) {l : List α}
    (hl : l.Pairwise (fun c d => compareAdds u (f c) (f d) = .lt)) :
    (l.dropWhile fun c => compareVersions u (f c).version (q.key, q.snapshot) = .lt).takeWhile
      (fun c => u.compare (f c).key q.key = .eq) = l.filter fun c => Visible u q (f c) := by
  have hdrop := OrderedCursor.dropWhile_eq_filter
    (p := fun c => decide (compareVersions u (f c).version (q.key, q.snapshot) = .lt)) (l := l)
    (hl.imp fun {c d} hcd hd => by
      rw [decide_eq_true_iff] at hd ⊢
      exact Std.TransCmp.lt_trans hcd hd)
  have htake := OrderedCursor.takeWhile_eq_filter
    (p := fun c => decide (u.compare (f c).key q.key = .eq))
    (l := l.filter fun c => !decide (compareVersions u (f c).version (q.key, q.snapshot) = .lt))
    (by
      rw [List.pairwise_filter]
      refine hl.imp fun {c d} hcd hc _ hd => ?_
      have := u.transCmp
      rw [decide_eq_true_iff] at hd ⊢
      rw [Bool.not_eq_true', decide_eq_false_iff_not, compareVersions_lt_iff, not_or] at hc
      have hle : (u.compare (f c).key q.key).isLE := by
        rw [← Std.TransCmp.congr_right hd]
        rcases compareVersions_lt_iff.mp hcd with h | ⟨h, -⟩
        · exact Ordering.isLE_of_eq_lt h
        · exact Ordering.isLE_of_eq_eq h
      cases hcmp : u.compare (f c).key q.key with
      | lt => exact absurd hcmp hc.1
      | eq => rfl
      | gt => rw [hcmp] at hle; cases hle)
  rw [hdrop, htake, List.filter_filter]
  apply List.filter_congr
  intro c _
  rw [Bool.eq_iff_iff, visible_iff, Bool.and_eq_true, decide_eq_true_iff, Bool.not_eq_true',
    decide_eq_false_iff_not]

/-- The visible cells hold the versions of the plaintext map, in its order. -/
theorem map_filter_eq_versions {α : Type} (f : α → MemTableAdd) {l : List α}
    {adds : List MemTableAdd} (hperm : (l.map f).Perm adds)
    (hl : l.Pairwise (fun c d => compareAdds u (f c) (f d) = .lt)) :
    (l.filter fun c => Visible u q (f c)).map f = versions u q adds := by
  have := u.transCmp
  have hmap : (l.filter fun c => Visible u q (f c)).map f = (l.map f).filter (Visible u q) :=
    (List.filter_map (f := f) (p := Visible u q)).symm
  have hsorted : (l.map f).Pairwise (fun a b => compareAdds u a b = .lt) := List.pairwise_map.mpr hl
  have hseq : ((l.map f).filter (Visible u q)).Pairwise (fun a b => b.seq.val < a.seq.val) := by
    rw [List.pairwise_filter]
    refine hsorted.imp fun {a b} hab ha hb => ?_
    obtain ⟨ha, -⟩ := visible_iff.mp ha
    obtain ⟨hb, -⟩ := visible_iff.mp hb
    have heq : u.compare a.key b.key = .eq := by
      rw [Std.TransCmp.congr_right hb]
      exact ha
    rcases compareVersions_lt_iff.mp hab with h | ⟨-, h⟩
    · exact absurd (heq.symm.trans h) (by decide)
    · exact h
  rw [hmap, versions]
  have hp : ((l.map f).filter (Visible u q)).Perm
      ((adds.filter (Visible u q)).insertionSort NotOlder) :=
    (hperm.filter _).trans (List.perm_insertionSort _ _).symm
  refine List.Perm.eq_of_pairwise ?_ (hseq.imp fun h => (Nat.le_of_lt h : NotOlder _ _))
    (List.pairwise_insertionSort NotOlder _) hp
  intro a b ha hb hab hba
  by_contra hne
  have hdiff : ((l.map f).filter (Visible u q)).Pairwise (fun a b => a.seq.val ≠ b.seq.val) :=
    hseq.imp fun h => h.ne'
  have : Std.Symm (fun a b : MemTableAdd => a.seq.val ≠ b.seq.val) := ⟨fun _ _ h => h.symm⟩
  exact hdiff.forall ha (hp.mem_iff.mpr hb) hne (Nat.le_antisymm hba hab)

end Order

end Tweezer
