import Mathlib
import Tweezer.Bytes

/-!
# Byte-addressed memory and who owns which part of it

Reads and writes of byte strings, and families of regions that do not overlap. Handing
out memory never creates any: what an owner takes lies in what another one had, which is
all that is needed to keep the regions apart.
-/

namespace Tweezer

abbrev Memory := ℕ → UInt8

def region (p n : ℕ) : Set ℕ := Set.Ico p (p + n)

theorem mem_region {p n a : ℕ} : a ∈ region p n ↔ p ≤ a ∧ a < p + n := Iff.rfl

theorem region_subset {p n q k : ℕ} (h : q ≤ p) (h' : p + n ≤ q + k) :
    region p n ⊆ region q k := Set.Ico_subset_Ico h h'

@[simp] theorem region_zero (p : ℕ) : region p 0 = ∅ := by
  rw [region, Nat.add_zero, Set.Ico_self]

theorem disjoint_region {p n q k : ℕ} (h : p + n ≤ q) : Disjoint (region p n) (region q k) := by
  rw [Set.disjoint_left]
  intro a ha ha'
  rw [mem_region] at ha ha'
  omega

namespace Memory

def read (m : Memory) (p n : ℕ) : Bytes := (List.range n).map fun i => m (p + i)

def write (m : Memory) (p : ℕ) (data : Bytes) : Memory :=
  fun a => if p ≤ a ∧ a < p + data.length then data.getD (a - p) 0 else m a

variable {m : Memory} {p q n : ℕ} {data : Bytes}

@[simp] theorem length_read : (m.read p n).length = n := by
  rw [read, List.length_map, List.length_range]

theorem read_write : (m.write p data).read p data.length = data := by
  apply List.ext_getElem length_read
  intro i hi hi'
  simp [read, write, hi']

theorem read_write_of_disjoint (h : Disjoint (region p data.length) (region q n)) :
    (m.write p data).read q n = m.read q n := by
  apply List.map_congr_left
  intro i hi
  have hq : q + i ∈ region q n := by
    rw [mem_region]
    have := List.mem_range.mp hi
    omega
  exact if_neg (Set.disjoint_right.mp h hq)

theorem write_write {data' : Bytes} (h : data.length = data'.length) :
    (m.write p data).write p data' = m.write p data' := by
  funext a
  simp only [write, h]
  split_ifs <;> rfl

end Memory

/-- One owner takes from another, and no one else gets anything. -/
theorem disjoint_of_take {ι α : Type} {own own' : ι → Set α}
    (h : Pairwise (Function.onFun Disjoint own)) {t g : ι} (htake : own' t ⊆ own g)
    (hapart : Disjoint (own' t) (own' g)) (hrest : ∀ i, i ≠ t → own' i ⊆ own i) :
    Pairwise (Function.onFun Disjoint own') := by
  have htaker : ∀ i, i ≠ t → Disjoint (own' t) (own' i) := by
    intro i hi
    by_cases hg : i = g
    · rw [hg]
      exact hapart
    · exact (h (Ne.symm hg)).mono htake (hrest i hi)
  intro i j hij
  by_cases hi : i = t
  · subst hi
    exact htaker j hij.symm
  · by_cases hj : j = t
    · subst hj
      exact (htaker i hi).symm
    · exact (h hij).mono (hrest i hi) (hrest j hj)

end Tweezer
