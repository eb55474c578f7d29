import Tweezer.OrderedCursor

/-!
# A list in chunks

The elements of a list that is split into chunks, addressed by their position in the list and by
the chunk that holds them with the place there. A search in a sorted list comes down to one in the
chunk that the target belongs to.
-/

namespace Tweezer.Chunks

variable {α : Type}

/-- The number of elements before a chunk. -/
def start (chunks : List (List α)) (k : ℕ) : ℕ := (chunks.take k).flatten.length

/-- The chunk that holds the element at a position, and its place in the chunk. -/
def place : List (List α) → ℕ → Option (ℕ × ℕ)
  | [], _ => none
  | c :: cs, p =>
      if p < c.length then some (0, p)
      else (place cs (p - c.length)).map fun x => (x.1 + 1, x.2)

/-- The element at position `p` is element `i` of chunk `k`. -/
structure Holds (chunks : List (List α)) (p k i : ℕ) (c : List α) : Prop where
  chunk : chunks[k]? = some c
  lt : i < c.length
  position : p = start chunks k + i

variable {chunks : List (List α)} {c c' : List α} {p k i : ℕ}

theorem start_zero (chunks : List (List α)) : start chunks 0 = 0 := rfl

theorem start_cons_succ (c : List α) (cs : List (List α)) (k : ℕ) :
    start (c :: cs) (k + 1) = c.length + start cs k := by
  rw [start, List.take_succ_cons, List.flatten_cons, List.length_append, start]

theorem start_succ (h : chunks[k]? = some c) : start chunks (k + 1) = start chunks k + c.length := by
  induction chunks generalizing k with
  | nil => cases h
  | cons d ds ih =>
      cases k with
      | zero =>
          obtain rfl := Option.some.inj h
          rw [start_cons_succ, start_zero, start_zero, Nat.add_zero, Nat.zero_add]
      | succ k =>
          rw [start_cons_succ, start_cons_succ, ih (k := k) h, Nat.add_assoc]

theorem start_of_length_le (h : chunks.length ≤ k) : start chunks k = chunks.flatten.length := by
  rw [start, List.take_of_length_le h]

theorem Holds.getElem? (h : Holds chunks p k i c) : chunks.flatten[p]? = (c)[i]? := by
  obtain ⟨hchunk, hlt, rfl⟩ := h
  induction chunks generalizing k with
  | nil => cases hchunk
  | cons d ds ih =>
      cases k with
      | zero =>
          obtain rfl := Option.some.inj hchunk
          rw [List.flatten_cons, start_zero, Nat.zero_add, List.getElem?_append_left hlt]
      | succ k =>
          rw [List.flatten_cons, start_cons_succ, Nat.add_assoc,
            List.getElem?_append_right (Nat.le_add_right _ _), Nat.add_sub_cancel_left]
          exact ih hchunk

theorem Holds.lt_length (h : Holds chunks p k i c) : p < chunks.flatten.length := by
  have hget := h.getElem?
  rw [List.getElem?_eq_getElem h.lt] at hget
  exact (List.getElem?_eq_some_iff.mp hget).1

theorem place_eq_some : place chunks p = some (k, i) ↔ ∃ c, Holds chunks p k i c := by
  induction chunks generalizing p k with
  | nil =>
      constructor
      · intro h
        cases h
      · rintro ⟨c, h⟩
        cases h.chunk
  | cons d ds ih =>
      rw [place]
      by_cases hp : p < d.length
      · rw [if_pos hp]
        constructor
        · intro h
          obtain ⟨rfl, rfl⟩ := Prod.mk.inj (Option.some.inj h)
          exact ⟨d, rfl, hp, by rw [start_zero, Nat.zero_add]⟩
        · rintro ⟨c, hchunk, hlt, rfl⟩
          cases k with
          | zero => rw [start_zero, Nat.zero_add]
          | succ k =>
              rw [start_cons_succ] at hp
              omega
      · rw [if_neg hp]
        constructor
        · intro h
          obtain ⟨⟨k', i'⟩, hplace, heq⟩ := Option.map_eq_some_iff.mp h
          have hpair : (k' + 1, i') = (k, i) := heq
          obtain ⟨rfl, rfl⟩ := Prod.mk.inj hpair
          obtain ⟨c, hchunk, hlt, hpos⟩ := ih.mp hplace
          exact ⟨c, hchunk, hlt, by rw [start_cons_succ]; omega⟩
        · rintro ⟨c, hchunk, hlt, rfl⟩
          cases k with
          | zero =>
              obtain rfl := Option.some.inj hchunk
              rw [start_zero] at hp
              omega
          | succ k =>
              rw [Option.map_eq_some_iff]
              refine ⟨(k, i), ih.mpr ⟨c, hchunk, hlt, ?_⟩, rfl⟩
              rw [start_cons_succ]
              omega

theorem Holds.place_eq (h : Holds chunks p k i c) : place chunks p = some (k, i) :=
  place_eq_some.mpr ⟨c, h⟩

theorem exists_holds (h : p < chunks.flatten.length) : ∃ k i c, Holds chunks p k i c := by
  induction chunks generalizing p with
  | nil => exact absurd h (Nat.not_lt_zero p)
  | cons d ds ih =>
      by_cases hp : p < d.length
      · exact ⟨0, p, d, rfl, hp, by rw [start_zero, Nat.zero_add]⟩
      · rw [List.flatten_cons, List.length_append] at h
        obtain ⟨k, i, c, hchunk, hlt, hpos⟩ := ih (p := p - d.length) (by omega)
        exact ⟨k + 1, i, c, hchunk, hlt, by rw [start_cons_succ]; omega⟩

theorem Holds.unique {k' i' : ℕ} (h : Holds chunks p k i c) (h' : Holds chunks p k' i' c') :
    k = k' ∧ i = i' ∧ c = c' := by
  obtain ⟨rfl, rfl⟩ := Prod.mk.inj (Option.some.inj (h.place_eq.symm.trans h'.place_eq))
  exact ⟨rfl, rfl, Option.some.inj (h.chunk.symm.trans h'.chunk)⟩

theorem holds_start (h : chunks[k]? = some c) (hne : c ≠ []) :
    Holds chunks (start chunks k) k 0 c :=
  ⟨h, List.length_pos_of_ne_nil hne, rfl⟩

/-- The next element of the chunk. -/
theorem Holds.succ (h : Holds chunks p k i c) (hi : i + 1 < c.length) :
    Holds chunks (p + 1) k (i + 1) c :=
  ⟨h.chunk, hi, by rw [h.position, Nat.add_assoc]⟩

/-- Behind the last element of a chunk, the next one starts. -/
theorem Holds.succ_eq_start (h : Holds chunks p k i c) (hi : i + 1 = c.length) :
    p + 1 = start chunks (k + 1) := by
  rw [start_succ h.chunk, h.position, Nat.add_assoc, hi]

theorem start_le_length (chunks : List (List α)) (k : ℕ) :
    start chunks k ≤ chunks.flatten.length := by
  rw [start, ← List.take_append_drop k chunks, List.flatten_append, List.length_append,
    List.take_append_drop]
  exact Nat.le_add_right _ _

theorem start_map {β : Type} (f : α → β) (chunks : List (List α)) (k : ℕ) :
    start (chunks.map (List.map f)) k = start chunks k := by
  rw [start, ← List.map_take, ← List.map_flatten, List.length_map, start]

open OrderedCursor

variable {cmp : α → α → Ordering} [Std.TransCmp cmp]

/-- The search for a target that lies behind the chunks before this one, and not behind the first
element of those after it. -/
theorem seek_flatten (hl : chunks.flatten.Pairwise fun a b => cmp a b = .lt)
    (hc : chunks[k]? = some c) {t : α}
    (hbefore : ∀ p a, start chunks k = p + 1 → chunks.flatten[p]? = some a → cmp a t = .lt)
    (hafter : ∀ a, chunks.flatten[start chunks (k + 1)]? = some a → cmp a t ≠ .lt) :
    seek cmp chunks.flatten t =
      match seek cmp c t with
      | some j => some (start chunks k + j)
      | none =>
          if start chunks (k + 1) < chunks.flatten.length then some (start chunks (k + 1))
          else none := by
  have hget : ∀ {j}, j < c.length → chunks.flatten[start chunks k + j]? = (c)[j]? := fun hj =>
    Holds.getElem? ⟨hc, hj, rfl⟩
  cases hs : seek cmp c t with
  | some j =>
      obtain ⟨⟨a, ha, hnot⟩, hlt⟩ := seek_eq_some hs
      obtain ⟨hj, -⟩ := List.getElem?_eq_some_iff.mp ha
      apply seek_eq_some_of_sorted hl ((hget hj).trans ha) hnot
      intro p b hp hb
      cases j with
      | zero => exact hbefore p b hp hb
      | succ j =>
          obtain rfl : p = start chunks k + j := by omega
          rw [hget (by omega)] at hb
          exact hlt j b (Nat.lt_succ_self j) hb
  | none =>
      have hall := seek_eq_none hs
      have hlast : ∀ p b, start chunks (k + 1) = p + 1 → chunks.flatten[p]? = some b →
          cmp b t = .lt := by
        intro p b hp hb
        rw [start_succ hc] at hp
        rcases Nat.eq_zero_or_pos c.length with hzero | hpos
        · exact hbefore p b (by omega) hb
        · obtain rfl : p = start chunks k + (c.length - 1) := by omega
          rw [hget (by omega)] at hb
          exact hall b (List.mem_of_getElem? hb)
      dsimp only
      split_ifs with hend
      · have hnext := List.getElem?_eq_getElem hend
        exact seek_eq_some_of_sorted hl hnext (hafter _ hnext) hlast
      · apply seek_eq_none_of_sorted hl
        intro p b hp hb
        have hle := start_le_length chunks (k + 1)
        exact hlast p b (by omega) hb

end Tweezer.Chunks
