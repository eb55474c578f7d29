import Mathlib.Data.List.Basic

/-!
# A buffer that is replaced

A heap of buffers with one owner, which keeps at most one of them: to take a new one is to give
the old one back. A slice of an earlier buffer is good for nothing but to read no byte.
-/

namespace Tweezer

/-- The buffers of a heap, `none` for one that was given back. -/
structure BufferHeap (α : Type) where
  buffers : List (Option (List α))
  deriving DecidableEq

structure BufferSlice where
  buffer : ℕ
  size : ℕ
  deriving DecidableEq, Repr

namespace BufferHeap

variable {α : Type}

/-- What a slice denotes: no byte needs no buffer. -/
def read (h : BufferHeap α) (s : BufferSlice) : Option (List α) :=
  if s.size = 0 then some []
  else match h.buffers[s.buffer]? with
    | some (some b) => if s.size ≤ b.length then some (b.take s.size) else none
    | _ => none

def free (h : BufferHeap α) : Option ℕ → BufferHeap α
  | none => h
  | some p => ⟨h.buffers.set p none⟩

/-- The buffer was given back. -/
def Gone (h : BufferHeap α) (p : ℕ) : Prop := h.buffers[p]? = some none

theorem length_free (h : BufferHeap α) (p : Option ℕ) :
    (h.free p).buffers.length = h.buffers.length := by
  cases p with
  | none => rfl
  | some p => exact List.length_set

theorem getElem?_free_of_ne (h : BufferHeap α) {p : Option ℕ} {q : ℕ} (hne : p ≠ some q) :
    (h.free p).buffers[q]? = h.buffers[q]? := by
  cases p with
  | none => rfl
  | some p =>
      apply List.getElem?_set_ne
      rintro rfl
      exact hne rfl

theorem Gone.free {h : BufferHeap α} {q : ℕ} (hq : h.Gone q) (p : Option ℕ) :
    (h.free p).Gone q := by
  by_cases hp : p = some q
  · subst hp
    obtain ⟨hlt, -⟩ := List.getElem?_eq_some_iff.mp hq
    exact List.getElem?_set_self hlt
  · unfold Gone
    rw [getElem?_free_of_ne h hp]
    exact hq

theorem read_of_gone {h : BufferHeap α} {s : BufferSlice} (hs : h.Gone s.buffer)
    (hsize : s.size ≠ 0) : h.read s = none := by
  rw [read, if_neg hsize]
  rw [Gone] at hs
  rw [hs]

end BufferHeap

/-- A heap and the buffer its owner has. -/
structure OwnedBuffer (α : Type) where
  heap : BufferHeap α
  owned : Option ℕ
  lt : ∀ p, owned = some p → p < heap.buffers.length

namespace OwnedBuffer

variable {α : Type}

/-- A new buffer for `b` takes the place of the old one. -/
def reset (o : OwnedBuffer α) (b : List α) : BufferSlice × OwnedBuffer α :=
  (⟨o.heap.buffers.length, b.length⟩,
    { heap := BufferHeap.free ⟨o.heap.buffers ++ [some b]⟩ o.owned
      owned := some o.heap.buffers.length
      lt := by
        rintro p ⟨⟩
        rw [BufferHeap.length_free]
        simp })

/-- One after another. -/
def resets (o : OwnedBuffer α) : List (List α) → List BufferSlice × OwnedBuffer α
  | [] => ([], o)
  | b :: bs => ((o.reset b).1 :: ((o.reset b).2.resets bs).1, ((o.reset b).2.resets bs).2)

variable {o : OwnedBuffer α}

theorem size_reset (o : OwnedBuffer α) (b : List α) : (o.reset b).1.size = b.length := rfl

theorem length_resets (o : OwnedBuffer α) (bs : List (List α)) :
    (o.resets bs).1.length = bs.length := by
  induction bs generalizing o with
  | nil => rfl
  | cons b bs ih => rw [resets, List.length_cons, ih, List.length_cons]

theorem resets_append (o : OwnedBuffer α) (bs cs : List (List α)) :
    o.resets (bs ++ cs) =
      ((o.resets bs).1 ++ ((o.resets bs).2.resets cs).1, ((o.resets bs).2.resets cs).2) := by
  induction bs generalizing o with
  | nil => rfl
  | cons b bs ih => rw [List.cons_append, resets, ih, resets, List.cons_append]

theorem resets_concat (o : OwnedBuffer α) (bs : List (List α)) (b : List α) :
    o.resets (bs ++ [b]) = ((o.resets bs).1 ++ [((o.resets bs).2.reset b).1],
      ((o.resets bs).2.reset b).2) := resets_append o bs [b]

theorem read_reset (o : OwnedBuffer α) (b : List α) :
    (o.reset b).2.heap.read (o.reset b).1 = some b := by
  have hne : o.owned ≠ some o.heap.buffers.length := fun h => Nat.lt_irrefl _ (o.lt _ h)
  have hget : (o.reset b).2.heap.buffers[o.heap.buffers.length]? = some (some b) := by
    change (BufferHeap.free ⟨o.heap.buffers ++ [some b]⟩ o.owned).buffers[_]? = _
    rw [BufferHeap.getElem?_free_of_ne _ hne]
    exact List.getElem?_concat_length
  by_cases hb : b.length = 0
  · rw [BufferHeap.read, size_reset, if_pos hb, List.eq_nil_of_length_eq_zero hb]
  · rw [BufferHeap.read, size_reset, if_neg hb]
    change (match (o.reset b).2.heap.buffers[o.heap.buffers.length]? with
      | some (some b') => if b.length ≤ b'.length then some (b'.take b.length) else none
      | _ => none) = _
    rw [hget]
    dsimp only
    rw [if_pos (Nat.le_refl _), List.take_length]

theorem gone_reset {p : ℕ} (h : o.heap.Gone p) (b : List α) : (o.reset b).2.heap.Gone p := by
  apply BufferHeap.Gone.free
  obtain ⟨hlt, -⟩ := List.getElem?_eq_some_iff.mp h
  change (o.heap.buffers ++ [some b])[p]? = _
  rw [List.getElem?_append_left hlt]
  exact h

theorem gone_resets {p : ℕ} (h : o.heap.Gone p) (bs : List (List α)) :
    (o.resets bs).2.heap.Gone p := by
  induction bs generalizing o with
  | nil => exact h
  | cons b bs ih => exact ih (gone_reset h b)

/-- The buffer that is replaced is given back. -/
theorem gone_of_owned {p : ℕ} (h : o.owned = some p) (b : List α) :
    (o.reset b).2.heap.Gone p := by
  have hlt := o.lt p h
  change (BufferHeap.free ⟨o.heap.buffers ++ [some b]⟩ o.owned).Gone p
  rw [h]
  apply List.getElem?_set_self
  rw [List.length_append]
  omega

theorem map_eq_map_iff_zip {β γ δ : Type} {as : List β} {bs : List γ}
    (h : as.length = bs.length) {f : β → δ} {g : γ → δ} :
    as.map f = bs.map g ↔ ∀ r ∈ as.zip bs, f r.1 = g r.2 := by
  induction as generalizing bs with
  | nil =>
      rw [List.eq_nil_of_length_eq_zero h.symm]
      simp
  | cons a as ih =>
      cases bs with
      | nil => cases h
      | cons b bs =>
          simp only [List.map_cons, List.cons_eq_cons, List.zip_cons_cons, List.forall_mem_cons,
            ih (Nat.succ.inj h)]

/-- The slice of a buffer stands for what was put there as long as the buffer is the last one,
or for no byte. -/
theorem read_resets_iff (o : OwnedBuffer α) (b : List α) (bs : List (List α)) :
    ((o.reset b).2.resets bs).2.heap.read (o.reset b).1 = some b ↔ bs = [] ∨ b = [] := by
  by_cases hb : b = []
  · subst hb
    exact iff_of_true (if_pos rfl) (Or.inr rfl)
  · cases bs with
    | nil => exact iff_of_true (read_reset o b) (Or.inl rfl)
    | cons c bs =>
        have hgone := gone_resets (gone_of_owned (o := (o.reset b).2) rfl c) bs
        have hread : ((o.reset b).2.resets (c :: bs)).2.heap.read (o.reset b).1 = none :=
          BufferHeap.read_of_gone hgone (by rw [size_reset]; simpa using hb)
        rw [hread]
        simp [hb]

/-- Of buffers one after another, those that are kept stand for what was put there exactly when
of all but the last only empty ones are kept. -/
theorem forall_read_iff {β : Type} (o : OwnedBuffer α) (calls : List β) (f : β → List α)
    (Keep : β → Prop) :
    (∀ r ∈ (o.resets (calls.map f)).1.zip calls, Keep r.2 →
      (o.resets (calls.map f)).2.heap.read r.1 = some (f r.2)) ↔
      ∀ c ∈ calls.dropLast, Keep c → f c = [] := by
  induction calls generalizing o with
  | nil => simp
  | cons c calls ih =>
      have hrest := ih (o.reset (f c)).2
      have hfirst := read_resets_iff o (f c) (calls.map f)
      rw [List.map_eq_nil_iff] at hfirst
      simp only [List.map_cons, resets, List.zip_cons_cons, List.forall_mem_cons, hrest, hfirst]
      cases calls with
      | nil => simp
      | cons d calls => simp

/-- The same for a caller that keeps them all. -/
theorem map_read_iff {β : Type} (o : OwnedBuffer α) (calls : List β) (f : β → List α) :
    (o.resets (calls.map f)).1.map (o.resets (calls.map f)).2.heap.read =
        calls.map (fun c => some (f c)) ↔ ∀ c ∈ calls.dropLast, f c = [] := by
  have hread := forall_read_iff o calls f fun _ => True
  simp only [forall_const] at hread
  rw [← hread]
  apply map_eq_map_iff_zip
  rw [length_resets, List.length_map]

end OwnedBuffer

end Tweezer
