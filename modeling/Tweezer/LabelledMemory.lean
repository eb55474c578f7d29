import Mathlib.Data.List.Infix
import Tweezer.Memory

/-!
# Memory whose bytes are labelled

A write puts labelled bytes somewhere, and a run leaves a trace of writes. What can be seen of
such a trace by one who learns nothing from the bytes under some labels, after every write.
-/

namespace Tweezer

structure LabelledWrite (L : Type) where
  address : ℕ
  bytes : List (L × UInt8)

namespace LabelledWrite

variable {L : Type}

/-- A write without the bytes themselves. -/
def outline (w : LabelledWrite L) : ℕ × List L := (w.address, w.bytes.map Prod.fst)

def apply (m : ℕ → Option (L × UInt8)) (w : LabelledWrite L) : ℕ → Option (L × UInt8) :=
  fun a => if w.address ≤ a ∧ a < w.address + w.bytes.length then w.bytes[a - w.address]? else m a

/-- What there is after some writes. -/
def after (writes : List (LabelledWrite L)) : ℕ → Option (L × UInt8) :=
  writes.foldl apply fun _ => none

/-- After every single write, no byte has the label `l`. -/
def Never (l : L) (writes : List (LabelledWrite L)) : Prop :=
  ∀ pre, pre <+: writes → ∀ a x, after pre a ≠ some (l, x)

/-- After every single write, the two memories differ only in bytes that are not labelled `l`. -/
def Agree (l : L) (writes writes' : List (LabelledWrite L)) : Prop :=
  writes.length = writes'.length ∧ ∀ n a,
    Option.Rel (fun p q => p.1 = q.1 ∧ (p.1 = l → p.2 = q.2)) (after (writes.take n) a)
      (after (writes'.take n) a)

variable {l : L} {writes writes' : List (LabelledWrite L)}

theorem after_append_singleton (w : LabelledWrite L) :
    after (writes ++ [w]) = apply (after writes) w := by
  rw [after, List.foldl_append]
  rfl

/-- Everything that is there was written. -/
theorem exists_of_after {a : ℕ} {p : L × UInt8} (h : after writes a = some p) :
    ∃ w ∈ writes, p ∈ w.bytes := by
  induction writes using List.reverseRecOn with
  | nil => cases h
  | append_singleton writes w ih =>
      rw [after_append_singleton, apply] at h
      split_ifs at h with hin
      · exact ⟨w, by simp, List.mem_of_getElem? h⟩
      · obtain ⟨v, hv, hp⟩ := ih h
        exact ⟨v, by simp [hv], hp⟩

/-- A label is never there exactly if it is never written. -/
theorem never_iff : Never l writes ↔ ∀ w ∈ writes, ∀ p ∈ w.bytes, p.1 ≠ l := by
  constructor
  · intro h w hw p hp hl
    obtain ⟨before, behind, rfl⟩ := List.append_of_mem hw
    obtain ⟨i, hi, hget⟩ := List.mem_iff_getElem.mp hp
    have hpre : before ++ [w] <+: before ++ w :: behind := ⟨behind, by simp⟩
    refine h _ hpre (w.address + i) p.2 ?_
    rw [after_append_singleton, apply, if_pos (by omega), Nat.add_sub_cancel_left,
      List.getElem?_eq_getElem hi, hget, ← hl]
  · intro h pre hpre a x hafter
    obtain ⟨w, hw, hp⟩ := exists_of_after hafter
    exact h w (hpre.subset hw) _ hp rfl

theorem never_append : Never l (writes ++ writes') ↔ Never l writes ∧ Never l writes' := by
  simp only [never_iff, List.mem_append]
  constructor
  · intro h
    exact ⟨fun w hw => h w (.inl hw), fun w hw => h w (.inr hw)⟩
  · rintro ⟨h, h'⟩ w (hw | hw)
    · exact h w hw
    · exact h' w hw

/-- The labels that are there follow from the outlines of the writes. -/
theorem map_fst_after (h : writes.map outline = writes'.map outline) (a : ℕ) :
    (after writes a).map Prod.fst = (after writes' a).map Prod.fst := by
  induction writes using List.reverseRecOn generalizing writes' with
  | nil =>
      obtain rfl := List.map_eq_nil_iff.mp h.symm
      rfl
  | append_singleton writes w ih =>
      induction writes' using List.reverseRecOn with
      | nil => simp at h
      | append_singleton writes' w' _ =>
          rw [List.map_append, List.map_append] at h
          obtain ⟨hinit, hlast⟩ := List.append_inj' h rfl
          obtain ⟨haddress, hlabels⟩ := Prod.mk.inj (List.cons.inj hlast).1
          have hlen : w.bytes.length = w'.bytes.length := by
            simpa using congrArg List.length hlabels
          rw [after_append_singleton, after_append_singleton, apply, apply, haddress, hlen]
          split_ifs
          · rw [← List.getElem?_map, ← List.getElem?_map, hlabels]
          · exact ih hinit

/-- Traces of the same outline agree where nothing is ever labelled `l`. -/
theorem agree_of_outline (h : writes.map outline = writes'.map outline) (hnever : Never l writes) :
    Agree l writes writes' := by
  have hlen : writes.length = writes'.length := by
    simpa using congrArg List.length h
  refine ⟨hlen, ?_⟩
  intro n a
  have htake : (writes.take n).map outline = (writes'.take n).map outline := by
    rw [List.map_take, List.map_take, h]
  have hfst := map_fst_after htake a
  cases hp : after (writes.take n) a with
  | none =>
      rw [hp] at hfst
      rw [Option.map_eq_none_iff.mp hfst.symm]
      exact .none
  | some p =>
      rw [hp] at hfst
      obtain ⟨q, hq, hqp⟩ := Option.map_eq_some_iff.mp hfst.symm
      rw [hq]
      refine .some ⟨hqp.symm, ?_⟩
      intro hl
      exact absurd (hl ▸ hp) (hnever _ (List.take_prefix n writes) a p.2)

end LabelledWrite

end Tweezer
