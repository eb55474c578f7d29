import Mathlib.Data.List.Basic

/-!
# Reading the newest visible version

Versions stand newest first, and a reader takes the first that it sees: what it gives may be
nothing. Two lists of versions read the same if every reader of interest gets the same of them.
Versions behind one that is seen as well can be left out or changed.
-/

namespace Tweezer

namespace NewestVisible

variable {α ρ β : Type} (sees : ρ → α → Bool) (gives : α → Option β) (R : ρ → Prop)

/-- What the first version that the reader sees gives. -/
def read (r : ρ) (versions : List α) : Option β := (versions.find? (sees r)).bind gives

def SameReads (versions versions' : List α) : Prop :=
  ∀ r, R r → read sees gives r versions = read sees gives r versions'

/-- Whenever a reader of interest sees `v`, it sees one of `front`. -/
def HiddenBy (front : List α) (v : α) : Prop :=
  ∀ r, R r → sees r v = true → ∃ o ∈ front, sees r o = true

variable {sees gives R}

theorem read_append_of_sees {r : ρ} {front back : List α} (h : ∃ o ∈ front, sees r o = true) :
    read sees gives r (front ++ back) = read sees gives r front := by
  unfold read
  rw [List.find?_append]
  cases hfind : front.find? (sees r) with
  | none =>
      obtain ⟨o, ho, hsees⟩ := h
      exact absurd hsees (List.find?_eq_none.mp hfind o ho)
  | some o => rfl

theorem read_append_of_not_sees {r : ρ} {front back : List α}
    (h : ∀ o ∈ front, ¬sees r o = true) :
    read sees gives r (front ++ back) = read sees gives r back := by
  unfold read
  rw [List.find?_append, List.find?_eq_none.mpr h]
  rfl

theorem read_cons_of_sees {r : ρ} {v : α} {back : List α} (h : sees r v = true) :
    read sees gives r (v :: back) = gives v := by
  rw [read, List.find?_cons_of_pos h]
  rfl

theorem read_cons_of_not_sees {r : ρ} {v : α} {back : List α} (h : ¬sees r v = true) :
    read sees gives r (v :: back) = read sees gives r back := by
  rw [read, List.find?_cons_of_neg h, read]

/-- Versions that the reader does not see give nothing. -/
theorem read_eq_none_of_not_sees {r : ρ} {versions : List α}
    (h : ∀ v ∈ versions, ¬sees r v = true) : read sees gives r versions = none := by
  rw [read, List.find?_eq_none.mpr h]
  rfl

namespace SameReads

theorem refl (versions : List α) : SameReads sees gives R versions versions := fun _ _ => rfl

theorem symm {versions versions' : List α} (h : SameReads sees gives R versions versions') :
    SameReads sees gives R versions' versions := fun r hr => (h r hr).symm

theorem trans {a b c : List α} (h : SameReads sees gives R a b) (h' : SameReads sees gives R b c) :
    SameReads sees gives R a c := fun r hr => (h r hr).trans (h' r hr)

theorem append_left (front : List α) {back back' : List α}
    (h : SameReads sees gives R back back') :
    SameReads sees gives R (front ++ back) (front ++ back') := by
  intro r hr
  by_cases hsees : ∃ o ∈ front, sees r o = true
  · rw [read_append_of_sees hsees, read_append_of_sees hsees]
  · have hnone : ∀ o ∈ front, ¬sees r o = true := fun o ho hs => hsees ⟨o, ho, hs⟩
    rw [read_append_of_not_sees hnone, read_append_of_not_sees hnone]
    exact h r hr

/-- A version that is hidden can be left out. -/
theorem of_hidden {front back : List α} {v : α} (h : HiddenBy sees R front v) :
    SameReads sees gives R (front ++ v :: back) (front ++ back) := by
  intro r hr
  by_cases hsees : ∃ o ∈ front, sees r o = true
  · rw [read_append_of_sees hsees, read_append_of_sees hsees]
  · have hnone : ∀ o ∈ front, ¬sees r o = true := fun o ho hs => hsees ⟨o, ho, hs⟩
    rw [read_append_of_not_sees hnone, read_append_of_not_sees hnone,
      read_cons_of_not_sees fun hv => hsees (h r hr hv)]

/-- The versions of a list that are hidden can be left out. -/
theorem of_hidden_filter {front : List α} (l back : List α) {keep : α → Bool}
    (h : ∀ v ∈ l, ¬keep v = true → HiddenBy sees R front v) :
    SameReads sees gives R (front ++ (l ++ back)) (front ++ (l.filter keep ++ back)) := by
  induction l generalizing front with
  | nil => exact refl _
  | cons v l ih =>
      by_cases hkeep : keep v = true
      · rw [List.filter_cons_of_pos hkeep]
        have hrest : ∀ w ∈ l, ¬keep w = true → HiddenBy sees R (front ++ [v]) w := by
          intro w hw hnot r hr hsees
          obtain ⟨o, ho, hso⟩ := h w (List.mem_cons_of_mem v hw) hnot r hr hsees
          exact ⟨o, List.mem_append_left [v] ho, hso⟩
        have hih := ih hrest
        rw [List.append_assoc, List.append_assoc] at hih
        exact hih
      · rw [List.filter_cons_of_neg hkeep]
        have hv : SameReads sees gives R (front ++ (v :: (l ++ back))) (front ++ (l ++ back)) :=
          of_hidden (h v List.mem_cons_self hkeep)
        exact hv.trans (ih fun w hw => h w (List.mem_cons_of_mem v hw))

/-- All of a list is left out. -/
theorem of_hidden_all {front : List α} (l back : List α)
    (h : ∀ v ∈ l, HiddenBy sees R front v) :
    SameReads sees gives R (front ++ (l ++ back)) (front ++ back) := by
  have hfilter : SameReads sees gives R (front ++ (l ++ back))
      (front ++ (l.filter (fun _ => false) ++ back)) :=
    of_hidden_filter l back fun v hv _ => h v hv
  rw [List.filter_eq_nil_iff.mpr (fun _ _ => Bool.false_ne_true)] at hfilter
  exact hfilter

/-- A version that gives nothing can be left out in front of nothing. -/
theorem of_nothing {v : α} {back : List α}
    (h : ∀ r, R r → sees r v = true → gives v = none ∧ read sees gives r back = none) :
    SameReads sees gives R (v :: back) back := by
  intro r hr
  by_cases hsees : sees r v = true
  · obtain ⟨hv, hback⟩ := h r hr hsees
    rw [read_cons_of_sees hsees, hv, hback]
  · rw [read_cons_of_not_sees hsees]

/-- A version can be changed for one that the same readers see and that gives the same. -/
theorem of_same {v w : α} (back : List α) (hsees : ∀ r, R r → sees r v = sees r w)
    (hgives : gives v = gives w) :
    SameReads sees gives R (v :: back) (w :: back) := by
  intro r hr
  have hr' := hsees r hr
  by_cases hv : sees r v = true
  · rw [read_cons_of_sees hv, read_cons_of_sees (hr'.symm.trans hv), hgives]
  · rw [read_cons_of_not_sees hv, read_cons_of_not_sees fun hw => hv (hr'.trans hw)]

end SameReads

end NewestVisible

end Tweezer
