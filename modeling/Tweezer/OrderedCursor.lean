import Mathlib.Data.List.Basic
import Mathlib.Order.Antisymmetrization
import Mathlib.Order.Compare

/-!
# Sorted lists and a cursor over them

The reference for iterators over sorted tables: a position in the list, or none. The
operations are defined by what they look for, without using that the list is sorted; for a
strictly sorted list the last element not above a target is found beside the first one not
below it. Insertion keeps a list strictly sorted and refuses an element that is there.
-/

namespace Tweezer.OrderedCursor

variable {α : Type}

inductive Op (α : Type) where
  | seekToFirst
  | seekToLast
  | seek (target : α)
  | seekForPrev (target : α)
  | next
  | prev
  deriving DecidableEq, Repr

/-- The last index at which `p` holds. -/
def lastIdx? (p : α → Bool) : List α → Option ℕ
  | [] => none
  | a :: l => match lastIdx? p l with
    | some i => some (i + 1)
    | none => if p a then some 0 else none

theorem lastIdx?_eq_none {p : α → Bool} {l : List α} (h : ∀ a ∈ l, p a = false) :
    lastIdx? p l = none := by
  induction l with
  | nil => rfl
  | cons a l ih =>
      rw [lastIdx?, ih fun b hb => h b (List.mem_cons_of_mem _ hb)]
      simp [h a List.mem_cons_self]

theorem lastIdx?_eq_some {p : α → Bool} {l : List α} {i : ℕ} {a : α} (hi : l[i]? = some a)
    (ha : p a = true) (hafter : ∀ j b, i < j → l[j]? = some b → p b = false) :
    lastIdx? p l = some i := by
  induction l generalizing i with
  | nil => simp at hi
  | cons b l ih =>
      cases i with
      | zero =>
          have hnone : lastIdx? p l = none := by
            apply lastIdx?_eq_none
            intro c hc
            obtain ⟨j, hj⟩ := List.mem_iff_getElem?.mp hc
            exact hafter (j + 1) c (Nat.succ_pos j) (by simpa using hj)
          have hb : b = a := by simpa using hi
          rw [lastIdx?, hnone, hb, ha]
          rfl
      | succ i =>
          have hrest := ih (i := i) (by simpa using hi) fun j c hj hc =>
            hafter (j + 1) c (Nat.succ_lt_succ hj) (by simpa using hc)
          rw [lastIdx?, hrest]

variable (cmp : α → α → Ordering)

/-- The first element that is not below the target. -/
def seek (l : List α) (target : α) : Option ℕ := l.findIdx? fun a => cmp a target != .lt

/-- The last element that is not above the target. -/
def seekForPrev (l : List α) (target : α) : Option ℕ :=
  lastIdx? (fun a => cmp a target != .gt) l

def step (l : List α) (pos : Option ℕ) : Op α → Option ℕ
  | .seekToFirst => if l = [] then none else some 0
  | .seekToLast => if l = [] then none else some (l.length - 1)
  | .seek t => seek cmp l t
  | .seekForPrev t => seekForPrev cmp l t
  | .next => pos.bind fun i => if i + 1 < l.length then some (i + 1) else none
  | .prev => pos.bind fun i => if 0 < i then some (i - 1) else none

/-- The last two operations need an element to start from. -/
def Op.Allowed (pos : Option ℕ) : Op α → Prop
  | .next | .prev => pos.isSome = true
  | _ => True

instance (pos : Option ℕ) (op : Op α) : Decidable (op.Allowed pos) :=
  match op with
  | .next | .prev => inferInstanceAs (Decidable (pos.isSome = true))
  | .seekToFirst | .seekToLast | .seek _ | .seekForPrev _ => inferInstanceAs (Decidable True)

variable {cmp}

theorem seek_eq_some {l : List α} {t : α} {j : ℕ} (h : seek cmp l t = some j) :
    (∃ a, l[j]? = some a ∧ cmp a t ≠ .lt) ∧ ∀ i a, i < j → l[i]? = some a → cmp a t = .lt := by
  obtain ⟨hj, hp, hbefore⟩ := List.findIdx?_eq_some_iff_getElem.mp h
  refine ⟨⟨l[j], List.getElem?_eq_getElem hj, by simpa using hp⟩, ?_⟩
  intro i a hi ha
  obtain ⟨hi', rfl⟩ := List.getElem?_eq_some_iff.mp ha
  simpa using hbefore i hi

theorem seek_eq_none {l : List α} {t : α} (h : seek cmp l t = none) :
    ∀ a ∈ l, cmp a t = .lt := by
  intro a ha
  simpa using List.findIdx?_eq_none_iff.mp h a ha

theorem lastIdx?_lt {p : α → Bool} {l : List α} : ∀ i ∈ lastIdx? p l, i < l.length := by
  induction l with
  | nil => exact fun i hi => nomatch hi
  | cons a l ih =>
      intro i hi
      rw [lastIdx?] at hi
      cases hl : lastIdx? p l with
      | some j =>
          rw [hl] at hi
          obtain rfl := Option.some.inj hi
          exact Nat.succ_lt_succ (ih j hl)
      | none =>
          rw [hl] at hi
          dsimp only at hi
          split_ifs at hi
          · obtain rfl := Option.some.inj hi
            exact Nat.succ_pos l.length
          · cases hi

/-- The cursor is at an element of the list. -/
theorem step_lt {l : List α} {pos : Option ℕ} (hpos : ∀ i ∈ pos, i < l.length) (op : Op α) :
    ∀ i ∈ step cmp l pos op, i < l.length := by
  intro i hi
  cases op with
  | seekToFirst =>
      rw [step] at hi
      split_ifs at hi with hnil
      · cases hi
      · obtain rfl := Option.some.inj hi
        exact List.length_pos_of_ne_nil hnil
  | seekToLast =>
      rw [step] at hi
      split_ifs at hi with hnil
      · cases hi
      · obtain rfl := Option.some.inj hi
        have hlength := List.length_pos_of_ne_nil hnil
        omega
  | seek t =>
      obtain ⟨⟨a, ha, -⟩, -⟩ := seek_eq_some (show seek cmp l t = some i from hi)
      exact (List.getElem?_eq_some_iff.mp ha).1
  | seekForPrev t => exact lastIdx?_lt i hi
  | next =>
      obtain ⟨j, -, hj⟩ := Option.bind_eq_some_iff.mp hi
      split_ifs at hj with hlt
      obtain rfl := Option.some.inj hj
      exact hlt
  | prev =>
      obtain ⟨j, hpos', hj⟩ := Option.bind_eq_some_iff.mp hi
      have hlt := hpos j hpos'
      split_ifs at hj with hzero
      obtain rfl := Option.some.inj hj
      omega

theorem lt_of_pairwise {l : List α} (hl : l.Pairwise (fun a b => cmp a b = .lt)) {i j : ℕ} {a b : α}
    (hij : i < j) (ha : l[i]? = some a) (hb : l[j]? = some b) : cmp a b = .lt := by
  obtain ⟨hi, rfl⟩ := List.getElem?_eq_some_iff.mp ha
  obtain ⟨hj, rfl⟩ := List.getElem?_eq_some_iff.mp hb
  exact List.pairwise_iff_getElem.mp hl i j hi hj hij

variable [Std.TransCmp cmp] {l : List α}

/-- Behind an element that is not below the target, every element is above it. -/
theorem gt_of_not_lt (hl : l.Pairwise (fun a b => cmp a b = .lt)) {i j : ℕ} {a b t : α}
    (hij : i < j) (ha : l[i]? = some a) (hb : l[j]? = some b) (hat : cmp a t ≠ .lt) :
    cmp b t = .gt := by
  have hab := lt_of_pairwise hl hij ha hb
  rw [Std.OrientedCmp.gt_iff_lt]
  have hta : (cmp t a).isLE := by
    have hswap : cmp t a = (cmp a t).swap := Std.OrientedCmp.eq_swap
    rw [hswap]
    cases h : cmp a t with
    | lt => exact absurd h hat
    | eq => rfl
    | gt => rfl
  exact Std.TransCmp.lt_of_isLE_of_lt hta hab

/-- In a sorted list the element right before it shows that an element not below the target
is the first one. -/
theorem seek_eq_some_of_sorted (hl : l.Pairwise (fun a b => cmp a b = .lt)) {j : ℕ} {a t : α}
    (hj : l[j]? = some a) (ha : cmp a t ≠ .lt)
    (hprev : ∀ i b, j = i + 1 → l[i]? = some b → cmp b t = .lt) : seek cmp l t = some j := by
  obtain ⟨hlt, rfl⟩ := List.getElem?_eq_some_iff.mp hj
  refine List.findIdx?_eq_some_iff_getElem.mpr ⟨hlt, by simpa using ha, ?_⟩
  intro i hi
  rcases Nat.lt_or_eq_of_le (Nat.succ_le_of_lt hi) with h | h
  · have hi₁ : j - 1 < l.length := by omega
    have hbefore := hprev (j - 1) l[j - 1] (by omega) (List.getElem?_eq_getElem hi₁)
    have hchain : cmp l[i] l[j - 1] = .lt :=
      lt_of_pairwise hl (by omega) (List.getElem?_eq_getElem (by omega))
        (List.getElem?_eq_getElem hi₁)
    simp [Std.TransCmp.lt_trans hchain hbefore]
  · simp [hprev i l[i] h.symm (List.getElem?_eq_getElem (by omega))]

theorem seek_eq_none_of_sorted (hl : l.Pairwise (fun a b => cmp a b = .lt)) {t : α}
    (hlast : ∀ i b, l.length = i + 1 → l[i]? = some b → cmp b t = .lt) :
    seek cmp l t = none := by
  refine List.findIdx?_eq_none_iff.mpr ?_
  intro a ha
  obtain ⟨i, hi, rfl⟩ := List.getElem_of_mem ha
  have hi₁ : l.length - 1 < l.length := by omega
  have hend := hlast (l.length - 1) l[l.length - 1] (by omega) (List.getElem?_eq_getElem hi₁)
  rcases Nat.lt_or_ge i (l.length - 1) with h | h
  · have hchain : cmp l[i] l[l.length - 1] = .lt :=
      lt_of_pairwise hl h (List.getElem?_eq_getElem hi) (List.getElem?_eq_getElem hi₁)
    simp [Std.TransCmp.lt_trans hchain hend]
  · obtain rfl : i = l.length - 1 := by omega
    simp [hend]

/-- An element equal to the target is the last one not above it. -/
theorem seekForPrev_of_eq (hl : l.Pairwise (fun a b => cmp a b = .lt)) {t : α} {j : ℕ} {a : α}
    (hj : l[j]? = some a) (ha : cmp a t = .eq) : seekForPrev cmp l t = some j := by
  refine lastIdx?_eq_some hj (by simp [ha]) ?_
  intro i b hi hb
  have hgt : cmp b t = .gt := gt_of_not_lt hl hi hj hb (by simp [ha])
  simp [hgt]

/-- Before the first element not below the target, and above it, lies the last one not above
it. -/
theorem seekForPrev_of_gt (hl : l.Pairwise (fun a b => cmp a b = .lt)) {t : α} {j : ℕ} {a : α}
    (hs : seek cmp l t = some (j + 1)) (hj : l[j + 1]? = some a) (ha : cmp a t = .gt) :
    seekForPrev cmp l t = some j := by
  obtain ⟨-, hbefore⟩ := seek_eq_some hs
  obtain ⟨b, hb⟩ : ∃ b, l[j]? = some b := by
    obtain ⟨hlt, -⟩ := List.getElem?_eq_some_iff.mp hj
    exact ⟨_, List.getElem?_eq_getElem (Nat.lt_of_succ_lt hlt)⟩
  refine lastIdx?_eq_some hb (by simp [hbefore j b (Nat.lt_succ_self j) hb]) ?_
  intro i c hi hc
  rcases Nat.lt_or_eq_of_le (Nat.succ_le_of_lt hi) with h | rfl
  · have hgt : cmp c t = .gt := gt_of_not_lt hl h hj hc (by simp [ha])
    simp [hgt]
  · rw [hj] at hc
    obtain rfl := Option.some.inj hc
    simp [ha]

/-- Where the first element is above the target, no element is not above it. -/
theorem seekForPrev_of_first_gt (hl : l.Pairwise (fun a b => cmp a b = .lt)) {t : α} {a : α}
    (h0 : l[0]? = some a) (ha : cmp a t = .gt) : seekForPrev cmp l t = none := by
  apply lastIdx?_eq_none
  intro b hb
  obtain ⟨i, hi⟩ := List.mem_iff_getElem?.mp hb
  cases i with
  | zero =>
      rw [h0] at hi
      obtain rfl := Option.some.inj hi
      simp [ha]
  | succ i =>
      have hgt : cmp b t = .gt := gt_of_not_lt hl (Nat.succ_pos i) h0 hi (by simp [ha])
      simp [hgt]

/-- In a list where the elements with a property come first, those are a prefix. -/
theorem takeWhile_eq_filter {p : α → Bool} (h : l.Pairwise (fun a b => p b = true → p a = true)) :
    l.takeWhile p = l.filter p := by
  induction l with
  | nil => rfl
  | cons a l ih =>
      obtain ⟨ha, hl⟩ := List.pairwise_cons.mp h
      cases hp : p a with
      | true => rw [List.takeWhile_cons_of_pos hp, List.filter_cons_of_pos hp, ih hl]
      | false =>
          have hnone : ∀ b ∈ l, ¬ p b = true := by
            intro b hb hpb
            rw [ha b hb hpb] at hp
            cases hp
          rw [List.takeWhile_cons_of_neg (by simp [hp]), List.filter_cons_of_neg (by simp [hp]),
            List.filter_eq_nil_iff.mpr hnone]

theorem dropWhile_eq_filter {p : α → Bool} (h : l.Pairwise (fun a b => p b = true → p a = true)) :
    l.dropWhile p = l.filter (fun a => !p a) := by
  induction l with
  | nil => rfl
  | cons a l ih =>
      obtain ⟨ha, hl⟩ := List.pairwise_cons.mp h
      cases hp : p a with
      | true =>
          rw [List.dropWhile_cons_of_pos hp, List.filter_cons_of_neg (by simp [hp]), ih hl]
      | false =>
          have hall : ∀ b ∈ l, (!p b) = true := by
            intro b hb
            cases hpb : p b with
            | true => rw [ha b hb hpb] at hp; cases hp
            | false => rfl
          rw [List.dropWhile_cons_of_neg (by simp [hp]), List.filter_cons_of_pos (by simp [hp]),
            List.filter_eq_self.mpr hall]

/-- Insertion at the place of `a`, unless an equal element is there. -/
def insert (cmp : α → α → Ordering) (a : α) : List α → Option (List α)
  | [] => some [a]
  | b :: l => match cmp a b with
    | .lt => some (a :: b :: l)
    | .eq => none
    | .gt => (insert cmp a l).map (b :: ·)

omit [Std.TransCmp cmp] in
theorem insert_perm {a : α} {l' : List α} (h : insert cmp a l = some l') : l'.Perm (a :: l) := by
  induction l generalizing l' with
  | nil =>
      obtain rfl := Option.some.inj h
      rfl
  | cons b l ih =>
      rw [insert] at h
      split at h
      · obtain rfl := Option.some.inj h
        rfl
      · cases h
      · obtain ⟨l₁, hl₁, rfl⟩ := Option.map_eq_some_iff.mp h
        exact ((ih hl₁).cons b).trans (List.Perm.swap a b l)

theorem insert_sorted (hl : l.Pairwise (fun a b => cmp a b = .lt)) {a : α} {l' : List α}
    (h : insert cmp a l = some l') : l'.Pairwise (fun a b => cmp a b = .lt) := by
  induction l generalizing l' with
  | nil =>
      obtain rfl := Option.some.inj h
      exact List.pairwise_singleton _ a
  | cons b l ih =>
      obtain ⟨hb, hl₀⟩ := List.pairwise_cons.mp hl
      rw [insert] at h
      split at h
      · next hab =>
          obtain rfl := Option.some.inj h
          refine List.pairwise_cons.mpr ⟨?_, hl⟩
          intro c hc
          rcases List.mem_cons.mp hc with rfl | hc
          · exact hab
          · exact Std.TransCmp.lt_trans hab (hb c hc)
      · cases h
      · next hab =>
          obtain ⟨l₁, hl₁, rfl⟩ := Option.map_eq_some_iff.mp h
          refine List.pairwise_cons.mpr ⟨?_, ih hl₀ hl₁⟩
          intro c hc
          rcases List.mem_cons.mp ((insert_perm hl₁).mem_iff.mp hc) with rfl | hc
          · exact Std.OrientedCmp.gt_iff_lt.mp hab
          · exact hb c hc

omit [Std.TransCmp cmp] in
theorem insert_of_ne {a : α} (h : ∀ b ∈ l, cmp a b ≠ .eq) : ∃ l', insert cmp a l = some l' := by
  induction l with
  | nil => exact ⟨_, rfl⟩
  | cons b l ih =>
      obtain ⟨l', hl'⟩ := ih fun c hc => h c (List.mem_cons_of_mem _ hc)
      rw [insert]
      cases hab : cmp a b with
      | lt => exact ⟨_, rfl⟩
      | eq => exact absurd hab (h b List.mem_cons_self)
      | gt => exact ⟨_, by rw [hl']; rfl⟩

omit [Std.TransCmp cmp] in
theorem exists_of_insert_eq_none {a : α} (h : insert cmp a l = none) : ∃ b ∈ l, cmp a b = .eq := by
  by_contra hne
  obtain ⟨l', hl'⟩ := insert_of_ne (a := a) fun b hb heq => hne ⟨b, hb, heq⟩
  rw [h] at hl'
  cases hl'

/-- A comparison is that of a linear order, in which what compares equal is one element. -/
theorem exists_linearOrder (cmp : α → α → Ordering) [Std.TransCmp cmp] :
    ∃ (κ : Type) (_ : LinearOrder κ) (f : α → κ), ∀ a b, cmp a b = compare (f a) (f b) := by
  classical
  have hswap : ∀ a b, cmp b a = (cmp a b).swap := fun a b => Std.OrientedCmp.eq_swap
  let order : Preorder α :=
    { le := fun a b => (cmp a b).isLE
      le_refl := fun a => by
        have hself : cmp a a = .eq := Std.ReflCmp.compare_self
        rw [hself]
        rfl
      le_trans := fun a b c => Std.TransCmp.isLE_trans }
  have hlt : ∀ a b : α, a < b ↔ cmp a b = .lt := by
    intro a b
    rw [lt_iff_le_not_ge]
    change (cmp a b).isLE ∧ ¬ (cmp b a).isLE ↔ _
    rw [hswap a b]
    cases cmp a b <;> simp
  have htotal : Std.Total (fun a b : α => a ≤ b) := ⟨fun a b => by
    change (cmp a b).isLE ∨ (cmp b a).isLE
    rw [hswap a b]
    cases cmp a b <;> simp⟩
  refine ⟨Antisymmetrization α (· ≤ ·), inferInstance, toAntisymmetrization (· ≤ ·), ?_⟩
  intro a b
  have hlt' := toAntisymmetrization_lt_toAntisymmetrization_iff (a := a) (b := b)
  have hgt' := toAntisymmetrization_lt_toAntisymmetrization_iff (a := b) (b := a)
  rw [hlt] at hlt' hgt'
  rw [hswap a b] at hgt'
  symm
  cases h : cmp a b with
  | lt => exact compare_lt_iff_lt.mpr (hlt'.mpr h)
  | gt => exact compare_gt_iff_gt.mpr (hgt'.mpr (by rw [h]; rfl))
  | eq =>
      rw [compare_eq_iff_eq]
      apply le_antisymm
      · exact not_lt.mp fun hlt'' => absurd (hgt'.mp hlt'') (by rw [h]; decide)
      · exact not_lt.mp fun hlt'' => absurd (hlt'.mp hlt'') (by rw [h]; decide)

end Tweezer.OrderedCursor
