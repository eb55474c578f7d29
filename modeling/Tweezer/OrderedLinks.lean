import Mathlib.Data.Set.Card
import Mathlib.Data.List.Sort
import Mathlib.Order.WithBot
import Mathlib.Logic.Function.Basic

/-!
# Sets linked in order

A set of elements, each of which has a position in a linear order, is kept as links: the head
and every element lead to the first element behind them. A pointer is an element or nothing;
as the origin of a link nothing is the head, and as its target it is the end. Where a pointer
lies is `below` for the first use and `above` for the second.
-/

namespace Tweezer.OrderedLinks

variable {ν α : Type} (pos : ν → α)

/-- The elements behind a pointer, by its links; `fuel` bounds their number. -/
def walk (next : Option ν → Option ν) : ℕ → Option ν → List ν
  | 0, _ => []
  | fuel + 1, p => match next p with
    | none => []
    | some n => n :: walk next fuel (some n)

/-- The position of an origin; the head comes before everything. -/
def below : Option ν → WithBot α
  | none => ⊥
  | some n => (pos n : WithBot α)

/-- The position of a target; the end comes after everything. -/
def above : Option ν → WithTop α
  | none => ⊤
  | some n => (pos n : WithTop α)

@[simp] theorem below_none : below pos none = ⊥ := rfl

@[simp] theorem below_some (n : ν) : below pos (some n) = (pos n : WithBot α) := rfl

@[simp] theorem above_none : above pos none = ⊤ := rfl

@[simp] theorem above_some (n : ν) : above pos (some n) = (pos n : WithTop α) := rfl

/-- A pointer to an element of the set, or to nothing. -/
def InList (S : Set ν) (p : Option ν) : Prop := ∀ n ∈ p, n ∈ S

theorem InList.mono {S S' : Set ν} (hsub : S ⊆ S') {p : Option ν} (h : InList S p) :
    InList S' p :=
  fun n hn => hsub (h n hn)

@[simp] theorem inList_none (S : Set ν) : InList S none := by
  rintro n ⟨⟩

@[simp] theorem inList_some {S : Set ν} {n : ν} : InList S (some n) ↔ n ∈ S := by
  simp [InList]

variable [LinearOrder α]

/-- Every link leads to the first element behind its origin. -/
structure Linked (next : Option ν → Option ν) (S : Set ν) : Prop where
  inj : S.InjOn pos
  inList : ∀ p, InList S p → InList S (next p)
  below_lt : ∀ p, InList S p → ∀ n ∈ next p, below pos p < pos n
  first : ∀ p, InList S p → ∀ n ∈ S, below pos p < pos n → above pos (next p) ≤ pos n

/-- The first element at `t` or behind it. -/
def FirstFrom (S : Set ν) (t : α) (q : Option ν) : Prop :=
  InList S q ∧ t ≤ above pos q ∧ ∀ n ∈ S, t ≤ pos n → above pos q ≤ pos n

/-- The last element before `t`. -/
def LastBefore (S : Set ν) (t : α) (p : Option ν) : Prop :=
  InList S p ∧ below pos p < t ∧ ∀ n ∈ S, pos n < t → pos n ≤ below pos p

variable {pos} {next : Option ν → Option ν} {S : Set ν}

theorem linked_empty (h : next none = none) : Linked pos next ∅ := by
  have hnone : ∀ p : Option ν, InList ∅ p → p = none := by
    intro p hp
    cases p with
    | none => rfl
    | some n => exact absurd (hp n rfl) (Set.notMem_empty n)
  constructor
  · exact Set.injOn_empty pos
  · intro p hp
    rw [hnone p hp, h]
    exact inList_none _
  · intro p hp n hn
    rw [hnone p hp, h] at hn
    cases hn
  · intro p _ n hn
    exact absurd hn (Set.notMem_empty n)

namespace Linked

/-- The end of a search for `t`: the link that crosses it. -/
theorem firstFrom (h : Linked pos next S) {p : Option ν} {t : α} (hp : InList S p)
    (hlt : below pos p < t) (hle : t ≤ above pos (next p)) : FirstFrom pos S t (next p) := by
  refine ⟨h.inList p hp, hle, fun n hn ht => h.first p hp n hn ?_⟩
  exact lt_of_lt_of_le hlt (WithBot.coe_le_coe.mpr ht)

theorem lastBefore (h : Linked pos next S) {p : Option ν} {t : α} (hp : InList S p)
    (hlt : below pos p < t) (hle : t ≤ above pos (next p)) : LastBefore pos S t p := by
  refine ⟨hp, hlt, fun n hn ht => ?_⟩
  by_contra hnot
  have hfirst := h.first p hp n hn (lt_of_not_ge hnot)
  exact absurd (hle.trans hfirst) (not_le.mpr (WithTop.coe_lt_coe.mpr ht))

/-- An element at `t` itself is the first one from `t`. -/
theorem firstFrom_of_eq {n : ν} {t : α} (hn : n ∈ S) (ht : pos n = t) :
    FirstFrom pos S t (some n) := by
  refine ⟨inList_some.mpr hn, ?_, fun m _ hm => ?_⟩
  · rw [above_some, ht]
  · rw [above_some, ht]
    exact WithTop.coe_le_coe.mpr hm

/-- A link that leads past `t` passes over every element up to it. -/
theorem above_next_le (h : Linked pos next S) {p q : Option ν} {t : α} (hp : InList S p)
    (hlt : below pos p < t) (hq : InList S q) (hle : t ≤ above pos q) :
    above pos (next p) ≤ above pos q := by
  cases q with
  | none => exact le_top
  | some n =>
      refine h.first p hp n (inList_some.mp hq) (lt_of_lt_of_le hlt ?_)
      exact WithBot.coe_le_coe.mpr (WithTop.coe_le_coe.mp hle)

/-- The links of what is not in the set do not matter. -/
theorem update_of_notMem [DecidableEq ν] (h : Linked pos next S) {x : ν} (hx : x ∉ S)
    (q : Option ν) : Linked pos (Function.update next (some x) q) S := by
  have hsame : ∀ p, InList S p → Function.update next (some x) q p = next p := by
    intro p hp
    apply Function.update_of_ne
    rintro rfl
    exact hx (inList_some.mp hp)
  constructor
  · exact h.inj
  · intro p hp
    rw [hsame p hp]
    exact h.inList p hp
  · intro p hp
    rw [hsame p hp]
    exact h.below_lt p hp
  · intro p hp
    rw [hsame p hp]
    exact h.first p hp

/-- Two origins before `x`, one of which is the last one: the other's link ends before `x`. -/
theorem above_next_lt (h : Linked pos next S) {p q : Option ν} {t : α} (hp : InList S p)
    (hgt : t < above pos (next p)) (hq : InList S q) (hne : q ≠ p) (hqt : below pos q < t)
    (hpt : below pos p < t) : above pos (next q) < t := by
  cases p with
  | none =>
      cases q with
      | none => exact absurd rfl hne
      | some m =>
          have hm := h.first none hp m (inList_some.mp hq) (WithBot.bot_lt_coe _)
          exact absurd (hgt.trans_le hm) (not_lt.mpr (WithTop.coe_le_coe.mpr
            (WithBot.coe_lt_coe.mp hqt).le))
  | some n =>
      have hn := inList_some.mp hp
      have hnt : (pos n : WithTop α) < t := WithTop.coe_lt_coe.mpr (WithBot.coe_lt_coe.mp hpt)
      by_cases hqn : below pos q < pos n
      · exact (h.first q hq n hn hqn).trans_lt hnt
      · cases q with
        | none => exact absurd (WithBot.bot_lt_coe _) hqn
        | some m =>
            have hm := inList_some.mp hq
            rcases lt_or_eq_of_le (not_lt.mp fun hlt => hqn (WithBot.coe_lt_coe.mpr hlt)) with
              hlt | heq
            · have hfirst := h.first (some n) hp m hm (WithBot.coe_lt_coe.mpr hlt)
              exact absurd (hgt.trans_le hfirst) (not_lt.mpr (WithTop.coe_le_coe.mpr
                (WithBot.coe_lt_coe.mp hqt).le))
            · exact absurd (congrArg some (h.inj hm hn heq.symm)) hne

/-- An element is put behind the last one before it. -/
theorem insert [DecidableEq ν] (h : Linked pos next S) {p : Option ν} {x : ν} (hp : InList S p)
    (hlt : below pos p < pos x) (hgt : pos x < above pos (next p)) :
    Linked pos (Function.update (Function.update next (some x) (next p)) p (some x))
      (insert x S) := by
  have hx : x ∉ S := by
    intro hx
    exact absurd (h.first p hp x hx hlt) (not_le.mpr hgt)
  have hpx : p ≠ some x := by
    rintro rfl
    exact hx (inList_some.mp hp)
  have hsub : S ⊆ Insert.insert x S := Set.subset_insert x S
  -- an origin is the one before `x`, `x` itself, or one whose link stays
  have hcases : ∀ q, InList (Insert.insert x S) q → q = p ∨ q = some x ∨
      (InList S q ∧ q ≠ p ∧ q ≠ some x) := by
    intro q hq
    by_cases hqp : q = p
    · exact Or.inl hqp
    · by_cases hqx : q = some x
      · exact Or.inr (Or.inl hqx)
      · refine Or.inr (Or.inr ⟨fun n hn => ?_, hqp, hqx⟩)
        cases hn
        exact (hq n rfl).resolve_left fun heq => hqx (congrArg some heq)
  constructor
  · rw [Set.injOn_insert hx]
    refine ⟨h.inj, ?_⟩
    rintro ⟨n, hn, heq⟩
    have hfirst := h.first p hp n hn (by rw [heq]; exact hlt)
    rw [heq] at hfirst
    exact absurd hfirst (not_le.mpr hgt)
  · intro q hq
    rcases hcases q hq with rfl | rfl | ⟨hqS, hqp, hqx⟩
    · rw [Function.update_self]
      exact inList_some.mpr (Set.mem_insert x S)
    · rw [Function.update_of_ne hpx.symm, Function.update_self]
      exact (h.inList p hp).mono hsub
    · rw [Function.update_of_ne hqp, Function.update_of_ne hqx]
      exact (h.inList q hqS).mono hsub
  · intro q hq n hn
    rcases hcases q hq with rfl | rfl | ⟨hqS, hqp, hqx⟩
    · rw [Function.update_self] at hn
      cases hn
      exact hlt
    · rw [Function.update_of_ne hpx.symm, Function.update_self] at hn
      cases hn' : next p with
      | none => rw [hn'] at hn; cases hn
      | some m =>
          rw [hn'] at hn hgt
          cases hn
          exact WithBot.coe_lt_coe.mpr (WithTop.coe_lt_coe.mp hgt)
    · rw [Function.update_of_ne hqp, Function.update_of_ne hqx] at hn
      exact h.below_lt q hqS n hn
  · intro q hq n hn hqn
    rcases hcases q hq with rfl | rfl | ⟨hqS, hqp, hqx⟩
    · rw [Function.update_self]
      rcases hn with rfl | hn
      · exact le_rfl
      · have hfirst := h.first q hp n hn hqn
        exact (hgt.trans_le hfirst).le
    · rw [Function.update_of_ne hpx.symm, Function.update_self]
      rcases hn with rfl | hn
      · exact absurd hqn (lt_irrefl _)
      · exact h.first p hp n hn (hlt.trans hqn)
    · rw [Function.update_of_ne hqp, Function.update_of_ne hqx]
      rcases hn with rfl | hn
      · exact (h.above_next_lt hp hgt hqS hqp hqn hlt).le
      · exact h.first q hqS n hn hqn


/-- Behind the next element there is one element less. -/
theorem ncard_behind_lt (h : Linked pos next S) (hfin : S.Finite) {p : Option ν} {m : ν}
    (hp : InList S p) (hnext : next p = some m) :
    {n ∈ S | below pos (some m) < pos n}.ncard < {n ∈ S | below pos p < pos n}.ncard := by
  have hm : m ∈ S := by
    have hin := h.inList p hp
    rw [hnext] at hin
    exact inList_some.mp hin
  have hpm := h.below_lt p hp m hnext
  have hsub : {n ∈ S | below pos (some m) < pos n} ⊂ {n ∈ S | below pos p < pos n} := by
    refine ⟨fun n hn => ⟨hn.1, hpm.trans hn.2⟩, fun hback => ?_⟩
    exact absurd (hback ⟨hm, hpm⟩).2 (lt_irrefl _)
  exact Set.ncard_lt_ncard hsub (hfin.subset (Set.sep_subset _ _))

/-- What the walk behind `p` goes over, and in which order. -/
theorem walk_spec (h : Linked pos next S) (hfin : S.Finite) {fuel : ℕ} {p : Option ν}
    (hp : InList S p) (hfuel : {n ∈ S | below pos p < pos n}.ncard ≤ fuel) :
    (walk next fuel p).Pairwise (fun a b => pos a < pos b) ∧
      ∀ n, n ∈ walk next fuel p ↔ n ∈ S ∧ below pos p < pos n := by
  induction fuel generalizing p with
  | zero =>
      have hempty := (Set.ncard_eq_zero (hfin.subset (Set.sep_subset _ _))).mp
        (Nat.le_zero.mp hfuel)
      refine ⟨.nil, fun n => ⟨fun hn => (List.not_mem_nil hn).elim, fun hn => ?_⟩⟩
      exact absurd (show n ∈ {n ∈ S | below pos p < pos n} from hn)
        (by rw [hempty]; exact Set.notMem_empty n)
  | succ fuel ih =>
      rw [walk]
      cases hnext : next p with
      | none =>
          refine ⟨.nil, fun n => ⟨fun hn => (List.not_mem_nil hn).elim, fun hn => ?_⟩⟩
          have hfirst := h.first p hp n hn.1 hn.2
          rw [hnext, above_none] at hfirst
          exact absurd hfirst (not_le.mpr (WithTop.coe_lt_top _))
      | some m =>
          have hm : m ∈ S := by
            have := h.inList p hp
            rw [hnext] at this
            exact inList_some.mp this
          have hpm := h.below_lt p hp m hnext
          have hless := h.ncard_behind_lt hfin hp hnext
          obtain ⟨hsorted, hmem⟩ := ih (inList_some.mpr hm) (by omega)
          refine ⟨List.pairwise_cons.mpr ⟨fun n hn => ?_, hsorted⟩, fun n => ?_⟩
          · exact WithBot.coe_lt_coe.mp ((hmem n).mp hn).2
          · rw [List.mem_cons, hmem]
            constructor
            · rintro (rfl | ⟨hn, hlt⟩)
              · exact ⟨hm, hpm⟩
              · exact ⟨hn, hpm.trans hlt⟩
            · rintro ⟨hn, hlt⟩
              have hfirst := h.first p hp n hn hlt
              rw [hnext] at hfirst
              rcases lt_or_eq_of_le (WithTop.coe_le_coe.mp hfirst) with hmn | heq
              · exact Or.inr ⟨hn, WithBot.coe_lt_coe.mpr hmn⟩
              · exact Or.inl (h.inj hn hm heq.symm)

end Linked

theorem antisymm_pos (pos : ν → α) : Std.Antisymm (fun a b => pos a < pos b) :=
  ⟨fun _ _ hab hba => absurd hba hab.asymm⟩

/-- A walk in order is known by what it meets. -/
theorem walk_congr {l l' : List ν} (hl : l.Pairwise (fun a b => pos a < pos b))
    (hl' : l'.Pairwise (fun a b => pos a < pos b)) (hmem : ∀ n, n ∈ l ↔ n ∈ l') : l = l' := by
  have := antisymm_pos pos
  have : Std.Irrefl (fun a b => pos a < pos b) := ⟨fun _ => lt_irrefl _⟩
  exact hl.eq_of_mem_iff hl' hmem

/-- The first element of a walk in order with a property is the least one that has it. -/
theorem find?_eq_some {l : List ν} (hl : l.Pairwise (fun a b => pos a < pos b)) {p : ν → Bool}
    {n : ν} (hn : n ∈ l) (hp : p n = true) (hle : ∀ m ∈ l, p m = true → pos n ≤ pos m) :
    l.find? p = some n := by
  induction l with
  | nil => exact absurd hn List.not_mem_nil
  | cons m l ih =>
      obtain ⟨hm, hl⟩ := List.pairwise_cons.mp hl
      rcases List.mem_cons.mp hn with rfl | hnl
      · exact List.find?_cons_of_pos hp
      · have hpm : ¬ p m = true := fun hpm =>
          absurd (hle m List.mem_cons_self hpm) (not_le.mpr (hm n hnl))
        rw [List.find?_cons_of_neg hpm]
        exact ih hl hnl fun k hk => hle k (List.mem_cons_of_mem _ hk)

/-- The same from the other end. -/
theorem find?_reverse_eq_some {l : List ν} (hl : l.Pairwise (fun a b => pos a < pos b))
    {p : ν → Bool} {n : ν} (hn : n ∈ l) (hp : p n = true)
    (hle : ∀ m ∈ l, p m = true → pos m ≤ pos n) : l.reverse.find? p = some n := by
  have hdual : l.reverse.Pairwise (fun a b => OrderDual.toDual (pos a) < OrderDual.toDual (pos b)) :=
    List.pairwise_reverse.mpr hl
  apply find?_eq_some hdual (List.mem_reverse.mpr hn) hp
  intro m hm
  exact hle m (List.mem_reverse.mp hm)

end Tweezer.OrderedLinks
