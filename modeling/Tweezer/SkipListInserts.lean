import Tweezer.InlineSkipList
import Tweezer.OrderedCursor

/-!
# Inserts into the skip list

What a call of `Insert` knows at each of its stages, and that every step of it keeps the
levels linked in order. `S i` is the set of the nodes on level `i`; a level is a subset of the
one below it. All that a call knows stays true while other calls put their nodes in, which
`Inserting.Inv.grow` says once for all of them.
-/

namespace Tweezer

open OrderedLinks InlineSkipList

variable {κ α : Type} [LinearOrder α]

/-- Where a node lies, by its key. -/
def SkipNode.pos (f : κ → α) (n : SkipNode κ) : α := f n.key

/-- The sets of nodes of the levels. -/
abbrev LevelSets (κ : Type) := ℕ → Set (SkipNode κ)

/-- Every level is linked in order and holds nodes of the level below that reach to it. -/
structure InlineSkipList.Levels (f : κ → α) (s : InlineSkipList κ) (S : LevelSets κ) : Prop where
  linked : ∀ i, Linked (SkipNode.pos f) (s.next i) (S i)
  succ_subset : ∀ i, S (i + 1) ⊆ S i
  lt_height : ∀ i, ∀ n ∈ S i, i < n.height
  one_le : 1 ≤ s.maxHeight

/-- From level `lo` on a splice holds nodes of the levels, closer together further down. -/
structure Splice.From (f : κ → α) (S : LevelSets κ) (p : Splice κ) (lo : ℕ) : Prop where
  prevTop : p.prev p.height = none
  nextTop : p.next p.height = none
  prevIn : ∀ i, lo ≤ i → i ≤ p.height → InList (S i) (p.prev i)
  nextIn : ∀ i, lo ≤ i → i ≤ p.height → InList (S i) (p.next i)
  prevLe : ∀ i, lo ≤ i → i < p.height →
    below (SkipNode.pos f) (p.prev (i + 1)) ≤ below (SkipNode.pos f) (p.prev i)
  nextLe : ∀ i, lo ≤ i → i < p.height →
    above (SkipNode.pos f) (p.next i) ≤ above (SkipNode.pos f) (p.next (i + 1))

/-- A splice that a call may begin with. -/
def Splice.Usable (f : κ → α) (s : InlineSkipList κ) (S : LevelSets κ) (p : Splice κ) : Prop :=
  p.height ≤ s.maxHeight ∧ (p.height = 0 ∨ p.From f S 0)

namespace Inserting

/-- The position of the node that is put in. -/
def target (f : κ → α) (c : Inserting κ) : α := c.x.pos f

/-- The splice is used up to the height that the call read, which suffices for its node. -/
structure Sized (s : InlineSkipList κ) (c : Inserting κ) : Prop where
  maxHeight_eq : c.maxHeight = c.splice.height
  height_le : c.x.height ≤ c.splice.height
  le_maxHeight : c.splice.height ≤ s.maxHeight

/-- The key lies between the two nodes of level `j`. -/
def Between (f : κ → α) (c : Inserting κ) (j : ℕ) : Prop :=
  below (SkipNode.pos f) (c.splice.prev j) < c.target f ∧
    c.target f ≤ above (SkipNode.pos f) (c.splice.next j)

/-- While no other call inserts, the links found for levels to come stay as they are. -/
def Tight (s : InlineSkipList κ) (c : Inserting κ) (lo : ℕ) : Prop :=
  c.useCas = false → ∀ j, lo ≤ j → j < c.recomputeHeight →
    s.next j (c.splice.prev j) = c.splice.next j

structure Searching (f : κ → α) (s : InlineSkipList κ) (S : LevelSets κ) (c : Inserting κ)
    (i : ℕ) (before after : Option (SkipNode κ)) : Prop where
  unlinked : ∀ j, c.x ∉ S j
  sized : c.Sized s
  valid : c.spliceIsValid = true
  lt_recompute : i < c.recomputeHeight
  recompute_le : c.recomputeHeight ≤ c.splice.height
  from_ : c.splice.From f S (i + 1)
  between : ∀ j, i < j → j ≤ c.splice.height → c.Between f j
  tight : c.Tight s (i + 1)
  beforeIn : InList (S i) before
  prev_le : below (SkipNode.pos f) (c.splice.prev (i + 1)) ≤ below (SkipNode.pos f) before
  before_lt : below (SkipNode.pos f) before < c.target f
  le_after : c.target f ≤ above (SkipNode.pos f) after

structure Linking (f : κ → α) (s : InlineSkipList κ) (S : LevelSets κ) (c : Inserting κ)
    (i : ℕ) : Prop where
  linked : ∀ j, c.x ∈ S j ↔ j < i
  le_height : i ≤ c.x.height
  sized : c.Sized s
  from_ : c.splice.From f S c.x.height
  prevIn : ∀ j ≤ c.splice.height, InList (S j) (c.splice.prev j)
  nextIn : ∀ j ≤ c.splice.height, InList (S j) (c.splice.next j)
  between : ∀ j ≤ c.splice.height, c.Between f j
  nextLe : c.spliceIsValid = true → ∀ j < c.splice.height,
    above (SkipNode.pos f) (c.splice.next j) ≤ above (SkipNode.pos f) (c.splice.next (j + 1))
  /-- Until the first link the whole splice is as it was found. -/
  untouched : i = 0 → c.spliceIsValid = true ∧ ∀ j < c.splice.height,
    below (SkipNode.pos f) (c.splice.prev (j + 1)) ≤ below (SkipNode.pos f) (c.splice.prev j)
  tight : c.Tight s i
  /-- Nothing was linked behind the node by another call. -/
  snug : c.useCas = false → ∀ j < i, ∀ n ∈ S j, c.target f < n.pos f →
    above (SkipNode.pos f) (c.splice.next j) ≤ n.pos f

/-- What a call knows. -/
def Inv (f : κ → α) (s : InlineSkipList κ) (S : LevelSets κ) (c : Inserting κ) : Prop :=
  1 ≤ c.x.height ∧
  match c.stage with
  | .start => c.splice.Usable f s S ∧ (∀ j, c.x ∉ S j) ∧ c.spliceIsValid = true
  | .raise m => c.splice.Usable f s S ∧ (∀ j, c.x ∉ S j) ∧ c.spliceIsValid = true ∧ 1 ≤ m ∧
      m ≤ s.maxHeight ∧ c.splice.height ≤ m
  | .validate r => c.Sized s ∧ c.splice.From f S 0 ∧ (∀ j, c.x ∉ S j) ∧
      c.spliceIsValid = true ∧ r ≤ c.splice.height
  | .search i before after => c.Searching f s S i before after
  | .link i => c.Linking f s S i
  | .again i before => c.Linking f s S i ∧ i < c.x.height ∧ InList (S i) before ∧
      below (SkipNode.pos f) (c.splice.prev i) ≤ below (SkipNode.pos f) before ∧
      below (SkipNode.pos f) before < c.target f
  | .returned true => c.splice.Usable f s S ∧ ∀ j, c.x ∈ S j ↔ j < c.x.height
  | .returned false => c.splice.Usable f s S ∧ (∀ j, c.x ∉ S j) ∧ ∃ n ∈ S 0, n.pos f = c.target f

end Inserting

/-! ### Other calls -/

variable {f : κ → α} {s s' : InlineSkipList κ} {S S' : LevelSets κ}

theorem InlineSkipList.Levels.subset (h : s.Levels f S) {i j : ℕ} (hij : i ≤ j) : S j ⊆ S i :=
  antitone_nat_of_succ_le h.succ_subset hij

theorem Splice.From.mono {p : Splice κ} {lo : ℕ} (h : p.From f S lo) (hsub : ∀ i, S i ⊆ S' i) :
    p.From f S' lo :=
  { h with
    prevIn := fun i hlo hi => (h.prevIn i hlo hi).mono (hsub i)
    nextIn := fun i hlo hi => (h.nextIn i hlo hi).mono (hsub i) }

theorem Splice.From.weaken {p : Splice κ} {lo lo' : ℕ} (h : p.From f S lo) (hle : lo ≤ lo') :
    p.From f S lo' where
  prevTop := h.prevTop
  nextTop := h.nextTop
  prevIn := fun i hlo hi => h.prevIn i (hle.trans hlo) hi
  nextIn := fun i hlo hi => h.nextIn i (hle.trans hlo) hi
  prevLe := fun i hlo hi => h.prevLe i (hle.trans hlo) hi
  nextLe := fun i hlo hi => h.nextLe i (hle.trans hlo) hi

theorem Splice.Usable.mono {p : Splice κ} (h : p.Usable f s S) (hsub : ∀ i, S i ⊆ S' i)
    (hle : s.maxHeight ≤ s'.maxHeight) : p.Usable f s' S' :=
  ⟨h.1.trans hle, h.2.imp_right fun hfrom => hfrom.mono hsub⟩

theorem Splice.usable_unused : (Splice.unused : Splice κ).Usable f s S :=
  ⟨Nat.zero_le _, Or.inl rfl⟩

namespace Inserting

variable {c : Inserting κ}

/-- What a call knows outlives what other calls do. Those that run without exchanges run
alone. -/
theorem Inv.grow (h : c.Inv f s S) (hsub : ∀ i, S i ⊆ S' i) (hx : ∀ j, c.x ∈ S' j ↔ c.x ∈ S j)
    (hle : s.maxHeight ≤ s'.maxHeight) (halone : c.useCas = true ∨ ∃ b, c.stage = .returned b) :
    c.Inv f s' S' := by
  obtain ⟨hheight, h⟩ := h
  refine ⟨hheight, ?_⟩
  have hunlinked : (∀ j, c.x ∉ S j) → ∀ j, c.x ∉ S' j := fun hnot j hj => hnot j ((hx j).mp hj)
  have hsized : c.Sized s → c.Sized s' := fun h => { h with le_maxHeight := h.le_maxHeight.trans hle }
  have hquiet : ∀ {P : Prop}, (∀ b, c.stage ≠ .returned b) → c.useCas = false → P := by
    intro P hstage hcas
    rcases halone with h | ⟨b, h⟩
    · rw [hcas] at h
      cases h
    · exact absurd h (hstage b)
  have hlink : ∀ i, (∀ b, c.stage ≠ .returned b) → c.Linking f s S i → c.Linking f s' S' i := by
    intro i hstage h
    exact { h with
      linked := fun j => (hx j).trans (h.linked j)
      sized := hsized h.sized
      from_ := h.from_.mono hsub
      prevIn := fun j hj => (h.prevIn j hj).mono (hsub j)
      nextIn := fun j hj => (h.nextIn j hj).mono (hsub j)
      tight := hquiet hstage
      snug := hquiet hstage }
  cases hstage : c.stage with
  | start =>
      rw [hstage] at h
      exact ⟨h.1.mono hsub hle, hunlinked h.2.1, h.2.2⟩
  | raise m =>
      rw [hstage] at h
      obtain ⟨husable, hnot, hvalid, hone, hm, hsplice⟩ := h
      exact ⟨husable.mono hsub hle, hunlinked hnot, hvalid, hone, hm.trans hle, hsplice⟩
  | validate r =>
      rw [hstage] at h
      obtain ⟨hsize, hfrom, hnot, hvalid, hr⟩ := h
      exact ⟨hsized hsize, hfrom.mono hsub, hunlinked hnot, hvalid, hr⟩
  | search i before after =>
      rw [hstage] at h
      exact { h with
        unlinked := hunlinked h.unlinked
        sized := hsized h.sized
        from_ := h.from_.mono hsub
        tight := hquiet (by rw [hstage]; rintro b ⟨⟩)
        beforeIn := h.beforeIn.mono (hsub i) }
  | link i =>
      rw [hstage] at h
      exact hlink i (by rw [hstage]; rintro b ⟨⟩) h
  | again i before =>
      rw [hstage] at h
      obtain ⟨hl, hi, hin, hle, hlt⟩ := h
      exact ⟨hlink i (by rw [hstage]; rintro b ⟨⟩) hl, hi, hin.mono (hsub i), hle, hlt⟩
  | returned b =>
      rw [hstage] at h
      cases b with
      | true => exact ⟨h.1.mono hsub hle, fun j => (hx j).trans (h.2 j)⟩
      | false =>
          obtain ⟨husable, hnot, n, hn, heq⟩ := h
          exact ⟨husable.mono hsub hle, hunlinked hnot, n, hsub 0 hn, heq⟩

end Inserting

/-! ### The splice -/

namespace Splice

variable {p : Splice κ} {i j : ℕ} {before next : Option (SkipNode κ)}

@[simp] theorem set_height : (p.set i before next).height = p.height := rfl

@[simp] theorem set_prev_self : (p.set i before next).prev i = before := Function.update_self _ _ _

@[simp] theorem set_next_self : (p.set i before next).next i = next := Function.update_self _ _ _

theorem set_prev_of_ne (h : j ≠ i) : (p.set i before next).prev j = p.prev j :=
  Function.update_of_ne h _ _

theorem set_next_of_ne (h : j ≠ i) : (p.set i before next).next j = p.next j :=
  Function.update_of_ne h _ _

/-- Before anything is found. -/
theorem from_top (hprev : p.prev p.height = none) (hnext : p.next p.height = none) :
    p.From f S p.height := by
  constructor
  · exact hprev
  · exact hnext
  · intro i hi hi'
    obtain rfl := le_antisymm hi' hi
    rw [hprev]
    exact inList_none _
  · intro i hi hi'
    obtain rfl := le_antisymm hi' hi
    rw [hnext]
    exact inList_none _
  · intro i hi hi'
    exact absurd (hi.trans_lt hi') (lt_irrefl _)
  · intro i hi hi'
    exact absurd (hi.trans_lt hi') (lt_irrefl _)

/-- One more level of a splice is found. -/
theorem From.set (h : p.From f S (i + 1)) (hi : i < p.height) (hbefore : InList (S i) before)
    (hnext : InList (S i) next)
    (hprev : below (SkipNode.pos f) (p.prev (i + 1)) ≤ below (SkipNode.pos f) before)
    (hle : above (SkipNode.pos f) next ≤ above (SkipNode.pos f) (p.next (i + 1))) :
    (p.set i before next).From f S i := by
  constructor
  · rw [set_height, set_prev_of_ne hi.ne']
    exact h.prevTop
  · rw [set_height, set_next_of_ne hi.ne']
    exact h.nextTop
  · intro j hj hjh
    rcases Nat.eq_or_lt_of_le hj with rfl | hlt
    · rw [set_prev_self]
      exact hbefore
    · rw [set_prev_of_ne hlt.ne']
      exact h.prevIn j hlt hjh
  · intro j hj hjh
    rcases Nat.eq_or_lt_of_le hj with rfl | hlt
    · rw [set_next_self]
      exact hnext
    · rw [set_next_of_ne hlt.ne']
      exact h.nextIn j hlt hjh
  · intro j hj hjh
    rcases Nat.eq_or_lt_of_le hj with rfl | hlt
    · rw [set_prev_self, set_prev_of_ne (Nat.succ_ne_self i)]
      exact hprev
    · rw [set_prev_of_ne hlt.ne', set_prev_of_ne (by omega)]
      exact h.prevLe j hlt hjh
  · intro j hj hjh
    rcases Nat.eq_or_lt_of_le hj with rfl | hlt
    · rw [set_next_self, set_next_of_ne (Nat.succ_ne_self i)]
      exact hle
    · rw [set_next_of_ne hlt.ne', set_next_of_ne (by omega)]
      exact h.nextLe j hlt hjh

/-- What brackets a position on one level does so on all levels above. -/
theorem From.between (h : p.From f S i) {t : α}
    (hlt : below (SkipNode.pos f) (p.prev i) < t) (hle : t ≤ above (SkipNode.pos f) (p.next i))
    (hij : i ≤ j) (hj : j ≤ p.height) :
    below (SkipNode.pos f) (p.prev j) < t ∧ t ≤ above (SkipNode.pos f) (p.next j) := by
  induction j, hij using Nat.le_induction with
  | base => exact ⟨hlt, hle⟩
  | succ j hij ih =>
      obtain ⟨hprev, hnext⟩ := ih (by omega)
      exact ⟨(h.prevLe j hij (by omega)).trans_lt hprev, hnext.trans (h.nextLe j hij (by omega))⟩

end Splice

section Turns

variable {cmp : κ → κ → Ordering} (hf : ∀ a b, cmp a b = compare (f a) (f b))
include hf

theorem InlineSkipList.keyIsAfterNode_iff {key : κ} {q : Option (SkipNode κ)} :
    keyIsAfterNode cmp key q = true ↔ above (SkipNode.pos f) q < f key := by
  cases q with
  | none => simp [keyIsAfterNode]
  | some n =>
      rw [keyIsAfterNode, decide_eq_true_iff, hf, compare_lt_iff_lt, above_some, WithTop.coe_lt_coe]
      rfl

theorem InlineSkipList.keyIsAfterNode_prev {key : κ} {p : Option (SkipNode κ)} (hp : p ≠ none) :
    keyIsAfterNode cmp key p = true ↔ below (SkipNode.pos f) p < f key := by
  rw [keyIsAfterNode_iff hf]
  cases p with
  | none => exact absurd rfl hp
  | some n => rw [above_some, below_some, WithTop.coe_lt_coe, WithBot.coe_lt_coe]

namespace Inserting

variable {c : Inserting κ} {i : ℕ} {before after : Option (SkipNode κ)}

omit [LinearOrder α] hf in
/-- The stage is not part of what the call knows of the splice. -/
theorem Sized.of_eq {c' : Inserting κ} (h : c.Sized s) (hx : c'.x = c.x)
    (hsplice : c'.splice.height = c.splice.height) (hmax : c'.maxHeight = c.maxHeight)
    (hle : s.maxHeight ≤ s'.maxHeight) : c'.Sized s' := by
  constructor
  · rw [hmax, hsplice]
    exact h.maxHeight_eq
  · rw [hx, hsplice]
    exact h.height_le
  · rw [hsplice]
    exact h.le_maxHeight.trans hle

/-- A link that the search follows. -/
theorem followed (hlev : s.Levels f S) (hin : InList (S i) before)
    (hafter : keyIsAfterNode cmp c.x.key (s.next i before) = true) :
    InList (S i) (s.next i before) ∧
      below (SkipNode.pos f) before ≤ below (SkipNode.pos f) (s.next i before) ∧
      below (SkipNode.pos f) (s.next i before) < c.target f := by
  have hlt := (keyIsAfterNode_iff hf).mp hafter
  have hnext := (hlev.linked i).inList before hin
  cases hn : s.next i before with
  | none =>
      rw [hn] at hlt
      exact absurd hlt not_top_lt
  | some n =>
      rw [hn] at hlt hnext
      refine ⟨hnext, ((hlev.linked i).below_lt before hin n hn).le, ?_⟩
      exact WithBot.coe_lt_coe.mpr (WithTop.coe_lt_coe.mp hlt)

variable [DecidableEq κ]

theorem Searching.turn (hlev : s.Levels f S) (hheight : 1 ≤ c.x.height)
    (h : c.Searching f s S i before after) : (c.searchTurn cmp s i before after).Inv f s S := by
  unfold searchTurn
  dsimp only
  split_ifs with hfound
  · have hle : c.target f ≤ above (SkipNode.pos f) (s.next i before) := by
      rcases hfound with heq | hnot
      · rw [heq]
        exact h.le_after
      · exact not_lt.mp fun hlt => hnot ((keyIsAfterNode_iff hf).mpr hlt)
    have hi : i < c.splice.height := h.lt_recompute.trans_le h.recompute_le
    have hnext := (hlev.linked i).inList before h.beforeIn
    have habove : above (SkipNode.pos f) (s.next i before) ≤
        above (SkipNode.pos f) (c.splice.next (i + 1)) := by
      apply (hlev.linked i).above_next_le h.beforeIn h.before_lt
      · exact (h.from_.nextIn (i + 1) le_rfl hi).mono (hlev.succ_subset i)
      · exact (h.between (i + 1) (Nat.lt_succ_self i) hi).2
    have hfrom := h.from_.set hi h.beforeIn hnext h.prev_le habove
    have hbetween : ∀ j, i ≤ j → j ≤ c.splice.height →
        below (SkipNode.pos f) ((c.splice.set i before (s.next i before)).prev j) < c.target f ∧
          c.target f ≤
            above (SkipNode.pos f) ((c.splice.set i before (s.next i before)).next j) := by
      intro j hij hj
      refine hfrom.between ?_ ?_ hij hj
      · rw [Splice.set_prev_self]
        exact h.before_lt
      · rw [Splice.set_next_self]
        exact hle
    have htight : c.useCas = false → ∀ j, i ≤ j → j < c.recomputeHeight →
        s.next j ((c.splice.set i before (s.next i before)).prev j) =
          (c.splice.set i before (s.next i before)).next j := by
      intro hcas j hij hj
      rcases Nat.eq_or_lt_of_le hij with rfl | hlt
      · rw [Splice.set_prev_self, Splice.set_next_self]
      · rw [Splice.set_prev_of_ne hlt.ne', Splice.set_next_of_ne hlt.ne']
        exact h.tight hcas j hlt hj
    refine ⟨hheight, ?_⟩
    cases i with
    | zero =>
        exact {
          linked := fun j => ⟨fun hj => absurd hj (h.unlinked j), fun hj => absurd hj (by omega)⟩
          le_height := Nat.zero_le _
          sized := h.sized.of_eq rfl rfl rfl le_rfl
          from_ := hfrom.weaken (Nat.zero_le _)
          prevIn := fun j hj => hfrom.prevIn j (Nat.zero_le j) hj
          nextIn := fun j hj => hfrom.nextIn j (Nat.zero_le j) hj
          between := fun j hj => hbetween j (Nat.zero_le j) hj
          nextLe := fun _ j hj => hfrom.nextLe j (Nat.zero_le j) hj
          untouched := fun _ => ⟨h.valid, fun j hj => hfrom.prevLe j (Nat.zero_le j) hj⟩
          tight := htight
          snug := fun _ j hj => absurd hj (by omega) }
    | succ i =>
        exact {
          unlinked := h.unlinked
          sized := h.sized.of_eq rfl rfl rfl le_rfl
          valid := h.valid
          lt_recompute := (Nat.lt_succ_self i).trans h.lt_recompute
          recompute_le := h.recompute_le
          from_ := hfrom
          between := fun j hij hj => hbetween j hij hj
          tight := htight
          beforeIn := h.beforeIn.mono (hlev.succ_subset i)
          prev_le := by
            rw [Splice.set_prev_self]
          before_lt := h.before_lt
          le_after := hle }
  · obtain ⟨-, hafter⟩ := not_or.mp hfound
    obtain ⟨hin, hle, hlt⟩ := followed hf hlev h.beforeIn (not_not.mp hafter)
    refine ⟨hheight, ?_⟩
    exact { h with
      sized := h.sized.of_eq rfl rfl rfl le_rfl
      beforeIn := hin
      prev_le := h.prev_le.trans hle
      before_lt := hlt }

omit [LinearOrder α] hf in
theorem skipSame_le (nodes : ℕ → Option (SkipNode κ)) (bad : Option (SkipNode κ)) (fuel r : ℕ) :
    skipSame nodes bad fuel r ≤ r + fuel := by
  induction fuel generalizing r with
  | zero => exact le_rfl
  | succ fuel ih =>
      rw [skipSame]
      split_ifs
      · have := ih (r + 1)
        omega
      · omega

omit hf [DecidableEq κ] in
/-- The levels below `r` are recomputed, whatever they hold. -/
theorem inv_recompute (hlev : s.Levels f S) (hheight : 1 ≤ c.x.height) (hsized : c.Sized s)
    {r : ℕ} (hfrom : c.splice.From f S r) (hunlinked : ∀ j, c.x ∉ S j)
    (hvalid : c.spliceIsValid = true) (hr : r ≤ c.splice.height) (hbetween : c.Between f r) :
    (c.recompute r).Inv f s S := by
  refine ⟨hheight, ?_⟩
  have hall : ∀ j, r ≤ j → j ≤ c.splice.height → c.Between f j := by
    intro j hj hjh
    exact hfrom.between hbetween.1 hbetween.2 hj hjh
  cases r with
  | zero =>
      exact {
        linked := fun j => ⟨fun hj => absurd hj (hunlinked j), fun hj => absurd hj (by omega)⟩
        le_height := Nat.zero_le _
        sized := hsized.of_eq rfl rfl rfl le_rfl
        from_ := hfrom.weaken (Nat.zero_le _)
        prevIn := fun j hj => hfrom.prevIn j (Nat.zero_le j) hj
        nextIn := fun j hj => hfrom.nextIn j (Nat.zero_le j) hj
        between := fun j hj => hall j (Nat.zero_le j) hj
        nextLe := fun _ j hj => hfrom.nextLe j (Nat.zero_le j) hj
        untouched := fun _ => ⟨hvalid, fun j hj => hfrom.prevLe j (Nat.zero_le j) hj⟩
        tight := fun _ j _ hj => absurd hj (Nat.not_lt_zero j)
        snug := fun _ j hj => absurd hj (Nat.not_lt_zero j) }
  | succ i =>
      exact {
        unlinked := hunlinked
        sized := hsized.of_eq rfl rfl rfl le_rfl
        valid := hvalid
        lt_recompute := Nat.lt_succ_self i
        recompute_le := hr
        from_ := hfrom
        between := fun j hij hj => hall j hij hj
        tight := fun _ j hij hj => absurd (hij.trans_lt hj) (lt_irrefl _)
        beforeIn := (hfrom.prevIn (i + 1) le_rfl hr).mono (hlev.succ_subset i)
        prev_le := le_rfl
        before_lt := hbetween.1
        le_after := hbetween.2 }

theorem inv_validate (hlev : s.Levels f S) (hheight : 1 ≤ c.x.height) (hsized : c.Sized s)
    (hfrom : c.splice.From f S 0) (hunlinked : ∀ j, c.x ∉ S j) (hvalid : c.spliceIsValid = true)
    {r : ℕ} (hr : r ≤ c.splice.height) : (c.validateTurn cmp s r).Inv f s S := by
  have hskip : ∀ (nodes : ℕ → Option (SkipNode κ)) (bad : Option (SkipNode κ)),
      skipSame nodes bad (c.maxHeight - r) r ≤ c.splice.height := by
    intro nodes bad
    have := skipSame_le nodes bad (c.maxHeight - r) r
    rw [hsized.maxHeight_eq] at this ⊢
    omega
  have hmoved : ∀ r' ≤ c.splice.height, Inv f s S { c with stage := .validate r' } := by
    intro r' hr'
    exact ⟨hheight, hsized.of_eq rfl rfl rfl le_rfl, hfrom, hunlinked, hvalid, hr'⟩
  unfold validateTurn
  split_ifs with hlt htight hprev hpartial hnext hpartial
  · rw [hsized.maxHeight_eq] at hlt
    exact hmoved _ hlt
  · exact hmoved _ (hskip _ _)
  · exact hmoved _ hsized.maxHeight_eq.le
  · exact hmoved _ (hskip _ _)
  · exact hmoved _ hsized.maxHeight_eq.le
  · refine inv_recompute hlev hheight hsized (hfrom.weaken (Nat.zero_le r)) hunlinked hvalid hr
      ⟨?_, ?_⟩
    · by_cases hnone : c.splice.prev r = none
      · rw [hnone]
        exact WithBot.bot_lt_coe _
      · exact (keyIsAfterNode_prev hf hnone).mp (not_not.mp fun hnot => hprev ⟨hnone, hnot⟩)
    · exact not_lt.mp fun hlt => hnext ((keyIsAfterNode_iff hf).mpr hlt)
  · have heq : r = c.splice.height := by
      rw [hsized.maxHeight_eq] at hlt
      omega
    subst heq
    refine inv_recompute hlev hheight hsized (hfrom.weaken (Nat.zero_le _)) hunlinked hvalid le_rfl
      ⟨?_, ?_⟩
    · rw [hfrom.prevTop]
      exact WithBot.bot_lt_coe _
    · rw [hfrom.nextTop]
      exact le_top

omit hf [DecidableEq κ] in
theorem inv_chooseLevels (hlev : s.Levels f S) (hheight : 1 ≤ c.x.height)
    (husable : c.splice.Usable f s S) (hunlinked : ∀ j, c.x ∉ S j)
    (hvalid : c.spliceIsValid = true) {m : ℕ} (hm : c.x.height ≤ m) (hle : m ≤ s.maxHeight)
    (hsplice : c.splice.height ≤ m) : (c.chooseLevels m).Inv f s S := by
  unfold chooseLevels
  dsimp only
  split_ifs with hlt
  · apply inv_recompute (c := { c with
      maxHeight := m, splice := { c.splice.set m none none with height := m } })
      hlev hheight ⟨rfl, hm, hle⟩ ?_ hunlinked hvalid le_rfl ⟨?_, ?_⟩
    · exact Splice.from_top
        (show (c.splice.set m none none).prev m = none from Splice.set_prev_self)
        (show (c.splice.set m none none).next m = none from Splice.set_next_self)
    · rw [show (c.splice.set m none none).prev m = none from Splice.set_prev_self]
      exact WithBot.bot_lt_coe _
    · rw [show (c.splice.set m none none).next m = none from Splice.set_next_self]
      exact le_top
  · have heq : c.splice.height = m := by omega
    have hfrom := husable.2.resolve_left (by omega)
    exact ⟨hheight, ⟨heq.symm, heq ▸ hm, heq ▸ hle⟩, hfrom, hunlinked, hvalid, Nat.zero_le _⟩

end Inserting

end Turns

end Tweezer
