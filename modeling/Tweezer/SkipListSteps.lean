import Tweezer.SkipListInserts

/-!
# The steps of an insert

The turns that link a node, and what one step of a call does to the list: nothing, or the node
of the call joins the set of the level it is linked at.
-/

namespace Tweezer

open OrderedLinks InlineSkipList

variable {κ α : Type} [LinearOrder α] {f : κ → α} {s : InlineSkipList κ} {S : LevelSets κ}

theorem Splice.From.set_of_lt {p : Splice κ} {lo i : ℕ} {before next : Option (SkipNode κ)}
    (h : p.From f S lo) (hi : i < lo) (hlo : lo ≤ p.height) : (p.set i before next).From f S lo := by
  have hprev : ∀ j, lo ≤ j → (p.set i before next).prev j = p.prev j := fun j hj =>
    set_prev_of_ne (by omega)
  have hnext : ∀ j, lo ≤ j → (p.set i before next).next j = p.next j := fun j hj =>
    set_next_of_ne (by omega)
  constructor
  · rw [set_height, hprev _ hlo]
    exact h.prevTop
  · rw [set_height, hnext _ hlo]
    exact h.nextTop
  · intro j hj hjh
    rw [hprev j hj]
    exact h.prevIn j hj hjh
  · intro j hj hjh
    rw [hnext j hj]
    exact h.nextIn j hj hjh
  · intro j hj hjh
    rw [hprev j hj, hprev (j + 1) (by omega)]
    exact h.prevLe j hj hjh
  · intro j hj hjh
    rw [hnext j hj, hnext (j + 1) (by omega)]
    exact h.nextLe j hj hjh

namespace Inserting

variable {c : Inserting κ} {i : ℕ} {before : Option (SkipNode κ)}

/-- A node that is linked on some level is the only one with its key. -/
theorem Linking.lt_above (hlev : s.Levels f S) (h : c.Linking f s S i) (hi : 0 < i) {j : ℕ}
    (hij : i ≤ j) {q : Option (SkipNode κ)} (hq : InList (S j) q)
    (hle : c.target f ≤ above (SkipNode.pos f) q) : c.target f < above (SkipNode.pos f) q := by
  cases q with
  | none => exact WithTop.coe_lt_top _
  | some n =>
      have hn := inList_some.mp hq
      rcases lt_or_eq_of_le (WithTop.coe_le_coe.mp hle) with hlt | heq
      · exact WithTop.coe_lt_coe.mpr hlt
      · have hx : c.x ∈ S 0 := (h.linked 0).mpr hi
        have hsame := (hlev.linked 0).inj hx (hlev.subset (Nat.zero_le j) hn) heq
        rw [← hsame] at hn
        exact absurd ((h.linked j).mp hn) (by omega)

end Inserting

section Turns

variable {cmp : κ → κ → Ordering} (hf : ∀ a b, cmp a b = compare (f a) (f b))
include hf

namespace Inserting

variable {c : Inserting κ} {i : ℕ} {before : Option (SkipNode κ)}

/-- A link is found again: the splice is narrower on its level. -/
theorem Linking.again (hlev : s.Levels f S) (hheight : 1 ≤ c.x.height) (h : c.Linking f s S i)
    (hi : i < c.x.height) (hin : InList (S i) before)
    (hprev : below (SkipNode.pos f) (c.splice.prev i) ≤ below (SkipNode.pos f) before)
    (hlt : below (SkipNode.pos f) before < c.target f) :
    (c.againTurn cmp s i before).Inv f s S := by
  unfold againTurn
  dsimp only
  split_ifs with hfound
  · have hle : c.target f ≤ above (SkipNode.pos f) (s.next i before) := by
      rcases hfound with heq | hnot
      · rw [heq]
        exact le_top
      · exact not_lt.mp fun hlt => hnot ((keyIsAfterNode_iff hf).mpr hlt)
    have hih : i < c.splice.height := hi.trans_le h.sized.height_le
    have hnext := (hlev.linked i).inList before hin
    have hself : ∀ j, j ≠ i → (c.splice.set i before (s.next i before)).prev j = c.splice.prev j ∧
        (c.splice.set i before (s.next i before)).next j = c.splice.next j :=
      fun j hj => ⟨Splice.set_prev_of_ne hj, Splice.set_next_of_ne hj⟩
    refine ⟨hheight, ?_⟩
    constructor
    · exact h.linked
    · exact h.le_height
    · exact h.sized.of_eq rfl rfl rfl le_rfl
    · exact h.from_.set_of_lt hi h.sized.height_le
    · intro j hj
      by_cases hji : j = i
      · subst hji
        rw [Splice.set_prev_self]
        exact hin
      · rw [(hself j hji).1]
        exact h.prevIn j hj
    · intro j hj
      by_cases hji : j = i
      · subst hji
        rw [Splice.set_next_self]
        exact hnext
      · rw [(hself j hji).2]
        exact h.nextIn j hj
    · intro j hj
      by_cases hji : j = i
      · subst hji
        refine ⟨?_, ?_⟩
        · rw [Splice.set_prev_self]
          exact hlt
        · rw [Splice.set_next_self]
          exact hle
      · refine ⟨?_, ?_⟩
        · rw [(hself j hji).1]
          exact (h.between j hj).1
        · rw [(hself j hji).2]
          exact (h.between j hj).2
    · intro hvalid j hj
      obtain ⟨hvalid, hmode⟩ := Bool.and_eq_true_iff.mp hvalid
      by_cases hji : j = i
      · subst hji
        rw [Splice.set_next_self, (hself (j + 1) (by omega)).2]
        apply (hlev.linked j).above_next_le hin hlt
        · exact (h.nextIn (j + 1) hj).mono (hlev.succ_subset j)
        · exact (h.between (j + 1) hj).2
      · rw [(hself j hji).2]
        by_cases hjs : j + 1 = i
        · subst hjs
          rw [Splice.set_next_self]
          -- the level below is linked, so no exchange is in use and nothing came in between
          have hcas : c.useCas = false := by simpa using hmode
          have hstrict := h.lt_above hlev (Nat.succ_pos j) le_rfl hnext hle
          cases hq : s.next (j + 1) before with
          | none => exact le_top
          | some n =>
              rw [hq] at hnext hstrict
              exact h.snug hcas j (Nat.lt_succ_self j) n
                (hlev.succ_subset j (inList_some.mp hnext)) (WithTop.coe_lt_coe.mp hstrict)
        · rw [(hself (j + 1) hjs).2]
          exact h.nextLe hvalid j hj
    · rintro rfl
      obtain ⟨hvalid, hle'⟩ := h.untouched rfl
      refine ⟨?_, fun j hj => ?_⟩
      · change (c.spliceIsValid && !(c.useCas && decide (0 < 0))) = true
        simp [hvalid]
      · rw [(hself (j + 1) (by omega)).1]
        by_cases hj0 : j = 0
        · subst hj0
          rw [Splice.set_prev_self]
          exact (hle' 0 hj).trans hprev
        · rw [(hself j hj0).1]
          exact hle' j hj
    · intro hcas j hij hj
      by_cases hji : j = i
      · subst hji
        rw [Splice.set_prev_self, Splice.set_next_self]
      · rw [(hself j hji).1, (hself j hji).2]
        exact h.tight hcas j hij hj
    · intro hcas j hj n hn hpos
      rw [(hself j (by omega)).2]
      exact h.snug hcas j hj n hn hpos
  · obtain ⟨-, hafter⟩ := not_or.mp hfound
    obtain ⟨hin', hle, hlt'⟩ := followed hf hlev hin (not_not.mp hafter)
    refine ⟨hheight, ?_, hi, hin', hprev.trans hle, hlt'⟩
    exact { h with sized := h.sized.of_eq rfl rfl rfl le_rfl }

omit hf in
/-- The splice that a call leaves behind. -/
theorem Linking.finish (hheight : 1 ≤ c.x.height)
    (h : c.Linking f s S c.x.height) : c.finish.Inv f s S := by
  refine ⟨hheight, ⟨?_, ?_⟩, h.linked⟩
  · unfold Inserting.finish
    dsimp only
    split_ifs
    · exact h.sized.le_maxHeight
    · exact Nat.zero_le _
  · unfold Inserting.finish
    dsimp only
    split_ifs with hvalid
    · have hlow : ∀ j, j < c.x.height →
          (if j < c.x.height then some c.x else c.splice.prev j) = some c.x :=
        fun j hj => if_pos hj
      have hhigh : ∀ j, c.x.height ≤ j →
          (if j < c.x.height then some c.x else c.splice.prev j) = c.splice.prev j :=
        fun j hj => if_neg (by omega)
      refine Or.inr ?_
      constructor
      · dsimp only
        rw [hhigh _ h.sized.height_le]
        exact h.from_.prevTop
      · exact h.from_.nextTop
      · intro j _ hj
        dsimp only
        by_cases hjx : j < c.x.height
        · rw [hlow j hjx]
          exact inList_some.mpr ((h.linked j).mpr hjx)
        · rw [hhigh j (by omega)]
          exact h.prevIn j hj
      · exact fun j _ hj => h.nextIn j hj
      · intro j _ hj
        dsimp only
        by_cases hjx : j < c.x.height
        · rw [hlow j hjx]
          by_cases hjx' : j + 1 < c.x.height
          · rw [hlow _ hjx']
          · rw [hhigh _ (by omega)]
            exact (h.between (j + 1) hj).1.le
        · rw [hhigh j (by omega), hhigh (j + 1) (by omega)]
          exact h.from_.prevLe j (by omega) hj
      · exact fun j _ hj => h.nextLe hvalid j hj
    · exact Or.inl rfl

omit hf in
theorem setNext_next_self (level : ℕ) (p q : Option (SkipNode κ)) [DecidableEq κ] :
    (s.setNext level p q).next level = Function.update (s.next level) p q :=
  Function.update_self _ _ _

omit hf in
theorem setNext_next_of_ne {level j : ℕ} (hj : j ≠ level) (p q : Option (SkipNode κ))
    [DecidableEq κ] : (s.setNext level p q).next j = s.next j :=
  Function.update_of_ne hj _ _

omit hf in
/-- The node of the call is put behind the last one before it. -/
theorem Linking.link (hlev : s.Levels f S) [DecidableEq κ] (hheight : 1 ≤ c.x.height)
    (h : c.Linking f s S i) (hi : i < c.x.height)
    (hstrict : c.target f < above (SkipNode.pos f) (c.splice.next i))
    (hlink : s.next i (c.splice.prev i) = c.splice.next i) :
    let s' := (s.setNext i (some c.x) (c.splice.next i)).setNext i (c.splice.prev i) (some c.x)
    let S' := Function.update S i (insert c.x (S i))
    s'.Levels f S' ∧ Inv f s' S' { c with stage := .link (i + 1) } := by
  intro s' S'
  have hih : i ≤ c.splice.height := (hi.trans_le h.sized.height_le).le
  have hself : S' i = insert c.x (S i) := Function.update_self _ _ _
  have hother : ∀ j, j ≠ i → S' j = S j := fun j hj => Function.update_of_ne hj _ _
  have hsub : ∀ j, S j ⊆ S' j := by
    intro j
    by_cases hj : j = i
    · subst hj
      rw [hself]
      exact Set.subset_insert _ _
    · rw [hother j hj]
  have hnext : s'.next i = Function.update (Function.update (s.next i) (some c.x)
      (s.next i (c.splice.prev i))) (c.splice.prev i) (some c.x) := by
    rw [setNext_next_self, setNext_next_self, hlink]
  have hnext' : ∀ j, j ≠ i → s'.next j = s.next j := by
    intro j hj
    rw [setNext_next_of_ne hj, setNext_next_of_ne hj]
  refine ⟨⟨?_, ?_, ?_, hlev.one_le⟩, hheight, ?_⟩
  · intro j
    by_cases hj : j = i
    · subst hj
      rw [hself, hnext]
      apply (hlev.linked j).insert (h.prevIn j hih) (h.between j hih).1
      rw [hlink]
      exact hstrict
    · rw [hother j hj, hnext' j hj]
      exact hlev.linked j
  · intro j
    by_cases hj : j + 1 = i
    · subst hj
      rw [hself, hother j (by omega)]
      apply Set.insert_subset
      · exact (h.linked j).mpr (Nat.lt_succ_self j)
      · exact hlev.succ_subset j
    · rw [hother _ hj]
      exact (hlev.succ_subset j).trans (hsub j)
  · intro j n hn
    by_cases hj : j = i
    · subst hj
      rw [hself] at hn
      rcases hn with rfl | hn
      · exact hi
      · exact hlev.lt_height j n hn
    · rw [hother j hj] at hn
      exact hlev.lt_height j n hn
  · constructor
    · intro j
      by_cases hj : j = i
      · subst hj
        rw [hself]
        exact ⟨fun _ => Nat.lt_succ_self j, fun _ => Set.mem_insert _ _⟩
      · rw [hother j hj]
        exact (h.linked j).trans ⟨fun hlt => by omega, fun hlt => by omega⟩
    · exact hi
    · exact h.sized.of_eq rfl rfl rfl le_rfl
    · exact h.from_.mono hsub
    · exact fun j hj => (h.prevIn j hj).mono (hsub j)
    · exact fun j hj => (h.nextIn j hj).mono (hsub j)
    · exact h.between
    · exact h.nextLe
    · exact fun hzero => absurd hzero (Nat.succ_ne_zero i)
    · intro hcas j hj hjr
      rw [hnext' j (by omega)]
      exact h.tight hcas j (by omega) hjr
    · intro hcas j hj n hn hpos
      by_cases hji : j = i
      · subst hji
        rw [hself] at hn
        rcases hn with rfl | hn
        · exact absurd hpos (lt_irrefl _)
        · have hfirst := (hlev.linked j).first _ (h.prevIn j hih) n hn
            ((h.between j hih).1.trans (WithBot.coe_lt_coe.mpr hpos))
          rw [hlink] at hfirst
          exact hfirst
      · rw [hother j hji] at hn
        exact h.snug hcas j (by omega) n hn hpos

/-- What a step of a call does. -/
structure Stepped (f : κ → α) (s s' : InlineSkipList κ) (S S' : LevelSets κ)
    (c c' : Inserting κ) : Prop where
  levels : s'.Levels f S'
  inv : c'.Inv f s' S'
  sets : S' = S ∨ ∃ i, c.stage = .link i ∧ S' = Function.update S i (insert c.x (S i))
  maxHeight : s.maxHeight ≤ s'.maxHeight

omit hf in
theorem Stepped.of_read {c' : Inserting κ} (hlev : s.Levels f S) (h : c'.Inv f s S) :
    Stepped f s s S S c c' :=
  ⟨hlev, h, Or.inl rfl, le_rfl⟩

/-- Without a duplicate the key is strictly between its neighbours on level 0. -/
theorem Linking.duplicate_iff (h : c.Linking f s S i) :
    c.duplicate cmp i = true ↔
      i = 0 ∧ ∃ n ∈ c.splice.next 0, n.pos f = c.target f := by
  have hbetween := h.between 0 (Nat.zero_le _)
  have hprev : (c.splice.prev 0).any (fun n => cmp n.key c.x.key != .lt) = false := by
    cases hp : c.splice.prev 0 with
    | none => rfl
    | some n =>
        have hlt := hbetween.1
        rw [hp] at hlt
        have hcmp : cmp n.key c.x.key = .lt := by
          rw [hf, compare_lt_iff_lt]
          exact WithBot.coe_lt_coe.mp hlt
        simp [hcmp]
  rw [duplicate, hprev, Bool.or_false, Bool.and_eq_true, decide_eq_true_iff]
  apply and_congr_right
  intro _
  cases hn : c.splice.next 0 with
  | none => simp
  | some n =>
      have hle := hbetween.2
      rw [hn] at hle
      have hle' : f c.x.key ≤ f n.key := WithTop.coe_le_coe.mp hle
      simp only [Option.any_some, bne_iff_ne, ne_eq, Option.mem_some_iff, exists_eq_left', hf,
        compare_lt_iff_lt, not_lt]
      exact ⟨fun h => le_antisymm h hle', fun h => h.le⟩

variable [DecidableEq κ]

theorem Linking.turn (hlev : s.Levels f S) (hheight : 1 ≤ c.x.height) (h : c.Linking f s S i)
    (hstage : c.stage = .link i) :
    ∃ S', Stepped f s (c.linkTurn cmp s i).1 S S' c (c.linkTurn cmp s i).2 := by
  have hin := h.prevIn i (h.le_height.trans h.sized.height_le)
  have hlt := (h.between i (h.le_height.trans h.sized.height_le)).1
  have hagain : i < c.x.height → Inv f s S { c with stage := .again i (c.splice.prev i) } :=
    fun hi => ⟨hheight, { h with sized := h.sized.of_eq rfl rfl rfl le_rfl }, hi, hin, le_rfl, hlt⟩
  unfold linkTurn
  by_cases hdone : c.x.height ≤ i
  · rw [if_pos hdone]
    obtain rfl := le_antisymm h.le_height hdone
    exact ⟨S, .of_read hlev (h.finish hheight)⟩
  · rw [if_neg hdone]
    have hi : i < c.x.height := by omega
    by_cases hloose : ¬ c.useCas ∧ c.recomputeHeight ≤ i ∧
        s.next i (c.splice.prev i) ≠ c.splice.next i
    · rw [if_pos hloose]
      exact ⟨S, .of_read hlev (hagain hi)⟩
    · rw [if_neg hloose]
      by_cases hdup : c.duplicate cmp i = true
      · rw [if_pos hdup]
        obtain ⟨rfl, n, hn, heq⟩ := (h.duplicate_iff hf).mp hdup
        obtain ⟨hvalid, hprevLe⟩ := h.untouched rfl
        refine ⟨S, .of_read hlev ⟨hheight, ⟨h.sized.le_maxHeight, Or.inr ?_⟩, ?_, n, ?_, heq⟩⟩
        · exact ⟨h.from_.prevTop, h.from_.nextTop, fun j _ => h.prevIn j, fun j _ => h.nextIn j,
            fun j _ => hprevLe j, fun j _ => h.nextLe hvalid j⟩
        · exact fun j hj => absurd ((h.linked j).mp hj) (Nat.not_lt_zero j)
        · exact h.nextIn 0 (Nat.zero_le _) n hn
      · rw [if_neg hdup]
        have hx : c.x ∉ S i := fun hx => absurd ((h.linked i).mp hx) (lt_irrefl i)
        have hpx : c.splice.prev i ≠ some c.x := by
          intro heq
          rw [heq] at hin
          exact hx (inList_some.mp hin)
        have hread : (s.setNext i (some c.x) (c.splice.next i)).next i (c.splice.prev i) =
            s.next i (c.splice.prev i) := by
          rw [setNext_next_self, Function.update_of_ne hpx]
        dsimp only
        rw [hread]
        by_cases hfail : c.useCas ∧ s.next i (c.splice.prev i) ≠ c.splice.next i
        · rw [if_pos hfail]
          refine ⟨S, ⟨⟨?_, hlev.succ_subset, hlev.lt_height, hlev.one_le⟩, ?_, Or.inl rfl, le_rfl⟩⟩
          · intro j
            by_cases hj : j = i
            · subst hj
              rw [setNext_next_self]
              exact (hlev.linked j).update_of_notMem hx _
            · rw [setNext_next_of_ne hj]
              exact hlev.linked j
          · have hcas : c.useCas = true := hfail.1
            refine ⟨hheight, ?_, hi, hin, le_rfl, hlt⟩
            exact { h with
              sized := h.sized.of_eq rfl rfl rfl le_rfl
              tight := fun hcas' => absurd (hcas.symm.trans hcas') (by simp) }
        · rw [if_neg hfail]
          have hlink : s.next i (c.splice.prev i) = c.splice.next i := by
            by_contra hne
            cases hcas : c.useCas with
            | true => exact hfail ⟨hcas, hne⟩
            | false =>
                apply hne
                apply h.tight hcas i le_rfl
                by_contra hle
                exact hloose ⟨by simp [hcas], not_lt.mp hle, hne⟩
          have hstrict : c.target f < above (SkipNode.pos f) (c.splice.next i) := by
            have hle := (h.between i (h.le_height.trans h.sized.height_le)).2
            have hnext := h.nextIn i (h.le_height.trans h.sized.height_le)
            rcases Nat.eq_zero_or_pos i with rfl | hpos
            · cases hq : c.splice.next 0 with
              | none => exact WithTop.coe_lt_top _
              | some n =>
                  rw [hq] at hle
                  rcases lt_or_eq_of_le (WithTop.coe_le_coe.mp hle) with hlt | heq
                  · exact WithTop.coe_lt_coe.mpr hlt
                  · exact absurd ((h.duplicate_iff hf).mpr ⟨rfl, n, hq, heq.symm⟩) hdup
            · exact h.lt_above hlev hpos le_rfl hnext hle
          obtain ⟨hlev', hinv⟩ := h.link hlev hheight hi hstrict hlink
          exact ⟨_, hlev', hinv, Or.inr ⟨i, hstage, rfl⟩, le_rfl⟩

/-- One step of a call: its node may be linked at one more level. -/
theorem Inv.step (hlev : s.Levels f S) (h : c.Inv f s S) (weak : Bool) :
    ∃ S', Stepped f s (c.step cmp weak s).1 S S' c (c.step cmp weak s).2 := by
  obtain ⟨hheight, h⟩ := h
  unfold Inserting.step
  cases hstage : c.stage with
  | start =>
      rw [hstage] at h
      obtain ⟨husable, hunlinked, hvalid⟩ := h
      exact ⟨S, .of_read hlev
        ⟨hheight, husable, hunlinked, hvalid, hlev.one_le, le_rfl, husable.1⟩⟩
  | raise m =>
      rw [hstage] at h
      obtain ⟨husable, hunlinked, hvalid, hone, hm, hsplice⟩ := h
      dsimp only
      split_ifs with hlow hexchange
      · have hlev' : Levels f { s with maxHeight := c.x.height } S :=
          ⟨hlev.linked, hlev.succ_subset, hlev.lt_height, hheight⟩
        have hgrow : s.maxHeight ≤ c.x.height := by
          rw [hexchange.1]
          exact hlow.le
        refine ⟨S, hlev', ?_, Or.inl rfl, hgrow⟩
        apply inv_chooseLevels hlev' hheight _ hunlinked hvalid le_rfl le_rfl (by omega)
        exact husable.mono (fun _ => subset_rfl) hgrow
      · exact ⟨S, .of_read hlev
          ⟨hheight, husable, hunlinked, hvalid, hlev.one_le, le_rfl, husable.1⟩⟩
      · exact ⟨S, .of_read hlev
          (inv_chooseLevels hlev hheight husable hunlinked hvalid (by omega) hm hsplice)⟩
  | validate r =>
      rw [hstage] at h
      obtain ⟨hsized, hfrom, hunlinked, hvalid, hr⟩ := h
      exact ⟨S, .of_read hlev (inv_validate hf hlev hheight hsized hfrom hunlinked hvalid hr)⟩
  | search i before after =>
      rw [hstage] at h
      exact ⟨S, .of_read hlev (h.turn hf hlev hheight)⟩
  | link i =>
      rw [hstage] at h
      exact h.turn hf hlev hheight hstage
  | again i before =>
      rw [hstage] at h
      obtain ⟨hlink, hi, hin, hle, hlt⟩ := h
      exact ⟨S, .of_read hlev (hlink.again hf hlev hheight hi hin hle hlt)⟩
  | returned b =>
      exact ⟨S, .of_read hlev ⟨hheight, h⟩⟩

end Inserting

end Turns

/-! ### What a call is about -/

namespace Inserting

variable [DecidableEq κ] (cmp : κ → κ → Ordering)

/-- Two states of one call. -/
def SameCall (c c' : Inserting κ) : Prop := c'.x = c.x ∧ c'.useCas = c.useCas

omit [DecidableEq κ] in
theorem sameCall_chooseLevels (c : Inserting κ) (m : ℕ) : c.SameCall (c.chooseLevels m) := by
  unfold chooseLevels
  dsimp only
  split_ifs <;> exact ⟨rfl, rfl⟩

theorem sameCall_validateTurn (c : Inserting κ) (s : InlineSkipList κ) (r : ℕ) :
    c.SameCall (c.validateTurn cmp s r) := by
  unfold validateTurn
  split_ifs <;> exact ⟨rfl, rfl⟩

theorem sameCall_linkTurn (c : Inserting κ) (s : InlineSkipList κ) (i : ℕ) :
    c.SameCall (c.linkTurn cmp s i).2 := by
  unfold linkTurn
  dsimp only
  split_ifs <;> exact ⟨rfl, rfl⟩

/-- The call is about the same node throughout. -/
theorem sameCall_step (weak : Bool) (s : InlineSkipList κ) (c : Inserting κ) :
    c.SameCall (c.step cmp weak s).2 := by
  unfold Inserting.step
  cases c.stage with
  | start => exact ⟨rfl, rfl⟩
  | raise m =>
      dsimp only
      split_ifs
      · exact sameCall_chooseLevels c _
      · exact ⟨rfl, rfl⟩
      · exact sameCall_chooseLevels c m
  | validate r => exact sameCall_validateTurn cmp c s r
  | search i before after =>
      dsimp only
      unfold searchTurn
      dsimp only
      split_ifs <;> exact ⟨rfl, rfl⟩
  | link i => exact sameCall_linkTurn cmp c s i
  | again i before =>
      dsimp only
      unfold againTurn
      dsimp only
      split_ifs <;> exact ⟨rfl, rfl⟩
  | returned b => exact ⟨rfl, rfl⟩

end Inserting

end Tweezer
