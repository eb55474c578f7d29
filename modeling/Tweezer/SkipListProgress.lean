import Mathlib.Algebra.Order.BigOperators.Group.List
import Tweezer.SkipListLinearized

/-!
# Inserts come to an end

A step of an insert links its node at one more level, raises the height of the list, or brings
the call closer to its return without delaying another one. Only the first two can set other
calls back, and there are finitely many of them; so however the steps of the calls that are
there fall between each other, all of them return.
-/

namespace Tweezer

open OrderedLinks InlineSkipList

variable {κ α : Type} [LinearOrder α] {f : κ → α} {s s' : InlineSkipList κ} {S S' : LevelSets κ}

namespace Inserting

variable {c : Inserting κ} {N : ℕ}

/-- The number of nodes on a level that a search may still come by. -/
noncomputable def ahead (f : κ → α) (T : Set (SkipNode κ)) (before : Option (SkipNode κ)) : ℕ :=
  {n ∈ T | below (SkipNode.pos f) before < n.pos f}.ncard

theorem ahead_le {T : Set (SkipNode κ)} (hfin : T.Finite) (hN : T.ncard ≤ N)
    (before : Option (SkipNode κ)) : ahead f T before ≤ N :=
  (Set.ncard_le_ncard (Set.sep_subset _ _) hfin).trans hN

/-- The levels that the node is still to be linked at. -/
def linksLeft (c : Inserting κ) : ℕ :=
  match c.stage with
  | .returned _ => 0
  | .link level | .again level _ => c.x.height - level
  | _ => c.x.height

/-- A bound on the steps from the first link on, for at most `N` nodes on a level. -/
def linkSteps (c : Inserting κ) (N : ℕ) : ℕ := c.x.height * (N + 4) + (N + 5)

/-- A bound on the steps that a call takes while nobody links a node or raises the list. -/
noncomputable def remaining [DecidableEq κ] (f : κ → α) (s : InlineSkipList κ) (S : LevelSets κ)
    (N : ℕ) (c : Inserting κ) : ℕ :=
  match c.stage with
  | .returned _ => 0
  | .link level =>
      if c.x.height ≤ level then 1
      else (c.x.height - level) * (N + 4) +
        if s.next level (c.splice.prev level) = c.splice.next level then 2 else N + 4
  | .again level before => (c.x.height - level) * (N + 4) + (3 + ahead f (S level) before)
  | .search level before _ => c.linkSteps N + (level * (N + 1) + ahead f (S level) before)
  | .validate r => c.linkSteps N + ((c.maxHeight + 1) * (N + 1) + (c.maxHeight - r))
  | .raise m => c.linkSteps N + ((max s.maxHeight c.x.height + 1) * (N + 1) +
      (max s.maxHeight c.x.height + 1 + if m = s.maxHeight then 0 else 1))
  | .start => c.linkSteps N + ((max s.maxHeight c.x.height + 1) * (N + 1) +
      (max s.maxHeight c.x.height + 2))

/-- A step that other calls do not feel. -/
structure Quiet [DecidableEq κ] (f : κ → α) (s s' : InlineSkipList κ) (S : LevelSets κ) (N : ℕ)
    (c c' : Inserting κ) : Prop where
  maxHeight : s'.maxHeight = s.maxHeight
  next : ∀ j p, InList (S j) p → s'.next j p = s.next j p
  linksLeft : c'.linksLeft ≤ c.linksLeft
  remaining : c'.remaining f s' S N < c.remaining f s S N

variable [DecidableEq κ]

/-- A call that knows where to link its first level. -/
theorem remaining_link_le (c : Inserting κ) (level : ℕ) :
    ({ c with stage := .link level }).remaining f s S N < c.linkSteps N := by
  unfold remaining linkSteps
  dsimp only
  have hmul : (c.x.height - level) * (N + 4) ≤ c.x.height * (N + 4) :=
    Nat.mul_le_mul_right _ (Nat.sub_le _ _)
  split_ifs <;> omega

theorem remaining_recompute_lt (hfin : ∀ j, (S j).Finite) (hN : ∀ j, (S j).ncard ≤ N)
    (c : Inserting κ) (r : ℕ) :
    (c.recompute r).remaining f s S N < c.linkSteps N + (r * (N + 1) + 1) := by
  cases r with
  | zero =>
      have hlink : (c.recompute 0).remaining f s S N < c.linkSteps N :=
        remaining_link_le { c with recomputeHeight := 0 } 0
      omega
  | succ level =>
      have hahead := ahead_le (f := f) (hfin level) (hN level) (c.splice.prev (level + 1))
      change c.linkSteps N + (level * (N + 1) + ahead f (S level) (c.splice.prev (level + 1))) < _
      rw [Nat.succ_mul]
      omega

theorem remaining_chooseLevels_lt (hfin : ∀ j, (S j).Finite) (hN : ∀ j, (S j).ncard ≤ N)
    (c : Inserting κ) (m : ℕ) :
    (c.chooseLevels m).remaining f s S N < c.linkSteps N + ((m + 1) * (N + 1) + (m + 1)) := by
  unfold chooseLevels
  dsimp only
  split_ifs
  · have hrec := remaining_recompute_lt (f := f) (s := s) hfin hN { c with
      maxHeight := m, splice := { c.splice.set m none none with height := m } } m
    refine hrec.trans_le ?_
    change c.linkSteps N + _ ≤ _
    rw [Nat.succ_mul]
    omega
  · change c.linkSteps N + ((m + 1) * (N + 1) + (m - 0)) < _
    omega

theorem lt_skipSame {nodes : ℕ → Option (SkipNode κ)} {bad : Option (SkipNode κ)} {fuel r : ℕ}
    (hr : nodes r = bad) (hfuel : 0 < fuel) : r < skipSame nodes bad fuel r := by
  have hle : ∀ (fuel r : ℕ), r ≤ skipSame nodes bad fuel r := by
    intro fuel
    induction fuel with
    | zero => exact fun r => le_rfl
    | succ fuel ih =>
        intro r
        rw [skipSame]
        split_ifs
        · exact (Nat.le_succ r).trans (ih (r + 1))
        · exact le_rfl
  obtain ⟨fuel, rfl⟩ := Nat.exists_eq_succ_of_ne_zero hfuel.ne'
  rw [skipSame, if_pos hr]
  exact hle fuel (r + 1)

omit [DecidableEq κ] in
theorem linksLeft_recompute (c : Inserting κ) (r : ℕ) : (c.recompute r).linksLeft = c.x.height := by
  cases r with
  | zero => rfl
  | succ level => rfl

omit [DecidableEq κ] in
theorem linksLeft_chooseLevels (c : Inserting κ) (m : ℕ) :
    (c.chooseLevels m).linksLeft = c.x.height := by
  unfold chooseLevels
  dsimp only
  split_ifs
  · exact linksLeft_recompute _ _
  · rfl

theorem quiet_of_read {c' : Inserting κ} (hlinks : c'.linksLeft ≤ c.linksLeft)
    (hless : c'.remaining f s S N < c.remaining f s S N) : Quiet f s s S N c c' :=
  ⟨rfl, fun _ _ _ => rfl, hlinks, hless⟩

variable (cmp : κ → κ → Ordering)

theorem quiet_validateTurn (hfin : ∀ j, (S j).Finite) (hN : ∀ j, (S j).ncard ≤ N) {r : ℕ}
    (hstage : c.stage = .validate r) (hr : r ≤ c.maxHeight) :
    Quiet f s s S N c (c.validateTurn cmp s r) := by
  have hlinks : c.linksLeft = c.x.height := by rw [linksLeft, hstage]
  have hremaining : c.remaining f s S N =
      c.linkSteps N + ((c.maxHeight + 1) * (N + 1) + (c.maxHeight - r)) := by
    rw [remaining, hstage]
  -- the loop goes on above `r`
  have hon : ∀ r', r < c.maxHeight → r < r' →
      Quiet f s s S N c { c with stage := .validate r' } := by
    intro r' hlt hr'
    refine quiet_of_read ?_ ?_
    · exact hlinks.ge
    rw [hremaining]
    change c.linkSteps N + ((c.maxHeight + 1) * (N + 1) + (c.maxHeight - r')) < _
    omega
  have hskip : ∀ nodes : ℕ → Option (SkipNode κ), r < c.maxHeight → r < if c.allowPartialFix then
      skipSame nodes (nodes r) (c.maxHeight - r) r else c.maxHeight := by
    intro nodes hlt
    split_ifs
    · exact lt_skipSame rfl (Nat.sub_pos_of_lt hlt)
    · exact hlt
  have hrec : Quiet f s s S N c (c.recompute r) := by
    apply quiet_of_read
    · rw [linksLeft_recompute, hlinks]
    · have hmul : r * (N + 1) ≤ c.maxHeight * (N + 1) := Nat.mul_le_mul_right _ hr
      have hless := remaining_recompute_lt (f := f) (s := s) hfin hN c r
      rw [hremaining, Nat.succ_mul]
      omega
  unfold validateTurn
  by_cases hlt : r < c.maxHeight
  · rw [if_pos hlt]
    by_cases hloose : s.next r (c.splice.prev r) ≠ c.splice.next r
    · rw [if_pos hloose]
      exact hon (r + 1) hlt (Nat.lt_succ_self r)
    · rw [if_neg hloose]
      by_cases hbefore : c.splice.prev r ≠ none ∧ ¬ keyIsAfterNode cmp c.x.key (c.splice.prev r)
      · rw [if_pos hbefore]
        exact hon _ hlt (hskip c.splice.prev hlt)
      · rw [if_neg hbefore]
        by_cases hafter : keyIsAfterNode cmp c.x.key (c.splice.next r) = true
        · rw [if_pos hafter]
          exact hon _ hlt (hskip c.splice.next hlt)
        · rw [if_neg hafter]
          exact hrec
  · rw [if_neg hlt]
    exact hrec

theorem quiet_searchTurn (hlev : s.Levels f S) (hfin : ∀ j, (S j).Finite)
    (hN : ∀ j, (S j).ncard ≤ N) {level : ℕ} {before after : Option (SkipNode κ)}
    (hstage : c.stage = .search level before after) (hin : InList (S level) before) :
    Quiet f s s S N c (c.searchTurn cmp s level before after) := by
  have hlinks : c.linksLeft = c.x.height := by rw [linksLeft, hstage]
  have hremaining : c.remaining f s S N =
      c.linkSteps N + (level * (N + 1) + ahead f (S level) before) := by
    rw [remaining, hstage]
  unfold searchTurn
  dsimp only
  split_ifs with hfound
  · apply quiet_of_read
    · rw [hlinks]
      cases level with
      | zero => exact le_rfl
      | succ level => exact le_rfl
    · rw [hremaining]
      cases level with
      | zero =>
          have hless := remaining_link_le (f := f) (s := s) (S := S) (N := N)
            { c with splice := c.splice.set 0 before (s.next 0 before) } 0
          exact hless.trans_le (Nat.le_add_right _ _)
      | succ level =>
          change c.linkSteps N + (level * (N + 1) + ahead f (S level) before) < _
          have hahead := ahead_le (f := f) (hfin level) (hN level) before
          rw [Nat.succ_mul]
          omega
  · obtain ⟨-, hafter⟩ := not_or.mp hfound
    cases hnext : s.next level before with
    | none =>
        rw [hnext] at hafter
        exact absurd (not_not.mp hafter) (by simp [keyIsAfterNode])
    | some n =>
        refine quiet_of_read ?_ ?_
        · exact hlinks.ge
        rw [hremaining]
        have hless := (hlev.linked level).ncard_behind_lt (hfin level) hin hnext
        change c.linkSteps N + (level * (N + 1) + ahead f (S level) (some n)) < _
        exact Nat.add_lt_add_left (Nat.add_lt_add_left hless _) _

theorem quiet_againTurn (hlev : s.Levels f S) (hfin : ∀ j, (S j).Finite) {level : ℕ}
    {before : Option (SkipNode κ)} (hstage : c.stage = .again level before)
    (hlevel : level < c.x.height) (hin : InList (S level) before) :
    Quiet f s s S N c (c.againTurn cmp s level before) := by
  have hlinks : c.linksLeft = c.x.height - level := by rw [linksLeft, hstage]
  have hremaining : c.remaining f s S N =
      (c.x.height - level) * (N + 4) + (3 + ahead f (S level) before) := by
    rw [remaining, hstage]
  unfold againTurn
  dsimp only
  split_ifs with hfound
  · refine quiet_of_read ?_ ?_
    · exact hlinks.ge
    rw [hremaining]
    unfold remaining
    dsimp only
    rw [if_neg (not_le.mpr hlevel), Splice.set_prev_self, Splice.set_next_self, if_pos rfl]
    omega
  · obtain ⟨hne, -⟩ := not_or.mp hfound
    obtain ⟨n, hnext⟩ := Option.ne_none_iff_exists'.mp hne
    rw [hnext]
    refine quiet_of_read ?_ ?_
    · exact hlinks.ge
    rw [hremaining]
    have hless := (hlev.linked level).ncard_behind_lt (hfin level) hin hnext
    change (c.x.height - level) * (N + 4) + (3 + ahead f (S level) (some n)) < _
    exact Nat.add_lt_add_left (Nat.add_lt_add_left hless _) _

/-- How a turn at a link ends: the link is there, or nobody else feels it. -/
theorem linkTurn_cases (hfin : ∀ j, (S j).Finite) (hN : ∀ j, (S j).ncard ≤ N) {level : ℕ}
    (h : c.Linking f s S level) (hstage : c.stage = .link level) :
    (level < c.x.height ∧ (c.linkTurn cmp s level).2 = { c with stage := .link (level + 1) } ∧
        (c.linkTurn cmp s level).1.maxHeight = s.maxHeight) ∨
      Quiet f s (c.linkTurn cmp s level).1 S N c (c.linkTurn cmp s level).2 ∧
        ((∃ before, (c.linkTurn cmp s level).2.stage = .again level before) ∨
          ∃ b, (c.linkTurn cmp s level).2.stage = .returned b ∧
            (b = true → c.x.height ≤ level)) := by
  have hlinks : c.linksLeft = c.x.height - level := by rw [linksLeft, hstage]
  have hpos : 0 < c.remaining f s S N := by
    rw [remaining, hstage]
    dsimp only
    split_ifs <;> omega
  have hreturned : ∀ b c', c'.stage = .returned b → Quiet f s s S N c c' := by
    intro b c' hb
    refine quiet_of_read ?_ ?_
    · rw [linksLeft, hb]
      exact Nat.zero_le _
    · rw [remaining, hb]
      exact hpos
  unfold linkTurn
  by_cases hdone : c.x.height ≤ level
  · rw [if_pos hdone]
    exact Or.inr ⟨hreturned true c.finish rfl, Or.inr ⟨true, rfl, fun _ => hdone⟩⟩
  · rw [if_neg hdone]
    -- an exchange that fails begins the search again
    have hagain : ∀ s₁ : InlineSkipList κ, s₁.maxHeight = s.maxHeight →
        (∀ j p, InList (S j) p → s₁.next j p = s.next j p) →
        s.next level (c.splice.prev level) ≠ c.splice.next level →
        Quiet f s s₁ S N c { c with stage := .again level (c.splice.prev level) } := by
      intro s₁ hmax hnext hne
      refine ⟨hmax, hnext, hlinks.ge, ?_⟩
      have hahead := ahead_le (f := f) (hfin level) (hN level) (c.splice.prev level)
      unfold remaining
      rw [hstage]
      dsimp only
      rw [if_neg hdone, if_neg hne]
      omega
    by_cases hloose : ¬ c.useCas ∧ c.recomputeHeight ≤ level ∧
        s.next level (c.splice.prev level) ≠ c.splice.next level
    · rw [if_pos hloose]
      exact Or.inr ⟨hagain s rfl (fun _ _ _ => rfl) hloose.2.2, Or.inl ⟨_, rfl⟩⟩
    · rw [if_neg hloose]
      by_cases hdup : c.duplicate cmp level = true
      · rw [if_pos hdup]
        refine Or.inr ⟨hreturned false { c with stage := .returned false } rfl,
          Or.inr ⟨false, rfl, ?_⟩⟩
        rintro ⟨⟩
      · rw [if_neg hdup]
        -- only the node of the call itself leads somewhere else now
        have hread : ∀ j p, InList (S j) p →
            (s.setNext level (some c.x) (c.splice.next level)).next j p = s.next j p := by
          intro j p hin
          by_cases hj : j = level
          · subst hj
            rw [setNext_next_self, Function.update_of_ne]
            rintro rfl
            exact absurd ((h.linked j).mp (inList_some.mp hin)) (lt_irrefl j)
          · rw [setNext_next_of_ne hj]
        dsimp only
        by_cases hfail : c.useCas ∧ (s.setNext level (some c.x) (c.splice.next level)).next level
            (c.splice.prev level) ≠ c.splice.next level
        · rw [if_pos hfail]
          have hne := hfail.2
          rw [hread level _ (h.prevIn level (h.le_height.trans h.sized.height_le))] at hne
          exact Or.inr ⟨hagain _ rfl hread hne, Or.inl ⟨_, rfl⟩⟩
        · rw [if_neg hfail]
          exact Or.inl ⟨not_le.mp hdone, rfl, rfl⟩

variable {cmp}

/-- What a step brings: a link, a higher list, or the call closer to its return. -/
theorem Stepped.progress (hlev : s.Levels f S) (h : c.Inv f s S) (hfin : ∀ j, (S j).Finite)
    (hN : ∀ j, (S j).ncard ≤ N) (hactive : ∀ b, c.stage ≠ .returned b)
    (hstep : Stepped f s (c.step cmp false s).1 S S' c (c.step cmp false s).2) :
    ((c.step cmp false s).2.linksLeft < c.linksLeft ∧
        (c.step cmp false s).1.maxHeight = s.maxHeight) ∨
      (s.maxHeight < (c.step cmp false s).1.maxHeight ∧
        (c.step cmp false s).2.linksLeft ≤ c.linksLeft) ∨
      (S' = S ∧ Quiet f s (c.step cmp false s).1 S N c (c.step cmp false s).2) := by
  obtain ⟨-, h⟩ := h
  have hsame : (∀ i, c.stage ≠ .link i) → S' = S := by
    intro hnot
    rcases hstep.sets with heq | ⟨i, hi, -⟩
    · exact heq
    · exact absurd hi (hnot i)
  cases hstage : c.stage with
  | start =>
      refine Or.inr (Or.inr ⟨hsame (by rw [hstage]; rintro i ⟨⟩), ?_⟩)
      have hstep : c.step cmp false s = (s, { c with stage := .raise s.maxHeight }) := by
        rw [Inserting.step, hstage]
      rw [hstep]
      refine quiet_of_read ?_ ?_
      · rw [linksLeft, linksLeft, hstage]
      · unfold remaining
        rw [hstage]
        dsimp only
        rw [if_pos rfl]
        exact Nat.add_lt_add_left (Nat.add_lt_add_left (Nat.lt_succ_self _) _) _
  | raise m =>
      rw [hstage] at h
      obtain ⟨-, -, -, -, hm, -⟩ := h
      have hlinks : c.linksLeft = c.x.height := by rw [linksLeft, hstage]
      have hremaining : c.remaining f s S N = c.linkSteps N +
          ((max s.maxHeight c.x.height + 1) * (N + 1) +
            (max s.maxHeight c.x.height + 1 + if m = s.maxHeight then 0 else 1)) := by
        rw [remaining, hstage]
      have hchoose : ∀ k, k ≤ max s.maxHeight c.x.height →
          (c.chooseLevels k).remaining f s S N < c.remaining f s S N := by
        intro k hk
        have hless := remaining_chooseLevels_lt (f := f) (s := s) hfin hN c k
        have hmul : (k + 1) * (N + 1) ≤ (max s.maxHeight c.x.height + 1) * (N + 1) :=
          Nat.mul_le_mul_right _ (Nat.succ_le_succ hk)
        rw [hremaining]
        omega
      unfold Inserting.step at hstep ⊢
      rw [hstage] at hstep ⊢
      dsimp only at hstep ⊢
      by_cases hlow : m < c.x.height
      · rw [if_pos hlow]
        by_cases hexchange : s.maxHeight = m ∧ ¬ false = true
        · rw [if_pos hexchange]
          refine Or.inr (Or.inl ⟨?_, ?_⟩)
          · rw [hexchange.1]
            exact hlow
          · rw [linksLeft_chooseLevels, hlinks]
        · rw [if_neg hexchange]
          refine Or.inr (Or.inr ⟨hsame (by rw [hstage]; rintro i ⟨⟩), quiet_of_read ?_ ?_⟩)
          · exact hlinks.ge
          · have hne : m ≠ s.maxHeight := fun heq => hexchange ⟨heq.symm, by simp⟩
            rw [hremaining, if_neg hne]
            unfold remaining
            dsimp only
            rw [if_pos rfl]
            exact Nat.add_lt_add_left (Nat.add_lt_add_left (Nat.lt_succ_self _) _) _
      · rw [if_neg hlow]
        refine Or.inr (Or.inr ⟨hsame (by rw [hstage]; rintro i ⟨⟩), quiet_of_read ?_ ?_⟩)
        · rw [linksLeft_chooseLevels, hlinks]
        · exact hchoose m (hm.trans (le_max_left _ _))
  | validate r =>
      rw [hstage] at h
      obtain ⟨hsized, -, -, -, hr⟩ := h
      refine Or.inr (Or.inr ⟨hsame (by rw [hstage]; rintro i ⟨⟩), ?_⟩)
      have hstep : c.step cmp false s = (s, c.validateTurn cmp s r) := by
        rw [Inserting.step, hstage]
      rw [hstep]
      exact quiet_validateTurn cmp hfin hN hstage (hsized.maxHeight_eq ▸ hr)
  | search level before after =>
      rw [hstage] at h
      refine Or.inr (Or.inr ⟨hsame (by rw [hstage]; rintro i ⟨⟩), ?_⟩)
      have hstep : c.step cmp false s = (s, c.searchTurn cmp s level before after) := by
        rw [Inserting.step, hstage]
      rw [hstep]
      exact quiet_searchTurn cmp hlev hfin hN hstage h.beforeIn
  | link level =>
      rw [hstage] at h
      have hturn : c.step cmp false s = c.linkTurn cmp s level := by
        rw [Inserting.step, hstage]
      rw [hturn] at hstep ⊢
      rcases linkTurn_cases cmp hfin hN h hstage with ⟨hlt, hlinked, hmax⟩ | ⟨hquiet, hends⟩
      · refine Or.inl ⟨?_, hmax⟩
        rw [hlinked, linksLeft, linksLeft, hstage]
        dsimp only
        omega
      · refine Or.inr (Or.inr ⟨?_, hquiet⟩)
        rcases hstep.sets with heq | ⟨i, hi, heq⟩
        · exact heq
        · -- the node would be on this level
          rw [hstage] at hi
          cases hi
          have hmem : (c.linkTurn cmp s level).2.x ∈ S' level := by
            rw [(sameCall_linkTurn cmp c s level).1, heq, Function.update_self]
            exact Set.mem_insert _ _
          have hinv := hstep.inv.2
          rcases hends with ⟨before, hagain⟩ | ⟨b, hreturned, hdone⟩
          · rw [hagain] at hinv
            exact absurd ((hinv.1.linked level).mp hmem) (lt_irrefl level)
          · rw [hreturned] at hinv
            cases b with
            | true =>
                have hlt := (hinv.2 level).mp hmem
                rw [(sameCall_linkTurn cmp c s level).1] at hlt
                exact absurd (hdone rfl) (not_le.mpr hlt)
            | false => exact absurd hmem (hinv.2.1 level)
  | again level before =>
      rw [hstage] at h
      obtain ⟨-, hlevel, hin, -⟩ := h
      refine Or.inr (Or.inr ⟨hsame (by rw [hstage]; rintro i ⟨⟩), ?_⟩)
      have hstep : c.step cmp false s = (s, c.againTurn cmp s level before) := by
        rw [Inserting.step, hstage]
      rw [hstep]
      exact quiet_againTurn cmp hlev hfin hstage hlevel hin
  | returned b => exact absurd hstage (hactive b)

theorem step_maxHeight (c : Inserting κ) (cmp : κ → κ → Ordering) (weak : Bool)
    (s : InlineSkipList κ) : (c.step cmp weak s).1.maxHeight = s.maxHeight ∨
      (c.step cmp weak s).1.maxHeight = c.x.height := by
  unfold Inserting.step
  cases c.stage with
  | raise m =>
      dsimp only
      split_ifs
      · exact Or.inr rfl
      · exact Or.inl rfl
      · exact Or.inl rfl
  | link level =>
      dsimp only
      unfold linkTurn
      dsimp only
      split_ifs <;> exact Or.inl rfl
  | _ => exact Or.inl rfl

/-- No call is ever further from its next link than this. -/
def stepsBound (N H : ℕ) : ℕ := H * (N + 4) + (N + 5) + ((H + 1) * (N + 1) + (H + 2))

theorem Inv.remaining_le (h : c.Inv f s S) (hfin : ∀ j, (S j).Finite)
    (hN : ∀ j, (S j).ncard ≤ N) {H : ℕ} (hx : c.x.height ≤ H) (hs : s.maxHeight ≤ H) :
    c.remaining f s S N ≤ stepsBound N H := by
  obtain ⟨-, h⟩ := h
  have hlink : ∀ k, k ≤ c.x.height → k * (N + 4) ≤ H * (N + 4) := fun k hk =>
    Nat.mul_le_mul_right _ (hk.trans hx)
  have hlevel : ∀ k, k ≤ H → (k + 1) * (N + 1) ≤ (H + 1) * (N + 1) := fun k hk =>
    Nat.mul_le_mul_right _ (Nat.succ_le_succ hk)
  have hmax : max s.maxHeight c.x.height ≤ H := max_le hs hx
  have hall := hlink _ le_rfl
  unfold remaining stepsBound linkSteps
  cases hstage : c.stage with
  | start =>
      dsimp only
      have := hlevel _ hmax
      omega
  | raise m =>
      dsimp only
      have := hlevel _ hmax
      split_ifs <;> omega
  | validate r =>
      rw [hstage] at h
      obtain ⟨hsized, -⟩ := h
      have hle : c.maxHeight ≤ H := hsized.maxHeight_eq ▸ hsized.le_maxHeight.trans hs
      dsimp only
      have := hlevel _ hle
      omega
  | search level before after =>
      rw [hstage] at h
      have hle : level ≤ H := (h.lt_recompute.le.trans h.recompute_le).trans
        (h.sized.le_maxHeight.trans hs)
      have hahead := ahead_le (f := f) (hfin level) (hN level) before
      dsimp only
      have := hlevel _ hle
      rw [Nat.succ_mul] at this
      omega
  | link level =>
      dsimp only
      have := hlink (c.x.height - level) (Nat.sub_le _ _)
      split_ifs <;> omega
  | again level before =>
      have hahead := ahead_le (f := f) (hfin level) (hN level) before
      dsimp only
      have := hlink (c.x.height - level) (Nat.sub_le _ _)
      omega
  | returned b =>
      dsimp only
      omega

/-- A quiet step leaves the others where they are. -/
theorem Quiet.others {e c' : Inserting κ} (h : Quiet f s s' S N c c') (he : e.Inv f s S) :
    e.remaining f s' S N = e.remaining f s S N := by
  obtain ⟨-, he⟩ := he
  unfold Inserting.remaining
  cases hstage : e.stage with
  | link level =>
      rw [hstage] at he
      dsimp only
      rw [h.next level _ (he.prevIn level (he.le_height.trans he.sized.height_le))]
  | start | raise m =>
      dsimp only
      rw [h.maxHeight]
  | _ => rfl

end Inserting

/-- A sum of which one summand changes. -/
theorem sum_map_set {β : Type} {l : List β} {i : ℕ} {d : β} (hd : l[i]? = some d) (d' : β)
    (g g' : β → ℕ) (hothers : ∀ (j : ℕ) (e : β), l[j]? = some e → j ≠ i → g' e = g e) :
    ((l.set i d').map g').sum + g d = (l.map g).sum + g' d' := by
  induction l generalizing i with
  | nil => cases hd
  | cons e l ih =>
      cases i with
      | zero =>
          obtain rfl := Option.some.inj hd
          have hrest : l.map g' = l.map g := List.map_congr_left fun a ha => by
            obtain ⟨j, hj⟩ := List.mem_iff_getElem?.mp ha
            exact hothers (j + 1) a hj (Nat.succ_ne_zero j)
          rw [List.set_cons_zero, List.map_cons, List.map_cons, hrest, List.sum_cons, List.sum_cons]
          omega
      | succ i =>
          have hrest := ih hd fun j a ha hj => hothers (j + 1) a ha (by omega)
          rw [List.set_cons_succ, List.map_cons, List.map_cons, List.sum_cons, List.sum_cons,
            hothers 0 e rfl (by omega)]
          omega

/-- The events of a run in which no insert begins and no exchange fails without a reason. -/
def SkipListEvent.Ongoing : SkipListEvent κ → Prop
  | .insert _ _ _ => False
  | .insertStep _ weak => weak = false
  | .find _ | .findStep _ => True

def SkipListEvent.isInsertStep : SkipListEvent κ → Bool
  | .insertStep _ _ => true
  | _ => false

namespace SkipListSystem

variable {s s' : SkipListSystem κ}

/-- The steps that the calls may still take, for lists and nodes of height at most `H`. -/
noncomputable def stepsLeft [DecidableEq κ] (f : κ → α) (S : LevelSets κ) (H : ℕ)
    (s : SkipListSystem κ) : ℕ :=
  (H - s.list.maxHeight + (s.calls.map fun d => d.inserting.linksLeft).sum) *
      (s.calls.length * Inserting.stepsBound s.calls.length H + 1) +
    (s.calls.map fun d => d.inserting.remaining f s.list S s.calls.length).sum

variable [DecidableEq κ] {cmp : κ → κ → Ordering}

theorem Inv.remaining_le (h : s.Inv f S) {H : ℕ} (hlist : s.list.maxHeight ≤ H)
    (hnodes : ∀ d ∈ s.calls, d.inserting.x.height ≤ H) :
    (s.calls.map fun d => d.inserting.remaining f s.list S s.calls.length).sum ≤
      s.calls.length * Inserting.stepsBound s.calls.length H := by
  have hle := List.sum_le_card_nsmul
    (s.calls.map fun d => d.inserting.remaining f s.list S s.calls.length)
    (Inserting.stepsBound s.calls.length H) ?_
  · rw [List.length_map, nsmul_eq_mul, Nat.cast_id] at hle
    exact hle
  · intro k hk
    obtain ⟨d, hd, rfl⟩ := List.mem_map.mp hk
    obtain ⟨i, hi⟩ := List.mem_iff_getElem?.mp hd
    exact (h.calls i d hi).1.remaining_le h.finite h.ncard_le (hnodes d hd) hlist

theorem stepsLeft_lt_of_progress {call H : ℕ} {d : InsertCall κ} {list' : InlineSkipList κ}
    {c' : Inserting κ} {splices' : Option ℕ → Splice κ} (hd : s.calls[call]? = some d)
    (hothers : ∀ e ∈ s.calls, e.inserting.Inv f s.list S)
    (hbound : ((s.calls.set call { d with inserting := c' }).map fun e =>
      e.inserting.remaining f list' S' s.calls.length).sum ≤
        s.calls.length * Inserting.stepsBound s.calls.length H)
    (hH : list'.maxHeight ≤ H)
    (hprogress : (c'.linksLeft < d.inserting.linksLeft ∧ list'.maxHeight = s.list.maxHeight) ∨
      (s.list.maxHeight < list'.maxHeight ∧ c'.linksLeft ≤ d.inserting.linksLeft) ∨
      (S' = S ∧ Inserting.Quiet f s.list list' S s.calls.length d.inserting c')) :
    stepsLeft f S' H { s with
      list := list'
      calls := s.calls.set call { d with inserting := c' }
      splices := splices' } < s.stepsLeft f S H := by
  have hlinks := sum_map_set hd { d with inserting := c' } (fun e => e.inserting.linksLeft)
    (fun e => e.inserting.linksLeft) fun _ _ _ _ => rfl
  unfold stepsLeft
  dsimp only at hlinks ⊢
  rw [List.length_set]
  generalize s.calls.length * Inserting.stepsBound s.calls.length H = C at hbound ⊢
  -- a link, or a higher list, is worth as much as the steps of all calls
  have hworth : ∀ a b R R' : ℕ, a < b → R ≤ C → a * (C + 1) + R < b * (C + 1) + R' := by
    intro a b R R' hab hR
    have hmul : (a + 1) * (C + 1) ≤ b * (C + 1) := Nat.mul_le_mul_right _ hab
    rw [Nat.succ_mul] at hmul
    omega
  rcases hprogress with ⟨hless, hmax⟩ | ⟨hmax, hless⟩ | ⟨rfl, hquiet⟩
  · apply hworth _ _ _ _ _ hbound
    omega
  · apply hworth _ _ _ _ _ hbound
    omega
  · have hsum := sum_map_set hd { d with inserting := c' }
      (fun e => e.inserting.remaining f s.list S' s.calls.length)
      (fun e => e.inserting.remaining f list' S' s.calls.length)
      fun j e he _ => hquiet.others (hothers e (List.mem_of_getElem? he))
    have hless := hquiet.remaining
    have hmono : H - list'.maxHeight +
        ((s.calls.set call { d with inserting := c' }).map fun e => e.inserting.linksLeft).sum ≤
        H - s.list.maxHeight + (s.calls.map fun e => e.inserting.linksLeft).sum := by
      have := hquiet.linksLeft
      rw [hquiet.maxHeight]
      omega
    have hmul := Nat.mul_le_mul_right (C + 1) hmono
    dsimp only at hsum
    omega

variable (hf : ∀ a b, cmp a b = compare (f a) (f b))
include hf

/-- Every step of an insert is one of the steps that are left. -/
theorem Inv.stepsLeft_lt (h : s.Inv f S) {H : ℕ} (hlist : s.list.maxHeight ≤ H)
    (hnodes : ∀ d ∈ s.calls, d.inserting.x.height ≤ H) {call : ℕ}
    (hs : s.step cmp (.insertStep call false) = some s') :
    ∃ S', s'.Inv f S' ∧ s'.list.maxHeight ≤ H ∧ (∀ d ∈ s'.calls, d.inserting.x.height ≤ H) ∧
      s'.stepsLeft f S' H < s.stepsLeft f S H := by
  obtain ⟨d, hd, hs⟩ := Option.bind_eq_some_iff.mp hs
  obtain ⟨hactive, hs⟩ := Option.ite_none_right_eq_some.mp hs
  obtain rfl := Option.some.inj hs
  obtain ⟨hinv, -⟩ := h.calls call d hd
  obtain ⟨S', hstep⟩ := hinv.step hf h.levels false
  have h' := h.insertStep hd hactive hstep
  have hdx := hnodes d (List.mem_of_getElem? hd)
  have hreturned : ∀ b, d.inserting.stage ≠ .returned b := by
    intro b hb
    rw [InsertCall.active_eq_false.mpr ⟨b, hb⟩] at hactive
    cases hactive
  have hlist' : (d.inserting.step cmp false s.list).1.maxHeight ≤ H := by
    rcases d.inserting.step_maxHeight cmp false s.list with heq | heq
    · exact heq.trans_le hlist
    · exact heq.trans_le hdx
  have hnodes' : ∀ e ∈ s.calls.set call
      { d with inserting := (d.inserting.step cmp false s.list).2 }, e.inserting.x.height ≤ H := by
    intro e he
    rcases List.mem_or_eq_of_mem_set he with he | rfl
    · exact hnodes e he
    · exact (congrArg SkipNode.height
        (Inserting.sameCall_step cmp false s.list d.inserting).1).trans_le hdx
  have hbound := h'.remaining_le hlist' hnodes'
  rw [List.length_set] at hbound
  refine ⟨S', h', hlist', hnodes', ?_⟩
  refine stepsLeft_lt_of_progress hd (fun e he => ?_) hbound hlist'
    (hstep.progress h.levels hinv h.finite h.ncard_le hreturned)
  obtain ⟨i, hi⟩ := List.mem_iff_getElem?.mp he
  exact (h.calls i e hi).1

/-- All steps of inserts in a run in which no insert begins. -/
theorem Inv.countP_le (h : s.Inv f S) {H : ℕ} (hlist : s.list.maxHeight ≤ H)
    (hnodes : ∀ d ∈ s.calls, d.inserting.x.height ≤ H) {es : List (SkipListEvent κ)}
    (hes : ∀ e ∈ es, e.Ongoing) (hs : s.run cmp es = some s') :
    es.countP SkipListEvent.isInsertStep ≤ s.stepsLeft f S H := by
  induction es generalizing s S with
  | nil => exact Nat.zero_le _
  | cons e es ih =>
      obtain ⟨s₁, he, hrun⟩ := Option.bind_eq_some_iff.mp hs
      have hrest : ∀ e ∈ es, e.Ongoing := fun e he => hes e (List.mem_cons_of_mem _ he)
      have hongoing := hes e List.mem_cons_self
      cases e with
      | insert kind key height => exact hongoing.elim
      | insertStep call weak =>
          obtain rfl : weak = false := hongoing
          obtain ⟨S₁, h₁, hlist₁, hnodes₁, hlt⟩ := h.stepsLeft_lt hf hlist hnodes he
          have hle := ih h₁ hlist₁ hnodes₁ hrest hrun
          rw [List.countP_cons_of_pos rfl]
          omega
      | find kind =>
          obtain rfl := Option.some.inj he
          rw [List.countP_cons_of_neg (by rintro ⟨⟩)]
          have hle := ih (h.find kind) hlist hnodes hrest hrun
          exact hle
      | findStep i =>
          obtain ⟨d, hd, he⟩ := Option.bind_eq_some_iff.mp he
          obtain rfl := Option.some.inj he
          rw [List.countP_cons_of_neg (by rintro ⟨⟩)]
          have hle := ih (h.findStep hf hd) hlist hnodes hrest hrun
          exact hle

end SkipListSystem

/-! ### Every run -/

namespace SkipListSystem

variable {κ : Type} [DecidableEq κ] {cmp : κ → κ → Ordering} {s : SkipListSystem κ}

/-- A call that has not returned can always go on. -/
theorem step_insertStep {call : ℕ} {d : InsertCall κ} (hd : s.calls[call]? = some d)
    (hactive : d.active = true) (cmp : κ → κ → Ordering) (weak : Bool) :
    s.step cmp (.insertStep call weak) = some { s with
      list := (d.inserting.step cmp weak s.list).1
      calls := s.calls.set call { d with inserting := (d.inserting.step cmp weak s.list).2 }
      splices := s.keepSplice { d with inserting := (d.inserting.step cmp weak s.list).2 } } := by
  rw [SkipListSystem.step, hd, Option.bind_eq_bind, Option.bind_some, if_pos hactive]

omit [DecidableEq κ] in
theorem exists_height (s : SkipListSystem κ) :
    ∃ H, s.list.maxHeight ≤ H ∧ ∀ d ∈ s.calls, d.inserting.x.height ≤ H := by
  refine ⟨s.list.maxHeight + (s.calls.map fun d => d.inserting.x.height).sum,
    Nat.le_add_right _ _, fun d hd => ?_⟩
  have hle := List.single_le_sum (fun k _ => Nat.zero_le k) d.inserting.x.height
    (List.mem_map_of_mem (f := fun d : InsertCall κ => d.inserting.x.height) hd)
  omega

/-- However the steps of the inserts that are there fall between each other, they all end:
the number of their steps is bounded, and none is stuck before it returns. -/
theorem inserts_end [Std.TransCmp cmp] {es : List (SkipListEvent κ)}
    (hs : create.run cmp es = some s) :
    ∃ bound, ∀ (es' : List (SkipListEvent κ)) (s' : SkipListSystem κ),
      (∀ e ∈ es', e.Ongoing) → s.run cmp es' = some s' →
      es'.countP SkipListEvent.isInsertStep ≤ bound ∧
        ∀ (call : ℕ) (d : InsertCall κ), s'.calls[call]? = some d → d.active = true →
          ∃ s'', s'.step cmp (.insertStep call false) = some s'' := by
  obtain ⟨α, order, f, S, hf, h⟩ := exists_inv hs
  obtain ⟨H, hlist, hnodes⟩ := s.exists_height
  refine ⟨s.stepsLeft f S H, fun es' s' hes' hs' => ⟨h.countP_le hf hlist hnodes hes' hs', ?_⟩⟩
  intro call d hd hactive
  exact ⟨_, step_insertStep hd hactive cmp false⟩

theorem overlappingInserts_end :
    ∃ (s : SkipListSystem ℕ) (bound : ℕ), create.run compare overlappingInserts = some s ∧
      ∀ (es : List (SkipListEvent ℕ)) (s' : SkipListSystem ℕ), (∀ e ∈ es, e.Ongoing) →
        s.run compare es = some s' → es.countP SkipListEvent.isInsertStep ≤ bound := by
  obtain ⟨s, hs⟩ := Option.isSome_iff_exists.mp overlappingInserts_isSome
  obtain ⟨bound, hbound⟩ := inserts_end hs
  exact ⟨s, bound, hs, fun es s' hes hs' => (hbound es s' hes hs').1⟩

end SkipListSystem

end Tweezer