import Tweezer.CompactionSteps

/-!
# The turns of a compaction

Each case of a turn of `NextFromInput` keeps the invariant, if no value at sequence number 0 is
mistaken for one that no snapshot sees.
-/

namespace Tweezer

open NewestVisible (HiddenBy SameReads)

namespace CompactionIterator

variable {C : CompactionIterator} {input older done out rest : List CompactionEntry}
  {e : CompactionEntry} {key : Bytes} {last : ℕ} {clear : Bool}

/-- The state once the entry that goes out is behind the iterator, as at the beginning of `Next`. -/
def State.pass (s : State) : State := if s.atNext then s else { s with input := s.input.tail }

/-! ### `PrepareOutput` -/

theorem not_exists_of_bottommost (h : C.bottommostLevel = true) (key : Bytes) :
    C.keyNotExistsBeyondOutputLevel key = true := by
  unfold bottommostLevel at h
  unfold keyNotExistsBeyondOutputLevel
  cases hcompaction : C.compaction with
  | none =>
      rw [hcompaction] at h
      cases h
  | some c =>
      rw [hcompaction, Bool.and_eq_true] at h
      exact c.not_exists h.1 key

theorem prepare_eq_self {x : CompactionEntry}
    (h : C.bottommostLevel = true → C.earliestSnapshot < x.sequence) : C.prepare x = x := by
  unfold prepare
  rw [if_neg fun hzero => absurd hzero.2.2 (h hzero.1).not_ge]

/-- What goes out while its key is current, with its sequence number set to zero or not. -/
theorem Facing.outputPrepared {v : View} {x : CompactionEntry}
    (h : Facing C input older done e rest key last clear out) (hx : C.Same x e)
    (hseq : x.sequence = e.sequence) (htype : x.type = e.type)
    (hreads : C.ReadsSame (out ++ (x :: (rest ++ older))) (input ++ older)) (hin : v.input = rest)
    (hsnap : v.snapshot = C.earliestVisibleSnapshot e.sequence) (hkey : v.key = some key)
    (hclear : v.clear = false) :
    Upheld C input older (done ++ [e]) v (out ++ [C.prepare x]) := by
  by_cases hzero : C.bottommostLevel = true ∧
      C.ikeyNotNeededForIncrementalSnapshot x.sequence = true ∧ x.sequence ≤ C.earliestSnapshot
  · obtain ⟨y, hy⟩ : ∃ y, y = C.prepare x := ⟨_, rfl⟩
    have hprepare : y = { x with sequence := 0, sequence_le := Nat.zero_le _ } := by
      rw [hy, prepare, if_pos hzero]
    have hyx : C.Same y x := by
      rw [hprepare]
      exact Same.refl x
    have hyseq : y.sequence = 0 := by rw [hprepare]
    have hytype : y.type = x.type := by rw [hprepare]
    have hyvalue : y.value = x.value := by rw [hprepare]
    rw [← hy]
    apply h.outputZero (hyx.trans hx) hyseq (hytype.trans htype) (hseq ▸ hzero.2.2) _
      (not_exists_of_bottommost hzero.1 key) hin hsnap hkey hclear
    have hchange : C.ReadsSame (out ++ (y :: (rest ++ older))) (out ++ (x :: (rest ++ older))) := by
      have := C.cmp.transCmp
      apply SameReads.append_left
      apply SameReads.of_same
      · intro r hr
        apply Bool.eq_iff_iff.mpr
        rw [sees_iff, sees_iff, hyseq]
        have hxr : x.sequence ≤ r.2 := hzero.2.2.trans (earliestSnapshot_le hr)
        constructor
        · exact fun hs => ⟨Std.TransCmp.eq_trans hyx.symm hs.1, hxr⟩
        · exact fun hs => ⟨Std.TransCmp.eq_trans hyx hs.1, Nat.zero_le _⟩
      · unfold found
        rw [hytype, hyvalue]
    exact hchange.trans hreads
  · have hself : C.prepare x = x := by
      unfold prepare
      rw [if_neg hzero]
    rw [hself]
    exact h.output hx hseq htype hreads hin hsnap (Or.inl hkey)
      fun hc => Bool.noConfusion (hclear.symm.trans hc)

/-! ### Values at sequence number 0 -/

/-- A single deletion is not paired with a version that a snapshot at 0 sees. -/
theorem single_hides_next {next : CompactionEntry} (hzero : C.ZeroKept input)
    (hsplit : input = done ++ e :: next :: rest) (htype : e.type = .singleDeletion)
    (hvalue : next.type = .value)
    (hprev : C.prevSnapshot e.sequence = 0 ∨ C.prevSnapshot e.sequence < next.sequence) :
    ∀ s, C.Listed s → next.sequence ≤ s → e.sequence ≤ s := by
  intro s hs hle
  apply le_of_prevSnapshot e.sequence_le hprev _ hs hle
  intro hmem hnext
  have hsplit' : input = (done ++ [e]) ++ next :: rest := by
    rw [hsplit, List.append_assoc, List.singleton_append]
  obtain ⟨newer, p, habove, _, hp⟩ := hzero hmem _ next rest hsplit' hnext hvalue
  obtain ⟨_, hpe⟩ := List.append_inj' habove rfl
  obtain rfl : e = p := List.head_eq_of_cons_eq hpe
  cases hp with
  | inl h => exact h
  | inr h =>
      have hne := h.1 htype
      omega

/-- The first version of a key is dropped only as the last, as a deletion. -/
theorem not_value_of_first (hzero : C.ZeroKept input) (hsplit : input = done ++ e :: rest)
    (hfirst : ∀ p, done.getLast? = some p → ¬C.Same p e)
    (hsnap : C.earliestVisibleSnapshot e.sequence = 0) : e.type ≠ .value ∧ e.sequence = 0 := by
  obtain ⟨hseq, hmem⟩ := eq_zero_of_earliestVisibleSnapshot e.sequence_le hsnap
  constructor
  · intro hvalue
    obtain ⟨newer, p, habove, hpe, _⟩ := hzero hmem done e rest hsplit hseq hvalue
    exact hfirst p (habove ▸ List.getLast?_concat) hpe
  · exact hseq

/-- No value that a snapshot sees is skipped behind a deletion. -/
theorem skipped_quiet {skipped : List CompactionEntry} (hzero : C.ZeroKept input)
    (hsplit : input = done ++ e :: (skipped ++ rest)) (htype : e.type = .deletion)
    (hbottom : C.bottommostLevel = true)
    (hnotNeeded : C.ikeyNotNeededForIncrementalSnapshot e.sequence = true)
    (hnewest : C.NewestOfStripe done e)
    (hskipped : ∀ b ∈ skipped, C.Same e b ∧
      (C.prevSnapshot e.sequence = 0 ∨ C.prevSnapshot e.sequence < b.sequence))
    (r : Bytes × ℕ) (hr : C.Listed r.2) (hnot : ¬C.sees r e = true) :
    NewestVisible.read C.sees found r skipped = none := by
  have := C.cmp.transCmp
  unfold NewestVisible.read
  cases hfind : skipped.find? (C.sees r) with
  | none => rfl
  | some z =>
      obtain ⟨hzsees, front, back, hskip, hfront⟩ := List.find?_eq_some_iff_append.mp hfind
      have hzmem : z ∈ skipped := hskip ▸ List.mem_append_right front List.mem_cons_self
      obtain ⟨hez, hprev⟩ := hskipped z hzmem
      obtain ⟨hzkey, hzseq⟩ := sees_iff.mp hzsees
      have hlt : r.2 < e.sequence := by
        by_contra hle
        exact hnot (sees_iff.mpr ⟨Std.TransCmp.eq_trans hez hzkey, Nat.le_of_not_lt hle⟩)
      apply found_of_ne
      intro hvalue
      -- it is one at 0, with a snapshot at 0
      have hconfused : ¬(0 ∈ C.snapshots → z.sequence = 0 → e.sequence = 0) := by
        intro hzero'
        exact hlt.not_ge (le_of_prevSnapshot e.sequence_le hprev hzero' hr hzseq)
      simp only [not_forall, exists_prop] at hconfused
      obtain ⟨hmem, hz0, he0⟩ := hconfused
      have hsplit' : input = (done ++ e :: front) ++ z :: (back ++ rest) := by
        rw [hsplit, hskip]
        simp
      obtain ⟨newer, p, habove, hpz, hp⟩ := hzero hmem _ z _ hsplit' hz0 hvalue
      cases hp with
      | inl hp0 =>
          have hlast : (e :: front).getLast? = some p := by
            have hlast' : (done ++ e :: front).getLast? = some p :=
              habove ▸ List.getLast?_concat
            rwa [List.getLast?_append_of_ne_nil done (List.cons_ne_nil e front)] at hlast'
          cases List.mem_cons.mp (List.mem_of_getLast? hlast) with
          | inl heq => exact he0 (heq ▸ hp0)
          | inr hpmem =>
              have hpsees : C.sees r p = true :=
                sees_iff.mpr ⟨Std.TransCmp.eq_trans hpz hzkey, hp0 ▸ Nat.zero_le _⟩
              have hunseen := hfront p hpmem
              rw [hpsees] at hunseen
              cases hunseen
      | inr hp =>
          have hprev0 : C.prevSnapshot e.sequence = 0 := by omega
          exact hp.2 hbottom done e front rfl hez htype hprev0 hnotNeeded hnewest

/-! ### What a turn does -/

/-- The entry that stands for the key as it was first seen. -/
theorem same_withKey (h : C.cmp.compare e.userKey key = .eq) : C.Same (e.withKey key) e := by
  have := C.cmp.transCmp
  exact Std.OrientedCmp.eq_symm h

theorem pass_of_atNext {s : State} (h : s.atNext = true) : s.pass = s := by
  unfold State.pass
  rw [if_pos h]

theorem pass_of_not_atNext {s : State} (h : s.atNext = false) :
    s.pass = { s with input := s.input.tail } := by
  unfold State.pass
  rw [if_neg (by rw [h]; exact Bool.false_ne_true)]

/-- What a turn at `e` in front of `rest` does, with its key entered: the entries that it
passes, the output before `PrepareOutput`, and the view behind both. -/
inductive Turn (C : CompactionIterator) (e : CompactionEntry) (rest : List CompactionEntry)
    (key : Bytes) (last : ℕ) : Bool → List CompactionEntry → Option CompactionEntry → View → Prop
  | cleared : Turn C e rest key last true [e] (some { e.withKey key with value := [] })
      ⟨rest, some key, C.earliestVisibleSnapshot e.sequence, false⟩
  | lastDropped (type : e.type = .singleDeletion)
      (head : ∀ b, rest.head? = some b → ¬C.Same e b)
      (not_exists : C.keyNotExistsBeyondOutputLevel key = true)
      (le : e.sequence ≤ C.earliestSnapshot) :
      Turn C e rest key last false [e] none
        ⟨rest, none, C.earliestVisibleSnapshot e.sequence, false⟩
  | lastOut (type : e.type = .singleDeletion) (head : ∀ b, rest.head? = some b → ¬C.Same e b)
      (needed : C.keyNotExistsBeyondOutputLevel key = true → C.earliestSnapshot < e.sequence) :
      Turn C e rest key last false [e] (some (e.withKey key))
        ⟨rest, none, C.earliestVisibleSnapshot e.sequence, false⟩
  | skipped (next : CompactionEntry) (rest' : List CompactionEntry) (eq : rest = next :: rest')
      (type : e.type = .singleDeletion) (same : C.Same e next)
      (single : next.type = .singleDeletion) :
      Turn C e rest key last false [e] none
        ⟨rest, some key, C.earliestVisibleSnapshot e.sequence, false⟩
  | pairDropped (next : CompactionEntry) (rest' : List CompactionEntry)
      (eq : rest = next :: rest') (type : e.type = .singleDeletion) (same : C.Same e next)
      (put : next.type ≠ .singleDeletion)
      (prev : C.prevSnapshot e.sequence = 0 ∨ C.prevSnapshot e.sequence < next.sequence) :
      Turn C e rest key last false [e, next] none
        ⟨rest', some key, C.earliestVisibleSnapshot e.sequence, false⟩
  | pairOut (next : CompactionEntry) (rest' : List CompactionEntry) (eq : rest = next :: rest')
      (type : e.type = .singleDeletion) (same : C.Same e next)
      (put : next.type ≠ .singleDeletion)
      (prev : C.prevSnapshot e.sequence = 0 ∨ C.prevSnapshot e.sequence < next.sequence)
      (conflict : C.earliestWriteConflictSnapshot < e.sequence) :
      Turn C e rest key last false [e] (some (e.withKey key))
        ⟨rest, some key, C.earliestVisibleSnapshot e.sequence, true⟩
  | apart (next : CompactionEntry) (rest' : List CompactionEntry) (eq : rest = next :: rest')
      (type : e.type = .singleDeletion) (same : C.Same e next)
      (prev : C.prevSnapshot e.sequence ≠ 0 ∧ next.sequence ≤ C.prevSnapshot e.sequence) :
      Turn C e rest key last false [e] (some (e.withKey key))
        ⟨rest, some key, C.earliestVisibleSnapshot e.sequence, false⟩
  | hidden (type : e.type ≠ .singleDeletion)
      (hides : last = C.earliestVisibleSnapshot e.sequence ∨
        0 < last ∧ last < C.earliestVisibleSnapshot e.sequence) :
      Turn C e rest key last false [e] none
        ⟨rest, some key, C.earliestVisibleSnapshot e.sequence, false⟩
  | obsolete (type : e.type = .deletion) (shown : last ≠ C.earliestVisibleSnapshot e.sequence)
      (le : e.sequence ≤ C.earliestSnapshot)
      (not_exists : C.keyNotExistsBeyondOutputLevel key = true) :
      Turn C e rest key last false [e] none
        ⟨rest, some key, C.earliestVisibleSnapshot e.sequence, false⟩
  | bottomDropped (skip left : List CompactionEntry) (eq : rest = skip ++ left)
      (type : e.type = .deletion) (shown : last ≠ C.earliestVisibleSnapshot e.sequence)
      (bottom : C.bottommostLevel = true)
      (notNeeded : C.ikeyNotNeededForIncrementalSnapshot e.sequence = true)
      (skips : ∀ b ∈ skip, C.Same e b ∧
        (C.prevSnapshot e.sequence = 0 ∨ C.prevSnapshot e.sequence < b.sequence))
      (head : ∀ b, left.head? = some b → ¬C.Same e b) :
      Turn C e rest key last false (e :: skip) none
        ⟨left, some key, C.earliestVisibleSnapshot e.sequence, false⟩
  | bottomOut (skip left : List CompactionEntry) (eq : rest = skip ++ left)
      (type : e.type = .deletion) (shown : last ≠ C.earliestVisibleSnapshot e.sequence)
      (bottom : C.bottommostLevel = true)
      (skips : ∀ b ∈ skip, C.Same e b ∧
        (C.prevSnapshot e.sequence = 0 ∨ C.prevSnapshot e.sequence < b.sequence))
      (prev : C.prevSnapshot e.sequence ≠ 0) :
      Turn C e rest key last false (e :: skip) (some (e.withKey key))
        ⟨left, some key, C.earliestVisibleSnapshot e.sequence, false⟩
  | out (type : e.type ≠ .singleDeletion) (shown : last ≠ C.earliestVisibleSnapshot e.sequence)
      (needed : ¬(e.type = .deletion ∧ C.bottommostLevel = true ∧
        C.ikeyNotNeededForIncrementalSnapshot e.sequence = true)) :
      Turn C e rest key last false [e] (some (e.withKey key))
        ⟨rest, some key, C.earliestVisibleSnapshot e.sequence, false⟩

/-- The view of a state once its output is behind it, if it has one. -/
def State.viewAfter (s : State) : View :=
  match s.output with
  | none => s.view
  | some _ => s.pass.view

/-- A state that a turn has led to. -/
structure Turned (C : CompactionIterator) (e : CompactionEntry) (rest : List CompactionEntry)
    (key : Bytes) (last : ℕ) (clear : Bool) (s : State) : Prop where
  turn : ∃ consumed, Turn C e rest key last clear consumed s.output s.viewAfter
  atNext : s.output = none → s.atNext = false

/-- The state behind the entry `e`, whose key is current. -/
structure Behind (C : CompactionIterator) (s : State) (e : CompactionEntry)
    (rest : List CompactionEntry) (key : Bytes) : Prop where
  input : s.input = rest
  output : s.output = none
  atNext : s.atNext = false
  current : s.hasCurrentUserKey = true
  userKey : s.currentUserKey = key
  snapshot : s.currentUserKeySnapshot = C.earliestVisibleSnapshot e.sequence
  clear : s.clearAndOutputNextKey = false

theorem Behind.view {s : State} (h : Behind C s e rest key) :
    s.view = ⟨rest, some key, C.earliestVisibleSnapshot e.sequence, false⟩ := by
  unfold State.view
  rw [if_pos h.current, h.input, h.userKey, h.snapshot, h.clear]

section Turning

variable {s : State}

theorem Turned.of_none {consumed : List CompactionEntry} {v : View} (houtput : s.output = none)
    (hatNext : s.atNext = false) (hview : s.view = v)
    (h : Turn C e rest key last clear consumed none v) : Turned C e rest key last clear s := by
  have hafter : s.viewAfter = v := by
    unfold State.viewAfter
    rw [houtput]
    exact hview
  constructor
  · rw [houtput, hafter]
    exact ⟨consumed, h⟩
  · exact fun _ => hatNext

theorem Turned.of_some {consumed : List CompactionEntry} {v : View} {x : CompactionEntry}
    (houtput : s.output = some x) (hview : s.pass.view = v)
    (h : Turn C e rest key last clear consumed (some x) v) : Turned C e rest key last clear s := by
  have hafter : s.viewAfter = v := by
    unfold State.viewAfter
    rw [houtput]
    exact hview
  constructor
  · rw [houtput, hafter]
    exact ⟨consumed, h⟩
  · exact fun hnone => nomatch houtput.symm.trans hnone

theorem singleDeletionAtEnd_turned (hb : Behind C s e rest key)
    (htype : e.type = .singleDeletion) (hhead : ∀ b, rest.head? = some b → ¬C.Same e b) :
    Turned C e rest key last false (C.singleDeletionAtEnd s (e.withKey key)) := by
  have hview : ({ s with hasCurrentUserKey := false } : State).view =
      ⟨rest, none, C.earliestVisibleSnapshot e.sequence, false⟩ := by
    unfold State.view
    rw [if_neg Bool.false_ne_true, hb.input, hb.snapshot, hb.clear]
  unfold singleDeletionAtEnd
  dsimp only
  by_cases hdrop : (C.keyNotExistsBeyondOutputLevel (e.withKey key).userKey &&
      (e.withKey key).sequence ≤ C.earliestSnapshot) = true
  · rw [if_pos hdrop]
    obtain ⟨hnot, hle⟩ := Bool.and_eq_true_iff.mp hdrop
    apply Turned.of_none
    · exact hb.output
    · exact hb.atNext
    · exact hview
    · exact .lastDropped htype hhead hnot (of_decide_eq_true hle)
  · rw [if_neg hdrop]
    refine Turned.of_some rfl ?_ (.lastOut htype hhead ?_)
    · rw [pass_of_atNext rfl]
      exact hview
    · intro hnot
      by_contra hle
      exact hdrop (Bool.and_eq_true_iff.mpr ⟨hnot, decide_eq_true (Nat.le_of_not_lt hle)⟩)

theorem singleDeletion_turned (hb : Behind C s e rest key) (hsame : C.Same (e.withKey key) e)
    (htype : e.type = .singleDeletion) :
    Turned C e rest key last false
      (C.singleDeletion s (e.withKey key) (C.prevSnapshot e.sequence)) := by
  have := C.cmp.transCmp
  cases rest with
  | nil =>
      have hend : C.singleDeletion s (e.withKey key) (C.prevSnapshot e.sequence) =
          C.singleDeletionAtEnd s (e.withKey key) := by
        unfold singleDeletion
        rw [hb.input]
      rw [hend]
      exact singleDeletionAtEnd_turned hb htype fun b hb => nomatch hb
  | cons next rest =>
      have hview := hb.view
      unfold singleDeletion
      rw [hb.input]
      dsimp only
      by_cases hkey : C.sameUserKey (e.withKey key).userKey next.userKey = true
      · have hnext : C.Same e next := hsame.symm.trans (sameUserKey_iff.mp hkey)
        rw [if_pos hkey]
        by_cases hprev : C.prevSnapshot e.sequence = 0 ∨ C.prevSnapshot e.sequence < next.sequence
        · rw [if_pos hprev]
          by_cases hsingle : next.type = .singleDeletion
          · rw [if_pos hsingle]
            exact Turned.of_none hb.output hb.atNext hview
              (.skipped next rest rfl htype hnext hsingle)
          · rw [if_neg hsingle]
            by_cases hdrop : s.hasOutputtedKey = true ∨
                (e.withKey key).sequence ≤ C.earliestWriteConflictSnapshot
            · rw [if_pos hdrop]
              apply Turned.of_none
              · exact hb.output
              · exact hb.atNext
              · exact congrArg (fun v : View => { v with input := rest }) hview
              · exact .pairDropped next rest rfl htype hnext hsingle hprev
            · rw [if_neg hdrop]
              refine Turned.of_some rfl ?_ (.pairOut next rest rfl htype hnext hsingle hprev
                (Nat.lt_of_not_le fun hle => hdrop (Or.inr hle)))
              rw [pass_of_atNext rfl]
              exact congrArg (fun v : View => { v with input := next :: rest, clear := true }) hview
        · rw [if_neg hprev]
          refine Turned.of_some rfl ?_ (.apart next rest rfl htype hnext
            ⟨fun h0 => hprev (Or.inl h0), Nat.le_of_not_lt fun hlt => hprev (Or.inr hlt)⟩)
          rw [pass_of_atNext rfl]
          exact congrArg (fun v : View => { v with input := next :: rest }) hview
      · rw [if_neg hkey]
        apply singleDeletionAtEnd_turned hb htype
        intro b hbhead hsame'
        obtain rfl := Option.some.inj hbhead
        exact hkey (sameUserKey_iff.mpr (hsame.trans hsame'))

theorem bottommostDeletion_turned (hb : Behind C s e rest key)
    (hsame : C.Same (e.withKey key) e) (htype : e.type = .deletion)
    (hshown : last ≠ C.earliestVisibleSnapshot e.sequence) (hbottom : C.bottommostLevel = true)
    (hnotNeeded : C.ikeyNotNeededForIncrementalSnapshot e.sequence = true) :
    Turned C e rest key last false
      (C.bottommostDeletion s (e.withKey key) (C.prevSnapshot e.sequence)) := by
  obtain ⟨skips, hskips⟩ : ∃ skips, skips = C.skippable (e.withKey key)
    (C.prevSnapshot e.sequence) := ⟨_, rfl⟩
  have hrest : rest = rest.takeWhile skips ++ rest.dropWhile skips :=
    List.takeWhile_append_dropWhile.symm
  have hmem : ∀ b ∈ rest.takeWhile skips, C.Same e b ∧
      (C.prevSnapshot e.sequence = 0 ∨ C.prevSnapshot e.sequence < b.sequence) := by
    intro b hbmem
    have hb := List.mem_takeWhile_imp hbmem
    rw [hskips, skippable, Bool.and_eq_true, Bool.or_eq_true, decide_eq_true_iff,
      decide_eq_true_iff] at hb
    exact ⟨hsame.symm.trans (sameUserKey_iff.mp hb.1), hb.2⟩
  have hview : ({ s with input := rest.dropWhile skips } : State).view =
      ⟨rest.dropWhile skips, some key, C.earliestVisibleSnapshot e.sequence, false⟩ :=
    congrArg (fun v : View => { v with input := rest.dropWhile skips }) hb.view
  unfold bottommostDeletion
  dsimp only
  rw [← hskips, hb.input]
  cases hleft : rest.dropWhile skips with
  | nil =>
      rw [hleft] at hrest hview
      apply Turned.of_none
      · exact hb.output
      · exact hb.atNext
      · exact hview
      · exact .bottomDropped _ [] hrest htype hshown hbottom hnotNeeded hmem
          fun b hb => nomatch hb
  | cons next left =>
      rw [hleft] at hrest hview
      dsimp only
      by_cases hkey : C.sameUserKey (e.withKey key).userKey next.userKey = true
      · rw [if_pos hkey]
        have hnot : skips next = false := by
          have hfalse := List.head_dropWhile_not skips (hleft ▸ List.cons_ne_nil next left)
          simp only [hleft, List.head_cons] at hfalse
          exact hfalse
        rw [hskips, skippable, hkey, Bool.true_and, Bool.or_eq_false_iff,
          decide_eq_false_iff_not] at hnot
        refine Turned.of_some rfl ?_
          (.bottomOut _ (next :: left) hrest htype hshown hbottom hmem hnot.1)
        rw [pass_of_atNext rfl]
        exact hview
      · rw [if_neg hkey]
        apply Turned.of_none
        · exact hb.output
        · exact hb.atNext
        · exact hview
        · apply Turn.bottomDropped _ (next :: left) hrest htype hshown hbottom hnotNeeded hmem
          intro b hbhead hsame'
          obtain rfl := Option.some.inj hbhead
          exact hkey (sameUserKey_iff.mpr (hsame.trans hsame'))

/-- What becomes of an entry whose key is current. -/
theorem consider_turned (hsame : C.cmp.compare e.userKey s.currentUserKey = .eq)
    (hcurrent : s.hasCurrentUserKey = true) (houtput : s.output = none)
    (hatNext : s.atNext = false) (hinput : s.input = e :: rest) :
    Turned C e rest s.currentUserKey s.currentUserKeySnapshot s.clearAndOutputNextKey
      (C.consider s e rest) := by
  have hkey : C.Same (e.withKey s.currentUserKey) e := same_withKey hsame
  have hpass : ∀ x : CompactionEntry, ({ s with
      currentUserKeySnapshot := C.earliestVisibleSnapshot e.sequence
      output := some x
      clearAndOutputNextKey := false } : State).pass.view =
        ⟨rest, some s.currentUserKey, C.earliestVisibleSnapshot e.sequence, false⟩ := by
    intro x
    rw [pass_of_not_atNext (by exact hatNext)]
    dsimp only [State.view]
    rw [if_pos hcurrent, hinput]
    rfl
  unfold consider
  dsimp only
  cases hclear : s.clearAndOutputNextKey with
  | true =>
      rw [if_pos rfl]
      exact Turned.of_some rfl (hpass _) .cleared
  | false =>
      have hb : Behind C { s with
          currentUserKeySnapshot := C.earliestVisibleSnapshot e.sequence
          input := rest } e rest s.currentUserKey :=
        ⟨rfl, houtput, hatNext, hcurrent, rfl, rfl, hclear⟩
      rw [if_neg Bool.false_ne_true]
      by_cases hsingle : (e.withKey s.currentUserKey).type = .singleDeletion
      · rw [if_pos hsingle]
        rw [hclear] at hb
        exact singleDeletion_turned hb hkey hsingle
      · rw [if_neg hsingle]
        by_cases hhidden : s.currentUserKeySnapshot =
            C.earliestVisibleSnapshot (e.withKey s.currentUserKey).sequence ∨
            (0 < s.currentUserKeySnapshot ∧ s.currentUserKeySnapshot <
              C.earliestVisibleSnapshot (e.withKey s.currentUserKey).sequence)
        · rw [if_pos hhidden]
          rw [hclear] at hb
          exact Turned.of_none hb.output hb.atNext hb.view (.hidden hsingle hhidden)
        · rw [if_neg hhidden]
          have hshown : s.currentUserKeySnapshot ≠ C.earliestVisibleSnapshot e.sequence :=
            fun heq => hhidden (Or.inl heq)
          by_cases hobsolete : (e.withKey s.currentUserKey).type = .deletion ∧
              (e.withKey s.currentUserKey).sequence ≤ C.earliestSnapshot ∧
              C.ikeyNotNeededForIncrementalSnapshot
                (e.withKey s.currentUserKey).sequence = true ∧
              C.keyNotExistsBeyondOutputLevel (e.withKey s.currentUserKey).userKey = true
          · rw [if_pos hobsolete]
            obtain ⟨htype, hle, _, hnot⟩ := hobsolete
            rw [hclear] at hb
            exact Turned.of_none hb.output hb.atNext hb.view (.obsolete htype hshown hle hnot)
          · rw [if_neg hobsolete]
            by_cases hbottom : (e.withKey s.currentUserKey).type = .deletion ∧
                C.bottommostLevel = true ∧ C.ikeyNotNeededForIncrementalSnapshot
                  (e.withKey s.currentUserKey).sequence = true
            · rw [if_pos hbottom]
              rw [hclear] at hb
              exact bottommostDeletion_turned hb hkey hbottom.1 hshown hbottom.2.1 hbottom.2.2
            · rw [if_neg hbottom]
              refine Turned.of_some rfl ?_ (.out hsingle hshown hbottom)
              exact hpass (e.withKey s.currentUserKey)

end Turning

/-! ### What turns keep -/

section Keeping

variable {consumed : List CompactionEntry} {x : Option CompactionEntry} {v : View}

/-- A turn passes the entry and those behind it that it looks at. -/
theorem Turn.passes (h : Turn C e rest key last clear consumed x v) :
    e :: rest = consumed ++ v.input ∧ consumed ≠ [] := by
  cases h with
  | pairDropped next rest' eq =>
      rw [eq]
      exact ⟨rfl, List.cons_ne_nil e [next]⟩
  | bottomDropped skip left eq =>
      rw [eq]
      exact ⟨rfl, List.cons_ne_nil e skip⟩
  | bottomOut skip left eq =>
      rw [eq]
      exact ⟨rfl, List.cons_ne_nil e skip⟩
  | _ => exact ⟨rfl, List.cons_ne_nil e []⟩

theorem Turn.shorter (h : Turn C e rest key last clear consumed x v) :
    v.input.length < (e :: rest).length := by
  obtain ⟨hsplit, hne⟩ := h.passes
  have hpos := List.length_pos_iff.mpr hne
  rw [hsplit, List.length_append]
  omega

/-- Nothing of its key is behind a deletion at sequence number 0. -/
theorem not_same_of_zero (hwf : C.WellFormed input older) (hsplit : input = done ++ e :: rest)
    (htype : e.type = .deletion) (hseq : e.sequence = 0) :
    (∀ b ∈ rest, ¬C.Same e b) ∧ ∀ o ∈ older, ¬C.Same e o := by
  constructor
  · intro b hb heb
    have hlt := ((before_of_split hwf hsplit).2 b hb).footer_lt heb
    unfold CompactionEntry.footer at hlt
    rw [hseq, htype] at hlt
    exact absurd hlt (Nat.not_lt_zero _)
  · intro o ho heo
    have hmem : e ∈ input := by
      rw [hsplit]
      exact List.mem_append_right done List.mem_cons_self
    have hlt := hwf.older_lt e hmem o ho heo
    omega

/-- Under a single deletion that is paired with another version, that is a put. -/
theorem put_of_paired (hwf : C.WellFormed input older) {next : CompactionEntry}
    (hsplit : input = done ++ e :: next :: rest) (htype : e.type = .singleDeletion)
    (hnext : C.Same e next) (hput : next.type ≠ .singleDeletion) : next.type = .value := by
  have hone := deletesOnePut_of_split hwf hsplit htype
  rw [List.cons_append, versionsOfKey_cons_of_same (sameUserKey_iff.mpr hnext.symm)] at hone
  exact (hone.resolve_left hput).1

/-- Going out under the key as it was first seen changes no read. -/
theorem Facing.reads_withKey (h : Facing C input older done e rest key last clear out) :
    C.ReadsSame (out ++ (e.withKey key :: (rest ++ older))) (input ++ older) := by
  have hreplace : C.ReadsSame (out ++ (e.withKey key :: (rest ++ older)))
      (out ++ (e :: (rest ++ older))) := by
    apply SameReads.append_left
    apply SameReads.of_same
    · exact fun r _ => sees_congr (same_withKey h.same) rfl r
    · rfl
  exact hreplace.trans h.reads

/-- What goes out with its sequence number as it is. -/
theorem Facing.outputKept (h : Facing C input older done e rest key last clear out)
    (hkept : C.bottommostLevel = true → C.earliestSnapshot < e.sequence) (hin : v.input = rest)
    (hsnap : v.snapshot = C.earliestVisibleSnapshot e.sequence)
    (hkey : v.key = some key ∨ v.key = none ∧ ∀ b, rest.head? = some b → ¬C.Same e b)
    (hclear : v.clear = true → v.key = some key ∧ ∃ b, rest.head? = some b ∧ C.Same e b ∧
      C.earliestVisibleSnapshot b.sequence = C.earliestVisibleSnapshot e.sequence) :
    Upheld C input older (done ++ [e]) v (out ++ [C.prepare (e.withKey key)]) := by
  have hself : C.prepare (e.withKey key) = e.withKey key := prepare_eq_self hkept
  rw [hself]
  exact h.output (same_withKey h.same) rfl rfl h.reads_withKey hin hsnap hkey hclear

/-- The put of a single deletion that went out goes out without its value. -/
theorem Facing.outputCleared (h : Facing C input older done e rest key last true out)
    (hin : v.input = rest) (hsnap : v.snapshot = C.earliestVisibleSnapshot e.sequence)
    (hkey : v.key = some key) (hclear : v.clear = false) :
    Upheld C input older (done ++ [e]) v
      (out ++ [C.prepare { e.withKey key with value := [] }]) := by
  obtain ⟨x, hx⟩ : ∃ x, x = { e.withKey key with value := [] } := ⟨_, rfl⟩
  have hxe : C.Same x e := hx ▸ same_withKey h.same
  have hxseq : x.sequence = e.sequence := by rw [hx]; rfl
  have hcover : ∃ o ∈ out, C.Same o e ∧
      C.earliestVisibleSnapshot o.sequence = C.earliestVisibleSnapshot e.sequence := by
    cases h.entered with
    | inr hnew => exact Bool.noConfusion hnew.2.1
    | inl hold =>
        obtain ⟨p, hp, hpe, hlast, hcover⟩ := hold
        cases hcover with
        | inl hsingle => exact Bool.noConfusion hsingle.2
        | inr ho => exact h.cleared rfl ▸ ho
  obtain ⟨o, ho, hoe, hstripe⟩ := hcover
  have hhidden : HiddenBy C.sees (fun r => C.Listed r.2) out e :=
    hiddenBy_of_mem ho hoe fun s hs hle => le_of_earliestVisible_eq o.sequence_le hstripe hs hle
  have hhidden' : HiddenBy C.sees (fun r => C.Listed r.2) out x :=
    hiddenBy_of_mem ho (hoe.trans hxe.symm) fun s hs hle =>
      le_of_earliestVisible_eq o.sequence_le (hxseq.symm ▸ hstripe) hs hle
  rw [← hx]
  apply h.outputPrepared hxe hxseq (by rw [hx]; rfl) _ hin hsnap hkey hclear
  exact (SameReads.of_hidden hhidden').trans ((SameReads.of_hidden hhidden).symm.trans h.reads)

/-- A hidden entry is dropped, or the first and only one of a key at sequence number 0. -/
theorem Facing.dropHidden (hwf : C.WellFormed input older) (hzero : C.ZeroKept input)
    (h : Facing C input older done e rest key last clear out) (htype : e.type ≠ .singleDeletion)
    (hhidden : last = C.earliestVisibleSnapshot e.sequence ∨
      0 < last ∧ last < C.earliestVisibleSnapshot e.sequence) (hin : v.input = rest)
    (hsnap : v.snapshot = C.earliestVisibleSnapshot e.sequence) (hkey : v.key = some key)
    (hclear : v.clear = false) : Upheld C input older (done ++ [e]) v out := by
  cases h.entered with
  | inl hold =>
      obtain ⟨p, hp, hpe, hlast, hcover⟩ := hold
      have hbefore := (before_of_split hwf h.split).1 p (List.mem_of_getLast? hp)
      have hmono : C.earliestVisibleSnapshot e.sequence ≤ last :=
        hlast ▸ earliestVisibleSnapshot_mono p.sequence_le (hbefore.sequence_le hpe)
      have heq : last = C.earliestVisibleSnapshot e.sequence := by omega
      obtain ⟨o, ho, hoe, hstripe⟩ := hcover.resolve_left fun hsingle => htype hsingle.1
      exact h.drop ho hoe (hstripe.trans heq) hin hsnap hkey hclear
  | inr hnew =>
      obtain ⟨hlast, _, hfirst⟩ := hnew
      have hvisible : C.earliestVisibleSnapshot e.sequence = 0 := by omega
      obtain ⟨hvalue, hseq⟩ := not_value_of_first hzero h.split hfirst hvisible
      have hdeletion : e.type = .deletion := by
        have hmem := e.type_mem
        simp only [List.mem_cons, List.not_mem_nil, or_false] at hmem
        exact (hmem.resolve_left hvalue).resolve_right htype
      obtain ⟨hrest, holder⟩ := not_same_of_zero hwf h.split hdeletion hseq
      exact h.dropLast hvalue hrest holder hin hsnap (Or.inl hkey) hclear

/-- A version in front of which the snapshot differs is the newest of its stripe. -/
theorem Facing.newest (h : Facing C input older done e rest key last clear out)
    (hshown : last ≠ C.earliestVisibleSnapshot e.sequence) : C.NewestOfStripe done e := by
  intro q hq hqe heq
  apply hshown
  cases h.entered with
  | inl hold =>
      obtain ⟨p, hp, _, hlast, _⟩ := hold
      obtain rfl := Option.some.inj (hp.symm.trans hq)
      exact hlast.trans heq
  | inr hnew => exact absurd hqe (hnew.2.2 q hq)

/-- **A turn keeps the invariant** where versions are kept or hidden. -/
theorem Facing.turn (hwf : C.WellFormed input older) (hzero : C.ZeroKept input)
    (h : Facing C input older done e rest key last clear out)
    (hturn : Turn C e rest key last clear consumed x v) :
    Upheld C input older (done ++ consumed) v (out ++ (x.map C.prepare).toList) := by
  cases hturn with
  | cleared => exact h.outputCleared rfl rfl rfl rfl
  | lastDropped type head not_exists le =>
      rw [Option.map_none, Option.toList_none, List.append_nil]
      exact h.dropLast (type ▸ by decide) (not_same_of_head (sorted_of_split hwf h.split) head)
        (older_not_same hwf h.split h.same not_exists) rfl rfl (Or.inr rfl) rfl
  | lastOut type head needed =>
      exact h.outputKept (fun hbottom => needed (not_exists_of_bottommost hbottom key)) rfl rfl
        (Or.inr ⟨rfl, head⟩) fun hc => Bool.noConfusion hc
  | skipped next rest' eq type same single =>
      subst eq
      rw [Option.map_none, Option.toList_none, List.append_nil]
      exact h.skip hwf (type ▸ by decide) same single rfl rfl rfl rfl
  | pairDropped next rest' eq type same put prev =>
      subst eq
      rw [Option.map_none, Option.toList_none, List.append_nil]
      have hvalue := put_of_paired hwf h.split type same put
      exact h.dropPair hwf type same put (single_hides_next hzero h.split type hvalue prev) rfl
        rfl rfl rfl
  | pairOut next rest' eq type same put prev conflict =>
      subst eq
      have hvalue := put_of_paired hwf h.split type same put
      have hle := ((before_of_split hwf h.split).2 next List.mem_cons_self).sequence_le same
      apply h.outputKept (fun _ => earliestSnapshot_le_conflict.trans_lt conflict) rfl rfl
        (Or.inl rfl)
      intro _
      exact ⟨rfl, next, rfl, same, earliestVisibleSnapshot_eq e.sequence_le hle
        (single_hides_next hzero h.split type hvalue prev)⟩
  | apart next rest' eq type same prev =>
      exact h.outputKept (fun _ => earliestSnapshot_lt_of_prev prev.1) rfl rfl (Or.inl rfl)
        fun hc => Bool.noConfusion hc
  | hidden type hides =>
      rw [Option.map_none, Option.toList_none, List.append_nil]
      exact h.dropHidden hwf hzero type hides rfl rfl rfl rfl
  | obsolete type shown le not_exists =>
      rw [Option.map_none, Option.toList_none, List.append_nil]
      exact h.dropObsolete hwf (type ▸ by decide) le not_exists rfl rfl rfl rfl
  | bottomDropped skip left eq type shown bottom notNeeded skips head =>
      subst eq
      rw [Option.map_none, Option.toList_none, List.append_nil]
      have hleft : ∀ b ∈ left, ¬C.Same e b := by
        apply not_same_of_head _ head
        exact (sorted_of_split hwf h.split).sublist
          ((List.sublist_append_right skip left).cons_cons e)
      exact h.dropDeletion (type ▸ by decide) (fun b hb => (skips b hb).1)
        (skipped_quiet hzero h.split type bottom notNeeded (h.newest shown) skips) hleft
        (older_not_same hwf h.split h.same (not_exists_of_bottommost bottom key)) rfl rfl rfl
  | bottomOut skip left eq type shown bottom skips prev =>
      subst eq
      have hself : C.prepare (e.withKey key) = e.withKey key :=
        prepare_eq_self fun _ => earliestSnapshot_lt_of_prev prev
      rw [Option.map_some, Option.toList_some, hself]
      apply h.outputDeletion (same_withKey h.same) rfl rfl (type ▸ by decide) _ rfl rfl rfl rfl
      intro b hb
      obtain ⟨heb, hprev⟩ := skips b hb
      have hle : b.sequence ≤ e.sequence :=
        ((before_of_split hwf h.split).2 b (List.mem_append_left left hb)).sequence_le heb
      refine ⟨heb, hle, fun s hs hbs => ?_⟩
      apply le_of_prevSnapshot e.sequence_le hprev _ hs hbs
      intro _ hb0
      have hlt := hprev.resolve_left prev
      omega
  | out type shown needed =>
      exact h.outputPrepared (same_withKey h.same) rfl rfl h.reads_withKey rfl rfl rfl rfl

/-- A turn keeps the invariant where all versions left of the key are dropped. -/
theorem FacingClosed.turn (hwf : C.WellFormed input older)
    (h : FacingClosed C input older done e rest key last clear out)
    (hturn : Turn C e rest key last clear consumed x v) :
    Upheld C input older (done ++ consumed) v (out ++ (x.map C.prepare).toList) := by
  have hlast : last = C.earliestVisibleSnapshot e.sequence :=
    h.snapshot.trans ((earliestVisibleSnapshot_eq_earliest e.sequence_le).mpr h.sequence_le).symm
  cases hturn with
  | cleared => exact Bool.noConfusion h.clear_eq
  | lastDropped type head not_exists le =>
      rw [Option.map_none, Option.toList_none, List.append_nil]
      exact h.dropLast hwf head rfl rfl rfl rfl
  | lastOut type head needed => exact absurd h.sequence_le (needed h.not_exists).not_ge
  | skipped next rest' eq type same single =>
      rw [Option.map_none, Option.toList_none, List.append_nil]
      exact h.drop rfl rfl rfl rfl
  | pairDropped next rest' eq type same put prev =>
      subst eq
      rw [Option.map_none, Option.toList_none, List.append_nil]
      exact h.dropPair hwf same rfl rfl rfl rfl
  | pairOut next rest' eq type same put prev conflict =>
      exact absurd (h.sequence_le.trans earliestSnapshot_le_conflict) conflict.not_ge
  | apart next rest' eq type same prev =>
      exact absurd h.sequence_le (earliestSnapshot_lt_of_prev prev.1).not_ge
  | hidden type hides =>
      rw [Option.map_none, Option.toList_none, List.append_nil]
      exact h.drop rfl rfl rfl rfl
  | obsolete type shown => exact absurd hlast shown
  | bottomDropped skip left eq type shown => exact absurd hlast shown
  | bottomOut skip left eq type shown => exact absurd hlast shown
  | out type shown => exact absurd hlast shown

/-- The key of an entry is entered. -/
theorem enterUserKey_keeps (s : State) (e : CompactionEntry) :
    C.cmp.compare e.userKey (C.enterUserKey s e).currentUserKey = .eq ∧
      (C.enterUserKey s e).hasCurrentUserKey = true ∧
      (C.enterUserKey s e).output = s.output ∧ (C.enterUserKey s e).atNext = s.atNext ∧
      (C.enterUserKey s e).input = s.input := by
  have := C.cmp.transCmp
  by_cases hsame : s.hasCurrentUserKey = true ∧ C.cmp.compare e.userKey s.currentUserKey = .eq
  · rw [enterUserKey_of_same hsame.1 hsame.2]
    exact ⟨hsame.2, hsame.1, rfl, rfl, rfl⟩
  · rw [enterUserKey_of_ne fun hcurrent hkey => hsame ⟨hcurrent, hkey⟩]
    exact ⟨Std.ReflCmp.compare_self, rfl, rfl, rfl, rfl⟩

theorem visit_turned {s : State} (houtput : s.output = none) (hatNext : s.atNext = false)
    (hinput : s.input = e :: rest) :
    Turned C e rest (C.enterUserKey s e).currentUserKey
      (C.enterUserKey s e).currentUserKeySnapshot
      (C.enterUserKey s e).clearAndOutputNextKey (C.visit s e rest) := by
  obtain ⟨hsame, hcurrent, hout, hat, hin⟩ := enterUserKey_keeps (C := C) s e
  exact consider_turned hsame hcurrent (hout.trans houtput) (hat.trans hatNext)
    (hin.trans hinput)

/-- **A turn of the loop.** -/
theorem visit_kept {s : State} (hwf : C.WellFormed input older) (hzero : C.ZeroKept input)
    (h : Upheld C input older done s.view out) (houtput : s.output = none)
    (hatNext : s.atNext = false) (hinput : s.input = e :: rest) :
    ∃ done', Upheld C input older done' (C.visit s e rest).viewAfter
      (out ++ ((C.visit s e rest).output.map C.prepare).toList) := by
  obtain ⟨consumed, hturn⟩ := (visit_turned (C := C) houtput hatNext hinput).turn
  refine ⟨done ++ consumed, ?_⟩
  cases h.facing hwf hinput with
  | inl hfacing => exact hfacing.turn hwf hzero hturn
  | inr hclosed => exact hclosed.turn hwf hturn

end Keeping

end CompactionIterator

end Tweezer
