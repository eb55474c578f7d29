import Tweezer.CompactionReads

/-!
# What the turns of a compaction keep

Between two turns the outputs so far, then the input that is left, read as the whole input
does. Once every version left of the current key is to be dropped, they are left out. Each case
of a turn is a lemma about lists.
-/

namespace Tweezer

open NewestVisible (HiddenBy SameReads)

namespace CompactionIterator

/-- What of a state decides which entries are kept. -/
structure View where
  input : List CompactionEntry
  key : Option Bytes
  snapshot : ℕ
  clear : Bool

def State.view (s : State) : View where
  input := s.input
  key := if s.hasCurrentUserKey then some s.currentUserKey else none
  snapshot := s.currentUserKeySnapshot
  clear := s.clearAndOutputNextKey

/-- The entries of other keys. -/
def otherKeys (C : CompactionIterator) (key : Bytes) (entries : List CompactionEntry) :
    List CompactionEntry :=
  entries.filter fun e => !C.sameUserKey e.userKey key

section Invariant

variable (C : CompactionIterator) (input older : List CompactionEntry)

/-- The entries `done` are behind the iterator, and the current key is that of the last. -/
structure Progress (done : List CompactionEntry) (v : View) : Prop where
  split : input = done ++ v.input
  current : ∀ key, v.key = some key →
    ∃ p, done.getLast? = some p ∧ C.cmp.compare p.userKey key = .eq
  follows : ∀ p e, done.getLast? = some p → v.input.head? = some e → C.Same p e →
    v.key ≠ none ∧ v.snapshot = C.earliestVisibleSnapshot p.sequence

/-- A further version of the current key that is not a single deletion is hidden, wherever the
snapshot of the current key is its snapshot too. A value that is to be cleared is. -/
structure Covered (v : View) (out : List CompactionEntry) : Prop where
  head : ∀ key e, v.key = some key → v.input.head? = some e →
    C.cmp.compare e.userKey key = .eq → e.type = .singleDeletion ∧ v.clear = false ∨
      ∃ o ∈ out, C.Same o e ∧ C.earliestVisibleSnapshot o.sequence = v.snapshot
  cleared : v.clear = true → ∃ key e, v.key = some key ∧ v.input.head? = some e ∧
    C.cmp.compare e.userKey key = .eq ∧ C.earliestVisibleSnapshot e.sequence = v.snapshot

/-- The invariant, with the versions left of the current key in the input or left out. -/
inductive Upheld (done : List CompactionEntry) (v : View) (out : List CompactionEntry) : Prop
  | opened (progress : Progress C input done v) (covered : Covered C v out)
      (reads : C.ReadsSame (out ++ (v.input ++ older)) (input ++ older))
      (sorted : (out ++ v.input).Pairwise C.Before)
  | closed (key : Bytes) (progress : Progress C input done v) (current : v.key = some key)
      (snapshot : v.snapshot = C.earliestSnapshot) (clear : v.clear = false)
      (not_exists : C.keyNotExistsBeyondOutputLevel key = true)
      (reads : C.ReadsSame (out ++ (C.otherKeys key v.input ++ older)) (input ++ older))
      (sorted : (out ++ C.otherKeys key v.input).Pairwise C.Before)

/-- The iterator stands at `e`, whose key is current, and `last` is the snapshot of the version
of the key in front of it, or 0 if there is none. -/
structure Facing (done : List CompactionEntry) (e : CompactionEntry)
    (rest : List CompactionEntry) (key : Bytes) (last : ℕ) (clear : Bool)
    (out : List CompactionEntry) : Prop where
  split : input = done ++ e :: rest
  same : C.cmp.compare e.userKey key = .eq
  reads : C.ReadsSame (out ++ (e :: (rest ++ older))) (input ++ older)
  sorted : (out ++ e :: rest).Pairwise C.Before
  entered : (∃ p, done.getLast? = some p ∧ C.Same p e ∧
      last = C.earliestVisibleSnapshot p.sequence ∧
      (e.type = .singleDeletion ∧ clear = false ∨
        ∃ o ∈ out, C.Same o e ∧ C.earliestVisibleSnapshot o.sequence = last)) ∨
    last = 0 ∧ clear = false ∧ ∀ p, done.getLast? = some p → ¬C.Same p e
  cleared : clear = true → last = C.earliestVisibleSnapshot e.sequence

/-- The iterator stands at `e`, which is to be dropped as all versions left of its key are. -/
structure FacingClosed (done : List CompactionEntry) (e : CompactionEntry)
    (rest : List CompactionEntry) (key : Bytes) (last : ℕ) (clear : Bool)
    (out : List CompactionEntry) : Prop where
  split : input = done ++ e :: rest
  same : C.cmp.compare e.userKey key = .eq
  reads : C.ReadsSame (out ++ (C.otherKeys key rest ++ older)) (input ++ older)
  sorted : (out ++ C.otherKeys key rest).Pairwise C.Before
  snapshot : last = C.earliestSnapshot
  clear_eq : clear = false
  not_exists : C.keyNotExistsBeyondOutputLevel key = true
  sequence_le : e.sequence ≤ C.earliestSnapshot

end Invariant

variable {C : CompactionIterator} {input older done out rest : List CompactionEntry}
  {e : CompactionEntry} {key : Bytes} {last : ℕ} {clear : Bool}

/-! ### Entering a key -/

/-- All entries left are of other keys than the current once the first is. -/
theorem otherKeys_eq_of_head {es : List CompactionEntry} {p : CompactionEntry}
    (hsorted : (p :: es).Pairwise C.Before) (hp : C.cmp.compare p.userKey key = .eq)
    (hhead : ∀ e, es.head? = some e → ¬C.cmp.compare e.userKey key = .eq) :
    C.otherKeys key es = es := by
  have := C.cmp.transCmp
  apply List.filter_eq_self.mpr
  intro b hb
  have hne : ¬C.cmp.compare b.userKey key = .eq := by
    intro hbkey
    cases es with
    | nil => cases hb
    | cons e es =>
        have hpe := List.rel_of_pairwise_cons hsorted List.mem_cons_self
        have hne : ¬C.Same p e := fun h =>
          hhead e rfl (Std.TransCmp.eq_trans (Same.symm h) hp)
        have hpb : C.Same p b := Std.TransCmp.eq_trans hp (Std.OrientedCmp.eq_symm hbkey)
        cases List.mem_cons.mp hb with
        | inl heq => exact hne (heq ▸ hpb)
        | inr hmem =>
            have heb := List.rel_of_pairwise_cons hsorted.of_cons hmem
            exact not_same_of_before hpe hne heb hpb
  unfold sameUserKey
  rw [decide_eq_false hne]
  rfl

theorem otherKeys_cons_of_same (h : C.cmp.compare e.userKey key = .eq) :
    C.otherKeys key (e :: rest) = C.otherKeys key rest := by
  unfold otherKeys sameUserKey
  rw [List.filter_cons_of_neg (by simp [h])]

theorem enterUserKey_of_same {s : State} (hcurrent : s.hasCurrentUserKey = true)
    (hsame : C.cmp.compare e.userKey s.currentUserKey = .eq) : C.enterUserKey s e = s := by
  unfold enterUserKey sameUserKey
  rw [hcurrent, decide_eq_true hsame]
  rfl

theorem enterUserKey_of_ne {s : State}
    (h : s.hasCurrentUserKey = true → ¬C.cmp.compare e.userKey s.currentUserKey = .eq) :
    C.enterUserKey s e = { s with
      hasCurrentUserKey := true
      currentUserKey := e.userKey
      currentUserKeySnapshot := 0
      hasOutputtedKey := false } := by
  have hfalse : (s.hasCurrentUserKey && C.sameUserKey e.userKey s.currentUserKey) = false := by
    unfold sameUserKey
    cases hcurrent : s.hasCurrentUserKey with
    | false => rfl
    | true => rw [decide_eq_false (h hcurrent), Bool.and_false]
  unfold enterUserKey
  rw [hfalse]
  rfl

theorem Upheld.progress {v : View} (h : Upheld C input older done v out) :
    Progress C input done v := by
  cases h with
  | opened progress => exact progress
  | closed key progress => exact progress

theorem view_key_of_current {s : State} (h : s.hasCurrentUserKey = true) :
    s.view.key = some s.currentUserKey := by
  unfold State.view
  rw [if_pos h]

theorem current_of_view_key {s : State} (h : s.view.key = some key) :
    s.hasCurrentUserKey = true ∧ s.currentUserKey = key := by
  unfold State.view at h
  cases hcurrent : s.hasCurrentUserKey with
  | false =>
      rw [hcurrent] at h
      cases h
  | true =>
      rw [if_pos hcurrent] at h
      exact ⟨rfl, Option.some.inj h⟩

/-- Once its key is entered, an entry follows the last version of its key or is the first. -/
theorem Progress.entered {s : State} (h : Progress C input done s.view)
    (hinput : s.input = e :: rest) :
    (C.enterUserKey s e = s ∧ s.hasCurrentUserKey = true ∧
      C.cmp.compare e.userKey s.currentUserKey = .eq ∧
      ∃ p, done.getLast? = some p ∧ C.Same p e ∧
        s.currentUserKeySnapshot = C.earliestVisibleSnapshot p.sequence) ∨
    (C.enterUserKey s e = { s with
        hasCurrentUserKey := true
        currentUserKey := e.userKey
        currentUserKeySnapshot := 0
        hasOutputtedKey := false } ∧
      (s.hasCurrentUserKey = true → ¬C.cmp.compare e.userKey s.currentUserKey = .eq) ∧
      ∀ p, done.getLast? = some p → ¬C.Same p e) := by
  have := C.cmp.transCmp
  have hhead : s.view.input.head? = some e := by
    have hview : s.view.input = e :: rest := hinput
    rw [hview]
    rfl
  by_cases hsame : s.hasCurrentUserKey = true ∧ C.cmp.compare e.userKey s.currentUserKey = .eq
  · left
    have hkey : s.view.key = some s.currentUserKey := by
      unfold State.view
      rw [if_pos hsame.1]
    obtain ⟨p, hp, hpkey⟩ := h.current _ hkey
    have hpe : C.Same p e := Std.TransCmp.eq_trans hpkey (Std.OrientedCmp.eq_symm hsame.2)
    exact ⟨enterUserKey_of_same hsame.1 hsame.2, hsame.1, hsame.2, p, hp, hpe,
      (h.follows p e hp hhead hpe).2⟩
  · right
    have hne : s.hasCurrentUserKey = true → ¬C.cmp.compare e.userKey s.currentUserKey = .eq :=
      fun hcurrent hkey => hsame ⟨hcurrent, hkey⟩
    refine ⟨enterUserKey_of_ne hne, hne, fun p hp hpe => ?_⟩
    obtain ⟨hsome, _⟩ := h.follows p e hp hhead hpe
    cases hcurrent : s.hasCurrentUserKey with
    | false =>
        unfold State.view at hsome
        rw [hcurrent] at hsome
        exact hsome rfl
    | true =>
        have hkey : s.view.key = some s.currentUserKey := by
          unfold State.view
          rw [if_pos hcurrent]
        obtain ⟨q, hq, hqkey⟩ := h.current _ hkey
        obtain rfl := Option.some.inj (hp.symm.trans hq)
        exact hne hcurrent (Std.TransCmp.eq_trans (Same.symm hpe) hqkey)

/-- The iterator comes to stand at an entry. -/
theorem Upheld.facing {s : State} (hwf : C.WellFormed input older)
    (h : Upheld C input older done s.view out) (hinput : s.input = e :: rest) :
    let s' := C.enterUserKey s e
    Facing C input older done e rest s'.currentUserKey s'.currentUserKeySnapshot
        s'.clearAndOutputNextKey out ∨
      FacingClosed C input older done e rest s'.currentUserKey s'.currentUserKeySnapshot
        s'.clearAndOutputNextKey out := by
  have := C.cmp.transCmp
  have hview : s.view.input = e :: rest := hinput
  have hhead : s.view.input.head? = some e := by rw [hview]; rfl
  have hsplit : input = done ++ e :: rest := hview ▸ h.progress.split
  cases h.progress.entered hinput with
  | inl hold =>
      -- a further version of the current key
      obtain ⟨hsame, hcurrent, hkey, p, hp, hpe, hsnap⟩ := hold
      have hviewKey := view_key_of_current hcurrent
      rw [hsame]
      cases h with
      | opened progress covered reads sorted =>
          left
          rw [hview] at reads sorted
          constructor
          · exact hsplit
          · exact hkey
          · exact reads
          · exact sorted
          · exact Or.inl ⟨p, hp, hpe, hsnap, covered.head _ e hviewKey hhead hkey⟩
          · intro hclear
            obtain ⟨_, e', _, he', _, hsnap'⟩ := covered.cleared hclear
            obtain rfl := Option.some.inj (hhead.symm.trans he')
            exact hsnap'.symm
      | closed key progress current snapshot hclear not_exists reads sorted =>
          right
          obtain rfl := Option.some.inj (hviewKey.symm.trans current)
          have hple : p.sequence ≤ C.earliestSnapshot :=
            (earliestVisibleSnapshot_eq_earliest p.sequence_le).mp (hsnap.symm.trans snapshot)
          have hbefore : C.Before p e := by
            have hinc := hwf.increasing
            rw [hsplit] at hinc
            exact (List.pairwise_append.mp hinc).2.2 p (List.mem_of_getLast? hp) e
              List.mem_cons_self
          rw [hview, otherKeys_cons_of_same hkey] at reads sorted
          constructor
          · exact hsplit
          · exact hkey
          · exact reads
          · exact sorted
          · exact snapshot
          · exact hclear
          · exact not_exists
          · exact (hbefore.sequence_le hpe).trans hple
  | inr hnew =>
      -- the first version of a key
      obtain ⟨henter, hne, hfirst⟩ := hnew
      left
      rw [henter]
      cases h with
      | opened progress covered reads sorted =>
          have hclear : s.clearAndOutputNextKey = false := by
            cases hc : s.clearAndOutputNextKey with
            | false => rfl
            | true =>
                obtain ⟨_, e', hk, he', hkey', _⟩ := covered.cleared hc
                obtain rfl := Option.some.inj (hhead.symm.trans he')
                obtain ⟨hcurrent, rfl⟩ := current_of_view_key hk
                exact absurd hkey' (hne hcurrent)
          rw [hview] at reads sorted
          constructor
          · exact hsplit
          · exact Std.ReflCmp.compare_self
          · exact reads
          · exact sorted
          · exact Or.inr ⟨rfl, hclear, hfirst⟩
          · exact fun hc => Bool.noConfusion (hclear.symm.trans hc)
      | closed key progress current snapshot hclear not_exists reads sorted =>
          have hother : C.otherKeys key s.view.input = s.view.input := by
            obtain ⟨p, hp, hpkey⟩ := progress.current _ current
            apply otherKeys_eq_of_head (p := p)
            · have hinc := hwf.increasing
              rw [progress.split] at hinc
              have hcross := (List.pairwise_append.mp hinc).2
              exact List.pairwise_cons.mpr
                ⟨fun b hb => hcross.2 p (List.mem_of_getLast? hp) b hb, hcross.1⟩
            · exact hpkey
            · intro e' he' hkey'
              obtain rfl := Option.some.inj (hhead.symm.trans he')
              exact hfirst p hp (Std.TransCmp.eq_trans hpkey (Std.OrientedCmp.eq_symm hkey'))
          rw [hother, hview] at reads sorted
          constructor
          · exact hsplit
          · exact Std.ReflCmp.compare_self
          · exact reads
          · exact sorted
          · exact Or.inr ⟨rfl, hclear, hfirst⟩
          · exact fun hc => Bool.noConfusion (hclear.symm.trans hc)

/-! ### The entries around the iterator -/

theorem before_of_split (hwf : C.WellFormed input older) (hsplit : input = done ++ e :: rest) :
    (∀ p ∈ done, C.Before p e) ∧ ∀ b ∈ rest, C.Before e b := by
  have hinc := hwf.increasing
  rw [hsplit] at hinc
  obtain ⟨_, htail, hcross⟩ := List.pairwise_append.mp hinc
  exact ⟨fun p hp => hcross p hp e List.mem_cons_self, fun b hb => List.rel_of_pairwise_cons htail hb⟩

theorem sorted_of_split (hwf : C.WellFormed input older) (hsplit : input = done ++ e :: rest) :
    (e :: rest).Pairwise C.Before := by
  have hinc := hwf.increasing
  rw [hsplit] at hinc
  exact (List.pairwise_append.mp hinc).2.1

/-- No entry of the key is left once another key follows. -/
theorem not_same_of_head (hsorted : (e :: rest).Pairwise C.Before)
    (hhead : ∀ b, rest.head? = some b → ¬C.Same e b) : ∀ b ∈ rest, ¬C.Same e b := by
  intro b hb
  cases rest with
  | nil => cases hb
  | cons next rest =>
      cases List.mem_cons.mp hb with
      | inl heq => exact heq ▸ hhead next rfl
      | inr hmem =>
          exact not_same_of_before (List.rel_of_pairwise_cons hsorted List.mem_cons_self)
            (hhead next rfl) (List.rel_of_pairwise_cons hsorted.of_cons hmem)

theorem older_not_same (hwf : C.WellFormed input older) (hsplit : input = done ++ e :: rest)
    (hsame : C.cmp.compare e.userKey key = .eq)
    (hnot : C.keyNotExistsBeyondOutputLevel key = true) : ∀ o ∈ older, ¬C.Same e o := by
  have := C.cmp.transCmp
  intro o ho heo
  have hmem : e ∈ input := by
    rw [hsplit]
    exact List.mem_append_right done List.mem_cons_self
  exact hwf.truthful key ⟨e, hmem, hsame⟩ hnot o ho
    (Std.TransCmp.eq_trans (Same.symm heo) hsame)

/-- A reader that sees an entry sees nothing of other keys. -/
theorem read_none_of_not_same {r : Bytes × ℕ} (hr : C.sees r e = true)
    (hrest : ∀ b ∈ rest, ¬C.Same e b) (holder : ∀ o ∈ older, ¬C.Same e o) :
    NewestVisible.read C.sees found r (rest ++ older) = none := by
  apply NewestVisible.read_eq_none_of_not_sees
  intro v hv
  cases List.mem_append.mp hv with
  | inl h => exact not_sees_of_not_same hr (hrest v h)
  | inr h => exact not_sees_of_not_same hr (holder v h)

theorem found_of_ne {x : CompactionEntry} (h : x.type ≠ .value) : found x = none := by
  unfold found
  rw [if_neg h]

/-- A deletion with no further version of its key can be dropped. -/
theorem reads_of_drop_last (htype : e.type ≠ .value) (hrest : ∀ b ∈ rest, ¬C.Same e b)
    (holder : ∀ o ∈ older, ¬C.Same e o) :
    C.ReadsSame (out ++ (e :: (rest ++ older))) (out ++ (rest ++ older)) := by
  apply SameReads.append_left
  apply SameReads.of_nothing
  intro r _ hsees
  exact ⟨found_of_ne htype, read_none_of_not_same hsees hrest holder⟩

/-- What the oracle says leaves a single deletion or a deletion with the versions of its key to
be dropped, where the earliest snapshot sees them. -/
theorem reads_of_drop_all (htype : e.type ≠ .value) (hle : e.sequence ≤ C.earliestSnapshot)
    (hsame : C.cmp.compare e.userKey key = .eq) (holder : ∀ o ∈ older, ¬C.Same e o) :
    C.ReadsSame (out ++ (e :: (rest ++ older))) (out ++ (C.otherKeys key rest ++ older)) := by
  have := C.cmp.transCmp
  have hother : ∀ b ∈ C.otherKeys key rest, ¬C.Same e b := by
    intro b hb heb
    have hkeep := (List.mem_filter.mp hb).2
    have hbkey : C.cmp.compare b.userKey key = .eq :=
      Std.TransCmp.eq_trans (Same.symm heb) hsame
    unfold sameUserKey at hkeep
    rw [decide_eq_true hbkey] at hkeep
    cases hkeep
  have hhidden : C.ReadsSame ((out ++ [e]) ++ (rest ++ older))
      ((out ++ [e]) ++ (C.otherKeys key rest ++ older)) := by
    apply SameReads.of_hidden_filter
    intro b _ hdropped
    have hbkey : C.cmp.compare b.userKey key = .eq := by
      unfold sameUserKey at hdropped
      simpa using hdropped
    apply hiddenBy_of_mem (List.mem_append_right out List.mem_cons_self)
    · exact Std.TransCmp.eq_trans hsame (Std.OrientedCmp.eq_symm hbkey)
    · exact fun s hs _ => hle.trans (earliestSnapshot_le hs)
  rw [List.append_assoc, List.append_assoc, List.singleton_append, List.singleton_append] at hhidden
  exact hhidden.trans (reads_of_drop_last htype hother holder)

theorem versionsOfKey_cons_of_same {userKey : Bytes} {es : List CompactionEntry}
    (h : C.sameUserKey e.userKey userKey = true) :
    C.versionsOfKey userKey (e :: es) = e :: C.versionsOfKey userKey es :=
  List.filter_cons_of_pos h

theorem versionsOfKey_cons_of_ne {userKey : Bytes} {es : List CompactionEntry}
    (h : ¬C.sameUserKey e.userKey userKey = true) :
    C.versionsOfKey userKey (e :: es) = C.versionsOfKey userKey es :=
  List.filter_cons_of_neg h

/-- The versions of a single deletion's key, from the single deletion on. -/
theorem deletesOnePut_of_split (hwf : C.WellFormed input older)
    (hsplit : input = done ++ e :: rest) (htype : e.type = .singleDeletion) :
    DeletesOnePut (C.versionsOfKey e.userKey (rest ++ older)) := by
  have := C.cmp.transCmp
  have hself : C.sameUserKey e.userKey e.userKey = true := sameUserKey_iff.mpr (Same.refl e)
  have happend : C.versionsOfKey e.userKey (input ++ older) =
      C.versionsOfKey e.userKey done ++ C.versionsOfKey e.userKey (e :: (rest ++ older)) := by
    rw [hsplit, List.append_assoc, List.cons_append, versionsOfKey, List.filter_append]
    rfl
  have hsingle := hwf.singleDeletes e.userKey
  rw [happend, versionsOfKey_cons_of_same hself] at hsingle
  exact (singleDeletesOnce_append hsingle).1 htype

/-- Entries whose first version of the key is a single deletion that is seen read nothing. -/
theorem read_none_of_single {r : Bytes × ℕ} {userKey : Bytes}
    (hkey : C.cmp.compare userKey r.1 = .eq) (es : List CompactionEntry)
    (hhead : ∀ q, (C.versionsOfKey userKey es).head? = some q →
      q.type = .singleDeletion ∧ C.sees r q = true) :
    NewestVisible.read C.sees found r es = none := by
  have := C.cmp.transCmp
  induction es with
  | nil => rfl
  | cons b es ih =>
      by_cases hb : C.sameUserKey b.userKey userKey = true
      · rw [versionsOfKey_cons_of_same hb] at hhead
        obtain ⟨htype, hsees⟩ := hhead b rfl
        rw [NewestVisible.read_cons_of_sees hsees]
        exact found_of_ne (htype ▸ by decide)
      · rw [versionsOfKey_cons_of_ne hb] at hhead
        have hnot : ¬C.sees r b = true := by
          intro hsees
          apply hb
          unfold sameUserKey
          exact decide_eq_true (Std.TransCmp.eq_trans (sees_iff.mp hsees).1
            (Std.OrientedCmp.eq_symm hkey))
        rw [NewestVisible.read_cons_of_not_sees hnot]
        exact ih hhead

/-! ### Progress -/

/-- The entry that the iterator stood at is behind it. -/
theorem progress_of_passed {v : View} (hsplit : input = done ++ e :: rest)
    (hsame : C.cmp.compare e.userKey key = .eq) (hin : v.input = rest)
    (hsnap : v.snapshot = C.earliestVisibleSnapshot e.sequence)
    (hkey : v.key = some key ∨ v.key = none ∧ ∀ b, rest.head? = some b → ¬C.Same e b) :
    Progress C input (done ++ [e]) v := by
  constructor
  · rw [hsplit, hin, List.append_assoc, List.singleton_append]
  · intro key' hkey'
    cases hkey with
    | inl h =>
        obtain rfl := Option.some.inj (h.symm.trans hkey')
        exact ⟨e, List.getLast?_concat, hsame⟩
    | inr h => exact nomatch h.1.symm.trans hkey'
  · intro p b hp hb hpb
    obtain rfl : e = p := Option.some.inj (List.getLast?_concat.symm.trans hp)
    rw [hin] at hb
    cases hkey with
    | inl h => exact ⟨h ▸ Option.some_ne_none key, hsnap⟩
    | inr h => exact absurd hpb (h.2 b hb)

/-- So are versions of its key behind it. -/
theorem progress_of_skipped {v : View} {skipped : List CompactionEntry}
    (hsplit : input = done ++ e :: (skipped ++ rest)) (hsame : C.cmp.compare e.userKey key = .eq)
    (hskipped : ∀ b ∈ skipped, C.Same e b) (hin : v.input = rest) (hkey : v.key = some key)
    (hstripe : ∀ b, rest.head? = some b → C.Same e b →
      ∀ l ∈ e :: skipped, v.snapshot = C.earliestVisibleSnapshot l.sequence) :
    Progress C input (done ++ e :: skipped) v := by
  have := C.cmp.transCmp
  have hlast : ∀ l, (done ++ e :: skipped).getLast? = some l → l ∈ e :: skipped := by
    intro l hl
    rw [List.getLast?_append_of_ne_nil done (List.cons_ne_nil e skipped)] at hl
    exact List.mem_of_getLast? hl
  have hsames : ∀ l ∈ e :: skipped, C.Same e l := by
    intro l hl
    cases List.mem_cons.mp hl with
    | inl heq =>
        rw [heq]
        exact Same.refl e
    | inr hmem => exact hskipped l hmem
  constructor
  · rw [hsplit, hin, List.append_assoc, List.cons_append]
  · intro key' hkey'
    obtain rfl := Option.some.inj (hkey.symm.trans hkey')
    cases hl : (done ++ e :: skipped).getLast? with
    | none => simp at hl
    | some l =>
        exact ⟨l, rfl, Std.TransCmp.eq_trans (Same.symm (hsames l (hlast l hl))) hsame⟩
  · intro p b hp hb hpb
    rw [hin] at hb
    have hmem := hlast p hp
    exact ⟨hkey ▸ Option.some_ne_none key, hstripe b hb ((hsames p hmem).trans hpb) p hmem⟩

/-! ### Outputs -/

theorem sorted_of_replaced {front : List CompactionEntry} {x : CompactionEntry}
    (h : (front ++ e :: rest).Pairwise C.Before) (hx : C.Same x e) (hfooter : x.footer = e.footer) :
    ((front ++ [x]) ++ rest).Pairwise C.Before := by
  rw [List.append_assoc, List.singleton_append]
  obtain ⟨hfront, htail, hcross⟩ := List.pairwise_append.mp h
  apply List.pairwise_append.mpr
  refine ⟨hfront, ?_, ?_⟩
  · apply List.pairwise_cons.mpr
    refine ⟨fun b hb => ?_, htail.of_cons⟩
    exact (List.rel_of_pairwise_cons htail hb).congr hx (Same.refl b) hfooter.ge le_rfl
  · intro a ha b hb
    cases List.mem_cons.mp hb with
    | inl heq =>
        rw [heq]
        exact (hcross a ha e List.mem_cons_self).congr (Same.refl a) hx le_rfl hfooter.le
    | inr hmem => exact hcross a ha b (List.mem_cons_of_mem e hmem)

theorem sorted_of_dropped {front : List CompactionEntry}
    (h : (front ++ e :: rest).Pairwise C.Before) : (front ++ rest).Pairwise C.Before :=
  h.sublist ((List.sublist_cons_self e rest).append_left front)

/-- A version of the key goes out as it is. -/
theorem Facing.output {v : View} {x : CompactionEntry}
    (h : Facing C input older done e rest key last clear out) (hx : C.Same x e)
    (hseq : x.sequence = e.sequence) (htype : x.type = e.type)
    (hreads : C.ReadsSame (out ++ (x :: (rest ++ older))) (input ++ older)) (hin : v.input = rest)
    (hsnap : v.snapshot = C.earliestVisibleSnapshot e.sequence)
    (hkey : v.key = some key ∨ v.key = none ∧ ∀ b, rest.head? = some b → ¬C.Same e b)
    (hclear : v.clear = true → v.key = some key ∧ ∃ b, rest.head? = some b ∧ C.Same e b ∧
      C.earliestVisibleSnapshot b.sequence = C.earliestVisibleSnapshot e.sequence) :
    Upheld C input older (done ++ [e]) v (out ++ [x]) := by
  have := C.cmp.transCmp
  apply Upheld.opened (progress_of_passed h.split h.same hin hsnap hkey)
  · constructor
    · intro key' b hkey' hb hbkey
      right
      refine ⟨x, List.mem_append_right out List.mem_cons_self, ?_, by rw [hseq, hsnap]⟩
      cases hkey with
      | inl hk =>
          obtain rfl := Option.some.inj (hk.symm.trans hkey')
          exact hx.trans (Std.TransCmp.eq_trans h.same (Std.OrientedCmp.eq_symm hbkey))
      | inr hk => exact nomatch hk.1.symm.trans hkey'
    · intro hc
      obtain ⟨hk, b, hb, heb, hstripe⟩ := hclear hc
      exact ⟨key, b, hk, hin ▸ hb, Std.TransCmp.eq_trans (Same.symm heb) h.same,
        hstripe.trans hsnap.symm⟩
  · rw [hin, List.append_assoc, List.singleton_append]
    exact hreads
  · have hfooter : x.footer = e.footer := by
      unfold CompactionEntry.footer
      rw [hseq, htype]
    rw [hin]
    exact sorted_of_replaced h.sorted hx hfooter

/-- A version goes out at sequence number 0, where nothing is below and the earliest snapshot
sees it. All further versions of its key are dropped. -/
theorem Facing.outputZero {v : View} {x : CompactionEntry}
    (h : Facing C input older done e rest key last clear out) (hx : C.Same x e)
    (hseq : x.sequence = 0) (htype : x.type = e.type) (hle : e.sequence ≤ C.earliestSnapshot)
    (hreads : C.ReadsSame (out ++ (x :: (rest ++ older))) (input ++ older))
    (hnot : C.keyNotExistsBeyondOutputLevel key = true) (hin : v.input = rest)
    (hsnap : v.snapshot = C.earliestVisibleSnapshot e.sequence) (hkey : v.key = some key)
    (hclear : v.clear = false) :
    Upheld C input older (done ++ [e]) v (out ++ [x]) := by
  have := C.cmp.transCmp
  have hsnap' : v.snapshot = C.earliestSnapshot :=
    hsnap.trans ((earliestVisibleSnapshot_eq_earliest e.sequence_le).mpr hle)
  apply Upheld.closed key (progress_of_passed h.split h.same hin hsnap (Or.inl hkey)) hkey hsnap'
    hclear hnot
  · have hhidden : C.ReadsSame ((out ++ [x]) ++ (rest ++ older))
        ((out ++ [x]) ++ (C.otherKeys key rest ++ older)) := by
      apply SameReads.of_hidden_filter
      intro b _ hdropped
      have hbkey : C.cmp.compare b.userKey key = .eq := by
        unfold sameUserKey at hdropped
        simpa using hdropped
      apply hiddenBy_of_mem (List.mem_append_right out List.mem_cons_self)
      · exact hx.trans (Std.TransCmp.eq_trans h.same (Std.OrientedCmp.eq_symm hbkey))
      · intro s _ _
        rw [hseq]
        exact Nat.zero_le s
    rw [hin]
    apply hhidden.symm.trans
    rw [List.append_assoc, List.singleton_append]
    exact hreads
  · rw [hin]
    obtain ⟨hfront, htail, hcross⟩ := List.pairwise_append.mp h.sorted
    rw [List.append_assoc, List.singleton_append]
    apply List.pairwise_append.mpr
    refine ⟨hfront, ?_, ?_⟩
    · apply List.pairwise_cons.mpr
      refine ⟨fun b hb => ?_, htail.of_cons.filter _⟩
      obtain ⟨hmem, hkeep⟩ := List.mem_filter.mp hb
      apply (List.rel_of_pairwise_cons htail hmem).of_not_same _ hx
      intro heb
      have hbkey : C.cmp.compare b.userKey key = .eq :=
        Std.TransCmp.eq_trans (Same.symm heb) h.same
      unfold sameUserKey at hkeep
      rw [decide_eq_true hbkey] at hkeep
      cases hkeep
    · intro a ha b hb
      cases List.mem_cons.mp hb with
      | inl heq =>
          have hfooter : x.footer ≤ e.footer := by
            unfold CompactionEntry.footer
            rw [hseq, htype]
            omega
          rw [heq]
          exact (hcross a ha e List.mem_cons_self).congr (Same.refl a) hx le_rfl hfooter
      | inr hmem =>
          exact hcross a ha b (List.mem_cons_of_mem e (List.mem_filter.mp hmem).1)

/-! ### Entries that are dropped -/

/-- A version is hidden by a newer one of the same snapshot. -/
theorem Facing.drop {v : View} {o : CompactionEntry}
    (h : Facing C input older done e rest key last clear out) (ho : o ∈ out) (hoe : C.Same o e)
    (hstripe : C.earliestVisibleSnapshot o.sequence = C.earliestVisibleSnapshot e.sequence)
    (hin : v.input = rest) (hsnap : v.snapshot = C.earliestVisibleSnapshot e.sequence)
    (hkey : v.key = some key) (hclear : v.clear = false) :
    Upheld C input older (done ++ [e]) v out := by
  have := C.cmp.transCmp
  apply Upheld.opened (progress_of_passed h.split h.same hin hsnap (Or.inl hkey))
  · constructor
    · intro key' b hkey' hb hbkey
      right
      obtain rfl := Option.some.inj (hkey.symm.trans hkey')
      have heb : C.Same e b := Std.TransCmp.eq_trans h.same (Std.OrientedCmp.eq_symm hbkey)
      exact ⟨o, ho, hoe.trans heb, hstripe.trans hsnap.symm⟩
    · exact fun hc => Bool.noConfusion (hclear.symm.trans hc)
  · have hhidden : HiddenBy C.sees (fun r => C.Listed r.2) out e :=
      hiddenBy_of_mem ho hoe fun s hs hle => le_of_earliestVisible_eq o.sequence_le hstripe hs hle
    rw [hin]
    exact (SameReads.of_hidden hhidden).symm.trans h.reads
  · exact hin ▸ sorted_of_dropped h.sorted

/-- A deletion or a single deletion is dropped in front of no further version of its key. -/
theorem Facing.dropLast {v : View} (h : Facing C input older done e rest key last clear out)
    (htype : e.type ≠ .value) (hrest : ∀ b ∈ rest, ¬C.Same e b)
    (holder : ∀ o ∈ older, ¬C.Same e o) (hin : v.input = rest)
    (hsnap : v.snapshot = C.earliestVisibleSnapshot e.sequence)
    (hkey : v.key = some key ∨ v.key = none) (hclear : v.clear = false) :
    Upheld C input older (done ++ [e]) v out := by
  have := C.cmp.transCmp
  have hhead : ∀ b, rest.head? = some b → ¬C.Same e b :=
    fun b hb => hrest b (List.mem_of_mem_head? hb)
  have hkey' : v.key = some key ∨ v.key = none ∧ ∀ b, rest.head? = some b → ¬C.Same e b := by
    cases hkey with
    | inl hk => exact Or.inl hk
    | inr hk => exact Or.inr ⟨hk, hhead⟩
  apply Upheld.opened (progress_of_passed h.split h.same hin hsnap hkey')
  · constructor
    · intro key' b hk hb hbkey
      cases hkey with
      | inl hk' =>
          obtain rfl := Option.some.inj (hk'.symm.trans hk)
          rw [hin] at hb
          exact absurd (Std.TransCmp.eq_trans h.same (Std.OrientedCmp.eq_symm hbkey)) (hhead b hb)
      | inr hk' => exact nomatch hk'.symm.trans hk
    · exact fun hc => Bool.noConfusion (hclear.symm.trans hc)
  · rw [hin]
    exact (reads_of_drop_last htype hrest holder).symm.trans h.reads
  · exact hin ▸ sorted_of_dropped h.sorted

/-- An obsolete deletion is dropped, and all further versions of its key are going to be. -/
theorem Facing.dropObsolete {v : View} (h : Facing C input older done e rest key last clear out)
    (hwf : C.WellFormed input older) (htype : e.type ≠ .value)
    (hle : e.sequence ≤ C.earliestSnapshot)
    (hnot : C.keyNotExistsBeyondOutputLevel key = true) (hin : v.input = rest)
    (hsnap : v.snapshot = C.earliestVisibleSnapshot e.sequence) (hkey : v.key = some key)
    (hclear : v.clear = false) : Upheld C input older (done ++ [e]) v out := by
  have hsnap' : v.snapshot = C.earliestSnapshot :=
    hsnap.trans ((earliestVisibleSnapshot_eq_earliest e.sequence_le).mpr hle)
  apply Upheld.closed key (progress_of_passed h.split h.same hin hsnap (Or.inl hkey)) hkey hsnap'
    hclear hnot
  · rw [hin]
    exact (reads_of_drop_all htype hle h.same (older_not_same hwf h.split h.same hnot)).symm.trans
      h.reads
  · rw [hin]
    exact (sorted_of_dropped h.sorted).sublist ((List.filter_sublist (l := rest)).append_left out)

/-- A single deletion is skipped in front of another. -/
theorem Facing.skip {v : View} {next : CompactionEntry}
    (h : Facing C input older done e (next :: rest) key last clear out)
    (hwf : C.WellFormed input older) (htype : e.type ≠ .value) (hnext : C.Same e next)
    (hsingle : next.type = .singleDeletion) (hin : v.input = next :: rest)
    (hsnap : v.snapshot = C.earliestVisibleSnapshot e.sequence) (hkey : v.key = some key)
    (hclear : v.clear = false) : Upheld C input older (done ++ [e]) v out := by
  have := C.cmp.transCmp
  apply Upheld.opened (progress_of_passed h.split h.same hin hsnap (Or.inl hkey))
  · constructor
    · intro key' b hk hb hbkey
      rw [hin] at hb
      obtain rfl := Option.some.inj hb
      exact Or.inl ⟨hsingle, hclear⟩
    · exact fun hc => Bool.noConfusion (hclear.symm.trans hc)
  · have hdrop : C.ReadsSame (out ++ (e :: (next :: rest ++ older)))
        (out ++ (next :: rest ++ older)) := by
      apply SameReads.append_left
      apply SameReads.of_nothing
      intro r _ hsees
      refine ⟨found_of_ne htype, ?_⟩
      have hbefore := (before_of_split hwf h.split).2 next List.mem_cons_self
      have hsees' : C.sees r next = true := by
        obtain ⟨hkey, hseq⟩ := sees_iff.mp hsees
        exact sees_iff.mpr ⟨Std.TransCmp.eq_trans (Same.symm hnext) hkey,
          (hbefore.sequence_le hnext).trans hseq⟩
      rw [List.cons_append, NewestVisible.read_cons_of_sees hsees']
      exact found_of_ne (hsingle ▸ by decide)
    rw [hin]
    exact hdrop.symm.trans h.reads
  · exact hin ▸ sorted_of_dropped h.sorted

/-- A single deletion is dropped with the put that it deletes, where no snapshot tells the two
apart. -/
theorem Facing.dropPair {v : View} {next : CompactionEntry}
    (h : Facing C input older done e (next :: rest) key last clear out)
    (hwf : C.WellFormed input older) (htype : e.type = .singleDeletion) (hnext : C.Same e next)
    (hput : next.type ≠ .singleDeletion)
    (hstripe : ∀ s, C.Listed s → next.sequence ≤ s → e.sequence ≤ s) (hin : v.input = rest)
    (hsnap : v.snapshot = C.earliestVisibleSnapshot e.sequence) (hkey : v.key = some key)
    (hclear : v.clear = false) : Upheld C input older (done ++ [e, next]) v out := by
  have := C.cmp.transCmp
  obtain ⟨_, hbefore⟩ := before_of_split hwf h.split
  have hle : next.sequence ≤ e.sequence := (hbefore next List.mem_cons_self).sequence_le hnext
  have heq : C.earliestVisibleSnapshot next.sequence = C.earliestVisibleSnapshot e.sequence :=
    earliestVisibleSnapshot_eq e.sequence_le hle hstripe
  -- behind the put stands a single deletion or nothing
  have hbehind : ∀ q, (C.versionsOfKey e.userKey (rest ++ older)).head? = some q →
      q.type = .singleDeletion := by
    have hone := deletesOnePut_of_split hwf h.split htype
    rw [List.cons_append, versionsOfKey_cons_of_same (sameUserKey_iff.mpr hnext.symm)] at hone
    exact (hone.resolve_left hput).2
  have hseq : ∀ q ∈ rest ++ older, C.Same e q → q.sequence ≤ e.sequence := by
    intro q hq heq
    cases List.mem_append.mp hq with
    | inl hmem => exact (hbefore q (List.mem_cons_of_mem next hmem)).sequence_le heq
    | inr hmem =>
        have hein : e ∈ input := by
          rw [h.split]
          exact List.mem_append_right done List.mem_cons_self
        exact (hwf.older_lt e hein q hmem heq).le
  have hprogress : Progress C input (done ++ [e, next]) v := by
    apply progress_of_skipped h.split h.same _ hin hkey
    · intro _ _ _ l hl
      rw [hsnap]
      cases List.mem_cons.mp hl with
      | inl hle' => rw [hle']
      | inr hmem => rw [List.mem_singleton.mp hmem, heq]
    · intro b hb
      rw [List.mem_singleton.mp hb]
      exact hnext
  apply Upheld.opened hprogress
  · constructor
    · intro key' b hk hb hbkey
      left
      refine ⟨hbehind b ?_, hclear⟩
      obtain rfl := Option.some.inj (hkey.symm.trans hk)
      rw [hin] at hb
      cases rest with
      | nil => cases hb
      | cons b' rest =>
          obtain rfl := Option.some.inj hb
          have hsame : C.sameUserKey b'.userKey e.userKey = true :=
            sameUserKey_iff.mpr (Std.TransCmp.eq_trans hbkey (Std.OrientedCmp.eq_symm h.same))
          rw [List.cons_append, versionsOfKey_cons_of_same hsame]
          rfl
    · exact fun hc => Bool.noConfusion (hclear.symm.trans hc)
  · have hhidden : C.ReadsSame ((out ++ [e]) ++ next :: (rest ++ older))
        ((out ++ [e]) ++ (rest ++ older)) :=
      SameReads.of_hidden (hiddenBy_of_mem (List.mem_append_right out List.mem_cons_self) hnext
        hstripe)
    rw [List.append_assoc, List.append_assoc, List.singleton_append, List.singleton_append]
      at hhidden
    have hdrop : C.ReadsSame (out ++ (e :: (rest ++ older))) (out ++ (rest ++ older)) := by
      apply SameReads.append_left
      apply SameReads.of_nothing
      intro r _ hsees
      refine ⟨found_of_ne (htype ▸ by decide), ?_⟩
      obtain ⟨hekey, heseq⟩ := sees_iff.mp hsees
      apply read_none_of_single hekey
      intro q hq
      refine ⟨hbehind q hq, ?_⟩
      obtain ⟨hmem, hqkey⟩ := List.mem_filter.mp (List.mem_of_mem_head? hq)
      have heq' : C.Same e q := Same.symm (sameUserKey_iff.mp hqkey)
      exact sees_iff.mpr ⟨Std.TransCmp.eq_trans (Same.symm heq') hekey,
        (hseq q hmem heq').trans heseq⟩
    rw [hin]
    exact (hhidden.trans hdrop).symm.trans h.reads
  · rw [hin]
    exact sorted_of_dropped (sorted_of_dropped h.sorted)

/-! ### A deletion at the bottommost level -/

/-- The deletion goes out, as an older snapshot sees a version of its key. Those that are skipped
are hidden by it. -/
theorem Facing.outputDeletion {v : View} {x : CompactionEntry} {skipped : List CompactionEntry}
    (h : Facing C input older done e (skipped ++ rest) key last clear out) (hx : C.Same x e)
    (hseq : x.sequence = e.sequence) (htype : x.type = e.type) (hvalue : e.type ≠ .value)
    (hskipped : ∀ b ∈ skipped, C.Same e b ∧ b.sequence ≤ e.sequence ∧
      ∀ s, C.Listed s → b.sequence ≤ s → e.sequence ≤ s) (hin : v.input = rest)
    (hsnap : v.snapshot = C.earliestVisibleSnapshot e.sequence) (hkey : v.key = some key)
    (hclear : v.clear = false) :
    Upheld C input older (done ++ e :: skipped) v (out ++ [x]) := by
  have := C.cmp.transCmp
  have hprogress : Progress C input (done ++ e :: skipped) v := by
    apply progress_of_skipped h.split h.same (fun b hb => (hskipped b hb).1) hin hkey
    intro _ _ _ l hl
    rw [hsnap]
    cases List.mem_cons.mp hl with
    | inl heq => rw [heq]
    | inr hmem =>
        obtain ⟨_, hle, hhides⟩ := hskipped l hmem
        exact (earliestVisibleSnapshot_eq e.sequence_le hle hhides).symm
  apply Upheld.opened hprogress
  · constructor
    · intro key' b hk hb hbkey
      right
      obtain rfl := Option.some.inj (hkey.symm.trans hk)
      refine ⟨x, List.mem_append_right out List.mem_cons_self, ?_, by rw [hseq, hsnap]⟩
      exact hx.trans (Std.TransCmp.eq_trans h.same (Std.OrientedCmp.eq_symm hbkey))
    · exact fun hc => Bool.noConfusion (hclear.symm.trans hc)
  · have hhidden : C.ReadsSame ((out ++ [x]) ++ (skipped ++ (rest ++ older)))
        ((out ++ [x]) ++ (rest ++ older)) := by
      apply SameReads.of_hidden_all
      intro b hb
      obtain ⟨heb, _, hhides⟩ := hskipped b hb
      apply hiddenBy_of_mem (List.mem_append_right out List.mem_cons_self) (hx.trans heb)
      intro s hs hle
      rw [hseq]
      exact hhides s hs hle
    have hreplace : C.ReadsSame (out ++ (e :: (skipped ++ (rest ++ older))))
        (out ++ (x :: (skipped ++ (rest ++ older)))) := by
      apply SameReads.append_left
      apply SameReads.of_same
      · exact fun r _ => sees_congr hx.symm hseq.symm r
      · rw [found_of_ne hvalue, found_of_ne (htype ▸ hvalue)]
    have hreads := h.reads
    rw [List.append_assoc] at hreads
    rw [hin]
    apply hhidden.symm.trans
    rw [List.append_assoc, List.singleton_append]
    exact hreplace.symm.trans hreads
  · have hfooter : x.footer = e.footer := by
      unfold CompactionEntry.footer
      rw [hseq, htype]
    have hsub := ((List.sublist_append_right skipped rest).cons_cons e).append_left out
    rw [hin]
    exact sorted_of_replaced (h.sorted.sublist hsub) hx hfooter

/-- The deletion is dropped with all versions of its key behind it, of which no reader but those
that the deletion hides them from gets a value. -/
theorem Facing.dropDeletion {v : View} {skipped : List CompactionEntry}
    (h : Facing C input older done e (skipped ++ rest) key last clear out)
    (hvalue : e.type ≠ .value) (hskipped : ∀ b ∈ skipped, C.Same e b)
    (hquiet : ∀ r : Bytes × ℕ, C.Listed r.2 → ¬C.sees r e = true →
      NewestVisible.read C.sees found r skipped = none)
    (hrest : ∀ b ∈ rest, ¬C.Same e b) (holder : ∀ o ∈ older, ¬C.Same e o) (hin : v.input = rest)
    (hkey : v.key = some key) (hclear : v.clear = false) :
    Upheld C input older (done ++ e :: skipped) v out := by
  have := C.cmp.transCmp
  have hhead : ∀ b, rest.head? = some b → ¬C.Same e b :=
    fun b hb => hrest b (List.mem_of_mem_head? hb)
  have hprogress : Progress C input (done ++ e :: skipped) v :=
    progress_of_skipped h.split h.same hskipped hin hkey
      fun b hb heb => absurd heb (hhead b hb)
  apply Upheld.opened hprogress
  · constructor
    · intro key' b hk hb hbkey
      obtain rfl := Option.some.inj (hkey.symm.trans hk)
      rw [hin] at hb
      exact absurd (Std.TransCmp.eq_trans h.same (Std.OrientedCmp.eq_symm hbkey)) (hhead b hb)
    · exact fun hc => Bool.noConfusion (hclear.symm.trans hc)
  · have hdrop : C.ReadsSame (out ++ (e :: (skipped ++ (rest ++ older))))
        (out ++ (rest ++ older)) := by
      apply SameReads.append_left
      intro r hr
      by_cases hsees : C.sees r e = true
      · rw [NewestVisible.read_cons_of_sees hsees, found_of_ne hvalue,
          read_none_of_not_same hsees hrest holder]
      · rw [NewestVisible.read_cons_of_not_sees hsees]
        by_cases hany : ∃ b ∈ skipped, C.sees r b = true
        · obtain ⟨b, hb, hbsees⟩ := hany
          have hbe : C.Same b e := Same.symm (hskipped b hb)
          have hrest' : ∀ c ∈ rest, ¬C.Same b c := fun c hc hbc => hrest c hc (hbe.symm.trans hbc)
          have holder' : ∀ c ∈ older, ¬C.Same b c :=
            fun c hc hbc => holder c hc (hbe.symm.trans hbc)
          rw [NewestVisible.read_append_of_sees ⟨b, hb, hbsees⟩, hquiet r hr hsees,
            read_none_of_not_same hbsees hrest' holder']
        · exact NewestVisible.read_append_of_not_sees fun b hb hbsees => hany ⟨b, hb, hbsees⟩
    have hreads := h.reads
    rw [List.append_assoc] at hreads
    rw [hin]
    exact hdrop.symm.trans hreads
  · rw [hin]
    exact (sorted_of_dropped h.sorted).sublist ((List.sublist_append_right skipped rest).append_left out)

/-! ### Entries of a key that is to be dropped -/

theorem FacingClosed.drop {v : View}
    (h : FacingClosed C input older done e rest key last clear out) (hin : v.input = rest)
    (hsnap : v.snapshot = C.earliestVisibleSnapshot e.sequence) (hkey : v.key = some key)
    (hclear : v.clear = false) : Upheld C input older (done ++ [e]) v out := by
  have hsnap' : v.snapshot = C.earliestSnapshot :=
    hsnap.trans ((earliestVisibleSnapshot_eq_earliest e.sequence_le).mpr h.sequence_le)
  apply Upheld.closed key (progress_of_passed h.split h.same hin hsnap (Or.inl hkey)) hkey hsnap'
    hclear h.not_exists
  · exact hin ▸ h.reads
  · exact hin ▸ h.sorted

theorem FacingClosed.dropPair {v : View} {next : CompactionEntry}
    (h : FacingClosed C input older done e (next :: rest) key last clear out)
    (hwf : C.WellFormed input older) (hnext : C.Same e next) (hin : v.input = rest)
    (hsnap : v.snapshot = C.earliestVisibleSnapshot e.sequence) (hkey : v.key = some key)
    (hclear : v.clear = false) : Upheld C input older (done ++ [e, next]) v out := by
  have := C.cmp.transCmp
  have hnextkey : C.cmp.compare next.userKey key = .eq :=
    Std.TransCmp.eq_trans (Same.symm hnext) h.same
  have hle : next.sequence ≤ C.earliestSnapshot :=
    (((before_of_split hwf h.split).2 next List.mem_cons_self).sequence_le hnext).trans
      h.sequence_le
  have hearliest := (earliestVisibleSnapshot_eq_earliest e.sequence_le).mpr h.sequence_le
  have hearliest' := (earliestVisibleSnapshot_eq_earliest next.sequence_le).mpr hle
  have hreads := h.reads
  have hsorted := h.sorted
  rw [otherKeys_cons_of_same hnextkey] at hreads hsorted
  have hprogress : Progress C input (done ++ [e, next]) v := by
    apply progress_of_skipped h.split h.same _ hin hkey
    · intro _ _ _ l hl
      rw [hsnap]
      cases List.mem_cons.mp hl with
      | inl heq => rw [heq]
      | inr hmem => rw [List.mem_singleton.mp hmem, hearliest, hearliest']
    · intro b hb
      rw [List.mem_singleton.mp hb]
      exact hnext
  apply Upheld.closed key hprogress hkey (hsnap.trans hearliest) hclear h.not_exists
  · exact hin ▸ hreads
  · exact hin ▸ hsorted

theorem FacingClosed.dropLast {v : View}
    (h : FacingClosed C input older done e rest key last clear out)
    (hwf : C.WellFormed input older) (hhead : ∀ b, rest.head? = some b → ¬C.Same e b)
    (hin : v.input = rest) (hsnap : v.snapshot = C.earliestVisibleSnapshot e.sequence)
    (hkey : v.key = none) (hclear : v.clear = false) :
    Upheld C input older (done ++ [e]) v out := by
  have := C.cmp.transCmp
  have hother : C.otherKeys key rest = rest := by
    apply otherKeys_eq_of_head (p := e) _ h.same
    · intro b hb hbkey
      exact hhead b hb (Std.TransCmp.eq_trans h.same (Std.OrientedCmp.eq_symm hbkey))
    · exact sorted_of_split hwf h.split
  have hreads := h.reads
  have hsorted := h.sorted
  rw [hother] at hreads hsorted
  apply Upheld.opened (progress_of_passed h.split h.same hin hsnap (Or.inr ⟨hkey, hhead⟩))
  · constructor
    · exact fun key' b hk => nomatch hkey.symm.trans hk
    · exact fun hc => Bool.noConfusion (hclear.symm.trans hc)
  · exact hin ▸ hreads
  · exact hin ▸ hsorted

end CompactionIterator

end Tweezer
