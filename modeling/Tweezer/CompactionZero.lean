import Tweezer.CompactionRuns

/-!
# The snapshot at 0

Where a value at sequence number 0 is mistaken for one that no snapshot sees, the snapshot at 0
no longer reads it. With what is kept elsewhere this says when snapshots lose nothing.
-/

namespace Tweezer

namespace CompactionIterator

variable {C : CompactionIterator} {input older done rest : List CompactionEntry}
  {e : CompactionEntry} {key : Bytes} {last : ℕ} {clear : Bool}

/-! ### Progress -/

section Progress

variable {consumed : List CompactionEntry} {x : Option CompactionEntry} {v : View}

/-- Every turn moves on, whatever it does to the entries that it passes. -/
theorem Turn.progress (hwf : C.WellFormed input older) (hsplit : input = done ++ e :: rest)
    (hsame : C.cmp.compare e.userKey key = .eq)
    (h : Turn C e rest key last clear consumed x v) : Progress C input (done ++ consumed) v := by
  cases h with
  | lastDropped type head => exact progress_of_passed hsplit hsame rfl rfl (Or.inr ⟨rfl, head⟩)
  | lastOut type head => exact progress_of_passed hsplit hsame rfl rfl (Or.inr ⟨rfl, head⟩)
  | pairDropped next rest' eq type same put prev =>
      subst eq
      apply progress_of_skipped hsplit hsame _ rfl rfl
      · intro b hb heb l hl
        obtain ⟨_, hbefore⟩ := before_of_split hwf hsplit
        have hle := (hbefore next List.mem_cons_self).sequence_le same
        -- what stands behind the put is a single deletion, which is not the last at 0
        have hone := deletesOnePut_of_split hwf hsplit type
        rw [List.cons_append, versionsOfKey_cons_of_same (sameUserKey_iff.mpr same.symm)] at hone
        have hbtype : b.type = .singleDeletion := by
          apply (hone.resolve_left put).2
          cases rest' with
          | nil => cases hb
          | cons b' rest' =>
              obtain rfl := Option.some.inj hb
              rw [List.cons_append, versionsOfKey_cons_of_same (sameUserKey_iff.mpr heb.symm)]
              rfl
        have hnext : next.type = .value := (hone.resolve_left put).1
        have hlt : b.footer < next.footer := by
          have hsorted := (sorted_of_split hwf hsplit).of_cons
          exact (List.rel_of_pairwise_cons hsorted (List.mem_of_mem_head? hb)).footer_lt
            (same.symm.trans heb)
        have hnz : next.sequence ≠ 0 := by
          intro h0
          unfold CompactionEntry.footer at hlt
          rw [h0, hnext, hbtype] at hlt
          have hcode : ValueType.singleDeletion.code = 7 := rfl
          have hcode' : ValueType.value.code = 1 := rfl
          omega
        have heq : C.earliestVisibleSnapshot next.sequence =
            C.earliestVisibleSnapshot e.sequence := by
          apply earliestVisibleSnapshot_eq e.sequence_le hle
          intro s hs hns
          exact le_of_prevSnapshot e.sequence_le prev (fun _ h0 => absurd h0 hnz) hs hns
        cases List.mem_cons.mp hl with
        | inl h => rw [h]
        | inr h => rw [List.mem_singleton.mp h, heq]
      · intro b hb
        rw [List.mem_singleton.mp hb]
        exact same
  | bottomDropped skip left eq type shown bottom notNeeded skips head =>
      subst eq
      exact progress_of_skipped hsplit hsame (fun b hb => (skips b hb).1) rfl rfl
        fun b hb heb => absurd heb (head b hb)
  | bottomOut skip left eq type shown bottom skips prev =>
      subst eq
      apply progress_of_skipped hsplit hsame (fun b hb => (skips b hb).1) rfl rfl
      intro _ _ _ l hl
      cases List.mem_cons.mp hl with
      | inl h => rw [h]
      | inr h =>
          obtain ⟨hel, hprev⟩ := skips l h
          have hle : l.sequence ≤ e.sequence :=
            ((before_of_split hwf hsplit).2 l (List.mem_append_left left h)).sequence_le hel
          apply Eq.symm
          apply earliestVisibleSnapshot_eq e.sequence_le hle
          intro s hs hls
          apply le_of_prevSnapshot e.sequence_le hprev _ hs hls
          intro _ h0
          have hlt := hprev.resolve_left prev
          omega
  | _ => exact progress_of_passed hsplit hsame rfl rfl (Or.inl rfl)

/-- The snapshot of the version in front of an entry, once its key is entered. -/
theorem Progress.entered_last {s : State} (h : Progress C input done s.view)
    (hinput : s.input = e :: rest) :
    (∃ p, done.getLast? = some p ∧ C.Same p e ∧
        (C.enterUserKey s e).currentUserKeySnapshot = C.earliestVisibleSnapshot p.sequence) ∨
      (C.enterUserKey s e).currentUserKeySnapshot = 0 ∧
        ∀ p, done.getLast? = some p → ¬C.Same p e := by
  cases h.entered hinput with
  | inl hold =>
      obtain ⟨hsame, _, _, p, hp, hpe, hsnap⟩ := hold
      rw [hsame]
      exact Or.inl ⟨p, hp, hpe, hsnap⟩
  | inr hnew =>
      obtain ⟨henter, _, hfirst⟩ := hnew
      rw [henter]
      exact Or.inr ⟨rfl, hfirst⟩

theorem enterUserKey_clear (s : State) (e : CompactionEntry) :
    (C.enterUserKey s e).clearAndOutputNextKey = s.clearAndOutputNextKey := by
  unfold enterUserKey
  split <;> rfl

end Progress

/-! ### A value at 0 that is lost -/

variable {above below newer mid : List CompactionEntry} {z m : CompactionEntry}

/-- The version `m` above a value `z` at 0 on account of which the value is lost. -/
structure Marker (C : CompactionIterator) (above : List CompactionEntry) (z : CompactionEntry)
    (newer : List CompactionEntry) (m : CompactionEntry) (mid : List CompactionEntry) : Prop where
  split : above = newer ++ m :: mid
  same : C.Same m z
  sequence_ne : m.sequence ≠ 0
  prev : C.prevSnapshot m.sequence = 0
  kind : m.type = .singleDeletion ∧ mid = [] ∨
    m.type = .deletion ∧ C.bottommostLevel = true ∧
      C.ikeyNotNeededForIncrementalSnapshot m.sequence = true ∧ C.NewestOfStripe newer m

theorem Marker.length_lt (h : Marker C above z newer m mid) : newer.length < above.length := by
  rw [h.split, List.length_append, List.length_cons]
  omega

/-- Entries between two of one key are of the key. -/
theorem same_of_between {a b c : CompactionEntry} (hab : C.Before a b) (hbc : C.Before b c)
    (hac : C.Same a c) : C.Same a b := by
  by_contra hne
  exact not_same_of_before hab hne hbc hac

/-- The versions of the key above such a value are not at 0. -/
theorem sequence_ne_of_above (hwf : C.WellFormed input older)
    (hsplit : input = above ++ z :: below) (hbad : ¬C.KeptAtZero above z) :
    ∀ a ∈ above, C.Same a z → a.sequence ≠ 0 := by
  intro a ha haz ha0
  apply hbad
  cases hlast : above.getLast? with
  | none =>
      rw [List.getLast?_eq_none_iff] at hlast
      rw [hlast] at ha
      cases ha
  | some p =>
      obtain ⟨front, habove⟩ := List.getLast?_eq_some_iff.mp hlast
      have hpz := (before_of_split hwf hsplit).1 p (List.mem_of_getLast? hlast)
      have hap : a = p ∨ C.Before a p := by
        have hinc := hwf.increasing
        rw [hsplit, habove] at hinc
        rw [habove] at ha
        cases List.mem_append.mp ha with
        | inl hmem =>
            right
            have hfront := (List.pairwise_append.mp hinc).1
            exact (List.pairwise_append.mp hfront).2.2 a hmem p List.mem_cons_self
        | inr hmem => exact Or.inl (List.mem_singleton.mp hmem)
      cases hap with
      | inl heq =>
          rw [heq] at haz ha0
          exact ⟨front, p, habove, haz, Or.inl ha0⟩
      | inr hbefore =>
          have hsame := same_of_between hbefore hpz haz
          have hle := hbefore.sequence_le hsame
          exact ⟨front, p, habove, hsame.symm.trans haz, Or.inl (by omega)⟩

/-- Such a value is the first version of its key, or there is a version that marks it. -/
theorem first_or_marker (hwf : C.WellFormed input older) (hsplit : input = above ++ z :: below)
    (hbad : ¬C.KeptAtZero above z) :
    (∀ p, above.getLast? = some p → ¬C.Same p z) ∨ ∃ newer m mid, Marker C above z newer m mid := by
  by_cases hfirst : ∀ p, above.getLast? = some p → ¬C.Same p z
  · exact Or.inl hfirst
  · right
    simp only [not_forall, not_not] at hfirst
    obtain ⟨p, hlast, hpz⟩ := hfirst
    obtain ⟨front, habove⟩ := List.getLast?_eq_some_iff.mp hlast
    have hne := sequence_ne_of_above hwf hsplit hbad
    have hp0 := hne p (List.mem_of_getLast? hlast) hpz
    by_cases hsingle : p.type = .singleDeletion ∧ C.prevSnapshot p.sequence = 0
    · exact ⟨front, p, [], habove, hpz, hp0, hsingle.2, Or.inl ⟨hsingle.1, rfl⟩⟩
    · have hdeletion : ¬(C.bottommostLevel = true → ∀ newer d mid, above = newer ++ d :: mid →
          C.Same d z → d.type = .deletion → C.prevSnapshot d.sequence = 0 →
          C.ikeyNotNeededForIncrementalSnapshot d.sequence = true →
          ¬C.NewestOfStripe newer d) := by
        intro h
        exact hbad ⟨front, p, habove, hpz, Or.inr ⟨fun ht hprev => hsingle ⟨ht, hprev⟩, h⟩⟩
      simp only [not_forall, not_not, exists_prop] at hdeletion
      obtain ⟨hbottom, newer, d, mid, hd, hdz, htype, hprev, hnotNeeded, hnewest⟩ := hdeletion
      have hmem : d ∈ above := hd ▸ List.mem_append_right newer List.mem_cons_self
      exact ⟨newer, d, mid, hd, hdz, hne d hmem hdz, hprev,
        Or.inr ⟨htype, hbottom, hnotNeeded, hnewest⟩⟩

/-- What is passed with the marker, and what is left, where the value is not reached. -/
theorem passed_marker {pre consumed left : List CompactionEntry}
    (h : consumed ++ left = pre ++ m :: (mid ++ z :: below))
    (hlt : pre.length < consumed.length)
    (hle : consumed.length ≤ pre.length + 1 + mid.length) :
    ∃ passed mid', consumed = pre ++ m :: passed ∧ mid = passed ++ mid' ∧
      left = mid' ++ z :: below := by
  cases List.append_eq_append_iff.mp h with
  | inl hshort =>
      obtain ⟨as, hpre, _⟩ := hshort
      rw [hpre, List.length_append] at hlt
      omega
  | inr hlong =>
      obtain ⟨bs, hconsumed, hrest⟩ := hlong
      cases bs with
      | nil =>
          rw [hconsumed, List.append_nil] at hlt
          omega
      | cons b bs =>
          obtain ⟨rfl, htail⟩ := List.cons_eq_cons.mp hrest
          rw [hconsumed, List.length_append, List.length_cons] at hle
          cases List.append_eq_append_iff.mp htail with
          | inl hmid =>
              obtain ⟨as, hbs, hleft⟩ := hmid
              cases as with
              | nil =>
                  rw [List.append_nil] at hbs
                  exact ⟨bs, [], hconsumed, by rw [List.append_nil, hbs], hleft.symm⟩
              | cons a as =>
                  rw [hbs, List.length_append, List.length_cons] at hle
                  omega
          | inr hmid =>
              obtain ⟨as, hmid', hleft⟩ := hmid
              exact ⟨bs, as, hconsumed, hmid', hleft⟩

/-- While the value `z` at 0 behind `above` is ahead, it is the first of its key or its marker
behind `newer` is ahead too, unless it comes next and is cleared. No output reads its value. -/
structure Stranded (C : CompactionIterator) (input above : List CompactionEntry)
    (z : CompactionEntry) (newer done : List CompactionEntry) (v : View)
    (out : List CompactionEntry) : Prop where
  progress : Progress C input done v
  clear : ∀ b, v.clear = true → v.input.head? = some b → b.type = .value
  lost : ∀ o ∈ out, C.Same o z → o.sequence = 0 → found o ≠ some z.value
  ahead : (∀ p, above.getLast? = some p → ¬C.Same p z) ∨ done.length ≤ newer.length ∨
    v.clear = true ∧ done.length = above.length ∨ above.length < done.length

section Stranding

variable {consumed : List CompactionEntry} {x : Option CompactionEntry} {v : View}

/-- A turn that passes the marker passes the value, or clears it next. -/
theorem Turn.passes_marker (hwf : C.WellFormed input older) (hmem : 0 ∈ C.snapshots)
    (hsplit : input = above ++ z :: below) (hvalue : z.type = .value)
    (hmarker : Marker C above z newer m mid) (hdone : input = done ++ e :: rest)
    (hlen : done.length ≤ newer.length) (hclear : clear = true → e.type = .value)
    (hentered : (∃ p, done.getLast? = some p ∧ C.Same p e ∧
      last = C.earliestVisibleSnapshot p.sequence) ∨
      last = 0 ∧ ∀ p, done.getLast? = some p → ¬C.Same p e)
    (h : Turn C e rest key last clear consumed x v)
    (hlt : newer.length < (done ++ consumed).length)
    (hle : (done ++ consumed).length ≤ above.length) :
    v.clear = true ∧ (done ++ consumed).length = above.length := by
  -- the marker and the value, as seen from the iterator
  obtain ⟨pre, hnewer⟩ : ∃ pre, newer = done ++ pre := by
    have hpos : done ++ e :: rest = newer ++ (m :: (mid ++ z :: below)) := by
      rw [← hdone, hsplit, hmarker.split]
      simp
    cases List.append_eq_append_iff.mp hpos with
    | inl hshort =>
        obtain ⟨as, has, _⟩ := hshort
        exact ⟨as, has⟩
    | inr hlong =>
        obtain ⟨bs, hbs, _⟩ := hlong
        have hnil : bs = [] := by
          rw [hbs, List.length_append] at hlen
          exact List.length_eq_zero_iff.mp (by omega)
        exact ⟨[], by rw [hbs, hnil, List.append_nil, List.append_nil]⟩
  have hrest : e :: rest = pre ++ m :: (mid ++ z :: below) := by
    have hpos : done ++ e :: rest = done ++ (pre ++ m :: (mid ++ z :: below)) := by
      rw [← hdone, hsplit, hmarker.split, hnewer]
      simp
    exact List.append_cancel_left hpos
  have habove : above.length = done.length + pre.length + 1 + mid.length := by
    rw [hmarker.split, hnewer]
    simp only [List.length_append, List.length_cons]
    omega
  have hnewerlen : newer.length = done.length + pre.length := by
    rw [hnewer, List.length_append]
  rw [List.length_append] at hlt hle
  obtain ⟨hpasses, _⟩ := h.passes
  obtain ⟨passed, mid', hconsumed, hmid, hleft⟩ :=
    passed_marker (hpasses.symm.trans hrest) (by omega) (by omega)
  have hsorted := sorted_of_split hwf hdone
  -- a turn that passes one entry passes the marker
  have hsingle : consumed = [e] → e = m ∧ rest = mid ++ z :: below := by
    intro hone
    have hpre : pre = [] := by
      cases pre with
      | nil => rfl
      | cons a as =>
          rw [hone] at hconsumed
          have hlen' := congrArg List.length hconsumed
          simp at hlen'
    rw [hpre, List.nil_append] at hrest
    exact List.cons_eq_cons.mp hrest
  have hzero : C.earliestSnapshot = 0 := Nat.le_zero.mp (earliestSnapshot_le (Or.inl hmem))
  have hdeletion : e = m → e.type ≠ .singleDeletion → m.type = .deletion ∧
      C.bottommostLevel = true ∧ C.ikeyNotNeededForIncrementalSnapshot m.sequence = true ∧
      C.NewestOfStripe newer m := by
    intro heq hne
    exact hmarker.kind.resolve_left fun hkind => hne (heq ▸ hkind.1)
  -- under a single deletion the value is next
  have hnext : e = m → rest = mid ++ z :: below → e.type = .singleDeletion →
      mid = [] ∧ rest = z :: below := by
    intro heq hr htype
    have hmid0 : mid = [] := by
      cases hmarker.kind with
      | inl hkind => exact hkind.2
      | inr hkind => exact ValueType.noConfusion ((heq ▸ htype : m.type = _).symm.trans hkind.1)
    exact ⟨hmid0, by rw [hr, hmid0, List.nil_append]⟩
  cases h with
  | cleared =>
      obtain ⟨heq, _⟩ := hsingle rfl
      have htype := heq ▸ hclear rfl
      cases hmarker.kind with
      | inl hkind => exact ValueType.noConfusion (htype.symm.trans hkind.1)
      | inr hkind => exact ValueType.noConfusion (htype.symm.trans hkind.1)
  | lastDropped type head =>
      obtain ⟨heq, hr⟩ := hsingle rfl
      obtain ⟨_, hz⟩ := hnext heq hr type
      exact absurd (heq ▸ hmarker.same) (head z (by rw [hz]; rfl))
  | lastOut type head =>
      obtain ⟨heq, hr⟩ := hsingle rfl
      obtain ⟨_, hz⟩ := hnext heq hr type
      exact absurd (heq ▸ hmarker.same) (head z (by rw [hz]; rfl))
  | skipped next rest' eq type same single =>
      obtain ⟨heq, hr⟩ := hsingle rfl
      obtain ⟨_, hz⟩ := hnext heq hr type
      obtain ⟨rfl, _⟩ := List.cons_eq_cons.mp (eq.symm.trans hz)
      exact ValueType.noConfusion (single.symm.trans hvalue)
  | pairDropped next rest' eq type same put prev =>
      exfalso
      cases pre with
      | nil =>
          -- the single deletion is the marker, and the put is the value
          obtain ⟨heq, hr⟩ := List.cons_eq_cons.mp hrest
          obtain ⟨hmid0, _⟩ := hnext heq hr type
          rw [hmid0] at habove
          simp only [List.length_cons, List.length_nil] at hle habove
          omega
      | cons a as =>
          obtain ⟨_, htail⟩ := List.cons_eq_cons.mp hconsumed
          cases as with
          | cons b bs =>
              have hlen' := congrArg List.length htail
              simp at hlen'
          | nil =>
              obtain ⟨heq, _⟩ := List.cons_eq_cons.mp htail
              have hput := put_of_paired hwf (eq ▸ hdone) type same put
              cases hmarker.kind with
              | inl hkind => exact put (heq ▸ hkind.1)
              | inr hkind => exact ValueType.noConfusion ((heq ▸ hput).symm.trans hkind.1)
  | pairOut next rest' eq type same put prev conflict =>
      obtain ⟨heq, hr⟩ := hsingle rfl
      obtain ⟨hmid0, _⟩ := hnext heq hr type
      refine ⟨rfl, ?_⟩
      rw [hmid0] at habove
      rw [List.length_append]
      simp only [List.length_cons, List.length_nil] at hlt habove ⊢
      omega
  | apart next rest' eq type same prev =>
      obtain ⟨heq, _⟩ := hsingle rfl
      exact absurd (heq ▸ hmarker.prev) prev.1
  | hidden type hides =>
      exfalso
      obtain ⟨heq, _⟩ := hsingle rfl
      obtain ⟨_, _, _, hnewest⟩ := hdeletion heq type
      have hnewerdone : newer = done := by
        have hlen' : pre.length = 0 := by
          simp only [List.length_cons, List.length_nil] at hlt
          omega
        rw [hnewer, List.length_eq_zero_iff.mp hlen', List.append_nil]
      rw [hnewerdone, ← heq] at hnewest
      cases hentered with
      | inl hold =>
          obtain ⟨p, hp, hpe, hlast⟩ := hold
          have hne := hnewest p hp hpe
          have hle' := ((before_of_split hwf hdone).1 p (List.mem_of_getLast? hp)).sequence_le hpe
          have hmono := earliestVisibleSnapshot_mono (C := C) p.sequence_le hle'
          omega
      | inr hnew =>
          have hvisible : C.earliestVisibleSnapshot e.sequence = 0 := by omega
          exact hmarker.sequence_ne
            (heq ▸ (eq_zero_of_earliestVisibleSnapshot e.sequence_le hvisible).1)
  | obsolete type shown le =>
      obtain ⟨heq, _⟩ := hsingle rfl
      have hm := hmarker.sequence_ne
      rw [← heq] at hm
      omega
  | out type shown needed =>
      obtain ⟨heq, _⟩ := hsingle rfl
      obtain ⟨htype, hbottom, hnotNeeded, _⟩ := hdeletion heq type
      exact absurd ⟨heq ▸ htype, hbottom, heq ▸ hnotNeeded⟩ needed
  | bottomDropped skip left eq type shown bottom notNeeded skips head =>
      exfalso
      have hem : C.Same e m := by
        have hm : m ∈ e :: skip := hconsumed ▸ List.mem_append_right pre List.mem_cons_self
        cases List.mem_cons.mp hm with
        | inl h =>
            rw [h]
            exact Same.refl e
        | inr h => exact (skips m h).1
      have hez : C.Same e z := hem.trans hmarker.same
      have hleft' : left = mid' ++ z :: below := hleft
      rw [eq] at hsorted
      cases mid' with
      | nil => exact head z (by rw [hleft']; rfl) hez
      | cons b bs =>
          have hb : left.head? = some b := by
            rw [hleft']
            rfl
          have hbefore := List.rel_of_pairwise_cons hsorted
            (List.mem_append_right skip (List.mem_of_mem_head? hb))
          have hbz : C.Before b z := by
            have hsorted' := (List.pairwise_append.mp hsorted.of_cons).2.1
            rw [hleft'] at hsorted'
            exact List.rel_of_pairwise_cons hsorted' (List.mem_append_right bs List.mem_cons_self)
          exact head b hb (same_of_between hbefore hbz hez)
  | bottomOut skip left eq type shown bottom skips prev =>
      exfalso
      have hm : m ∈ e :: skip := hconsumed ▸ List.mem_append_right pre List.mem_cons_self
      cases List.mem_cons.mp hm with
      | inl h => exact prev (h ▸ hmarker.prev)
      | inr h =>
          have hlt' := (skips m h).2.resolve_left prev
          have hle' := le_prevSnapshot (prevSnapshot_mem prev).1 hlt'
          rw [hmarker.prev] at hle'
          exact prev (Nat.le_zero.mp hle')

/-- What a turn gives out does not read the value. -/
theorem Turn.loses (hwf : C.WellFormed input older) (hmem : 0 ∈ C.snapshots)
    (hsplit : input = above ++ z :: below) (hseq : z.sequence = 0) (hvalue : z.type = .value)
    (hne : z.value ≠ []) (hdone : input = done ++ e :: rest)
    (hsame : C.cmp.compare e.userKey key = .eq)
    (hentered : (∃ p, done.getLast? = some p ∧ C.Same p e ∧
      last = C.earliestVisibleSnapshot p.sequence) ∨
      last = 0 ∧ ∀ p, done.getLast? = some p → ¬C.Same p e)
    (hahead : (∀ p, above.getLast? = some p → ¬C.Same p z) ∨ clear = true ∨
      done.length ≠ above.length)
    (h : Turn C e rest key last clear consumed x v) :
    ∀ o ∈ (x.map C.prepare).toList, C.Same o z → o.sequence = 0 → found o ≠ some z.value := by
  intro o ho hoz ho0 hfound
  have hzero : C.earliestSnapshot = 0 := Nat.le_zero.mp (earliestSnapshot_le (Or.inl hmem))
  -- an entry that is not cleared and reads the value is the value
  have hkept : ∀ y : CompactionEntry, C.Same y e → y.sequence = e.sequence → found y = found e →
      o = C.prepare y → done = above ∧ e = z := by
    intro y hye hyseq hyfound hoy
    have hprepare : C.Same o y ∧ found o = found y ∧ (o.sequence = 0 → y.sequence = 0) := by
      rw [hoy]
      unfold prepare
      split
      · rename_i hprep
        exact ⟨Same.refl y, rfl, fun _ => by omega⟩
      · exact ⟨Same.refl y, rfl, fun h => h⟩
    have he0 : e.sequence = 0 := hyseq ▸ hprepare.2.2 ho0
    have hez : C.Same e z := (hprepare.1.trans hye).symm.trans hoz
    have hetype : e.type = .value := by
      have hread : found e = some z.value := hyfound ▸ hprepare.2.1 ▸ hfound
      by_contra hnot
      rw [found_of_ne hnot] at hread
      cases hread
    have hfooter : e.footer = z.footer := by
      unfold CompactionEntry.footer
      rw [he0, hseq, hetype, hvalue]
    have hpos : done ++ e :: rest = above ++ z :: below := hdone ▸ hsplit
    cases List.append_eq_append_iff.mp hpos with
    | inl hshort =>
        obtain ⟨as, habove, hrest⟩ := hshort
        cases as with
        | nil => exact ⟨by rw [habove, List.append_nil], (List.cons_eq_cons.mp hrest).1⟩
        | cons a as =>
            obtain ⟨rfl, _⟩ := List.cons_eq_cons.mp hrest
            have hbefore := (before_of_split hwf hsplit).1 e
              (habove ▸ List.mem_append_right done List.mem_cons_self)
            have hlt := hbefore.footer_lt hez
            omega
    | inr hlong =>
        obtain ⟨bs, hdone', hrest⟩ := hlong
        cases bs with
        | nil => exact ⟨by rw [hdone', List.append_nil], (List.cons_eq_cons.mp hrest).1.symm⟩
        | cons b bs =>
            obtain ⟨rfl, _⟩ := List.cons_eq_cons.mp hrest
            have hbefore := (before_of_split hwf hdone).1 z
              (hdone' ▸ List.mem_append_right above List.mem_cons_self)
            have hlt := hbefore.footer_lt hez.symm
            omega
  -- it goes out as it is only behind a version of its key
  have hshown : clear = false → last ≠ C.earliestVisibleSnapshot e.sequence → done = above →
      e = z → False := by
    intro hclear hlast hda hez
    have hfirst := hahead.resolve_right fun h => by
      cases h with
      | inl h => exact Bool.noConfusion (hclear.symm.trans h)
      | inr h => exact h (congrArg List.length hda)
    cases hentered with
    | inl hold =>
        obtain ⟨p, hp, hpe, _⟩ := hold
        exact hfirst p (hda ▸ hp) (hez ▸ hpe)
    | inr hnew =>
        apply hlast
        rw [hnew.1, hez, hseq]
        have hle : C.earliestVisibleSnapshot 0 ≤ 0 :=
          earliestVisibleSnapshot_le (Or.inl hmem) le_rfl
        omega
  have hwith : C.Same (e.withKey key) e := same_withKey hsame
  cases h with
  | cleared =>
      have ho' : o = C.prepare { e.withKey key with value := [] } := List.mem_singleton.mp ho
      have hfound' : found o = found { e.withKey key with value := [] } := by
        rw [ho']
        unfold prepare
        split <;> rfl
      rw [hfound'] at hfound
      unfold found at hfound
      split at hfound
      · exact hne (Option.some.inj hfound).symm
      · cases hfound
  | lastDropped => cases ho
  | skipped => cases ho
  | pairDropped => cases ho
  | hidden => cases ho
  | obsolete => cases ho
  | bottomDropped => cases ho
  | lastOut type =>
      obtain ⟨_, hez⟩ := hkept _ hwith rfl rfl (List.mem_singleton.mp ho)
      exact ValueType.noConfusion ((hez ▸ type).symm.trans hvalue)
  | pairOut next rest' eq type =>
      obtain ⟨_, hez⟩ := hkept _ hwith rfl rfl (List.mem_singleton.mp ho)
      exact ValueType.noConfusion ((hez ▸ type).symm.trans hvalue)
  | apart next rest' eq type =>
      obtain ⟨_, hez⟩ := hkept _ hwith rfl rfl (List.mem_singleton.mp ho)
      exact ValueType.noConfusion ((hez ▸ type).symm.trans hvalue)
  | bottomOut skip left eq type =>
      obtain ⟨_, hez⟩ := hkept _ hwith rfl rfl (List.mem_singleton.mp ho)
      exact ValueType.noConfusion ((hez ▸ type).symm.trans hvalue)
  | out type shown =>
      obtain ⟨hda, hez⟩ := hkept _ hwith rfl rfl (List.mem_singleton.mp ho)
      exact hshown rfl shown hda hez

/-- Only the put of a single deletion is to be cleared. -/
theorem Turn.clears_value (hwf : C.WellFormed input older) (hdone : input = done ++ e :: rest)
    (h : Turn C e rest key last clear consumed x v) (b : CompactionEntry) (hclear : v.clear = true)
    (hb : v.input.head? = some b) : b.type = .value := by
  cases h with
  | pairOut next rest' eq type same put prev conflict =>
      have hvalue := put_of_paired hwf (eq ▸ hdone) type same put
      have hnext : next = b := by
        have hb' : rest.head? = some b := hb
        rw [eq] at hb'
        exact Option.some.inj hb'
      exact hnext ▸ hvalue
  | _ => exact Bool.noConfusion hclear

end Stranding

/-- Every turn leaves the value stranded. -/
theorem stranded_kept (hwf : C.WellFormed input older) (hmem : 0 ∈ C.snapshots)
    (hsplit : input = above ++ z :: below) (hseq : z.sequence = 0) (hvalue : z.type = .value)
    (hne : z.value ≠ [])
    (hcase : (∀ p, above.getLast? = some p → ¬C.Same p z) ∨ Marker C above z newer m mid) :
    KeptByTurns C fun v out => ∃ done, Stranded C input above z newer done v out := by
  intro s out e rest houtput hatNext hinput h
  obtain ⟨done, h⟩ := h
  have hview : s.view.input = e :: rest := hinput
  have hdone : input = done ++ e :: rest := hview ▸ h.progress.split
  obtain ⟨hsame, _⟩ := enterUserKey_keeps (C := C) s e
  have hentered := h.progress.entered_last hinput
  have hclear : (C.enterUserKey s e).clearAndOutputNextKey = true → e.type = .value := by
    intro hc
    exact h.clear e ((enterUserKey_clear s e).symm.trans hc) (by rw [hview]; rfl)
  obtain ⟨consumed, hturn⟩ := (visit_turned (C := C) houtput hatNext hinput).turn
  obtain ⟨_, hconsumed⟩ := hturn.passes
  have hpos : 0 < consumed.length := List.length_pos_iff.mpr hconsumed
  have hlength : (done ++ consumed).length = done.length + consumed.length := List.length_append
  refine ⟨done ++ consumed, hturn.progress hwf hdone hsame, hturn.clears_value hwf hdone, ?_, ?_⟩
  · have hahead : (∀ p, above.getLast? = some p → ¬C.Same p z) ∨
        (C.enterUserKey s e).clearAndOutputNextKey = true ∨ done.length ≠ above.length := by
      rw [enterUserKey_clear]
      cases hcase with
      | inl hfirst => exact Or.inl hfirst
      | inr hmarker =>
          have hlt := hmarker.length_lt
          cases h.ahead with
          | inl hfirst => exact Or.inl hfirst
          | inr hahead =>
              rcases hahead with hle | ⟨hclr, _⟩ | hgt
              · exact Or.inr (Or.inr (by omega))
              · exact Or.inr (Or.inl hclr)
              · exact Or.inr (Or.inr (by omega))
    intro o ho
    cases List.mem_append.mp ho with
    | inl hold => exact h.lost o hold
    | inr hnew =>
        exact hturn.loses hwf hmem hsplit hseq hvalue hne hdone hsame hentered hahead o hnew
  · cases hcase with
    | inl hfirst => exact Or.inl hfirst
    | inr hmarker =>
        have hlt := hmarker.length_lt
        cases h.ahead with
        | inl hfirst => exact Or.inl hfirst
        | inr hahead =>
            rcases hahead with hle | ⟨_, heq⟩ | hgt
            · by_cases hbefore : (done ++ consumed).length ≤ newer.length
              · exact Or.inr (Or.inl hbefore)
              · by_cases hbehind : above.length < (done ++ consumed).length
                · exact Or.inr (Or.inr (Or.inr hbehind))
                · right; right; left
                  exact hturn.passes_marker hwf hmem hsplit hvalue hmarker hdone hle hclear
                    hentered (Nat.lt_of_not_le hbefore) (Nat.le_of_not_lt hbehind)
            · exact Or.inr (Or.inr (Or.inr (by omega)))
            · exact Or.inr (Or.inr (Or.inr (by omega)))

/-- A value at 0 that is not kept is not read any more by a snapshot at 0. -/
theorem not_keepsReads (hwf : C.WellFormed input older) (hmem : 0 ∈ C.snapshots)
    (hsplit : input = above ++ z :: below) (hseq : z.sequence = 0) (hvalue : z.type = .value)
    (hne : z.value ≠ []) (hbad : ¬C.KeptAtZero above z) : ¬C.KeepsReads input older := by
  have := C.cmp.transCmp
  obtain ⟨newer, hturns⟩ : ∃ newer, KeptByTurns C fun v out =>
      ∃ done, Stranded C input above z newer done v out := by
    cases first_or_marker hwf hsplit hbad with
    | inl hfirst =>
        have hcase : (∀ p, above.getLast? = some p → ¬C.Same p z) ∨ Marker C above z [] z [] :=
          Or.inl hfirst
        exact ⟨[], stranded_kept hwf hmem hsplit hseq hvalue hne hcase⟩
    | inr hmarker =>
        obtain ⟨newer, m, mid, hmarker⟩ := hmarker
        exact ⟨newer, stranded_kept hwf hmem hsplit hseq hvalue hne (Or.inr hmarker)⟩
  have hinit : Stranded C input above z newer [] (State.init input).view [] := by
    constructor
    · exact progress_init
    · exact fun b hclear => nomatch hclear
    · exact fun o ho => nomatch ho
    · exact Or.inr (Or.inl (Nat.zero_le _))
  obtain ⟨v, _, done, hstranded⟩ := outputs_kept hturns ⟨[], hinit⟩
  intro hkeeps
  have hreads := hkeeps.2 (z.userKey, 0) (Or.inl hmem)
  -- the input reads the value
  have hself : C.sees (z.userKey, 0) z = true :=
    sees_iff.mpr ⟨Std.ReflCmp.compare_self, hseq.le⟩
  have hinput : NewestVisible.read C.sees found (z.userKey, 0) (input ++ older) =
      some z.value := by
    have habove : ∀ a ∈ above, ¬C.sees (z.userKey, 0) a = true := by
      intro a ha hsees
      obtain ⟨hkey, hle⟩ := sees_iff.mp hsees
      exact sequence_ne_of_above hwf hsplit hbad a ha hkey (Nat.le_zero.mp hle)
    rw [hsplit, List.append_assoc, NewestVisible.read_append_of_not_sees habove,
      List.cons_append, NewestVisible.read_cons_of_sees hself, found, if_pos hvalue]
  rw [hinput] at hreads
  -- no output and nothing older does
  unfold NewestVisible.read at hreads
  cases hfind : (C.outputs input ++ older).find? (C.sees (z.userKey, 0)) with
  | none =>
      rw [hfind] at hreads
      cases hreads
  | some o =>
      rw [hfind] at hreads
      obtain ⟨hkey, hle⟩ := sees_iff.mp (List.find?_some hfind)
      have ho0 : o.sequence = 0 := Nat.le_zero.mp hle
      have hoz : C.Same o z := hkey
      cases List.mem_append.mp (List.mem_of_find?_eq_some hfind) with
      | inl hout => exact hstranded.lost o hout hoz ho0 hreads
      | inr holder =>
          have hzmem : z ∈ input := by
            rw [hsplit]
            exact List.mem_append_right above List.mem_cons_self
          have hlt := hwf.older_lt z hzmem o holder hoz.symm
          omega

/-- **What snapshots see, and the snapshot at 0.** The output is strictly increasing and every
read is as before if each value at sequence number 0 that a listed snapshot at 0 sees is kept,
and unless such a value is empty, only then. -/
theorem keepsReads_iff (hwf : C.WellFormed input older) :
    (C.ZeroKept input → C.KeepsReads input older) ∧
      ((∀ z ∈ input, z.sequence = 0 → z.type = .value → z.value ≠ []) →
        C.KeepsReads input older → C.ZeroKept input) := by
  constructor
  · exact keepsReads_of_zeroKept hwf
  · intro hvalues hkeeps hmem above z below hsplit hseq hvalue
    by_contra hbad
    have hzmem : z ∈ input := by
      rw [hsplit]
      exact List.mem_append_right above List.mem_cons_self
    exact not_keepsReads hwf hmem hsplit hseq hvalue (hvalues z hzmem hseq hvalue) hbad hkeeps

/-! ### Two compactions at the bottommost level -/

/-- Without single deletions none is misused. -/
theorem wellFormed_of_puts (hincreasing : input.Pairwise C.Before)
    (hputs : ∀ e ∈ input, e.type ≠ .singleDeletion) : C.WellFormed input [] := by
  have honce : ∀ l : List CompactionEntry, (∀ e ∈ l, e.type ≠ .singleDeletion) →
      SingleDeletesOnce l := by
    intro l hl
    induction l with
    | nil => trivial
    | cons e l ih =>
        exact ⟨fun htype => absurd htype (hl e List.mem_cons_self),
          ih fun b hb => hl b (List.mem_cons_of_mem e hb)⟩
  constructor
  · exact hincreasing
  · exact fun _ _ o ho => nomatch ho
  · intro key
    apply honce
    intro e he
    rw [List.append_nil] at he
    exact hputs e (List.mem_filter.mp he).1
  · exact fun _ _ _ o ho => nomatch ho

def toBottommost : CompactionProxy := ⟨true, fun _ => true, false, false, fun _ _ => rfl⟩

/-- A compaction to the bottommost level with one snapshot. -/
def compactionAt (snapshot : ℕ) (h : snapshot ≤ kMaxSequenceNumber) : CompactionIterator where
  cmp := bytewiseComparator
  snapshots := [snapshot]
  earliestWriteConflictSnapshot := kMaxSequenceNumber
  compaction := some toBottommost
  preserveDeletesSeqnum := 0
  ascending := List.pairwise_singleton _ _
  snapshots_le := fun _ hs => List.mem_singleton.mp hs ▸ h
  conflict_mem := Or.inr rfl

def putAt (sequence : ℕ) (value : Bytes) (h : sequence ≤ kMaxSequenceNumber) : CompactionEntry :=
  ⟨[1], sequence, .value, value, h, List.mem_cons_self⟩

theorem keepsReads_iff_twoPuts :
    (compactionAt 4 (by decide)).KeepsReads
      [putAt 6 [60] (by decide), putAt 3 [30] (by decide), putAt 2 [20] (by decide)] [] := by
  have hincreasing : [putAt 6 [60] (by decide), putAt 3 [30] (by decide),
      putAt 2 [20] (by decide)].Pairwise (compactionAt 4 (by decide)).Before := by
    unfold Before
    decide +kernel
  apply (keepsReads_iff (wellFormed_of_puts hincreasing _)).1
  · exact fun hmem => absurd hmem (by decide)
  · decide

/-- A put of an ingested file with a snapshot of a database that has no other write: both are at
sequence number 0. -/
theorem ingested_not_keepsReads :
    (compactionAt 0 (by decide)).WellFormed [putAt 0 [7] (by decide)] [] ∧
      ¬(compactionAt 0 (by decide)).KeepsReads [putAt 0 [7] (by decide)] [] := by
  constructor
  · exact wellFormed_of_puts (List.pairwise_singleton _ _) (by decide)
  · intro hkeeps
    have hread := hkeeps.2 ([1], 0) (Or.inl List.mem_cons_self)
    have hout : (compactionAt 0 (by decide)).outputs [putAt 0 [7] (by decide)] = [] := by
      decide +kernel
    rw [hout] at hread
    exact absurd hread (by decide +kernel)

end CompactionIterator

end Tweezer
