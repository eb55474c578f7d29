import Tweezer.MultiGetAgrees
import Tweezer.TableRefinement

/-!
# Runs of the table iterator

The backward calls from any position, and which of them return at all: `SeekToLast` and a
`SeekForPrev` behind the last entry of a data block read outside its key table, a `SeekForPrev`
before its first entry does not end, and `Prev` at a first entry does not move. A run of calls goes
along with the reference cursor exactly if each of its calls meets the condition.
-/

namespace Tweezer

open OrderedCursor

namespace BlockBasedTableIterator

variable {T : OpenTable} {o : IteratorOptions} {I I' : BlockBasedTableIterator} {p q k i : ℕ}
  {b : TableBlock T.comparator × BlockHandle} {pos : Option ℕ} {t : InternalKey}

/-- The call ends where the reference cursor does. -/
def CallSound (T : OpenTable) (o : IteratorOptions) (I : BlockBasedTableIterator)
    (pos' : Option ℕ) (op : Op InternalKey) : Prop :=
  ∃ I', Outcome.Settles (fun fuel => I.call T.toPointReader o fuel op) I' ∧ I'.Tracks T o pos'

/-- The call does not end, leaves the key table, or disagrees with the reference cursor. -/
def CallUnsound (T : OpenTable) (o : IteratorOptions) (I : BlockBasedTableIterator)
    (pos' : Option ℕ) (op : Op InternalKey) : Prop :=
  ∀ fuel I', I.call T.toPointReader o fuel op = .ok I' →
    ¬ I'.Agrees T.toPointReader T.entries pos'

theorem Tracks.shownAt (h : I.Tracks T o pos) : ∀ p ∈ pos, ShownAt T.chunks p := by
  cases h with
  | closed _ _ => exact fun p hp => nomatch hp
  | entry h =>
      intro p hp
      obtain rfl := Option.some.inj hp
      exact (shownAt_iff h.holds).mpr h.shows.shown

theorem Lands.sound {pos' : Option ℕ} {op : Op InternalKey}
    (h : Lands T o (fun fuel => I.call T.toPointReader o fuel op) pos')
    (hshown : ∀ p ∈ pos', ShownAt T.chunks p) : I.CallSound T o pos' op := by
  obtain ⟨I', q, hsettles, htracks, hq⟩ := h
  rw [hq hshown] at htracks
  exact ⟨I', hsettles, htracks⟩

theorem Lands.unsound {pos' : Option ℕ} {op : Op InternalKey}
    (h : Lands T o (fun fuel => I.call T.toPointReader o fuel op) pos')
    (hrange : ∀ p ∈ pos', p < T.entries.length)
    (hshown : ¬ ∀ p ∈ pos', ShownAt T.chunks p) : I.CallUnsound T o pos' op := by
  obtain ⟨I', q, hsettles, htracks, -⟩ := h
  intro fuel I'' hcall hagrees
  rw [hsettles.stable fuel I'' hcall] at hagrees
  obtain rfl := htracks.eq_of_agrees hagrees hrange
  exact hshown htracks.shownAt

theorem findKeyBackward_of_valid {R : PointReader} (hv : I.blockIter.valid = true) :
    Outcome.Settles (fun fuel => findKeyBackward R o fuel I) I := by
  apply Outcome.settles_stop rfl
  intro fuel
  rw [findKeyBackward, if_pos hv]

/-- `FindKeyBackward` stays at an entry at which the block iterator counts as valid. -/
theorem InBlock.findKeyBackward_tracks (h : I.InBlock T o k b) {it : EncryptedDataBlockIter}
    (hon : it.On (T.written b.1) T.env.sstKey b.1.contents.entries i)
    (hshown : Shown b.1.contents.entries i) :
    ∃ I', Outcome.Settles
      (fun fuel => findKeyBackward T.toPointReader o fuel { I with blockIter := it }) I' ∧
        I'.Tracks T o (some (Chunks.start T.chunks k + i)) := by
  have hset := h.setBlockIter hon.isOver
  exact ⟨_, findKeyBackward_of_valid (hon.valid_iff.mpr hshown),
    .entry ⟨hset, hon.showsEntry hshown, hset.holds hon.lt⟩⟩

/-- The call on the data block decides whether the end of `SeekForPrev` returns. -/
theorem InBlock.seekForPrev_stops (h : I.InBlock T o k b)
    (hnot : ¬ CallFollows T.comparator b.1.contents.entries none (.seekForPrev t)) (fuel : ℕ)
    (I' : BlockBasedTableIterator) :
    (I.blockIter.seekForPrev T.comparator fuel t.val >>= fun it =>
      findKeyBackward T.toPointReader o fuel { I with blockIter := it }) ≠ .ok I' := by
  obtain ⟨-, hstops⟩ := EncryptedDataBlockIter.seekForPrev_call (u := T.comparator) none h.isOver
    (List.length_pos_of_ne_nil b.1.ne_nil) b.1.contents.sorted_keysOf t
  intro hcall
  obtain ⟨it, hit, -⟩ := Outcome.bind_eq_ok.mp hcall
  exact hstops hnot fuel it hit

theorem InBlock.seekForPrev_tracks (h : I.InBlock T o k b) (hleads : T.Leads t k)
    (hfollows : CallFollows T.comparator b.1.contents.entries none (.seekForPrev t)) :
    ∃ I', Outcome.Settles (fun fuel => I.blockIter.seekForPrev T.comparator fuel t.val >>= fun it =>
        findKeyBackward T.toPointReader o fuel { I with blockIter := it }) I' ∧
      I'.Tracks T o
        (OrderedCursor.seekForPrev (ikeyCompare T.comparator) (keysOf T.entries) t) := by
  obtain ⟨hsound, -⟩ := EncryptedDataBlockIter.seekForPrev_call (u := T.comparator) none h.isOver
    (List.length_pos_of_ne_nil b.1.ne_nil) b.1.contents.sorted_keysOf t
  obtain ⟨it, hsettles, htracks, -⟩ := hsound hfollows
  obtain ⟨j, hseek, -, hfirst⟩ := hfollows
  obtain ⟨j', hblock, hwhole⟩ := hleads.seekForPrev_eq h.block hseek hfirst
  rw [hwhole]
  obtain ⟨hon, hshown⟩ := htracks.on j' hblock
  obtain ⟨I', hback, hI'⟩ := h.findKeyBackward_tracks hon hshown
  exact ⟨I', Outcome.settles_bind hsettles hback, hI'⟩

/-- The condition on the call is that of its data block. -/
theorem InBlock.seekForPrev_follows (h : I.InBlock T o k b) (hleads : T.Leads t k) :
    TableCallFollows T.comparator T.chunks pos (.seekForPrev t) ↔
      CallFollows T.comparator b.1.contents.entries none (.seekForPrev t) := by
  have hnonempty : T.chunks.flatten ≠ [] := by
    intro hnil
    have hlt := (OpenTable.holds_start h.block).lt_length
    rw [hnil] at hlt
    exact absurd hlt (Nat.not_lt_zero _)
  have hwhole := hleads.seek_eq h.block
  rw [OpenTable.entries] at hwhole
  rw [TableCallFollows, CallFollows, hwhole, or_iff_right hnonempty]
  cases hseek : seek (ikeyCompare T.comparator) (keysOf b.1.contents.entries) t with
  | some j =>
      obtain ⟨⟨a, ha, -⟩, -⟩ := seek_eq_some hseek
      have ha' := OpenTable.getElem?_keysOf_block h.block ha
      rw [OpenTable.entries] at ha'
      have hlt : j < b.1.contents.entries.length := by
        rw [← length_keysOf]
        exact (List.getElem?_eq_some_iff.mp ha).1
      have hholds := h.holds hlt
      simp only [Option.mem_some_iff, exists_eq_left', shownAt_iff hholds, firstOfBlock_iff hholds]
      apply and_congr_right
      intro _
      apply imp_congr_right
      rintro rfl
      rw [ha', ha]
  | none =>
      have hstops : ∀ p ∈ T.after k, ¬ (FirstOfBlock T.chunks p →
          ∀ a ∈ (keysOf T.chunks.flatten)[p]?, ikeyCompare T.comparator a t ≠ .gt) := by
        intro p hp hfirst
        unfold OpenTable.after at hp
        split_ifs at hp with hlt
        swap
        · cases hp
        obtain rfl := Option.some.inj hp
        obtain ⟨b', hb'⟩ : ∃ b', (T.table.written T.tableOptions)[k + 1]? = some b' := by
          cases hnext : (T.table.written T.tableOptions)[k + 1]? with
          | some b' => exact ⟨b', rfl⟩
          | none =>
              have hnone := OpenTable.after_of_none hnext
              rw [OpenTable.after, if_pos hlt] at hnone
              cases hnone
        have ha := List.getElem?_eq_getElem
          (show Chunks.start T.chunks (k + 1) < (keysOf T.entries).length by rwa [length_keysOf])
        have hbelow := hleads.before b' hb'
        rw [← OpenTable.getElem?_first hb' ha] at hbelow
        exact hfirst ((firstOfBlock_iff (OpenTable.holds_start hb')).mpr rfl) _ ha
          (Std.OrientedCmp.gt_of_lt hbelow)
      constructor
      · rintro ⟨p, hp, -, hfirst⟩
        exact absurd hfirst (hstops p hp)
      · rintro ⟨j, hj, -⟩
        cases hj

/-- The end of `SeekForPrev` goes to the data block of the index iterator. -/
theorem Ready.seekForPrevInBlock_eq (h : I.Ready T o) (hnoted : I.Noted T)
    (hs : I.indexIter.Stands T.indexContents (some k)) (t : InternalKey) :
    ∃ (b : _) (I₁ : BlockBasedTableIterator), I₁.InBlock T o k b ∧ ∀ fuel,
      I.seekForPrevInBlock T.toPointReader o fuel t.val =
        I₁.blockIter.seekForPrev T.comparator fuel t.val >>= fun it =>
          findKeyBackward T.toPointReader o fuel { I₁ with blockIter := it } := by
  obtain ⟨b, I₁, hinit, hblock⟩ := h.initDataBlock hnoted hs
  refine ⟨b, I₁, hblock, ?_⟩
  intro fuel
  rw [seekForPrevInBlock, hinit, Outcome.ok_bind]

/-- The index iterator at its last entry, for a target above every key. -/
theorem Ready.seekForPrev_behind (h : I.Ready T o) (hnoted : I.Noted T)
    (hfirst : T.firstBlock t = none) (fuel : ℕ) : ∃ it, I.indexIter.seekToLast = .ok it ∧
      (T.entries = [] → it.Stands T.indexContents none) ∧
      (T.entries ≠ [] → it.valid = true ∧ ∀ I',
        { I with indexIter := it }.seekForPrevInBlock T.toPointReader o fuel t.val ≠ .ok I') := by
  by_cases hnil : T.entries = []
  · obtain ⟨it, hlast, hstands⟩ := IndexBlockIter.seekToLast_empty h.index
      (OpenTable.entries_eq_nil_iff.mp hnil)
    exact ⟨it, hlast, fun _ => hstands, fun hne => absurd hnil hne⟩
  · obtain ⟨it, hlast, hstands⟩ := IndexBlockIter.seekToLast_stands OpenTable.buffer_lt
      (fun hempty => hnil (OpenTable.entries_eq_nil_iff.mpr hempty)) h.index
    refine ⟨it, hlast, fun hempty => absurd hempty hnil, fun _ => ⟨stands_valid hstands, ?_⟩⟩
    obtain ⟨b, I₁, hblock, heq⟩ := (h.setIndexIter hstands.isOver).seekForPrevInBlock_eq
      (hnoted.setIndexIter it) hstands t
    intro I'
    rw [heq]
    apply hblock.seekForPrev_stops
    rintro ⟨j, hj, -⟩
    obtain ⟨⟨a, ha, hat⟩, -⟩ := seek_eq_some hj
    have ha' := OpenTable.getElem?_keysOf_block hblock.block ha
    exact hat (seek_eq_none (OpenTable.seek_of_firstBlock hfirst) a (List.mem_of_getElem? ha'))

/-- `SeekForPrev` is sound under its condition, and does not return otherwise. -/
theorem Tracks.seekForPrev_call (h : I.Tracks T o pos) (t : InternalKey) :
    (TableCallFollows T.comparator T.chunks pos (.seekForPrev t) → I.CallSound T o
        (OrderedCursor.seekForPrev (ikeyCompare T.comparator) (keysOf T.entries) t)
        (.seekForPrev t)) ∧
      (¬ TableCallFollows T.comparator T.chunks pos (.seekForPrev t) →
        ∀ fuel I', I.call T.toPointReader o fuel (.seekForPrev t) ≠ .ok I') := by
  obtain ⟨offset, hsave, hnoted, hready⟩ := h.savePrevIndexValue
  obtain ⟨it, hseek, hstands⟩ := OpenTable.seek_stands hready.index t
  have hindex : { I with prevBlockOffset := offset }.seekIndex T.toPointReader (some t.val) =
      .ok { I with prevBlockOffset := offset, indexIter := it } := by
    rw [seekIndex, hseek, Outcome.ok_bind]
  have hset := hready.setIndexIter hstands.isOver
  have hnoted' := hnoted.setIndexIter it
  have hvalid := stands_valid hstands
  cases hfirst : T.firstBlock t with
  | some k =>
      rw [hfirst] at hstands hvalid
      obtain ⟨b, I₁, hblock, heq⟩ := hset.seekForPrevInBlock_eq hnoted' hstands t
      have hleads := OpenTable.leads_of_firstBlock hfirst
      have hcall : ∀ fuel, I.call T.toPointReader o fuel (.seekForPrev t) =
          I₁.blockIter.seekForPrev T.comparator fuel t.val >>= fun it =>
            findKeyBackward T.toPointReader o fuel { I₁ with blockIter := it } := by
        intro fuel
        rw [call, BlockBasedTableIterator.seekForPrev, hsave, Outcome.ok_bind, hindex,
          Outcome.ok_bind, if_pos (by exact hvalid), heq]
      rw [hblock.seekForPrev_follows hleads]
      constructor
      · intro hfollows
        obtain ⟨I', hsettles, htracks⟩ := hblock.seekForPrev_tracks hleads hfollows
        refine ⟨I', ?_, htracks⟩
        simp only [hcall]
        exact hsettles
      · intro hnot fuel I'
        rw [hcall]
        exact hblock.seekForPrev_stops hnot fuel I'
  | none =>
      rw [hfirst] at hstands hvalid
      have hcall : ∀ fuel, I.call T.toPointReader o fuel (.seekForPrev t) =
          it.seekToLast >>= fun it' =>
            if it'.valid then seekForPrevInBlock T.toPointReader o fuel t.val
              { I with prevBlockOffset := offset, indexIter := it' }
            else .ok { I with prevBlockOffset := offset, indexIter := it' }.resetDataIter := by
        intro fuel
        rw [call, BlockBasedTableIterator.seekForPrev, hsave, Outcome.ok_bind, hindex,
          Outcome.ok_bind, if_neg (by rw [hvalid]; exact Bool.false_ne_true),
          if_neg (by rw [hstands.status]; simp)]
      rw [TableCallFollows, show seek (ikeyCompare T.comparator) (keysOf T.chunks.flatten) t = none
        from OpenTable.seek_of_firstBlock hfirst]
      constructor
      · rintro (hnil | ⟨p, hp, -⟩)
        · obtain ⟨it', hlast, hnone, -⟩ := hset.seekForPrev_behind hnoted' hfirst 0
          have hstands' := hnone hnil
          have hends : ∀ fuel, I.call T.toPointReader o fuel (.seekForPrev t) =
              .ok { I with prevBlockOffset := offset, indexIter := it' }.resetDataIter := by
            intro fuel
            rw [hcall, hlast, Outcome.ok_bind,
              if_neg (by rw [stands_valid hstands']; exact Bool.false_ne_true)]
          refine ⟨_, by simp only [hends]; exact Outcome.settles_const rfl, ?_⟩
          rw [show keysOf T.entries = [] by rw [OpenTable.entries, hnil]; rfl]
          exact .closed (hready.setIndexIter hstands'.isOver).resetDataIter (resetDataIter_points _)
        · cases hp
      · intro hnot fuel I'
        obtain ⟨it', hlast, -, hsome⟩ := hset.seekForPrev_behind hnoted' hfirst fuel
        obtain ⟨hv, hstops⟩ := hsome fun hnil => hnot (Or.inl hnil)
        rw [hcall, hlast, Outcome.ok_bind, if_pos hv]
        exact hstops I'

/-- `SeekToLast` reads outside the key table of the last data block, if there is one. -/
theorem Tracks.seekToLast_call (h : I.Tracks T o pos) :
    (T.entries = [] → I.CallSound T o none .seekToLast) ∧
      (T.entries ≠ [] → ∀ fuel I', I.call T.toPointReader o fuel .seekToLast ≠ .ok I') := by
  obtain ⟨offset, hsave, hnoted, hready⟩ := h.savePrevIndexValue
  constructor
  · intro hnil
    obtain ⟨it, hlast, hstands⟩ := IndexBlockIter.seekToLast_empty hready.index
      (OpenTable.entries_eq_nil_iff.mp hnil)
    have hends : ∀ fuel, I.call T.toPointReader o fuel .seekToLast =
        .ok { I with prevBlockOffset := offset, indexIter := it }.resetDataIter := by
      intro fuel
      rw [call, BlockBasedTableIterator.seekToLast, hsave, Outcome.ok_bind]
      dsimp only at hlast ⊢
      rw [hlast, Outcome.ok_bind, if_neg (by rw [stands_valid hstands]; exact Bool.false_ne_true)]
    refine ⟨_, by simp only [hends]; exact Outcome.settles_const rfl, ?_⟩
    exact .closed (hready.setIndexIter hstands.isOver).resetDataIter (resetDataIter_points _)
  · intro hne fuel I' hcall
    obtain ⟨it, hlast, hstands⟩ := IndexBlockIter.seekToLast_stands OpenTable.buffer_lt
      (fun hempty => hne (OpenTable.entries_eq_nil_iff.mpr hempty)) hready.index
    obtain ⟨b, I₁, hinit, hblock⟩ :=
      (hready.setIndexIter hstands.isOver).initDataBlock (hnoted.setIndexIter it) hstands
    rw [call, BlockBasedTableIterator.seekToLast, hsave, Outcome.ok_bind] at hcall
    dsimp only at hlast hcall
    rw [hlast, Outcome.ok_bind, if_pos (by exact stands_valid hstands), hinit, Outcome.ok_bind,
      EncryptedDataBlockIter.seekToLast,
      EncryptedDataBlockIter.seekToLastImpl_stops hblock.isOver] at hcall
    cases hcall

/-- `Prev` goes to the entry before, and stays at the first entry of a data block. -/
theorem AtEntry.prev_tracks (h : I.AtEntry T o p k b i) :
    ∃ I', Outcome.Settles (fun fuel => I.call T.toPointReader o fuel .prev) I' ∧
      I'.Tracks T o (some (if i = 0 then p else p - 1)) := by
  have hlt := h.shows.lt
  obtain ⟨it, hprev, hover, hat⟩ :=
    EncryptedDataBlockIter.prevImpl_at h.isOver hlt h.shows.index_eq
  have hon := EncryptedDataBlockIter.updateKey_on hover hat (by omega)
  have hmoved : I.blockIter.prev = .ok it.updateKey := by
    rw [EncryptedDataBlockIter.prev, hprev, Outcome.ok_bind]
  have hshown : Shown b.1.contents.entries (i - 1) := by
    rcases Nat.eq_zero_or_pos i with rfl | hpos
    · exact h.shows.shown
    · exact Or.inl (by omega)
  obtain ⟨I', hback, htracks⟩ := h.toInBlock.findKeyBackward_tracks hon hshown
  refine ⟨I', Outcome.settles_bind (Outcome.settles_const hmoved) hback, ?_⟩
  have hposition : Chunks.start T.chunks k + (i - 1) = if i = 0 then p else p - 1 := by
    have hp := h.holds.position
    split_ifs with hzero
    · rw [hp, hzero]
    · omega
  rwa [hposition] at htracks

theorem AtEntry.next_call (h : I.AtEntry T o p k b i) {pos' : Option ℕ}
    (hpos : pos' = if p + 1 < T.entries.length then some (p + 1) else none) :
    (LeavesBlock T.chunks p ∧ ShownAt T.chunks (p + 1) → I.CallSound T o pos' .next) ∧
      (¬ (LeavesBlock T.chunks p ∧ ShownAt T.chunks (p + 1)) → I.CallUnsound T o pos' .next) := by
  have hrange : ∀ q ∈ pos', q = p + 1 ∧ q < T.entries.length := by
    intro q hq
    rw [hpos] at hq
    split_ifs at hq with hlt
    · obtain rfl := Option.some.inj hq
      exact ⟨rfl, hlt⟩
    · cases hq
  by_cases hleaves : LeavesBlock T.chunks p
  · have hlands := h.next_lands hleaves
    rw [← hpos] at hlands
    constructor
    · rintro ⟨-, hshown⟩
      apply Lands.sound hlands
      intro q hq
      rw [(hrange q hq).1]
      exact hshown
    · intro hnot
      refine Lands.unsound hlands (fun q hq => (hrange q hq).2) fun hall => hnot ⟨hleaves, ?_⟩
      by_cases hlt : p + 1 < T.entries.length
      · rw [if_pos hlt] at hpos
        exact hall (p + 1) hpos
      · exact shownAt_of_length_le (Nat.le_of_not_lt hlt)
  · constructor
    · rintro ⟨hleft, -⟩
      exact absurd hleft hleaves
    · intro _ fuel I'' hcall hagrees
      obtain ⟨I', hsettles, hvalid, hkey⟩ := h.next_stays hleaves
      rw [hsettles.stable fuel I'' hcall] at hagrees
      obtain ⟨hsame, hentries⟩ := hagrees
      rw [hvalid] at hsame
      obtain ⟨q, hq⟩ := Option.isSome_iff_exists.mp hsame.symm
      obtain ⟨rfl, hlt⟩ := hrange q hq
      obtain ⟨e, he, -⟩ := h.exists_entry
      have he' := List.getElem?_eq_getElem hlt
      obtain ⟨hkey', -⟩ := hentries _ hq _ he'
      have heq := position_unique he he' ((hkey e he).symm.trans hkey')
      omega

theorem AtEntry.prev_call (h : I.AtEntry T o p k b i) {pos' : Option ℕ}
    (hpos : pos' = if 0 < p then some (p - 1) else none) :
    (¬ FirstOfBlock T.chunks p → I.CallSound T o pos' .prev) ∧
      (FirstOfBlock T.chunks p → I.CallUnsound T o pos' .prev) := by
  obtain ⟨I', hsettles, htracks⟩ := h.prev_tracks
  have hp := h.holds.position
  have hlt := h.holds.lt_length
  rw [firstOfBlock_iff h.holds]
  constructor
  · intro hi
    rw [if_neg hi] at htracks
    rw [hpos, if_pos (by omega)]
    exact ⟨I', hsettles, htracks⟩
  · intro hi fuel I'' hcall hagrees
    rw [hsettles.stable fuel I'' hcall] at hagrees
    rw [if_pos hi] at htracks
    have hsame := htracks.eq_of_agrees hagrees ?_
    · rw [hpos] at hsame
      split_ifs at hsame with hzero
      have heq := Option.some.inj hsame
      omega
    · intro q hq
      rw [hpos] at hq
      split_ifs at hq
      · obtain rfl := Option.some.inj hq
        rw [OpenTable.entries]
        omega
      · cases hq

theorem Tracks.entry_of_some (h : I.Tracks T o (some p)) : ∃ k i b, I.AtEntry T o p k b i := by
  cases h with
  | entry h => exact ⟨_, _, _, h⟩

theorem callUnsound_of_stops {pos' : Option ℕ} {op : Op InternalKey}
    (h : ∀ fuel I', I.call T.toPointReader o fuel op ≠ .ok I') : I.CallUnsound T o pos' op :=
  fun fuel I' hcall => absurd hcall (h fuel I')

theorem step_lt_entries (hpos : ∀ p ∈ pos, p < T.entries.length) (op : Op InternalKey) :
    ∀ p ∈ step (ikeyCompare T.comparator) (keysOf T.entries) pos op, p < T.entries.length := by
  rw [← length_keysOf] at hpos ⊢
  exact step_lt hpos op

/-- One call: it is sound under its condition, and not otherwise. -/
theorem Tracks.step_call (h : I.Tracks T o pos) (hpos : ∀ p ∈ pos, p < T.entries.length)
    {op : Op InternalKey} (hallowed : op.Allowed pos) :
    (TableCallFollows T.comparator T.chunks pos op → I.CallSound T o
        (step (ikeyCompare T.comparator) (keysOf T.entries) pos op) op) ∧
      (¬ TableCallFollows T.comparator T.chunks pos op → I.CallUnsound T o
        (step (ikeyCompare T.comparator) (keysOf T.entries) pos op) op) := by
  have hrange := step_lt_entries hpos op
  have hnil : keysOf T.entries = [] ↔ T.entries = [] := List.map_eq_nil_iff
  cases op with
  | seekToFirst =>
      have hlands := h.seekToFirst_lands
      rw [step] at hrange ⊢
      simp only [hnil] at hrange ⊢
      have hshown : (∀ q ∈ (if T.entries = [] then none else some 0), ShownAt T.chunks q) ↔
          ShownAt T.chunks 0 := by
        split_ifs with hempty
        · have hzero : ShownAt T.chunks 0 :=
            shownAt_of_length_le (by rw [← OpenTable.entries, hempty]; rfl)
          simp [hzero]
        · simp
      rw [TableCallFollows, ← hshown]
      exact ⟨hlands.sound, hlands.unsound hrange⟩
  | seekToLast =>
      obtain ⟨hsound, hstops⟩ := h.seekToLast_call
      rw [TableCallFollows, ← OpenTable.entries]
      constructor
      · intro hempty
        rw [step, if_pos (hnil.mpr hempty)]
        exact hsound hempty
      · exact fun hne => callUnsound_of_stops (hstops hne)
  | seek t =>
      have hlands := h.seek_lands t
      exact ⟨hlands.sound, hlands.unsound hrange⟩
  | seekForPrev t =>
      obtain ⟨hsound, hstops⟩ := h.seekForPrev_call t
      exact ⟨hsound, fun hnot => callUnsound_of_stops (hstops hnot)⟩
  | next =>
      obtain ⟨p, rfl⟩ := Option.isSome_iff_exists.mp hallowed
      obtain ⟨k, i, b, hat⟩ := h.entry_of_some
      have hcall := hat.next_call rfl
      simpa [TableCallFollows, step, length_keysOf] using hcall
  | prev =>
      obtain ⟨p, rfl⟩ := Option.isSome_iff_exists.mp hallowed
      obtain ⟨k, i, b, hat⟩ := h.entry_of_some
      obtain ⟨hsound, hunsound⟩ := hat.prev_call rfl
      constructor
      · exact fun hfollows => hsound (hfollows p rfl)
      · intro hnot
        apply hunsound
        by_contra hfirst
        exact hnot fun q hq => by rwa [← Option.some.inj hq]

/-- A sequence of calls, by induction on it. -/
theorem Tracks.follows_iff (h : I.Tracks T o pos) (hpos : ∀ p ∈ pos, p < T.entries.length)
    (ops : List (Op InternalKey))
    (hallowed : CallsAllowed T.comparator (keysOf T.entries) pos ops) :
    I.Follows T.toPointReader o T.entries pos ops ↔
      TableCallsFollow T.comparator T.chunks pos ops := by
  induction ops generalizing I pos with
  | nil => exact Iff.rfl
  | cons op ops ih =>
      obtain ⟨hop, hops⟩ := hallowed
      obtain ⟨hsound, hunsound⟩ := h.step_call hpos hop
      have hrange := step_lt_entries hpos op
      rw [Follows, TableCallsFollow]
      by_cases hcall : TableCallFollows T.comparator T.chunks pos op
      · obtain ⟨I₁, hsettles, htracks⟩ := hsound hcall
        have hrest := ih htracks hrange hops
        constructor
        · rintro ⟨fuel, I', hI', -, hfollows, -⟩
          obtain rfl := hsettles.stable fuel I' hI'
          exact ⟨hcall, hrest.mp hfollows⟩
        · rintro ⟨-, hfollow⟩
          obtain ⟨n, hn⟩ := hsettles.enough
          refine ⟨n, I₁, hn n (le_refl n), htracks.agrees, hrest.mpr hfollow, ?_⟩
          intro v I'' hread
          exact (ih (htracks.read hread) hrange hops).mpr hfollow
      · constructor
        · rintro ⟨fuel, I', hI', hagrees, -⟩
          exact absurd hagrees (hunsound hcall fuel I' hI')
        · rintro ⟨hfollow, -⟩
          exact absurd hfollow hcall

end BlockBasedTableIterator

/-- The calls on a new iterator over the table give what the reference cursor over all its entries
gives. -/
def OpenTable.RefinesCursor (T : OpenTable) (o : IteratorOptions) (st : CacheState)
    (ops : List (Op InternalKey)) : Prop :=
  (BlockBasedTableIterator.create T.index st).Follows T.toPointReader o T.entries none ops

/-- For every table, whatever its caches hold of it, and every sequence of calls. -/
theorem OpenTable.refinesCursor_iff (T : OpenTable) (o : IteratorOptions) {st : CacheState}
    (hst : T.Serves st) (ops : List (Op InternalKey))
    (hallowed : CallsAllowed T.comparator (keysOf T.entries) none ops) :
    T.RefinesCursor o st ops ↔ TableCallsFollow T.comparator T.chunks none ops := by
  have hclosed : (BlockBasedTableIterator.create T.index st).Tracks T o none :=
    .closed (BlockBasedTableIterator.Ready.of_create hst) rfl
  exact hclosed.follows_iff (fun p hp => nomatch hp) ops hallowed

theorem tableCallsFollow_next {u : Comparator} {chunks : List (List (InternalKey × Bytes))}
    (n : ℕ) {p : ℕ} (hp : p + (n + 1) = chunks.flatten.length) :
    TableCallsFollow u chunks (some p) (List.replicate (n + 1) .next) ↔
      ∀ q, p ≤ q → q < chunks.flatten.length → LeavesBlock chunks q ∧ ShownAt chunks (q + 1) := by
  have hstep : ∀ p, step (ikeyCompare u) (keysOf chunks.flatten) (some p) .next =
      if p + 1 < chunks.flatten.length then some (p + 1) else none := by
    intro p
    rw [step, Option.bind_some, length_keysOf]
  have hfirst : TableCallFollows u chunks (some p) .next ↔
      LeavesBlock chunks p ∧ ShownAt chunks (p + 1) := by
    simp [TableCallFollows]
  induction n generalizing p with
  | zero =>
      rw [List.replicate_one, TableCallsFollow, TableCallsFollow, and_true, hfirst]
      constructor
      · intro hcall q hle hlt
        obtain rfl : q = p := by omega
        exact hcall
      · exact fun hall => hall p le_rfl (by omega)
  | succ n ih =>
      have hrest := ih (p := p + 1) (by omega) (by simp [TableCallFollows])
      rw [List.replicate_succ, TableCallsFollow, hfirst, hstep, if_pos (by omega)]
      refine (and_congr_right fun _ => hrest).trans ?_
      constructor
      · rintro ⟨hcall, hrest⟩ q hle hlt
        rcases Nat.eq_or_lt_of_le hle with rfl | hbehind
        · exact hcall
        · exact hrest q hbehind hlt
      · intro hall
        exact ⟨hall p le_rfl (by omega), fun q hle hlt => hall q (by omega) hlt⟩

theorem callsAllowed_next {u : Comparator} {keys : List InternalKey} (n : ℕ) {p : ℕ}
    (hp : p + (n + 1) = keys.length) :
    CallsAllowed u keys (some p) (List.replicate (n + 1) .next) := by
  induction n generalizing p with
  | zero => exact ⟨rfl, trivial⟩
  | succ n ih =>
      refine ⟨rfl, ?_⟩
      rw [step, Option.bind_some, if_pos (by omega)]
      exact ih (by omega)

/-- A forward scan visits every entry exactly if the block iterators count as valid at each of
them and get past the last entries of their blocks. -/
theorem OpenTable.scansForward_iff (T : OpenTable) (o : IteratorOptions) {st : CacheState}
    (hst : T.Serves st) :
    T.RefinesCursor o st (.seekToFirst :: List.replicate T.entries.length .next) ↔
      ∀ p < T.entries.length, ShownAt T.chunks p ∧ LeavesBlock T.chunks p := by
  have hclosed : (BlockBasedTableIterator.create T.index st).Tracks T o none :=
    .closed (.of_create hst) rfl
  have hlength : (keysOf T.entries).length = T.entries.length := length_keysOf _
  rcases Nat.eq_zero_or_pos T.entries.length with hzero | hpos
  · have hshown : ShownAt T.chunks 0 := shownAt_of_length_le (Nat.le_of_eq hzero)
    rw [hzero, List.replicate_zero, RefinesCursor,
      hclosed.follows_iff (fun p hp => nomatch hp) [.seekToFirst] ⟨trivial, trivial⟩]
    exact ⟨fun _ p hp => absurd hp (Nat.not_lt_zero p), fun _ => ⟨hshown, trivial⟩⟩
  · obtain ⟨n, hn⟩ := Nat.exists_eq_succ_of_ne_zero (Nat.ne_of_gt hpos)
    have hfirst : step (ikeyCompare T.comparator) (keysOf T.entries) none .seekToFirst = some 0 :=
      if_neg (List.ne_nil_of_length_pos (by omega))
    have hallowed : CallsAllowed T.comparator (keysOf T.entries) none
        (.seekToFirst :: List.replicate (n + 1) .next) := by
      refine ⟨trivial, ?_⟩
      rw [hfirst]
      exact callsAllowed_next n (by omega)
    rw [hn, RefinesCursor, hclosed.follows_iff (fun p hp => nomatch hp) _ hallowed,
      TableCallsFollow, ← entries, hfirst, tableCallsFollow_next n (by rw [← entries]; omega),
      TableCallFollows, ← entries, hn]
    constructor
    · rintro ⟨hshown, hall⟩ p hp
      refine ⟨?_, (hall p (Nat.zero_le p) hp).1⟩
      cases p with
      | zero => exact hshown
      | succ p => exact (hall p (Nat.zero_le p) (by omega)).2
    · intro hall
      refine ⟨(hall 0 (by omega)).1, fun q _ hq => ⟨(hall q hq).2, ?_⟩⟩
      by_cases hlast : q + 1 < n + 1
      · exact (hall (q + 1) hlast).1
      · exact shownAt_of_length_le (by rw [← entries]; omega)

/-- The second data block of a table of two. -/
def putOfBSst : SstBlock where
  contents := dataBlock sampleGcm sampleDigest true sampleKey putOfBBlock.contents.entries
  type := kNoCompression
  isDataBlock := true
  unset := ⟨[0, 0, 0, 0], length_unset⟩

theorem putOfBSst_at :
    SstBlock.At sampleTableEnv none [putOfASst, putOfBSst] ⟨70, 65⟩ putOfBSst :=
  ⟨1, rfl, by decide +kernel⟩

theorem putOfABlock_stored_le :
    (putOfABlock.stored sampleTableEnv.cipher sampleTableEnv.digest true
      sampleTableEnv.sstKey).contents.length ≤ 2 ^ 31 := by
  decide +kernel

theorem putOfASst_at_both :
    SstBlock.At sampleTableEnv none [putOfASst, putOfBSst] ⟨0, 65⟩ putOfASst :=
  ⟨0, rfl, by decide +kernel⟩

/-- A table of two data blocks with one entry each. -/
def twoBlockTable : OpenTable where
  env := sampleTableEnv
  options := { sampleReaderOptions with
    file := { sampleTableFile with
      reader := { sampleTableFile.reader with
        file := [putOfASst, putOfBSst].flatMap (SstBlock.written sampleTableEnv none) } } }
  comparator := bytewiseComparator
  index := twoBlocks.newIndexIterator (KeyShortening.none bytewiseComparator) defaultTableOptions
  globalSeqno := kDisableGlobalSequenceNumber
  checksum := .crc32c
  shortening := KeyShortening.none bytewiseComparator
  tableOptions := defaultTableOptions
  table := twoBlocks
  useDeltaEncoding := true
  alignment := none
  blocks := [putOfASst, putOfBSst]
  holds := ⟨⟨[], (List.append_nil _).symm⟩, by decide⟩
  fileSize := by decide +kernel
  persistentCache := rfl
  index_eq := rfl
  indexSize := by decide +kernel
  seqno_eq := rfl
  stored := by
    intro b hb
    rcases List.mem_cons.mp hb with rfl | hb
    · exact ⟨putOfASst, putOfASst_at_both, rfl, fun h => absurd rfl h, rfl⟩
    · obtain rfl := List.mem_singleton.mp hb
      exact ⟨putOfBSst, putOfBSst_at, rfl, fun h => absurd rfl h, rfl⟩
  blockSize := by
    intro b hb
    rcases List.mem_cons.mp hb with rfl | hb
    · exact putOfABlock_stored_le
    · obtain rfl := List.mem_singleton.mp hb
      decide +kernel

/-- An iterator of a scan. -/
def scanOptions : IteratorOptions := ⟨⟨true, true⟩, ⟨none, 0, true⟩, 0⟩

theorem refinesCursor_iff_twoBlockTable : twoBlockTable.RefinesCursor scanOptions
    (.ofReader .initial) [.seekToFirst, .next, .next] :=
  (OpenTable.refinesCursor_iff twoBlockTable scanOptions
    (OpenTable.serves_ofReader ReaderState.sound_initial) _ (by decide +kernel)).mpr
      (by decide +kernel)

/-- At the first entry of the second data block `Prev` does not move. -/
theorem twoBlockTable_not_refinesCursor : ¬ twoBlockTable.RefinesCursor scanOptions
    (.ofReader .initial) [.seekToFirst, .next, .prev] := by
  have hclosed : (BlockBasedTableIterator.create twoBlockTable.index
      (.ofReader .initial)).Tracks twoBlockTable scanOptions none :=
    .closed (.of_create (OpenTable.serves_ofReader ReaderState.sound_initial)) rfl
  intro hrefines
  exact absurd ((hclosed.follows_iff (fun p hp => nomatch hp) _ (by decide +kernel)).mp hrefines)
    (by decide +kernel)

end Tweezer
