import Tweezer.BlockAuthenticity
import Tweezer.IndexCursor
import Tweezer.TableCursor

/-!
# The forward calls of the table iterator

The iterator between its calls is closed or shows one entry of the table. From either of these
`SeekToFirst`, `Seek` and `Next` end at an entry or behind the last one: where the iterator over
a data block does not count as valid at the entry, `FindBlockForward` has gone on to a later one.
-/

namespace Tweezer

open OrderedCursor

namespace EncryptedDataBlockIter

/-- The iterator counts as valid at entry `i` and shows it. Its value may have been read. -/
structure ShowsEntry (it : EncryptedDataBlockIter) (es : List (InternalKey × Bytes)) (i : ℕ) :
    Prop where
  index_eq : it.currentIndex = i
  current_eq : it.current = valuesSize (es.take i) + kHmacSize
  rawKey_eq : ∀ e ∈ es[i]?, it.rawKey = e.1.val
  key_eq : ∀ e ∈ es[i]?, it.key = e.1.val
  value_eq : it.valueDirty = false → ∀ e ∈ es[i]?, it.value = e.2
  lt : i < es.length
  shown : Shown es i

variable {it : EncryptedDataBlockIter} {data : Bytes} {key : Key}
  {es : List (InternalKey × Bytes)} {i : ℕ}

theorem On.showsEntry (h : it.On data key es i) (hs : Shown es i) : it.ShowsEntry es i := by
  refine ⟨h.here.index_eq, h.here.current_eq, h.here.rawKey_eq, fun _ => h.key_eq hs, ?_, h.lt, hs⟩
  intro hclean
  rw [h.here.dirty] at hclean
  cases hclean

theorem ShowsEntry.valid (h : it.ShowsEntry es i) (hover : it.Over data key es) :
    it.valid = true := by
  rw [EncryptedDataBlockIter.valid, decide_eq_true_iff, h.current_eq, hover.restarts_eq]
  exact (lt_valuesSize_iff (List.getElem?_eq_getElem h.lt)).mpr h.shown

/-- `value()` gives the value of the entry, and the iterator still shows it. -/
theorem ShowsEntry.getValue {C : Gcm} {digest : Digest} {delta : Bool} (h : it.ShowsEntry es i)
    (hover : it.Over (dataBlock C digest delta key es) key es) {e : InternalKey × Bytes}
    (he : es[i]? = some e) : ∃ it', it.getValue C digest = .ok (e.2, it') ∧
      it'.Over (dataBlock C digest delta key es) key es ∧ it'.ShowsEntry es i := by
  unfold EncryptedDataBlockIter.getValue
  by_cases hdirty : it.valueDirty = true
  · have hupdate := updateValue_at hover h.index_eq he
    rw [if_pos (by rw [h.key_eq e he])] at hupdate
    rw [if_pos hdirty, hupdate, Outcome.ok_bind]
    refine ⟨_, rfl, hover.of_eq rfl rfl rfl rfl rfl rfl, h.index_eq, h.current_eq, h.rawKey_eq,
      h.key_eq, ?_, h.lt, h.shown⟩
    intro _ e' he'
    rw [Option.some.inj (he'.symm.trans he)]
  · rw [if_neg hdirty, h.value_eq (by simpa using hdirty) e he]
    exact ⟨it, rfl, hover, h⟩

end EncryptedDataBlockIter

namespace BlockBasedTableIterator

/-- The iterator shows the entry at position `p` of the table, which is entry `i` of the data
block `k`. -/
structure AtEntry (T : OpenTable) (o : IteratorOptions) (I : BlockBasedTableIterator) (p k : ℕ)
    (b : TableBlock T.comparator × BlockHandle) (i : ℕ) : Prop extends I.InBlock T o k b where
  shows : I.blockIter.ShowsEntry b.1.contents.entries i
  holds : Chunks.Holds T.chunks p k i b.1.contents.entries

/-- The iterator is where the reference cursor is. -/
inductive Tracks (T : OpenTable) (o : IteratorOptions) (I : BlockBasedTableIterator) :
    Option ℕ → Prop
  | closed (h : I.Ready T o) (hclosed : I.blockIterPointsToRealBlock = false) : Tracks T o I none
  | entry {p k i : ℕ} {b : TableBlock T.comparator × BlockHandle} (h : I.AtEntry T o p k b i) :
      Tracks T o I (some p)

variable {T : OpenTable} {o : IteratorOptions} {I I' : BlockBasedTableIterator} {p q k i : ℕ}
  {b : TableBlock T.comparator × BlockHandle} {pos : Option ℕ} {t : InternalKey}

theorem Tracks.ready (h : I.Tracks T o pos) : I.Ready T o := by
  cases h with
  | closed h _ => exact h
  | entry h => exact h.toReady

theorem AtEntry.valid (h : I.AtEntry T o p k b i) : I.valid = true := by
  rw [BlockBasedTableIterator.valid, h.points, h.shows.valid h.isOver]
  rfl

theorem valid_of_closed (h : I.blockIterPointsToRealBlock = false) : I.valid = false := by
  rw [BlockBasedTableIterator.valid, h, Bool.false_and]

theorem InBlock.setBlockIter (h : I.InBlock T o k b) {it : EncryptedDataBlockIter}
    (hit : it.Over (T.written b.1) T.env.sstKey b.1.contents.entries) :
    { I with blockIter := it }.InBlock T o k b :=
  ⟨⟨h.index, h.serves, h.ahead, hit.status_eq⟩, ⟨h.points, h.block, hit⟩, h.stands⟩

/-- The entry at the position. -/
theorem AtEntry.exists_entry (h : I.AtEntry T o p k b i) :
    ∃ e, T.entries[p]? = some e ∧ b.1.contents.entries[i]? = some e := by
  have he := List.getElem?_eq_getElem h.shows.lt
  exact ⟨_, h.holds.getElem?.trans he, he⟩

theorem AtEntry.value (h : I.AtEntry T o p k b i) : ∃ v I', I.value T.toPointReader = .ok (v, I') ∧
    (∀ e ∈ T.entries[p]?, v = e.2) ∧ I'.AtEntry T o p k b i := by
  obtain ⟨e, hentry, he⟩ := h.exists_entry
  obtain ⟨it, hvalue, hover, hshows⟩ := h.shows.getValue h.isOver he
  refine ⟨e.2, { I with blockIter := it }, ?_, ?_, h.toInBlock.setBlockIter hover, hshows, h.holds⟩
  · rw [BlockBasedTableIterator.value, hvalue, Outcome.ok_bind]
  · intro e' he'
    rw [Option.some.inj (hentry.symm.trans he')]

theorem Tracks.agrees (h : I.Tracks T o pos) : I.Agrees T.toPointReader T.entries pos := by
  cases h with
  | closed _ hclosed => exact ⟨valid_of_closed hclosed, fun _ hp => nomatch hp⟩
  | entry h =>
      refine ⟨h.valid, ?_⟩
      intro p hp e he
      obtain rfl := Option.some.inj hp
      obtain ⟨e', hentry, he'⟩ := h.exists_entry
      obtain rfl := Option.some.inj (he.symm.trans hentry)
      obtain ⟨v, I', hvalue, hv, -⟩ := h.value
      refine ⟨h.shows.key_eq e he', I', ?_⟩
      rw [hvalue, hv e he]

theorem getValue_status {C : Gcm} {digest : Digest} {it it' : EncryptedDataBlockIter} {v : Bytes}
    (h : it.getValue C digest = .ok (v, it')) : it'.status = it.status := by
  rw [EncryptedDataBlockIter.getValue] at h
  split_ifs at h
  · obtain ⟨it₁, hupdate, h⟩ := Outcome.bind_eq_ok.mp h
    obtain ⟨-, rfl⟩ := Prod.mk.inj (Except.ok.inj h)
    obtain ⟨-, -, -, hit⟩ := EncryptedDataBlockIter.updateValue_spec hupdate
    rw [hit]
  · obtain ⟨-, rfl⟩ := Prod.mk.inj (Except.ok.inj h)
    rfl

/-- Reading the value leaves the iterator where it is. -/
theorem Tracks.read (h : I.Tracks T o pos) {v : Bytes}
    (hread : I.value T.toPointReader = .ok (v, I')) : I'.Tracks T o pos := by
  cases h with
  | closed h hclosed =>
      obtain ⟨⟨v', it⟩, hvalue, hread⟩ := Outcome.bind_eq_ok.mp hread
      obtain ⟨-, rfl⟩ := Prod.mk.inj (Except.ok.inj hread)
      exact .closed ⟨h.index, h.serves, h.ahead, (getValue_status hvalue).trans h.status⟩ hclosed
  | entry h =>
      obtain ⟨v', I'', hvalue, -, hat⟩ := h.value
      obtain ⟨-, rfl⟩ := Prod.mk.inj (Except.ok.inj (hread.symm.trans hvalue))
      exact .entry hat

/-- Two positions with the same key are one. -/
theorem position_unique {e e' : InternalKey × Bytes} (he : T.entries[p]? = some e)
    (he' : T.entries[q]? = some e') (hkey : e.1.val = e'.1.val) : p = q := by
  have hk := getElem?_keysOf.mpr ⟨e.2, he⟩
  have hk' := getElem?_keysOf.mpr ⟨e'.2, he'⟩
  have hself : ∀ {a b : InternalKey}, a.val = b.val → ikeyCompare T.comparator a b ≠ .lt := by
    intro a b hab hlt
    rw [Subtype.ext hab, ikeyCompare, EncryptedDataBlockIter.compare_self] at hlt
    cases hlt
  rcases Nat.lt_trichotomy p q with hlt | heq | hgt
  · exact absurd (lt_of_pairwise T.sorted_entries hlt hk hk') (hself hkey)
  · exact heq
  · exact absurd (lt_of_pairwise T.sorted_entries hgt hk' hk) (hself hkey.symm)

/-- An iterator that shows one entry does not agree with a cursor at another one. -/
theorem Tracks.eq_of_agrees {pos' : Option ℕ} (h : I.Tracks T o pos)
    (hagrees : I.Agrees T.toPointReader T.entries pos')
    (hrange : ∀ p ∈ pos', p < T.entries.length) : pos = pos' := by
  obtain ⟨hvalid, hentries⟩ := hagrees
  cases h with
  | closed _ hclosed =>
      rw [valid_of_closed hclosed] at hvalid
      cases pos' with
      | none => rfl
      | some p => cases hvalid
  | entry h =>
      rw [h.valid] at hvalid
      cases pos' with
      | none => cases hvalid
      | some p =>
          obtain ⟨e, hentry, he⟩ := h.exists_entry
          have hp := List.getElem?_eq_getElem (hrange p rfl)
          obtain ⟨hkey, -⟩ := hentries p rfl _ hp
          rw [position_unique hentry hp ((h.shows.key_eq e he).symm.trans hkey)]

/-! ### Forward -/

/-- The call ends at a position, the given one if the iterator counts as valid there. -/
def Lands (T : OpenTable) (o : IteratorOptions) (call : ℕ → Outcome BlockBasedTableIterator)
    (pos : Option ℕ) : Prop :=
  ∃ I' q, Outcome.Settles call I' ∧ I'.Tracks T o q ∧
    ((∀ p ∈ pos, ShownAt T.chunks p) → q = pos)

theorem InBlock.holds (h : I.InBlock T o k b) {i : ℕ} (hi : i < b.1.contents.entries.length) :
    Chunks.Holds T.chunks (Chunks.start T.chunks k + i) k i b.1.contents.entries :=
  ⟨OpenTable.chunk_of_written h.block, hi, rfl⟩

theorem stands_valid {it : IndexBlockIter} {pos : Option ℕ} (hs : it.Stands T.indexContents pos) :
    it.valid = pos.isSome := by
  cases pos with
  | none => exact hs.invalid rfl
  | some k =>
      obtain ⟨e, hshows⟩ := hs.shows k rfl
      exact hshows.toAt.valid

/-- A turn of `FindBlockForward`, the index iterator having moved on. -/
theorem Ready.findBlockForward_turn (h : I.Ready T o) {it : IndexBlockIter}
    (hnext : I.indexIter.next = .ok it) {J : BlockBasedTableIterator}
    (hJ : J = { I.resetDataIter with indexIter := it }) (fuel : ℕ) :
    I.findBlockForward T.toPointReader o (fuel + 1) =
      if J.indexIter.valid then
        J.initDataBlock T.toPointReader o >>= fun J => J.blockIter.seekToFirst >>= fun it =>
          if it.valid then .ok { J with blockIter := it }
          else { J with blockIter := it }.findBlockForward T.toPointReader o fuel
      else .ok J := by
  have hindex : I.resetDataIter.indexIter.next = .ok it := by
    rw [resetDataIter_indexIter]
    exact hnext
  subst hJ
  rw [BlockBasedTableIterator.findBlockForward, if_neg (by rw [h.status]; simp)]
  dsimp only
  rw [hindex, Outcome.ok_bind]

/-- From a data block `FindBlockForward` goes to the first entry behind it, by induction on the
number of data blocks there. -/
theorem findBlockForward_lands (n : ℕ) (h : I.Ready T o)
    (hs : I.indexIter.Stands T.indexContents (some k))
    (hn : T.indexContents.entries.length - (k + 1) = n) :
    Lands T o (fun fuel => I.findBlockForward T.toPointReader o fuel) (T.after k) := by
  induction n generalizing I k with
  | zero =>
      obtain ⟨it, hnext, hstands⟩ := hs.next OpenTable.buffer_lt
      rw [if_neg (by omega)] at hstands
      obtain ⟨J, hJ⟩ : ∃ J, J = { I.resetDataIter with indexIter := it } := ⟨_, rfl⟩
      have hready : J.Ready T o := by
        rw [hJ]
        exact h.resetDataIter.setIndexIter hstands.isOver
      have hclosed : J.blockIterPointsToRealBlock = false := by
        rw [hJ]
        exact resetDataIter_points I
      have hinvalid : J.indexIter.valid = false := by
        rw [hJ]
        exact hstands.invalid rfl
      refine ⟨J, none, Outcome.settles_stop rfl ?_, .closed hready hclosed, ?_⟩
      · intro fuel
        rw [h.findBlockForward_turn hnext hJ, if_neg (by rw [hinvalid]; exact Bool.false_ne_true)]
      · intro _
        rw [OpenTable.length_entries, ← OpenTable.length_written] at hn
        exact (OpenTable.after_of_none (List.getElem?_eq_none_iff.mpr (by omega))).symm
  | succ n ih =>
      obtain ⟨it, hnext, hstands⟩ := hs.next OpenTable.buffer_lt
      rw [if_pos (by omega)] at hstands
      obtain ⟨J, hJ⟩ : ∃ J, J = { I.resetDataIter with indexIter := it } := ⟨_, rfl⟩
      have hready : J.Ready T o := by
        rw [hJ]
        exact h.resetDataIter.setIndexIter hstands.isOver
      have hclosed : J.blockIterPointsToRealBlock = false := by
        rw [hJ]
        exact resetDataIter_points I
      have hstands' : J.indexIter.Stands T.indexContents (some (k + 1)) := by
        rw [hJ]
        exact hstands
      obtain ⟨b, J', hinit, hblock⟩ := hready.initDataBlock (noted_of_closed hclosed) hstands'
      obtain ⟨it', hfirst, hon⟩ :=
        EncryptedDataBlockIter.seekToFirst_on hblock.isOver b.1.ne_nil
      have hafter := OpenTable.after_of_some hblock.block
      have hset := hblock.setBlockIter hon.isOver
      have hturn : ∀ fuel, I.findBlockForward T.toPointReader o (fuel + 1) =
          if it'.valid then .ok { J' with blockIter := it' }
          else { J' with blockIter := it' }.findBlockForward T.toPointReader o fuel := by
        intro fuel
        rw [h.findBlockForward_turn hnext hJ, if_pos (by rw [stands_valid hstands']; rfl), hinit,
          Outcome.ok_bind, hfirst, Outcome.ok_bind]
      by_cases hshown : Shown b.1.contents.entries 0
      · have hvalid : it'.valid = true := hon.valid_iff.mpr hshown
        have hholds := hset.holds hon.lt
        refine ⟨_, _, Outcome.settles_stop rfl ?_, .entry ⟨hset, hon.showsEntry hshown, hholds⟩,
          fun _ => hafter.symm⟩
        intro fuel
        rw [hturn, if_pos hvalid]
      · obtain ⟨I', q, hsettles, htracks, -⟩ := ih hset.toReady hset.stands (by omega)
        have hinvalid : ¬it'.valid = true := fun hv => hshown (hon.valid_iff.mp hv)
        refine ⟨I', q, Outcome.settles_succ rfl ?_ hsettles, htracks, ?_⟩
        · intro fuel
          rw [hturn, if_neg hinvalid]
        · intro hall
          have hat := hall _ hafter
          rw [shownAt_iff (OpenTable.holds_start hblock.block)] at hat
          exact absurd hat hshown

theorem Lands.bind {α : Type} {f : ℕ → Outcome α} {a : α}
    {g : ℕ → α → Outcome BlockBasedTableIterator} (hf : Outcome.Settles f a)
    (hg : Lands T o (fun fuel => g fuel a) pos) : Lands T o (fun fuel => f fuel >>= g fuel) pos := by
  obtain ⟨I', q, hsettles, hq⟩ := hg
  exact ⟨I', q, Outcome.settles_bind hf hsettles, hq⟩

theorem findKeyForward_of_valid {R : PointReader} (hv : I.blockIter.valid = true) :
    Outcome.Settles (fun fuel => findKeyForward R o fuel I) I := by
  have hstays : ∀ fuel, findKeyForward R o fuel I = .ok I := fun _ => if_pos hv
  refine ⟨fun fuel I' h => ?_, 0, fun fuel _ => hstays fuel⟩
  exact Except.ok.inj (h.symm.trans (hstays fuel))

/-- `FindKeyForward` behind a move of the block iterator: it has come to an entry of the data
block, or to its end. -/
theorem InBlock.findKeyForward_lands (h : I.InBlock T o k b) {it : EncryptedDataBlockIter}
    (hit : it.Over (T.written b.1) T.env.sstKey b.1.contents.entries)
    (hmoved : (∃ i, it.On (T.written b.1) T.env.sstKey b.1.contents.entries i ∧
        pos = some (Chunks.start T.chunks k + i)) ∨ it.valid = false ∧ pos = T.after k) :
    Lands T o (fun fuel => findKeyForward T.toPointReader o fuel { I with blockIter := it })
      pos := by
  have hset := h.setBlockIter hit
  obtain ⟨I', q, hsettles, htracks, hq⟩ := findBlockForward_lands _ hset.toReady hset.stands rfl
  have hbehind : it.valid = false → Outcome.Settles
      (fun fuel => findKeyForward T.toPointReader o fuel { I with blockIter := it }) I' := by
    intro hinvalid
    unfold findKeyForward
    dsimp only
    rw [hinvalid]
    exact hsettles
  rcases hmoved with ⟨i, hon, rfl⟩ | ⟨hinvalid, rfl⟩
  · have hholds := hset.holds hon.lt
    by_cases hshown : Shown b.1.contents.entries i
    · exact ⟨_, _, findKeyForward_of_valid (hon.valid_iff.mpr hshown),
        .entry ⟨hset, hon.showsEntry hshown, hholds⟩, fun _ => rfl⟩
    · have hinvalid : it.valid = false := by
        rw [← Bool.not_eq_true, hon.valid_iff]
        exact hshown
      refine ⟨I', q, hbehind hinvalid, htracks, fun hall => ?_⟩
      have hat := hall _ rfl
      rw [shownAt_iff hholds] at hat
      exact absurd hat hshown
  · exact ⟨I', q, hbehind hinvalid, htracks, hq⟩

theorem AtEntry.next_eq (h : I.AtEntry T o p k b i) :
    (if p + 1 < T.entries.length then some (p + 1) else none) =
      if i + 1 < b.1.contents.entries.length then some (Chunks.start T.chunks k + (i + 1))
      else T.after k := by
  by_cases hi : i + 1 < b.1.contents.entries.length
  · have hlt : p + 1 < T.entries.length := (h.holds.succ hi).lt_length
    rw [if_pos hi, if_pos hlt, h.holds.position, Nat.add_assoc]
  · have hlt := h.holds.lt
    have hstart := h.holds.succ_eq_start (by omega)
    rw [if_neg hi, OpenTable.after, hstart]

theorem AtEntry.next_lands (h : I.AtEntry T o p k b i) (hleaves : LeavesBlock T.chunks p) :
    Lands T o (fun fuel => I.next T.toPointReader o fuel)
      (if p + 1 < T.entries.length then some (p + 1) else none) := by
  rw [h.next_eq]
  by_cases hi : i + 1 < b.1.contents.entries.length
  · obtain ⟨it, hnext, hon⟩ :=
      EncryptedDataBlockIter.next_on h.isOver h.shows.index_eq hi
    apply Lands.bind (Outcome.settles_const hnext)
    apply h.toInBlock.findKeyForward_lands hon.isOver
    rw [if_pos hi]
    exact Or.inl ⟨i + 1, hon, rfl⟩
  · have hlt := h.holds.lt
    obtain ⟨it, hnext, hover, hvalid⟩ := EncryptedDataBlockIter.next_last h.isOver
      h.shows.index_eq h.shows.current_eq (by omega)
    rw [leavesBlock_iff h.holds] at hleaves
    apply Lands.bind (Outcome.settles_const hnext)
    apply h.toInBlock.findKeyForward_lands hover
    rw [if_neg hi]
    refine Or.inr ⟨?_, rfl⟩
    rw [← Bool.not_eq_true, hvalid]
    have hsize := hleaves (by omega)
    omega

/-- At the last entry of a data block whose value is too long, `Next` does not move. -/
theorem AtEntry.next_stays (h : I.AtEntry T o p k b i) (hstays : ¬ LeavesBlock T.chunks p) :
    ∃ I', Outcome.Settles (fun fuel => I.next T.toPointReader o fuel) I' ∧ I'.valid = true ∧
      ∀ e ∈ T.entries[p]?, I'.key = e.1.val := by
  rw [leavesBlock_iff h.holds, Classical.not_imp] at hstays
  obtain ⟨hlast, hlong⟩ := hstays
  obtain ⟨it, hnext, hover, hvalid⟩ := EncryptedDataBlockIter.next_last h.isOver
    h.shows.index_eq h.shows.current_eq hlast
  have hv : it.valid = true := hvalid.mpr (by omega)
  refine ⟨{ I with blockIter := it }, Outcome.settles_bind (Outcome.settles_const hnext)
    (findKeyForward_of_valid hv), ?_, ?_⟩
  · rw [BlockBasedTableIterator.valid, hv, h.points]
    rfl
  · intro e he
    obtain ⟨e', hentry, he'⟩ := h.exists_entry
    obtain rfl := Option.some.inj (he.symm.trans hentry)
    have hmoved := EncryptedDataBlockIter.nextImpl_last h.isOver
      (show I.blockIter.currentIndex = _ by rw [h.shows.index_eq]; omega)
    obtain ⟨it₁, hit⟩ : ∃ it₁, it₁ = ({ I.blockIter with
        current := u32 (I.blockIter.current + 20000) } : EncryptedDataBlockIter) := ⟨_, rfl⟩
    have hover₁ : it₁.Over (T.written b.1) T.env.sstKey b.1.contents.entries := by
      rw [hit]
      exact h.isOver.of_eq rfl rfl rfl rfl rfl rfl
    rw [EncryptedDataBlockIter.next, hmoved, ← hit, Outcome.ok_bind] at hnext
    obtain rfl := Except.ok.inj hnext
    rw [EncryptedDataBlockIter.updateKey_valid] at hv
    have hraw : it₁.rawKey = I.blockIter.rawKey := by rw [hit]
    exact ((EncryptedDataBlockIter.updateKey_key hover₁ hv).trans hraw).trans
      (h.shows.rawKey_eq e he')

/-- The end of `SeekImpl` for a target, once the index has led to its data block. -/
theorem Ready.seekInBlock_lands (h : I.Ready T o) (hnoted : I.Noted T)
    (hs : I.indexIter.Stands T.indexContents (some k)) (hleads : T.Leads t k) :
    Lands T o (fun fuel => I.seekInBlock T.toPointReader o fuel (some t.val))
      (seek (ikeyCompare T.comparator) (keysOf T.entries) t) := by
  obtain ⟨b, I₁, hopen, hblock⟩ := h.openBlock hnoted hs
  obtain ⟨it, hseek, hover, hland⟩ := EncryptedDataBlockIter.seekImpl_settles (u := T.comparator)
    hblock.isOver (List.length_pos_of_ne_nil b.1.ne_nil) t
  have hmove : Outcome.Settles (fun fuel => I₁.blockIter.seek T.comparator fuel t.val)
      it.updateKey := Outcome.settles_bind hseek (Outcome.settles_const rfl)
  apply Lands.bind (Outcome.settles_const hopen)
  apply Lands.bind hmove
  apply hblock.findKeyForward_lands (EncryptedDataBlockIter.updateKey_over hover)
  rw [hleads.seek_eq hblock.block]
  cases hfound : seek (ikeyCompare T.comparator) (keysOf b.1.contents.entries) t with
  | some j =>
      rw [hfound] at hland
      exact Or.inl ⟨j, EncryptedDataBlockIter.updateKey_on hover hland.1 hland.2, rfl⟩
  | none =>
      rw [hfound] at hland
      exact Or.inr ⟨by rw [EncryptedDataBlockIter.updateKey_valid]; exact hland, rfl⟩

/-- The end of `SeekToFirst`. -/
theorem Ready.seekToFirstInBlock_lands (h : I.Ready T o) (hnoted : I.Noted T)
    (hs : I.indexIter.Stands T.indexContents (some 0)) :
    Lands T o (fun fuel => I.seekInBlock T.toPointReader o fuel none) (some 0) := by
  obtain ⟨b, I₁, hopen, hblock⟩ := h.openBlock hnoted hs
  obtain ⟨it, hfirst, hon⟩ :=
    EncryptedDataBlockIter.seekToFirst_on hblock.isOver b.1.ne_nil
  apply Lands.bind (Outcome.settles_const hopen)
  apply Lands.bind (Outcome.settles_const hfirst)
  exact hblock.findKeyForward_lands hon.isOver (Or.inl ⟨0, hon, rfl⟩)

theorem Tracks.closed_or_open (h : I.Tracks T o pos) :
    I.blockIterPointsToRealBlock = false ∨ ∃ k b, I.InBlock T o k b ∧ I.valid = true := by
  cases h with
  | closed _ hclosed => exact Or.inl hclosed
  | entry h => exact Or.inr ⟨_, _, h.toInBlock, h.valid⟩

/-- The offset of the data block that is open is noted before the index iterator moves. -/
theorem Tracks.noteReseek (h : I.Tracks T o pos) : ∃ offset,
    I.noteReseek = .ok { I with prevBlockOffset := offset } ∧
      { I with prevBlockOffset := offset }.Noted T ∧
      { I with prevBlockOffset := offset }.Ready T o := by
  have hready := h.ready
  unfold BlockBasedTableIterator.noteReseek
  rcases h.closed_or_open with hclosed | ⟨k, b, hblock, hvalid⟩
  · refine ⟨I.prevBlockOffset, ?_, noted_of_closed hclosed, hready⟩
    rw [if_neg (by rw [hclosed]; exact Bool.false_ne_true)]
  · obtain ⟨I', hset, hnoted, hready', rfl⟩ := hblock.setPrevBlockOffset
    have hopen : (I.blockIterPointsToRealBlock && I.blockIter.valid) = true := hvalid
    rw [if_pos hopen, hset]
    exact ⟨b.2.offset, rfl, hnoted, hready'⟩

theorem Tracks.savePrevIndexValue (h : I.Tracks T o pos) : ∃ offset,
    I.savePrevIndexValue = .ok { I with prevBlockOffset := offset } ∧
      { I with prevBlockOffset := offset }.Noted T ∧
      { I with prevBlockOffset := offset }.Ready T o := by
  have hready := h.ready
  unfold BlockBasedTableIterator.savePrevIndexValue
  rcases h.closed_or_open with hclosed | ⟨k, b, hblock, -⟩
  · refine ⟨I.prevBlockOffset, ?_, noted_of_closed hclosed, hready⟩
    rw [if_neg (by rw [hclosed]; exact Bool.false_ne_true)]
  · obtain ⟨I', hset, hnoted, hready', rfl⟩ := hblock.setPrevBlockOffset
    rw [if_pos hblock.points, hset]
    exact ⟨b.2.offset, rfl, hnoted, hready'⟩

/-- Where the index iterator stays, the target belongs to the data block that is open. -/
theorem AtEntry.leads_of_stays (h : I.AtEntry T o p k b i)
    (hstays : I.staysInBlock T.toPointReader (some t.val) = true) : T.Leads t k := by
  have htrans := T.comparator.transCmp
  unfold BlockBasedTableIterator.staysInBlock at hstays
  simp only [Bool.and_eq_true, decide_eq_true_eq] at hstays
  obtain ⟨⟨-, hgt⟩, hlt⟩ := hstays
  obtain ⟨e, hentry, he⟩ := h.exists_entry
  rw [h.shows.key_eq e he] at hgt
  have hkey : icmp T.comparator e.1.val t.val = .lt :=
    icmp_lt_of_ucmp_lt (Std.OrientedCmp.gt_iff_lt.mp hgt)
  constructor
  · rintro j b' rfl hb'
    have hpos := List.length_pos_of_ne_nil b'.1.ne_nil
    have hstart := Chunks.start_succ (OpenTable.chunk_of_written hb')
    have hp := h.holds.position
    have hlength := h.holds.lt_length
    have hk := getElem?_keysOf.mpr ⟨e.2, hentry⟩
    have hprev := List.getElem?_eq_getElem (show Chunks.start T.chunks (j + 1) - 1 <
      (keysOf T.entries).length by rw [length_keysOf, OpenTable.entries]; omega)
    have hlast := OpenTable.getElem?_last hb' (by omega) hprev
    have hbelow := lt_of_pairwise T.sorted_entries (by omega) hprev hk
    rw [ikeyCompare, hlast] at hbelow
    exact Std.TransCmp.lt_trans hbelow hkey
  · intro b' hb'
    obtain ⟨x, hshows⟩ := h.stands.shows k rfl
    have hnext := Table.entry_key_lt h.block hb' hshows.entry
    have hseq : I.indexIter.keyIncludesSeq = T.table.plusSeq T.shortening T.tableOptions :=
      hshows.isOver.keyIncludesSeq
    rw [IndexBlockIter.userKey, hseq, hshows.rawKey] at hlt
    rw [Table.compare_eq, Table.seekKey_eq, compareIndexKeys, indexKey] at hnext
    apply icmp_lt_of_ucmp_lt
    cases hplus : T.table.plusSeq T.shortening T.tableOptions with
    | true =>
        rw [hplus, if_pos rfl] at hlt
        rw [hplus, if_pos rfl, if_pos rfl] at hnext
        exact Std.TransCmp.lt_of_lt_of_isLE hlt
          (ucmp_isLE_of_icmp_isLE (Ordering.isLE_of_eq_lt hnext))
    | false =>
        rw [hplus, if_neg Bool.false_ne_true] at hlt
        rw [hplus, if_neg Bool.false_ne_true, if_neg Bool.false_ne_true] at hnext
        exact Std.TransCmp.lt_trans hlt hnext

theorem Lands.ite_left {c : Prop} [Decidable c] {f g : ℕ → Outcome BlockBasedTableIterator}
    (hc : c) (h : Lands T o f pos) : Lands T o (fun fuel => if c then f fuel else g fuel) pos := by
  simp only [if_pos hc]
  exact h

theorem Lands.ite_right {c : Prop} [Decidable c] {f g : ℕ → Outcome BlockBasedTableIterator}
    (hc : ¬c) (h : Lands T o g pos) : Lands T o (fun fuel => if c then f fuel else g fuel) pos := by
  simp only [if_neg hc]
  exact h

theorem Ready.resetDataIter_lands (h : I.Ready T o) :
    Lands T o (fun _ => .ok I.resetDataIter) none :=
  ⟨_, _, Outcome.settles_const rfl, .closed h.resetDataIter (resetDataIter_points I), fun _ => rfl⟩

theorem Noted.setIndexIter (h : I.Noted T) (it : IndexBlockIter) :
    { I with indexIter := it }.Noted T := by
  intro hpoints
  obtain ⟨k, b, hopen, hoffset⟩ := h hpoints
  exact ⟨k, b, ⟨hopen.points, hopen.block, hopen.isOver⟩, hoffset⟩

/-- The part of `SeekImpl` behind the move of the index iterator. -/
theorem Ready.seekIndex_lands (h : I.Ready T o) {target : Option Bytes} {it : IndexBlockIter}
    {found : Option ℕ}
    (hindex : I.seekIndex T.toPointReader target = .ok { I with indexIter := it })
    (hs : it.Stands T.indexContents found)
    (hnone : found = none → pos = none)
    (hsome : ∀ k, found = some k → Lands T o
      (fun fuel => { I with indexIter := it }.seekInBlock T.toPointReader o fuel target) pos) :
    Lands T o (fun fuel => I.seekIndex T.toPointReader target >>= fun I =>
      if I.indexIter.valid then I.seekInBlock T.toPointReader o fuel target
      else .ok I.resetDataIter) pos := by
  have hvalid := stands_valid hs
  apply Lands.bind (Outcome.settles_const hindex)
  cases found with
  | none =>
      apply Lands.ite_right (by dsimp only; rw [hvalid]; exact Bool.false_ne_true)
      rw [hnone rfl]
      exact (h.setIndexIter hs.isOver).resetDataIter_lands
  | some k => exact Lands.ite_left hvalid (hsome k rfl)

theorem Tracks.seekToFirst_lands (h : I.Tracks T o pos) :
    Lands T o (fun fuel => I.seekImpl T.toPointReader o fuel none)
      (if T.entries = [] then none else some 0) := by
  obtain ⟨offset, hnote, hnoted, hready⟩ := h.noteReseek
  apply Lands.bind (Outcome.settles_const hnote)
  apply Lands.ite_right (by exact Bool.false_ne_true)
  by_cases hnil : T.entries = []
  · obtain ⟨it, hfirst, hstands⟩ := IndexBlockIter.seekToFirst_empty hready.index
      (OpenTable.entries_eq_nil_iff.mp hnil)
    refine hready.seekIndex_lands ?_ hstands (fun _ => if_pos hnil) (fun _ h => nomatch h)
    rw [seekIndex, hfirst, Outcome.ok_bind]
  · obtain ⟨it, hfirst, hstands⟩ := IndexBlockIter.seekToFirst_stands OpenTable.buffer_lt
      (fun hempty => hnil (OpenTable.entries_eq_nil_iff.mpr hempty)) hready.index
    refine hready.seekIndex_lands ?_ hstands (fun h => nomatch h) ?_
    · rw [seekIndex, hfirst, Outcome.ok_bind]
    · intro k hk
      rw [if_neg hnil]
      exact (hready.setIndexIter hstands.isOver).seekToFirstInBlock_lands (hnoted.setIndexIter it)
        hstands

theorem Tracks.stays (h : I.Tracks T o pos)
    (hstays : I.staysInBlock T.toPointReader (some t.val) = true) :
    ∃ k, I.indexIter.Stands T.indexContents (some k) ∧ T.Leads t k := by
  cases h with
  | closed _ hclosed =>
      rw [staysInBlock, hclosed] at hstays
      cases hstays
  | entry h => exact ⟨_, h.stands, h.leads_of_stays hstays⟩

theorem Tracks.seek_lands (h : I.Tracks T o pos) (t : InternalKey) :
    Lands T o (fun fuel => I.seekImpl T.toPointReader o fuel (some t.val))
      (seek (ikeyCompare T.comparator) (keysOf T.entries) t) := by
  obtain ⟨offset, hnote, hnoted, hready⟩ := h.noteReseek
  apply Lands.bind (Outcome.settles_const hnote)
  by_cases hstays : I.staysInBlock T.toPointReader (some t.val) = true
  · obtain ⟨k, hstands, hleads⟩ := h.stays hstays
    exact Lands.ite_left hstays (hready.seekInBlock_lands hnoted hstands hleads)
  · obtain ⟨it, hseek, hstands⟩ := OpenTable.seek_stands hready.index t
    apply Lands.ite_right hstays
    refine hready.seekIndex_lands ?_ hstands OpenTable.seek_of_firstBlock ?_
    · rw [seekIndex, hseek, Outcome.ok_bind]
    · intro k hk
      rw [hk] at hstands
      exact (hready.setIndexIter hstands.isOver).seekInBlock_lands (hnoted.setIndexIter it) hstands
        (OpenTable.leads_of_firstBlock hk)

end BlockBasedTableIterator

end Tweezer
