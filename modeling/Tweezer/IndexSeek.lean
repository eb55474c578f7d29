import Tweezer.IndexPosition
import Tweezer.OrderedCursor

/-!
# Seeking in an index block

`Seek` of an index iterator finds the first entry whose key is not below the target: the
binary search over the restart points brackets it, and the scan from the lower one reaches
it. The reference is the search in the sorted list of the keys.
-/

namespace Tweezer

theorem Block.newIndexIterator_invalid (b : Block) (keyIncludesSeq valueIsFull : Bool) :
    (b.newIndexIterator keyIncludesSeq valueIsFull).valid = false := by
  unfold Block.newIndexIterator
  split_ifs <;> simp [IndexBlockIter.valid, IndexBlockIter.invalidate]

namespace IndexContents

variable (c : IndexContents) (u : Comparator)

/-- The order of the keys in the index. -/
def compare : Bytes → Bytes → Ordering := if c.keyIncludesSeq then icmp u else u.compare

instance : Std.TransCmp (c.compare u) := by
  unfold compare
  split_ifs
  · exact transCmp_icmp u
  · exact u.transCmp

def keys : List Bytes := c.entries.map IndexEntry.key

/-- What is looked for on behalf of this internal key. -/
def seekKey (target : Bytes) : Bytes :=
  if c.keyIncludesSeq then target else extractUserKey target

def Sorted : Prop := c.keys.Pairwise fun a b => c.compare u a b = .lt

variable {c} {i : ℕ} {e : IndexEntry}

theorem getElem?_keys (he : c.entries[i]? = some e) : c.keys[i]? = some e.key := by
  rw [keys, List.getElem?_map, he]
  rfl

end IndexContents

namespace IndexBlockIter

variable {it it' : IndexBlockIter} {c : IndexContents} {u : Comparator} {target : Bytes}
  {i : ℕ} {e : IndexEntry} {data : Bytes}

theorem Over.compareCurrentKey (h : it.Over c) (other : Bytes) :
    it.compareCurrentKey u other = c.compare u it.rawKey other := by
  rw [IndexBlockIter.compareCurrentKey, IndexContents.compare, h.keyIncludesSeq]
  split_ifs <;> rfl

/-- The result of a search: the iterator is at the entry that the sorted list of keys asks
for, or at none. -/
def Lands (it : IndexBlockIter) (c : IndexContents) (u : Comparator) (target : Bytes) : Prop :=
  (∃ j e, it.At c j e ∧ OrderedCursor.seek (c.compare u) c.keys target = some j) ∨
    it.valid = false ∧ it.Over c ∧ OrderedCursor.seek (c.compare u) c.keys target = none

/-- Where the binary search ends: at a restart point with the target itself, or between one
below the target and one above it. -/
def Brackets (c : IndexContents) (u : Comparator) (target : Bytes) (left : ℤ) (skip : Bool) :
    Prop :=
  if skip then
    ∃ m i e, left = (m : ℕ) ∧ c.RestartKey m i e ∧ c.compare u e.key target = .eq
  else
    (left = -1 ∨ ∃ m i e, left = (m : ℕ) ∧ c.RestartKey m i e ∧
      c.compare u e.key target = .lt) ∧
    (left + 1 = c.builder.restarts.length ∨ ∃ m i e, left + 1 = (m : ℕ) ∧
      c.RestartKey m i e ∧ c.compare u e.key target = .gt)

/-- One turn of the binary search. -/
theorem binarySeekLoop_succ (hsize : c.builder.buffer.length < 2 ^ 32) (h : it.Over c) (fuel : ℕ)
    {left right : ℤ} (hlr : left ≠ right) {m : ℕ} (hm : left + (right - left + 1) / 2 = m)
    (hr : c.RestartKey m i e) : ∃ it', it'.Over c ∧
    it.binarySeekLoop u c.block target (fuel + 1) left right =
      match c.compare u e.key target with
      | .lt => it'.binarySeekLoop u c.block target fuel m right
      | .gt => it'.binarySeekLoop u c.block target fuel left (m - 1)
      | .eq => .ok (it', some ((m : ℤ), true)) := by
  obtain ⟨valueLength, p, hdecoded, hfetch⟩ := h.decodeEntry_restart hr hsize
  have hover : { it with rawKey := e.key }.Over c := h.of_eq rfl rfl rfl rfl rfl
  refine ⟨_, hover, ?_⟩
  rw [binarySeekLoop, if_neg hlr]
  dsimp only
  rw [hm, Int.toNat_natCast, h.getRestartPoint hr hsize, Outcome.ok_bind, hdecoded,
    Outcome.ok_bind]
  dsimp only
  rw [if_neg (not_not.mpr rfl), hfetch, Outcome.ok_bind]
  cases hcompare : c.compare u e.key target <;>
    simp only [hover.compareCurrentKey, hcompare]

/-- The loop of the binary search keeps a restart key below the target on its left and one
above it on its right. -/
theorem binarySeekLoop_spec (hsize : c.builder.buffer.length < 2 ^ 32) (hne : c.entries ≠ [])
    (h : it.Over c) {fuel : ℕ} {left right : ℤ} (hleft : -1 ≤ left) (hlr : left ≤ right)
    (hright : right < c.builder.restarts.length) (hfuel : right - left < fuel)
    (hlow : left = -1 ∨ ∃ m i e, left = (m : ℕ) ∧ c.RestartKey m i e ∧
      c.compare u e.key target = .lt)
    (hhigh : right + 1 = c.builder.restarts.length ∨ ∃ m i e, right + 1 = (m : ℕ) ∧
      c.RestartKey m i e ∧ c.compare u e.key target = .gt) :
    ∃ it' left' skip, it.binarySeekLoop u c.block target fuel left right =
      .ok (it', some (left', skip)) ∧ it'.Over c ∧ Brackets c u target left' skip := by
  induction fuel generalizing it left right with
  | zero => omega
  | succ fuel ih =>
      by_cases heq : left = right
      · subst heq
        rw [binarySeekLoop, if_pos rfl]
        exact ⟨it, left, false, rfl, h, hlow, hhigh⟩
      · obtain ⟨m, hm⟩ : ∃ m : ℕ, left + (right - left + 1) / 2 = m :=
          Int.eq_ofNat_of_zero_le (by omega)
        obtain ⟨i, e, hr⟩ := IndexContents.exists_restartKey hne hsize
          (show m < c.builder.restarts.length by omega)
        obtain ⟨it₁, hover, hturn⟩ := binarySeekLoop_succ hsize h fuel heq hm hr
        rw [hturn]
        cases hcompare : c.compare u e.key target with
        | lt =>
            exact ih hover (by omega) (by omega) hright (by omega)
              (Or.inr ⟨m, i, e, rfl, hr, hcompare⟩) hhigh
        | eq => exact ⟨it₁, m, true, rfl, hover, m, i, e, rfl, hr, hcompare⟩
        | gt =>
            exact ih hover hleft (by omega) (by omega) (by omega) hlow
              (Or.inr ⟨m, i, e, Int.sub_add_cancel _ _, hr, hcompare⟩)

theorem At.lands (h : it.At c i e) (hsorted : c.Sorted u)
    (hge : c.compare u e.key target ≠ .lt)
    (hprev : ∀ j a, i = j + 1 → c.entries[j]? = some a → c.compare u a.key target = .lt) :
    it.Lands c u target := by
  refine Or.inl ⟨i, e, h, OrderedCursor.seek_eq_some_of_sorted hsorted
    (IndexContents.getElem?_keys h.entry) hge ?_⟩
  intro j b hj hb
  rw [IndexContents.keys, List.getElem?_map] at hb
  obtain ⟨a, ha, rfl⟩ := Option.map_eq_some_iff.mp hb
  exact hprev j a hj ha

/-- The scan that starts at an entry below the target. -/
theorem linearScan_spec (hsize : c.builder.buffer.length < 2 ^ 32) (hsorted : c.Sorted u)
    {maxOffset fuel : ℕ} (h : it.At c i e) (hlt : c.compare u e.key target = .lt)
    (hmax : maxOffset = 2 ^ 32 - 1 ∨ ∃ j a, c.entries[j]? = some a ∧
      maxOffset = c.offset j ∧ c.compare u a.key target = .gt)
    (hfuel : c.entries.length < i + 1 + fuel) :
    ∃ it', it.linearScan u c.block target maxOffset fuel = .ok it' ∧ it'.Lands c u target := by
  induction fuel generalizing it i e with
  | zero =>
      obtain ⟨hi, -⟩ := List.getElem?_eq_some_iff.mp h.entry
      omega
  | succ fuel ih =>
      obtain ⟨hi, -⟩ := List.getElem?_eq_some_iff.mp h.entry
      rw [linearScan]
      rcases Nat.lt_or_ge (i + 1) c.entries.length with hnext | hend
      · have he' := List.getElem?_eq_getElem hnext
        obtain ⟨it', hparse, hat⟩ := (h.before_succ he').parseNextIndexKey hsize
        rw [hparse, Outcome.ok_bind, hat.valid, hat.isOver.compareCurrentKey, hat.rawKey]
        have hprev : ∀ j a, i + 1 = j + 1 → c.entries[j]? = some a →
            c.compare u a.key target = .lt := by
          intro j a hj ha
          obtain rfl : i = j := Nat.succ.inj hj
          obtain rfl : e = a := Option.some.inj (h.entry.symm.trans ha)
          exact hlt
        by_cases hlow : c.compare u (c.entries[i + 1]).key target = .lt
        · have hpass : it'.current ≠ maxOffset := by
            intro hcurrent
            rw [hat.current] at hcurrent
            rcases hmax with rfl | ⟨j, a, ha, rfl, hgt⟩
            · have hin : i + 1 < c.encoded.length := by rwa [c.length_encoded]
              have hlt := PlainBlockBuilder.offset_lt_succ c.interval c.valueDelta hin
              have hle := PlainBlockBuilder.offset_le_buffer c.interval c.valueDelta
                (Nat.succ_le_of_lt hin)
              have hoffset : c.offset (i + 1) + 1 < 2 ^ 32 :=
                lt_of_le_of_lt (le_trans (Nat.succ_le_of_lt hlt) hle) hsize
              omega
            · obtain ⟨hj, -⟩ := List.getElem?_eq_some_iff.mp ha
              have hij := PlainBlockBuilder.offset_inj c.interval c.valueDelta
                (show i + 1 ≤ c.encoded.length by rw [c.length_encoded]; omega)
                (show j ≤ c.encoded.length by rw [c.length_encoded]; omega) hcurrent
              subst hij
              obtain rfl : c.entries[i + 1] = a := Option.some.inj (he'.symm.trans ha)
              rw [hlow] at hgt
              cases hgt
          rw [if_neg (by simp), if_neg hpass, if_neg (not_not.mpr hlow)]
          exact ih hat hlow (by omega)
        · refine ⟨it', ?_, hat.lands hsorted hlow hprev⟩
          rw [if_neg (by simp), if_pos hlow, ite_self]
      · have hlast : i + 1 = c.entries.length := by omega
        rw [parseNextIndexKey_end h.isOver (by rw [h.next, hlast]), Outcome.ok_bind]
        refine ⟨_, if_pos (by simp [valid]), Or.inr ⟨by simp [valid],
          h.isOver.of_eq rfl rfl rfl rfl rfl, OrderedCursor.seek_eq_none_of_sorted hsorted ?_⟩⟩
        intro j b hj hb
        rw [IndexContents.keys, List.length_map] at hj
        obtain rfl : i = j := by omega
        obtain rfl : e.key = b :=
          Option.some.inj ((IndexContents.getElem?_keys h.entry).symm.trans hb)
        exact hlt

/-- An entry takes two lengths and a value. -/
theorem length_entries_le_buffer (c : IndexContents) :
    3 * c.entries.length ≤ c.builder.buffer.length := by
  have hle : ∀ i, i ≤ c.encoded.length → 3 * i ≤ c.offset i := by
    intro i
    induction i with
    | zero => exact fun _ => Nat.zero_le _
    | succ i ih =>
        intro hi
        have hbefore := ih (by omega)
        have he := List.getElem?_eq_getElem (show i < c.entries.length by
          rw [← c.length_encoded]; omega)
        obtain ⟨p, hp, -⟩ := IndexContents.exists_encoded he
        have hvalue := List.length_pos_of_ne_nil (IndexContents.valueBytes_ne_nil he hp)
        have hheader := PlainBlockBuilder.length_header_pos (c.before i) p
        have hsucc := PlainBlockBuilder.offset_succ c.interval c.valueDelta hp
        unfold IndexContents.offset IndexContents.before at *
        omega
  have hlast := hle c.encoded.length le_rfl
  rw [IndexContents.offset, PlainBlockBuilder.offset_length, c.length_encoded] at hlast
  exact hlast

theorem length_restarts_lt (hsize : c.builder.buffer.length < 2 ^ 32) :
    c.builder.restarts.length < 2 ^ 31 := by
  have hlong := length_entries_le_buffer c
  have hle : c.builder.restarts.length ≤ 1 + c.encoded.length :=
    PlainBlockBuilder.length_restarts_addAll_le _ _
  rw [c.length_encoded] at hle
  omega

theorem length_restarts_pos (c : IndexContents) : 0 < c.builder.restarts.length :=
  List.length_pos_of_ne_nil (PlainBlockBuilder.restarts_ne_nil _ _ (List.cons_ne_nil _ _))

/-- The reader opens an index block that a builder wrote. -/
theorem newIndexIterator_block (hsize : c.builder.buffer.length < 2 ^ 32) :
    ((Block.create c.block).newIndexIterator c.keyIncludesSeq (!c.valueDelta)).Over c ∧
      ((Block.create c.block).newIndexIterator c.keyIncludesSeq (!c.valueDelta)).status = .ok := by
  have hpos := length_restarts_pos c
  have hlen := PlainBlockBuilder.length_finish c.builder
  rw [IndexContents.block, Block.create_finish _ hsize (length_restarts_lt hsize),
    Block.newIndexIterator]
  dsimp only
  rw [if_neg (by omega), if_neg (by omega)]
  exact ⟨⟨rfl, rfl, rfl, Bool.not_not _, rfl⟩, rfl⟩

theorem Over.seekToRestartPoint (h : it.Over c) {m : ℕ} (hr : c.RestartKey m i e)
    (hsize : c.builder.buffer.length < 2 ^ 32) (hm : m < c.builder.restarts.length) :
    ∃ it', it.seekToRestartPoint c.block m = .ok it' ∧ it'.Before c i e := by
  refine ⟨{ it with
    rawKey := [], restartIndex := m, valueOffset := c.offset i, valueSize := 0 }, ?_, ?_⟩
  · rw [IndexBlockIter.seekToRestartPoint, h.getRestartPoint hr hsize, Outcome.ok_bind]
  · obtain ⟨hi, -⟩ := List.getElem?_eq_some_iff.mp hr.entry
    have hoffset : u32 (c.offset i + 0) = c.offset i := by
      have hle := PlainBlockBuilder.offset_le_buffer c.interval c.valueDelta
        (show i ≤ c.encoded.length by rw [c.length_encoded]; omega)
      exact u32_of_lt (lt_of_le_of_lt hle hsize)
    refine ⟨h.of_eq rfl rfl rfl rfl rfl, hr.entry, hoffset, ?_, ?_, ?_, ?_⟩
    · rw [hr.shared]
      exact Nat.zero_le _
    · rw [hr.shared]
      rfl
    · exact fun hshared => absurd hr.shared hshared
    · rw [← h.numRestarts] at hm
      exact hm

/-- From what the binary search finds, `FindKeyAfterBinarySeek` gets to the entry. -/
theorem findKeyAfterBinarySeek_spec (hsize : c.builder.buffer.length < 2 ^ 32)
    (hsorted : c.Sorted u) (h : it.Over c) {left : ℤ} {skip : Bool}
    (hb : Brackets c u target left skip) :
    ∃ it', it.findKeyAfterBinarySeek u c.block target (if left = -1 then 0 else left.toNat)
        (if left = -1 then true else skip) = .ok it' ∧ it'.Lands c u target := by
  have hlands : ∀ {m i e}, c.RestartKey m i e → m < c.builder.restarts.length →
      c.compare u e.key target ≠ .lt → (∀ j a, i = j + 1 → c.entries[j]? = some a →
        c.compare u a.key target = .lt) →
      ∃ it', it.findKeyAfterBinarySeek u c.block target m true = .ok it' ∧
        it'.Lands c u target := by
    intro m i e hr hm hge hprev
    obtain ⟨it₁, hseek, hbefore⟩ := h.seekToRestartPoint hr hsize hm
    obtain ⟨it₂, hparse, hat⟩ := hbefore.parseNextIndexKey hsize
    refine ⟨it₂, ?_, hat.lands hsorted hge hprev⟩
    rw [findKeyAfterBinarySeek, hseek, Outcome.ok_bind, hparse, Outcome.ok_bind, if_pos rfl]
  cases skip with
  | true =>
      obtain ⟨m, i, e, rfl, hr, heq⟩ := hb
      have hm : ((m : ℕ) : ℤ) ≠ -1 := by omega
      obtain ⟨hlt, -⟩ := List.getElem?_eq_some_iff.mp hr.point
      rw [if_neg hm, if_neg hm, Int.toNat_natCast]
      refine hlands hr hlt (by rw [heq]; exact Ordering.noConfusion) ?_
      intro j a hj ha
      have hbelow : c.compare u a.key e.key = .lt :=
        OrderedCursor.lt_of_pairwise hsorted (show j < i by omega)
          (IndexContents.getElem?_keys ha) (IndexContents.getElem?_keys hr.entry)
      rwa [← Std.TransCmp.congr_right heq]
  | false =>
      obtain ⟨hlow, hhigh⟩ := hb
      by_cases hnone : left = -1
      · -- every key is above the target
        subst hnone
        have hpos := length_restarts_pos c
        rcases hhigh with hend | ⟨m, i, e, hm, hr, hgt⟩
        · omega
        · obtain rfl : m = 0 := by omega
          obtain rfl : i = 0 := hr.zero.mpr rfl
          rw [if_pos rfl, if_pos rfl]
          exact hlands hr hpos (by rw [hgt]; exact Ordering.noConfusion)
            fun j a hj => absurd hj.symm (Nat.succ_ne_zero j)
      · obtain ⟨m, i, e, rfl, hr, hlt⟩ := hlow.resolve_left hnone
        obtain ⟨hm, -⟩ := List.getElem?_eq_some_iff.mp hr.point
        obtain ⟨it₁, hseek, hbefore⟩ := h.seekToRestartPoint hr hsize hm
        obtain ⟨it₂, hparse, hat⟩ := hbefore.parseNextIndexKey hsize
        have hmax : ∃ maxOffset, it₂.maxOffset c.block m = .ok maxOffset ∧
            (maxOffset = 2 ^ 32 - 1 ∨ ∃ j a, c.entries[j]? = some a ∧
              maxOffset = c.offset j ∧ c.compare u a.key target = .gt) := by
          rw [IndexBlockIter.maxOffset, hat.isOver.numRestarts]
          rcases hhigh with hend | ⟨m', j, a, hm', hr', hgt⟩
          · exact ⟨_, if_neg (by omega), Or.inl rfl⟩
          · obtain rfl : m' = m + 1 := by omega
            obtain ⟨hlt', -⟩ := List.getElem?_eq_some_iff.mp hr'.point
            rw [if_pos hlt', hat.isOver.getRestartPoint hr' hsize]
            exact ⟨_, rfl, Or.inr ⟨j, a, hr'.entry, rfl, hgt⟩⟩
        obtain ⟨maxOffset, hread, hmaxOffset⟩ := hmax
        have hfuel : c.entries.length < i + 1 + (it₂.restarts + 1) := by
          have hlong := length_entries_le_buffer c
          rw [hat.isOver.restarts]
          omega
        obtain ⟨it', hscan, hlanded⟩ := linearScan_spec hsize hsorted hat hlt hmaxOffset hfuel
        refine ⟨it', ?_, hlanded⟩
        rw [if_neg hnone, if_neg hnone, Int.toNat_natCast, findKeyAfterBinarySeek, hseek,
          Outcome.ok_bind, hparse, Outcome.ok_bind, if_neg Bool.false_ne_true, hread,
          Outcome.ok_bind, hscan]

theorem seekImpl_eq {data key : Bytes} (h : it.data = some data) (u : Comparator)
    (hkey : (if it.keyIncludesSeq then target else extractUserKey target) = key) :
    it.seekImpl u target =
      ({ it with status := .ok }.binarySeek u data key >>= fun r =>
        match r.2 with
        | none => .ok r.1
        | some (index, skip) => r.1.findKeyAfterBinarySeek u data key index skip) := by
  subst hkey
  rw [seekImpl]
  split
  · next hnone =>
      rw [h] at hnone
      cases hnone
  · next data' hsome =>
      obtain rfl : data' = data := Option.some.inj (hsome.symm.trans h)
      rfl

theorem Over.restarts_eq_zero (h : it.Over c) (hnil : c.entries = []) : it.restarts = 0 := by
  have hencoded : c.encoded = [] := by rw [IndexContents.encoded, hnil, encodedEntries]
  rw [h.restarts, IndexContents.builder, hencoded]
  rfl

/-- In an index with entries the binary search finds a restart point. -/
theorem binarySeek_spec (hsize : c.builder.buffer.length < 2 ^ 32) (hne : c.entries ≠ [])
    (h : it.Over c) (target : Bytes) :
    ∃ it' left skip, it.binarySeekLoop u c.block target (it.numRestarts + 1) (-1)
        ((it.numRestarts : ℤ) - 1) = .ok (it', some (left, skip)) ∧
      it.binarySeek u c.block target = .ok (it', some (if left = -1 then 0 else left.toNat,
        if left = -1 then true else skip)) ∧
      it'.Over c ∧ Brackets c u target left skip := by
  have hpos : it.restarts ≠ 0 := by
    have hlong := length_entries_le_buffer c
    have hsome := List.length_pos_of_ne_nil hne
    rw [h.restarts]
    omega
  have hrestarts := length_restarts_pos c
  have hnum := h.numRestarts
  have hfind : ∃ it' left skip, it.binarySeekLoop u c.block target (it.numRestarts + 1) (-1)
      ((it.numRestarts : ℤ) - 1) = .ok (it', some (left, skip)) ∧ it'.Over c ∧
        Brackets c u target left skip :=
    binarySeekLoop_spec hsize hne h le_rfl (by omega) (by omega) (by omega) (Or.inl rfl)
      (Or.inl (by omega))
  obtain ⟨it', left, skip, hloop, hover, hbrackets⟩ := hfind
  refine ⟨it', left, skip, hloop, ?_, hover, hbrackets⟩
  rw [binarySeek, if_neg hpos, hloop, Outcome.ok_bind]
  dsimp only [Option.map_some]
  split_ifs <;> rfl

/-- `Seek` finds what the search in the sorted list of keys finds. -/
theorem seekImpl_spec (hsize : c.builder.buffer.length < 2 ^ 32) (hsorted : c.Sorted u)
    (h : it.Over c) (target : Bytes) :
    ∃ it', it.seekImpl u target = .ok it' ∧ it'.Lands c u (c.seekKey target) := by
  have hover : { it with status := .ok }.Over c := h.of_eq rfl rfl rfl rfl rfl
  have hkey : (if it.keyIncludesSeq then target else extractUserKey target) =
      c.seekKey target := by rw [h.keyIncludesSeq, IndexContents.seekKey]
  rw [seekImpl_eq h.data u hkey]
  by_cases hne : c.entries = []
  · have hzero := h.restarts_eq_zero hne
    rw [binarySeek, if_pos hzero, Outcome.ok_bind]
    refine ⟨_, rfl, Or.inr ⟨by simp [valid, hzero], hover, ?_⟩⟩
    rw [IndexContents.keys, hne]
    rfl
  · obtain ⟨it₁, left, skip, -, hfound, hover₁, hbrackets⟩ :=
      binarySeek_spec (u := u) hsize hne hover (c.seekKey target)
    obtain ⟨it', hfind, hlands⟩ :=
      findKeyAfterBinarySeek_spec hsize hsorted hover₁ hbrackets
    exact ⟨it', by rw [hfound, Outcome.ok_bind]; exact hfind, hlands⟩

/-- The entry that an iterator is at, with its key made public. -/
structure Shows (it : IndexBlockIter) (c : IndexContents) (i : ℕ) (e : IndexEntry) : Prop
    extends it.At c i e where
  key : it.key = e.key

theorem At.updateKey (h : it.At c i e) : it.updateKey.Shows c i e := by
  rw [IndexBlockIter.updateKey, if_pos h.valid]
  exact ⟨⟨h.isOver.of_eq rfl rfl rfl rfl rfl, h.entry, h.current, h.rawKey, h.next, h.value,
    h.restartIndex⟩, h.rawKey⟩

theorem updateKey_of_not_valid (h : it.valid = false) : it.updateKey = it := by
  rw [updateKey, h]
  rfl

/-! ### The status -/

theorem advanceRestartIndex_status (fuel : ℕ) (h : it.advanceRestartIndex data fuel = .ok it') :
    it'.status = it.status := by
  induction fuel generalizing it with
  | zero =>
      cases h
      rfl
  | succ fuel ih =>
      unfold advanceRestartIndex at h
      split_ifs at h
      · obtain ⟨point, -, h⟩ := Outcome.bind_eq_ok.mp h
        split_ifs at h
        · have hrest := ih h
          exact hrest
        · cases h
          rfl
      · cases h
        rfl

theorem decodeCurrentValue_status {shared : ℕ}
    (h : it.decodeCurrentValue data shared = .ok it') : it'.status = it.status := by
  unfold decodeCurrentValue at h
  by_cases hle : it.restarts < it.valueOffset
  · rw [if_pos hle] at h
    cases h
  · rw [if_neg hle] at h
    cases h
    rfl

theorem corruptionError_valid (it : IndexBlockIter) : it.corruptionError.valid = false := by
  simp [corruptionError, valid]

/-- An entry that is read leaves the status as it is. -/
theorem parseNextIndexKey_status (h : it.parseNextIndexKey data = .ok it')
    (hvalid : it'.valid = true) : it'.status = it.status := by
  have hcorrupt : ∀ it₁ : IndexBlockIter, it₁.corruptionError ≠ it' := by
    rintro it₁ rfl
    rw [corruptionError_valid] at hvalid
    cases hvalid
  unfold parseNextIndexKey at h
  dsimp only at h
  by_cases hend : it.restarts ≤ it.nextEntryOffset
  · rw [if_pos hend] at h
    cases h
    rfl
  · rw [if_neg hend] at h
    obtain ⟨decoded, -, h⟩ := Outcome.bind_eq_ok.mp h
    rcases decoded with _ | ⟨shared, nonShared, valueLength, p⟩
    · exact absurd (Except.ok.inj h) (hcorrupt _)
    · dsimp only at h
      by_cases hshort : it.rawKey.length < shared
      · rw [if_pos hshort] at h
        exact absurd (Except.ok.inj h) (hcorrupt _)
      · rw [if_neg hshort] at h
        obtain ⟨rest, -, h⟩ := Outcome.bind_eq_ok.mp h
        have hvalue : ∀ it₁ : IndexBlockIter, (if it₁.valueDeltaEncoded then
            it₁.decodeCurrentValue data shared else .ok it₁) = .ok it' →
              it'.status = it₁.status := by
          intro it₁ hdecode
          split_ifs at hdecode
          · exact decodeCurrentValue_status hdecode
          · cases hdecode
            rfl
        by_cases hshared : shared = 0
        · rw [if_pos hshared] at h
          obtain ⟨it₁, hadvance, h⟩ := Outcome.bind_eq_ok.mp h
          rw [hvalue it₁ h]
          have hsame := advanceRestartIndex_status _ hadvance
          exact hsame
        · rw [if_neg hshared, Outcome.ok_bind] at h
          have hsame := hvalue _ h
          exact hsame

theorem linearScan_status (hsize : c.builder.buffer.length < 2 ^ 32) {maxOffset fuel : ℕ}
    (hat : it.At c i e) (h : it.linearScan u c.block target maxOffset fuel = .ok it') :
    it'.status = it.status := by
  induction fuel generalizing it i e with
  | zero => cases h
  | succ fuel ih =>
      obtain ⟨it₁, hparse, h⟩ := Outcome.bind_eq_ok.mp h
      cases he' : c.entries[i + 1]? with
      | some e' =>
          obtain ⟨it₂, hparse', hat'⟩ := (hat.before_succ he').parseNextIndexKey hsize
          obtain rfl := Except.ok.inj (hparse.symm.trans hparse')
          rw [← parseNextIndexKey_status hparse hat'.valid]
          split_ifs at h
          · cases h
            rfl
          · cases h
            rfl
          · cases h
            rfl
          · exact ih hat' h
      | none =>
          obtain ⟨hi, -⟩ := List.getElem?_eq_some_iff.mp hat.entry
          have hlast : i + 1 = c.entries.length := by
            have := List.getElem?_eq_none_iff.mp he'
            omega
          rw [parseNextIndexKey_end hat.isOver (by rw [hat.next, hlast])] at hparse
          cases hparse
          rw [if_pos (by simp [valid])] at h
          cases h
          rfl

theorem binarySeekLoop_status (fuel : ℕ) {left right : ℤ} {found : ℤ × Bool}
    (h : it.binarySeekLoop u data target fuel left right = .ok (it', some found)) :
    it'.status = it.status := by
  induction fuel generalizing it left right with
  | zero => cases h
  | succ fuel ih =>
      unfold binarySeekLoop at h
      by_cases hdone : left = right
      · rw [if_pos hdone] at h
        cases h
        rfl
      · rw [if_neg hdone] at h
        obtain ⟨offset, -, h⟩ := Outcome.bind_eq_ok.mp h
        obtain ⟨decoded, -, h⟩ := Outcome.bind_eq_ok.mp h
        rcases decoded with _ | ⟨shared, nonShared, valueLength, p⟩
        · cases h
        · dsimp only at h
          by_cases hshared : shared ≠ 0
          · rw [if_pos hshared] at h
            cases h
          · rw [if_neg hshared] at h
            obtain ⟨midKey, -, h⟩ := Outcome.bind_eq_ok.mp h
            split at h
            · have hrest := ih h
              exact hrest
            · have hrest := ih h
              exact hrest
            · cases h
              rfl

theorem findKeyAfterBinarySeek_status (hsize : c.builder.buffer.length < 2 ^ 32) (hover : it.Over c)
    (hne : c.entries ≠ []) {m : ℕ} (hm : m < c.builder.restarts.length) {skip : Bool}
    (h : it.findKeyAfterBinarySeek u c.block target m skip = .ok it') :
    it'.status = it.status := by
  obtain ⟨i, e, hr⟩ := IndexContents.exists_restartKey hne hsize hm
  obtain ⟨it₁, hseek, hbefore⟩ := hover.seekToRestartPoint hr hsize hm
  obtain ⟨it₂, hparse, hat⟩ := hbefore.parseNextIndexKey hsize
  have hstart : it₁.status = it.status := by
    unfold IndexBlockIter.seekToRestartPoint at hseek
    obtain ⟨offset, -, hseek⟩ := Outcome.bind_eq_ok.mp hseek
    cases hseek
    rfl
  have hfirst := parseNextIndexKey_status hparse hat.valid
  rw [findKeyAfterBinarySeek, hseek, Outcome.ok_bind, hparse, Outcome.ok_bind] at h
  cases skip with
  | true =>
      cases h
      rw [hfirst, hstart]
  | false =>
      rw [if_neg Bool.false_ne_true] at h
      obtain ⟨maxOffset, -, h⟩ := Outcome.bind_eq_ok.mp h
      rw [linearScan_status hsize hat h, hfirst, hstart]

/-- What the iterator is once it was moved over an intact index: at an entry, or behind the
last one, with an OK status. -/
structure Stands (it : IndexBlockIter) (c : IndexContents) (pos : Option ℕ) : Prop where
  isOver : it.Over c
  status : it.status = .ok
  shows : ∀ j ∈ pos, ∃ e, it.Shows c j e
  invalid : pos = none → it.valid = false

theorem updateKey_status (it : IndexBlockIter) : it.updateKey.status = it.status := by
  unfold updateKey
  split_ifs <;> rfl

theorem Over.updateKey (h : it.Over c) : it.updateKey.Over c := by
  unfold IndexBlockIter.updateKey
  split_ifs
  · exact h.of_eq rfl rfl rfl rfl rfl
  · exact h

theorem seekImpl_status (hsize : c.builder.buffer.length < 2 ^ 32) (h : it.Over c)
    (hseek : it.seekImpl u target = .ok it') : it'.status = .ok := by
  have hover : { it with status := .ok }.Over c := h.of_eq rfl rfl rfl rfl rfl
  rw [seekImpl_eq h.data u rfl] at hseek
  by_cases hne : c.entries = []
  · rw [binarySeek, if_pos (h.restarts_eq_zero hne), Outcome.ok_bind] at hseek
    cases hseek
    rfl
  · obtain ⟨it₁, left, skip, hloop, hfound, hover₁, hbrackets⟩ :=
      binarySeek_spec (u := u) hsize hne hover
        (if it.keyIncludesSeq then target else extractUserKey target)
    have hm : (if left = -1 then 0 else left.toNat) < c.builder.restarts.length := by
      split_ifs with hnone
      · exact length_restarts_pos c
      · cases skip with
        | true =>
            obtain ⟨m, i, e, rfl, hr, -⟩ := hbrackets
            exact (List.getElem?_eq_some_iff.mp hr.point).1
        | false =>
            obtain ⟨m, i, e, rfl, hr, -⟩ := hbrackets.1.resolve_left hnone
            exact (List.getElem?_eq_some_iff.mp hr.point).1
    rw [hfound, Outcome.ok_bind] at hseek
    have hfind := findKeyAfterBinarySeek_status hsize hover₁ hne hm hseek
    rw [hfind, binarySeekLoop_status _ hloop]

/-- `Seek` from anywhere on an intact index. -/
theorem seek_stands (hsize : c.builder.buffer.length < 2 ^ 32) (hsorted : c.Sorted u) (h : it.Over c)
    (target : Bytes) : ∃ it', it.seek u target = .ok it' ∧
      it'.Stands c (OrderedCursor.seek (c.compare u) c.keys (c.seekKey target)) := by
  obtain ⟨it₁, hseek, hlands⟩ := seekImpl_spec hsize hsorted h target
  have hstatus := seekImpl_status hsize h hseek
  refine ⟨it₁.updateKey, by rw [seek, hseek, Outcome.ok_bind], ?_⟩
  rcases hlands with ⟨j, e, hat, hfound⟩ | ⟨hvalid, hover, hfound⟩
  · rw [hfound]
    refine ⟨hat.isOver.updateKey, (updateKey_status it₁).trans hstatus, ?_, fun h => nomatch h⟩
    intro j' hj'
    obtain rfl := Option.some.inj hj'
    exact ⟨e, hat.updateKey⟩
  · rw [hfound]
    refine ⟨hover.updateKey, (updateKey_status it₁).trans hstatus, (fun _ hj => nomatch hj), ?_⟩
    intro _
    rw [updateKey_of_not_valid hvalid]
    exact hvalid

/-- `Seek` on an index whose keys are sorted. -/
theorem seek_spec (hsize : c.builder.buffer.length < 2 ^ 32) (hsorted : c.Sorted u)
    (h : it.Over c) (target : Bytes) : ∃ it', it.seek u target = .ok it' ∧
      match OrderedCursor.seek (c.compare u) c.keys (c.seekKey target) with
      | some j => ∃ e, it'.Shows c j e
      | none => it'.valid = false := by
  obtain ⟨it', hseek, hstands⟩ := seek_stands hsize hsorted h target
  refine ⟨it', hseek, ?_⟩
  split
  · next j hfound => exact hstands.shows j hfound
  · next hfound => exact hstands.invalid hfound

/-- `Next` from an entry, which leaves the status as it is. -/
theorem At.next_entry (hsize : c.builder.buffer.length < 2 ^ 32) (h : it.At c i e) :
    ∃ it', it.next = .ok it' ∧ it'.Over c ∧ it'.status = it.status ∧
      match c.entries[i + 1]? with
      | some e' => it'.Shows c (i + 1) e'
      | none => it'.valid = false := by
  have hnext : ∀ it₁, it.parseNextIndexKey c.block = .ok it₁ → it.next = .ok it₁.updateKey := by
    intro it₁ hparse
    rw [IndexBlockIter.next, nextImpl, h.isOver.data]
    dsimp only
    rw [hparse, Outcome.ok_bind]
  cases he' : c.entries[i + 1]? with
  | some e' =>
      obtain ⟨it₁, hparse, hat⟩ := (h.before_succ he').parseNextIndexKey hsize
      have hstatus := parseNextIndexKey_status hparse hat.valid
      exact ⟨it₁.updateKey, hnext it₁ hparse, hat.isOver.updateKey,
        (updateKey_status it₁).trans hstatus, hat.updateKey⟩
  | none =>
      obtain ⟨hi, -⟩ := List.getElem?_eq_some_iff.mp h.entry
      have hlast : i + 1 = c.entries.length := by
        have := List.getElem?_eq_none_iff.mp he'
        omega
      have hparse := parseNextIndexKey_end h.isOver (by rw [h.next, hlast])
      have hvalid : { it with
          current := it.restarts, restartIndex := it.numRestarts }.valid = false := by
        simp [IndexBlockIter.valid]
      refine ⟨_, hnext _ hparse, ?_⟩
      rw [updateKey_of_not_valid hvalid]
      exact ⟨h.isOver.of_eq rfl rfl rfl rfl rfl, rfl, hvalid⟩

/-- `Next` on an index. -/
theorem next_spec (hsize : c.builder.buffer.length < 2 ^ 32) (h : it.At c i e) :
    ∃ it', it.next = .ok it' ∧
      match c.entries[i + 1]? with
      | some e' => it'.Shows c (i + 1) e'
      | none => it'.valid = false := by
  obtain ⟨it', hnext, -, -, hentry⟩ := h.next_entry hsize
  exact ⟨it', hnext, hentry⟩

/-- `Next` on an intact index. -/
theorem Stands.next (hsize : c.builder.buffer.length < 2 ^ 32) (h : it.Stands c (some i)) :
    ∃ it', it.next = .ok it' ∧
      it'.Stands c (if i + 1 < c.entries.length then some (i + 1) else none) := by
  obtain ⟨e, hshows⟩ := h.shows i rfl
  obtain ⟨it', hnext, hover, hstatus, hentry⟩ := hshows.toAt.next_entry hsize
  refine ⟨it', hnext, ?_⟩
  by_cases hlt : i + 1 < c.entries.length
  · rw [List.getElem?_eq_getElem hlt] at hentry
    rw [if_pos hlt]
    refine ⟨hover, hstatus.trans h.status, ?_, fun h => nomatch h⟩
    intro j hj
    obtain rfl := Option.some.inj hj
    exact ⟨_, hentry⟩
  · rw [List.getElem?_eq_none_iff.mpr (Nat.not_lt.mp hlt)] at hentry
    rw [if_neg hlt]
    exact ⟨hover, hstatus.trans h.status, (fun _ hj => nomatch hj), fun _ => hentry⟩

end IndexBlockIter

end Tweezer
