import Tweezer.BlockTable

/-!
# Where a block iterator stands

An iterator over a built block is described by the index it is at. It counts as valid when
the offset behind the MAC-sized gap after the start of its value still lies before the
metadata: at every entry but the last, and at the last one if its value is not empty.
-/

namespace Tweezer

/-- The size of the last value. -/
def lastSize (es : List (InternalKey × Bytes)) : ℕ :=
  match es.getLast? with
  | some e => e.2.length
  | none => 0

/-- The entries at which an iterator counts as valid. -/
def Shown (es : List (InternalKey × Bytes)) (i : ℕ) : Prop :=
  i + 1 < es.length ∨ 0 < lastSize es

instance (es : List (InternalKey × Bytes)) (i : ℕ) : Decidable (Shown es i) :=
  inferInstanceAs (Decidable (_ ∨ _))

theorem valuesSize_append (es fs : List (InternalKey × Bytes)) :
    valuesSize (es ++ fs) = valuesSize es + valuesSize fs := by
  induction es with
  | nil => rw [List.nil_append, valuesSize, Nat.zero_add]
  | cons e es ih =>
      rw [List.cons_append, valuesSize, valuesSize, ih]
      simp only [Nat.add_assoc]

theorem eq_take_cons_drop {es : List (InternalKey × Bytes)} {i : ℕ} {e : InternalKey × Bytes}
    (h : es[i]? = some e) : es = es.take i ++ e :: es.drop (i + 1) := by
  obtain ⟨hi, rfl⟩ := List.getElem?_eq_some_iff.mp h
  rw [← List.drop_eq_getElem_cons hi, List.take_append_drop]

theorem valuesSize_eq {es : List (InternalKey × Bytes)} {i : ℕ} {e : InternalKey × Bytes}
    (h : es[i]? = some e) : valuesSize es =
      valuesSize (es.take i) + (e.2.length + kHmacSize + valuesSize (es.drop (i + 1))) := by
  conv_lhs => rw [eq_take_cons_drop h]
  rw [valuesSize_append, valuesSize]

theorem getElem?_offsetTable (off : ℕ) (es : List (InternalKey × Bytes)) (i : ℕ) :
    (offsetTable off es)[i]? =
      es[i]?.map fun e => ⟨e.1.val, off + valuesSize (es.take i), e.2.length⟩ := by
  induction es generalizing off i with
  | nil => rfl
  | cons e es ih =>
      cases i with
      | zero => simp [offsetTable, valuesSize]
      | succ i =>
          rw [offsetTable, List.getElem?_cons_succ, List.getElem?_cons_succ, ih,
            List.take_succ_cons, valuesSize]
          simp only [Nat.add_assoc]

theorem lastSize_eq {es : List (InternalKey × Bytes)} {i : ℕ} {e : InternalKey × Bytes}
    (h : es[i]? = some e) (hi : i + 1 = es.length) : lastSize es = e.2.length := by
  have hlast : es.getLast? = some e := by
    rw [List.getLast?_eq_getElem?, ← hi, Nat.add_sub_cancel, h]
  rw [lastSize, hlast]

/-- The comparison of offsets that decides validity. -/
theorem lt_valuesSize_iff {es : List (InternalKey × Bytes)} {i : ℕ} {e : InternalKey × Bytes}
    (h : es[i]? = some e) :
    valuesSize (es.take i) + kHmacSize < valuesSize es ↔ Shown es i := by
  rw [valuesSize_eq h]
  obtain ⟨hi, -⟩ := List.getElem?_eq_some_iff.mp h
  rcases Nat.lt_or_eq_of_le (Nat.succ_le_of_lt hi) with hlt | heq
  · have hne : es[i + 1]? = some es[i + 1] := List.getElem?_eq_getElem hlt
    have hsize : kHmacSize ≤ valuesSize (es.drop (i + 1)) := by
      rw [List.drop_eq_getElem_cons hlt, valuesSize]
      omega
    have hpos : 0 < kHmacSize := by decide
    constructor
    · exact fun _ => Or.inl hlt
    · intro _
      omega
  · have hdrop : valuesSize (es.drop (i + 1)) = 0 := by
      rw [List.drop_of_length_le (by omega), valuesSize]
    rw [hdrop, Shown, lastSize_eq h heq]
    constructor
    · intro hlt
      right
      omega
    · intro hs
      omega

namespace EncryptedDataBlockIter

/-- The iterator reads the block with these entries. -/
structure Over (it : EncryptedDataBlockIter) (data : Bytes) (key : Key)
    (es : List (InternalKey × Bytes)) : Prop where
  data_eq : it.data = some data
  restarts_eq : it.restarts = valuesSize es
  table_eq : it.keyOffsetMap = offsetTable 0 es
  sstKey_eq : it.sstKey = key
  seqno_eq : it.globalSeqno = kDisableGlobalSequenceNumber
  status_eq : it.status = .ok
  small : valuesSize es ≤ 2 ^ 31

/-- The iterator stands at entry `i`, whether it counts as valid there or not. -/
structure At (it : EncryptedDataBlockIter) (es : List (InternalKey × Bytes)) (i : ℕ) : Prop where
  index_eq : it.currentIndex = i
  current_eq : it.current = valuesSize (es.take i) + kHmacSize
  rawKey_eq : ∀ e ∈ es[i]?, it.rawKey = e.1.val
  dirty : it.valueDirty = true

variable {it : EncryptedDataBlockIter} {data : Bytes} {key : Key}
  {es : List (InternalKey × Bytes)} {i : ℕ}

theorem Over.of_eq {it' : EncryptedDataBlockIter} (h : it.Over data key es)
    (hd : it'.data = it.data) (hr : it'.restarts = it.restarts)
    (ht : it'.keyOffsetMap = it.keyOffsetMap) (hk : it'.sstKey = it.sstKey)
    (hs : it'.globalSeqno = it.globalSeqno) (hst : it'.status = it.status) :
    it'.Over data key es :=
  ⟨hd.trans h.data_eq, hr.trans h.restarts_eq, ht.trans h.table_eq, hk.trans h.sstKey_eq,
    hs.trans h.seqno_eq, hst.trans h.status_eq, h.small⟩

theorem Over.length_table (h : it.Over data key es) : it.keyOffsetMap.length = es.length := by
  rw [h.table_eq, length_offsetTable]

theorem entryAt_of_getElem? (h : it.Over data key es) {e : InternalKey × Bytes}
    (hi : es[i]? = some e) :
    it.entryAt i = .ok ⟨e.1.val, valuesSize (es.take i), e.2.length⟩ := by
  rw [entryAt, if_pos (Int.natCast_nonneg i), Int.toNat_natCast, h.table_eq, getElem?_offsetTable,
    hi, Option.map_some, Nat.zero_add]

theorem moveTo_at (h : it.Over data key es) (hi : i < es.length) :
    ∃ it', it.moveTo i = .ok it' ∧ it'.Over data key es ∧ it'.At es i := by
  have he := List.getElem?_eq_getElem hi
  have hsize := valuesSize_eq he
  have hsmall := h.small
  have hu : u32 (valuesSize (es.take i) + kHmacSize) = valuesSize (es.take i) + kHmacSize :=
    u32_of_lt (by omega)
  refine ⟨{ it with
      currentIndex := i, rawKey := es[i].1.val
      current := u32 (valuesSize (es.take i) + kHmacSize), valueDirty := true }, ?_,
    h.of_eq rfl rfl rfl rfl rfl rfl, rfl, hu, ?_, rfl⟩
  · rw [moveTo, entryAt_of_getElem? h he, Outcome.ok_bind]
  · intro e hm
    rw [he] at hm
    rw [← Option.some.inj hm]

theorem valid_iff (h : it.Over data key es) (ha : it.At es i) (hi : i < es.length) :
    it.valid = true ↔ Shown es i := by
  rw [valid, decide_eq_true_iff, ha.current_eq, h.restarts_eq]
  exact lt_valuesSize_iff (List.getElem?_eq_getElem hi)

/-- From the entry before, or from the place before the first entry. -/
theorem nextImpl_at (h : it.Over data key es) (hi : i < es.length)
    (hindex : it.currentIndex = (i : ℤ) - 1) :
    ∃ it', it.nextImpl = .ok it' ∧ it'.Over data key es ∧ it'.At es i := by
  obtain ⟨it', hm, ho, ha⟩ := moveTo_at h hi
  refine ⟨it', ?_, ho, ha⟩
  rw [nextImpl, h.length_table, hindex, if_pos (by omega), Int.sub_add_cancel, hm]

theorem nextImpl_last (h : it.Over data key es) (hindex : it.currentIndex = (es.length : ℤ) - 1) :
    it.nextImpl = .ok { it with current := u32 (it.current + 20000) } := by
  rw [nextImpl, h.length_table, hindex, if_neg (by omega)]

/-- `UpdateKey` writes only the key. -/
theorem updateKey_eq (it : EncryptedDataBlockIter) : ∃ k, it.updateKey = { it with key := k } := by
  by_cases hv : it.valid = true
  · exact ⟨_, by rw [updateKey, if_pos hv]⟩
  · exact ⟨it.key, by rw [updateKey, if_neg hv]⟩

theorem updateKey_over (h : it.Over data key es) : it.updateKey.Over data key es := by
  obtain ⟨k, hk⟩ := updateKey_eq it
  rw [hk]
  exact h.of_eq rfl rfl rfl rfl rfl rfl

theorem updateKey_at (ha : it.At es i) : it.updateKey.At es i := by
  obtain ⟨k, hk⟩ := updateKey_eq it
  rw [hk]
  exact ⟨ha.index_eq, ha.current_eq, ha.rawKey_eq, ha.dirty⟩

@[simp] theorem updateKey_valid : it.updateKey.valid = it.valid := by
  obtain ⟨k, hk⟩ := updateKey_eq it
  rw [hk]
  rfl

theorem updateKey_key (h : it.Over data key es) (hv : it.valid = true) :
    it.updateKey.key = it.rawKey := by
  rw [updateKey, if_pos hv]
  exact if_pos h.seqno_eq

/-- The iterator stands at entry `i` and has its key set, if it counts as valid there. -/
structure On (it : EncryptedDataBlockIter) (data : Bytes) (key : Key)
    (es : List (InternalKey × Bytes)) (i : ℕ) : Prop where
  isOver : it.Over data key es
  here : it.At es i
  lt : i < es.length
  key_eq_rawKey : it.valid = true → it.key = it.rawKey

theorem On.valid_iff (h : it.On data key es i) : it.valid = true ↔ Shown es i :=
  EncryptedDataBlockIter.valid_iff h.isOver h.here h.lt

theorem On.key_eq (h : it.On data key es i) (hs : Shown es i) {e : InternalKey × Bytes}
    (he : es[i]? = some e) : it.key = e.1.val := by
  rw [h.key_eq_rawKey (h.valid_iff.mpr hs)]
  exact h.here.rawKey_eq e he

theorem updateKey_on (h : it.Over data key es) (ha : it.At es i) (hi : i < es.length) :
    it.updateKey.On data key es i := by
  refine ⟨updateKey_over h, updateKey_at ha, hi, ?_⟩
  intro hv
  rw [updateKey_valid] at hv
  obtain ⟨k, hk⟩ := updateKey_eq it
  rw [updateKey_key h hv, hk]

theorem next_on (h : it.Over data key es) (hindex : it.currentIndex = i)
    (hi : i + 1 < es.length) :
    ∃ it', it.next = .ok it' ∧ it'.On data key es (i + 1) := by
  obtain ⟨it', hn, ho, ha⟩ := nextImpl_at h hi (by omega)
  exact ⟨_, by rw [next, hn, Outcome.ok_bind], updateKey_on ho ha hi⟩

theorem seekToFirstImpl_eq (h : it.data = some data) :
    it.seekToFirstImpl = ({ it with currentIndex := -1 } : EncryptedDataBlockIter).nextImpl := by
  unfold seekToFirstImpl
  split
  · next hnone => exact absurd (hnone.symm.trans h) (by simp)
  · rfl

theorem seekToFirst_on (h : it.Over data key es) (hne : es ≠ []) :
    ∃ it', it.seekToFirst = .ok it' ∧ it'.On data key es 0 := by
  have hpos := List.length_pos_of_ne_nil hne
  have hover : ({ it with currentIndex := -1 } : EncryptedDataBlockIter).Over data key es :=
    h.of_eq rfl rfl rfl rfl rfl rfl
  obtain ⟨it', hn, ho, ha⟩ := nextImpl_at hover hpos (by rfl)
  refine ⟨_, ?_, updateKey_on ho ha hpos⟩
  rw [seekToFirst, seekToFirstImpl_eq h.data_eq, hn, Outcome.ok_bind]

/-- At the last entry only the offset moves on, which ends the validity unless the value is
longer than the amount it moves by. -/
theorem next_last (h : it.Over data key es) (hindex : it.currentIndex = i)
    (hcurrent : it.current = valuesSize (es.take i) + kHmacSize) (hi : i + 1 = es.length) :
    ∃ it', it.next = .ok it' ∧ it'.Over data key es ∧
      (it'.valid = true ↔ 20000 < lastSize es) := by
  have he := List.getElem?_eq_getElem (show i < es.length by omega)
  have hsize := valuesSize_eq he
  have hrest : valuesSize (es.drop (i + 1)) = 0 := by
    rw [List.drop_of_length_le (by omega), valuesSize]
  have hsmall := h.small
  have hu : u32 (it.current + 20000) = valuesSize (es.take i) + kHmacSize + 20000 := by
    rw [hcurrent]
    exact u32_of_lt (by omega)
  obtain ⟨it₁, hit⟩ : ∃ it₁, it₁ = ({ it with current := u32 (it.current + 20000) } :
      EncryptedDataBlockIter) := ⟨_, rfl⟩
  have hover : it₁.Over data key es := by
    rw [hit]
    exact h.of_eq rfl rfl rfl rfl rfl rfl
  have hcurrent₁ : it₁.current = u32 (it.current + 20000) := by rw [hit]
  refine ⟨it₁.updateKey, ?_, updateKey_over hover, ?_⟩
  · rw [next, nextImpl_last h (by omega), ← hit, Outcome.ok_bind]
  · rw [updateKey_valid, valid, decide_eq_true_iff, hcurrent₁, hu, hover.restarts_eq,
      lastSize_eq he hi]
    omega

theorem compareCurrentKey_eq (h : it.Over data key es) (u : Comparator) (other : Bytes) :
    it.compareCurrentKey u other = icmp u it.rawKey other := by
  rw [compareCurrentKey, h.seqno_eq, internalKeyCompare_disabled]

end EncryptedDataBlockIter

end Tweezer
