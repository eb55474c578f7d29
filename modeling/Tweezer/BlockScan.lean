import Tweezer.BlockPosition

/-!
# Reading a built block from its first entry to its end

A scan takes the key and the value of the current entry and calls `Next` while the iterator
counts as valid. It gives the entries that were added, and stops, exactly when the last
value is neither empty nor longer than the amount that `Next` adds to the offset there.
-/

namespace Tweezer

namespace EncryptedDataBlockIter

variable (C : Gcm) (digest : Digest)

/-- `key()` and `value()` followed by `Next`, while `Valid()`, for at most `fuel` calls. -/
def scan : ℕ → EncryptedDataBlockIter → Outcome (List (Bytes × Bytes) × EncryptedDataBlockIter)
  | 0, _ => .error .diverged
  | fuel + 1, it =>
      if it.valid then do
        let key := it.key
        let (value, it) ← it.getValue C digest
        let it ← it.next
        let (rest, it) ← scan fuel it
        .ok ((key, value) :: rest, it)
      else .ok ([], it)

end EncryptedDataBlockIter

/-- The entries of a block from `SeekToFirst` on, and the iterator behind them. -/
def EncryptedBlock.readEntries (C : Gcm) (digest : Digest) (u : Comparator) (b : EncryptedBlock)
    (fuel : ℕ) : Outcome (List (Bytes × Bytes) × EncryptedDataBlockIter) := do
  let it ← b.newDataIterator C u kDisableGlobalSequenceNumber
  let it ← it.seekToFirst
  it.scan C digest fuel

def plainEntries (es : List (InternalKey × Bytes)) : List (Bytes × Bytes) :=
  es.map fun e => (e.1.val, e.2)

/-- The block with these entries is read back: the same keys and values, each once, and an
invalid iterator with an OK status behind them. -/
def BlockRoundTrips (C : Gcm) (digest : Digest) (delta : Bool) (key : Key) (u : Comparator)
    (es : BlockEntries u) : Prop :=
  ∃ fuel it, (EncryptedBlock.mk (dataBlock C digest delta key es.entries) key).readEntries C
      digest u fuel = .ok (plainEntries es.entries, it) ∧ it.valid = false ∧ it.status = .ok

section Values

variable (C : Gcm) (digest : Digest) (key : Key)

theorem encodeValues_append (es fs : List (InternalKey × Bytes)) :
    encodeValues C digest key (es ++ fs) =
      encodeValues C digest key es ++ encodeValues C digest key fs := by
  induction es with
  | nil => rfl
  | cons e es ih =>
      obtain ⟨k, v⟩ := e
      rw [List.cons_append, encodeValues, encodeValues, ih]
      simp only [List.append_assoc]

/-- Where an entry's ciphertext and its MAC lie in the block. -/
theorem dataBlock_entry (delta : Bool) {es : List (InternalKey × Bytes)} {i : ℕ}
    {e : InternalKey × Bytes} (he : es[i]? = some e) :
    ∃ a b, dataBlock C digest delta key es = a ++ (C.enc key e.2 ++
        ((digest key (e.1.val ++ C.enc key e.2)).val ++ b)) ∧
      a.length = valuesSize (es.take i) := by
  refine ⟨encodeValues C digest key (es.take i), encodeValues C digest key (es.drop (i + 1)) ++
    (C.enc key (encodeMeta delta [] es) ++ Bytes.leEncode 4 (u32 (valuesSize es))), ?_,
    length_encodeValues C digest key _⟩
  have hvalues : encodeValues C digest key es = encodeValues C digest key (es.take i) ++
      encodeValues C digest key (e :: es.drop (i + 1)) := by
    rw [← encodeValues_append, ← eq_take_cons_drop he]
  rw [dataBlock_eq, hvalues, encodeValues]
  simp only [List.append_assoc]

end Values

namespace EncryptedDataBlockIter

variable {C : Gcm} {digest : Digest} {delta : Bool} {key : Key} {it it' : EncryptedDataBlockIter}
  {es : List (InternalKey × Bytes)} {i : ℕ}

/-- At entry `i`, `Updatevalue` compares the MAC over the key that is shown with the one over
the key that was added. -/
theorem updateValue_at (h : it.Over (dataBlock C digest delta key es) key es)
    (hindex : it.currentIndex = i) {e : InternalKey × Bytes} (he : es[i]? = some e) :
    it.updateValue C digest =
      if (digest key (it.key ++ C.enc key e.2)).val =
          (digest key (e.1.val ++ C.enc key e.2)).val then
        .ok { it with value := e.2, valueDirty := false }
      else .error .exit := by
  obtain ⟨a, b, hblock, ha⟩ := dataBlock_entry C digest key delta he
  have hv : (C.enc key e.2).length = e.2.length := C.length_enc _ _
  have hd := (digest key (e.1.val ++ C.enc key e.2)).property
  obtain ⟨mac, hmac⟩ : ∃ m, m = (digest key (e.1.val ++ C.enc key e.2)).val := ⟨_, rfl⟩
  rw [← hmac] at hblock hd ⊢
  have hlen : (dataBlock C digest delta key es).length =
      a.length + (e.2.length + (kHmacSize + b.length)) := by
    rw [hblock]
    simp only [List.length_append, hv, hd, kHmacSize]
  have hvalue : Bytes.fetch (dataBlock C digest delta key es) (valuesSize (es.take i))
      e.2.length = .ok (C.enc key e.2) := by
    rw [Bytes.fetch_of_le (by omega), hblock, Bytes.slice_eq_of_append ha hv]
  have hfile : Bytes.fetch (dataBlock C digest delta key es)
      (valuesSize (es.take i) + e.2.length) kHmacSize = .ok mac := by
    rw [Bytes.fetch_of_le (by omega), hblock, ← List.append_assoc]
    exact congrArg _ (Bytes.slice_eq_of_append (by rw [List.length_append, ha, hv]) hd)
  rw [updateValue, hindex, entryAt_of_getElem? h he, Outcome.ok_bind, h.data_eq]
  simp only [Outcome.ok_bind, hvalue, hfile, h.sstKey_eq, C.dec_enc]

/-- At an entry whose key is set, the MAC agrees and the value is the one that was added. -/
theorem getValue_on (h : it.On (dataBlock C digest delta key es) key es i)
    (hs : Shown es i) {e : InternalKey × Bytes} (he : es[i]? = some e) :
    it.getValue C digest =
      .ok (e.2, { it with value := e.2, valueDirty := false }) := by
  have hkey := h.key_eq hs he
  have hupdate := updateValue_at h.isOver h.here.index_eq he
  rw [if_pos (by rw [hkey])] at hupdate
  rw [getValue, if_pos h.here.dirty, hupdate, Outcome.ok_bind]

/-- Some number of calls gives these entries and ends at an OK status. -/
def ScansTo (C : Gcm) (digest : Digest) (it : EncryptedDataBlockIter)
    (out : List (Bytes × Bytes)) : Prop :=
  ∃ fuel it', it.scan C digest fuel = .ok (out, it') ∧ it'.valid = false ∧ it'.status = .ok

theorem scansTo_of_valid {v : Bytes} {it₁ it₂ : EncryptedDataBlockIter} (hv : it.valid = true)
    (hvalue : it.getValue C digest = .ok (v, it₁)) (hnext : it₁.next = .ok it₂)
    (out : List (Bytes × Bytes)) :
    it.ScansTo C digest out ↔ ∃ rest, out = (it.key, v) :: rest ∧ it₂.ScansTo C digest rest := by
  constructor
  · rintro ⟨fuel, it', hscan, hend⟩
    cases fuel with
    | zero => cases hscan
    | succ fuel =>
        rw [scan, if_pos hv, hvalue, Outcome.ok_bind] at hscan
        dsimp only at hscan
        rw [hnext, Outcome.ok_bind] at hscan
        obtain ⟨⟨rest, it₃⟩, hrest, hout⟩ := Outcome.bind_eq_ok.mp hscan
        obtain ⟨rfl, rfl⟩ := Prod.mk.inj (Except.ok.inj hout)
        exact ⟨rest, rfl, fuel, it₃, hrest, hend⟩
  · rintro ⟨rest, rfl, fuel, it', hscan, hend⟩
    refine ⟨fuel + 1, it', ?_, hend⟩
    rw [scan, if_pos hv, hvalue, Outcome.ok_bind]
    dsimp only
    rw [hnext, Outcome.ok_bind, hscan, Outcome.ok_bind]

theorem scansTo_of_invalid (hv : it.valid = false) (out : List (Bytes × Bytes)) :
    it.ScansTo C digest out ↔ out = [] ∧ it.status = .ok := by
  constructor
  · rintro ⟨fuel, it', hscan, -, hstatus⟩
    cases fuel with
    | zero => cases hscan
    | succ fuel =>
        rw [scan, if_neg (by simp [hv])] at hscan
        obtain ⟨rfl, rfl⟩ := Prod.mk.inj (Except.ok.inj hscan)
        exact ⟨rfl, hstatus⟩
  · rintro ⟨rfl, hstatus⟩
    exact ⟨1, it, by rw [scan, if_neg (by simp [hv])], hv, hstatus⟩

/-- At the last entry: behind it the offset has to pass that of the metadata. -/
theorem scansTo_last (h : it.On (dataBlock C digest delta key es) key es i)
    (hi : i + 1 = es.length) {e : InternalKey × Bytes} (he : es[i]? = some e) :
    it.ScansTo C digest [(e.1.val, e.2)] ↔ 0 < lastSize es ∧ lastSize es ≤ 20000 := by
  by_cases hs : Shown es i
  · have hpos : 0 < lastSize es := hs.resolve_left (by omega)
    have hover : ({ it with value := e.2, valueDirty := false } : EncryptedDataBlockIter).Over
        (dataBlock C digest delta key es) key es := h.isOver.of_eq rfl rfl rfl rfl rfl rfl
    obtain ⟨it₂, hnext, ho, hvalid⟩ := next_last hover h.here.index_eq h.here.current_eq hi
    rw [scansTo_of_valid (h.valid_iff.mpr hs) (getValue_on h hs he) hnext, h.key_eq hs he]
    constructor
    · rintro ⟨rest, hout, hscan⟩
      refine ⟨hpos, ?_⟩
      by_contra hlong
      -- still valid, the iterator gives the last entry once more
      obtain ⟨fuel, it', hscan, -⟩ := hscan
      obtain rfl : rest = [] := (List.cons.inj hout).2.symm
      cases fuel with
      | zero => cases hscan
      | succ fuel =>
          rw [scan, if_pos (hvalid.mpr (by omega))] at hscan
          obtain ⟨⟨v, it₃⟩, -, hscan⟩ := Outcome.bind_eq_ok.mp hscan
          obtain ⟨it₄, -, hscan⟩ := Outcome.bind_eq_ok.mp hscan
          obtain ⟨⟨rest, it₅⟩, -, hscan⟩ := Outcome.bind_eq_ok.mp hscan
          cases hscan
    · rintro ⟨-, hle⟩
      have hinvalid : it₂.valid = false := by
        rw [← Bool.not_eq_true, hvalid]
        omega
      exact ⟨[], rfl, (scansTo_of_invalid hinvalid _).mpr ⟨rfl, ho.status_eq⟩⟩
  · have hinvalid : it.valid = false := by
      rw [← Bool.not_eq_true, h.valid_iff]
      exact hs
    rw [scansTo_of_invalid hinvalid]
    constructor
    · rintro ⟨hcons, -⟩
      cases hcons
    · rintro ⟨hpos, -⟩
      exact absurd (Or.inr hpos) hs

/-- From any entry on, by induction on the number of entries behind it. -/
theorem scansTo_on (n : ℕ) (h : it.On (dataBlock C digest delta key es) key es i)
    (hn : i + (n + 1) = es.length) :
    it.ScansTo C digest (plainEntries (es.drop i)) ↔ 0 < lastSize es ∧ lastSize es ≤ 20000 := by
  induction n generalizing it i with
  | zero =>
      have he := List.getElem?_eq_getElem h.lt
      rw [List.drop_eq_getElem_cons h.lt, List.drop_of_length_le (by omega)]
      exact scansTo_last h (by omega) he
  | succ n ih =>
      have he := List.getElem?_eq_getElem h.lt
      have hs : Shown es i := Or.inl (by omega)
      have hover : ({ it with value := es[i].2, valueDirty := false } :
          EncryptedDataBlockIter).Over (dataBlock C digest delta key es) key es :=
        h.isOver.of_eq rfl rfl rfl rfl rfl rfl
      obtain ⟨it₂, hnext, hon⟩ := next_on hover h.here.index_eq (by omega)
      rw [scansTo_of_valid (h.valid_iff.mpr hs) (getValue_on h hs he) hnext, h.key_eq hs he,
        ← ih hon (by omega), List.drop_eq_getElem_cons h.lt]
      constructor
      · rintro ⟨rest, hout, hscan⟩
        obtain ⟨-, rfl⟩ := List.cons.inj hout
        exact hscan
      · intro hscan
        exact ⟨_, rfl, hscan⟩

end EncryptedDataBlockIter

theorem openedIter_over {data : Bytes} {key : Key} {es : List (InternalKey × Bytes)}
    (hsize : valuesSize es ≤ 2 ^ 31) :
    (openedIter key data kDisableGlobalSequenceNumber es).Over data key es :=
  ⟨rfl, rfl, rfl, rfl, rfl, rfl, hsize⟩

/-- Opening and `SeekToFirst` come down to a scan from the first entry. -/
theorem blockRoundTrips_iff_scansTo (C : Gcm) (digest : Digest) (delta : Bool) (key : Key)
    (u : Comparator) (es : BlockEntries u) (hne : es.entries ≠ [])
    (hsize : (dataBlock C digest delta key es.entries).length ≤ 2 ^ 31) :
    ∃ it : EncryptedDataBlockIter,
      it.On (dataBlock C digest delta key es.entries) key es.entries 0 ∧
      (BlockRoundTrips C digest delta key u es ↔
        it.ScansTo C digest (plainEntries es.entries)) := by
  have hlen := length_dataBlock C digest key delta es.entries
  have hover : (openedIter key (dataBlock C digest delta key es.entries)
      kDisableGlobalSequenceNumber es.entries).Over _ key es.entries :=
    openedIter_over (by omega)
  obtain ⟨it, hfirst, hon⟩ := EncryptedDataBlockIter.seekToFirst_on hover hne
  have hread : ∀ fuel, (EncryptedBlock.mk (dataBlock C digest delta key es.entries)
      key).readEntries C digest u fuel = it.scan C digest fuel := by
    intro fuel
    rw [EncryptedBlock.readEntries, newDataIterator_dataBlock C digest key u delta _ es hne hsize,
      Outcome.ok_bind, hfirst, Outcome.ok_bind]
  refine ⟨it, hon, ?_⟩
  simp only [BlockRoundTrips, hread]
  exact Iff.rfl

/-- A block within the supported size is read back exactly if it has entries and its last
value has between one and 20000 bytes. -/
theorem blockRoundTrips_iff (C : Gcm) (digest : Digest) (delta : Bool) (key : Key)
    (u : Comparator) (es : BlockEntries u)
    (hsize : (dataBlock C digest delta key es.entries).length ≤ 2 ^ 31) :
    BlockRoundTrips C digest delta key u es ↔
      es.entries ≠ [] ∧ 0 < lastSize es.entries ∧ lastSize es.entries ≤ 20000 := by
  by_cases hne : es.entries = []
  · constructor
    · rintro ⟨fuel, it, hread, -, hstatus⟩
      rw [hne, EncryptedBlock.readEntries, newDataIterator_nil, Outcome.ok_bind] at hread
      cases fuel with
      | zero => cases hread
      | succ fuel =>
          obtain ⟨-, rfl⟩ := Prod.mk.inj (Except.ok.inj hread)
          cases hstatus
    · rintro ⟨h, -⟩
      exact absurd hne h
  · obtain ⟨it, hon, hiff⟩ := blockRoundTrips_iff_scansTo C digest delta key u es hne hsize
    have hpos := List.length_pos_of_ne_nil hne
    have hscan := EncryptedDataBlockIter.scansTo_on (es.entries.length - 1) hon (by omega)
    rw [List.drop_zero] at hscan
    rw [hiff, hscan]
    exact ⟨fun h => ⟨hne, h⟩, fun h => h.2⟩

theorem deleteOfA_internal :
    kNumInternalBytes ≤ ([97, 0, 2, 0, 0, 0, 0, 0, 0] : Bytes).length := by decide

theorem putOfB_internal :
    kNumInternalBytes ≤ ([98, 1, 1, 0, 0, 0, 0, 0, 0] : Bytes).length := by decide

/-- A put behind a deletion. -/
def deletedThenPut : BlockEntries bytewiseComparator where
  entries := [(⟨[97, 0, 2, 0, 0, 0, 0, 0, 0], deleteOfA_internal⟩, []),
    (⟨[98, 1, 1, 0, 0, 0, 0, 0, 0], putOfB_internal⟩, [120])]
  sorted := by decide

theorem blockRoundTrips_iff_deletedThenPut :
    BlockRoundTrips sampleGcm sampleDigest true sampleKey bytewiseComparator deletedThenPut :=
  (blockRoundTrips_iff sampleGcm sampleDigest true sampleKey bytewiseComparator deletedThenPut
    (by rw [length_dataBlock]; decide)).mpr (by decide)

/-- One deletion. -/
def deletedOnly : BlockEntries bytewiseComparator where
  entries := [(⟨[97, 0, 2, 0, 0, 0, 0, 0, 0], deleteOfA_internal⟩, [])]
  sorted := by decide

/-- The deletion is not read back: the iterator counts as invalid at it. -/
theorem deletedOnly_not_roundTrips :
    ¬ BlockRoundTrips sampleGcm sampleDigest true sampleKey bytewiseComparator deletedOnly := by
  obtain ⟨it, hon, hiff⟩ := blockRoundTrips_iff_scansTo sampleGcm sampleDigest true sampleKey
    bytewiseComparator deletedOnly (by decide) (by rw [length_dataBlock]; decide)
  have hinvalid : it.valid = false := by
    rw [← Bool.not_eq_true, hon.valid_iff]
    decide
  rw [hiff, EncryptedDataBlockIter.scansTo_of_invalid hinvalid]
  rintro ⟨hnil, -⟩
  cases hnil

end Tweezer
