import Tweezer.EncryptedBlock

/-!
# Opening a block that was built

The metadata of a block decodes to the table of its keys, whatever the prefix sharing, so
an iterator over a block with entries starts with exactly their keys, offsets and sizes.
-/

namespace Tweezer

/-- Entries in strictly increasing internal-key order. -/
structure BlockEntries (u : Comparator) where
  entries : List (InternalKey × Bytes)
  sorted : entries.Pairwise (fun a b => icmp u a.1.val b.1.val = .lt)

def valuesSize : List (InternalKey × Bytes) → ℕ
  | [] => 0
  | (_, v) :: es => v.length + kHmacSize + valuesSize es

def offsetTable : ℕ → List (InternalKey × Bytes) → List OffsetEntry
  | _, [] => []
  | off, (k, v) :: es => ⟨k.val, off, v.length⟩ :: offsetTable (off + v.length + kHmacSize) es

@[simp] theorem length_offsetTable (off : ℕ) (es : List (InternalKey × Bytes)) :
    (offsetTable off es).length = es.length := by
  induction es generalizing off with
  | nil => rfl
  | cons e es ih => rw [offsetTable, List.length_cons, List.length_cons, ih]

/-- The metadata before encryption, the last key added being `last`. -/
def encodeMeta (delta : Bool) : Bytes → List (InternalKey × Bytes) → Bytes
  | _, [] => []
  | last, (k, v) :: es => BlockBuilder.metaEntry delta last k.val v.length ++
      encodeMeta delta (if delta then k.val else last) es

theorem or_lt_128 {x y z : UInt8} (h : (x ||| y ||| z) < 128) :
    x.toNat < 128 ∧ y.toNat < 128 ∧ z.toNat < 128 := by
  have h' : x.toNat ||| y.toNat ||| z.toNat < 128 := by
    have := UInt8.lt_iff_toNat_lt.mp h
    rwa [UInt8.toNat_or, UInt8.toNat_or] at this
  have hxy : x.toNat ||| y.toNat < 128 := lt_of_le_of_lt Nat.left_le_or h'
  exact ⟨lt_of_le_of_lt Nat.left_le_or hxy, lt_of_le_of_lt Nat.right_le_or hxy,
    lt_of_le_of_lt Nat.right_le_or h'⟩

theorem varintDecode_small {n : ℕ} {b : UInt8} (h : b.toNat < 128) (p : Bytes) :
    Bytes.varintDecode (n + 1) (b :: p) = some (b.toNat, p) := by
  rw [Bytes.varintDecode, if_pos h]

/-- The fast path of `DecodeEntryV2` gives what the general one would. -/
theorem decodeEntryV2_eq {p p₁ p₂ p₃ : Bytes} {a b c : ℕ} (hl : 3 ≤ p.length)
    (h₁ : Bytes.varintDecode 5 p = some (a, p₁)) (h₂ : Bytes.varintDecode 5 p₁ = some (b, p₂))
    (h₃ : Bytes.varintDecode 5 p₂ = some (c, p₃)) :
    decodeEntryV2 p = .ok (u32 a, u32 b, u32 c, p₃) := by
  match p, hl with
  | x :: y :: z :: p, _ =>
    have hhead : Bytes.fetch (x :: y :: z :: p) 0 3 = .ok [x, y, z] :=
      Bytes.fetch_of_le (by simp)
    rw [decodeEntryV2, hhead, Outcome.ok_bind]
    dsimp only
    split_ifs with hfast
    · obtain ⟨hx, hy, hz⟩ := or_lt_128 hfast
      rw [varintDecode_small hx, Option.some.injEq, Prod.mk.injEq] at h₁
      obtain ⟨rfl, rfl⟩ := h₁
      rw [varintDecode_small hy, Option.some.injEq, Prod.mk.injEq] at h₂
      obtain ⟨rfl, rfl⟩ := h₂
      rw [varintDecode_small hz, Option.some.injEq, Prod.mk.injEq] at h₃
      obtain ⟨rfl, rfl⟩ := h₃
      rw [u32_of_lt (by omega), u32_of_lt (by omega), u32_of_lt (by omega)]
      rfl
    · simp only [h₁, h₂, h₃]

theorem decodeEntryV2_putVarint32 {a b c : ℕ} (ha : a < 2 ^ 32) (hb : b < 2 ^ 32)
    (hc : c < 2 ^ 32) (rest : Bytes) :
    decodeEntryV2 (putVarint32 a ++ (putVarint32 b ++ (putVarint32 c ++ rest))) =
      .ok (a, b, c, rest) := by
  have hpos := fun v => Bytes.length_varintEncode_pos 4 (u32 v)
  have h := decodeEntryV2_eq (by
      have h1 := hpos a
      have h2 := hpos b
      have h3 := hpos c
      simp only [List.length_append, putVarint32]
      omega)
    (varintDecode_putVarint32 ha _) (varintDecode_putVarint32 hb _)
    (varintDecode_putVarint32 hc rest)
  rwa [u32_of_lt ha, u32_of_lt hb, u32_of_lt hc] at h

theorem length_metaEntry (delta : Bool) (last key : Bytes) (size : ℕ) :
    3 + (key.length - if delta then Bytes.commonPrefix key last else 0) ≤
      (BlockBuilder.metaEntry delta last key size).length := by
  have hpos := fun v => Bytes.length_varintEncode_pos 4 (u32 v)
  have h1 := hpos (if delta then Bytes.commonPrefix key last else 0)
  have h2 := hpos (key.length - if delta then Bytes.commonPrefix key last else 0)
  have h3 := hpos size
  simp only [BlockBuilder.metaEntry, List.length_append, List.length_drop, putVarint32]
  omega

/-- The metadata of sorted entries decodes to their table. -/
theorem readyLoop_encodeMeta (u : Comparator) (delta : Bool) (es : List (InternalKey × Bytes))
    (last : Bytes) (prev : Option InternalKey) (off fuel : ℕ)
    (hlast : delta = true → (prev.map Subtype.val).getD [] = last)
    (hsorted : es.Pairwise (fun a b => icmp u a.1.val b.1.val = .lt))
    (hprev : ∀ k ∈ prev, ∀ e ∈ es, icmp u k.val e.1.val = .lt)
    (hmeta : last.length + (encodeMeta delta last es).length < 2 ^ 32)
    (hoff : off + valuesSize es < 2 ^ 32)
    (hfuel : (encodeMeta delta last es).length < fuel) :
    readyLoop u fuel (encodeMeta delta last es) (prev.map Subtype.val) off =
      .ok (offsetTable off es) := by
  induction es generalizing last prev off fuel with
  | nil =>
      obtain ⟨fuel, rfl⟩ := Nat.exists_eq_add_one.mpr (Nat.zero_lt_of_lt hfuel)
      rfl
  | cons e es ih =>
      obtain ⟨k, v⟩ := e
      obtain ⟨fuel, rfl⟩ := Nat.exists_eq_add_one.mpr (Nat.zero_lt_of_lt hfuel)
      rw [encodeMeta] at hmeta hfuel ⊢
      rw [List.length_append] at hmeta hfuel
      rw [valuesSize] at hoff
      obtain ⟨shared, hshared⟩ : ∃ n, n = if delta then Bytes.commonPrefix k.val last else 0 :=
        ⟨_, rfl⟩
      have hl := length_metaEntry delta last k.val v.length
      rw [← hshared] at hl
      have hsk : shared ≤ k.val.length := by
        rw [hshared]
        split_ifs
        · exact Bytes.commonPrefix_le_left _ _
        · exact Nat.zero_le _
      have hsl : shared ≤ last.length := by
        rw [hshared]
        split_ifs
        · exact Bytes.commonPrefix_le_right _ _
        · exact Nat.zero_le _
      have hentry : BlockBuilder.metaEntry delta last k.val v.length ++
          encodeMeta delta (if delta then k.val else last) es =
          putVarint32 shared ++ (putVarint32 (k.val.length - shared) ++
            (putVarint32 v.length ++ (k.val.drop shared ++
              encodeMeta delta (if delta then k.val else last) es))) := by
        simp only [BlockBuilder.metaEntry, ← hshared, List.append_assoc]
      have hcons : ∃ b bs, putVarint32 shared ++ (putVarint32 (k.val.length - shared) ++
            (putVarint32 v.length ++ (k.val.drop shared ++
              encodeMeta delta (if delta then k.val else last) es))) = b :: bs := by
        apply List.exists_cons_of_length_pos
        have := Bytes.length_varintEncode_pos 4 (u32 shared)
        rw [List.length_append, putVarint32]
        omega
      have hdecode := decodeEntryV2_putVarint32 (a := shared) (b := k.val.length - shared)
        (c := v.length) (by omega) (by omega) (by omega)
        (k.val.drop shared ++ encodeMeta delta (if delta then k.val else last) es)
      have hdrop : (k.val.drop shared).length = k.val.length - shared := List.length_drop
      -- the key is put together from its predecessor and the rest
      have hkey : nextEntryKey ((prev.map Subtype.val).getD []) shared (k.val.drop shared) =
          .ok k.val := by
        by_cases hz : shared = 0
        · rw [nextEntryKey, if_pos hz, hz, List.drop_zero]
        · have hd : delta = true := by
            cases delta with
            | true => rfl
            | false => exact absurd hshared hz
          have hsh : shared = Bytes.commonPrefix k.val last := by rw [hshared, if_pos hd]
          rw [hlast hd, nextEntryKey, if_neg hz, if_neg (by omega), hsh, ← Bytes.take_commonPrefix,
            List.take_append_drop]
      have horder : checkOrder u (prev.map Subtype.val) k.val = .ok () := by
        cases prev with
        | none => rfl
        | some pk =>
            have hlt := hprev pk rfl (k, v) List.mem_cons_self
            have hk := k.property
            have hpk := pk.property
            rw [Option.map_some, checkOrder, if_neg (by omega), if_neg (ucmp_ne_gt_of_icmp_lt hlt)]
      have hu : u32 (u32 (off + v.length) + kHmacSize) = off + v.length + kHmacSize := by
        rw [u32_of_lt (show off + v.length < 2 ^ 32 by omega), u32_of_lt (by omega)]
      have hrest := ih (if delta then k.val else last) (some k) (off + v.length + kHmacSize) fuel
        (by
          intro hd
          rw [if_pos hd]
          rfl)
        (List.pairwise_cons.mp hsorted).2
        (by
          intro pk hpk e he
          obtain rfl := Option.some.inj hpk
          exact (List.pairwise_cons.mp hsorted).1 e he)
        (by split_ifs at hmeta ⊢ <;> omega) (by omega) (by omega)
      obtain ⟨b, bs, hb⟩ := hcons
      rw [hentry, hb, readyLoop, ← hb, hdecode, Outcome.ok_bind]
      dsimp only
      rw [Bytes.fetch_of_le (by rw [List.length_append, hdrop]; omega),
        Bytes.slice_zero_append hdrop, Outcome.ok_bind, hkey, Outcome.ok_bind, horder,
        Outcome.ok_bind, Bytes.drop_append_of_length hdrop, hu]
      rw [Option.map_some] at hrest
      rw [hrest, Outcome.ok_bind, offsetTable]
      exact by rintro ⟨⟩

section Build

variable (C : Gcm) (digest : Digest) (key : Key)

/-- The encrypted values of a block, each with its MAC. -/
def encodeValues : List (InternalKey × Bytes) → Bytes
  | [] => []
  | (k, v) :: es => C.enc key v ++ ((digest key (k.val ++ C.enc key v)).val ++ encodeValues es)

theorem length_encodeValues (es : List (InternalKey × Bytes)) :
    (encodeValues C digest key es).length = valuesSize es := by
  induction es with
  | nil => rfl
  | cons e es ih =>
      obtain ⟨k, v⟩ := e
      have hd := (digest key (k.val ++ C.enc key v)).property
      rw [encodeValues, valuesSize, List.length_append, List.length_append, ih, C.length_enc, hd,
        kHmacSize]
      omega

theorem addAll_eq (b : BlockBuilder) (es : List (InternalKey × Bytes)) (hkey : b.sstKey = key)
    (hoff : b.metaOffset = u32 b.metaOffset) :
    (b.addAll C digest es).buffer = b.buffer ++ encodeValues C digest key es ∧
      (b.addAll C digest es).metaBuf =
        b.metaBuf ++ encodeMeta b.useDeltaEncoding b.lastKey es ∧
      (b.addAll C digest es).metaOffset = u32 (b.metaOffset + valuesSize es) ∧
      (b.addAll C digest es).sstKey = key := by
  induction es generalizing b with
  | nil => exact ⟨(List.append_nil _).symm, (List.append_nil _).symm, hoff, hkey⟩
  | cons e es ih =>
      obtain ⟨k, v⟩ := e
      obtain ⟨h₁, h₂, h₃, h₄⟩ := ih (b.add C digest k.val v) hkey (Nat.mod_mod _ _).symm
      subst hkey
      rw [← BlockBuilder.addAll_cons] at h₁ h₂ h₃ h₄
      refine ⟨h₁.trans ?_, h₂.trans ?_, h₃.trans ?_, h₄⟩
      · simp only [BlockBuilder.add, encodeValues, List.append_assoc]
      · simp only [BlockBuilder.add, encodeMeta, C.length_enc, List.append_assoc]
      · simp only [BlockBuilder.add, C.length_enc, u32_u32_add, valuesSize, Nat.add_assoc]

theorem dataBlock_eq (delta : Bool) (es : List (InternalKey × Bytes)) :
    dataBlock C digest delta key es = encodeValues C digest key es ++
      (C.enc key (encodeMeta delta [] es) ++ Bytes.leEncode 4 (u32 (valuesSize es))) := by
  obtain ⟨h₁, h₂, h₃, h₄⟩ := addAll_eq C digest key (.create delta key) es rfl rfl
  simp only [BlockBuilder.create, List.nil_append, Nat.zero_add] at h₁ h₂ h₃ h₄
  simp only [dataBlock, BlockBuilder.finish, BlockBuilder.create, h₁, h₂, h₃, h₄]

theorem length_dataBlock (delta : Bool) (es : List (InternalKey × Bytes)) :
    (dataBlock C digest delta key es).length =
      valuesSize es + ((encodeMeta delta [] es).length + 4) := by
  rw [dataBlock_eq, List.length_append, List.length_append, length_encodeValues, C.length_enc,
    Bytes.length_leEncode]

/-- The iterator over an opened block, before it is positioned. -/
def openedIter (data : Bytes) (globalSeqno : ℕ) (es : List (InternalKey × Bytes)) :
    EncryptedDataBlockIter :=
  { EncryptedDataBlockIter.fresh with
    data := some data, globalSeqno := globalSeqno, restarts := valuesSize es
    keyOffsetMap := offsetTable 0 es, currentIndex := -1, sstKey := key }

theorem encodeMeta_ne_nil (delta : Bool) {es : List (InternalKey × Bytes)} (h : es ≠ []) :
    3 ≤ (encodeMeta delta [] es).length := by
  cases es with
  | nil => exact absurd rfl h
  | cons e es =>
      have hl := length_metaEntry delta [] e.1.val e.2.length
      rw [encodeMeta, List.length_append]
      omega

/-- The last four bytes of a block are the offset of its metadata. -/
theorem ready_dataBlock (u : Comparator) (delta : Bool) (it : EncryptedDataBlockIter)
    (es : BlockEntries u) (hsize : (dataBlock C digest delta key es.entries).length ≤ 2 ^ 31) :
    it.ready C u (dataBlock C digest delta key es.entries) key =
      .ok { it with
        restarts := valuesSize es.entries, keyOffsetMap := offsetTable 0 es.entries
        currentIndex := -1, sstKey := key } := by
  have hlen := length_dataBlock C digest key delta es.entries
  have hu : u32 (valuesSize es.entries) = valuesSize es.entries := u32_of_lt (by omega)
  have heq := dataBlock_eq C digest key delta es.entries
  rw [hu] at heq
  obtain ⟨data, hdata⟩ : ∃ d, d = dataBlock C digest delta key es.entries := ⟨_, rfl⟩
  obtain ⟨footer, hf⟩ : ∃ b, b = Bytes.leEncode 4 (valuesSize es.entries) := ⟨_, rfl⟩
  have hlf : footer.length = 4 := by rw [hf, Bytes.length_leEncode]
  have hle : (C.enc key (encodeMeta delta [] es.entries)).length =
      (encodeMeta delta [] es.entries).length := C.length_enc _ _
  have hlv := length_encodeValues C digest key es.entries
  rw [← hdata] at hsize hlen heq ⊢
  rw [← hf] at heq
  have hfooter : data.fetch (data.length - 4) 4 = .ok footer := by
    have hl : (encodeValues C digest key es.entries ++
        C.enc key (encodeMeta delta [] es.entries)).length = data.length - 4 := by
      rw [List.length_append, hlv, hle]
      omega
    rw [Bytes.fetch_of_le (by omega), Bytes.slice, ← hl, heq, ← List.append_assoc, List.drop_left,
      List.take_of_length_le hlf.le]
  have hoffset : Bytes.leDecode footer = valuesSize es.entries := by
    rw [hf]
    exact Bytes.leDecode_leEncode_of_lt (lt_of_le_of_lt (by omega) (by decide : 2 ^ 31 < 256 ^ 4))
  have hlength : (data.length + 2 ^ 64 - valuesSize es.entries - 4) % 2 ^ 32 =
      (encodeMeta delta [] es.entries).length := by omega
  have hbuf : data.fetch (valuesSize es.entries) (encodeMeta delta [] es.entries).length =
      .ok (C.enc key (encodeMeta delta [] es.entries)) := by
    rw [Bytes.fetch_of_le (by omega), heq]
    exact congrArg _ (Bytes.slice_eq_of_append hlv hle)
  have htable := readyLoop_encodeMeta u delta es.entries [] none 0
    ((encodeMeta delta [] es.entries).length + 1) (fun _ => rfl) es.sorted
    (by rintro _ ⟨⟩) (by rw [List.length_nil]; omega) (by omega) (by omega)
  rw [Option.map_none] at htable
  rw [EncryptedDataBlockIter.ready, hfooter, Outcome.ok_bind]
  simp only [hoffset, hlength, hbuf, Outcome.ok_bind, C.dec_enc, htable]

/-- A block that was built from sorted entries, and is not above the supported size, opens
to an iterator over their table. -/
theorem newDataIterator_dataBlock (u : Comparator) (delta : Bool) (globalSeqno : ℕ)
    (es : BlockEntries u) (hne : es.entries ≠ [])
    (hsize : (dataBlock C digest delta key es.entries).length ≤ 2 ^ 31) :
    (EncryptedBlock.mk (dataBlock C digest delta key es.entries) key).newDataIterator C u
        globalSeqno =
      .ok (openedIter key (dataBlock C digest delta key es.entries) globalSeqno es.entries) := by
  have hlen := length_dataBlock C digest key delta es.entries
  have hmeta := encodeMeta_ne_nil delta hne
  have hvs : 48 ≤ valuesSize es.entries := by
    cases h : es.entries with
    | nil => exact absurd h hne
    | cons e l =>
        rw [valuesSize, kHmacSize]
        omega
  simp only [EncryptedBlock.newDataIterator]
  rw [if_neg (by split_ifs <;> omega), ready_dataBlock C digest key u delta _ es hsize]
  rfl

/-- A block without entries is taken for a damaged one. -/
theorem newDataIterator_nil (u : Comparator) (delta : Bool) (globalSeqno : ℕ) :
    (EncryptedBlock.mk (dataBlock C digest delta key []) key).newDataIterator C u globalSeqno =
      .ok (EncryptedDataBlockIter.fresh.invalidate (.corruption "bad block contents")) := by
  have hlen := length_dataBlock C digest key delta []
  simp only [valuesSize, encodeMeta, List.length_nil] at hlen
  simp only [EncryptedBlock.newDataIterator]
  rw [if_pos (by split_ifs <;> omega)]

end Build

end Tweezer
