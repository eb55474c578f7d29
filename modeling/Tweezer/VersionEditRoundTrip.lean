import Tweezer.VersionEditDecode

/-!
# Edits read back

What the readers of `DecodeFrom` make of what the writers of `EncodeTo` put down, field by
field and then for a whole edit, whatever stands behind it.
-/

namespace Tweezer

/-! ### Readers of one value -/

@[simp] theorem getVarint64Of_putVarint64Of (n : UInt64) (rest : Bytes) :
    getVarint64Of (putVarint64Of n ++ rest) = some (n, rest) := by
  rw [getVarint64Of, putVarint64Of, getVarint64_putVarint64 n.toNat_lt, Option.map_some,
    UInt64.ofNat_toNat]

@[simp] theorem getVarint32Of_putVarint32Of (n : UInt32) (rest : Bytes) :
    getVarint32Of (putVarint32Of n ++ rest) = some (n, rest) := by
  rw [getVarint32Of, putVarint32Of, getVarint32_putVarint32 n.toNat_lt, Option.map_some,
    UInt32.ofNat_toNat]

@[simp] theorem getFixed64_putFixed64 (n : UInt64) (rest : Bytes) :
    getFixed64 (putFixed64 n ++ rest) = some (n, rest) := by
  have hlen : (putFixed64 n).length = 8 := Bytes.length_leEncode 8 n.toNat
  have hval : Bytes.leDecode (putFixed64 n) = n.toNat :=
    Bytes.leDecode_leEncode_of_lt (lt_of_lt_of_le n.toNat_lt (by decide))
  rw [getFixed64, if_pos (by rw [List.length_append]; omega), ← hlen, List.take_left,
    List.drop_left, hval, UInt64.ofNat_toNat]

@[simp] theorem getLevel_putVarint32Of (level : Int32) (rest : Bytes) :
    getLevel (putVarint32Of level.toUInt32 ++ rest) = some (level, rest) := by
  rw [getLevel, getVarint32Of_putVarint32Of, Option.map_some, Int32.toInt32_toUInt32]

theorem Slice.getLengthPrefixed_put {value : Bytes} (h : value.length < 2 ^ 32) (rest : Bytes) :
    Slice.getLengthPrefixed (putLengthPrefixedSlice value ++ rest) =
      (some ⟨value ++ rest, value.length⟩, rest) := by
  rw [Slice.getLengthPrefixed, putLengthPrefixedSlice, List.append_assoc,
    getVarint32_putVarint32 h]
  dsimp only
  rw [if_pos (by rw [List.length_append]; omega), List.drop_left]

theorem getString_put {value : Bytes} (h : value.length < 2 ^ 32) (rest : Bytes) :
    getString (putLengthPrefixedSlice value ++ rest) = some (value, rest) := by
  rw [getString, Slice.getLengthPrefixed_put h]
  dsimp only
  rw [Slice.toBytes, List.take_left]

theorem getInternalKey_put {key : Bytes} (h : key.length < 2 ^ 32) (hv : internalKeyValid key)
    (rest : Bytes) : getInternalKey (putLengthPrefixedSlice key ++ rest) = some (key, rest) := by
  rw [getInternalKey, getString_put h]
  exact if_pos hv

@[simp] theorem Decoded.after_some {α β : Type} (msg : String) (a : α) (input : Bytes)
    (next : α → Bytes → Decoded β) : Decoded.after msg (some (a, input)) next = next a input :=
  rfl

@[simp] theorem Decoded.andThen_ok {α β : Type} (a : α) (input : Bytes)
    (next : α → Bytes → Decoded β) :
    Decoded.andThen (.ok (.ok (a, input))) next = next a input := rfl

theorem length_putLengthPrefixedSlice_pos (value : Bytes) :
    0 < (putLengthPrefixedSlice value).length := by
  have hlen := Bytes.length_varintEncode_pos 4 (u32 value.length)
  rw [putLengthPrefixedSlice, List.length_append, putVarint32]
  omega

/-! ### Records -/

/-- Its strings have lengths that a length prefix can hold. -/
def BlobFileAddition.Short (a : BlobFileAddition) : Prop :=
  a.checksumMethod.length < 2 ^ 32 ∧ a.checksumValue.length < 2 ^ 32

theorem skipCustomFields_end (className : String) (fuel : ℕ) (rest : Bytes) :
    skipCustomFields className (fuel + 1) (putVarint32 0 ++ rest) = .ok (.ok ((), rest)) := by
  rw [skipCustomFields, getVarint32_putVarint32 (by decide), Decoded.after_some]
  rfl

theorem BlobFileAddition.decodeFrom_encodeTo {a : BlobFileAddition} (h : a.Short)
    (rest : Bytes) : decodeFrom (a.encodeTo ++ rest) = .ok (.ok (a, rest)) := by
  simp only [decodeFrom, encodeTo, List.append_assoc, getVarint64Of_putVarint64Of,
    Decoded.after_some, getString_put h.1, getString_put h.2, skipCustomFields_end,
    Decoded.andThen_ok]

theorem BlobFileGarbage.decodeFrom_encodeTo (g : BlobFileGarbage) (rest : Bytes) :
    decodeFrom (g.encodeTo ++ rest) = .ok (.ok (g, rest)) := by
  simp only [decodeFrom, encodeTo, List.append_assoc, getVarint64Of_putVarint64Of,
    Decoded.after_some, skipCustomFields_end, Decoded.andThen_ok]

theorem WalAddition.decodeTags_end (fuel : ℕ) (w : WalAddition) (rest : Bytes) :
    decodeTags (fuel + 1) w (putVarint32 1 ++ rest) = .ok (.ok (w, rest)) := by
  rw [decodeTags, getVarint32_putVarint32 (by decide), Decoded.after_some]
  rfl

theorem WalAddition.decodeFrom_encodeTo (w : WalAddition) (rest : Bytes) :
    decodeFrom (w.encodeTo ++ rest) = .ok (.ok (w, rest)) := by
  simp only [decodeFrom, encodeTo, List.append_assoc, getVarint64Of_putVarint64Of,
    Decoded.after_some]
  by_cases hsize : w.syncedSizeBytes = kUnknownWalSize
  · rw [if_neg (not_not.mpr hsize), List.nil_append, decodeTags_end]
    rw [← hsize]
  · rw [if_pos hsize, List.append_assoc, decodeTags, getVarint32_putVarint32 (by decide),
      Decoded.after_some, if_pos rfl, getVarint64Of_putVarint64Of, Decoded.after_some]
    obtain ⟨fuel, hfuel⟩ : ∃ fuel, (putVarint32 2 ++ (putVarint64Of w.syncedSizeBytes ++
        (putVarint32 1 ++ rest))).length = fuel + 1 := by
      refine Nat.exists_eq_add_one.mpr ?_
      rw [List.length_append]
      exact Nat.add_pos_left (Bytes.length_varintEncode_pos 4 _) _
    rw [hfuel, decodeTags_end]

/-! ### Files -/

namespace CustomFields

/-- The loop over custom fields ends on `input` with these fields, and leaves `rest`. -/
def Reads (c : CustomFields) (input : Bytes) (c' : CustomFields) (rest : Bytes) : Prop :=
  ∀ fuel, input.length < fuel → decodeLoop fuel c input = .ok (.ok (c', rest))

theorem reads_terminate (c : CustomFields) (rest : Bytes) :
    c.Reads (NewFileCustomTag.kTerminate.put ++ rest) c rest := by
  intro fuel hfuel
  obtain ⟨fuel, rfl⟩ := Nat.exists_eq_add_one.mpr (Nat.zero_lt_of_lt hfuel)
  rw [decodeLoop, NewFileCustomTag.getVarint32_put, Decoded.after_some, if_pos rfl]

/-- A field that is set, in front of others. -/
theorem reads_customField {c c' c'' : CustomFields} {t : NewFileCustomTag} {value input : Bytes}
    {rest : Bytes} (ht : t ≠ .kTerminate) (hv : value.length < 2 ^ 32)
    (hset : c.set value t = .ok c') (h : c'.Reads input c'' rest) :
    c.Reads (customField t value ++ input) c'' rest := by
  intro fuel hfuel
  obtain ⟨fuel, rfl⟩ := Nat.exists_eq_add_one.mpr (Nat.zero_lt_of_lt hfuel)
  have hcode : t.code ≠ NewFileCustomTag.kTerminate.code := by
    revert ht
    cases t <;> decide
  have hpos := length_putLengthPrefixedSlice_pos value
  rw [customField, List.append_assoc, List.length_append, List.length_append] at hfuel
  rw [customField, List.append_assoc, decodeLoop, NewFileCustomTag.getVarint32_put,
    Decoded.after_some, if_neg hcode, getString_put hv, Decoded.after_some,
    NewFileCustomTag.ofCode?_code]
  dsimp only
  rw [hset]
  exact h fuel (by omega)

/-- A field that is only written when `p` holds, and then sets what is there already when it
does not. -/
theorem reads_optional {c c'' : CustomFields} {t : NewFileCustomTag} {value input : Bytes}
    {rest : Bytes} (c' : CustomFields) (p : Prop) [Decidable p] (ht : t ≠ .kTerminate)
    (hv : value.length < 2 ^ 32) (hset : p → c.set value t = .ok c') (hskip : ¬p → c' = c) (h : c'.Reads input c'' rest) :
    c.Reads ((if p then customField t value else []) ++ input) c'' rest := by
  split_ifs with hp
  · exact reads_customField ht hv (hset hp) h
  · rw [List.nil_append, ← hskip hp]
    exact h

end CustomFields

theorem length_singleton_lt (b : UInt8) : [b].length < 2 ^ 32 := by
  rw [List.length_singleton]
  decide

theorem length_putVarint64Of_lt (n : UInt64) : (putVarint64Of n).length < 2 ^ 32 :=
  lt_of_le_of_lt (Bytes.length_varintEncode_le 9 _) (by decide)

theorem getVarint64Of_putVarint64Of_nil (n : UInt64) :
    getVarint64Of (putVarint64Of n) = some (n, []) := by
  have h := getVarint64Of_putVarint64Of n []
  rwa [List.append_nil] at h

theorem getFixed64_putFixed64_nil (n : UInt64) : getFixed64 (putFixed64 n) = some (n, []) := by
  have h := getFixed64_putFixed64 n []
  rwa [List.append_nil] at h

/-- Its strings have lengths that a length prefix can hold. -/
structure FileMetaData.Short (f : FileMetaData) : Prop where
  smallest : f.smallest.length < 2 ^ 32
  largest : f.largest.length < 2 ^ 32
  fileChecksum : f.fileChecksum.length < 2 ^ 32
  fileChecksumFuncName : f.fileChecksumFuncName.length < 2 ^ 32

/-- Its bounds are internal keys. -/
def FileMetaData.Valid (f : FileMetaData) : Prop :=
  internalKeyValid f.smallest ∧ internalKeyValid f.largest

theorem FileDescriptor.getPathId_le (fd : FileDescriptor) : fd.getPathId.toNat ≤ 3 := by
  have hlt := fd.packedNumberAndPathId.toNat_lt
  have hdiv : (UInt64.ofNat (kFileNumberMask + 1)).toNat = 2 ^ 62 := rfl
  rw [getPathId, UInt64.toNat_toUInt32, UInt64.toNat_div, hdiv]
  omega

theorem FileDescriptor.create_get (fd : FileDescriptor) :
    create fd.getNumber fd.getPathId fd.fileSize fd.smallestSeqno fd.largestSeqno = fd := by
  have hlt := fd.packedNumberAndPathId.toNat_lt
  have hdiv : (UInt64.ofNat (kFileNumberMask + 1)).toNat = 2 ^ 62 := rfl
  have hmask : (UInt64.ofNat kFileNumberMask).toNat = 2 ^ 62 - 1 := rfl
  have hpack : packFileNumberAndPathId fd.getNumber fd.getPathId = fd.packedNumberAndPathId := by
    apply UInt64.toNat_inj.mp
    have hid : fd.getPathId.toUInt64.toNat = fd.packedNumberAndPathId.toNat / 2 ^ 62 := by
      rw [getPathId, UInt32.toNat_toUInt64, UInt64.toNat_toUInt32, UInt64.toNat_div, hdiv]
      omega
    have hhigh : (fd.getPathId.toUInt64 * UInt64.ofNat (kFileNumberMask + 1)).toNat =
        2 ^ 62 * (fd.packedNumberAndPathId.toNat / 2 ^ 62) := by
      rw [UInt64.toNat_mul, hid, hdiv]
      omega
    rw [packFileNumberAndPathId, UInt64.toNat_or, hhigh, getNumber, UInt64.toNat_and, hmask,
      Nat.and_two_pow_sub_one_eq_mod, Nat.or_comm,
      ← Nat.two_pow_add_eq_or_of_lt (Nat.mod_lt _ (by decide)), Nat.div_add_mod]
  rw [create, hpack]

/-- The file as it is known when only the number of a blob file is still to be read. -/
def FileMetaData.beforeBlob (f : FileMetaData) : FileMetaData :=
  { f with fd := .withoutSeqnos 0 0 0, oldestBlobFileNumber := kInvalidBlobFileNumber }

theorem FileMetaData.customFields_reads {f : FileMetaData} (h : f.Short)
    (minLogNumberToKeep : Option UInt64) (rest : Bytes) :
    CustomFields.Reads { file := { smallest := f.smallest, largest := f.largest } }
      (f.customFields minLogNumberToKeep ++ rest)
      ⟨{ f with fd := .withoutSeqnos 0 0 0 }, f.fd.getPathId, minLogNumberToKeep⟩ rest := by
  simp only [customFields, List.append_assoc]
  apply CustomFields.reads_customField (by decide) (length_putVarint64Of_lt _)
    (by rw [CustomFields.set, getVarint64Of_putVarint64Of_nil])
  apply CustomFields.reads_customField (by decide) (length_putVarint64Of_lt _)
    (by rw [CustomFields.set, getVarint64Of_putVarint64Of_nil])
  apply CustomFields.reads_customField (by decide) h.fileChecksum rfl
  apply CustomFields.reads_customField (by decide) h.fileChecksumFuncName rfl
  apply CustomFields.reads_optional ⟨_, f.fd.getPathId, none⟩ (f.fd.getPathId ≠ 0) (by decide)
    (length_singleton_lt _)
  · intro _
    have hle := f.fd.getPathId_le
    have hbyte : f.fd.getPathId.toUInt8.toNat = f.fd.getPathId.toNat := by
      rw [UInt32.toNat_toUInt8]
      omega
    have hback : f.fd.getPathId.toUInt8.toUInt32 = f.fd.getPathId := by
      apply UInt32.toNat_inj.mp
      rw [UInt8.toNat_toUInt32, hbyte]
    dsimp only [CustomFields.set]
    rw [if_pos (by omega), hback]
  · intro hzero
    rw [not_not.mp hzero]
  apply CustomFields.reads_optional ⟨f.beforeBlob, f.fd.getPathId, none⟩
    (f.markedForCompaction = true) (by decide) (length_singleton_lt _)
  · intro hmarked
    rw [CustomFields.set, FileMetaData.beforeBlob, hmarked]
    rfl
  · intro hmarked
    rw [Bool.not_eq_true] at hmarked
    rw [FileMetaData.beforeBlob, hmarked]
  have hblob : CustomFields.Reads ⟨f.beforeBlob, f.fd.getPathId, minLogNumberToKeep⟩
      ((if f.oldestBlobFileNumber ≠ kInvalidBlobFileNumber then
        customField .kOldestBlobFileNumber (putVarint64Of f.oldestBlobFileNumber) else []) ++
        (NewFileCustomTag.kTerminate.put ++ rest))
      ⟨{ f with fd := .withoutSeqnos 0 0 0 }, f.fd.getPathId, minLogNumberToKeep⟩ rest := by
    apply CustomFields.reads_optional ⟨{ f with fd := .withoutSeqnos 0 0 0 }, f.fd.getPathId,
      minLogNumberToKeep⟩ _ (by decide) (length_putVarint64Of_lt _)
    · intro _
      rw [CustomFields.set, getVarint64Of_putVarint64Of_nil]
      rfl
    · intro hinvalid
      rw [FileMetaData.beforeBlob, ← not_not.mp hinvalid]
    · exact CustomFields.reads_terminate _ rest
  cases minLogNumberToKeep with
  | none => exact hblob
  | some number =>
      exact CustomFields.reads_customField (by decide)
        (show (putFixed64 number).length < 2 ^ 32 by
          rw [putFixed64, Bytes.length_leEncode]
          decide)
        (by rw [CustomFields.set, getFixed64_putFixed64_nil]) hblob

/-- A file comes back as it was, with the number of a log that travels with it. -/
theorem decodeNewFile4From_encodeTo {f : FileMetaData} (h : f.Short) (hv : f.Valid)
    (level : Int32) (minLogNumberToKeep : Option UInt64) (rest : Bytes) :
    decodeNewFile4From (f.encodeTo level minLogNumberToKeep ++ rest) =
      .ok (.ok (((level, f), minLogNumberToKeep), rest)) := by
  simp only [decodeNewFile4From, FileMetaData.encodeTo, List.append_assoc,
    getLevel_putVarint32Of, Decoded.after_some, getVarint64Of_putVarint64Of,
    getInternalKey_put h.smallest hv.1, getInternalKey_put h.largest hv.2]
  rw [f.customFields_reads h minLogNumberToKeep rest _ (Nat.lt_succ_self _),
    Decoded.andThen_ok]
  dsimp only
  rw [FileDescriptor.create_get]

end Tweezer
