import Tweezer.VersionEditCodec

/-!
# Edits with secrets

When `DecodeFrom` gives back the edit that was encoded, and what it makes of an edit whose
secret fields are cut short or have other lengths.
-/

namespace Tweezer

/-! ### What is decoded has short strings -/

theorem Slice.length_toBytes_le (s : Slice) : s.toBytes.length ≤ s.size := by
  rw [toBytes, List.length_take]
  exact Nat.min_le_left _ _

theorem Slice.size_lt_of_getLengthPrefixed {input rest : Bytes} {str : Slice}
    (h : Slice.getLengthPrefixed input = (some str, rest)) : str.size < 2 ^ 32 := by
  unfold Slice.getLengthPrefixed at h
  cases hlen : getVarint32 input with
  | none =>
      rw [hlen] at h
      cases h
  | some r =>
      rw [hlen] at h
      dsimp only at h
      split_ifs at h
      · obtain ⟨n, hn⟩ := Option.map_eq_some_iff.mp hlen
        cases h
        rw [← hn.2]
        exact Nat.mod_lt _ (by decide)
      · cases h

theorem length_getString {input rest s : Bytes} (h : getString input = some (s, rest)) :
    s.length < 2 ^ 32 := by
  unfold getString at h
  cases hslice : Slice.getLengthPrefixed input with
  | mk str rest' =>
      rw [hslice] at h
      cases str with
      | none => cases h
      | some str =>
          cases h
          exact lt_of_le_of_lt str.length_toBytes_le (Slice.size_lt_of_getLengthPrefixed hslice)

theorem length_getInternalKey {input rest key : Bytes}
    (h : getInternalKey input = some (key, rest)) : key.length < 2 ^ 32 := by
  obtain ⟨⟨key', rest'⟩, hkey, h⟩ := Option.bind_eq_some_iff.mp h
  dsimp only at h
  split_ifs at h with hv
  cases h
  exact length_getString hkey

theorem Decoded.after_eq_ok {α β : Type} {msg : String} {r : Option (α × Bytes)}
    {next : α → Bytes → Decoded β} {b : β × Bytes}
    (h : Decoded.after msg r next = .ok (.ok b)) :
    ∃ a input, r = some (a, input) ∧ next a input = .ok (.ok b) := by
  cases r with
  | none => cases h
  | some r => exact ⟨r.1, r.2, rfl, h⟩

theorem Decoded.andThen_eq_ok {α β : Type} {r : Decoded α} {next : α → Bytes → Decoded β}
    {b : β × Bytes} (h : r.andThen next = .ok (.ok b)) :
    ∃ a input, r = .ok (.ok (a, input)) ∧ next a input = .ok (.ok b) := by
  cases r with
  | error e => cases h
  | ok r =>
      cases r with
      | error msg => cases h
      | ok r => exact ⟨r.1, r.2, rfl, h⟩

theorem BlobFileAddition.short_of_decodeFrom {input rest : Bytes} {a : BlobFileAddition}
    (h : decodeFrom input = .ok (.ok (a, rest))) : a.Short := by
  obtain ⟨number, input, -, h⟩ := Decoded.after_eq_ok h
  obtain ⟨count, input, -, h⟩ := Decoded.after_eq_ok h
  obtain ⟨bytes, input, -, h⟩ := Decoded.after_eq_ok h
  obtain ⟨method, input, hmethod, h⟩ := Decoded.after_eq_ok h
  obtain ⟨value, input, hvalue, h⟩ := Decoded.after_eq_ok h
  obtain ⟨_, input, -, h⟩ := Decoded.andThen_eq_ok h
  cases h
  exact ⟨length_getString hmethod, length_getString hvalue⟩

namespace CustomFields

theorem short_of_set {c c' : CustomFields} {field : Bytes} {t : NewFileCustomTag}
    (hc : c.file.Short) (hfield : field.length < 2 ^ 32) (h : c.set field t = .ok c') :
    c'.file.Short := by
  cases t <;> unfold set at h
  case kFileChecksum =>
    cases h
    exact { hc with fileChecksum := hfield }
  case kFileChecksumFuncName =>
    cases h
    exact { hc with fileChecksumFuncName := hfield }
  case kTerminate =>
    cases h
    exact hc
  all_goals
    dsimp only at h
    split at h
    · try split_ifs at h
      all_goals cases h
      all_goals exact ⟨hc.smallest, hc.largest, hc.fileChecksum, hc.fileChecksumFuncName⟩
    · cases h

theorem short_of_decodeLoop {fuel : ℕ} {c c' : CustomFields} {input rest : Bytes}
    (hc : c.file.Short) (h : decodeLoop fuel c input = .ok (.ok (c', rest))) :
    c'.file.Short := by
  induction fuel generalizing c input with
  | zero => cases h
  | succ fuel ih =>
      obtain ⟨tag, input, -, h⟩ := Decoded.after_eq_ok h
      by_cases hend : tag = NewFileCustomTag.kTerminate.code
      · rw [if_pos hend] at h
        cases h
        exact hc
      · rw [if_neg hend] at h
        obtain ⟨field, input, hfield, h⟩ := Decoded.after_eq_ok h
        split at h
        · split at h
          next hset => exact ih (short_of_set hc (length_getString hfield) hset) h
          next => cases h
        · split_ifs at h
          · cases h
          · exact ih hc h

end CustomFields

theorem FileMetaData.Short.withFd {f : FileMetaData} (h : f.Short) (fd : FileDescriptor) :
    FileMetaData.Short { f with fd := fd } :=
  ⟨h.smallest, h.largest, h.fileChecksum, h.fileChecksumFuncName⟩

theorem FileMetaData.short_of_bounds {smallest largest : Bytes} (hs : smallest.length < 2 ^ 32)
    (hl : largest.length < 2 ^ 32) :
    FileMetaData.Short { smallest := smallest, largest := largest } :=
  ⟨hs, hl, show 0 < 2 ^ 32 by decide, show 7 < 2 ^ 32 by decide⟩

theorem short_of_decodeNewFile4From {input rest : Bytes}
    {r : (Int32 × FileMetaData) × Option UInt64}
    (h : decodeNewFile4From input = .ok (.ok (r, rest))) : r.1.2.Short := by
  obtain ⟨level, input, -, h⟩ := Decoded.after_eq_ok h
  obtain ⟨number, input, -, h⟩ := Decoded.after_eq_ok h
  obtain ⟨fileSize, input, -, h⟩ := Decoded.after_eq_ok h
  obtain ⟨smallest, input, hsmallest, h⟩ := Decoded.after_eq_ok h
  obtain ⟨largest, input, hlargest, h⟩ := Decoded.after_eq_ok h
  obtain ⟨smallestSeqno, input, -, h⟩ := Decoded.after_eq_ok h
  obtain ⟨largestSeqno, input, -, h⟩ := Decoded.after_eq_ok h
  obtain ⟨c, input, hc, h⟩ := Decoded.andThen_eq_ok h
  have hshort := CustomFields.short_of_decodeLoop (FileMetaData.short_of_bounds
    (length_getInternalKey hsmallest) (length_getInternalKey hlargest)) hc
  cases h
  exact hshort.withFd _

theorem short_of_decodeNewFile {withPathId withSeqnos : Bool} {input rest : Bytes}
    {r : Int32 × FileMetaData} (h : decodeNewFile withPathId withSeqnos input = some (r, rest)) :
    r.2.Short := by
  simp only [decodeNewFile, Option.bind_eq_bind, Option.bind_eq_some_iff] at h
  obtain ⟨_, -, _, -, _, -, _, -, ⟨smallest, _⟩, hs, ⟨largest, _⟩, hl, _, -, h⟩ := h
  cases h
  exact (FileMetaData.short_of_bounds (length_getInternalKey hs)
    (length_getInternalKey hl)).withFd _

namespace VersionEdit

open DecodeState

theorem field_eq_ok {α : Type} {s s' : DecodeState} {r : Option (α × Bytes)} {msg : String}
    {set : α → VersionEdit → VersionEdit} (h : s.field r msg set = .ok (.ok s')) :
    ∃ a input, r = some (a, input) ∧ s'.edit = set a s.edit := by
  cases r with
  | none => cases h
  | some r =>
      cases h
      exact ⟨r.1, r.2, rfl, rfl⟩

theorem strField_eq_ok {s s' : DecodeState} {msg : String} {set : Bytes → VersionEdit → VersionEdit}
    (h : s.strField msg set = .ok (.ok s')) :
    ∃ str : Bytes, str.length < 2 ^ 32 ∧ s'.edit = set str s.edit := by
  unfold strField at h
  cases hslice : Slice.getLengthPrefixed s.input with
  | mk str input =>
      rw [hslice] at h
      cases str with
      | none => cases h
      | some str =>
          cases h
          exact ⟨str.toBytes, lt_of_le_of_lt str.length_toBytes_le
            (Slice.size_lt_of_getLengthPrefixed hslice), rfl⟩

theorem record_eq_ok {α : Type} {s s' : DecodeState} {r : Decoded α} {prepend : String}
    {set : α → VersionEdit → VersionEdit} (h : s.record r prepend set = .ok (.ok s')) :
    ∃ a input, r = .ok (.ok (a, input)) ∧ s'.edit = set a s.edit := by
  cases r with
  | error e => cases h
  | ok r =>
      cases r with
      | error msg => cases h
      | ok r =>
          cases h
          exact ⟨r.1, r.2, rfl, rfl⟩

/-- The secret fields leave the standard ones alone. -/
theorem fixed64_toEditFields (s : DecodeState) {set : UInt64 → VersionEdit → VersionEdit}
    (hset : ∀ n e, (set n e).toEditFields = e.toEditFields) :
    (s.fixed64 set).edit.toEditFields = s.edit.toEditFields := by
  unfold fixed64
  split
  · exact hset _ _
  · rfl

theorem copy_toEditFields {s s' : DecodeState} {n : ℕ} {set : Octets n → VersionEdit → VersionEdit}
    (hset : ∀ b e, (set b e).toEditFields = e.toEditFields) (h : s.copy n set = .ok s') :
    s'.edit.toEditFields = s.edit.toEditFields := by
  unfold copy at h
  dsimp only at h
  split at h
  · cases h
    exact hset _ _
  · cases h

theorem map_eq_ok {s' : DecodeState} {x : Outcome DecodeState}
    (h : (x.map .ok : Step) = .ok (.ok s')) : x = .ok s' := by
  cases x with
  | error e => cases h
  | ok s =>
      cases h
      rfl

theorem logkeyAndHash_toEditFields {s s' : DecodeState} (h : s.logkeyAndHash = .ok s') :
    s'.edit.toEditFields = s.edit.toEditFields := by
  obtain ⟨s₁, hkey, hhash⟩ := Outcome.bind_eq_ok.mp h
  rw [copy_toEditFields (fun _ _ => by rfl) hhash, copy_toEditFields (fun _ _ => by rfl) hkey,
    fixed64_toEditFields _ fun _ _ => by rfl]

theorem sstAdd_toEditFields {s s' : DecodeState} (h : s.sstAdd = .ok s') :
    s'.edit.toEditFields = s.edit.toEditFields := by
  unfold sstAdd at h
  dsimp only at h
  rw [copy_toEditFields (fun _ _ => by rfl) h, fixed64_toEditFields _ fun _ _ => by rfl]

theorem sstDelete_toEditFields (s : DecodeState) :
    s.sstDelete.edit.toEditFields = s.edit.toEditFields :=
  fixed64_toEditFields _ fun _ _ => by rfl

theorem unknown_edit {s s' : DecodeState} {tag : ℕ} (h : s.unknown tag = .ok (.ok s')) :
    s'.edit = s.edit := by
  unfold unknown at h
  split_ifs at h
  · split at h
    · split_ifs at h
      · cases h
        rfl
      · cases h
    · cases h
  · cases h

theorem short_addFile {e : VersionEdit} {f : Int32 × FileMetaData} (he : e.Short)
    (hf : f.2.Short) : (addFile f e).Short := by
  refine ⟨he.dbId, he.comparator, ?_, he.blobFileAdditions, he.columnFamilyAdd⟩
  intro file hfile
  rcases List.mem_append.mp hfile with hfile | hfile
  · exact he.newFiles file hfile
  · rw [List.mem_singleton.mp hfile]
    exact hf

/-- A turn of the loop keeps to short strings. -/
theorem short_of_decodeTag {s s' : DecodeState} {t : Tag} (hs : s.edit.Short)
    (h : s.decodeTag t = .ok (.ok s')) : s'.edit.Short := by
  have hstring : ∀ str : Bytes, str.length < 2 ^ 32 → ∀ x ∈ some str, x.length < 2 ^ 32 := by
    intro str hstr x hx
    cases hx
    exact hstr
  cases t <;> rw [decodeTag] at h
  case kDbId =>
    obtain ⟨str, hstr, heq⟩ := strField_eq_ok h
    rw [heq]
    exact { hs with dbId := hstring str hstr }
  case kComparator =>
    obtain ⟨str, hstr, heq⟩ := strField_eq_ok h
    rw [heq]
    exact { hs with comparator := hstring str hstr }
  case kColumnFamilyAdd =>
    obtain ⟨str, hstr, heq⟩ := strField_eq_ok h
    rw [heq]
    exact { hs with columnFamilyAdd := hstring str hstr }
  case kNewFile4 =>
    obtain ⟨r, input, hr, heq⟩ := record_eq_ok h
    rw [heq]
    exact short_addFile { hs with } (short_of_decodeNewFile4From hr)
  case kNewFile | kNewFile2 | kNewFile3 =>
    obtain ⟨f, input, hf, heq⟩ := field_eq_ok h
    rw [heq]
    exact short_addFile hs (short_of_decodeNewFile hf)
  case kBlobFileAddition =>
    obtain ⟨a, input, ha, heq⟩ := record_eq_ok h
    rw [heq]
    refine { hs with blobFileAdditions := ?_ }
    intro x hx
    rcases List.mem_append.mp hx with hx | hx
    · exact hs.blobFileAdditions x hx
    · rw [List.mem_singleton.mp hx]
      exact BlobFileAddition.short_of_decodeFrom ha
  case kBlobFileGarbage | kWalAddition | kWalDeletion =>
    obtain ⟨a, input, -, heq⟩ := record_eq_ok h
    rw [heq]
    exact { hs with }
  case kColumnFamilyDrop =>
    cases h
    exact { hs with }
  case kLogkeyAndHash =>
    rw [logkeyAndHash_toEditFields (map_eq_ok h)]
    exact hs
  case kSSTAdd =>
    rw [sstAdd_toEditFields (map_eq_ok h)]
    exact hs
  case kSSTDelete =>
    cases h
    rw [sstDelete_toEditFields]
    exact hs
  all_goals
    obtain ⟨a, input, -, heq⟩ := field_eq_ok h
    rw [heq]
    exact { hs with }

theorem short_of_decodeLoop {fuel : ℕ} {s : DecodeState} {e : VersionEdit} (hs : s.edit.Short)
    (h : decodeLoop fuel s = .ok (.ok e)) : e.Short := by
  induction fuel generalizing s with
  | zero => cases h
  | succ fuel ih =>
      unfold decodeLoop at h
      split at h
      · split_ifs at h
        · cases h
          exact hs
        · cases h
      · split at h
        next hfield =>
          unfold decodeField at hfield
          split at hfield
          · exact ih (short_of_decodeTag (by exact hs) hfield) h
          · have hedit := unknown_edit hfield
            exact ih (hedit ▸ hs) h
        next => cases h
        next => cases h

/-- Whatever is decoded, its strings are short. -/
theorem short_of_decodeFrom {d e : VersionEdit} {b : Bytes} (h : d.decodeFrom b = .ok (.ok e)) :
    e.Short := by
  apply short_of_decodeLoop _ h
  constructor <;> rintro _ (_ | _)

/-! ### Reading back -/

/-- The same members are set, to the same values. -/
def SameFields (a b : VersionEdit) : Prop :=
  a.toEditFields = b.toEditFields ∧ a.secretFields = b.secretFields

/-- Decoding into `d` gives back the edit `e` that `b` encodes. -/
def RoundTrips (d e : VersionEdit) (b : Bytes) : Prop :=
  ∃ e', d.decodeFrom b = .ok (.ok e') ∧ e'.SameFields e

/-- The secret members that are set in `d` are set in `e` too. -/
def SecretsWithin (d e : VersionEdit) : Prop :=
  (d.isLogSecret → e.isLogSecret) ∧ (d.isSstKey → e.isSstKey) ∧ (d.isSstDelete → e.isSstDelete)

/-- The number of the oldest log to keep comes with a file that carries it. -/
def MinLogCarried (e : VersionEdit) : Prop := e.minLogNumberToKeep.isSome → e.newFiles ≠ []

theorem foldl_setSecret_toEditFields (fs : List SecretField) (e : VersionEdit) :
    (fs.foldl setSecret e).toEditFields = e.toEditFields := by
  induction fs generalizing e with
  | nil => rfl
  | cons f fs ih =>
      rw [List.foldl_cons, ih]
      cases f <;> rfl

theorem restored_toEditFields (d e : VersionEdit) :
    (d.restored e).toEditFields = e.toEditFields.written := by
  rw [restored, foldl_setSecret_toEditFields]
  rfl

theorem written_eq_self_iff (e : VersionEdit) :
    e.toEditFields.written = e.toEditFields ↔ e.MinLogCarried := by
  unfold EditFields.written MinLogCarried
  constructor
  · intro h hmin hnil
    rw [if_pos hnil] at h
    rw [← h] at hmin
    cases hmin
  · intro h
    split_ifs with hnil
    · have hnone : e.minLogNumberToKeep = none := by
        by_contra hne
        exact h (Option.isSome_iff_ne_none.mpr hne) hnil
      rw [← hnone]
    · rfl

theorem restored_secretFields (d e : VersionEdit) :
    (d.restored e).secretFields = e.secretFields ↔ d.SecretsWithin e := by
  unfold SecretsWithin restored secretFields
  cases hlog : e.isLogSecret <;> cases hkey : e.isSstKey <;> cases hdel : e.isSstDelete <;>
    cases hlog' : d.isLogSecret <;> cases hkey' : d.isSstKey <;> cases hdel' : d.isSstDelete <;>
    simp [setSecret, setFields, addSstKey, deleteSstKey, hlog', hkey', hdel']

/-- Exactly when the edit comes back. -/
theorem roundTrips_iff (d : VersionEdit) {e : VersionEdit} {b : Bytes} (h : e.encodeTo = some b) :
    RoundTrips d e b ↔ e.Short ∧ e.MinLogCarried ∧ d.SecretsWithin e := by
  constructor
  · rintro ⟨e', hdec, hstd, hsec⟩
    have hs : e.Short := hstd ▸ short_of_decodeFrom hdec
    rw [decodeFrom_encodeTo d h hs] at hdec
    cases hdec
    rw [restored_toEditFields] at hstd
    exact ⟨hs, (written_eq_self_iff e).mp hstd, (restored_secretFields d e).mp hsec⟩
  · rintro ⟨hs, hmin, hsec⟩
    refine ⟨d.restored e, decodeFrom_encodeTo d h hs, ?_, (restored_secretFields d e).mpr hsec⟩
    rw [restored_toEditFields]
    exact (written_eq_self_iff e).mpr hmin

/-! ### Malformed secret fields -/

/-- A secret field in which a string has another length than it is copied with. -/
inductive OtherLength : SecretField → Bytes → Prop
  | uniqueKey {secret : LogSecret} {key : Bytes} (hne : key.length ≠ 32)
      (hs : key.length < 2 ^ 32) :
      OtherLength (.logkeyAndHash secret) (Tag.kLogkeyAndHash.put ++ (putFixed64 secret.logNum ++
        (putLengthPrefixedSlice key ++ putLengthPrefixedSlice secret.uniqueHash.val)))
  | uniqueHash {secret : LogSecret} {hash : Bytes} (hne : hash.length ≠ 16)
      (hs : hash.length < 2 ^ 32) :
      OtherLength (.logkeyAndHash secret) (Tag.kLogkeyAndHash.put ++ (putFixed64 secret.logNum ++
        (putLengthPrefixedSlice secret.uniqueKey.val ++ putLengthPrefixedSlice hash)))
  | sstKey {fileNumber : UInt64} {sstKey : Key} {key : Bytes} (hne : key.length ≠ 32)
      (hs : key.length < 2 ^ 32) :
      OtherLength (.sstAdd fileNumber sstKey)
        (Tag.kSSTAdd.put ++ (putFixed64 fileNumber ++ putLengthPrefixedSlice key))

/-- The encoding of `e`, cut inside a secret field or with a string of another length in one. -/
inductive Malformed (e : VersionEdit) : Bytes → Prop
  | cut {before after : List SecretField} {f : SecretField} {k : ℕ}
      (hf : e.secretFields = before ++ f :: after) (hpos : 0 < k) (hk : k < f.encodeTo.length) :
      Malformed e (e.toEditFields.encodeTo ++
        (before.flatMap SecretField.encodeTo ++ f.encodeTo.take k))
  | otherLength {before after : List SecretField} {f : SecretField} {g : Bytes}
      (hf : e.secretFields = before ++ f :: after) (hg : OtherLength f g) :
      Malformed e (e.toEditFields.encodeTo ++
        (before.flatMap SecretField.encodeTo ++ (g ++ after.flatMap SecretField.encodeTo)))

/-- Decoding into `d` refuses every malformed encoding of `e`, within its bounds. -/
def RejectsMalformed (d e : VersionEdit) : Prop :=
  ∀ b, Malformed e b → ∃ msg, d.decodeFrom b = .ok (.error msg)

theorem copy_nil (e : VersionEdit) (str : Slice) (n : ℕ) (set : Octets n → VersionEdit → VersionEdit) :
    (∃ x, copy ⟨e, [], str⟩ n set = .error x) ∨
      ∃ e', copy ⟨e, [], str⟩ n set = .ok ⟨e', [], str⟩ := by
  have hnone : Slice.getLengthPrefixed [] = (none, []) := rfl
  unfold copy
  rw [hnone]
  dsimp only [Option.getD_none]
  cases str.data.fetchOctets 0 n with
  | error x => exact Or.inl ⟨x, rfl⟩
  | ok a => exact Or.inr ⟨set a e, rfl⟩

/-- Behind the tag of a secret field the end of the input goes by unnoticed. -/
theorem decodeTag_secret_nil (f : SecretField) (e : VersionEdit) (str : Slice) :
    (∃ x, decodeTag ⟨e, [], str⟩ f.tag = .error x) ∨
      ∃ e', decodeTag ⟨e, [], str⟩ f.tag = .ok (.ok ⟨e', [], str⟩) := by
  have hfixed : ∀ e set, fixed64 ⟨e, [], str⟩ set = ⟨e, [], str⟩ := fun _ _ => rfl
  cases f with
  | logkeyAndHash secret =>
      simp only [SecretField.tag, decodeTag, logkeyAndHash, hfixed]
      rcases copy_nil { e with isLogSecret := true } str 32 fun key e =>
        { e with logSecret := { e.logSecret with uniqueKey := key } } with ⟨x, hx⟩ | ⟨e₁, h₁⟩
      · rw [hx]
        exact Or.inl ⟨x, rfl⟩
      · rw [h₁, Outcome.ok_bind]
        rcases copy_nil e₁ str 16 fun hash e =>
          { e with logSecret := { e.logSecret with uniqueHash := hash } } with ⟨x, hx⟩ | ⟨e₂, h₂⟩
        · rw [hx]
          exact Or.inl ⟨x, rfl⟩
        · rw [h₂]
          exact Or.inr ⟨e₂, rfl⟩
  | sstAdd fileNumber sstKey =>
      simp only [SecretField.tag, decodeTag, sstAdd, hfixed]
      rcases copy_nil { e with isSstKey := true } str 32 fun key e => { e with sstKey := key }
        with ⟨x, hx⟩ | ⟨e₁, h₁⟩
      · rw [hx]
        exact Or.inl ⟨x, rfl⟩
      · rw [h₁]
        exact Or.inr ⟨e₁, rfl⟩
  | sstDelete fileNumber => exact Or.inr ⟨_, rfl⟩

/-- An edit that ends behind the tag of a secret field is not refused. -/
theorem decodeFrom_cutBehindTag {d e : VersionEdit} {b : Bytes} (h : Reads d.clear b e)
    (f : SecretField) (msg : String) : d.decodeFrom (b ++ f.tag.put) ≠ .ok (.error msg) := by
  obtain ⟨str, hlead⟩ := h f.tag.put .empty
  obtain ⟨fuel, hfuel, heq⟩ := hlead ((b ++ f.tag.put).length + 1) (Nat.lt_succ_self _)
  obtain ⟨fuel, rfl⟩ := Nat.exists_eq_add_one.mpr (Nat.zero_lt_of_lt hfuel)
  have htag : getVarint32 f.tag.put = some (f.tag.code, []) := by
    have hput := f.tag.getVarint32_put []
    rwa [List.append_nil] at hput
  have hpos : 0 < f.tag.put.length := Bytes.length_varintEncode_pos 4 _
  rw [decodeFrom, heq, decodeLoop, htag]
  dsimp only at hfuel ⊢
  rw [decodeField_code]
  rcases decodeTag_secret_nil f e str with ⟨x, hx⟩ | ⟨e', he'⟩
  · rw [hx]
    rintro ⟨⟩
  · obtain ⟨fuel, rfl⟩ : ∃ n, fuel = n + 1 := Nat.exists_eq_add_one.mpr (by omega)
    rw [he']
    rintro ⟨⟩

theorem length_secretTag (f : SecretField) : f.tag.put.length = 2 := by
  cases f <;> rw [SecretField.tag] <;> decide

theorem length_secretBody (f : SecretField) : 0 < f.body.length := by
  have hfixed : ∀ n : UInt64, (putFixed64 n).length = 8 := fun n => Bytes.length_leEncode 8 _
  cases f with
  | logkeyAndHash secret =>
      rw [SecretField.body, List.length_append, hfixed]
      omega
  | sstAdd fileNumber sstKey =>
      rw [SecretField.body, List.length_append, hfixed]
      omega
  | sstDelete fileNumber =>
      rw [SecretField.body, hfixed]
      decide

/-- An edit with a secret field has malformed encodings that are not refused. -/
theorem secretFields_eq_nil_of_rejects {d e : VersionEdit} {b : Bytes}
    (h : e.encodeTo = some b) (hs : e.Short) (hreject : RejectsMalformed d e) :
    e.secretFields = [] := by
  by_contra hne
  obtain ⟨f, after, hf⟩ := List.exists_cons_of_ne_nil hne
  have htake : f.encodeTo.take 2 = f.tag.put := by
    rw [SecretField.encodeTo, ← length_secretTag f, List.take_left]
  have hlt : 2 < f.encodeTo.length := by
    have hbody := length_secretBody f
    rw [SecretField.encodeTo, List.length_append, length_secretTag]
    omega
  have hcut := @Malformed.cut e [] after f 2 hf (by decide) hlt
  rw [List.flatMap_nil, List.nil_append, htake] at hcut
  obtain ⟨msg, hmsg⟩ := hreject _ hcut
  exact decodeFrom_cutBehindTag (reads_editFields d hs (encodeTo_eq_some h).1) f msg hmsg

theorem secretFields_eq_nil_iff (e : VersionEdit) :
    e.secretFields = [] ↔ e.isLogSecret = false ∧ e.isSstKey = false ∧ e.isSstDelete = false := by
  unfold secretFields
  cases e.isLogSecret <;> cases e.isSstKey <;> cases e.isSstDelete <;> simp

/-- Decoding gives back the edit and refuses its malformed encodings exactly when neither the
edit nor the object that decodes it has a secret, a key or the deletion of one, as long as the
standard fields can be written at all. -/
theorem codec_iff (d e : VersionEdit) (b : Bytes) (h : e.encodeTo = some b) :
    RoundTrips d e b ∧ RejectsMalformed d e ↔
      e.Short ∧ e.MinLogCarried ∧ e.secretFields = [] ∧ d.secretFields = [] := by
  rw [roundTrips_iff d h]
  constructor
  · rintro ⟨⟨hs, hmin, hwithin⟩, hreject⟩
    have hnil := secretFields_eq_nil_of_rejects h hs hreject
    refine ⟨hs, hmin, hnil, ?_⟩
    obtain ⟨hlog, hkey, hdel⟩ := (secretFields_eq_nil_iff e).mp hnil
    rw [SecretsWithin, hlog, hkey, hdel] at hwithin
    rw [secretFields_eq_nil_iff]
    exact ⟨Bool.eq_false_iff.mpr fun h => Bool.false_ne_true (hwithin.1 h),
      Bool.eq_false_iff.mpr fun h => Bool.false_ne_true (hwithin.2.1 h),
      Bool.eq_false_iff.mpr fun h => Bool.false_ne_true (hwithin.2.2 h)⟩
  · rintro ⟨hs, hmin, hnil, hd⟩
    obtain ⟨hlog, hkey, hdel⟩ := (secretFields_eq_nil_iff d).mp hd
    refine ⟨⟨hs, hmin, by simp [SecretsWithin, hlog, hkey, hdel]⟩, ?_⟩
    intro b hb
    cases hb with
    | cut hf => exact absurd (hnil.symm.trans hf) (by simp)
    | otherLength hf => exact absurd (hnil.symm.trans hf) (by simp)

/-- An edit without fields, in an object that holds the key of a table. -/
def sampleEdit : VersionEdit :=
  { logSecret := ⟨0, sampleKey, sampleMac⟩, sstKey := sampleKey, sstFileNumber := 0,
    sstDeleteFileNumber := 0 }

/-- An object that decoded the key of a table before gives the key to the next edit. -/
theorem staleKey_not_roundTrips :
    ¬(RoundTrips (sampleEdit.addSstKey 7 sampleKey) sampleEdit [] ∧
      RejectsMalformed (sampleEdit.addSstKey 7 sampleKey) sampleEdit) := by
  rintro ⟨⟨e', hdec, -, hsec⟩, -⟩
  have hrun : (sampleEdit.addSstKey 7 sampleKey).decodeFrom [] =
      .ok (.ok (sampleEdit.addSstKey 7 sampleKey)) := rfl
  rw [hrun] at hdec
  cases hdec
  cases hsec

theorem codec_iff_staleKey :
    RoundTrips (sampleEdit.addSstKey 7 sampleKey) sampleEdit [] ∧
        RejectsMalformed (sampleEdit.addSstKey 7 sampleKey) sampleEdit ↔
      sampleEdit.Short ∧ sampleEdit.MinLogCarried ∧ sampleEdit.secretFields = [] ∧
        (sampleEdit.addSstKey 7 sampleKey).secretFields = [] :=
  codec_iff (sampleEdit.addSstKey 7 sampleKey) sampleEdit [] rfl

end VersionEdit

end Tweezer
