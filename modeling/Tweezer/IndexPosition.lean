import Tweezer.IndexBlock
import Tweezer.PlainBlockLayout

/-!
# Where an index iterator stands

What an iterator over a built index block shows at each entry: its key, its handle and the
offset of the next one. Reading on from an entry, or from a restart point, leads to the next
entry.
-/

namespace Tweezer

theorem i64ToZigzag_lt {l : ℕ} (h : l < 2 ^ 64) : i64ToZigzag l < 2 ^ 64 := by
  unfold i64ToZigzag
  split_ifs <;> omega

theorem zigzagToI64_i64ToZigzag {l : ℕ} (h : l < 2 ^ 64) : zigzagToI64 (i64ToZigzag l) = l := by
  unfold zigzagToI64 i64ToZigzag
  split_ifs <;> omega

/-- A handle of 64-bit quantities. -/
def BlockHandle.Fits (h : BlockHandle) : Prop := h.offset < 2 ^ 64 ∧ h.size < 2 ^ 64

/-- The handle of a block that lies right behind another, whose handle is not the null one. -/
def BlockHandle.Follows (a b : BlockHandle) : Prop :=
  b.offset = u64 (a.offset + a.size + kBlockTrailerSize) ∧ a.isNull = false

namespace IndexValue

theorem length_encode_pos (handle : BlockHandle) (previous : Option BlockHandle) :
    0 < (encode handle previous).length := by
  have hpos := fun v => Bytes.length_varintEncode_pos 9 (u64 v)
  cases previous with
  | none =>
      rw [encode, List.length_append]
      exact Nat.add_pos_left (hpos _) _
  | some previous => exact hpos _

theorem decode_encode_none {handle : BlockHandle} (h : handle.Fits) (rest : Bytes) :
    decode (encode handle none ++ rest) none = (handle, rest) := by
  rw [encode, decode, List.append_assoc, getVarint64_putVarint64 h.1]
  dsimp only
  rw [getVarint64_putVarint64 h.2]

theorem decode_encode_some {handle previous : BlockHandle} (h : handle.Fits)
    (hp : previous.Fits) (hf : previous.Follows handle) (rest : Bytes) :
    decode (encode handle (some previous) ++ rest) (some previous) = (handle, rest) := by
  obtain ⟨hoffset, -⟩ := hf
  obtain ⟨-, hsize⟩ := h
  obtain ⟨-, hpsize⟩ := hp
  have hdelta : u64 (handle.size + 2 ^ 64 - previous.size) < 2 ^ 64 :=
    Nat.mod_lt _ (by norm_num)
  have hback : u64 (previous.size + u64 (handle.size + 2 ^ 64 - previous.size)) = handle.size := by
    unfold u64
    omega
  rw [encode, decode, getVarint64_putVarint64 (i64ToZigzag_lt hdelta)]
  dsimp only
  rw [zigzagToI64_i64ToZigzag hdelta, hback, ← hoffset]

end IndexValue

/-- An entry of an index: a key that is not less than those of the block with this handle. -/
structure IndexEntry where
  key : Bytes
  handle : BlockHandle
  deriving DecidableEq

/-- What an index block is built of. -/
structure IndexContents where
  interval : ℕ
  valueDelta : Bool
  keyIncludesSeq : Bool
  entries : List IndexEntry
  interval_pos : 0 < interval
  fits : ∀ e ∈ entries, e.handle.Fits
  follows : valueDelta = true → entries.IsChain fun a b => a.handle.Follows b.handle

/-- The entries with their values encoded, `last` being the handle before them. -/
def encodedEntries (valueDelta : Bool) : BlockHandle → List IndexEntry → List PlainEntry
  | _, [] => []
  | last, e :: es =>
      ⟨e.key, IndexValue.encode e.handle none,
        if valueDelta && !last.isNull then IndexValue.encode e.handle (some last) else []⟩ ::
        encodedEntries valueDelta e.handle es

namespace IndexContents

variable (c : IndexContents)

def encoded : List PlainEntry := encodedEntries c.valueDelta ⟨0, 0⟩ c.entries

def builder : PlainBlockBuilder := .built c.interval c.valueDelta c.encoded

def block : Bytes := c.builder.finish

def offset (i : ℕ) : ℕ := PlainBlockBuilder.offset c.interval c.valueDelta c.encoded i

end IndexContents

theorem length_encodedEntries (valueDelta : Bool) (last : BlockHandle) (es : List IndexEntry) :
    (encodedEntries valueDelta last es).length = es.length := by
  induction es generalizing last with
  | nil => rfl
  | cons e es ih => rw [encodedEntries, List.length_cons, ih, List.length_cons]

/-- An encoded entry, and the handle that its delta is taken to. -/
theorem getElem?_encodedEntries (valueDelta : Bool) (last : BlockHandle) {es : List IndexEntry}
    {i : ℕ} {e : IndexEntry} (h : es[i]? = some e) :
    ∃ previous, (i = 0 → previous = last) ∧
      (∀ j, i = j + 1 → es[j]?.map IndexEntry.handle = some previous) ∧
      (encodedEntries valueDelta last es)[i]? = some ⟨e.key, IndexValue.encode e.handle none,
        if valueDelta && !previous.isNull then IndexValue.encode e.handle (some previous)
        else []⟩ := by
  induction es generalizing last i with
  | nil => cases h
  | cons e' es ih =>
      cases i with
      | zero =>
          obtain rfl : e' = e := Option.some.inj h
          exact ⟨last, fun _ => rfl, fun j hj => absurd hj.symm (Nat.succ_ne_zero j), rfl⟩
      | succ i =>
          obtain ⟨previous, hzero, hsucc, hget⟩ := ih e'.handle h
          refine ⟨previous, fun hi => absurd hi (Nat.succ_ne_zero i), ?_, hget⟩
          intro j hj
          obtain rfl : i = j := Nat.succ.inj hj
          cases i with
          | zero =>
              rw [hzero rfl]
              rfl
          | succ i => exact hsucc i rfl

/-- `DecodeKeyV4` inside a block. -/
theorem decodeKeyV4_eq (pre post : Bytes) {mid rest₁ rest₂ : Bytes} {a b : ℕ} (hlen : 3 ≤ mid.length)
    (h₁ : Bytes.varintDecode 5 mid = some (a, rest₁))
    (h₂ : Bytes.varintDecode 5 rest₁ = some (b, rest₂)) :
    decodeKeyV4 (pre ++ (mid ++ post)) pre.length (pre.length + mid.length) =
      .ok (some (u32 a, u32 b, pre.length + mid.length - rest₂.length)) := by
  have hmid : Bytes.slice (pre ++ (mid ++ post)) pre.length
      (pre.length + mid.length - pre.length) = mid := by
    rw [Nat.add_sub_cancel_left]
    exact Bytes.slice_eq_of_append rfl rfl
  rw [decodeKeyV4, if_neg (by omega), Bytes.fetch_of_le
    (by simp only [List.length_append]; omega), Bytes.slice_append_right _ _ _ _ le_rfl,
    Nat.sub_self, Bytes.slice_append_left _ _ _ _ (by omega), Outcome.ok_bind, hmid]
  match mid, hlen with
  | x :: y :: z :: mid, _ =>
      have hhead : Bytes.slice (x :: y :: z :: mid) 0 2 = [x, y] := rfl
      rw [hhead]
      dsimp only
      split_ifs with hfast
      · have hfast' : (x ||| y ||| 0) < 128 := by rwa [UInt8.or_zero]
        obtain ⟨hx, hy, -⟩ := or_lt_128 hfast'
        rw [varintDecode_small hx, Option.some.injEq, Prod.mk.injEq] at h₁
        obtain ⟨rfl, rfl⟩ := h₁
        rw [varintDecode_small hy, Option.some.injEq, Prod.mk.injEq] at h₂
        obtain ⟨rfl, rfl⟩ := h₂
        rw [u32_of_lt (by omega), u32_of_lt (by omega)]
        simp only [List.length_cons, Except.ok.injEq, Option.some.injEq, Prod.mk.injEq, true_and]
        omega
      · simp only [h₁, h₂]

namespace PlainBlockBuilder

theorem length_finish (b : PlainBlockBuilder) :
    b.finish.length = b.buffer.length + b.restarts.length * 4 + 4 := by
  have hlen : (b.restarts.flatMap (Bytes.leEncode 4)).length = b.restarts.length * 4 := by
    simp [List.length_flatMap]
  rw [finish, List.length_append, List.length_append, hlen, Bytes.length_leEncode]
  omega

/-- What `DecodeKeyV4` reads of an entry whose value may be a delta. -/
theorem decodeKeyV4_at (interval : ℕ) {es : List PlainEntry} {i : ℕ} {e : PlainEntry}
    (h : es[i]? = some e) (hvalue : (before interval true es i).valueBytes e ≠ [])
    (hsize : (built interval true es).buffer.length < 2 ^ 32) :
    decodeKeyV4 (built interval true es).finish (offset interval true es i)
        (built interval true es).buffer.length =
      .ok (some ((before interval true es i).shared e.key,
        e.key.length - (before interval true es i).shared e.key,
        keyOffset interval true es i e)) := by
  obtain ⟨tail, post, hfinish, hlength⟩ := finish_built interval true h
  obtain ⟨hshared, hrest⟩ := shared_lt interval true h hsize
  have hheader : (before interval true es i).header e =
      putVarint32 ((before interval true es i).shared e.key) ++
        (putVarint32 (e.key.length - (before interval true es i).shared e.key)) := by
    rw [header, useValueDeltaEncoding_before, if_pos rfl, List.append_nil]
  have hlong : 3 ≤ (putVarint32 ((before interval true es i).shared e.key) ++
      (putVarint32 (e.key.length - (before interval true es i).shared e.key) ++
        (e.key.drop ((before interval true es i).shared e.key) ++
          ((before interval true es i).valueBytes e ++ tail)))).length := by
    have h2 := length_header_pos (before interval true es i) e
    have h3 := List.length_pos_of_ne_nil hvalue
    rw [hheader] at h2
    simp only [List.length_append] at h2 ⊢
    omega
  have hread := decodeKeyV4_eq (before interval true es i).buffer post hlong
    (varintDecode_putVarint32 hshared _) (varintDecode_putVarint32 hrest _)
  have hend : (built interval true es).buffer.length =
      (before interval true es i).buffer.length +
        (putVarint32 ((before interval true es i).shared e.key) ++
          (putVarint32 (e.key.length - (before interval true es i).shared e.key) ++
            (e.key.drop ((before interval true es i).shared e.key) ++
              ((before interval true es i).valueBytes e ++ tail)))).length := by
    rw [hlength, valueOffset, keyOffset, offset, hheader]
    simp only [List.length_append, List.length_drop]
    omega
  rw [hend, hfinish, offset, hheader]
  simp only [List.append_assoc] at hread ⊢
  rw [hread, u32_of_lt hshared, u32_of_lt hrest, keyOffset, offset, hheader]
  simp only [List.length_append, List.length_drop, Except.ok.injEq, Option.some.injEq,
    Prod.mk.injEq, true_and]
  omega

end PlainBlockBuilder

/-- A finished block is taken apart into its entries and its restart points. -/
theorem Block.create_finish (b : PlainBlockBuilder) (hsize : b.buffer.length < 2 ^ 32)
    (hrestarts : b.restarts.length < 2 ^ 31) :
    Block.create b.finish =
      ⟨b.finish, b.finish.length, b.buffer.length, b.restarts.length⟩ := by
  have hlen := PlainBlockBuilder.length_finish b
  have hfooter : b.finish.slice (b.finish.length - 4) 4 = Bytes.leEncode 4 b.restarts.length := by
    have hfront : (b.buffer ++ b.restarts.flatMap (Bytes.leEncode 4)).length =
        b.finish.length - 4 := by
      simp only [PlainBlockBuilder.finish, List.length_append, Bytes.length_leEncode]
      omega
    have hslice := Bytes.slice_eq_of_append (c := []) hfront
      (Bytes.length_leEncode 4 b.restarts.length)
    rwa [List.append_nil, List.append_assoc] at hslice
  have hnum : Bytes.leDecode (Bytes.leEncode 4 b.restarts.length) = b.restarts.length :=
    Bytes.leDecode_leEncode_of_lt (by omega)
  have hoffset : u32 (b.finish.length + 2 ^ 32 * 8 - (1 + b.restarts.length) * 4) =
      b.buffer.length := by
    rw [u32]
    omega
  rw [Block.create]
  dsimp only
  rw [hfooter, hnum, hoffset, if_neg (by omega), if_pos (by omega), if_neg (by omega)]

namespace IndexContents

variable (c : IndexContents)

/-- The builder as the entry with this index is about to be added. -/
def before (i : ℕ) : PlainBlockBuilder := .before c.interval c.valueDelta c.encoded i

/-- The length of the prefix that the entry leaves out. -/
def shared (i : ℕ) (e : IndexEntry) : ℕ := (c.before i).shared e.key

theorem length_encoded : c.encoded.length = c.entries.length := length_encodedEntries _ _ _

theorem shared_zero (e : IndexEntry) : c.shared 0 e = 0 :=
  PlainBlockBuilder.shared_before_zero e.key

variable {c} {i : ℕ} {e : IndexEntry}

/-- The handle before an entry that is not the first is not null. -/
theorem follows_of_getElem? (hdelta : c.valueDelta = true) {a : IndexEntry}
    (ha : c.entries[i]? = some a) (he : c.entries[i + 1]? = some e) : a.handle.Follows e.handle := by
  obtain ⟨hi, rfl⟩ := List.getElem?_eq_some_iff.mp ha
  obtain ⟨hi', rfl⟩ := List.getElem?_eq_some_iff.mp he
  exact List.isChain_iff_getElem.mp (c.follows hdelta) i hi'

theorem fits_of_getElem? (he : c.entries[i]? = some e) : e.handle.Fits :=
  c.fits e (List.mem_of_getElem? he)

/-- How an entry is stored: a handle is in full unless the key shares a prefix. -/
theorem exists_encoded (he : c.entries[i]? = some e) : ∃ p, c.encoded[i]? = some p ∧
    p.key = e.key ∧ p.value = IndexValue.encode e.handle none ∧
    (c.shared i e = 0 ∨ c.valueDelta = false →
      (c.before i).valueBytes p = IndexValue.encode e.handle none) ∧
    (c.shared i e ≠ 0 → c.valueDelta = true → ∃ j a, i = j + 1 ∧ c.entries[j]? = some a ∧
      (c.before i).valueBytes p = IndexValue.encode e.handle (some a.handle)) := by
  obtain ⟨previous, -, hsucc, hget⟩ := getElem?_encodedEntries c.valueDelta ⟨0, 0⟩ he
  refine ⟨_, hget, rfl, rfl, ?_, ?_⟩
  · intro hplain
    rw [PlainBlockBuilder.valueBytes, if_neg]
    rintro ⟨hshared, hdelta⟩
    rw [before, PlainBlockBuilder.useValueDeltaEncoding_before] at hdelta
    rcases hplain with h | h
    · exact hshared h
    · rw [h] at hdelta
      cases hdelta
  · intro hshared hdelta
    cases i with
    | zero => exact absurd (shared_zero c e) hshared
    | succ j =>
        have hprev := hsucc j rfl
        cases ha : c.entries[j]? with
        | none =>
            rw [ha] at hprev
            cases hprev
        | some a =>
            rw [ha] at hprev
            obtain rfl : a.handle = previous := Option.some.inj hprev
            have hpos := (follows_of_getElem? hdelta ha he).2
            refine ⟨j, a, rfl, ha, ?_⟩
            rw [PlainBlockBuilder.valueBytes, if_pos]
            · simp only [hdelta, hpos, Bool.not_false, Bool.and_true, if_true]
            · refine ⟨hshared, ?_⟩
              rw [before, PlainBlockBuilder.useValueDeltaEncoding_before, hdelta]

theorem valueBytes_ne_nil (he : c.entries[i]? = some e) {p : PlainEntry}
    (hp : c.encoded[i]? = some p) : (c.before i).valueBytes p ≠ [] := by
  obtain ⟨p', hp', -, -, hplain, hdelta⟩ := exists_encoded he
  obtain rfl : p' = p := Option.some.inj (hp'.symm.trans hp)
  by_cases hfull : c.shared i e = 0 ∨ c.valueDelta = false
  · rw [hplain hfull]
    exact List.ne_nil_of_length_pos (IndexValue.length_encode_pos _ _)
  · obtain ⟨hshared, hvalueDelta⟩ := not_or.mp hfull
    obtain ⟨j, a, -, -, hbytes⟩ := hdelta hshared (Bool.eq_true_of_not_eq_false hvalueDelta)
    rw [hbytes]
    exact List.ne_nil_of_length_pos (IndexValue.length_encode_pos _ _)

/-- Restart point `m` leads to this entry, whose key is stored in full. -/
structure RestartKey (c : IndexContents) (m i : ℕ) (e : IndexEntry) : Prop where
  entry : c.entries[i]? = some e
  point : c.builder.restarts[m]? = some (c.offset i)
  shared : c.shared i e = 0
  zero : i = 0 ↔ m = 0

theorem exists_restartKey (hne : c.entries ≠ []) (hsize : c.builder.buffer.length < 2 ^ 32)
    {m : ℕ} (hm : m < c.builder.restarts.length) : ∃ i e, c.RestartKey m i e := by
  have hget := List.getElem?_eq_getElem hm
  have hencoded : c.encoded ≠ [] := by
    rw [← List.length_pos_iff, c.length_encoded]
    exact List.length_pos_of_ne_nil hne
  obtain ⟨i, p, hp, hpoint, hshared, hzero⟩ :=
    PlainBlockBuilder.restartsAt_of_getElem? c.interval_pos hencoded hget
  obtain ⟨hi, -⟩ := List.getElem?_eq_some_iff.mp hp
  have he := List.getElem?_eq_getElem (show i < c.entries.length by rwa [← c.length_encoded])
  obtain ⟨p', hp', hkey, -⟩ := exists_encoded he
  obtain rfl : p' = p := Option.some.inj (hp'.symm.trans hp)
  have hle := PlainBlockBuilder.offset_le_buffer c.interval c.valueDelta (le_of_lt hi)
  refine ⟨i, _, he, ?_, ?_, hzero⟩
  · rw [hget, hpoint, u32_of_lt (lt_of_le_of_lt hle hsize)]
    rfl
  · rw [shared, ← hkey]
    exact hshared

end IndexContents

namespace IndexBlockIter

variable {it it' : IndexBlockIter} {c : IndexContents} {i : ℕ} {e : IndexEntry}

/-- An iterator over this index block. -/
structure Over (it : IndexBlockIter) (c : IndexContents) : Prop where
  data : it.data = some c.block
  restarts : it.restarts = c.builder.buffer.length
  numRestarts : it.numRestarts = c.builder.restarts.length
  valueDeltaEncoded : it.valueDeltaEncoded = c.valueDelta
  keyIncludesSeq : it.keyIncludesSeq = c.keyIncludesSeq

/-- The iterator is at this entry. -/
structure At (it : IndexBlockIter) (c : IndexContents) (i : ℕ) (e : IndexEntry) : Prop where
  isOver : it.Over c
  entry : c.entries[i]? = some e
  current : it.current = c.offset i
  rawKey : it.rawKey = e.key
  next : it.nextEntryOffset = c.offset (i + 1)
  value : it.value = .ok e.handle
  restartIndex : it.restartIndex < it.numRestarts

/-- The iterator is where the next thing to read is this entry. -/
structure Before (it : IndexBlockIter) (c : IndexContents) (i : ℕ) (e : IndexEntry) : Prop where
  isOver : it.Over c
  entry : c.entries[i]? = some e
  next : it.nextEntryOffset = c.offset i
  shared_le : c.shared i e ≤ it.rawKey.length
  take : it.rawKey.take (c.shared i e) = e.key.take (c.shared i e)
  previous : c.shared i e ≠ 0 → c.valueDelta = true →
    ∀ j a, i = j + 1 → c.entries[j]? = some a → it.decodedValue = a.handle
  restartIndex : it.restartIndex < it.numRestarts

theorem Over.of_eq (h : it.Over c) (hdata : it'.data = it.data)
    (hrestarts : it'.restarts = it.restarts) (hnum : it'.numRestarts = it.numRestarts)
    (hdelta : it'.valueDeltaEncoded = it.valueDeltaEncoded)
    (hseq : it'.keyIncludesSeq = it.keyIncludesSeq) : it'.Over c :=
  ⟨hdata.trans h.data, hrestarts.trans h.restarts, hnum.trans h.numRestarts,
    hdelta.trans h.valueDeltaEncoded, hseq.trans h.keyIncludesSeq⟩

theorem At.before_succ (h : it.At c i e) {e' : IndexEntry}
    (he : c.entries[i + 1]? = some e') : it.Before c (i + 1) e' := by
  have hlast : (c.before (i + 1)).lastKey = it.rawKey := by
    obtain ⟨p, hp, hkey, -⟩ := IndexContents.exists_encoded h.entry
    rw [h.rawKey, ← hkey]
    exact PlainBlockBuilder.lastKey_before_succ hp
  refine ⟨h.isOver, he, h.next, ?_, ?_, ?_, h.restartIndex⟩
  · rw [← hlast]
    exact PlainBlockBuilder.shared_le_lastKey _ _
  · rw [← hlast]
    exact PlainBlockBuilder.take_shared _ _
  · intro _ hdelta j a hj ha
    obtain rfl : i = j := Nat.succ.inj hj
    obtain rfl : e = a := Option.some.inj (h.entry.symm.trans ha)
    have hvalue := h.value
    rw [IndexBlockIter.value, h.isOver.valueDeltaEncoded, hdelta, if_pos rfl] at hvalue
    exact Except.ok.inj hvalue

theorem length_buffer_lt (hsize : c.block.length ≤ 2 ^ 31) :
    c.builder.buffer.length < 2 ^ 32 := by
  rw [IndexContents.block, PlainBlockBuilder.finish, List.length_append] at hsize
  omega

theorem Over.getRestartPoint (h : it.Over c) {m : ℕ} (hr : c.RestartKey m i e)
    (hsize : c.builder.buffer.length < 2 ^ 32) : it.getRestartPoint c.block m = .ok (c.offset i) := by
  obtain ⟨hi, -⟩ := List.getElem?_eq_some_iff.mp hr.entry
  rw [← c.length_encoded] at hi
  have hle := PlainBlockBuilder.offset_le_buffer c.interval c.valueDelta (le_of_lt hi)
  have hoffset : c.offset i < 256 ^ 4 := lt_of_le_of_lt hle hsize
  rw [IndexBlockIter.getRestartPoint, h.restarts, IndexContents.block,
    PlainBlockBuilder.fetch_restart c.builder hr.point, Outcome.ok_bind,
    Bytes.leDecode_leEncode_of_lt hoffset]

/-- What is read of an entry: how much of the key is shared and how much is stored, and where;
without delta encoding also how long the value is. -/
theorem decodeEntry_eq (h : it.Over c) (he : c.entries[i]? = some e) {p : PlainEntry}
    (hp : c.encoded[i]? = some p) (hkey : p.key = e.key) (hsize : c.builder.buffer.length < 2 ^ 32) :
    ∃ valueLength, it.decodeEntry c.block (c.offset i) =
        .ok (some (c.shared i e, e.key.length - c.shared i e, valueLength,
          PlainBlockBuilder.keyOffset c.interval c.valueDelta c.encoded i p)) ∧
      (c.valueDelta = false → valueLength = ((c.before i).valueBytes p).length) := by
  have hlength := hsize
  have hne := IndexContents.valueBytes_ne_nil he hp
  obtain ⟨p', hp', -, hvalue, hplain, -⟩ := IndexContents.exists_encoded he
  obtain rfl : p' = p := Option.some.inj (hp'.symm.trans hp)
  have hshort : p'.value.length < 2 ^ 32 := by
    have hpos := fun v => Bytes.length_varintEncode_le 9 (u64 v)
    have h₁ := hpos e.handle.offset
    have h₂ := hpos e.handle.size
    rw [hvalue, IndexValue.encode, List.length_append]
    simp only [putVarint64]
    omega
  unfold IndexBlockIter.decodeEntry
  rw [h.restarts, h.valueDeltaEncoded]
  unfold IndexContents.shared IndexContents.offset IndexContents.before IndexContents.block
    IndexContents.builder at *
  rw [← hkey]
  cases hdelta : c.valueDelta with
  | true =>
      rw [hdelta] at hne hlength
      refine ⟨0, ?_, fun hfalse => by cases hfalse⟩
      rw [if_pos rfl, PlainBlockBuilder.decodeKeyV4_at c.interval hp hne hlength]
      rfl
  | false =>
      rw [hdelta] at hplain hlength
      refine ⟨p'.value.length, ?_, fun _ => by rw [hplain (Or.inr rfl), hvalue]⟩
      rw [if_neg Bool.false_ne_true]
      exact PlainBlockBuilder.decodeEntry_at c.interval hp hshort hlength

/-- What is read at a restart point: the whole key. -/
theorem Over.decodeEntry_restart (h : it.Over c) {m : ℕ} (hr : c.RestartKey m i e)
    (hsize : c.builder.buffer.length < 2 ^ 32) : ∃ valueLength p,
    it.decodeEntry c.block (c.offset i) = .ok (some (0, e.key.length, valueLength, p)) ∧
      c.block.fetch p e.key.length = .ok e.key := by
  obtain ⟨p, hp, hkey, -⟩ := IndexContents.exists_encoded hr.entry
  obtain ⟨valueLength, hdecoded, -⟩ := decodeEntry_eq h hr.entry hp hkey hsize
  have hfetch := PlainBlockBuilder.fetch_key c.interval c.valueDelta hp
  have hshared : (PlainBlockBuilder.before c.interval c.valueDelta c.encoded i).shared p.key =
      0 := by
    rw [hkey]
    exact hr.shared
  rw [hshared, Nat.sub_zero, List.drop_zero, hkey] at hfetch
  rw [hr.shared, Nat.sub_zero] at hdecoded
  exact ⟨valueLength, _, hdecoded, hfetch⟩

/-- Moving the restart index on changes nothing else. -/
theorem advanceRestartIndex_eq (h : it.Over c) (hne : c.entries ≠ [])
    (hsize : c.builder.buffer.length < 2 ^ 32) (hindex : it.restartIndex < it.numRestarts) (fuel : ℕ) :
    ∃ index, it.advanceRestartIndex c.block fuel = .ok { it with restartIndex := index } ∧
      index < it.numRestarts := by
  induction fuel generalizing it with
  | zero => exact ⟨it.restartIndex, rfl, hindex⟩
  | succ fuel ih =>
      rw [advanceRestartIndex]
      by_cases hnext : it.restartIndex + 1 < it.numRestarts
      · obtain ⟨i, e, hr⟩ := IndexContents.exists_restartKey hne hsize
          (h.numRestarts ▸ hnext)
        rw [if_pos hnext, h.getRestartPoint hr hsize, Outcome.ok_bind]
        by_cases hlt : c.offset i < it.current
        · have hover : { it with restartIndex := it.restartIndex + 1 }.Over c :=
            h.of_eq rfl rfl rfl rfl rfl
          rw [if_pos hlt]
          exact ih hover hnext
        · rw [if_neg hlt]
          exact ⟨it.restartIndex, rfl, hindex⟩
      · rw [if_neg hnext]
        exact ⟨it.restartIndex, rfl, hindex⟩

/-- `DecodeCurrentValue` takes exactly the value and decodes the handle. -/
theorem decodeCurrentValue_eq (h : it.Over c) (hdelta : c.valueDelta = true)
    (he : c.entries[i]? = some e) {p : PlainEntry} (hp : c.encoded[i]? = some p)
    (hoffset : it.valueOffset =
      PlainBlockBuilder.valueOffset c.interval c.valueDelta c.encoded i p)
    (hprevious : c.shared i e ≠ 0 →
      ∀ j a, i = j + 1 → c.entries[j]? = some a → it.decodedValue = a.handle) :
    it.decodeCurrentValue c.block (c.shared i e) =
      .ok { it with
        decodedValue := e.handle, valueSize := ((c.before i).valueBytes p).length } := by
  obtain ⟨p', hp', -, -, hplain, hdeltaBytes⟩ := IndexContents.exists_encoded he
  obtain rfl : p' = p := Option.some.inj (hp'.symm.trans hp)
  obtain ⟨tail, htail⟩ := PlainBlockBuilder.slice_value c.interval c.valueDelta hp
  have hle := PlainBlockBuilder.valueOffset_le c.interval c.valueDelta hp
  have hbound : ¬ it.restarts < it.valueOffset := by
    rw [h.restarts, hoffset]
    exact Nat.not_lt.mpr hle
  have hslice : c.block.slice it.valueOffset (it.restarts - it.valueOffset) =
      (c.before i).valueBytes p' ++ tail := by
    rw [h.restarts, hoffset]
    exact htail
  have hdecode : IndexValue.decode ((c.before i).valueBytes p' ++ tail)
      (if it.valueDeltaEncoded = true ∧ c.shared i e ≠ 0 then some it.decodedValue else none) =
      (e.handle, tail) := by
    rw [h.valueDeltaEncoded, hdelta]
    by_cases hshared : c.shared i e = 0
    · rw [if_neg (fun hand => hand.2 hshared), hplain (Or.inl hshared)]
      exact IndexValue.decode_encode_none (IndexContents.fits_of_getElem? he) tail
    · obtain ⟨j, a, rfl, ha, hbytes⟩ := hdeltaBytes hshared hdelta
      rw [if_pos ⟨rfl, hshared⟩, hprevious hshared j a rfl ha, hbytes]
      exact IndexValue.decode_encode_some (IndexContents.fits_of_getElem? he)
        (IndexContents.fits_of_getElem? ha) (IndexContents.follows_of_getElem? hdelta ha he) tail
  rw [decodeCurrentValue, if_neg hbound]
  dsimp only
  rw [hslice, hdecode, List.length_append, Nat.add_sub_cancel]

/-- Reading on leads to the next entry. -/
theorem Before.parseNextIndexKey (h : it.Before c i e) (hsize : c.builder.buffer.length < 2 ^ 32) :
    ∃ it', it.parseNextIndexKey c.block = .ok it' ∧ it'.At c i e := by
  obtain ⟨p, hp, hkey, -, hplain, -⟩ := IndexContents.exists_encoded h.entry
  obtain ⟨hi, -⟩ := List.getElem?_eq_some_iff.mp hp
  have hover : { it with current := c.offset i }.Over c := h.isOver.of_eq rfl rfl rfl rfl rfl
  obtain ⟨valueLength, hdecoded, hlength⟩ := decodeEntry_eq hover h.entry hp hkey hsize
  have hfetch : c.block.fetch (PlainBlockBuilder.keyOffset c.interval c.valueDelta c.encoded i p)
      (e.key.length - c.shared i e) = .ok (e.key.drop (c.shared i e)) := by
    have hstored := PlainBlockBuilder.fetch_key c.interval c.valueDelta hp
    rw [hkey] at hstored
    exact hstored
  have hinside : ¬ it.restarts ≤ c.offset i := by
    have hlt := PlainBlockBuilder.offset_lt_succ c.interval c.valueDelta hi
    have hle := PlainBlockBuilder.offset_le_buffer c.interval c.valueDelta
      (show i + 1 ≤ c.encoded.length by omega)
    rw [h.isOver.restarts]
    exact Nat.not_le.mpr (lt_of_lt_of_le hlt hle)
  have hnext : u32 (PlainBlockBuilder.valueOffset c.interval c.valueDelta c.encoded i p +
      ((c.before i).valueBytes p).length) = c.offset (i + 1) := by
    have hsucc := PlainBlockBuilder.offset_succ_eq c.interval c.valueDelta hp
    have hle := PlainBlockBuilder.offset_le_buffer c.interval c.valueDelta
      (show i + 1 ≤ c.encoded.length by omega)
    have hbuffer := hsize
    rw [IndexContents.before, ← hsucc]
    exact u32_of_lt (lt_of_le_of_lt hle hbuffer)
  have hoffset : PlainBlockBuilder.keyOffset c.interval c.valueDelta c.encoded i p +
      (e.key.length - c.shared i e) =
      PlainBlockBuilder.valueOffset c.interval c.valueDelta c.encoded i p := by
    rw [IndexContents.shared, ← hkey]
    rfl
  let it₁ : IndexBlockIter := { it with
    current := c.offset i
    rawKey := e.key
    valueOffset := PlainBlockBuilder.keyOffset c.interval c.valueDelta c.encoded i p +
      (e.key.length - c.shared i e)
    valueSize := valueLength }
  have hover₁ : it₁.Over c := h.isOver.of_eq rfl rfl rfl rfl rfl
  have hne : c.entries ≠ [] := List.ne_nil_of_mem (List.mem_of_getElem? h.entry)
  -- the restart index may move on, which nothing else depends on
  have hadvance : ∃ index, index < it.numRestarts ∧ (if c.shared i e = 0 then
      it₁.advanceRestartIndex c.block it.numRestarts else .ok it₁) =
        .ok { it₁ with restartIndex := index } := by
    by_cases hshared : c.shared i e = 0
    · rw [if_pos hshared]
      obtain ⟨index, hadvanced, hindex⟩ :=
        advanceRestartIndex_eq hover₁ hne hsize h.restartIndex it.numRestarts
      exact ⟨index, hindex, hadvanced⟩
    · rw [if_neg hshared]
      exact ⟨it.restartIndex, h.restartIndex, rfl⟩
  obtain ⟨index, hindex, hadvanced⟩ := hadvance
  obtain ⟨it₂, hit₂⟩ : ∃ it₂ : IndexBlockIter, { it₁ with restartIndex := index } = it₂ :=
    ⟨_, rfl⟩
  rw [hit₂] at hadvanced
  have hparsed : it.parseNextIndexKey c.block =
      (if it₂.valueDeltaEncoded then it₂.decodeCurrentValue c.block (c.shared i e)
      else .ok it₂) := by
    rw [IndexBlockIter.parseNextIndexKey]
    dsimp only
    rw [h.next, if_neg hinside, hdecoded, Outcome.ok_bind]
    dsimp only
    rw [if_neg (Nat.not_lt.mpr h.shared_le), hfetch, Outcome.ok_bind, h.take,
      List.take_append_drop]
    have hrest := congrArg (· >>= fun it : IndexBlockIter =>
      if it.valueDeltaEncoded then it.decodeCurrentValue c.block (c.shared i e) else .ok it)
      hadvanced
    by_cases hshared : c.shared i e = 0
    · rw [if_pos hshared] at hrest ⊢
      exact hrest
    · rw [if_neg hshared] at hrest ⊢
      exact hrest
  have hover₂ : it₂.Over c := by
    rw [← hit₂]
    exact hover₁.of_eq rfl rfl rfl rfl rfl
  have hcurrent : it₂.current = c.offset i := by rw [← hit₂]
  have hrawKey : it₂.rawKey = e.key := by rw [← hit₂]
  have hvalueOffset : it₂.valueOffset =
      PlainBlockBuilder.valueOffset c.interval c.valueDelta c.encoded i p := by
    rw [← hit₂]
    exact hoffset
  have hvalueSize : it₂.valueSize = valueLength := by rw [← hit₂]
  have hdecodedValue : it₂.decodedValue = it.decodedValue := by rw [← hit₂]
  have hrestartIndex : it₂.restartIndex < it₂.numRestarts := by
    rw [← hit₂]
    exact hindex
  rw [hparsed, hover₂.valueDeltaEncoded]
  cases hdelta : c.valueDelta with
  | true =>
      have hprevious : c.shared i e ≠ 0 →
          ∀ j a, i = j + 1 → c.entries[j]? = some a → it₂.decodedValue = a.handle := by
        rw [hdecodedValue]
        exact fun hshared => h.previous hshared hdelta
      rw [if_pos rfl, decodeCurrentValue_eq hover₂ hdelta h.entry hp hvalueOffset hprevious]
      refine ⟨_, rfl, hover₂.of_eq rfl rfl rfl rfl rfl, h.entry, hcurrent, hrawKey, ?_, ?_,
        hrestartIndex⟩
      · rw [← hnext, ← hvalueOffset]
        rfl
      · rw [value]
        exact if_pos (hover₂.valueDeltaEncoded.trans hdelta)
  | false =>
      have hfull : ((c.before i).valueBytes p).length = it₂.valueSize := by
        rw [hvalueSize, hlength hdelta]
      have hstored := PlainBlockBuilder.fetch_value c.interval c.valueDelta hp
      have hdecode := IndexValue.decode_encode_none (IndexContents.fits_of_getElem? h.entry) []
      rw [List.append_nil, ← hplain (Or.inr hdelta)] at hdecode
      rw [if_neg Bool.false_ne_true]
      refine ⟨it₂, rfl, hover₂, h.entry, hcurrent, hrawKey, ?_, ?_, hrestartIndex⟩
      · rw [nextEntryOffset, ← hnext, ← hvalueOffset, hfull]
      · have hvalue : c.block.fetch it₂.valueOffset it₂.valueSize =
            .ok ((c.before i).valueBytes p) := by
          rw [hvalueOffset, ← hfull]
          exact hstored
        rw [value, hover₂.valueDeltaEncoded, hdelta, if_neg Bool.false_ne_true, hover₂.data]
        dsimp only
        rw [hvalue, Outcome.ok_bind, hdecode]

/-- Reading on from the last entry ends the iteration. -/
theorem parseNextIndexKey_end (h : it.Over c) (hnext : it.nextEntryOffset = c.offset c.entries.length) :
    it.parseNextIndexKey c.block =
      .ok { it with current := it.restarts, restartIndex := it.numRestarts } := by
  have hend : it.restarts ≤ it.nextEntryOffset := by
    rw [h.restarts, hnext, IndexContents.offset, ← c.length_encoded,
      PlainBlockBuilder.offset_length]
    exact le_rfl
  rw [IndexBlockIter.parseNextIndexKey]
  dsimp only
  rw [if_pos hend]

theorem At.valid (h : it.At c i e) : it.valid = true := by
  obtain ⟨hi, -⟩ := List.getElem?_eq_some_iff.mp h.entry
  rw [← c.length_encoded] at hi
  have hlt := PlainBlockBuilder.offset_lt_succ c.interval c.valueDelta hi
  have hle := PlainBlockBuilder.offset_le_buffer c.interval c.valueDelta
    (show i + 1 ≤ c.encoded.length by omega)
  rw [IndexBlockIter.valid, decide_eq_true_eq, h.current, h.isOver.restarts]
  exact lt_of_lt_of_le hlt hle

end IndexBlockIter

end Tweezer
