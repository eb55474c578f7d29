import Tweezer.BlockCursor

/-!
# Data blocks with a global sequence number

A file that was ingested stores sequence number zero with every entry, and its iterators put
the number that was assigned to the file in its place. `SeekImpl` compares each key with
itself, one side with the assigned number and the other without, and `Updatevalue` computes
the MAC over the key that is shown.
-/

namespace Tweezer

open OrderedCursor

/-- The key that is shown for a stored one. -/
def applySeqno (g : ℕ) (k : InternalKey) : InternalKey :=
  ⟨extractUserKey k.val ++ Bytes.leEncode 8 (packSequenceAndType g (extractValueType k.val)), by
    rw [List.length_append, Bytes.length_leEncode]
    exact Nat.le_add_left 8 _⟩

/-- A stored key with sequence number zero. -/
def SeqnoZero (k : Bytes) : Prop :=
  kNumInternalBytes ≤ k.length ∧ extractInternalKeyFooter k < 256

instance (k : Bytes) : Decidable (SeqnoZero k) := inferInstanceAs (Decidable (_ ∧ _))

theorem leEncode_leDecode (b : Bytes) : Bytes.leEncode b.length (Bytes.leDecode b) = b := by
  induction b with
  | nil => rfl
  | cons x b ih =>
      have hx := x.toNat_lt
      have hhead : UInt8.ofNat (x.toNat + 256 * Bytes.leDecode b) = x := by
        apply UInt8.toNat_inj.mp
        rw [UInt8.toNat_ofNat']
        omega
      have htail : (x.toNat + 256 * Bytes.leDecode b) / 256 = Bytes.leDecode b := by omega
      rw [List.length_cons, Bytes.leDecode, Bytes.leEncode, hhead, htail, ih]

theorem applySeqno_zero {k : Bytes} (h : SeqnoZero k) :
    extractUserKey k ++ Bytes.leEncode 8 (packSequenceAndType 0 (extractValueType k)) = k := by
  obtain ⟨hlen, hfooter⟩ := h
  have hdrop : (k.drop (k.length - kNumInternalBytes)).length = 8 := by
    rw [List.length_drop, kNumInternalBytes] at *
    omega
  have hpack : packSequenceAndType 0 (extractValueType k) = extractInternalKeyFooter k := by
    rw [packSequenceAndType, extractValueType]
    omega
  have hback := leEncode_leDecode (k.drop (k.length - kNumInternalBytes))
  rw [hdrop] at hback
  rw [hpack, extractInternalKeyFooter, hback, extractUserKey, List.take_append_drop]

/-- With an assigned number that is not zero a stored key comes before itself. -/
theorem internalKeyCompare_self {u : Comparator} {g : ℕ} (hpos : 0 < g)
    (hg : g ≤ kMaxSequenceNumber) {k : Bytes} (h : SeqnoZero k) :
    internalKeyCompare u k g k kDisableGlobalSequenceNumber = .lt := by
  have htrans := u.transCmp
  have hself : u.compare (extractUserKey k) (extractUserKey k) = .eq := Std.ReflCmp.compare_self
  have hne : g ≠ kDisableGlobalSequenceNumber := by
    rw [kMaxSequenceNumber] at hg
    rw [kDisableGlobalSequenceNumber]
    omega
  have hpack : extractInternalKeyFooter k < packSequenceAndType g (extractValueType k) := by
    have hfooter := h.2
    rw [kMaxSequenceNumber] at hg
    rw [packSequenceAndType, extractValueType]
    omega
  rw [internalKeyCompare, hself]
  dsimp only
  rw [if_neg hne, if_pos rfl]
  exact Nat.compare_eq_lt.mpr hpack

theorem internalKeyCompare_zero {u : Comparator} {k : Bytes} (h : extractInternalKeyFooter k < 256)
    (other : Bytes) : internalKeyCompare u k 0 other kDisableGlobalSequenceNumber =
      internalKeyCompare u k kDisableGlobalSequenceNumber other kDisableGlobalSequenceNumber := by
  have hpack : packSequenceAndType 0 (extractValueType k) = extractInternalKeyFooter k := by
    rw [packSequenceAndType, extractValueType]
    omega
  rw [internalKeyCompare, internalKeyCompare]
  dsimp only
  rw [if_neg (by decide : (0 : ℕ) ≠ kDisableGlobalSequenceNumber), if_pos rfl, if_pos rfl, hpack]

/-- The calls on a cursor over a block of a file with an assigned sequence number. -/
inductive SeqnoCall where
  | seek (target : InternalKey)
  | seekForGet (target : InternalKey)
  | seekToFirst
  | next
  deriving DecidableEq

/-- What the call asks of a cursor over the entries. -/
def SeqnoCall.op : SeqnoCall → Op InternalKey
  | seek t | seekForGet t => .seek t
  | seekToFirst => .seekToFirst
  | next => .next

/-- The calls that search. -/
def SeqnoCall.Searches : SeqnoCall → Prop
  | seek _ | seekForGet _ => True
  | seekToFirst | next => False

instance : DecidablePred SeqnoCall.Searches
  | .seek _ | .seekForGet _ => inferInstanceAs (Decidable True)
  | .seekToFirst | .next => inferInstanceAs (Decidable False)

/-- The MAC over the key that is shown is the one that was stored. -/
def SameMac (C : Gcm) (digest : Digest) (key : Key) (g : ℕ) (e : InternalKey × Bytes) : Prop :=
  (digest key ((applySeqno g e.1).val ++ C.enc key e.2)).val =
    (digest key (e.1.val ++ C.enc key e.2)).val

instance (C : Gcm) (digest : Digest) (key : Key) (g : ℕ) (e : InternalKey × Bytes) :
    Decidable (SameMac C digest key g e) :=
  inferInstanceAs (Decidable (_ = _))

/-- The condition on the calls with sequence number `g`, from the positions of the cursor:
what they need without a number, no search unless the number is zero, and at each entry they
reach the same MAC over both keys. -/
def SeqnoCallsFollow (C : Gcm) (digest : Digest) (key : Key) (u : Comparator) (g : ℕ)
    (es : List (InternalKey × Bytes)) : Option ℕ → List SeqnoCall → Prop
  | _, [] => True
  | pos, call :: calls =>
      let pos' := OrderedCursor.step (ikeyCompare u) ((keysOf es).map (applySeqno g)) pos call.op
      CallFollows u es pos call.op ∧ (call.Searches → g = 0) ∧
        (∀ i ∈ pos', ∀ e ∈ es[i]?, SameMac C digest key g e) ∧
        SeqnoCallsFollow C digest key u g es pos' calls

instance decidableSeqnoCallsFollow (C : Gcm) (digest : Digest) (key : Key) (u : Comparator)
    (g : ℕ) (es : List (InternalKey × Bytes)) :
    ∀ pos calls, Decidable (SeqnoCallsFollow C digest key u g es pos calls)
  | _, [] => inferInstanceAs (Decidable True)
  | pos, call :: calls =>
      have := decidableSeqnoCallsFollow C digest key u g es
        (OrderedCursor.step (ikeyCompare u) ((keysOf es).map (applySeqno g)) pos call.op) calls
      inferInstanceAs (Decidable (_ ∧ (_ → _) ∧ (∀ i ∈ _, ∀ e ∈ _, _) ∧ _))

namespace EncryptedDataBlockIter

/-- `SeekForGet`. `NewDataIterator` hands over no index of hashes, so it seeks. -/
def seekForGet (u : Comparator) (fuel : ℕ) (it : EncryptedDataBlockIter) (target : Bytes) :
    Outcome (Bool × EncryptedDataBlockIter) := do
  let it ← it.seekImpl u fuel target
  .ok (true, it.updateKey)

def seqnoCall (u : Comparator) (fuel : ℕ) (it : EncryptedDataBlockIter) :
    SeqnoCall → Outcome EncryptedDataBlockIter
  | .seek t => it.seek u fuel t.val
  | .seekForGet t => do
      let (_, it) ← it.seekForGet u fuel t.val
      .ok it
  | .seekToFirst => it.seekToFirst
  | .next => it.next

/-- `value()` passes its check and gives what was added at this position. -/
def ShowsValue (C : Gcm) (digest : Digest) (it : EncryptedDataBlockIter)
    (es : List (InternalKey × Bytes)) (pos : Option ℕ) : Prop :=
  ∀ i ∈ pos, ∀ e ∈ es[i]?, ∃ it', it.getValue C digest = .ok (e.2, it')

/-- Every call ends and leaves the iterator where the cursor over the entries with sequence
number `g` is, with its key and its value. -/
def FollowsWithSeqno (C : Gcm) (digest : Digest) (u : Comparator) (g : ℕ)
    (es : List (InternalKey × Bytes)) :
    EncryptedDataBlockIter → Option ℕ → List SeqnoCall → Prop
  | _, _, [] => True
  | it, pos, call :: calls =>
      let keys := (keysOf es).map (applySeqno g)
      ∃ fuel it', it.seqnoCall u fuel call = .ok it' ∧
        it'.Agrees keys (OrderedCursor.step (ikeyCompare u) keys pos call.op) ∧
        it'.ShowsValue C digest es (OrderedCursor.step (ikeyCompare u) keys pos call.op) ∧
        FollowsWithSeqno C digest u g es it' (OrderedCursor.step (ikeyCompare u) keys pos call.op) calls

/-! ### Number zero -/

/-- The iterator without its assigned number. -/
def plain (it : EncryptedDataBlockIter) : EncryptedDataBlockIter :=
  { it with globalSeqno := kDisableGlobalSequenceNumber }

/-- The assigned number and every stored one are zero. -/
structure AllZero (it : EncryptedDataBlockIter) : Prop where
  seqno : it.globalSeqno = 0
  table : ∀ e ∈ it.keyOffsetMap, SeqnoZero e.key
  rawKey : extractInternalKeyFooter it.rawKey < 256

variable {u : Comparator} {it it' : EncryptedDataBlockIter}

theorem entryAt_mem {i : ℤ} {e : OffsetEntry} (h : it.entryAt i = .ok e) :
    e ∈ it.keyOffsetMap := by
  unfold entryAt at h
  split_ifs at h
  split at h
  next e' he =>
    cases h
    exact List.mem_of_getElem? he
  next => cases h

theorem compareCurrentKey_plain (h : it.AllZero) (other : Bytes) :
    it.plain.compareCurrentKey u other = it.compareCurrentKey u other := by
  have hseqno : it.plain.globalSeqno = kDisableGlobalSequenceNumber := rfl
  have hraw : it.plain.rawKey = it.rawKey := rfl
  rw [compareCurrentKey, compareCurrentKey, h.seqno, hseqno, hraw,
    internalKeyCompare_zero h.rawKey]

theorem entryAt_plain (it : EncryptedDataBlockIter) (i : ℤ) : it.plain.entryAt i = it.entryAt i :=
  rfl

theorem moveTo_plain (it : EncryptedDataBlockIter) (i : ℤ) :
    it.plain.moveTo i = (it.moveTo i).map plain := by
  rw [moveTo, moveTo, entryAt_plain]
  cases it.entryAt i <;> rfl

theorem nextImpl_plain (it : EncryptedDataBlockIter) :
    it.plain.nextImpl = it.nextImpl.map plain := by
  by_cases h : it.currentIndex < (it.keyOffsetMap.length : ℤ) - 1
  · have h' : it.plain.currentIndex < (it.plain.keyOffsetMap.length : ℤ) - 1 := h
    rw [nextImpl, nextImpl, if_pos h, if_pos h', ← moveTo_plain]
    rfl
  · have h' : ¬it.plain.currentIndex < (it.plain.keyOffsetMap.length : ℤ) - 1 := h
    rw [nextImpl, nextImpl, if_neg h, if_neg h']
    rfl

/-- The key of the table that the iterator holds. -/
def Moved (it : EncryptedDataBlockIter) : Prop := SeqnoZero it.rawKey

theorem AllZero.moveTo (h : it.AllZero) {i : ℤ} (hm : it.moveTo i = .ok it') :
    it'.AllZero ∧ it'.Moved := by
  obtain ⟨e, he, hm⟩ := Outcome.bind_eq_ok.mp hm
  cases hm
  have hzero := h.table e (entryAt_mem he)
  exact ⟨⟨h.seqno, h.table, hzero.2⟩, hzero⟩

theorem AllZero.nextImpl (h : it.AllZero) (hn : it.nextImpl = .ok it') :
    it'.AllZero ∧ (it.Moved → it'.Moved) := by
  unfold EncryptedDataBlockIter.nextImpl at hn
  split_ifs at hn
  · exact ⟨(h.moveTo hn).1, fun _ => (h.moveTo hn).2⟩
  · cases hn
    exact ⟨⟨h.seqno, h.table, h.rawKey⟩, fun hm => ⟨hm.1, hm.2⟩⟩

theorem narrow_plain (fuel : ℕ) (h : it.AllZero) (start end_ : ℤ) :
    it.plain.narrow u fuel start end_ = (it.narrow u fuel start end_).map plain ∧
      ∀ it', it.narrow u fuel start end_ = .ok it' → it'.AllZero ∧ it'.Moved := by
  induction fuel generalizing it start end_ with
  | zero => exact ⟨rfl, by rintro _ ⟨⟩⟩
  | succ fuel ih =>
      rw [narrow, narrow, entryAt_plain]
      cases he : it.entryAt ((start + end_).tdiv 2) with
      | error x => exact ⟨rfl, by rintro _ ⟨⟩⟩
      | ok e =>
          have hkey := h.table e (entryAt_mem he)
          obtain ⟨it₁, hit⟩ : ∃ it₁, it₁ = ({ it with
              currentIndex := (start + end_).tdiv 2, rawKey := e.key } :
            EncryptedDataBlockIter) := ⟨_, rfl⟩
          have hzero : it₁.AllZero := by
            rw [hit]
            exact ⟨h.seqno, h.table, hkey.2⟩
          have hplain : ({ it.plain with
              currentIndex := (start + end_).tdiv 2, rawKey := e.key } :
            EncryptedDataBlockIter) = it₁.plain := by rw [hit]; rfl
          simp only [Outcome.ok_bind]
          rw [hplain, ← hit, compareCurrentKey_plain hzero]
          split_ifs
          · exact ih hzero _ _
          · refine ⟨rfl, fun it' hit' => ?_⟩
            cases hit'
            exact ⟨⟨h.seqno, h.table, hkey.2⟩, hkey⟩
          · exact ih hzero _ _

theorem advance_plain (fuel : ℕ) (target : Bytes) (h : it.AllZero) :
    it.plain.advance u target fuel = (it.advance u target fuel).map plain ∧
      ∀ it', it.advance u target fuel = .ok it' → it'.AllZero ∧ (it.Moved → it'.Moved) := by
  induction fuel generalizing it with
  | zero => exact ⟨rfl, by rintro _ ⟨⟩⟩
  | succ fuel ih =>
      have hguard : (it.plain.currentIndex < it.plain.keyOffsetMap.length ∧ it.plain.valid) ↔
          (it.currentIndex < it.keyOffsetMap.length ∧ it.valid) := Iff.rfl
      rw [advance, advance, compareCurrentKey_plain h, nextImpl_plain]
      simp only [hguard]
      split_ifs
      · refine ⟨rfl, fun it' hit' => ?_⟩
        cases hit'
        exact ⟨h, id⟩
      · cases hn : it.nextImpl with
        | error x => exact ⟨rfl, by rintro _ ⟨⟩⟩
        | ok it₁ =>
            obtain ⟨hzero, hmoved⟩ := h.nextImpl hn
            obtain ⟨heq, hall⟩ := ih hzero
            refine ⟨heq, fun it' hit' => ?_⟩
            obtain ⟨hzero', hmoved'⟩ := hall it' hit'
            exact ⟨hzero', fun hm => hmoved' (hmoved hm)⟩
      · refine ⟨rfl, fun it' hit' => ?_⟩
        cases hit'
        exact ⟨h, id⟩

theorem updateKey_plain (h : it.AllZero) (hm : it.Moved) :
    it.plain.updateKey = it.updateKey.plain := by
  have hkey := applySeqno_zero hm
  have hzero : (0 : ℕ) ≠ kDisableGlobalSequenceNumber := by decide
  by_cases hv : it.valid = true
  · have hv' : it.plain.valid = true := hv
    rw [updateKey, updateKey, if_pos hv, if_pos hv']
    simp only [plain, h.seqno, if_neg hzero, if_pos, hkey]
  · have hv' : ¬it.plain.valid = true := hv
    rw [updateKey, updateKey, if_neg hv, if_neg hv']

theorem updateKey_allZero (h : it.AllZero) (hm : it.Moved) :
    it.updateKey.AllZero ∧ it.updateKey.Moved := by
  obtain ⟨k, hk⟩ := updateKey_eq it
  rw [hk]
  exact ⟨⟨h.seqno, h.table, h.rawKey⟩, hm⟩

theorem seekImpl_plain (fuel : ℕ) (target : Bytes) (h : it.AllZero) :
    it.plain.seekImpl u fuel target = (it.seekImpl u fuel target).map plain ∧
      ∀ it', it.seekImpl u fuel target = .ok it' → it'.AllZero ∧ it'.Moved := by
  obtain ⟨hnarrow, hmoved⟩ := narrow_plain (u := u) fuel h 0 it.keyOffsetMap.length
  unfold seekImpl
  rw [show it.plain.keyOffsetMap = it.keyOffsetMap from rfl, hnarrow]
  cases hn : it.narrow u fuel 0 it.keyOffsetMap.length with
  | error x => exact ⟨rfl, fun _ h => nomatch h⟩
  | ok it₁ =>
      obtain ⟨hzero₁, hm₁⟩ := hmoved it₁ hn
      simp only [Except.map, Outcome.ok_bind]
      rw [nextImpl_plain]
      cases hnext : it₁.nextImpl with
      | error x => exact ⟨rfl, fun _ h => nomatch h⟩
      | ok it₂ =>
          obtain ⟨hzero₂, hm₂⟩ := hzero₁.nextImpl hnext
          obtain ⟨heq, hall⟩ := advance_plain (u := u) fuel target hzero₂
          refine ⟨heq, fun it' hit' => ?_⟩
          obtain ⟨hzero', hm'⟩ := hall it' hit'
          exact ⟨hzero', hm' (hm₂ hm₁)⟩

/-- A call with the assigned number zero is the call without one. -/
theorem seqnoCall_plain (fuel : ℕ) (call : SeqnoCall) (h : it.AllZero) {data : Bytes}
    (hdata : it.data = some data) (hne : it.keyOffsetMap ≠ []) (hm : call = .next → it.Moved) :
    it.plain.call u fuel call.op = (it.seqnoCall u fuel call).map plain ∧
      ∀ it', it.seqnoCall u fuel call = .ok it' → it'.AllZero ∧ it'.Moved := by
  have hfinish : ∀ x : Outcome EncryptedDataBlockIter,
      (∀ it', x = .ok it' → it'.AllZero ∧ it'.Moved) →
      (x.map plain >>= fun it => (.ok it.updateKey : Outcome EncryptedDataBlockIter)) =
        (x >>= fun it => (.ok it.updateKey : Outcome EncryptedDataBlockIter)).map plain ∧
      ∀ it', (x >>= fun it => (.ok it.updateKey : Outcome EncryptedDataBlockIter)) = .ok it' →
        it'.AllZero ∧ it'.Moved := by
    intro x hx
    cases x with
    | error e => exact ⟨rfl, fun _ h => nomatch h⟩
    | ok it₁ =>
        obtain ⟨hzero, hmoved⟩ := hx it₁ rfl
        refine ⟨congrArg Except.ok (updateKey_plain hzero hmoved), fun it' hit' => ?_⟩
        cases hit'
        exact updateKey_allZero hzero hmoved
  cases call with
  | seek t =>
      obtain ⟨hseek, hall⟩ := seekImpl_plain (u := u) fuel t.val h
      have hend := hfinish (it.seekImpl u fuel t.val) hall
      rw [← hseek] at hend
      exact hend
  | seekForGet t =>
      obtain ⟨hseek, hall⟩ := seekImpl_plain (u := u) fuel t.val h
      have hend := hfinish (it.seekImpl u fuel t.val) hall
      rw [← hseek] at hend
      have hget : it.seqnoCall u fuel (.seekForGet t) =
          (it.seekImpl u fuel t.val >>= fun it => .ok it.updateKey) := by
        rw [seqnoCall, seekForGet]
        cases it.seekImpl u fuel t.val <;> rfl
      rw [hget]
      exact hend
  | seekToFirst =>
      have hfirst : it.seekToFirst =
          (({ it with currentIndex := -1 } : EncryptedDataBlockIter).nextImpl >>=
            fun it => .ok it.updateKey) := by
        rw [seekToFirst, seekToFirstImpl_eq hdata]
      have hfirst' : it.plain.seekToFirst =
          (({ it with currentIndex := -1 } : EncryptedDataBlockIter).plain.nextImpl >>=
            fun it => .ok it.updateKey) := by
        rw [seekToFirst, seekToFirstImpl_eq (show it.plain.data = some data from hdata)]
        rfl
      have hpos := List.length_pos_of_ne_nil hne
      have hend := hfinish ({ it with currentIndex := -1 } : EncryptedDataBlockIter).nextImpl
        fun it' hit' => by
          rw [nextImpl, if_pos (by dsimp only; omega)] at hit'
          have hzero : ({ it with currentIndex := -1 } : EncryptedDataBlockIter).AllZero :=
            ⟨h.seqno, h.table, h.rawKey⟩
          exact hzero.moveTo hit'
      rw [← nextImpl_plain, ← hfirst', ← hfirst] at hend
      exact hend
  | next =>
      have hend := hfinish it.nextImpl fun it' hit' =>
        ⟨(h.nextImpl hit').1, (h.nextImpl hit').2 (hm rfl)⟩
      rw [← nextImpl_plain] at hend
      exact hend

theorem updateValue_plain (C : Gcm) (digest : Digest) (it : EncryptedDataBlockIter) :
    it.plain.updateValue C digest = (it.updateValue C digest).map plain := by
  unfold updateValue
  rw [entryAt_plain, show it.plain.currentIndex = it.currentIndex from rfl,
    show it.plain.data = it.data from rfl, show it.plain.sstKey = it.sstKey from rfl,
    show it.plain.key = it.key from rfl]
  cases it.entryAt it.currentIndex with
  | error x => rfl
  | ok e =>
      cases it.data with
      | none => rfl
      | some data =>
          simp only [Outcome.ok_bind]
          cases data.fetch e.offset e.size with
          | error x => rfl
          | ok value =>
              simp only [Outcome.ok_bind]
              cases data.fetch (e.offset + e.size) kHmacSize with
              | error x => rfl
              | ok mac =>
                  simp only [Outcome.ok_bind]
                  split_ifs <;> rfl

theorem getValue_plain (C : Gcm) (digest : Digest) (it : EncryptedDataBlockIter) :
    it.plain.getValue C digest = (it.getValue C digest).map fun r => (r.1, r.2.plain) := by
  unfold getValue
  rw [show it.plain.valueDirty = it.valueDirty from rfl, updateValue_plain]
  split_ifs
  · cases it.updateValue C digest <;> rfl
  · rfl

theorem exists_getValue_plain (C : Gcm) (digest : Digest) (it : EncryptedDataBlockIter)
    (v : Bytes) : (∃ it', it.plain.getValue C digest = .ok (v, it')) ↔
      ∃ it', it.getValue C digest = .ok (v, it') := by
  rw [getValue_plain]
  cases it.getValue C digest with
  | error x =>
      constructor
      · rintro ⟨_, h⟩
        cases h
      · rintro ⟨_, h⟩
        cases h
  | ok r =>
      constructor
      · rintro ⟨_, h⟩
        exact ⟨r.2, congrArg Except.ok (Prod.ext (Prod.mk.inj (Except.ok.inj h)).1 rfl)⟩
      · rintro ⟨_, h⟩
        exact ⟨r.2.plain, congrArg Except.ok (Prod.ext (Prod.mk.inj (Except.ok.inj h)).1 rfl)⟩

section Block

variable {C : Gcm} {digest : Digest} {delta : Bool} {key : Key}
  {es : List (InternalKey × Bytes)} {pos : Option ℕ}

theorem map_applySeqno_zero (hzero : ∀ e ∈ es, SeqnoZero e.1.val) :
    (keysOf es).map (applySeqno 0) = keysOf es := by
  have hall : ∀ k ∈ keysOf es, applySeqno 0 k = id k := by
    intro k hk
    obtain ⟨e, he, rfl⟩ := List.mem_map.mp hk
    exact Subtype.ext (applySeqno_zero (hzero e he))
  rw [List.map_congr_left hall, List.map_id]

/-- With the assigned number zero the calls follow the cursor as they do without one: by
induction on them, through the iterator without the number. -/
theorem followsWithSeqno_zero_iff (hne : es ≠ [])
    (hsorted : (keysOf es).Pairwise (fun a b => ikeyCompare u a b = .lt))
    (hzero : ∀ e ∈ es, SeqnoZero e.1.val) (h : it.AllZero) (hm : pos.isSome → it.Moved)
    (htracks : it.plain.Tracks (dataBlock C digest delta key es) key es pos)
    (calls : List SeqnoCall)
    (hallowed : CallsAllowed u (keysOf es) pos (calls.map SeqnoCall.op)) :
    it.FollowsWithSeqno C digest u 0 es pos calls ↔
      CallsFollow u es pos (calls.map SeqnoCall.op) := by
  induction calls generalizing it pos with
  | nil => exact Iff.rfl
  | cons call calls ih =>
      obtain ⟨hop, hops⟩ := hallowed
      obtain ⟨hsound, hunsound⟩ := step_call hne hsorted htracks hop
      have htable : it.keyOffsetMap ≠ [] := by
        rw [← List.length_pos_iff, show it.keyOffsetMap = it.plain.keyOffsetMap from rfl,
          htracks.isOver.length_table]
        exact List.length_pos_of_ne_nil hne
      have hplain : ∀ fuel, it.plain.call u fuel call.op = (it.seqnoCall u fuel call).map plain ∧
          ∀ it', it.seqnoCall u fuel call = .ok it' → it'.AllZero ∧ it'.Moved := by
        intro fuel
        apply seqnoCall_plain fuel call h htracks.isOver.data_eq htable
        rintro rfl
        exact hm hop
      rw [FollowsWithSeqno, List.map_cons, CallsFollow, map_applySeqno_zero hzero]
      by_cases hcall : CallFollows u es pos call.op
      · obtain ⟨it₁, hsettles, htracks₁, hagrees⟩ := hsound hcall
        constructor
        · rintro ⟨fuel, it', hit', -, -, hfollows⟩
          obtain ⟨heq, hall⟩ := hplain fuel
          obtain ⟨hz, hmoved⟩ := hall it' hit'
          rw [hit'] at heq
          obtain rfl := hsettles.stable fuel it'.plain heq
          exact ⟨hcall, (ih hz (fun _ => hmoved) htracks₁ hops).mp hfollows⟩
        · rintro ⟨-, hfollow⟩
          obtain ⟨n, hn⟩ := hsettles.enough
          obtain ⟨heq, hall⟩ := hplain n
          rw [hn n (le_refl n)] at heq
          cases hit' : it.seqnoCall u n call with
          | error x =>
              rw [hit'] at heq
              cases heq
          | ok it' =>
              rw [hit'] at heq
              obtain rfl : it₁ = it'.plain := Except.ok.inj heq
              obtain ⟨hz, hmoved⟩ := hall it' hit'
              refine ⟨n, it', hit', hagrees, ?_, (ih hz (fun _ => hmoved) htracks₁ hops).mpr hfollow⟩
              intro i hi e he
              obtain ⟨hon, hs⟩ := htracks₁.on i hi
              exact (exists_getValue_plain C digest it' e.2).mp ⟨_, getValue_on hon hs he⟩
      · constructor
        · rintro ⟨fuel, it', hit', hagrees, -⟩
          obtain ⟨heq, -⟩ := hplain fuel
          rw [hit'] at heq
          exact absurd hagrees (hunsound hcall fuel it'.plain heq)
        · rintro ⟨hfollow, -⟩
          exact absurd hfollow hcall

/-! ### Other numbers -/

/-- The first loop of `SeekImpl` does not end: it finds each key below itself. -/
theorem narrow_diverges {g : ℕ} (hpos : 0 < g) (hg : g ≤ kMaxSequenceNumber)
    (hseqno : it.globalSeqno = g) (htable : ∀ e ∈ it.keyOffsetMap, SeqnoZero e.key) (fuel : ℕ)
    {start : ℕ} (hstart : start < it.keyOffsetMap.length) :
    it.narrow u fuel start it.keyOffsetMap.length = .error .diverged := by
  induction fuel generalizing it start with
  | zero => rfl
  | succ fuel ih =>
      obtain ⟨n, hn⟩ : ∃ n, n = it.keyOffsetMap.length := ⟨_, rfl⟩
      have hmiddle : ((start : ℤ) + (it.keyOffsetMap.length : ℤ)).tdiv 2 =
          (((start + n) / 2 : ℕ) : ℤ) := by
        rw [hn]
        rfl
      have hlt : (start + n) / 2 < it.keyOffsetMap.length := by omega
      obtain ⟨e, he⟩ : ∃ e, it.keyOffsetMap[(start + n) / 2]? = some e :=
        ⟨_, List.getElem?_eq_getElem hlt⟩
      have hentry : it.entryAt (((start + n) / 2 : ℕ) : ℤ) = .ok e := by
        rw [entryAt, if_pos (Int.natCast_nonneg _), Int.toNat_natCast, he]
      have hself := internalKeyCompare_self (u := u) hpos hg (htable e (List.mem_of_getElem? he))
      have hcmp : ({ it with currentIndex := (((start + n) / 2 : ℕ) : ℤ), rawKey := e.key } :
          EncryptedDataBlockIter).compareCurrentKey u e.key = .lt := by
        rw [compareCurrentKey]
        dsimp only
        rw [hseqno]
        exact hself
      rw [narrow, hmiddle, hentry, Outcome.ok_bind]
      dsimp only
      rw [if_pos hcmp]
      exact @ih { it with currentIndex := (((start + n) / 2 : ℕ) : ℤ), rawKey := e.key }
        hseqno htable _ hlt

theorem search_diverges {g : ℕ} (hpos : 0 < g) (hg : g ≤ kMaxSequenceNumber)
    (hseqno : it.globalSeqno = g) (htable : ∀ e ∈ it.keyOffsetMap, SeqnoZero e.key)
    (hne : it.keyOffsetMap ≠ []) (fuel : ℕ) {call : SeqnoCall} (hcall : call.Searches) :
    it.seqnoCall u fuel call = .error .diverged := by
  have hnarrow := narrow_diverges (u := u) hpos hg hseqno htable fuel
    (List.length_pos_of_ne_nil hne)
  have hseek : ∀ t, it.seekImpl u fuel t = .error .diverged := by
    intro t
    rw [seekImpl]
    exact congrArg (· >>= fun it : EncryptedDataBlockIter =>
      it.nextImpl >>= fun it => it.advance u t fuel) hnarrow
  cases call with
  | seek t => rw [seqnoCall, seek, hseek, Outcome.error_bind]
  | seekForGet t => rw [seqnoCall, seekForGet, hseek, Outcome.error_bind, Outcome.error_bind]
  | seekToFirst => exact hcall.elim
  | next => exact hcall.elim

/-- The iterator stands where the cursor does, apart from its number. -/
structure Placed (it : EncryptedDataBlockIter) (data : Bytes) (key : Key)
    (es : List (InternalKey × Bytes)) (g : ℕ) (pos : Option ℕ) : Prop where
  seqno : it.globalSeqno = g
  isOver : it.plain.Over data key es
  here : ∀ i ∈ pos, it.plain.At es i ∧ i < es.length ∧ Shown es i

theorem nextImpl_seqno (h : it.nextImpl = .ok it') : it'.globalSeqno = it.globalSeqno := by
  unfold nextImpl at h
  split_ifs at h
  · obtain ⟨e, -, hm⟩ := Outcome.bind_eq_ok.mp h
    cases hm
    rfl
  · cases h
    rfl

theorem nextImpl_of_plain {it₁ : EncryptedDataBlockIter} (h : it.plain.nextImpl = .ok it₁) :
    ∃ it', it.nextImpl = .ok it' ∧ it'.plain = it₁ ∧ it'.globalSeqno = it.globalSeqno := by
  rw [nextImpl_plain] at h
  cases hn : it.nextImpl with
  | error x =>
      rw [hn] at h
      cases h
  | ok it' =>
      rw [hn] at h
      exact ⟨it', rfl, Except.ok.inj h, nextImpl_seqno hn⟩

/-- After a step the key that is shown is the one with the number in it. -/
theorem updateKey_seqno {g : ℕ} {data : Bytes} {i : ℕ} (hg : g ≤ kMaxSequenceNumber)
    (hseqno : it.globalSeqno = g) (hover : it.plain.Over data key es) (ha : it.plain.At es i)
    (hi : i < es.length) :
    it.updateKey.globalSeqno = g ∧ it.updateKey.plain.Over data key es ∧
      it.updateKey.plain.At es i ∧
      (it.updateKey.Agrees ((keysOf es).map (applySeqno g)) (some i) ↔ Shown es i) := by
  have hne : g ≠ kDisableGlobalSequenceNumber := by
    rw [kMaxSequenceNumber] at hg
    rw [kDisableGlobalSequenceNumber]
    omega
  have hvalid : it.valid = true ↔ Shown es i := by
    have hv := valid_iff hover ha hi
    exact hv
  have hraw : it.rawKey = es[i].1.val := ha.rawKey_eq _ (List.getElem?_eq_getElem hi)
  have hshown : (keysOf es)[i]? = some es[i].1 :=
    getElem?_keysOf.mpr ⟨es[i].2, List.getElem?_eq_getElem hi⟩
  obtain ⟨k, hk⟩ := updateKey_eq it
  have hagrees : it.updateKey.Agrees ((keysOf es).map (applySeqno g)) (some i) ↔ Shown es i := by
    rw [Agrees, updateKey_valid, Option.isSome_some, hvalid]
    constructor
    · exact And.left
    · intro hs
      refine ⟨hs, fun j hj k' hk' => ?_⟩
      obtain rfl := Option.some.inj hj
      rw [List.getElem?_map, hshown] at hk'
      obtain rfl := Option.some.inj hk'
      rw [updateKey, if_pos (hvalid.mpr hs), hseqno, if_neg hne, hraw]
      rfl
  refine ⟨?_, ?_, ?_, hagrees⟩
  · rw [hk]
    exact hseqno
  · rw [hk]
    exact hover.of_eq rfl rfl rfl rfl rfl rfl
  · rw [hk]
    exact ⟨ha.index_eq, ha.current_eq, ha.rawKey_eq, ha.dirty⟩

/-- One call that does not search, from a place where the cursor is. -/
theorem scan_call {g : ℕ} {data : Bytes} (hg : g ≤ kMaxSequenceNumber) (hne : es ≠ [])
    (h : it.Placed data key es g pos) {call : SeqnoCall} (hcall : ¬ call.Searches)
    (hallowed : call.op.Allowed pos) (fuel : ℕ) :
    ∃ it', it.seqnoCall u fuel call = .ok it' ∧
      (it'.Agrees ((keysOf es).map (applySeqno g))
          (OrderedCursor.step (ikeyCompare u) ((keysOf es).map (applySeqno g)) pos call.op) ↔
        CallFollows u es pos call.op) ∧
      (CallFollows u es pos call.op → it'.Placed data key es g
        (OrderedCursor.step (ikeyCompare u) ((keysOf es).map (applySeqno g)) pos call.op)) := by
  have hkeys : (keysOf es).map (applySeqno g) ≠ [] := by
    rw [← List.length_pos_iff, List.length_map, length_keysOf]
    exact List.length_pos_of_ne_nil hne
  cases call with
  | seek t => exact absurd trivial hcall
  | seekForGet t => exact absurd trivial hcall
  | seekToFirst =>
      have hpos := List.length_pos_of_ne_nil hne
      have hover : ({ it with currentIndex := -1 } : EncryptedDataBlockIter).plain.Over data key
          es := h.isOver.of_eq rfl rfl rfl rfl rfl rfl
      obtain ⟨it₁, hn, ho, ha⟩ := nextImpl_at hover hpos (by rfl)
      obtain ⟨it', hn', rfl, hs⟩ := nextImpl_of_plain hn
      obtain ⟨h₁, h₂, h₃, h₄⟩ := updateKey_seqno hg (hs.trans h.seqno) ho ha hpos
      refine ⟨it'.updateKey, ?_, ?_⟩
      · have hdata : it.data = some data := h.isOver.data_eq
        rw [seqnoCall, seekToFirst, seekToFirstImpl_eq hdata, hn', Outcome.ok_bind]
      · rw [SeqnoCall.op, OrderedCursor.step, if_neg hkeys]
        refine ⟨h₄, fun hs => ⟨h₁, h₂, fun i hi => ?_⟩⟩
        obtain rfl := Option.some.inj hi
        exact ⟨h₃, hpos, hs⟩
  | next =>
      obtain ⟨i, rfl⟩ := Option.isSome_iff_exists.mp hallowed
      obtain ⟨ha, hi, -⟩ := h.here i rfl
      by_cases hlt : i + 1 < es.length
      · have hindex : it.plain.currentIndex = ((i + 1 : ℕ) : ℤ) - 1 := by
          rw [ha.index_eq]
          omega
        obtain ⟨it₁, hn, ho, ha₁⟩ := nextImpl_at h.isOver hlt hindex
        obtain ⟨it', hn', rfl, hs⟩ := nextImpl_of_plain hn
        obtain ⟨h₁, h₂, h₃, h₄⟩ := updateKey_seqno hg (hs.trans h.seqno) ho ha₁ hlt
        refine ⟨it'.updateKey, by rw [seqnoCall, next, hn', Outcome.ok_bind], ?_⟩
        rw [SeqnoCall.op, OrderedCursor.step, Option.bind_some, List.length_map, length_keysOf, if_pos hlt]
        have hfollows : CallFollows u es (some i) .next ↔ Shown es (i + 1) := by
          simp only [CallFollows, Option.mem_some_iff, forall_eq', if_pos hlt]
        rw [hfollows]
        refine ⟨h₄, fun hs => ⟨h₁, h₂, fun j hj => ?_⟩⟩
        obtain rfl := Option.some.inj hj
        exact ⟨h₃, hlt, hs⟩
      · obtain ⟨it₁, hn, ho, hv⟩ := next_last h.isOver ha.index_eq ha.current_eq (by omega)
        obtain ⟨it₂, hn₂, hit₁⟩ := Outcome.bind_eq_ok.mp hn
        obtain rfl := Except.ok.inj hit₁
        obtain ⟨it', hn', rfl, hs⟩ := nextImpl_of_plain hn₂
        obtain ⟨k, hk⟩ := updateKey_eq it'
        obtain ⟨k', hk'⟩ := updateKey_eq it'.plain
        rw [hk'] at ho
        refine ⟨it'.updateKey, by rw [seqnoCall, next, hn', Outcome.ok_bind], ?_⟩
        rw [SeqnoCall.op, OrderedCursor.step, Option.bind_some, List.length_map, length_keysOf, if_neg hlt]
        have hfollows : CallFollows u es (some i) .next ↔ lastSize es ≤ 20000 := by
          simp only [CallFollows, Option.mem_some_iff, forall_eq', if_neg hlt]
        have hvalid : it'.updateKey.valid = true ↔ 20000 < lastSize es := by
          rw [updateKey_valid]
          rw [updateKey_valid] at hv
          exact hv
        rw [hfollows, agrees_none]
        constructor
        · rw [← Bool.not_eq_true, hvalid, Nat.not_lt]
        · intro _
          rw [hk]
          exact ⟨hs.trans h.seqno, ho.of_eq rfl rfl rfl rfl rfl rfl, by rintro _ ⟨⟩⟩

theorem showsValue_iff {g : ℕ} (h : it.Placed (dataBlock C digest delta key es) key es g pos)
    (hagrees : it.Agrees ((keysOf es).map (applySeqno g)) pos) :
    it.ShowsValue C digest es pos ↔ ∀ i ∈ pos, ∀ e ∈ es[i]?, SameMac C digest key g e := by
  have hentry : ∀ i ∈ pos, ∀ e ∈ es[i]?,
      ((∃ it', it.getValue C digest = .ok (e.2, it')) ↔ SameMac C digest key g e) := by
    intro i hi e he
    obtain ⟨ha, -, -⟩ := h.here i hi
    have hkey : it.plain.key = (applySeqno g e.1).val := by
      apply hagrees.2 i hi
      rw [List.getElem?_map, keysOf, List.getElem?_map, he]
      rfl
    have hupdate := updateValue_at h.isOver ha.index_eq he
    rw [← exists_getValue_plain, getValue, if_pos ha.dirty, hupdate, hkey]
    by_cases hmac : SameMac C digest key g e
    · refine iff_of_true ?_ hmac
      rw [SameMac] at hmac
      rw [if_pos hmac, Outcome.ok_bind]
      exact ⟨_, rfl⟩
    · refine iff_of_false ?_ hmac
      rw [SameMac] at hmac
      rw [if_neg hmac, Outcome.error_bind]
      rintro ⟨_, h⟩
      cases h
  exact forall_congr' fun i => forall_congr' fun hi => forall_congr' fun e => forall_congr'
    fun he => hentry i hi e he

theorem table_seqnoZero {data : Bytes} (hover : it.plain.Over data key es)
    (hzero : ∀ e ∈ es, SeqnoZero e.1.val) : ∀ e ∈ it.keyOffsetMap, SeqnoZero e.key := by
  intro e he
  rw [show it.keyOffsetMap = offsetTable 0 es from hover.table_eq] at he
  obtain ⟨i, hi⟩ := List.mem_iff_getElem?.mp he
  rw [getElem?_offsetTable] at hi
  obtain ⟨e', he', rfl⟩ := Option.map_eq_some_iff.mp hi
  exact hzero e' (List.mem_of_getElem? he')

/-- With another number than zero, by induction on the calls. -/
theorem followsWithSeqno_pos_iff {g : ℕ} (hpos : 0 < g) (hg : g ≤ kMaxSequenceNumber)
    (hne : es ≠ []) (hzero : ∀ e ∈ es, SeqnoZero e.1.val)
    (h : it.Placed (dataBlock C digest delta key es) key es g pos) (calls : List SeqnoCall)
    (hallowed : CallsAllowed u ((keysOf es).map (applySeqno g)) pos (calls.map SeqnoCall.op)) :
    it.FollowsWithSeqno C digest u g es pos calls ↔
      SeqnoCallsFollow C digest key u g es pos calls := by
  induction calls generalizing it pos with
  | nil => exact Iff.rfl
  | cons call calls ih =>
      obtain ⟨hop, hops⟩ := hallowed
      rw [FollowsWithSeqno, SeqnoCallsFollow]
      by_cases hcall : call.Searches
      · have hover := h.isOver
        have htable := table_seqnoZero hover hzero
        have htable' : it.keyOffsetMap ≠ [] := by
          rw [← List.length_pos_iff, show it.keyOffsetMap.length = es.length from
            hover.length_table]
          exact List.length_pos_of_ne_nil hne
        constructor
        · rintro ⟨fuel, it', hit', -⟩
          rw [search_diverges hpos hg h.seqno htable htable' fuel hcall] at hit'
          cases hit'
        · rintro ⟨-, hz, -⟩
          exact absurd (hz hcall) hpos.ne'
      · constructor
        · rintro ⟨fuel, it', hit', hagrees, hvalue, hfollows⟩
          obtain ⟨it₁, hit₁, hiff, hplaced⟩ := scan_call (u := u) hg hne h hcall hop fuel
          obtain rfl := Except.ok.inj (hit'.symm.trans hit₁)
          have hf := hiff.mp hagrees
          have hp := hplaced hf
          exact ⟨hf, fun hs => absurd hs hcall, (showsValue_iff hp hagrees).mp hvalue,
            (ih hp hops).mp hfollows⟩
        · rintro ⟨hf, -, hmac, hfollow⟩
          obtain ⟨it₁, hit₁, hiff, hplaced⟩ := scan_call (u := u) hg hne h hcall hop 0
          have hagrees := hiff.mpr hf
          have hp := hplaced hf
          exact ⟨0, it₁, hit₁, hagrees, (showsValue_iff hp hagrees).mpr hmac,
            (ih hp hops).mpr hfollow⟩

end Block

end EncryptedDataBlockIter

/-- With number zero the condition is the one without a number. -/
theorem seqnoCallsFollow_zero {C : Gcm} {digest : Digest} {key : Key} {u : Comparator}
    {es : List (InternalKey × Bytes)} (hzero : ∀ e ∈ es, SeqnoZero e.1.val) (pos : Option ℕ)
    (calls : List SeqnoCall) : SeqnoCallsFollow C digest key u 0 es pos calls ↔
      CallsFollow u es pos (calls.map SeqnoCall.op) := by
  induction calls generalizing pos with
  | nil => exact Iff.rfl
  | cons call calls ih =>
      rw [SeqnoCallsFollow, List.map_cons, CallsFollow, ih,
        EncryptedDataBlockIter.map_applySeqno_zero hzero]
      constructor
      · exact fun h => ⟨h.1, h.2.2.2⟩
      · intro h
        refine ⟨h.1, fun _ => rfl, fun i _ e he => ?_, h.2⟩
        have hkey : (applySeqno 0 e.1).val = e.1.val :=
          applySeqno_zero (hzero e (List.mem_of_getElem? he))
        rw [SameMac, hkey]

/-- The calls on an iterator that was opened with sequence number `g` give what the cursor
over the entries with that number gives, and every value passes its check. -/
def SeqnoRefinesCursor (C : Gcm) (digest : Digest) (delta : Bool) (key : Key) (u : Comparator)
    (g : ℕ) (es : BlockEntries u) (calls : List SeqnoCall) : Prop :=
  ∃ it, (EncryptedBlock.mk (dataBlock C digest delta key es.entries) key).newDataIterator C u g =
      .ok it ∧ it.FollowsWithSeqno C digest u g es.entries none calls

theorem seqnoRefinesCursor_of_opened (C : Gcm) (digest : Digest) (delta : Bool) (key : Key)
    (u : Comparator) (g : ℕ) (es : BlockEntries u) (calls : List SeqnoCall)
    (hne : es.entries ≠ [])
    (hsize : (dataBlock C digest delta key es.entries).length ≤ 2 ^ 31) :
    ∃ it : EncryptedDataBlockIter, it.rawKey = [] ∧
      it.Placed (dataBlock C digest delta key es.entries) key es.entries g none ∧
      (SeqnoRefinesCursor C digest delta key u g es calls ↔
        it.FollowsWithSeqno C digest u g es.entries none calls) := by
  have hlen := length_dataBlock C digest key delta es.entries
  refine ⟨openedIter key (dataBlock C digest delta key es.entries) g es.entries, rfl,
    ⟨rfl, openedIter_over (by omega), fun _ h => nomatch h⟩, ?_⟩
  rw [SeqnoRefinesCursor, newDataIterator_dataBlock C digest key u delta _ es hne hsize]
  constructor
  · rintro ⟨it', hit', h⟩
    rwa [Except.ok.inj hit']
  · exact fun h => ⟨_, rfl, h⟩

/-- An iterator with a sequence number goes along with the cursor exactly if each call does
without a number, no call searches unless the number is zero, and the MAC over each key that
is shown is the one over the stored key. -/
theorem seqnoRefinesCursor_iff (C : Gcm) (digest : Digest) (delta : Bool) (key : Key)
    (u : Comparator) (g : ℕ) (es : BlockEntries u) (calls : List SeqnoCall)
    (hne : es.entries ≠ []) (hzero : ∀ e ∈ es.entries, SeqnoZero e.1.val)
    (hg : g ≤ kMaxSequenceNumber)
    (hsize : (dataBlock C digest delta key es.entries).length ≤ 2 ^ 31)
    (hallowed : CallsAllowed u ((keysOf es.entries).map (applySeqno g)) none
      (calls.map SeqnoCall.op)) :
    SeqnoRefinesCursor C digest delta key u g es calls ↔
      SeqnoCallsFollow C digest key u g es.entries none calls := by
  obtain ⟨it, hraw, hplaced, hiff⟩ :=
    seqnoRefinesCursor_of_opened C digest delta key u g es calls hne hsize
  rw [hiff]
  rcases Nat.eq_zero_or_pos g with rfl | hpos
  · have hallzero : it.AllZero := by
      refine ⟨hplaced.seqno, EncryptedDataBlockIter.table_seqnoZero hplaced.isOver hzero, ?_⟩
      rw [hraw]
      decide
    have htracks : it.plain.Tracks (dataBlock C digest delta key es.entries) key es.entries none :=
      ⟨hplaced.isOver, fun _ h => nomatch h⟩
    have hmoved : (none : Option ℕ).isSome → it.Moved := fun h => absurd h Bool.false_ne_true
    rw [EncryptedDataBlockIter.map_applySeqno_zero hzero] at hallowed
    rw [seqnoCallsFollow_zero hzero]
    exact EncryptedDataBlockIter.followsWithSeqno_zero_iff hne es.sorted_keysOf hzero hallzero
      hmoved htracks calls hallowed
  · exact EncryptedDataBlockIter.followsWithSeqno_pos_iff hpos hg hne hzero hplaced calls hallowed

/-- Two entries with sequence number zero. -/
def ingestedEntries : BlockEntries bytewiseComparator where
  entries := [(⟨[97, 1, 0, 0, 0, 0, 0, 0, 0], by decide⟩, [120]),
    (⟨[98, 1, 0, 0, 0, 0, 0, 0, 0], by decide⟩, [121])]
  sorted := by decide

theorem seqnoRefinesCursor_iff_ingestedEntries :
    SeqnoRefinesCursor sampleGcm sampleDigest true sampleKey bytewiseComparator 0 ingestedEntries
      [.seek ⟨[98, 1, 0, 0, 0, 0, 0, 0, 0], by decide⟩, .seekToFirst, .next, .next] :=
  (seqnoRefinesCursor_iff sampleGcm sampleDigest true sampleKey bytewiseComparator 0
    ingestedEntries _ (by decide) (by decide) (by decide) (by rw [length_dataBlock]; decide)
    (by decide)).mpr (by decide)

/-- With the number one a search does not end. -/
theorem ingestedEntries_not_refinesCursor :
    ¬ SeqnoRefinesCursor sampleGcm sampleDigest true sampleKey bytewiseComparator 1
      ingestedEntries [.seek ⟨[97, 1, 1, 0, 0, 0, 0, 0, 0], by decide⟩] := by
  obtain ⟨it, -, hplaced, hiff⟩ := seqnoRefinesCursor_of_opened sampleGcm sampleDigest true
    sampleKey bytewiseComparator 1 ingestedEntries
    [.seek ⟨[97, 1, 1, 0, 0, 0, 0, 0, 0], by decide⟩] (by decide)
    (by rw [length_dataBlock]; decide)
  rw [hiff, EncryptedDataBlockIter.followsWithSeqno_pos_iff (by decide) (by decide) (by decide)
    (by decide) hplaced _ (by decide)]
  rintro ⟨-, hz, -⟩
  exact absurd (hz trivial) (by decide)

end Tweezer
