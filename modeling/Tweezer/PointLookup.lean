import Tweezer.BlockSubstitution
import Tweezer.GlobalSeqno
import Tweezer.MetaBlockReaders

/-!
# Point lookups in a table

`BlockBasedTable::Get` of `table/block_based/block_based_table_reader.cc` without a filter, and
what it shares with `MultiGet`: `NewDataBlockIterator`, and the loops over the entries of a block
and over the blocks from an entry of the index on. What `GetContext::SaveValue` does with an entry
is a parameter: it keeps what it needs and says whether it wants to see the next one.
-/

namespace Tweezer

/-- `SaveValue`, with the key and the value that the iterator shows. -/
abbrev SaveValue (σ : Type) := σ → Bytes → Bytes → Bool × σ

/-- What is behind a pointer that is taken for one to an `EncryptedBlock`: such a block, or a
`Block`, which has no room for a key. -/
structure Blocklike where
  isEncrypted : Bool
  contents : Bytes
  deriving DecidableEq

/-- The block caches, and for which handles the cache of blocks holds a `Block`. -/
structure CacheState where
  reader : ReaderState
  plain : BlockHandle → Bool

/-- The caches as lookups and iterators leave them, who insert blocks as `EncryptedBlock`s. -/
def CacheState.ofReader (reader : ReaderState) : CacheState := ⟨reader, fun _ => false⟩

/-- The checksum types of a footer, with the two functions that are not modelled here. -/
inductive ChecksumType where
  | noChecksum
  | crc32c
  | xxHash (hash : Bytes → ℕ)
  | xxHash64 (hash : Bytes → ℕ)

/-- What the lookups use of an open table. -/
structure PointReader where
  env : TableEnv
  options : ReaderOptions
  comparator : Comparator
  /-- The result of `NewIndexIterator`. -/
  index : IndexBlockIter
  globalSeqno : ℕ
  checksum : ChecksumType

/-- The read options that the lookups look at; the read tier is that for all reads. -/
structure LookupOptions where
  fillCache : Bool
  verifyChecksums : Bool
  deriving DecidableEq

/-- `RetrieveBlock` for a data block. -/
def LookupOptions.call (ro : LookupOptions) (handle : BlockHandle) (noIo : Bool) : ReaderCall where
  reader := .retrieveBlock .data true
  handle := handle
  prefetchBuffer := none
  sameAllocator := true
  noIo := noIo
  fillCache := ro.fillCache

namespace PointReader

variable (R : PointReader) {σ : Type} (saveValue : SaveValue σ) (ro : LookupOptions)

/-- `RetrieveBlock` of an `EncryptedBlock` or of a `Block`; what it finds in the cache of blocks
is taken for one whatever it is. -/
def retrieveBlock (asEncrypted : Bool) (c : ReaderCall) (st : CacheState) :
    Outcome (Option Blocklike × CacheState) :=
  let cached := R.options.blockCache && (st.reader.blockCache c.handle).isSome
  let isEncrypted := if cached then !st.plain c.handle else asEncrypted
  match st.reader.retrieveBlock R.env R.options c .data true with
  | (.error e, _) => .error e
  | (.ok contents, reader) =>
      .ok (contents.map (⟨isEncrypted, ·⟩),
        ⟨reader, Function.update st.plain c.handle (!isEncrypted)⟩)

/-- `InitBlockIterator`, which stores the key in the block that it is handed. -/
def initBlockIterator (block : Blocklike) : Outcome EncryptedDataBlockIter :=
  if block.isEncrypted then
    (EncryptedBlock.mk block.contents R.env.sstKey).newDataIterator R.env.cipher R.comparator
      R.globalSeqno
  else .error .outOfBuffer

/-- `NewDataBlockIterator` of a handle. -/
def newDataBlockIterator (handle : BlockHandle) (st : CacheState) :
    Outcome (EncryptedDataBlockIter × CacheState) := do
  let (block, st) ← R.retrieveBlock true (ro.call handle false) st
  match block with
  | none => .ok (EncryptedDataBlockIter.fresh.invalidate (.corruption "data block"), st)
  | some block => do
      let biter ← R.initBlockIterator block
      .ok (biter, st)

/-- The loop that calls `SaveValue` on each entry until it returns false, for at most `fuel`
entries: whether it did. -/
def saveEntries : ℕ → EncryptedDataBlockIter → σ → Outcome (Bool × EncryptedDataBlockIter × σ)
  | 0, _, _ => .error .diverged
  | fuel + 1, biter, s =>
      if biter.valid then do
        let key := biter.key
        let (value, biter) ← biter.getValue R.env.cipher R.env.digest
        let (more, s) := saveValue s key value
        if more then do
          let biter ← biter.next
          saveEntries fuel biter s
        else .ok (true, biter, s)
      else .ok (false, biter, s)

/-- The search in a block. -/
def searchBlock (fuel : ℕ) (biter : EncryptedDataBlockIter) (key : Bytes) (s : σ) :
    Outcome (Bool × EncryptedDataBlockIter × σ) := do
  let (mayExist, biter) ← biter.seekForGet R.comparator fuel key
  if mayExist then R.saveEntries saveValue fuel biter s else .ok (true, biter, s)

/-- `check_corruption`, which only `Get` calls. -/
def checkBlock (checks : Bool) (iiter : IndexBlockIter) (biter : EncryptedDataBlockIter) :
    Outcome Unit :=
  if checks then do
    let lastKey ← biter.lastKey
    let firstKey ← biter.firstKey
    iiter.checkCorruption lastKey firstKey
  else .ok ()

/-- The loop over the data blocks from where the index iterator stands, for at most `fuel`
blocks. `status` is what the last block left. -/
def searchBlocks (checks : Bool) (key : Bytes) : ℕ → IndexBlockIter → CacheState → Status → σ →
    Outcome (Status × IndexBlockIter × CacheState × σ)
  | 0, _, _, _, _ => .error .diverged
  | fuel + 1, iiter, st, status, s =>
      if iiter.valid then do
        let handle ← iiter.value
        let (biter, st) ← R.newDataBlockIterator ro handle st
        checkBlock checks iiter biter
        if biter.status ≠ .ok then .ok (biter.status, iiter, st, s)
        else do
          let (done, biter, s) ← R.searchBlock saveValue fuel biter key s
          if done then .ok (biter.status, iiter, st, s)
          else do
            let iiter ← iiter.next
            searchBlocks checks key fuel iiter st biter.status s
      else .ok (status, iiter, st, s)

/-- The status that a lookup ends with. -/
def finalStatus (status : Status) (iiter : IndexBlockIter) : Status :=
  if status = .ok then iiter.status else status

/-- `Get`. -/
def get (fuel : ℕ) (st : CacheState) (key : Bytes) (s : σ) : Outcome (Status × σ) := do
  let iiter ← R.index.seek R.comparator key
  let (status, iiter, _, s) ← R.searchBlocks saveValue ro true key fuel iiter st .ok s
  .ok (finalStatus status iiter, s)

end PointReader

/-! ### The search in a block -/

/-- The entries that the loop over a block sees. `Next` leaves the last one in place until it has
got past its value in steps of 20000. -/
def seenEntries : List (InternalKey × Bytes) → List (InternalKey × Bytes)
  | [] => []
  | [e] => List.replicate ((e.2.length + 19999) / 20000) e
  | e :: e' :: es => e :: seenEntries (e' :: es)

section Entries

variable {σ : Type} (saveValue : SaveValue σ)

/-- `SaveValue` on each entry until it returns false: whether it did. -/
def saveAll : List (InternalKey × Bytes) → σ → Bool × σ
  | [], s => (false, s)
  | e :: es, s =>
      if (saveValue s e.1.val e.2).1 then saveAll es (saveValue s e.1.val e.2).2
      else (true, (saveValue s e.1.val e.2).2)

/-- What a lookup of the key makes of a block. -/
def lookupEntries (u : Comparator) (es : List (InternalKey × Bytes)) (key : InternalKey) (s : σ) :
    Bool × σ :=
  match OrderedCursor.seek (ikeyCompare u) (keysOf es) key with
  | some j => saveAll saveValue (seenEntries (es.drop j)) s
  | none => (false, s)

end Entries

namespace PointReader

variable {R : PointReader} {σ : Type} {saveValue : SaveValue σ} {delta : Bool} {key : Key}
  {es : List (InternalKey × Bytes)} {e : InternalKey × Bytes} {i : ℕ}
  {it it₁ it₂ : EncryptedDataBlockIter}

/-- From here on the loop calls `SaveValue` on these entries. -/
def Saves (R : PointReader) (saveValue : SaveValue σ) (delta : Bool) (key : Key)
    (es : List (InternalKey × Bytes)) (it : EncryptedDataBlockIter)
    (seen : List (InternalKey × Bytes)) : Prop :=
  ∀ s, ∃ it' : EncryptedDataBlockIter, Outcome.Settles
    (fun fuel => R.saveEntries saveValue fuel it s)
    ((saveAll saveValue seen s).1, it', (saveAll saveValue seen s).2) ∧
      it'.Over (dataBlock R.env.cipher R.env.digest delta key es) key es

theorem saves_nil (h : it.Over (dataBlock R.env.cipher R.env.digest delta key es) key es)
    (hv : it.valid = false) : Saves R saveValue delta key es it [] := by
  intro s
  refine ⟨it, Outcome.settles_stop rfl ?_, h⟩
  intro fuel
  rw [saveEntries, if_neg (by rw [hv]; exact Bool.false_ne_true)]
  rfl

theorem saves_cons (hv : it.valid = true) (hkey : it.key = e.1.val)
    (hvalue : it.getValue R.env.cipher R.env.digest = .ok (e.2, it₁))
    (hover : it₁.Over (dataBlock R.env.cipher R.env.digest delta key es) key es)
    (hnext : it₁.next = .ok it₂) {seen : List (InternalKey × Bytes)}
    (hrest : Saves R saveValue delta key es it₂ seen) :
    Saves R saveValue delta key es it (e :: seen) := by
  intro s
  have hturn : ∀ fuel, R.saveEntries saveValue (fuel + 1) it s =
      if (saveValue s e.1.val e.2).1 then
        R.saveEntries saveValue fuel it₂ (saveValue s e.1.val e.2).2
      else .ok (true, it₁, (saveValue s e.1.val e.2).2) := by
    intro fuel
    rw [saveEntries, if_pos hv, hvalue, Outcome.ok_bind]
    dsimp only
    rw [hkey, hnext, Outcome.ok_bind]
  cases hmore : (saveValue s e.1.val e.2).1 with
  | true =>
      obtain ⟨it', hsettles, hover'⟩ := hrest (saveValue s e.1.val e.2).2
      have hstep : ∀ fuel, R.saveEntries saveValue (fuel + 1) it s =
          R.saveEntries saveValue fuel it₂ (saveValue s e.1.val e.2).2 := by
        intro fuel
        rw [hturn, if_pos hmore]
      rw [saveAll, if_pos hmore]
      exact ⟨it', Outcome.settles_succ rfl hstep hsettles, hover'⟩
  | false =>
      have hno : ¬(saveValue s e.1.val e.2).1 = true := by
        rw [hmore]
        exact Bool.false_ne_true
      refine ⟨it₁, Outcome.settles_stop rfl ?_, hover⟩
      intro fuel
      rw [hturn, if_neg hno, saveAll, if_neg hno]

/-- The iterator stands at the last entry, and `Next` has moved its offset on by this much. -/
structure AtLast (it : EncryptedDataBlockIter) (data : Bytes) (key : Key)
    (es : List (InternalKey × Bytes)) (e : InternalKey × Bytes) (passed : ℕ) : Prop where
  isOver : it.Over data key es
  last : es[es.length - 1]? = some e
  currentIndex : it.currentIndex = (es.length : ℤ) - 1
  current : it.current = valuesSize (es.take (es.length - 1)) + kHmacSize + passed
  rawKey : it.rawKey = e.1.val
  key_eq : it.valid = true → it.key = e.1.val
  value : it.valueDirty = true ∨ it.value = e.2

variable {data : Bytes} {passed : ℕ}

theorem AtLast.pos (h : AtLast it data key es e passed) : 0 < es.length := by
  obtain ⟨hlt, -⟩ := List.getElem?_eq_some_iff.mp h.last
  omega

theorem AtLast.valid_iff (h : AtLast it data key es e passed) :
    it.valid = true ↔ passed < e.2.length := by
  have hpos := h.pos
  have hsize := valuesSize_eq h.last
  have hrest : valuesSize (es.drop (es.length - 1 + 1)) = 0 := by
    rw [List.drop_of_length_le (by omega), valuesSize]
  rw [EncryptedDataBlockIter.valid, decide_eq_true_iff, h.current, h.isOver.restarts_eq]
  omega

theorem AtLast.getValue
    (h : AtLast it (dataBlock R.env.cipher R.env.digest delta key es) key es e passed)
    (hv : it.valid = true) : ∃ it' : EncryptedDataBlockIter,
      it.getValue R.env.cipher R.env.digest = .ok (e.2, it') ∧ it'.valid = true ∧
        AtLast it' (dataBlock R.env.cipher R.env.digest delta key es) key es e passed := by
  have hpos := h.pos
  have hindex : it.currentIndex = ((es.length - 1 : ℕ) : ℤ) := by
    rw [h.currentIndex]
    omega
  unfold EncryptedDataBlockIter.getValue
  by_cases hdirty : it.valueDirty = true
  · have hupdate := EncryptedDataBlockIter.updateValue_at h.isOver hindex h.last
    rw [h.key_eq hv, if_pos rfl] at hupdate
    rw [if_pos hdirty, hupdate, Outcome.ok_bind]
    exact ⟨_, rfl, hv, h.isOver.of_eq rfl rfl rfl rfl rfl rfl, h.last, h.currentIndex, h.current,
      h.rawKey, fun _ => rfl, Or.inr rfl⟩
  · rw [if_neg hdirty, h.value.resolve_left hdirty]
    exact ⟨it, rfl, hv, h⟩

theorem AtLast.next (h : AtLast it data key es e passed) (hv : it.valid = true) :
    ∃ it' : EncryptedDataBlockIter, it.next = .ok it' ∧
      AtLast it' data key es e (passed + 20000) := by
  have hcurrent : it.current < it.restarts := of_decide_eq_true hv
  have hsmall := h.isOver.small
  have hrestarts := h.isOver.restarts_eq
  have hu : u32 (it.current + 20000) = it.current + 20000 := u32_of_lt (by omega)
  obtain ⟨it₁, hit⟩ : ∃ it₁, it₁ = ({ it with current := u32 (it.current + 20000) } :
      EncryptedDataBlockIter) := ⟨_, rfl⟩
  have hover : it₁.Over data key es := by
    rw [hit]
    exact h.isOver.of_eq rfl rfl rfl rfl rfl rfl
  have hraw : it₁.rawKey = e.1.val := by
    rw [hit]
    exact h.rawKey
  refine ⟨it₁.updateKey, ?_, EncryptedDataBlockIter.updateKey_over hover, h.last, ?_, ?_, ?_, ?_, ?_⟩
  · rw [EncryptedDataBlockIter.next, EncryptedDataBlockIter.nextImpl_last h.isOver h.currentIndex,
      ← hit, Outcome.ok_bind]
  all_goals obtain ⟨k, hk⟩ := EncryptedDataBlockIter.updateKey_eq it₁
  · rw [hk, hit]
    exact h.currentIndex
  · rw [hk, hit]
    dsimp only
    rw [hu, h.current, Nat.add_assoc]
  · rw [hk]
    exact hraw
  · intro hvalid
    rw [EncryptedDataBlockIter.updateKey_valid] at hvalid
    rw [EncryptedDataBlockIter.updateKey_key hover hvalid, hraw]
  · rw [hk, hit]
    exact h.value

/-- At the last entry the loop sees it as often as its value is long. -/
theorem saves_last (n : ℕ)
    (h : AtLast it (dataBlock R.env.cipher R.env.digest delta key es) key es e passed)
    (hn : (e.2.length - passed + 19999) / 20000 = n) :
    Saves R saveValue delta key es it (List.replicate n e) := by
  induction n generalizing it passed with
  | zero =>
      have hv : it.valid = false := by
        rw [← Bool.not_eq_true, h.valid_iff]
        omega
      exact saves_nil h.isOver hv
  | succ n ih =>
      have hv : it.valid = true := h.valid_iff.mpr (by omega)
      obtain ⟨it₁, hvalue, hv₁, hlast₁⟩ := h.getValue hv
      obtain ⟨it₂, hnext, hlast₂⟩ := hlast₁.next hv₁
      rw [List.replicate_succ]
      exact saves_cons hv (h.key_eq hv) hvalue hlast₁.isOver hnext (ih hlast₂ (by omega))

/-- From any entry on, by induction on the number of entries behind it. -/
theorem saves_on (n : ℕ)
    (h : it.On (dataBlock R.env.cipher R.env.digest delta key es) key es i)
    (hn : i + (n + 1) = es.length) :
    Saves R saveValue delta key es it (seenEntries (es.drop i)) := by
  induction n generalizing it i with
  | zero =>
      have he := List.getElem?_eq_getElem h.lt
      rw [List.drop_eq_getElem_cons h.lt, List.drop_of_length_le (by omega), seenEntries]
      have hi : i = es.length - 1 := by omega
      have hlast : AtLast it (dataBlock R.env.cipher R.env.digest delta key es) key es es[i] 0 := by
        refine ⟨h.isOver, ?_, ?_, ?_, h.here.rawKey_eq _ he, ?_, Or.inl h.here.dirty⟩
        · rw [← hi]
          exact he
        · rw [h.here.index_eq]
          omega
        · rw [h.here.current_eq, ← hi, Nat.add_zero]
        · intro hv
          rw [h.key_eq_rawKey hv]
          exact h.here.rawKey_eq _ he
      exact saves_last _ hlast (by rw [Nat.sub_zero])
  | succ n ih =>
      have he := List.getElem?_eq_getElem h.lt
      have hs : Shown es i := Or.inl (by omega)
      have hnext : i + 1 < es.length := by omega
      have hover : ({ it with value := es[i].2, valueDirty := false } :
          EncryptedDataBlockIter).Over (dataBlock R.env.cipher R.env.digest delta key es) key es :=
        h.isOver.of_eq rfl rfl rfl rfl rfl rfl
      obtain ⟨it₂, hmove, hon⟩ :=
        EncryptedDataBlockIter.next_on hover h.here.index_eq hnext
      have hrest := ih hon (by omega)
      rw [List.drop_eq_getElem_cons hnext] at hrest
      rw [List.drop_eq_getElem_cons h.lt, List.drop_eq_getElem_cons hnext, seenEntries]
      exact saves_cons (h.valid_iff.mpr hs) (h.key_eq hs he)
        (EncryptedDataBlockIter.getValue_on h hs he) hover hmove hrest

/-- The search in a block that was built, from wherever its iterator stands. -/
theorem searchBlock_spec (saveValue : SaveValue σ)
    (h : it.Over (dataBlock R.env.cipher R.env.digest delta key es) key es) (hne : es ≠ [])
    (t : InternalKey) (s : σ) : ∃ it' : EncryptedDataBlockIter, Outcome.Settles
      (fun fuel => R.searchBlock saveValue fuel it t.val s)
      ((lookupEntries saveValue R.comparator es t s).1, it',
        (lookupEntries saveValue R.comparator es t s).2) ∧
      it'.Over (dataBlock R.env.cipher R.env.digest delta key es) key es := by
  obtain ⟨it₁, hseek, hover, hfound⟩ := EncryptedDataBlockIter.seekImpl_settles
    (u := R.comparator) h (List.length_pos_of_ne_nil hne) t
  have hsaves : ∀ seen, Saves R saveValue delta key es it₁.updateKey seen →
      ∃ it' : EncryptedDataBlockIter, Outcome.Settles
        (fun fuel => R.searchBlock saveValue fuel it t.val s)
        ((saveAll saveValue seen s).1, it', (saveAll saveValue seen s).2) ∧
        it'.Over (dataBlock R.env.cipher R.env.digest delta key es) key es := by
    intro seen hseen
    obtain ⟨it', hsettles, hover'⟩ := hseen s
    refine ⟨it', ?_, hover'⟩
    have hget : Outcome.Settles (fun fuel => it.seekForGet R.comparator fuel t.val)
        (true, it₁.updateKey) := Outcome.settles_bind hseek (Outcome.settles_const rfl)
    exact Outcome.settles_bind hget hsettles
  unfold lookupEntries
  cases hs : OrderedCursor.seek (ikeyCompare R.comparator) (keysOf es) t with
  | some j =>
      rw [hs] at hfound
      obtain ⟨hat, hlt⟩ := hfound
      exact hsaves _ (saves_on (es.length - (j + 1))
        (EncryptedDataBlockIter.updateKey_on hover hat hlt) (by omega))
  | none =>
      rw [hs] at hfound
      apply hsaves []
      apply saves_nil (EncryptedDataBlockIter.updateKey_over hover)
      rw [EncryptedDataBlockIter.updateKey_valid]
      exact hfound

end PointReader

end Tweezer
