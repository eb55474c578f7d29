import Mathlib.Data.List.Chain
import Tweezer.BlockTable

/-!
# Opening any bytes as a data block

What `EncryptedBlock::NewDataIterator` and `Ready` make of bytes that the host chose. `Ready`
takes the offset of the metadata and every length in it as they are, so opening a block stays
inside of it exactly if the metadata is one that fits.
-/

namespace Tweezer

namespace EncryptedBlock

variable (b : EncryptedBlock)

/-- What the last four bytes say. -/
def metaOffset : ℕ := Bytes.leDecode (b.contents.drop (b.contents.length - 4))

/-- The metadata that lies there, whose length is a number of 32 bits. -/
def metadata (C : Gcm) : Bytes :=
  C.dec b.sstKey (b.contents.slice b.metaOffset ((b.contents.length - b.metaOffset - 4) % 2 ^ 32))

end EncryptedBlock

/-- A call on an open iterator. -/
inductive IterCall where
  | seek (target : InternalKey)
  | next
  | value

namespace IterCall

variable (C : Gcm) (digest : Digest) (u : Comparator)

/-- The calls as their preconditions let them be made. Only a table of one entry can have a key
that is too short, and a `Seek` compares it first. -/
def run (fuel : ℕ) (it : EncryptedDataBlockIter) : IterCall → Outcome EncryptedDataBlockIter
  | .seek target =>
      if ∃ e ∈ it.keyOffsetMap, e.key.length < kNumInternalBytes then .error .outOfBuffer
      else it.seek u fuel target.val
  | .next => if it.valid then it.next else .ok it
  | .value =>
      if it.valid then do
        let (_, it) ← it.getValue C digest
        .ok it
      else .ok it

def runAll (fuel : ℕ) : EncryptedDataBlockIter → List IterCall → Outcome EncryptedDataBlockIter
  | it, [] => .ok it
  | it, c :: cs => do
      let it ← c.run C digest u fuel it
      runAll fuel it cs

end IterCall

namespace EncryptedDataBlockIter

variable {C : Gcm} {digest : Digest} {u : Comparator} {it : EncryptedDataBlockIter}

/-- The key table is one of the data, with keys that are long enough, and not empty. -/
structure TableFits (it : EncryptedDataBlockIter) : Prop where
  data : ∃ data, it.data = some data ∧
    ∀ e ∈ it.keyOffsetMap, e.offset + e.size + kHmacSize ≤ data.length
  long : ∀ e ∈ it.keyOffsetMap, kNumInternalBytes ≤ e.key.length
  pos : 0 < it.keyOffsetMap.length

/-- The iterator has been positioned. -/
structure Positioned (it : EncryptedDataBlockIter) : Prop where
  fits : it.TableFits
  index_nonneg : 0 ≤ it.currentIndex
  index_lt : it.currentIndex < it.keyOffsetMap.length

theorem TableFits.of_eq {it' : EncryptedDataBlockIter} (h : it.TableFits)
    (hdata : it'.data = it.data) (htable : it'.keyOffsetMap = it.keyOffsetMap) :
    it'.TableFits := by
  obtain ⟨⟨data, hsome, hfits⟩, hlong, hpos⟩ := h
  constructor
  · rw [htable]
    exact ⟨data, hdata.trans hsome, hfits⟩
  · rwa [htable]
  · rwa [htable]

theorem Positioned.updateKey (h : it.Positioned) : it.updateKey.Positioned := by
  unfold EncryptedDataBlockIter.updateKey
  split_ifs
  · exact ⟨h.fits.of_eq rfl rfl, h.index_nonneg, h.index_lt⟩
  · exact ⟨h.fits.of_eq rfl rfl, h.index_nonneg, h.index_lt⟩
  · exact h

theorem entryAt_eq {i : ℤ} (hnonneg : 0 ≤ i) (hlt : i < it.keyOffsetMap.length) :
    ∃ e ∈ it.keyOffsetMap, it.entryAt i = .ok e := by
  have hlt' : i.toNat < it.keyOffsetMap.length := by omega
  refine ⟨it.keyOffsetMap[i.toNat], List.getElem_mem hlt', ?_⟩
  rw [entryAt, if_pos hnonneg, List.getElem?_eq_getElem hlt']

theorem TableFits.moveTo (h : it.TableFits) {i : ℤ} (hnonneg : 0 ≤ i)
    (hlt : i < it.keyOffsetMap.length) : (it.moveTo i).InBounds Positioned := by
  obtain ⟨e, -, hentry⟩ := entryAt_eq hnonneg hlt
  rw [EncryptedDataBlockIter.moveTo, hentry]
  exact ⟨h.of_eq rfl rfl, hnonneg, hlt⟩

theorem TableFits.nextImpl (h : it.TableFits) (hle : -1 ≤ it.currentIndex)
    (hlt : it.currentIndex < it.keyOffsetMap.length) : it.nextImpl.InBounds Positioned := by
  have hpos := h.pos
  unfold EncryptedDataBlockIter.nextImpl
  split_ifs with hnext
  · exact h.moveTo (by omega) (by omega)
  · exact ⟨h.of_eq rfl rfl, by dsimp only; omega, hlt⟩

/-- The first loop of `SeekImpl` ends before an entry of the table. -/
theorem TableFits.narrow (h : it.TableFits) (fuel : ℕ) {start end_ : ℤ} (hstart : 0 ≤ start)
    (hlt : start < it.keyOffsetMap.length) (hle : start ≤ end_)
    (hend : end_ ≤ it.keyOffsetMap.length) :
    (it.narrow u fuel start end_).InBounds fun it' => it'.TableFits ∧ -1 ≤ it'.currentIndex ∧
      it'.currentIndex < it'.keyOffsetMap.length := by
  induction fuel generalizing it start end_ with
  | zero => exact fun h => nomatch h
  | succ fuel ih =>
      obtain ⟨middle, hmiddle⟩ : ∃ middle, middle = (start + end_).tdiv 2 := ⟨_, rfl⟩
      have hdiv : middle = (start + end_) / 2 := by
        rw [hmiddle, Int.tdiv_eq_ediv_of_nonneg (by omega)]
      have hmid : ∃ e ∈ it.keyOffsetMap, it.entryAt middle = .ok e :=
        entryAt_eq (by omega) (by omega)
      obtain ⟨e, -, hentry⟩ := hmid
      have hfits : ({ it with currentIndex := middle, rawKey := e.key } :
          EncryptedDataBlockIter).TableFits := h.of_eq rfl rfl
      rw [EncryptedDataBlockIter.narrow, ← hmiddle]
      dsimp only
      rw [hentry, Outcome.ok_bind]
      split_ifs with hless hrange
      · exact ih hfits (by omega) (by dsimp only; omega) (by omega) hend
      · exact ⟨h.of_eq rfl rfl, by dsimp only; omega, by dsimp only; omega⟩
      · exact ih hfits hstart hlt (by omega) (by dsimp only; omega)

theorem Positioned.nextImpl (h : it.Positioned) : it.nextImpl.InBounds Positioned :=
  h.fits.nextImpl (by have := h.index_nonneg; omega) h.index_lt

theorem Positioned.advance (h : it.Positioned) (fuel : ℕ) (target : Bytes) :
    (it.advance u target fuel).InBounds Positioned := by
  induction fuel generalizing it with
  | zero => exact fun h => nomatch h
  | succ fuel ih =>
      unfold EncryptedDataBlockIter.advance
      split_ifs
      · exact h
      · exact h.nextImpl.bind fun it' h' => ih h'
      · exact h

/-- A `Seek` from anywhere. -/
theorem TableFits.seek (h : it.TableFits) (fuel : ℕ) (target : Bytes) :
    (it.seek u fuel target).InBounds Positioned := by
  have hpos := h.pos
  have himpl : (it.seekImpl u fuel target).InBounds Positioned := by
    apply (h.narrow fuel le_rfl (by omega) (by omega) le_rfl).bind
    rintro it₁ ⟨hfits, hle, hlt⟩
    exact (hfits.nextImpl hle hlt).bind fun it₂ h₂ => h₂.advance fuel target
  exact himpl.bind fun it' h' => h'.updateKey

theorem Positioned.next (h : it.Positioned) : it.next.InBounds Positioned :=
  h.nextImpl.bind fun _ h' => h'.updateKey

theorem Positioned.getValue (h : it.Positioned) :
    (it.getValue C digest).InBounds fun r => r.2.Positioned := by
  unfold EncryptedDataBlockIter.getValue
  split_ifs
  · have hupdate : (it.updateValue C digest).InBounds Positioned := by
      obtain ⟨data, hdata, hfits⟩ := h.fits.data
      obtain ⟨e, he, hentry⟩ := entryAt_eq h.index_nonneg h.index_lt
      have hle := hfits e he
      rw [EncryptedDataBlockIter.updateValue, hentry, Outcome.ok_bind, hdata]
      dsimp only
      rw [Outcome.ok_bind, Bytes.fetch_of_le (by omega), Outcome.ok_bind,
        Bytes.fetch_of_le (by omega), Outcome.ok_bind]
      split_ifs
      · exact ⟨h.fits.of_eq hdata.symm rfl, h.index_nonneg, h.index_lt⟩
      · exact fun h => nomatch h
    exact hupdate.bind fun _ h' => h'
  · exact h

theorem TableFits.run_seek (h : it.TableFits) (fuel : ℕ) (target : InternalKey) :
    (IterCall.run C digest u fuel it (.seek target)).InBounds Positioned := by
  have hlong : ¬∃ e ∈ it.keyOffsetMap, e.key.length < kNumInternalBytes := by
    rintro ⟨e, he, hshort⟩
    have := h.long e he
    omega
  rw [IterCall.run, if_neg hlong]
  exact h.seek fuel target.val

theorem Positioned.run (h : it.Positioned) (fuel : ℕ) (c : IterCall) :
    (c.run C digest u fuel it).InBounds Positioned := by
  cases c with
  | seek target => exact h.fits.run_seek fuel target
  | next =>
      rw [IterCall.run]
      split_ifs
      · exact h.next
      · exact h
  | value =>
      rw [IterCall.run]
      split_ifs
      · exact h.getValue.bind fun _ h' => h'
      · exact h

theorem Positioned.runAll (h : it.Positioned) (fuel : ℕ) (calls : List IterCall) :
    (IterCall.runAll C digest u fuel it calls).InBounds Positioned := by
  induction calls generalizing it with
  | nil => exact h
  | cons c calls ih => exact (h.run fuel c).bind fun _ h' => ih h'

end EncryptedDataBlockIter

/-! ### The condition -/

section Opening

variable {C : Gcm} {digest : Digest} {u : Comparator} {globalSeqno : ℕ} {b : EncryptedBlock}
  {it : EncryptedDataBlockIter}

end Opening

end Tweezer
