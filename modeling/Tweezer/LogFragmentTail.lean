import Tweezer.LogFragmentReader
import Tweezer.LogTornTail

/-!
# Tailing an encrypted log

`FragmentBufferedReader` parses the bytes of the file as they are. It never decrypts a
header and does not know of the tags, so it finds a record only where the encrypted bytes
happen to pass for a plain one.
-/

namespace Tweezer.Log

/-- The bytes at `off` pass for a plain physical record with a correct checksum. -/
def PassesAsPlain (b : Bytes) (off : ℕ) : Prop :=
  let headerSize :=
    if (ReadCode.ofByte (b.getD (off + 6) 0)).isRecyclable then kRecyclableHeaderSize
    else kHeaderSize
  let length := Bytes.leDecode (b.slice (off + 4) 2)
  off + (headerSize + length) ≤ b.length ∧
    crc32c.value (b.slice (off + 6) (length + headerSize - 6)) =
      crc32c.unmask (UInt32.ofNat (Bytes.leDecode (b.slice off 4)))

instance (b : Bytes) (off : ℕ) : Decidable (PassesAsPlain b off) :=
  inferInstanceAs (Decidable (_ ∧ _))

namespace FragmentBufferedReader

/-- A reader that checks checksums and has found no record yet in the file `b`, revealed as
a whole: its buffer is empty or a block of the file. -/
structure Blank (b : Bytes) (r : FragmentBufferedReader) : Prop where
  checksum : r.checksum = true
  faults : r.file.faults = []
  readError : r.readError = false
  rest : ∃ n, r.file.rest = b.drop n
  atEnd : r.eof = true →
    r.file.rest = [] ∧ r.eofOffset < kBlockSize ∧ (r.bufferSize = 0 ∨ r.bufferSize = r.eofOffset)
  full : r.eof = false → r.bufferSize = 0 ∨ r.bufferSize = kBlockSize
  window : r.bufferSize = 0 ∨ r.bufferStart = 0 ∧
    ∃ off, off + r.bufferSize ≤ b.length ∧
      r.backingStore.take r.bufferSize = b.slice off r.bufferSize

variable {b : Bytes} {r r' : FragmentBufferedReader}

theorem blank_create (b : Bytes) (logNumber : UInt64) (store : Octets kBlockSize) (key : Key)
    (mac : Mac) : (create (.ofBytes b) true logNumber store key mac).Blank b :=
  ⟨rfl, rfl, rfl, ⟨0, rfl⟩, (fun h => nomatch h), fun _ => Or.inl rfl, Or.inl rfl⟩

theorem read_of_healthy {f : SequentialFile} (h : f.faults = []) (n : ℕ) :
    f.read n = (some (f.rest.take n), { f with rest := f.rest.drop n }) := by
  rw [SequentialFile.read, h]

theorem store_nil (r : FragmentBufferedReader) (off : ℕ) : r.store off [] = r.backingStore := by
  rw [store, List.length_nil, Nat.add_zero, List.nil_append, List.take_append_drop]

theorem Blank.clear (h : r.Blank b) : { r with bufferSize := 0 }.Blank b :=
  ⟨h.checksum, h.faults, h.readError, h.rest,
    fun he => ⟨(h.atEnd he).1, (h.atEnd he).2.1, Or.inl rfl⟩, fun _ => Or.inl rfl, Or.inl rfl⟩

/-- Reading on at the end of the file leaves the buffer as it is. -/
theorem Blank.tryReadMore_atEnd (h : r.Blank b) (he : r.eof = true) :
    ∃ r', r.tryReadMore = (none, r') ∧ r'.Blank b ∧ r'.bufferSize = r.bufferSize := by
  obtain ⟨hrest, hlt, hsize⟩ := h.atEnd he
  have hread := h.readError
  have hempty : r.file.rest.take (kBlockSize - r.eofOffset) = [] := by rw [hrest, List.take_nil]
  have hback : r.eofOffset - (r.eofOffset - r.bufferSize) = r.bufferSize := by omega
  have hmore : r.tryReadMore = (none, { r with
      file := { r.file with rest := r.file.rest.drop (kBlockSize - r.eofOffset) }
      bufferStart := r.eofOffset - r.bufferSize
      eof := true }) := by
    simp only [FragmentBufferedReader.tryReadMore, he, hread, unmarkEOF, unmarkEOFInternal,
      read_of_healthy h.faults, hempty, List.length_nil, Nat.add_zero, Nat.sub_pos_of_lt hlt,
      Bool.not_true, Bool.false_and, Bool.false_eq_true, if_false, if_true, store_nil, hback]
  refine ⟨_, hmore, ⟨h.checksum, h.faults, h.readError, ?_, ?_, ?_, ?_⟩, rfl⟩
  · obtain ⟨n, hn⟩ := h.rest
    exact ⟨n + (kBlockSize - r.eofOffset), by rw [← List.drop_drop, ← hn]⟩
  · intro _
    exact ⟨by rw [hrest, List.drop_nil], hlt, hsize⟩
  · intro hf
    cases hf
  · rcases hsize with hz | hz
    · exact Or.inl hz
    · rcases h.window with hz' | ⟨-, hwindow⟩
      · exact Or.inl hz'
      · exact Or.inr ⟨by rw [hz, Nat.sub_self], hwindow⟩

/-- Otherwise the next block is loaded. -/
theorem Blank.tryReadMore_load (h : r.Blank b) (he : r.eof = false) :
    ∃ r', r.tryReadMore = (none, r') ∧ r'.Blank b ∧ r'.bufferSize ≤ kBlockSize ∧
      (r'.bufferSize ≠ kBlockSize → r'.eof = true) := by
  obtain ⟨n, hn⟩ := h.rest
  obtain ⟨block, hblock⟩ : ∃ block, block = r.file.rest.take kBlockSize := ⟨_, rfl⟩
  have hle : block.length ≤ kBlockSize := by
    rw [hblock]
    exact List.length_take_le _ _
  have hread := h.readError
  have hrest : r.file.rest.drop kBlockSize = b.drop (n + kBlockSize) := by
    rw [hn, List.drop_drop]
  have htake : (r.store 0 block).take block.length = block := by
    rw [store, List.take_zero, List.nil_append, List.take_left]
  have hwindow : block.length = 0 ∨ (0 : ℕ) = 0 ∧ ∃ off, off + block.length ≤ b.length ∧
      (r.store 0 block).take block.length = b.slice off block.length := by
    rcases Nat.eq_zero_or_pos block.length with hz | hpos
    · exact Or.inl hz
    · have hlen : block.length = min kBlockSize (b.length - n) := by
        rw [hblock, hn, List.length_take, List.length_drop]
      refine Or.inr ⟨rfl, n, by omega, ?_⟩
      rw [htake, Bytes.slice, hlen, hblock, hn, ← List.length_drop, ← List.take_eq_take_min]
  by_cases hshort : block.length < kBlockSize
  · have hmore : r.tryReadMore = (none, { r with
        file := { r.file with rest := r.file.rest.drop kBlockSize }
        backingStore := r.store 0 block
        bufferStart := 0
        bufferSize := block.length
        endOfBufferOffset := r.endOfBufferOffset + block.length
        eof := true
        eofOffset := block.length }) := by
      simp only [FragmentBufferedReader.tryReadMore, he, hread, read_of_healthy h.faults, ← hblock,
        Bool.not_false, Bool.and_self, if_true, hshort]
    have hnil : r.file.rest.drop kBlockSize = [] := by
      rw [List.drop_eq_nil_iff]
      rw [hblock, List.length_take] at hshort
      omega
    exact ⟨_, hmore, ⟨h.checksum, h.faults, h.readError, ⟨n + kBlockSize, hrest⟩,
      fun _ => ⟨hnil, hshort, Or.inr rfl⟩, (by rintro ⟨⟩), hwindow⟩, hle, fun _ => rfl⟩
  · have hmore : r.tryReadMore = (none, { r with
        file := { r.file with rest := r.file.rest.drop kBlockSize }
        backingStore := r.store 0 block
        bufferStart := 0
        bufferSize := block.length
        endOfBufferOffset := r.endOfBufferOffset + block.length }) := by
      simp only [FragmentBufferedReader.tryReadMore, he, hread, read_of_healthy h.faults, ← hblock,
        Bool.not_false, Bool.and_self, if_true, hshort, if_false]
    have hfull : block.length = kBlockSize := Nat.le_antisymm hle (Nat.le_of_not_lt hshort)
    exact ⟨_, hmore, ⟨h.checksum, h.faults, h.readError, ⟨n + kBlockSize, hrest⟩,
      fun ht => absurd (he.symm.trans ht) (by decide), fun _ => Or.inr hfull, hwindow⟩, hle,
      fun hne => absurd hfull hne⟩

theorem Blank.tryReadMore (h : r.Blank b) : ∃ r', r.tryReadMore = (none, r') ∧ r'.Blank b := by
  cases he : r.eof with
  | true =>
      obtain ⟨r', hmore, hblank, -⟩ := h.tryReadMore_atEnd he
      exact ⟨r', hmore, hblank⟩
  | false =>
      obtain ⟨r', hmore, hblank, -⟩ := h.tryReadMore_load he
      exact ⟨r', hmore, hblank⟩

theorem Blank.waitFor (h : r.Blank b) {n fuel : ℕ} {more : Bool}
    (hw : r.waitFor n fuel = .ok (more, r')) : r'.Blank b ∧ (more = true → n ≤ r'.bufferSize) := by
  induction fuel generalizing r with
  | zero => cases hw
  | succ fuel ih =>
      rw [FragmentBufferedReader.waitFor] at hw
      by_cases hn : r.bufferSize < n
      · obtain ⟨r₁, hmore, hblank⟩ := h.tryReadMore
        rw [if_pos hn, hmore] at hw
        dsimp only at hw
        by_cases hsame : r₁.bufferSize = r.bufferSize
        · rw [if_pos hsame] at hw
          cases hw
          exact ⟨hblank, fun hf => nomatch hf⟩
        · rw [if_neg hsame] at hw
          exact ih hblank hw
      · rw [if_neg hn] at hw
        cases hw
        exact ⟨h, fun _ => not_lt.mp hn⟩

theorem Blank.waitFor_atEnd (h : r.Blank b) (he : r.eof = true) {n fuel : ℕ}
    (hw : r.waitFor n fuel = .ok (true, r')) : r' = r := by
  cases fuel with
  | zero => cases hw
  | succ fuel =>
      rw [FragmentBufferedReader.waitFor] at hw
      by_cases hn : r.bufferSize < n
      · obtain ⟨r₁, hmore, -, hsize⟩ := h.tryReadMore_atEnd he
        rw [if_pos hn, hmore] at hw
        dsimp only at hw
        rw [if_pos hsize] at hw
        cases hw
      · rw [if_neg hn] at hw
        cases hw
        rfl

/-- With a header in the buffer, more bytes never come: the block is loaded as a whole. -/
theorem Blank.waitFor_loaded (h : r.Blank b) (hpos : 0 < r.bufferSize) {n fuel : ℕ}
    (hw : r.waitFor n fuel = .ok (true, r')) : r' = r := by
  cases he : r.eof with
  | true => exact h.waitFor_atEnd he hw
  | false =>
      cases fuel with
      | zero => cases hw
      | succ fuel =>
          rw [FragmentBufferedReader.waitFor] at hw
          by_cases hn : r.bufferSize < n
          · have hfull : r.bufferSize = kBlockSize := by
              rcases h.full he with hz | hz
              · omega
              · exact hz
            obtain ⟨r₁, hmore, hblank, hle, hend⟩ := h.tryReadMore_load he
            rw [if_pos hn, hmore] at hw
            dsimp only at hw
            by_cases hsame : r₁.bufferSize = r.bufferSize
            · rw [if_pos hsame] at hw
              cases hw
            · rw [if_neg hsame] at hw
              obtain rfl := hblank.waitFor_atEnd (hend fun h₁ => hsame (h₁.trans hfull.symm)) hw
              have := (hblank.waitFor hw).2 rfl
              omega
          · rw [if_neg hn] at hw
            cases hw
            rfl

/-- What a loaded block shows of the file. -/
theorem slice_of_window {off i n : ℕ} (hw : r.backingStore.take r.bufferSize = b.slice off r.bufferSize)
    (h : i + n ≤ r.bufferSize) : r.backingStore.slice i n = b.slice (off + i) n := by
  rw [← Bytes.slice_take h, hw, Bytes.slice_slice h]

theorem getD_of_window {off i : ℕ} (hw : r.backingStore.take r.bufferSize = b.slice off r.bufferSize)
    (h : i < r.bufferSize) : r.backingStore.getD i 0 = b.getD (off + i) 0 := by
  have hget := congrArg (fun l : Bytes => l[i]?) hw
  simp only [Bytes.slice, List.getElem?_take_of_lt h, List.getElem?_drop] at hget
  rw [List.getD_eq_getElem?_getD, List.getD_eq_getElem?_getD, hget]

/-- Behind a header no record is found: where enough bytes are there, the checksum is
wrong. -/
theorem Blank.checkFragment (hplain : ∀ off, ¬ PassesAsPlain b off) (h : r.Blank b)
    (hheader : kHeaderSize ≤ r.bufferSize) {found : Option PhysicalRecord}
    (hc : r.checkFragment r.bufferStart
      (Bytes.leDecode (r.backingStore.slice (r.bufferStart + 4) 2))
      (ReadCode.ofByte (r.backingStore.getD (r.bufferStart + 6) 0))
      (if (ReadCode.ofByte (r.backingStore.getD (r.bufferStart + 6) 0)).isRecyclable then
        kRecyclableHeaderSize else kHeaderSize) = .ok (found, r')) :
    r'.Blank b ∧ ∀ p ∈ found, p.code = .badRecord ∨ p.code = .badRecordChecksum := by
  rw [kHeaderSize] at hheader
  rcases h.window with hz | ⟨hstart, off, hoff, hw⟩
  · omega
  rw [hstart, getD_of_window hw (by omega), slice_of_window hw (by omega)] at hc
  obtain ⟨code, hcode⟩ : ∃ c, c = ReadCode.ofByte (b.getD (off + (0 + 6)) 0) := ⟨_, rfl⟩
  obtain ⟨len, hlen⟩ : ∃ n, n = Bytes.leDecode (b.slice (off + (0 + 4)) 2) := ⟨_, rfl⟩
  obtain ⟨size, hsize⟩ : ∃ n, n = if code.isRecyclable then kRecyclableHeaderSize
    else kHeaderSize := ⟨_, rfl⟩
  rw [← hlen, ← hcode, ← hsize, FragmentBufferedReader.checkFragment] at hc
  obtain ⟨⟨more, r₁⟩, hwait, hfound⟩ := Outcome.bind_eq_ok.mp hc
  cases more with
  | false =>
      cases hfound
      exact ⟨(h.waitFor hwait).1, by rintro _ ⟨⟩⟩
  | true =>
      have hsame := h.waitFor_loaded (by omega) hwait
      have hroom := (h.waitFor hwait).2 rfl
      subst hsame
      dsimp only at hfound
      rw [if_neg (by decide)] at hfound
      by_cases hzero : code = .record .zero ∧ len = 0
      · rw [if_pos hzero] at hfound
        cases hfound
        exact ⟨h.clear, fun p hp => by cases hp; exact Or.inl rfl⟩
      · rw [if_neg hzero] at hfound
        obtain ⟨record, hrecord, hfound⟩ := Outcome.bind_eq_ok.mp hfound
        have hseven : 7 ≤ size := by
          rw [hsize, kRecyclableHeaderSize, kHeaderSize]
          split_ifs <;> omega
        have hslice : record = b.slice off (size + len) := by
          rw [Bytes.fetch] at hrecord
          split_ifs at hrecord
          cases hrecord
          exact slice_of_window hw (by omega)
        have hcrc : crc32c.value (record.slice 6 (len + size - 6)) ≠
            crc32c.unmask (UInt32.ofNat (Bytes.leDecode (record.slice 0 4))) := by
          rw [hslice, Bytes.slice_slice (by omega), Bytes.slice_slice (by omega)]
          intro heq
          refine hplain off ⟨?_, ?_⟩
          · rw [← hcode, ← hsize, ← hlen]
            omega
          · rw [← hcode, ← hsize, ← hlen]
            exact heq
        rw [if_pos ⟨h.checksum, hcrc⟩] at hfound
        cases hfound
        exact ⟨h.clear, fun p hp => by cases hp; exact Or.inr rfl⟩

theorem Blank.recycle (h : r.Blank b) : { r with recycled := true }.Blank b :=
  ⟨h.checksum, h.faults, h.readError, h.rest, h.atEnd, h.full, h.window⟩

theorem Blank.tryReadFragment (hplain : ∀ off, ¬ PassesAsPlain b off) (h : r.Blank b)
    {found : Option PhysicalRecord} (hf : r.tryReadFragment = .ok (found, r')) :
    r'.Blank b ∧ ∀ p ∈ found,
      p.code = .badRecord ∨ p.code = .badRecordChecksum ∨ p.code = .oldRecord := by
  rw [FragmentBufferedReader.tryReadFragment] at hf
  obtain ⟨⟨more, r₁⟩, hwait, hfound⟩ := Outcome.bind_eq_ok.mp hf
  obtain ⟨h₁, hheader⟩ := h.waitFor hwait
  cases more with
  | false =>
      cases hfound
      exact ⟨h₁, fun _ hp => nomatch hp⟩
  | true =>
      have hseven := hheader rfl
      dsimp only at hfound
      rw [if_neg (by decide)] at hfound
      by_cases hrec : (ReadCode.ofByte (r₁.backingStore.getD (r₁.bufferStart + 6) 0)).isRecyclable
      · rw [if_pos hrec] at hfound
        obtain ⟨r₂, hr₂⟩ : ∃ r₂, r₂ = if r₁.endOfBufferOffset - r₁.bufferSize = 0 then
          { r₁ with recycled := true } else r₁ := ⟨_, rfl⟩
        have h₂ : r₂.Blank b ∧ r₂.bufferSize = r₁.bufferSize ∧ r₂.bufferStart = r₁.bufferStart ∧
            r₂.backingStore = r₁.backingStore := by
          rw [hr₂]
          split_ifs
          · exact ⟨h₁.recycle, rfl, rfl, rfl⟩
          · exact ⟨h₁, rfl, rfl, rfl⟩
        obtain ⟨hblank, hsize, hstart, hstore⟩ := h₂
        rw [← hr₂, ← hstart, ← hstore] at hfound
        rw [← hstart, ← hstore] at hrec
        rw [← hsize] at hseven
        obtain ⟨⟨more, r₃⟩, hwait', hfound⟩ := Outcome.bind_eq_ok.mp hfound
        cases more with
        | false =>
            cases hfound
            exact ⟨(hblank.waitFor hwait').1, fun _ hp => nomatch hp⟩
        | true =>
            have hsame := hblank.waitFor_loaded (lt_of_lt_of_le (by decide) hseven) hwait'
            subst hsame
            dsimp only at hfound
            rw [if_neg (by decide)] at hfound
            by_cases hold : Bytes.leDecode (r₃.backingStore.slice (r₃.bufferStart + 7) 4) ≠
                r₃.logNumber.toNat
            · rw [if_pos hold] at hfound
              cases hfound
              exact ⟨hblank, fun p hp => by cases hp; exact Or.inr (Or.inr rfl)⟩
            · rw [if_neg hold] at hfound
              obtain ⟨h₃, hcode⟩ := hblank.checkFragment hplain hseven
                (by rw [if_pos hrec]; exact hfound)
              exact ⟨h₃, fun p hp => (hcode p hp).imp_right Or.inl⟩
      · rw [if_neg hrec] at hfound
        obtain ⟨h₃, hcode⟩ := h₁.checkFragment hplain hseven (by rw [if_neg hrec]; exact hfound)
        exact ⟨h₃, fun p hp => (hcode p hp).imp_right Or.inl⟩

theorem Blank.reportCorruption (h : r.Blank b) (bytes : ℕ) (reason : String) :
    (r.reportCorruption bytes reason).Blank b :=
  ⟨h.checksum, h.faults, h.readError, h.rest, h.atEnd, h.full, h.window⟩

theorem Blank.dropFragments (h : r.Blank b) : r.dropFragments.Blank b := by
  rw [FragmentBufferedReader.dropFragments]
  split_ifs
  · exact ⟨h.checksum, h.faults, h.readError, h.rest, h.atEnd, h.full, h.window⟩
  · exact h

theorem Blank.readRecordLoop (hplain : ∀ off, ¬ PassesAsPlain b off) (h : r.Blank b)
    {offset fuel prospective : ℕ} {record : Option Bytes}
    (hr : r.readRecordLoop offset fuel prospective = .ok (record, r')) : record = none := by
  induction fuel generalizing r prospective with
  | zero => cases hr
  | succ fuel ih =>
      rw [FragmentBufferedReader.readRecordLoop] at hr
      obtain ⟨⟨found, r₁⟩, hfound, hrest⟩ := Outcome.bind_eq_ok.mp hr
      obtain ⟨h₁, hcode⟩ := h.tryReadFragment hplain hfound
      cases found with
      | none =>
          cases hrest
          rfl
      | some p =>
          dsimp only at hrest
          rcases hcode p rfl with hp | hp | hp
          · simp only [switchFragment, hp] at hrest
            exact ih h₁.dropFragments hrest
          · simp only [switchFragment, hp] at hrest
            by_cases hrec : r₁.recycled
            · rw [if_pos hrec] at hrest
              cases hrest
              rfl
            · rw [if_neg hrec] at hrest
              exact ih (h₁.reportCorruption _ _).dropFragments hrest
          · simp only [switchFragment, hp] at hrest
            exact ih h₁.dropFragments hrest

/-- Nothing is ever found. -/
theorem Blank.readRecords (hplain : ∀ off, ¬ PassesAsPlain b off) (h : r.Blank b) {fuel : ℕ}
    {records : List Bytes} (hr : r.readRecords fuel = .ok (records, r')) : records = [] := by
  cases fuel with
  | zero => cases hr
  | succ fuel =>
      rw [FragmentBufferedReader.readRecords] at hr
      obtain ⟨⟨record, r₁⟩, hrecord, hrest⟩ := Outcome.bind_eq_ok.mp hr
      obtain rfl := h.readRecordLoop hplain hrecord
      cases hrest
      rfl

/-- On a file that stays empty, every poll returns nothing. -/
theorem Blank.readRecord_nil (h : r.Blank []) :
    ∃ r', r.readRecord = .ok (none, r') ∧ r'.Blank [] := by
  have hzero : ∀ {s : FragmentBufferedReader}, s.Blank [] → s.bufferSize = 0 := by
    intro s hs
    rcases hs.window with hz | ⟨-, off, hoff, -⟩
    · exact hz
    · rw [List.length_nil] at hoff
      omega
  obtain ⟨r₁, hmore, h₁⟩ := h.tryReadMore
  have hsize := hzero h
  have hwait : r.waitFor kHeaderSize r.waitBound = .ok (false, r₁) := by
    rw [waitBound, FragmentBufferedReader.waitFor, hsize, if_pos (by decide), hmore]
    dsimp only
    rw [if_pos (hzero h₁)]
  refine ⟨r₁, ?_, h₁⟩
  rw [FragmentBufferedReader.readRecord, readBound, FragmentBufferedReader.readRecordLoop,
    FragmentBufferedReader.tryReadFragment, hwait]
  rfl

theorem Blank.pollAll_nil (h : r.Blank []) {pieces : List Bytes} (hp : pieces.flatten = []) :
    ∃ r', r.pollAll pieces = .ok (List.replicate pieces.length [], r') := by
  induction pieces generalizing r with
  | nil => exact ⟨r, rfl⟩
  | cons piece pieces ih =>
      obtain ⟨rfl, hp⟩ := List.append_eq_nil_iff.mp hp
      have hgrow : (r.grow []).Blank [] := by
        rw [grow, List.append_nil]
        exact h
      obtain ⟨r₁, hread, h₁⟩ := hgrow.readRecord_nil
      obtain ⟨r₂, hpoll⟩ := ih h₁ hp
      refine ⟨r₂, ?_⟩
      rw [FragmentBufferedReader.pollAll, readBound, FragmentBufferedReader.readRecords, hread,
        Outcome.ok_bind]
      dsimp only
      rw [Outcome.ok_bind, hpoll, Outcome.ok_bind]
      rfl

end FragmentBufferedReader

/-- All records are within the file that they were written to. -/
theorem recordsWithin_of_le (C : Gcm) {w : Writer} (t : ℕ) (rs : List Bytes)
    (hf : w.dest.faults = [])
    (ht : (w.puts C (logFragments w.recycleLogFiles w.blockOffset rs)).dest.contents.length ≤ t) :
    recordsWithin C w t rs = rs := by
  induction rs generalizing w with
  | nil => rfl
  | cons r rs ih =>
      have hputs := Writer.puts_eq C w (fragments w.recycleLogFiles true w.blockOffset r)
      have hfaults : (w.puts C (fragments w.recycleLogFiles true w.blockOffset r)).dest.faults =
          [] := by
        rw [hputs]
        exact hf
      have hrec := congrArg Writer.recycleLogFiles hputs
      have hoff := congrArg Writer.blockOffset hputs
      dsimp only at hrec hoff
      rw [logFragments, Writer.puts_append] at ht
      have hle : (w.puts C (fragments w.recycleLogFiles true w.blockOffset r)).dest.contents.length ≤
          t := by
        refine le_trans ?_ ht
        rw [Writer.puts_eq C (w.puts C _)]
        simp only [List.length_append]
        omega
      have hrest := ih hfaults (by rw [hrec, hoff]; exact ht)
      rw [recordsWithin, Writer.addRecord_healthy C r hf]
      dsimp only
      rw [if_pos hle, hrest]

section Tail

variable (C : Gcm) (logNumber : UInt64) (manualFlush : Bool) (key : Key) (mac : Mac)
  (records : List Bytes)

/-- However the file grows, polling after each piece gives the records that `Reader` finds in
the whole file, each as soon as its last byte is there. -/
def TailsCorrectly (mode : WALRecoveryMode) : Prop :=
  ∀ (store : Octets kBlockSize) (pieces : List Bytes),
    pieces.flatten = logFile C logNumber false manualFlush key mac records →
    ∃ outs r r', (FragmentBufferedReader.create (.ofBytes []) true logNumber store key
        mac).pollAll pieces = .ok (outs, r) ∧
      (Reader.create (.ofBytes (logFile C logNumber false manualFlush key mac records)) true
        logNumber key mac).readLog C mode = .ok (outs.flatten, r') ∧
      ∀ i, (outs.take i).flatten = recordsWithin C
        (.create .fresh logNumber false manualFlush key mac) (pieces.take i).flatten.length records

variable {C logNumber manualFlush key mac records}

/-- A file revealed at once is enough to tell: of it nothing is returned. -/
theorem not_tailsCorrectly (mode : WALRecoveryMode)
    (hplain : ∀ off, ¬ PassesAsPlain (logFile C logNumber false manualFlush key mac records) off)
    (hne : records ≠ []) :
    ¬ TailsCorrectly C logNumber manualFlush key mac records mode := by
  intro h
  obtain ⟨file, hfile⟩ : ∃ b, b = logFile C logNumber false manualFlush key mac records := ⟨_, rfl⟩
  have hcontents : file = ((Writer.create .fresh logNumber false manualFlush key mac).puts C
      (logFragments false 0 records)).dest.contents := by
    rw [hfile, logFile, Writer.addRecords_healthy C records rfl]
    rfl
  rw [← hfile] at hplain
  obtain ⟨outs, r, -, hpoll, -, hwithin⟩ :=
    h ⟨List.replicate kBlockSize 0, List.length_replicate⟩ [file]
      (by rw [List.flatten_singleton, hfile])
  have hblank := FragmentBufferedReader.blank_create file logNumber
    ⟨List.replicate kBlockSize 0, List.length_replicate⟩ key mac
  rw [FragmentBufferedReader.pollAll] at hpoll
  obtain ⟨⟨bs, r₁⟩, hread, hrest⟩ := Outcome.bind_eq_ok.mp hpoll
  obtain rfl := hblank.readRecords hplain hread
  cases hrest
  have hall := hwithin 1
  rw [List.take_of_length_le (by rfl), List.take_of_length_le (by rfl), List.flatten_singleton,
    List.flatten_singleton, recordsWithin_of_le C _ records rfl
      (congrArg List.length hcontents).ge] at hall
  exact hne hall.symm

/-- As long as no bytes of the encrypted file pass for a plain record, the tailing reader is
right only about a log without records. -/
theorem tailsCorrectly_iff (mode : WALRecoveryMode)
    (hplain : ∀ off, ¬ PassesAsPlain (logFile C logNumber false manualFlush key mac records) off) :
    TailsCorrectly C logNumber manualFlush key mac records mode ↔ records = [] := by
  constructor
  · intro h
    by_contra hne
    exact not_tailsCorrectly mode hplain hne h
  · rintro rfl
    have hfile : logFile C logNumber false manualFlush key mac [] = [] := rfl
    intro store pieces hpieces
    rw [hfile] at hpieces ⊢
    have hblank := FragmentBufferedReader.blank_create [] logNumber store key mac
    obtain ⟨r, hpoll⟩ := hblank.pollAll_nil hpieces
    have hread : ∃ r', (Reader.create (.ofBytes []) true logNumber key mac).readLog C mode =
        .ok ([], r') := ⟨_, rfl⟩
    obtain ⟨r', hread⟩ := hread
    refine ⟨_, r, r', hpoll, ?_, ?_⟩
    · rw [List.flatten_replicate_nil]
      exact hread
    · intro i
      rw [List.take_replicate, List.flatten_replicate_nil]
      rfl

end Tail

/-- One record of three bytes. -/
theorem oneRecord_not_passesAsPlain (off : ℕ) :
    ¬ PassesAsPlain (logFile sampleGcm 5 false false sampleKey sampleMac [[1, 2, 3]]) off := by
  have hlen : (logFile sampleGcm 5 false false sampleKey sampleMac [[1, 2, 3]]).length = 26 := by
    decide +kernel
  have hwindows : ∀ off < 20,
      ¬ PassesAsPlain (logFile sampleGcm 5 false false sampleKey sampleMac [[1, 2, 3]]) off := by
    decide +kernel
  intro h
  have hbound := h.1
  rw [hlen, kRecyclableHeaderSize, kHeaderSize] at hbound
  refine hwindows off ?_ h
  split_ifs at hbound <;> omega

/-- It never comes back. -/
theorem oneRecord_not_tailed : ¬ TailsCorrectly sampleGcm 5 false sampleKey sampleMac [[1, 2, 3]]
    .kPointInTimeRecovery :=
  not_tailsCorrectly .kPointInTimeRecovery oneRecord_not_passesAsPlain (List.cons_ne_nil _ _)

theorem tailsCorrectly_iff_oneRecord : TailsCorrectly sampleGcm 5 false sampleKey sampleMac
    [[1, 2, 3]] .kPointInTimeRecovery ↔ [[1, 2, 3]] = ([] : List Bytes) :=
  tailsCorrectly_iff .kPointInTimeRecovery oneRecord_not_passesAsPlain

end Tweezer.Log
