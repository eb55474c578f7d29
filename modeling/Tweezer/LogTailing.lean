import Tweezer.LogTornTail

/-!
# Following a log that grows

A reader that has come to the end of a log keeps its place in the block, the decrypted rest
of which it has used up, and the tag of the last fragment. After the file has grown,
`UnmarkEOF` loads what is missing of the block and the reader goes on as if it had never
stopped.
-/

namespace Tweezer.Log

/-- The zeros that are there already of what fills up the block: none, or all of them. -/
def Padded (off p : ℕ) : Prop := p = 0 ∨ off + p = kBlockSize ∧ p < overhead false

namespace Reader

variable {C : Gcm} {key : Key} {logNumber : UInt64}

/-- The file that is read has got longer. -/
def grow (r : Reader) (bytes : Bytes) : Reader :=
  { r with file := { r.file with rest := r.file.rest ++ bytes } }

/-- Reading until `ReadRecord` returns `false`, and again after each time that the file has grown
and `UnmarkEOF` was called. -/
def follow (C : Gcm) (mode : WALRecoveryMode) : Reader → List Bytes → Outcome (List Bytes × Reader)
  | r, [] => r.readLog C mode
  | r, piece :: pieces => do
      let (bs, r) ← r.readLog C mode
      let (rest, r) ← follow C mode (r.grow piece).unmarkEOF pieces
      .ok (bs ++ rest, r)

/-- The reader has come to the end of the file behind a record that ended at offset `off` of
its block. -/
structure Paused (r : Reader) (key : Key) (off : ℕ) (m : Mac) : Prop where
  healthy : r.file.faults = []
  noError : r.readError = false
  buffer : r.buffer = []
  rest : r.file.rest = []
  uniqueKey : r.uniqueKey = key
  previousMac : r.previousMac = m
  eof : r.eof = true
  eofOffset : r.eofOffset = off ∧ 0 < off ∧ off < kBlockSize ∨ r.eofOffset = 0 ∧ off = kBlockSize

/-- At the end of the file `ReadRecord` returns `false`, which changes nothing but the block. -/
theorem readRecord_of_end (mode : WALRecoveryMode) {r : Reader} {off p : ℕ} {m : Mac}
    (hoff : 0 < off) (hp : Padded off p) (hs : r.Synced key off m (Bytes.zeros p)) :
    ∃ r', r.readRecord C mode = .ok (none, r') ∧ r'.Paused key (off + p) m ∧
      r'.reports = r.reports := by
  have hlength := congrArg List.length hs.remaining
  rw [remaining, List.length_append, Bytes.length_zeros] at hlength
  have hover := overhead_pos false
  have hquiet : ∀ r₁ : Reader, r₁.endOfLog mode .empty = r₁ := by
    intro r₁
    rw [endOfLog, if_neg]
    rintro ⟨hin, -⟩
    cases hin
  cases he : r.eof with
  | true =>
      have hmarked := hs.aligned.marked he
      obtain ⟨hrest, hlt⟩ := hs.aligned.short he
      have hzero : p = 0 := by
        rw [hrest, List.length_nil] at hlength
        rcases hp with hp | ⟨hp, -⟩ <;> omega
      have hbuffer : r.buffer = [] := by
        apply List.eq_nil_of_length_eq_zero
        omega
      rw [hbuffer, List.length_nil] at hmarked hlt
      have hshort : r.buffer.length < kHeaderSize + kMacSize := by
        rw [hbuffer]
        decide
      have hmore : r.readMore = (some (.eof, 0), r) := by
        rw [readMore, if_neg (by simp [he]), if_neg (by simp [hbuffer])]
      refine ⟨r, ?_, ⟨hs.aligned.healthy, hs.aligned.noError, hbuffer, hrest, hs.uniqueKey,
        hs.previousMac, he, Or.inl ⟨by omega, by omega, by omega⟩⟩, rfl⟩
      rw [readRecord, readRecordLoop, readPhysicalRecord, readPhysicalRecordLoop, if_pos hshort,
        hmore]
      dsimp only
      rw [Outcome.ok_bind]
      dsimp only [switchRecord]
      rw [hquiet]
  | false =>
      have hfull := hs.aligned.full he
      have hle := hs.aligned.offset_le
      have hend : off + p = kBlockSize := by
        rcases hp with hp | ⟨hp, -⟩ <;> omega
      have hrest : r.file.rest = [] := by
        apply List.eq_nil_of_length_eq_zero
        omega
      have hshort : r.buffer.length < kHeaderSize + kMacSize := by
        change r.buffer.length < overhead false
        rcases hp with hp | ⟨-, hp⟩ <;> omega
      have hload : r.load.buffer = [] := by
        rw [load, hrest, List.take_nil]
      have hloadRest : r.load.file.rest = [] := by
        change r.file.rest.drop kBlockSize = []
        rw [hrest, List.drop_nil]
      have hloadEof : r.load.eof = true := by
        apply decide_eq_true
        rw [hrest, List.take_nil]
        decide
      have hloadOffset : r.load.eofOffset = 0 := by
        have hmarked := (aligned_load hs.aligned).marked hloadEof
        rw [hload, List.length_nil] at hmarked
        exact hmarked
      have hmore : r.load.readMore = (some (.eof, 0), r.load) := by
        rw [readMore, if_neg (by simp [hloadEof]), if_neg (by simp [hload])]
      have hloadShort : r.load.buffer.length < kHeaderSize + kMacSize := by
        rw [hload]
        decide
      refine ⟨r.load, ?_, ⟨hs.aligned.healthy, hs.aligned.noError, hload, hloadRest, hs.uniqueKey,
        hs.previousMac, hloadEof, Or.inr ⟨hloadOffset, hend⟩⟩, rfl⟩
      rw [readRecord, readRecordLoop, readPhysicalRecord, readPhysicalRecordLoop, if_pos hshort,
        readMore_of_not_eof hs.aligned he]
      dsimp only
      rw [readPhysicalRecordLoop, if_pos hloadShort, hmore]
      dsimp only
      rw [Outcome.ok_bind]
      dsimp only [switchRecord]
      rw [hquiet]

/-- Reading the records that are there, down to where the file ends. -/
theorem readLog_of_end (mode : WALRecoveryMode) {r : Reader} {off p : ℕ} {m : Mac}
    (records : List Bytes) (hoff : 0 < offsetAfter false off (logFragments false off records))
    (hp : Padded (offsetAfter false off (logFragments false off records)) p)
    (hs : r.Synced key off m (layout C key logNumber false off m (logFragments false off records) ++
      Bytes.zeros p)) :
    ∃ r', r.readLog C mode = .ok (records, r') ∧
      r'.Paused key (offsetAfter false off (logFragments false off records) + p)
        (macAfter C key m (logFragments false off records)) ∧ r'.reports = r.reports := by
  have hrecords := length_le_length_logFragments false off records
  have hlayout := length_le_length_layout C key logNumber false off m
    (logFragments false off records)
  obtain ⟨fuel, hfuel⟩ : ∃ fuel, r.remaining.length + 2 = records.length + (fuel + 1) := by
    obtain ⟨k, hk⟩ := Nat.exists_eq_add_of_le (hrecords.trans hlayout)
    refine ⟨k + p + 1, ?_⟩
    rw [hs.remaining, List.length_append, hk, Bytes.length_zeros]
    omega
  obtain ⟨r₁, hreads, hs₁, hrep₁⟩ := readRecords_logFragments mode records (fuel + 1) hs
  obtain ⟨r₂, hend, hpaused, hrep₂⟩ := readRecord_of_end mode hoff hp hs₁
  refine ⟨r₂, ?_, hpaused, hrep₂.trans hrep₁⟩
  rw [readLog, hfuel, hreads, readRecords_of_end mode fuel hend]
  simp [Except.map]

/-- `UnmarkEOF` takes the reader back to where it was, with the new bytes to come. -/
theorem Paused.resume {r : Reader} {off : ℕ} {m : Mac} (h : r.Paused key off m) (bytes : Bytes) :
    (r.grow bytes).unmarkEOF.Synced key off m bytes ∧
      (r.grow bytes).unmarkEOF.reports = r.reports := by
  have hrest : (r.grow bytes).file.rest = bytes := by
    change r.file.rest ++ bytes = bytes
    rw [h.rest, List.nil_append]
  rcases h.eofOffset with ⟨hmark, hpos, hlt⟩ | ⟨hmark, hend⟩
  · have hlen := List.length_take_le (kBlockSize - off) bytes
    have hread : (r.grow bytes).file.read (kBlockSize - off) =
        (some (bytes.take (kBlockSize - off)),
          { (r.grow bytes).file with rest := bytes.drop (kBlockSize - off) }) := by
      rw [SequentialFile.read_of_healthy (f := (r.grow bytes).file) h.healthy, hrest]
    rw [unmarkEOF, if_neg (by simp [grow, h.noError]), if_neg (by change ¬r.eofOffset = 0; omega)]
    change (r.grow bytes).eofOffset = off at hmark
    rw [hmark, hread]
    dsimp only
    have hbuffer : (r.grow bytes).buffer ++ bytes.take (kBlockSize - off) =
        bytes.take (kBlockSize - off) := by
      change r.buffer ++ _ = _
      rw [h.buffer, List.nil_append]
    rw [hbuffer]
    -- the last block is still short, or it has become a full one
    by_cases hshort : (bytes.take (kBlockSize - off)).length < kBlockSize - off
    · rw [if_pos hshort]
      refine ⟨⟨⟨h.healthy, h.noError, hlt.le, (fun he => nomatch he), fun _ => ⟨?_, hshort⟩,
        fun _ => rfl⟩, h.uniqueKey, h.previousMac, List.take_append_drop _ _⟩, rfl⟩
      apply List.drop_eq_nil_of_le
      rw [List.length_take] at hshort
      omega
    · rw [if_neg hshort]
      refine ⟨⟨⟨h.healthy, h.noError, hlt.le, fun _ => ?_, (fun he => nomatch he),
        fun he => nomatch he⟩, h.uniqueKey, h.previousMac, List.take_append_drop _ _⟩, rfl⟩
      change (bytes.take (kBlockSize - off)).length = _
      omega
  · rw [unmarkEOF, if_neg (by simp [grow, h.noError]), if_pos (by exact hmark)]
    refine ⟨⟨⟨h.healthy, h.noError, hend.le, ?_, (fun he => nomatch he), fun he => nomatch he⟩,
      h.uniqueKey, h.previousMac, ?_⟩, rfl⟩
    · intro _
      change r.buffer.length = _
      rw [h.buffer, hend, Nat.sub_self, List.length_nil]
    · change r.buffer ++ (r.grow bytes).file.rest = bytes
      rw [h.buffer, hrest, List.nil_append]

end Reader

section Growing

variable (C : Gcm) (logNumber : UInt64) (manualFlush : Bool) (key : Key) (mac : Mac)

/-- The block offset at which the last of these records ends, and the tag of its last
fragment. -/
def recordsEnd (records : List Bytes) : ℕ :=
  offsetAfter false kBlockSize (logFragments false kBlockSize records)

def recordsMac (records : List Bytes) : Mac :=
  macAfter C key mac (logFragments false kBlockSize records)

/-- A number of bytes that ends a prefix of the log at a record: where one ends, or behind the
zeros that fill up its block. -/
def EndsAtRecord (records : List Bytes) (n : ℕ) : Prop :=
  ∃ done, done <+: records ∧
    (n = (logFile C logNumber false manualFlush key mac done).length ∨
      n = (logFile C logNumber false manualFlush key mac done).length +
        trailer false (recordsEnd done))

/-- What the file starts with when it ends, `p` zeros behind the last of the records `done`. -/
structure Stands (done : List Bytes) (p : ℕ) (shown : Bytes) : Prop where
  padded : Padded (recordsEnd done) p
  shown : shown = logFile C logNumber false manualFlush key mac done ++ Bytes.zeros p

theorem recordsEnd_pos (records : List Bytes) : 0 < recordsEnd records :=
  offsetAfter_pos (by decide) _

theorem recordsEnd_le (records : List Bytes) : recordsEnd records ≤ kBlockSize :=
  offsetAfter_le le_rfl (fits_logFragments false kBlockSize records)

variable {C logNumber manualFlush key mac}

theorem logFile_append (done batch : List Bytes) :
    logFile C logNumber false manualFlush key mac (done ++ batch) =
      logFile C logNumber false manualFlush key mac done ++
        layout C key logNumber false (recordsEnd done) (recordsMac C key mac done)
          (logFragments false (recordsEnd done) batch) := by
  simp only [logFile_eq_layout, ← layout_kBlockSize, ← logFragments_kBlockSize]
  rw [logFragments_append, layout_append]
  rfl

theorem recordsEnd_append (done batch : List Bytes) :
    recordsEnd (done ++ batch) =
      offsetAfter false (recordsEnd done) (logFragments false (recordsEnd done) batch) := by
  unfold recordsEnd
  rw [logFragments_append, offsetAfter_append]

theorem recordsMac_append (done batch : List Bytes) :
    recordsMac C key mac (done ++ batch) = macAfter C key (recordsMac C key mac done)
      (logFragments false (recordsEnd done) batch) := by
  unfold recordsMac
  rw [logFragments_append, macAfter_append]
  rfl

theorem logFragments_ne_nil (off : ℕ) {batch : List Bytes} (h : batch ≠ []) :
    logFragments false off batch ≠ [] := by
  cases batch with
  | nil => exact absurd rfl h
  | cons b batch =>
      rw [logFragments]
      exact List.append_ne_nil_of_left_ne_nil (fragments_ne_nil _ _ _ _) _

section Zeros

variable {off p q : ℕ}

theorem Padded.startOffset_add (h : Padded off p) :
    startOffset false (off + p) = startOffset false off := by
  rcases h with rfl | ⟨hend, hlt⟩
  · rfl
  · rw [hend, startOffset_kBlockSize, startOffset, if_pos (by omega)]

/-- Zeros that are there already are those that the layout of what follows begins with. -/
theorem Padded.layout_eq (h : Padded off p) (m : Mac) {fs : List Fragment} (hfs : fs ≠ []) :
    layout C key logNumber false off m fs =
      Bytes.zeros p ++ layout C key logNumber false (off + p) m fs := by
  rcases h with rfl | ⟨hend, hlt⟩
  · rfl
  · cases fs with
    | nil => exact absurd rfl hfs
    | cons f fs =>
        have hstart : startOffset false off = startOffset false kBlockSize := by
          rw [startOffset_kBlockSize, startOffset, if_pos (by omega)]
        have htrailer : trailer false off = p := by
          rw [trailer, if_pos (by omega)]
          omega
        rw [hend, layout, layout, htrailer, trailer_kBlockSize, f.nextOffset_congr hstart]
        rfl

theorem Padded.sub (h : Padded off q) (hle : p ≤ q) : Padded (off + p) (q - p) := by
  unfold Padded at *
  omega

theorem padded_trailer (h : off ≤ kBlockSize) : Padded off (trailer false off) := by
  unfold trailer
  split_ifs with hlt
  · exact Or.inr ⟨by omega, hlt⟩
  · exact Or.inl rfl

end Zeros

/-- One more record is more than the zeros before it. -/
theorem length_lt_of_append {done batch : List Bytes} {p : ℕ} (hp : Padded (recordsEnd done) p)
    (hb : batch ≠ []) :
    (logFile C logNumber false manualFlush key mac done).length + p <
      (logFile C logNumber false manualFlush key mac (done ++ batch)).length := by
  have hfs := logFragments_ne_nil (recordsEnd done) hb
  have hpos := List.length_pos_of_ne_nil hfs
  have hlayout := length_le_length_layout C key logNumber false (recordsEnd done + p)
    (recordsMac C key mac done) (logFragments false (recordsEnd done) batch)
  rw [logFile_append, hp.layout_eq _ hfs, List.length_append, List.length_append,
    Bytes.length_zeros]
  omega

namespace Stands

variable {records done done' : List Bytes} {p p' : ℕ} {shown piece : Bytes}

theorem length_eq (h : Stands C logNumber manualFlush key mac done p shown) :
    shown.length = (logFile C logNumber false manualFlush key mac done).length + p := by
  rw [h.shown, List.length_append, Bytes.length_zeros]

/-- A file that shows no less than another has no fewer records. -/
theorem prefix_of_le (h : Stands C logNumber manualFlush key mac done p shown)
    (h' : Stands C logNumber manualFlush key mac done' p' (shown ++ piece))
    (hd : done <+: records) (hd' : done' <+: records) : done <+: done' := by
  rcases List.prefix_or_prefix_of_prefix hd hd' with hpre | ⟨batch, rfl⟩
  · exact hpre
  · by_cases hb : batch = []
    · simp [hb]
    · have hlt : (logFile C logNumber false manualFlush key mac done').length + p' <
          (logFile C logNumber false manualFlush key mac (done' ++ batch)).length :=
        length_lt_of_append h'.padded hb
      have hlength := h.length_eq
      have hlength' := h'.length_eq
      rw [List.length_append] at hlength'
      omega

/-- What comes between two ends of the file is the layout of the records between them. -/
theorem grown (h : Stands C logNumber manualFlush key mac done p shown)
    (h' : Stands C logNumber manualFlush key mac done' p' (shown ++ piece))
    (hd : done <+: done') :
    ∃ batch q, done' = done ++ batch ∧
      piece = layout C key logNumber false (recordsEnd done + p) (recordsMac C key mac done)
        (logFragments false (recordsEnd done + p) batch) ++ Bytes.zeros q ∧
      Padded (offsetAfter false (recordsEnd done + p)
        (logFragments false (recordsEnd done + p) batch)) q ∧
      offsetAfter false (recordsEnd done + p)
        (logFragments false (recordsEnd done + p) batch) + q = recordsEnd done' + p' := by
  obtain ⟨batch, rfl⟩ := hd
  have hshown := h'.shown
  rw [h.shown, logFile_append, List.append_assoc, List.append_assoc] at hshown
  have htail := List.append_cancel_left hshown
  by_cases hb : batch = []
  · subst hb
    have hpadded := h'.padded
    rw [List.append_nil] at hpadded
    change Bytes.zeros p ++ piece = Bytes.zeros p' at htail
    have hlength := congrArg List.length htail
    rw [List.length_append, Bytes.length_zeros, Bytes.length_zeros] at hlength
    have hpiece : piece = Bytes.zeros (p' - p) := by
      have hsplit : Bytes.zeros p' = Bytes.zeros p ++ Bytes.zeros (p' - p) := by
        unfold Bytes.zeros
        rw [← List.replicate_add, show p + (p' - p) = p' by omega]
      rw [hsplit] at htail
      exact List.append_cancel_left htail
    refine ⟨[], p' - p, rfl, hpiece, hpadded.sub (by omega), ?_⟩
    rw [List.append_nil]
    change recordsEnd done + p + (p' - p) = _
    omega
  · have hstart := h.padded.startOffset_add
    have hfs := logFragments_ne_nil (recordsEnd done) hb
    have hend : offsetAfter false (recordsEnd done + p)
        (logFragments false (recordsEnd done + p) batch) = recordsEnd (done ++ batch) := by
      rw [recordsEnd_append, logFragments_congr hstart, offsetAfter_congr hstart hfs]
    rw [h.padded.layout_eq _ hfs, List.append_assoc] at htail
    refine ⟨batch, p', rfl, ?_, hend ▸ h'.padded, by rw [hend]⟩
    rw [logFragments_congr hstart]
    exact List.append_cancel_left htail

end Stands

/-- A prefix of the file that ends at a record stands behind some of the records. -/
theorem stands_of_endsAtRecord {records : List Bytes} {shown : Bytes}
    (hpre : shown <+: logFile C logNumber false manualFlush key mac records)
    (hends : EndsAtRecord C logNumber manualFlush key mac records shown.length) :
    ∃ done p, done <+: records ∧ Stands C logNumber manualFlush key mac done p shown := by
  obtain ⟨done, ⟨batch, rfl⟩, hn⟩ := hends
  have hpadded := padded_trailer (recordsEnd_le done)
  have hdone : logFile C logNumber false manualFlush key mac done <+:
      logFile C logNumber false manualFlush key mac (done ++ batch) := ⟨_, (logFile_append _ _).symm⟩
  have hunpadded : shown.length = (logFile C logNumber false manualFlush key mac done).length →
      Stands C logNumber manualFlush key mac done 0 shown := by
    intro hlength
    refine ⟨Or.inl rfl, ?_⟩
    have heq := (List.prefix_of_prefix_length_le hpre hdone hlength.le).eq_of_length hlength
    rw [heq]
    exact (List.append_nil _).symm
  rcases hn with hn | hn
  · exact ⟨done, 0, ⟨batch, rfl⟩, hunpadded hn⟩
  · by_cases hb : batch = []
    · have hle := hpre.length_le
      rw [hb, List.append_nil, hn] at hle
      exact ⟨done, 0, ⟨batch, rfl⟩, hunpadded (by omega)⟩
    · refine ⟨done, trailer false (recordsEnd done), ⟨batch, rfl⟩, hpadded, ?_⟩
      have hzeros : logFile C logNumber false manualFlush key mac done ++
          Bytes.zeros (trailer false (recordsEnd done)) <+:
          logFile C logNumber false manualFlush key mac (done ++ batch) := by
        rw [logFile_append, hpadded.layout_eq _ (logFragments_ne_nil _ hb)]
        exact (List.prefix_append_right_inj _).mpr (List.prefix_append _ _)
      have hlength : shown.length = (logFile C logNumber false manualFlush key mac done ++
          Bytes.zeros (trailer false (recordsEnd done))).length := by
        rw [hn, List.length_append, Bytes.length_zeros]
      exact (List.prefix_of_prefix_length_le hpre hzeros hlength.le).eq_of_length hlength

/-- The whole file stands behind all the records. -/
theorem Stands.eq_of_file {records done : List Bytes} {p : ℕ} (hd : done <+: records)
    (h : Stands C logNumber manualFlush key mac done p
      (logFile C logNumber false manualFlush key mac records)) : done = records := by
  obtain ⟨batch, rfl⟩ := hd
  by_cases hb : batch = []
  · rw [hb, List.append_nil]
  · have hlt : (logFile C logNumber false manualFlush key mac done).length + p <
        (logFile C logNumber false manualFlush key mac (done ++ batch)).length :=
      length_lt_of_append h.padded hb
    have hlength := h.length_eq
    omega

section Follow

variable (mode : WALRecoveryMode) {records : List Bytes}

/-- Reading over what has come to the file. -/
theorem readLog_of_stands {pieces : List Bytes} {done : List Bytes} {p : ℕ} {shown piece : Bytes}
    {r : Reader} (hfile : shown ++ (piece ++ pieces.flatten) =
      logFile C logNumber false manualFlush key mac records)
    (hd : done <+: records) (hstands : Stands C logNumber manualFlush key mac done p shown)
    (hends : EndsAtRecord C logNumber manualFlush key mac records (shown ++ piece).length)
    (hs : r.Synced key (recordsEnd done + p) (recordsMac C key mac done) piece) :
    ∃ batch p' r', done ++ batch <+: records ∧
      Stands C logNumber manualFlush key mac (done ++ batch) p' (shown ++ piece) ∧
      r.readLog C mode = .ok (batch, r') ∧
      r'.Paused key (recordsEnd (done ++ batch) + p') (recordsMac C key mac (done ++ batch)) ∧
      r'.reports = r.reports := by
  have hpre : shown ++ piece <+: logFile C logNumber false manualFlush key mac records := by
    rw [← hfile, ← List.append_assoc]
    exact List.prefix_append _ _
  obtain ⟨done', p', hd', hstands'⟩ := stands_of_endsAtRecord hpre hends
  obtain ⟨batch, q, rfl, rfl, hpadded, hend⟩ :=
    hstands.grown hstands' (hstands.prefix_of_le hstands' hd hd')
  have hpos : 0 < recordsEnd done + p := Nat.add_pos_left (recordsEnd_pos done) p
  obtain ⟨r', hread, hpaused, hrep⟩ :=
    Reader.readLog_of_end mode batch (offsetAfter_pos hpos _) hpadded hs
  refine ⟨batch, p', r', hd', hstands', hread, ?_, hrep⟩
  rw [hend, logFragments_congr hstands.padded.startOffset_add, ← recordsMac_append] at hpaused
  exact hpaused

/-- Reading on over what has come to the file, and after each time that it grows again. -/
theorem follow_of_stands {pieces : List Bytes} {done : List Bytes} {p : ℕ} {shown piece : Bytes}
    {r : Reader} (hfile : shown ++ (piece ++ pieces.flatten) =
      logFile C logNumber false manualFlush key mac records)
    (hd : done <+: records) (hstands : Stands C logNumber manualFlush key mac done p shown)
    (hends : ∀ i, EndsAtRecord C logNumber manualFlush key mac records
      (shown ++ (piece ++ (pieces.take i).flatten)).length)
    (hs : r.Synced key (recordsEnd done + p) (recordsMac C key mac done) piece) :
    ∃ rest r', done ++ rest = records ∧ Reader.follow C mode r pieces = .ok (rest, r') ∧
      r'.reports = r.reports := by
  induction pieces generalizing done p shown piece r with
  | nil =>
      have hfirst := hends 0
      rw [List.take_zero, List.flatten_nil, List.append_nil] at hfirst
      obtain ⟨batch, p', r', hd', hstands', hread, -, hrep⟩ :=
        readLog_of_stands mode hfile hd hstands hfirst hs
      rw [List.flatten_nil, List.append_nil] at hfile
      rw [hfile] at hstands'
      exact ⟨batch, r', hstands'.eq_of_file hd', hread, hrep⟩
  | cons next pieces ih =>
      have hfirst := hends 0
      rw [List.take_zero, List.flatten_nil, List.append_nil] at hfirst
      obtain ⟨batch, p', r', hd', hstands', hread, hpaused, hrep⟩ :=
        readLog_of_stands mode hfile hd hstands hfirst hs
      obtain ⟨hsynced, hreports⟩ := hpaused.resume next
      rw [List.flatten_cons, ← List.append_assoc shown] at hfile
      have hlater : ∀ i, EndsAtRecord C logNumber manualFlush key mac records
          (shown ++ piece ++ (next ++ (pieces.take i).flatten)).length := by
        intro i
        have hi := hends (i + 1)
        rw [List.take_succ_cons, List.flatten_cons, ← List.append_assoc shown] at hi
        exact hi
      obtain ⟨rest, r'', hrecords, hfollow, hrep'⟩ := ih hfile hd' hstands' hlater hsynced
      refine ⟨batch ++ rest, r'', ?_, ?_, hrep'.trans (hreports.trans hrep)⟩
      · rw [← hrecords, List.append_assoc]
      · rw [Reader.follow, hread, Outcome.ok_bind]
        dsimp only
        rw [hfollow, Outcome.ok_bind]

end Follow

end Growing

/-- Following a log in the legacy format that is revealed piece by piece, each time up to the end
of a record, returns the records that reading the complete file returns, with no report. -/
theorem Reader.follow_logFile (C : Gcm) (key : Key) (mac : Mac) (logNumber : UInt64)
    (manualFlush checksum : Bool) (readNumber : UInt64) (mode : WALRecoveryMode)
    (records : List Bytes) (first : Bytes) (pieces : List Bytes)
    (hfile : first ++ pieces.flatten = logFile C logNumber false manualFlush key mac records)
    (hends : ∀ i, EndsAtRecord C logNumber manualFlush key mac records
      (first ++ (pieces.take i).flatten).length) :
    ∃ r complete, follow C mode (create (.ofBytes first) checksum readNumber key mac) pieces =
        .ok (records, r) ∧ r.reports = [] ∧
      (create (.ofBytes (logFile C logNumber false manualFlush key mac records)) checksum readNumber
        key mac).readLog C mode = .ok (records, complete) := by
  have hstands : Stands C logNumber manualFlush key mac [] 0 [] := by
    refine ⟨Or.inl rfl, ?_⟩
    rw [logFile_eq_layout]
    rfl
  have hs := synced_create first checksum readNumber key mac
  obtain ⟨rest, r, hrest, hfollow, hrep⟩ :=
    follow_of_stands mode hfile List.nil_prefix hstands hends hs
  obtain ⟨w, complete, hw, hread, -⟩ := readLog_addRecords C key mac logNumber manualFlush checksum
    readNumber mode records
  have hcontents : logFile C logNumber false manualFlush key mac records = w.dest.contents := by
    rw [logFile, hw]
  subst hrest
  exact ⟨r, complete, hfollow, hrep, hcontents ▸ hread⟩

theorem Reader.follow_logFile_twoRecords :
    ∃ first piece r complete, first ++ piece = logFile sampleGcm 7 false false sampleKey sampleMac
        [[1], [2]] ∧
      follow sampleGcm .kAbsoluteConsistency (create (.ofBytes first) true 7 sampleKey sampleMac)
        [piece] = .ok ([[1], [2]], r) ∧ r.reports = [] ∧
      (create (.ofBytes (logFile sampleGcm 7 false false sampleKey sampleMac [[1], [2]])) true 7
        sampleKey sampleMac).readLog sampleGcm .kAbsoluteConsistency = .ok ([[1], [2]], complete) := by
  have hfile : logFile sampleGcm 7 false false sampleKey sampleMac ([[1]] ++ [[2]]) = _ ++ _ :=
    logFile_append [[1]] [[2]]
  obtain ⟨r, complete, hfollow, hreports, hread⟩ := Reader.follow_logFile sampleGcm sampleKey
    sampleMac 7 false true 7 .kAbsoluteConsistency [[1], [2]]
    (logFile sampleGcm 7 false false sampleKey sampleMac [[1]]) [_]
    (by rw [List.flatten_singleton]; exact hfile.symm) (by
      intro i
      cases i with
      | zero => exact ⟨[[1]], ⟨[[2]], rfl⟩, Or.inl (congrArg List.length (List.append_nil _))⟩
      | succ i =>
          refine ⟨[[1], [2]], List.prefix_rfl, Or.inl (congrArg List.length ?_)⟩
          rw [List.take_succ_cons, List.take_nil, List.flatten_singleton]
          exact hfile.symm)
  exact ⟨_, _, r, complete, hfile.symm, hfollow, hreports, hread⟩

end Tweezer.Log
