import Tweezer.LogScan

/-!
# The legacy log round trip

`ReadRecord` puts the fragments of a record together again, whatever the offset the record
started at, so a file written in the legacy format is read back as the records it was
written from.
-/

namespace Tweezer.Log

/-- What a fragment that begins a record, or goes on with one, is added to. -/
def Assembly.collected (a : Assembly) (begin_ : Bool) : Bytes := if begin_ then [] else a.scratch

namespace Reader

variable {C : Gcm} {key : Key} {logNumber : UInt64} (mode : WALRecoveryMode)

/-- An open record that is given up leaves a report at most. -/
theorem Synced.reportPartial {r : Reader} {off : ℕ} {m : Mac} {b : Bytes}
    (h : r.Synced key off m b) (a : Assembly) (reason : String) :
    (r.reportPartial a reason).Synced key off m b ∧
      (a.inFragmentedRecord = false → r.reportPartial a reason = r) := by
  unfold Reader.reportPartial
  split_ifs with ha
  · refine ⟨⟨⟨h.aligned.healthy, h.aligned.noError, h.aligned.offset_le, h.aligned.full,
      h.aligned.short, h.aligned.marked⟩, h.uniqueKey, h.previousMac, h.remaining⟩, ?_⟩
    intro hno
    rw [ha.1] at hno
    cases hno
  · exact ⟨h, fun _ => rfl⟩

theorem Synced.setLastRecordOffset {r : Reader} {off : ℕ} {m : Mac} {b : Bytes}
    (h : r.Synced key off m b) (offset : ℕ) :
    ({ r with lastRecordOffset := offset } : Reader).Synced key off m b :=
  ⟨⟨h.aligned.healthy, h.aligned.noError, h.aligned.offset_le, h.aligned.full,
    h.aligned.short, h.aligned.marked⟩, h.uniqueKey, h.previousMac, h.remaining⟩

/-- A fragment that does not end its record is collected. One that begins its record ends what
was open before. -/
theorem readRecordLoop_open {r : Reader} {off : ℕ} {m : Mac} {begin_ : Bool} {p : Bytes}
    {fs : List Fragment} {rest : Bytes} (fuel : ℕ) (a : Assembly)
    (ha : begin_ = false → a.inFragmentedRecord = true)
    (hf : (Fragment.mk (.ofPosition false begin_ false) p).Fits false off)
    (hs : r.Synced key off m
      (layout C key logNumber false off m (⟨.ofPosition false begin_ false, p⟩ :: fs) ++ rest)) :
    ∃ (a' : Assembly) (r' : Reader), r.readRecordLoop C mode (fuel + 1) a = r'.readRecordLoop C mode fuel a' ∧
      a'.inFragmentedRecord = true ∧ a'.scratch = a.collected begin_ ++ p ∧
      r'.Synced key ((Fragment.mk (.ofPosition false begin_ false) p).nextOffset false off)
        ((Fragment.mk (.ofPosition false begin_ false) p).mac C key m)
        (layout C key logNumber false
          ((Fragment.mk (.ofPosition false begin_ false) p).nextOffset false off)
          ((Fragment.mk (.ofPosition false begin_ false) p).mac C key m) fs ++ rest) ∧
      (a.inFragmentedRecord = !begin_ → r'.reports = r.reports) := by
  obtain ⟨r', hread, hs', hrep⟩ := readPhysicalRecord_layout hf hs
  cases begin_ with
  | true =>
      obtain ⟨hgiven, hquiet⟩ := hs'.reportPartial a "partial record without end(2)"
      refine ⟨⟨true, p, r.endOfBufferOffset - r.buffer.length⟩,
        r'.reportPartial a "partial record without end(2)", ?_, rfl, rfl, hgiven, ?_⟩
      · rw [readRecordLoop, hread, Outcome.ok_bind]
        rfl
      · intro hclosed
        rw [hquiet hclosed, hrep]
  | false =>
      have hopen := ha rfl
      refine ⟨{ a with scratch := a.scratch ++ p }, r', ?_, hopen, rfl, hs', fun _ => hrep⟩
      rw [readRecordLoop, hread, Outcome.ok_bind]
      simp [switchRecord, RecordType.ofPosition, hopen]

/-- A fragment that ends its record completes it. -/
theorem readRecordLoop_close {r : Reader} {off : ℕ} {m : Mac} {begin_ : Bool} {p : Bytes}
    {fs : List Fragment} {rest : Bytes} (fuel : ℕ) (a : Assembly)
    (ha : begin_ = false → a.inFragmentedRecord = true)
    (hf : (Fragment.mk (.ofPosition false begin_ true) p).Fits false off)
    (hs : r.Synced key off m
      (layout C key logNumber false off m (⟨.ofPosition false begin_ true, p⟩ :: fs) ++ rest)) :
    ∃ r', r.readRecordLoop C mode (fuel + 1) a = .ok (some (a.collected begin_ ++ p), r') ∧
      r'.Synced key ((Fragment.mk (.ofPosition false begin_ true) p).nextOffset false off)
        ((Fragment.mk (.ofPosition false begin_ true) p).mac C key m)
        (layout C key logNumber false
          ((Fragment.mk (.ofPosition false begin_ true) p).nextOffset false off)
          ((Fragment.mk (.ofPosition false begin_ true) p).mac C key m) fs ++ rest) ∧
      (a.inFragmentedRecord = !begin_ → r'.reports = r.reports) := by
  obtain ⟨r', hread, hs', hrep⟩ := readPhysicalRecord_layout hf hs
  cases begin_ with
  | true =>
      obtain ⟨hgiven, hquiet⟩ := hs'.reportPartial a "partial record without end(1)"
      refine ⟨_, ?_, hgiven.setLastRecordOffset (r.endOfBufferOffset - r.buffer.length), ?_⟩
      · rw [readRecordLoop, hread, Outcome.ok_bind]
        rfl
      · intro hclosed
        dsimp only
        rw [hquiet hclosed, hrep]
  | false =>
      have hopen := ha rfl
      refine ⟨_, ?_, hs'.setLastRecordOffset a.prospectiveRecordOffset, fun _ => hrep⟩
      rw [readRecordLoop, hread, Outcome.ok_bind]
      simp [switchRecord, RecordType.ofPosition, hopen, Assembly.collected]

/-- The loop of `ReadRecord` over the fragments of what is left of a record. -/
theorem readRecordLoop_fragments (begin_ : Bool) (off : ℕ) (left : Bytes) {r : Reader}
    {m : Mac} {rest : Bytes} (fuel : ℕ) (a : Assembly)
    (ha : begin_ = false → a.inFragmentedRecord = true)
    (hfuel : (fragments false begin_ off left).length ≤ fuel)
    (hs : r.Synced key off m
      (layout C key logNumber false off m (fragments false begin_ off left) ++ rest)) :
    ∃ r', r.readRecordLoop C mode fuel a = .ok (some (a.collected begin_ ++ left), r') ∧
      r'.Synced key (offsetAfter false off (fragments false begin_ off left))
        (macAfter C key m (fragments false begin_ off left)) rest ∧
      (a.inFragmentedRecord = !begin_ → r'.reports = r.reports) := by
  induction begin_, off, left using fragments.induct false generalizing r m a fuel with
  | case1 begin_ off left h =>
      have hfits := fits_fragments false begin_ off left
      rw [fragments_of_le h] at hs hfuel hfits ⊢
      obtain ⟨fuel, rfl⟩ := Nat.exists_eq_add_one.mpr hfuel
      exact readRecordLoop_close mode fuel a ha hfits.1 hs
  | case2 begin_ off left h ih =>
      have hlt := not_le.mp h
      have hfits := fits_fragments false begin_ off left
      rw [fragments_of_lt hlt] at hs hfuel hfits ⊢
      obtain ⟨fuel, rfl⟩ := Nat.exists_eq_add_one.mpr (Nat.lt_of_lt_of_le Nat.succ_pos' hfuel)
      obtain ⟨a', r', hturn, ha', hscratch, hs', hrep⟩ :=
        readRecordLoop_open mode fuel a ha hfits.1 hs
      have hoff : (Fragment.mk (.ofPosition false begin_ false)
          (left.take (avail false off))).nextOffset false off = kBlockSize := by
        rw [Fragment.nextOffset, List.length_take, Nat.min_eq_left hlt.le,
          startOffset_add_avail]
      rw [hoff] at hs'
      obtain ⟨r'', hrec, hs'', hrep'⟩ := ih fuel a' (fun _ => ha') (Nat.le_of_succ_le_succ hfuel) hs'
      refine ⟨r'', ?_, ?_, fun hclosed => (hrep' ha').trans (hrep hclosed)⟩
      · rw [hturn, hrec, Assembly.collected, if_neg (by simp), hscratch, List.append_assoc,
          List.take_append_drop]
      · rw [offsetAfter, macAfter, hoff]
        exact hs''

theorem readRecord_fragments {off : ℕ} {left : Bytes} {r : Reader} {m : Mac} {rest : Bytes}
    (hs : r.Synced key off m
      (layout C key logNumber false off m (fragments false true off left) ++ rest)) :
    ∃ r', r.readRecord C mode = .ok (some left, r') ∧
      r'.Synced key (offsetAfter false off (fragments false true off left))
        (macAfter C key m (fragments false true off left)) rest ∧
      r'.reports = r.reports := by
  have hl := length_le_length_layout C key logNumber false off m (fragments false true off left)
  have hfuel : (fragments false true off left).length ≤ r.remaining.length + 2 := by
    rw [hs.remaining, List.length_append]
    omega
  obtain ⟨r', hread, hs', hrep⟩ :=
    readRecordLoop_fragments mode true off left _ .empty (fun h => nomatch h) hfuel hs
  exact ⟨r', hread, hs', hrep rfl⟩

/-- Reading over the records of a log, down to whatever follows them in the file. -/
theorem readRecords_logFragments (rs : List Bytes) {off : ℕ} {r : Reader} {m : Mac}
    {rest : Bytes} (fuel : ℕ)
    (hs : r.Synced key off m
      (layout C key logNumber false off m (logFragments false off rs) ++ rest)) :
    ∃ r' : Reader, r.readRecords C mode (rs.length + fuel) =
        (r'.readRecords C mode fuel).map (fun p => (rs ++ p.1, p.2)) ∧
      r'.Synced key (offsetAfter false off (logFragments false off rs))
        (macAfter C key m (logFragments false off rs)) rest ∧
      r'.reports = r.reports := by
  induction rs generalizing off r m with
  | nil =>
      refine ⟨r, ?_, hs, rfl⟩
      rw [List.length_nil, Nat.zero_add]
      cases r.readRecords C mode fuel <;> rfl
  | cons b rs ih =>
      rw [logFragments, layout_append, List.append_assoc] at hs
      obtain ⟨r', hread, hs', hrep⟩ := readRecord_fragments mode hs
      obtain ⟨r'', hreads, hs'', hrep'⟩ := ih hs'
      refine ⟨r'', ?_, ?_, hrep'.trans hrep⟩
      · rw [List.length_cons, Nat.succ_add, readRecords, hread, Outcome.ok_bind]
        simp only [hreads]
        cases r''.readRecords C mode fuel <;> rfl
      · rw [logFragments, offsetAfter_append, macAfter_append]
        exact hs''

/-- At the end of the file the loop of `ReadRecord` returns `false`, whatever it has
collected. -/
theorem readRecordLoop_of_tail {r : Reader} {off : ℕ} {m : Mac} {b : Bytes} (fuel : ℕ)
    (a : Assembly) (hs : r.Synced key off m b) (hb : (r.body off).length < overhead false) :
    ∃ r', r.readRecordLoop C mode (fuel + 1) a = .ok (none, r') ∧
      (mode ≠ .kAbsoluteConsistency ∨ b = [] ∧ a.inFragmentedRecord = false →
        r'.reports = r.reports) := by
  obtain ⟨code, d, r', hread, hc, hrep⟩ := readPhysicalRecord_of_tail C hs.aligned hb
  have hquiet : mode ≠ .kAbsoluteConsistency ∨ b = [] ∧ a.inFragmentedRecord = false →
      r'.endOfLog mode a = r' := by
    intro hq
    rw [endOfLog, if_neg]
    rintro ⟨hin, hm⟩
    rcases hq with hq | ⟨-, hq⟩
    · exact hq hm
    · rw [hin] at hq
      cases hq
  have hturn : ∃ r'', r'.switchRecord mode a (r.endOfBufferOffset - r.buffer.length)
      ⟨code, [], d⟩ = .ret none r'' ∧
      (mode ≠ .kAbsoluteConsistency ∨ b = [] ∧ a.inFragmentedRecord = false →
        r''.reports = r'.reports) := by
    rcases hc with rfl | ⟨rfl, hne⟩
    · exact ⟨_, rfl, fun hq => by rw [hquiet hq]⟩
    · refine ⟨_, rfl, fun hq => ?_⟩
      have hm : mode ≠ .kAbsoluteConsistency :=
        hq.resolve_right fun h => hne (hs.remaining.trans h.1)
      rw [if_neg hm, hquiet hq]
  obtain ⟨r'', hturn, hrep'⟩ := hturn
  refine ⟨r'', ?_, fun hq => (hrep' hq).trans hrep⟩
  rw [readRecordLoop, hread, Outcome.ok_bind]
  simp only [hturn]

/-- Nothing is returned past a physical record that stops the reader. -/
theorem readRecords_of_stop {r : Reader} {e : Stop} (fuel : ℕ)
    (h : r.readRecord C mode = .error e) : r.readRecords C mode (fuel + 1) = .error e := by
  rw [readRecords, h, Outcome.error_bind]

theorem readRecordLoop_of_stop {r : Reader} {e : Stop} (fuel : ℕ) (a : Assembly)
    (h : r.readPhysicalRecord C = .error e) :
    r.readRecordLoop C mode (fuel + 1) a = .error e := by
  rw [readRecordLoop, h, Outcome.error_bind]

/-- A new reader stops at a file of which no stretch behind a header verifies. -/
theorem readRecord_create_stops {file : Bytes} {m : Mac} (checksum : Bool) (logNumber : UInt64)
    (hl : kHeaderSize + kMacSize ≤ file.length)
    (hv : ∀ len, ¬Verifies C key m file kHeaderSize len) :
    ∃ e, (create (.ofBytes file) checksum logNumber key m).readRecord C mode = .error e := by
  have hs := synced_create file checksum logNumber key m
  have hbody : (create (.ofBytes file) checksum logNumber key m).body kBlockSize = file := by
    rw [body, hs.remaining, trailer_kBlockSize, List.drop_zero]
  obtain ⟨e, he⟩ := readPhysicalRecord_stops (C := C) hs.aligned
    (by rw [hbody]; exact hl) (by
      rw [hbody, hs.uniqueKey, hs.previousMac]
      exact hv _)
  exact ⟨e, readRecordLoop_of_stop mode _ _ he⟩

theorem readRecords_of_end {r r' : Reader} (fuel : ℕ)
    (h : r.readRecord C mode = .ok (none, r')) :
    r.readRecords C mode (fuel + 1) = .ok ([], r') := by
  rw [readRecords, h, Outcome.ok_bind]

/-- Reading a whole file that starts with the layout of `records`, down to what follows
them. -/
theorem readLog_layout (key : Key) (logNumber : UInt64) (m : Mac) (checksum : Bool)
    (readNumber : UInt64) (records : List Bytes) (rest : Bytes) :
    ∃ (fuel : ℕ) (r : Reader),
      (create (.ofBytes (layout C key logNumber false 0 m (logFragments false 0 records) ++ rest))
        checksum readNumber key m).readLog C mode =
        (r.readRecords C mode (fuel + 1)).map (fun p => (records ++ p.1, p.2)) ∧
      r.Synced key (offsetAfter false kBlockSize (logFragments false 0 records))
        (macAfter C key m (logFragments false 0 records)) rest ∧
      r.reports = [] := by
  have hs := synced_create (layout C key logNumber false kBlockSize m
    (logFragments false kBlockSize records) ++ rest) checksum readNumber key m
  obtain ⟨fuel, hfuel⟩ : ∃ fuel, (create (.ofBytes (layout C key logNumber false kBlockSize m
      (logFragments false kBlockSize records) ++ rest)) checksum readNumber key m).remaining.length
        + 2 = records.length + (fuel + 1) := by
    have h1 := length_le_length_logFragments false kBlockSize records
    have h2 := length_le_length_layout C key logNumber false kBlockSize m
      (logFragments false kBlockSize records)
    obtain ⟨k, hk⟩ := Nat.exists_eq_add_of_le (h1.trans h2)
    refine ⟨k + rest.length + 1, ?_⟩
    rw [hs.remaining, List.length_append, hk]
    omega
  obtain ⟨r, hreads, hs', hrep⟩ :=
    readRecords_logFragments mode records (fuel + 1) hs
  rw [logFragments_kBlockSize] at hs'
  refine ⟨fuel, r, ?_, hs', hrep⟩
  rw [← layout_kBlockSize, ← logFragments_kBlockSize, readLog, hfuel, hreads]

end Reader

/-- The bytes a new writer leaves on a new file after adding `records`. -/
def logFile (C : Gcm) (logNumber : UInt64) (recycle manualFlush : Bool) (key : Key) (mac : Mac)
    (records : List Bytes) : Bytes :=
  match (Writer.create .fresh logNumber recycle manualFlush key mac).addRecords C records with
  | .ok (_, w) => w.dest.contents
  | .error _ => []

theorem logFile_eq_layout (C : Gcm) (logNumber : UInt64) (recycle manualFlush : Bool)
    (key : Key) (mac : Mac) (records : List Bytes) :
    logFile C logNumber recycle manualFlush key mac records =
      layout C key logNumber recycle 0 mac (logFragments recycle 0 records) := by
  rw [logFile, Writer.addRecords_healthy C records rfl, Writer.puts_eq]
  rfl

/-- A log with a record in it has room for a header and a tag. -/
theorem overhead_le_length_logFile (C : Gcm) (logNumber : UInt64) (recycle manualFlush : Bool)
    (key : Key) (mac : Mac) {records : List Bytes} (h : records ≠ []) :
    overhead recycle ≤ (logFile C logNumber recycle manualFlush key mac records).length := by
  have hfits := fits_logFragments recycle 0 records
  rw [logFile_eq_layout]
  cases records with
  | nil => exact absurd rfl h
  | cons b records =>
      cases hfs : logFragments recycle 0 (b :: records) with
      | nil => exact absurd (List.append_eq_nil_iff.mp hfs).1 (fragments_ne_nil _ _ _ _)
      | cons f fs =>
          rw [hfs] at hfits
          have hl := f.length_encode C key logNumber mac
          rw [hfits.1.isRecyclable] at hl
          rw [layout, List.length_append, List.length_append]
          omega

/-- A log written in the legacy format on a file where no call fails is accepted in full,
and read back as its records and then the end of the log, with nothing reported. -/
theorem readLog_addRecords (C : Gcm) (key : Key) (mac : Mac) (logNumber : UInt64)
    (manualFlush checksum : Bool) (readNumber : UInt64) (mode : WALRecoveryMode)
    (records : List Bytes) :
    ∃ w r, (Writer.create .fresh logNumber false manualFlush key mac).addRecords C records =
        .ok (List.replicate records.length .ok, w) ∧
      (Reader.create (.ofBytes w.dest.contents) checksum readNumber key mac).readLog C mode =
        .ok (records, r) ∧ r.reports = [] := by
  have hw := Writer.addRecords_healthy C (w := .create .fresh logNumber false manualFlush key mac)
    records rfl
  have hfile := logFile_eq_layout C logNumber false manualFlush key mac records
  rw [logFile, hw] at hfile
  dsimp only at hfile
  obtain ⟨fuel, r, hread, hs, hrep⟩ := Reader.readLog_layout (C := C) mode key logNumber mac
    checksum readNumber records []
  obtain ⟨r', hnone, hrep'⟩ := Reader.readRecordLoop_of_tail (C := C) mode
    (r.remaining.length + 1) .empty hs (by
      rw [Reader.body, hs.remaining]
      simpa using overhead_pos false)
  rw [List.append_nil, Reader.readRecords_of_end mode fuel hnone] at hread
  refine ⟨_, r', hw, ?_, (hrep' (Or.inr ⟨rfl, rfl⟩)).trans hrep⟩
  rw [hfile, hread]
  simp [Except.map]

end Tweezer.Log
