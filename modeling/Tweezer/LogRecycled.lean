import Tweezer.LogRoundTrip

/-!
# Recycled log files

A writer in the recyclable format overwrites the beginning of an old file. Its headers
have eleven bytes, and it encrypts and tags what comes behind them, while the reader takes
the payload to start seven bytes behind the start of the header. So the first record the
reader looks at never verifies, be it a new one or stale bytes: only a file too short for a
header and a tag is read at all.
-/

namespace Tweezer.Log

variable (C : Gcm)

/-- A file whose beginning has been overwritten. -/
def overwrite (old new : Bytes) : Bytes := new ++ old.drop new.length

/-- An old file after a new writer has reused it for `records`. -/
def recycledFile (logNumber : UInt64) (manualFlush : Bool) (key : Key) (mac : Mac)
    (records : List Bytes) (old : Bytes) : Bytes :=
  overwrite old (logFile C logNumber true manualFlush key mac records)

/-- `ReadRecord` returns the records and then reports the end of the log. -/
def ReadsBack (logNumber : UInt64) (checksum : Bool) (key : Key) (mac : Mac)
    (mode : WALRecoveryMode) (file : Bytes) (records : List Bytes) : Prop :=
  ∃ r, (Reader.create (.ofBytes file) checksum logNumber key mac).readLog C mode =
    .ok (records, r)

/-- Under the new key and the initial tag, nothing in the file verifies but the first
fragment of the new records, behind its eleven-byte header. -/
def OnlyFirstVerifies (key : Key) (mac : Mac) (records : List Bytes) (file : Bytes) : Prop :=
  ∀ off len, Verifies C key mac file off len →
    ∃ f, (logFragments true 0 records).head? = some f ∧ off = kRecyclableHeaderSize ∧
      len = f.payload.length

/-- A short file holds no record of the recyclable format. -/
theorem records_eq_nil_of_short (logNumber : UInt64) (manualFlush : Bool) (key : Key)
    (mac : Mac) (records : List Bytes) (old : Bytes)
    (h : (recycledFile C logNumber manualFlush key mac records old).length < overhead false) :
    records = [] := by
  by_contra hne
  have hl := overhead_le_length_logFile C logNumber true manualFlush key mac hne
  have ho : overhead false < overhead true := by decide
  rw [recycledFile, overwrite, List.length_append] at h
  omega

/-- Reuse of a log file works exactly when the whole file is too short for a header and a
tag, so that there is nothing to read. -/
theorem readsBack_recycledFile_iff (logNumber : UInt64) (manualFlush checksum : Bool)
    (key : Key) (mac : Mac) (mode : WALRecoveryMode) (records : List Bytes) (old : Bytes)
    (hauth : OnlyFirstVerifies C key mac records
      (recycledFile C logNumber manualFlush key mac records old)) :
    ReadsBack C logNumber checksum key mac mode
        (recycledFile C logNumber manualFlush key mac records old) records ↔
      (recycledFile C logNumber manualFlush key mac records old).length <
        kHeaderSize + kMacSize := by
  obtain ⟨file, hfile⟩ : ∃ b, b = recycledFile C logNumber manualFlush key mac records old :=
    ⟨_, rfl⟩
  have hshort := records_eq_nil_of_short C logNumber manualFlush key mac records old
  rw [← hfile] at hauth hshort ⊢
  have hs := Reader.synced_create file checksum logNumber key mac
  have hbody : (Reader.create (.ofBytes file) checksum logNumber key mac).body kBlockSize =
      file := by
    rw [Reader.body, hs.remaining, trailer_kBlockSize, List.drop_zero]
  constructor
  · rintro ⟨r, hread⟩
    by_contra hlen
    obtain ⟨e, hstop⟩ := Reader.readRecord_create_stops (C := C) mode checksum
      logNumber (not_lt.mp hlen) fun len hv => by
        obtain ⟨f, -, hoff, -⟩ := hauth _ _ hv
        cases hoff
    rw [Reader.readLog, Reader.readRecords_of_stop mode _ hstop] at hread
    cases hread
  · intro hlen
    obtain rfl := hshort hlen
    obtain ⟨r, hnone, -⟩ := Reader.readRecordLoop_of_tail (C := C) mode
      ((Reader.create (.ofBytes file) checksum logNumber key mac).remaining.length + 1) .empty hs
      (by rw [hbody]; exact hlen)
    refine ⟨r, ?_⟩
    rw [Reader.readLog, Reader.readRecords]
    rw [show Reader.readRecord C _ mode = _ from hnone]
    rfl

/-- One record of two bytes over forty stale bytes: the tag check ends the process. -/
theorem recycledFile_not_readsBack :
    ¬ReadsBack sampleGcm 5 true sampleKey sampleMac .kPointInTimeRecovery
      (recycledFile sampleGcm 5 false sampleKey sampleMac [[1, 2]] (List.replicate 40 7))
      [[1, 2]] := by
  rintro ⟨r, hread⟩
  have hstop : ((Reader.create (.ofBytes (recycledFile sampleGcm 5 false sampleKey sampleMac
      [[1, 2]] (List.replicate 40 7))) true 5 sampleKey sampleMac).readLog sampleGcm
      .kPointInTimeRecovery).isOk = false := by decide +kernel
  rw [hread] at hstop
  cases hstop

/-- The condition on the tags holds of that file. -/
theorem readsBack_recycledFile_iff_sample :
    ReadsBack sampleGcm 5 true sampleKey sampleMac .kPointInTimeRecovery
        (recycledFile sampleGcm 5 false sampleKey sampleMac [[1, 2]] (List.replicate 40 7))
        [[1, 2]] ↔
      (recycledFile sampleGcm 5 false sampleKey sampleMac [[1, 2]]
        (List.replicate 40 7)).length < kHeaderSize + kMacSize := by
  refine readsBack_recycledFile_iff sampleGcm 5 false true sampleKey sampleMac
    .kPointInTimeRecovery [[1, 2]] (List.replicate 40 7) ?_
  have hfirst : (logFragments true 0 [[1, 2]]).head? = some ⟨.recyclableFull, [1, 2]⟩ := by
    rw [logFragments, fragments_of_le (by decide)]
    rfl
  have hwindows : ∀ off < 25, ∀ len < 25, Verifies sampleGcm sampleKey sampleMac
      (recycledFile sampleGcm 5 false sampleKey sampleMac [[1, 2]] (List.replicate 40 7))
      off len → off = 11 ∧ len = 2 := by
    unfold Verifies
    decide +kernel
  intro off len hv
  have hlen : (recycledFile sampleGcm 5 false sampleKey sampleMac [[1, 2]]
      (List.replicate 40 7)).length = 40 := by decide +kernel
  have hbound := hv.1
  obtain ⟨hoff, hl⟩ := hwindows off (by omega) len (by omega) hv
  exact ⟨_, hfirst, hoff, hl⟩

end Tweezer.Log
