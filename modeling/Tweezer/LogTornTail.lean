import Tweezer.LogRoundTrip

/-!
# Torn log files

A legacy log cut off at byte `t`, with zeros from preallocation behind the cut. The reader
returns every record that is complete, and ends the log where fewer bytes than a header and
a tag are left. Where there are more, it decrypts at the length a header gives before it
has looked whether the payload is there: the read leaves the buffer, or the tag of what it
finds does not verify.
-/

namespace Tweezer.Log

/-- The bytes a fragment takes behind a predecessor that ended at `off`. -/
def Fragment.span (f : Fragment) (recycle : Bool) (off : ℕ) : ℕ :=
  trailer recycle off + (overhead recycle + f.payload.length)

/-- The fragments that lie in the first `t` bytes of a layout. -/
def complete (recycle : Bool) : ℕ → List Fragment → ℕ → List Fragment
  | _, [], _ => []
  | off, f :: fs, t => if f.span recycle off ≤ t then
      f :: complete recycle (f.nextOffset recycle off) fs (t - f.span recycle off) else []

/-- The bytes behind them that belong to a fragment cut off. -/
def tornBytes (recycle : Bool) : ℕ → List Fragment → ℕ → ℕ
  | _, [], _ => 0
  | off, f :: fs, t => if f.span recycle off ≤ t then
      tornBytes recycle (f.nextOffset recycle off) fs (t - f.span recycle off) else t

def spans (recycle : Bool) : ℕ → List Fragment → ℕ
  | _, [] => 0
  | off, f :: fs => f.span recycle off + spans recycle (f.nextOffset recycle off) fs

theorem complete_of_spans_le {recycle : Bool} {off t : ℕ} (fs gs : List Fragment)
    (h : spans recycle off fs ≤ t) :
    complete recycle off (fs ++ gs) t = fs ++
      complete recycle (offsetAfter recycle off fs) gs (t - spans recycle off fs) := by
  induction fs generalizing off t with
  | nil => rfl
  | cons f fs ih =>
      rw [spans] at h
      rw [List.cons_append, complete, if_pos (by omega), ih (by omega), spans, offsetAfter,
        Nat.sub_sub, List.cons_append]

/-- A list of fragments that does not lie in the first `t` bytes is cut inside. -/
theorem complete_of_lt_spans (recycle : Bool) (off t : ℕ) (fs gs : List Fragment)
    (h : t < spans recycle off fs) :
    ∃ d ds, fs = complete recycle off (fs ++ gs) t ++ d :: ds := by
  induction fs generalizing off t with
  | nil => cases h
  | cons f fs ih =>
      rw [spans] at h
      rw [List.cons_append, complete]
      split_ifs with hf
      · obtain ⟨d, ds, hds⟩ := ih (f.nextOffset recycle off)
          (t - f.span recycle off) (by omega)
        refine ⟨d, ds, ?_⟩
        rw [List.cons_append]
        exact congrArg (f :: ·) hds
      · exact ⟨f, fs, rfl⟩

section Bytes

variable (C : Gcm) (key : Key) (logNumber : UInt64) (recycle : Bool)

theorem length_layout (off : ℕ) (m : Mac) {fs : List Fragment} (h : Fits recycle off fs) :
    (layout C key logNumber recycle off m fs).length = spans recycle off fs := by
  induction fs generalizing off m with
  | nil => rfl
  | cons f fs ih =>
      have hl := f.length_encode C key logNumber m
      rw [h.1.isRecyclable] at hl
      rw [layout, List.length_append, List.length_append, ih _ _ h.2, hl, Bytes.length_zeros, spans,
        Fragment.span]
      omega

/-- A layout cut off at `t` is that of its complete fragments and a proper part of the next
fragment. -/
theorem take_layout {off : ℕ} {m : Mac} {fs : List Fragment} (t : ℕ)
    (h : Fits recycle off fs) :
    ∃ ds torn, fs = complete recycle off fs t ++ ds ∧
      (layout C key logNumber recycle off m fs).take t =
        layout C key logNumber recycle off m (complete recycle off fs t) ++ torn ∧
      torn.length = tornBytes recycle off fs t ∧
      torn <+: layout C key logNumber recycle
        (offsetAfter recycle off (complete recycle off fs t))
        (macAfter C key m (complete recycle off fs t)) ds ∧
      ∀ d ∈ ds.head?, torn.length <
        d.span recycle (offsetAfter recycle off (complete recycle off fs t)) := by
  induction fs generalizing off m t with
  | nil => exact ⟨[], [], rfl, by simp [layout, complete], rfl, List.nil_prefix, by simp⟩
  | cons f fs ih =>
      have hl := f.length_encode C key logNumber m
      rw [h.1.isRecyclable] at hl
      rw [complete, tornBytes]
      split_ifs with hf
      · obtain ⟨ds, torn, hds, htake, hlen, hpre, hd⟩ :=
          ih (m := f.mac C key m) (t - f.span recycle off) h.2
        refine ⟨ds, torn, congrArg (f :: ·) hds, ?_, hlen, hpre, hd⟩
        have hspan : (Bytes.zeros (trailer recycle off) ++ f.encode C key logNumber m).length =
            f.span recycle off := by
          rw [List.length_append, hl, Bytes.length_zeros, Fragment.span]
        rw [layout, layout, ← List.append_assoc, List.take_append,
          List.take_of_length_le (by rw [hspan]; exact hf), hspan, htake]
        simp only [List.append_assoc]
      · have hlay : (layout C key logNumber recycle off m (f :: fs)).length =
            spans recycle off (f :: fs) := length_layout C key logNumber recycle off m h
        rw [spans] at hlay
        refine ⟨f :: fs, (layout C key logNumber recycle off m (f :: fs)).take t, rfl, rfl, ?_,
          List.take_prefix _ _, ?_⟩
        · rw [List.length_take]
          omega
        · intro d hd
          obtain rfl := Option.some.inj hd
          rw [List.length_take]
          change min t _ < f.span recycle off
          omega

end Bytes

/-- The records of which the last byte lies in the first `t` bytes of the file. -/
def recordsWithin (C : Gcm) (w : Writer) (t : ℕ) : List Bytes → List Bytes
  | [] => []
  | r :: rs => match w.addRecord C r with
    | .ok (_, w) => if w.dest.contents.length ≤ t then r :: recordsWithin C w t rs else []
    | .error _ => []

/-- The complete fragments are those of the complete records and, it may be, the first of
the record behind them. -/
theorem complete_logFragments (C : Gcm) {w : Writer} (t : ℕ) (rs : List Bytes)
    (hf : w.dest.faults = []) (ho : w.dest.contents.length ≤ t) :
    ∃ gs, complete w.recycleLogFiles w.blockOffset
        (logFragments w.recycleLogFiles w.blockOffset rs) (t - w.dest.contents.length) =
        logFragments w.recycleLogFiles w.blockOffset (recordsWithin C w t rs) ++ gs ∧
      (gs = [] ∨ ∃ r d ds, fragments w.recycleLogFiles true
        (offsetAfter w.recycleLogFiles w.blockOffset
          (logFragments w.recycleLogFiles w.blockOffset (recordsWithin C w t rs))) r =
        gs ++ d :: ds) := by
  induction rs generalizing w with
  | nil => exact ⟨[], rfl, Or.inl rfl⟩
  | cons r rs ih =>
      have hadd := Writer.addRecord_healthy C r hf
      have hputs := Writer.puts_eq C w (fragments w.recycleLogFiles true w.blockOffset r)
      have hlen := length_layout C w.uniqueKey w.logNumber w.recycleLogFiles w.blockOffset
        w.previousMac (fits_fragments w.recycleLogFiles true w.blockOffset r)
      have hcontents := congrArg (fun w => w.dest.contents.length) hputs
      simp only [List.length_append, hlen] at hcontents
      rw [logFragments, recordsWithin, hadd]
      dsimp only
      split_ifs with ht
      · rw [hcontents] at ht
        have hfaults : (w.puts C (fragments w.recycleLogFiles true w.blockOffset r)).dest.faults =
            [] := by
          rw [hputs]
          exact hf
        obtain ⟨gs, hcomplete, hgs⟩ := ih hfaults (by rw [hcontents]; exact ht)
        have hrec := congrArg Writer.recycleLogFiles hputs
        have hoff := congrArg Writer.blockOffset hputs
        dsimp only at hrec hoff
        rw [hrec, hoff, hcontents, ← Nat.sub_sub] at hcomplete
        rw [hrec, hoff] at hgs
        refine ⟨gs, ?_, ?_⟩
        · rw [complete_of_spans_le _ _ (by omega), hcomplete, logFragments, List.append_assoc]
        · rw [logFragments, offsetAfter_append]
          exact hgs
      · rw [hcontents] at ht
        obtain ⟨d, ds, hds⟩ := complete_of_lt_spans w.recycleLogFiles w.blockOffset
          (t - w.dest.contents.length)
          (fragments w.recycleLogFiles true w.blockOffset r)
          (logFragments w.recycleLogFiles (offsetAfter w.recycleLogFiles w.blockOffset
            (fragments w.recycleLogFiles true w.blockOffset r)) rs) (by omega)
        exact ⟨_, rfl, Or.inr ⟨r, d, ds, hds⟩⟩

namespace Reader

variable {C : Gcm} {key : Key} {logNumber : UInt64} (mode : WALRecoveryMode)

/-- The loop of `ReadRecord` over fragments of which none ends its record. -/
theorem readRecordLoop_opens (begin_ : Bool) (off : ℕ) (left : Bytes) {r : Reader} {m : Mac}
    {rest : Bytes} {gs ds : List Fragment} {d : Fragment} (fuel : ℕ) (a : Assembly)
    (ha : begin_ = false → a.inFragmentedRecord = true)
    (hgs : fragments false begin_ off left = gs ++ d :: ds)
    (hs : r.Synced key off m (layout C key logNumber false off m gs ++ rest)) :
    ∃ (a' : Assembly) (r' : Reader),
      r.readRecordLoop C mode (gs.length + fuel) a = r'.readRecordLoop C mode fuel a' ∧
      r'.Synced key (offsetAfter false off gs) (macAfter C key m gs) rest ∧
      (a.inFragmentedRecord = !begin_ → r'.reports = r.reports) := by
  induction begin_, off, left using fragments.induct false generalizing r m a gs with
  | case1 begin_ off left h =>
      rw [fragments_of_le h] at hgs
      have hnil : gs = [] := by
        cases gs with
        | nil => rfl
        | cons g gs => simp at hgs
      subst hnil
      exact ⟨a, r, by rw [List.length_nil, Nat.zero_add], hs, fun _ => rfl⟩
  | case2 begin_ off left h ih =>
      have hlt := not_le.mp h
      have hfits := fits_fragments false begin_ off left
      rw [fragments_of_lt hlt] at hgs hfits
      cases gs with
      | nil => exact ⟨a, r, by rw [List.length_nil, Nat.zero_add], hs, fun _ => rfl⟩
      | cons g gs =>
          rw [List.cons_append, List.cons.injEq] at hgs
          obtain ⟨rfl, hgs⟩ := hgs
          obtain ⟨a', r', hturn, ha', -, hs', hrep⟩ :=
            readRecordLoop_open mode (gs.length + fuel) a ha hfits.1 hs
          have hoff : (Fragment.mk (.ofPosition false begin_ false)
              (left.take (avail false off))).nextOffset false off = kBlockSize := by
            rw [Fragment.nextOffset, List.length_take, Nat.min_eq_left hlt.le,
              startOffset_add_avail]
          rw [hoff] at hs'
          obtain ⟨a'', r'', hrun, hs'', hrep'⟩ := ih a' (fun _ => ha') hgs hs'
          refine ⟨a'', r'', ?_, ?_, fun hclosed => (hrep' ha').trans (hrep hclosed)⟩
          · rw [List.length_cons, Nat.succ_add, hturn, hrun]
          · rw [offsetAfter, macAfter, hoff]
            exact hs''

/-- Behind the complete fragments the reader stops as soon as a header and a tag's worth of
bytes is left: a header it can read is that of a fragment cut off, and what reaches past
the cut does not verify. -/
theorem readPhysicalRecord_torn {r : Reader} {off : ℕ} {m : Mac} {ds : List Fragment}
    {torn rest : Bytes} (hs : r.Synced key off m (torn ++ rest)) (hfits : Fits false off ds)
    (hpre : torn <+: layout C key logNumber false off m ds)
    (hcut : ∀ d ∈ ds.head?, torn.length < d.span false off)
    (hb : overhead false ≤ (r.body off).length)
    (hauth : ∀ len, torn.length < trailer false off + kHeaderSize + len + kMacSize →
      ¬Verifies C key m (torn ++ rest) (trailer false off + kHeaderSize) len) :
    ∃ e, r.readPhysicalRecord C = .error e := by
  refine readPhysicalRecord_stops hs.aligned hb ?_
  rw [hs.uniqueKey, hs.previousMac, body, hs.remaining]
  intro hv
  obtain ⟨len, hlen⟩ : ∃ n, n = Bytes.leDecode ((C.dec key
    (Bytes.slice ((torn ++ rest).drop (trailer false off)) 0 kHeaderSize)).slice 4 2) := ⟨_, rfl⟩
  rw [← hlen] at hv
  rcases Nat.lt_or_ge torn.length (trailer false off + kHeaderSize + len + kMacSize) with h | h
  · exact hauth len h hv.of_drop
  -- the header is complete, so it is the one of the fragment that was cut off
  · cases ds with
    | nil =>
        rw [List.prefix_nil.mp hpre] at h
        simp at h
    | cons d ds =>
        have hd := hcut d rfl
        rw [Fragment.span] at hd
        have ho : overhead false = kHeaderSize + kMacSize := rfl
        have hlh : (C.enc key (recordHeader d.type logNumber d.payload)).length = kHeaderSize := by
          rw [C.length_enc, length_recordHeader, RecordType.headerSize, hfits.1.isRecyclable]
          rfl
        obtain ⟨more, hmore⟩ := hpre
        have hheader : Bytes.slice ((torn ++ rest).drop (trailer false off)) 0 kHeaderSize =
            C.enc key (recordHeader d.type logNumber d.payload) := by
          have htorn : Bytes.slice (torn.drop (trailer false off)) 0 kHeaderSize =
              Bytes.slice ((torn ++ more).drop (trailer false off)) 0 kHeaderSize := by
            rw [List.drop_append_of_le_length (by omega), Bytes.slice_append_left _ _ _ _
              (by rw [List.length_drop]; omega)]
          rw [List.drop_append_of_le_length (by omega), Bytes.slice_append_left _ _ _ _
            (by rw [List.length_drop]; omega), htorn, hmore, layout,
            Bytes.drop_append_of_length (Bytes.length_zeros _), Fragment.encode,
            List.append_assoc, Bytes.slice_zero_append hlh]
        have hfit := hfits.1.nextOffset_le
        rw [Fragment.nextOffset] at hfit
        have hblock : kBlockSize < 256 ^ 2 := by decide
        have hpayload : len = d.payload.length := by
          have hsl := slice_length_recordHeader d.type logNumber d.payload []
          rw [List.append_nil] at hsl
          rw [hlen, hheader, C.dec_enc, hsl, Bytes.leDecode_leEncode_of_lt (by omega)]
        omega

end Reader

theorem complete_newFile (C : Gcm) (logNumber : UInt64) (recycle manualFlush : Bool) (key : Key)
    (mac : Mac) (t : ℕ) (rs : List Bytes) :
    ∃ gs, complete recycle 0 (logFragments recycle 0 rs) t =
        logFragments recycle 0
          (recordsWithin C (.create .fresh logNumber recycle manualFlush key mac) t rs) ++ gs ∧
      (gs = [] ∨ ∃ r d ds, fragments recycle true (offsetAfter recycle 0 (logFragments recycle 0
        (recordsWithin C (.create .fresh logNumber recycle manualFlush key mac) t rs))) r =
        gs ++ d :: ds) :=
  complete_logFragments C (w := .create .fresh logNumber recycle manualFlush key mac) t rs rfl
    (Nat.zero_le _)

section BlockStart

/-! Counting from the end of a full block is counting from the start of the next one. -/

variable (recycle : Bool) (fs : List Fragment)

theorem span_kBlockSize (f : Fragment) : f.span recycle kBlockSize = f.span recycle 0 := by
  rw [Fragment.span, Fragment.span, trailer_kBlockSize, trailer_zero]

theorem complete_kBlockSize (t : ℕ) :
    complete recycle kBlockSize fs t = complete recycle 0 fs t := by
  cases fs with
  | nil => rfl
  | cons f fs => rw [complete, complete, span_kBlockSize, f.nextOffset_kBlockSize]

theorem tornBytes_kBlockSize (t : ℕ) :
    tornBytes recycle kBlockSize fs t = tornBytes recycle 0 fs t := by
  cases fs with
  | nil => rfl
  | cons f fs => rw [tornBytes, tornBytes, span_kBlockSize, f.nextOffset_kBlockSize]

theorem offsetAfter_kBlockSize (h : fs ≠ []) :
    offsetAfter recycle kBlockSize fs = offsetAfter recycle 0 fs :=
  offsetAfter_congr (startOffset_kBlockSize_eq recycle) h

theorem trailer_offsetAfter_kBlockSize :
    trailer recycle (offsetAfter recycle kBlockSize fs) =
      trailer recycle (offsetAfter recycle 0 fs) := by
  by_cases h : fs = []
  · rw [h, offsetAfter, offsetAfter, trailer_kBlockSize, trailer_zero]
  · rw [offsetAfter_kBlockSize recycle fs h]

theorem fragments_offsetAfter_kBlockSize (begin_ : Bool) (left : Bytes) :
    fragments recycle begin_ (offsetAfter recycle kBlockSize fs) left =
      fragments recycle begin_ (offsetAfter recycle 0 fs) left := by
  by_cases h : fs = []
  · rw [h, offsetAfter, offsetAfter, fragments_kBlockSize]
  · rw [offsetAfter_kBlockSize recycle fs h]

end BlockStart

section TornFile

variable (C : Gcm) (logNumber : UInt64) (manualFlush : Bool) (key : Key) (mac : Mac)
  (records : List Bytes)

/-- A log file cut off at byte `t`, with `k` zeros behind the cut. -/
def tornFile (t k : ℕ) : Bytes :=
  (logFile C logNumber false manualFlush key mac records).take t ++ Bytes.zeros k

/-- The reader returns the records that are complete and ends the log, with nothing reported
unless it was asked to take an unclean end for a corruption. -/
def ToleratesTornTail (checksum : Bool) (readNumber : UInt64) (mode : WALRecoveryMode)
    (t k : ℕ) : Prop :=
  ∃ r, (Reader.create (.ofBytes (tornFile C logNumber manualFlush key mac records t k)) checksum
      readNumber key mac).readLog C mode =
    .ok (recordsWithin C (.create .fresh logNumber false manualFlush key mac) t records, r) ∧
    (mode ≠ .kAbsoluteConsistency → r.reports = [])

/-- The number of bytes behind the complete fragments, leaving out the rest of a block that
is too short for a header and a tag. -/
def tailLength (t k : ℕ) : ℕ :=
  tornBytes false 0 (logFragments false 0 records) t + k -
    trailer false (offsetAfter false 0 (complete false 0 (logFragments false 0 records) t))

/-- No window of the file that reaches past the cut verifies under a tag of the chain. -/
def NothingPastCutVerifies (t k : ℕ) : Prop :=
  ∀ fs off len, fs <+: logFragments false 0 records →
    ((logFile C logNumber false manualFlush key mac records).take t).length <
      off + len + kMacSize →
    ¬Verifies C key (macAfter C key mac fs) (tornFile C logNumber manualFlush key mac records t k)
      off len

/-- What a reader of a torn file does once it has returned the complete records: it goes
over the rest of the complete fragments and comes to the tail. -/
theorem readLog_tornFile (checksum : Bool) (readNumber : UInt64) (mode : WALRecoveryMode)
    (t k : ℕ) (hauth : NothingPastCutVerifies C logNumber manualFlush key mac records t k) :
    ∃ (fuel fuel' : ℕ) (a : Assembly) (r r' : Reader) (off : ℕ) (m : Mac) (b : Bytes),
      (Reader.create (.ofBytes (tornFile C logNumber manualFlush key mac records t k)) checksum
        readNumber key mac).readLog C mode =
        (r.readRecords C mode (fuel + 1)).map (fun p =>
          (recordsWithin C (.create .fresh logNumber false manualFlush key mac) t records ++ p.1,
            p.2)) ∧
      r.readRecord C mode = r'.readRecordLoop C mode (fuel' + 1) a ∧
      r'.Synced key off m b ∧ r'.reports = [] ∧
      (r'.body off).length = tailLength records t k ∧
      (overhead false ≤ (r'.body off).length → ∃ e, r'.readPhysicalRecord C = .error e) := by
  have hfits : Fits false kBlockSize (logFragments false 0 records) := by
    rw [← logFragments_kBlockSize]
    exact fits_logFragments _ _ _
  obtain ⟨ds, torn, hds, htake, hlen, hpre, hcut⟩ :=
    take_layout C key logNumber false (m := mac) t hfits
  obtain ⟨gs, hcomplete, hgs⟩ := complete_newFile C logNumber false manualFlush key mac t records
  obtain ⟨cr, hcr⟩ : ∃ rs, rs = recordsWithin C
    (.create .fresh logNumber false manualFlush key mac) t records := ⟨_, rfl⟩
  obtain ⟨cs, hcs⟩ : ∃ cs, cs = complete false 0 (logFragments false 0 records) t := ⟨_, rfl⟩
  rw [← hcr, ← hcs] at hcomplete
  rw [← hcr] at hgs ⊢
  rw [complete_kBlockSize, ← hcs] at hds htake hpre hcut
  rw [layout_kBlockSize] at htake
  rw [tornBytes_kBlockSize] at hlen
  have hwritten : (logFile C logNumber false manualFlush key mac records).take t =
      layout C key logNumber false kBlockSize mac cs ++ torn := by
    rw [logFile_eq_layout, htake]
  have hfile : tornFile C logNumber manualFlush key mac records t k =
      layout C key logNumber false kBlockSize mac cs ++ (torn ++ Bytes.zeros k) := by
    rw [tornFile, hwritten, List.append_assoc]
  -- the complete records
  obtain ⟨fuel, r, hread, hs, hrep⟩ := Reader.readLog_layout (C := C) mode key logNumber mac
    checksum readNumber cr (layout C key logNumber false
      (offsetAfter false kBlockSize (logFragments false 0 cr))
      (macAfter C key mac (logFragments false 0 cr)) gs ++ (torn ++ Bytes.zeros k))
  rw [← layout_kBlockSize, ← List.append_assoc, ← layout_append, ← hcomplete, ← hfile] at hread
  -- the complete fragments behind them
  have hloop : ∃ (fuel' : ℕ) (a : Assembly) (r' : Reader),
      r.readRecord C mode = r'.readRecordLoop C mode (fuel' + 1) a ∧
      r'.Synced key (offsetAfter false kBlockSize cs) (macAfter C key mac cs)
        (torn ++ Bytes.zeros k) ∧ r'.reports = r.reports := by
    rw [hcomplete, offsetAfter_append, macAfter_append]
    rcases hgs with rfl | ⟨left, d, ds', hfrag⟩
    · exact ⟨_, _, r, rfl, hs, rfl⟩
    · have hl := length_le_length_layout C key logNumber false
        (offsetAfter false kBlockSize (logFragments false 0 cr))
        (macAfter C key mac (logFragments false 0 cr)) gs
      obtain ⟨n, hn⟩ : ∃ n, r.remaining.length + 2 = gs.length + (n + 1) := by
        obtain ⟨n, hn⟩ := Nat.exists_eq_add_of_le hl
        refine ⟨n + (torn ++ Bytes.zeros k).length + 1, ?_⟩
        rw [hs.remaining, List.length_append, hn]
        omega
      rw [← fragments_offsetAfter_kBlockSize] at hfrag
      obtain ⟨a, r', hrun, hs', hrep'⟩ :=
        Reader.readRecordLoop_opens mode true _ left (n + 1) .empty (fun h => nomatch h) hfrag hs
      exact ⟨n, a, r', by rw [Reader.readRecord, hn, hrun], hs', hrep' rfl⟩
  obtain ⟨fuel', a, r', hloop, hs', hrep'⟩ := hloop
  refine ⟨fuel, fuel', a, r, r', _, _, _, hread, hloop, hs', hrep'.trans hrep, ?_, ?_⟩
  · rw [Reader.body, hs'.remaining, List.length_drop, List.length_append, Bytes.length_zeros, hlen,
      trailer_offsetAfter_kBlockSize, tailLength, hcs]
  · intro hb
    have hfits' : Fits false (offsetAfter false kBlockSize cs) ds := by
      rw [hds, fits_append] at hfits
      exact hfits.2
    refine Reader.readPhysicalRecord_torn hs' hfits' hpre hcut hb ?_
    intro len hpast hv
    have hdrop : (tornFile C logNumber manualFlush key mac records t k).drop
        (layout C key logNumber false kBlockSize mac cs).length = torn ++ Bytes.zeros k := by
      rw [hfile, List.drop_left]
    rw [← hdrop] at hv
    refine hauth cs _ len ⟨ds, hds.symm⟩ ?_ hv.of_drop
    rw [hwritten, List.length_append]
    omega

/-- A torn file is tolerated exactly when fewer bytes than a header and a tag are left
behind its complete fragments. -/
theorem toleratesTornTail_iff (checksum : Bool) (readNumber : UInt64) (mode : WALRecoveryMode)
    (t k : ℕ) (hauth : NothingPastCutVerifies C logNumber manualFlush key mac records t k) :
    ToleratesTornTail C logNumber manualFlush key mac records checksum readNumber mode t k ↔
      tailLength records t k < kHeaderSize + kMacSize := by
  obtain ⟨fuel, fuel', a, r, r', off, m, b, hread, hloop, hs, hrep, hlen, hstop⟩ :=
    readLog_tornFile C logNumber manualFlush key mac records checksum readNumber mode t k hauth
  rw [← hlen]
  constructor
  · rintro ⟨r'', hok, -⟩
    by_contra hlong
    obtain ⟨e, he⟩ := hstop (not_lt.mp hlong)
    rw [Reader.readRecordLoop_of_stop mode fuel' a he] at hloop
    rw [hread, Reader.readRecords_of_stop mode fuel hloop] at hok
    cases hok
  · intro hshort
    obtain ⟨r'', hnone, hrep'⟩ := Reader.readRecordLoop_of_tail mode fuel' a hs hshort
    refine ⟨r'', ?_, fun hm => (hrep' (Or.inl hm)).trans hrep⟩
    rw [hread, Reader.readRecords_of_end mode fuel (hloop.trans hnone)]
    simp [Except.map]

end TornFile

/-- One record of three bytes, with the last byte of its tag missing: the tag is read past the
end of the buffer. -/
theorem tornFile_not_tolerated :
    ¬ToleratesTornTail sampleGcm 5 false sampleKey sampleMac [[1, 2, 3]] true 5
      .kTolerateCorruptedTailRecords 25 0 := by
  rintro ⟨r, hread, -⟩
  have hstop : ((Reader.create (.ofBytes (tornFile sampleGcm 5 false sampleKey sampleMac
      [[1, 2, 3]] 25 0)) true 5 sampleKey sampleMac).readLog sampleGcm
      .kTolerateCorruptedTailRecords).isOk = false := by decide +kernel
  rw [hread] at hstop
  cases hstop

/-- The condition on the tags holds of that file with four zeros behind it. -/
theorem toleratesTornTail_iff_sample :
    ToleratesTornTail sampleGcm 5 false sampleKey sampleMac [[1, 2, 3]] true 5
        .kTolerateCorruptedTailRecords 25 4 ↔
      tailLength [[1, 2, 3]] 25 4 < kHeaderSize + kMacSize := by
  refine toleratesTornTail_iff sampleGcm 5 false sampleKey sampleMac [[1, 2, 3]] true 5
    .kTolerateCorruptedTailRecords 25 4 ?_
  have hfragments : logFragments false 0 [[1, 2, 3]] = [⟨.full, [1, 2, 3]⟩] := by
    rw [logFragments, fragments_of_le (by decide)]
    rfl
  have hlen : (tornFile sampleGcm 5 false sampleKey sampleMac [[1, 2, 3]] 25 4).length = 29 := by
    decide +kernel
  have hcut : ((logFile sampleGcm 5 false false sampleKey sampleMac [[1, 2, 3]]).take 25).length =
      25 := by decide +kernel
  have hwindows : ∀ off < 14, ∀ len < 14, 25 < off + len + 16 →
      ¬Verifies sampleGcm sampleKey sampleMac
        (tornFile sampleGcm 5 false sampleKey sampleMac [[1, 2, 3]] 25 4) off len ∧
      ¬Verifies sampleGcm sampleKey
        ((Fragment.mk .full [1, 2, 3]).mac sampleGcm sampleKey sampleMac)
        (tornFile sampleGcm 5 false sampleKey sampleMac [[1, 2, 3]] 25 4) off len := by
    unfold Verifies
    decide +kernel
  intro fs off len hfs hpast hv
  rw [hcut] at hpast
  have hbound := hv.1
  have hw := hwindows off (by omega) len (by omega) hpast
  rw [hfragments] at hfs
  rcases List.prefix_cons_iff.mp hfs with rfl | ⟨gs, rfl, hgs⟩
  · exact hw.1 hv
  · obtain rfl := List.prefix_nil.mp hgs
    exact hw.2 hv

end Tweezer.Log
