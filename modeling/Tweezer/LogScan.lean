import Tweezer.LogLayout
import Tweezer.LogReader

/-!
# Reading a layout

The reader's buffer is the rest of the block it is in. As long as the file goes on with a
legacy fragment under the reader's key and tag, `ReadPhysicalRecord` returns that fragment
and moves behind it; where less than a header and a tag is left, it returns `kEof` or
`kBadHeader`.
-/

namespace Tweezer.Log

theorem SequentialFile.read_of_healthy {f : SequentialFile} (h : f.faults = []) (n : ℕ) :
    f.read n = (some (f.rest.take n), { f with rest := f.rest.drop n }) := by
  simp only [read, h]

namespace Reader

variable (C : Gcm)

/-- The reader has consumed its block up to offset `off`. A block loaded in full reaches to
the block end; a shorter one is the last of the file, and its end is remembered. -/
structure Aligned (r : Reader) (off : ℕ) : Prop where
  healthy : r.file.faults = []
  noError : r.readError = false
  offset_le : off ≤ kBlockSize
  full : r.eof = false → r.buffer.length = kBlockSize - off
  short : r.eof = true → r.file.rest = [] ∧ r.buffer.length < kBlockSize - off
  marked : r.eof = true → r.eofOffset = off + r.buffer.length

theorem aligned_create (b : Bytes) (checksum : Bool) (logNumber : UInt64) (key : Key)
    (mac : Mac) : (create (.ofBytes b) checksum logNumber key mac).Aligned kBlockSize :=
  ⟨rfl, rfl, le_rfl, fun _ => (Nat.sub_self _).symm, (fun h => nomatch h), fun h => nomatch h⟩

/-- The reader after `ReadMore` has loaded a block. -/
def load (r : Reader) : Reader :=
  { r with
    file := { r.file with rest := r.file.rest.drop kBlockSize }
    buffer := r.file.rest.take kBlockSize
    endOfBufferOffset := r.endOfBufferOffset + (r.file.rest.take kBlockSize).length
    eof := decide ((r.file.rest.take kBlockSize).length < kBlockSize)
    eofOffset := if (r.file.rest.take kBlockSize).length < kBlockSize then
      (r.file.rest.take kBlockSize).length else r.eofOffset }

theorem readMore_of_not_eof {r : Reader} {off : ℕ} (h : r.Aligned off) (he : r.eof = false) :
    r.readMore = (none, r.load) := by
  have hr := SequentialFile.read_of_healthy h.healthy kBlockSize
  simp only [readMore, he, h.noError, hr, load, Bool.not_false, Bool.and_self, if_true]
  by_cases hs : (r.file.rest.take kBlockSize).length < kBlockSize
  · simp only [hs, if_true, decide_true]
  · simp only [hs, if_false, decide_false]

theorem readMore_of_eof {r : Reader} (he : r.eof = true) :
    ∃ code d r', r.readMore = (some (code, d), r') ∧
      (code = .eof ∨ code = .badHeader ∧ r.buffer ≠ []) ∧ r'.reports = r.reports := by
  by_cases hb : 0 < r.buffer.length
  · refine ⟨.badHeader, r.buffer.length, { r with buffer := [] }, ?_,
      Or.inr ⟨rfl, List.ne_nil_of_length_pos hb⟩, rfl⟩
    rw [readMore, if_neg (by simp [he]), if_pos hb]
  · refine ⟨.eof, 0, r, ?_, Or.inl rfl, rfl⟩
    rw [readMore, if_neg (by simp [he]), if_neg hb]

theorem aligned_load {r : Reader} {off : ℕ} (h : r.Aligned off) : r.load.Aligned 0 := by
  refine ⟨h.healthy, h.noError, Nat.zero_le _, ?_, ?_, ?_⟩
  · intro he
    have hs : ¬(r.file.rest.take kBlockSize).length < kBlockSize := of_decide_eq_false he
    have hl := List.length_take_le kBlockSize r.file.rest
    change (r.file.rest.take kBlockSize).length = _
    omega
  · intro he
    have hs : (r.file.rest.take kBlockSize).length < kBlockSize := of_decide_eq_true he
    refine ⟨List.drop_eq_nil_of_le ?_, hs⟩
    rw [List.length_take] at hs
    omega
  · intro he
    have hs : (r.file.rest.take kBlockSize).length < kBlockSize := of_decide_eq_true he
    rw [Nat.zero_add]
    exact if_pos hs

theorem remaining_load (r : Reader) : r.load.remaining = r.file.rest :=
  List.take_append_drop _ _

/-- What is left of the file from the start of the next fragment on. -/
def body (r : Reader) (off : ℕ) : Bytes := r.remaining.drop (trailer false off)

/-- The reader after it has skipped a block trailer, if it stands at one. -/
def skipTrailer (r : Reader) (off : ℕ) : Reader :=
  if kBlockSize - off < overhead false then r.load else r

section SkipTrailer

variable (r : Reader) (off : ℕ)

@[simp] theorem skipTrailer_uniqueKey : (r.skipTrailer off).uniqueKey = r.uniqueKey := by
  unfold skipTrailer
  split_ifs <;> rfl

@[simp] theorem skipTrailer_previousMac : (r.skipTrailer off).previousMac = r.previousMac := by
  unfold skipTrailer
  split_ifs <;> rfl

@[simp] theorem skipTrailer_reports : (r.skipTrailer off).reports = r.reports := by
  unfold skipTrailer
  split_ifs <;> rfl

@[simp] theorem skipTrailer_checksum : (r.skipTrailer off).checksum = r.checksum := by
  unfold skipTrailer
  split_ifs <;> rfl

end SkipTrailer

/-- Where the file reaches the end of the block, the block was loaded in full. -/
theorem eof_of_trailer {r : Reader} {off : ℕ} (h : r.Aligned off)
    (hb : kBlockSize - off ≤ r.remaining.length) : r.eof = false := by
  cases he : r.eof with
  | false => rfl
  | true =>
      obtain ⟨hr, hlt⟩ := h.short he
      rw [remaining, hr, List.append_nil] at hb
      omega

theorem aligned_skipTrailer {r : Reader} {off : ℕ} (h : r.Aligned off) :
    (r.skipTrailer off).Aligned (startOffset false off) := by
  unfold skipTrailer startOffset
  split_ifs
  · exact aligned_load h
  · exact h

theorem remaining_skipTrailer {r : Reader} {off : ℕ} (h : r.Aligned off)
    (hb : overhead false ≤ (r.body off).length) :
    (r.skipTrailer off).remaining = r.body off := by
  unfold body trailer at *
  by_cases hl : kBlockSize - off < overhead false
  · rw [if_pos hl, List.length_drop] at hb
    have hp := overhead_pos false
    have hf := h.full (eof_of_trailer h (by omega))
    rw [skipTrailer, if_pos hl, if_pos hl, remaining_load, remaining, ← hf, List.drop_left]
  · rw [skipTrailer, if_neg hl, if_neg hl]
    rfl

theorem overhead_le_length_skipTrailer {r : Reader} {off : ℕ} (h : r.Aligned off)
    (hb : overhead false ≤ (r.body off).length) :
    overhead false ≤ (r.skipTrailer off).buffer.length := by
  have ha := aligned_skipTrailer h
  have hr := remaining_skipTrailer h hb
  have hs := startOffset_add_overhead_le false off
  cases he : (r.skipTrailer off).eof with
  | false =>
      rw [ha.full he]
      omega
  | true =>
      rw [← hr, remaining, (ha.short he).1, List.append_nil] at hb
      exact hb

/-- With a header and a tag still to come, `ReadPhysicalRecord` decrypts at the start of
the next fragment. -/
theorem readPhysicalRecord_of_body {r : Reader} {off : ℕ} (h : r.Aligned off)
    (hb : overhead false ≤ (r.body off).length) :
    ∃ fuel, r.readPhysicalRecord C = (r.skipTrailer off).readPhysicalRecordLoop C (fuel + 1) := by
  by_cases hl : kBlockSize - off < overhead false
  · have hlen : kBlockSize - off ≤ r.remaining.length := by
      rw [body, trailer, if_pos hl, List.length_drop] at hb
      have hp := overhead_pos false
      omega
    have he := eof_of_trailer h hlen
    have hshort : r.buffer.length < kHeaderSize + kMacSize := by
      rw [h.full he]
      exact hl
    refine ⟨1, ?_⟩
    rw [readPhysicalRecord, readPhysicalRecordLoop, if_pos hshort, readMore_of_not_eof h he,
      skipTrailer, if_pos hl]
  · refine ⟨2, ?_⟩
    rw [readPhysicalRecord, skipTrailer, if_neg hl]

/-- With less than that to come, it returns `kEof` or, where anything is left, `kBadHeader`. -/
theorem readPhysicalRecord_of_tail {r : Reader} {off : ℕ} (h : r.Aligned off)
    (hb : (r.body off).length < overhead false) :
    ∃ code d r', r.readPhysicalRecord C = .ok (⟨code, [], d⟩, r') ∧
      (code = .eof ∨ code = .badHeader ∧ r.remaining ≠ []) ∧ r'.reports = r.reports := by
  have hrem : r.buffer.length ≤ r.remaining.length := by
    rw [remaining, List.length_append]
    exact Nat.le_add_right _ _
  cases he : r.eof with
  | true =>
      obtain ⟨code, d, r', hm, hc, hrep⟩ := readMore_of_eof he
      have hshort : r.buffer.length < kHeaderSize + kMacSize := by
        have hlt := (h.short he).2
        unfold body trailer at hb
        split_ifs at hb with hl
        · exact lt_trans hlt hl
        · exact lt_of_le_of_lt hrem hb
      refine ⟨code, d, r', ?_, hc.imp_right fun h => ⟨h.1, ?_⟩, hrep⟩
      · rw [readPhysicalRecord, readPhysicalRecordLoop, if_pos hshort, hm]
      · exact List.append_ne_nil_of_left_ne_nil h.2 _
  | false =>
      have hfull := h.full he
      have hl : kBlockSize - off < overhead false := by
        by_contra hl
        rw [body, trailer, if_neg hl] at hb
        exact hl (hfull ▸ lt_of_le_of_lt hrem hb)
      have hrest : r.file.rest.length < overhead false := by
        rw [body, trailer, if_pos hl, remaining, ← hfull, List.drop_left] at hb
        exact hb
      have hblock := overhead_lt false
      have heof : r.load.eof = true := by
        apply decide_eq_true
        rw [List.length_take]
        omega
      obtain ⟨code, d, r', hm, hc, hrep⟩ := readMore_of_eof heof
      have hshort : r.load.buffer.length < kHeaderSize + kMacSize :=
        lt_of_le_of_lt (List.length_take_le' _ _) hrest
      refine ⟨code, d, r', ?_, hc.imp_right fun h => ⟨h.1, ?_⟩, hrep⟩
      · rw [readPhysicalRecord, readPhysicalRecordLoop, if_pos (hfull ▸ hl),
          readMore_of_not_eof h he]
        change r.load.readPhysicalRecordLoop C 2 = _
        rw [readPhysicalRecordLoop, if_pos hshort, hm]
      · intro hnil
        have hrest := (List.append_eq_nil_iff.mp hnil).2
        exact h.2 (by rw [load, hrest, List.take_nil])

section Stops

variable {C}

/-- A record of which the payload, at the length its header gives, does not verify stops the
reader: by `exit(-1)`, or by a read outside the buffer. -/
theorem decryptRecord_stops {r : Reader} (hl : overhead false ≤ r.buffer.length)
    (h : ¬Verifies C r.uniqueKey r.previousMac r.buffer kHeaderSize
      (Bytes.leDecode ((C.dec r.uniqueKey (r.buffer.slice 0 kHeaderSize)).slice 4 2))) :
    ∃ e, r.decryptRecord C = .error e := by
  obtain ⟨len, hlen⟩ : ∃ n, n = Bytes.leDecode
      ((C.dec r.uniqueKey (r.buffer.slice 0 kHeaderSize)).slice 4 2) := ⟨_, rfl⟩
  have ho : overhead false = kHeaderSize + kMacSize := rfl
  rw [← hlen] at h
  rw [decryptRecord, Bytes.fetch_of_le (by omega), Outcome.ok_bind]
  simp only [logDecrypt, Outcome.ok_bind, ← hlen]
  rcases Nat.lt_or_ge r.buffer.length (kHeaderSize + len) with hp | hp
  · exact ⟨_, by rw [Bytes.fetch_of_lt hp, Outcome.error_bind]⟩
  rw [Bytes.fetch_of_le hp, Outcome.ok_bind]
  rcases Nat.lt_or_ge r.buffer.length (kHeaderSize + len + kMacSize) with hm | hm
  · exact ⟨_, by rw [Bytes.fetchOctets_of_lt hm, Outcome.error_bind]⟩
  rw [Bytes.fetchOctets_of_le hm, Outcome.ok_bind]
  have hne : C.tag r.uniqueKey r.previousMac.val (r.buffer.slice kHeaderSize len) ≠
      ⟨r.buffer.slice (kHeaderSize + len) kMacSize, Bytes.length_slice hm⟩ :=
    fun heq => h ⟨hm, congrArg Subtype.val heq⟩
  have hopen := (C.open?_eq_none_iff r.uniqueKey r.previousMac.val
    (r.buffer.slice kHeaderSize len) _).mpr hne
  refine ⟨.exit, ?_⟩
  simp only [Option.getD_some, hopen, Outcome.error_bind]

theorem readPhysicalRecord_stops {r : Reader} {off : ℕ} (h : r.Aligned off)
    (hb : overhead false ≤ (r.body off).length)
    (hv : ¬Verifies C r.uniqueKey r.previousMac (r.body off) kHeaderSize
      (Bytes.leDecode ((C.dec r.uniqueKey ((r.body off).slice 0 kHeaderSize)).slice 4 2))) :
    ∃ e, r.readPhysicalRecord C = .error e := by
  have hl := overhead_le_length_skipTrailer h hb
  have ho : overhead false = kHeaderSize + kMacSize := rfl
  rw [← remaining_skipTrailer h hb, remaining,
    Bytes.slice_append_left _ _ 0 kHeaderSize (by omega)] at hv
  obtain ⟨fuel, hread⟩ := readPhysicalRecord_of_body C h hb
  obtain ⟨e, he⟩ := decryptRecord_stops (C := C) (r := r.skipTrailer off) hl (by
    rw [skipTrailer_uniqueKey, skipTrailer_previousMac]
    exact fun hw => hv hw.of_append)
  refine ⟨e, ?_⟩
  rw [hread, readPhysicalRecordLoop, if_neg (by omega), he, Outcome.error_bind]

end Stops

section Fragment

variable {C}

theorem decryptRecord_encode {r : Reader} {f : Fragment} {logNumber : UInt64} {b : Bytes}
    (ht : f.type.isRecyclable = false) (hn : f.payload.length < 2 ^ 16)
    (hb : r.buffer = f.encode C r.uniqueKey logNumber r.previousMac ++ b) :
    r.decryptRecord C = .ok (f.payload.length, { r with
      buffer := recordHeader f.type logNumber f.payload ++
        (f.payload ++ ((f.mac C r.uniqueKey r.previousMac).val ++ b))
      previousMac := f.mac C r.uniqueKey r.previousMac }) := by
  obtain ⟨ciphertext, hc⟩ : ∃ c, c = C.enc r.uniqueKey f.payload := ⟨_, rfl⟩
  obtain ⟨header, hh⟩ : ∃ h, h = C.enc r.uniqueKey (recordHeader f.type logNumber f.payload) :=
    ⟨_, rfl⟩
  obtain ⟨mac, hm⟩ : ∃ m, m = f.mac C r.uniqueKey r.previousMac := ⟨_, rfl⟩
  have hlh : header.length = kHeaderSize := by
    rw [hh, C.length_enc, length_recordHeader, RecordType.headerSize, ht]
    rfl
  have hlc : ciphertext.length = f.payload.length := by rw [hc, C.length_enc]
  have hlm : mac.val.length = kMacSize := mac.property
  have hbuf : r.buffer = header ++ (ciphertext ++ (mac.val ++ b)) := by
    rw [hb, Fragment.encode, ← hh, ← hc, ← hm]
    simp only [List.append_assoc]
  have hbuf' : r.buffer = (header ++ ciphertext) ++ (mac.val ++ b) := by
    rw [hbuf, List.append_assoc]
  have hlhc : (header ++ ciphertext).length = kHeaderSize + f.payload.length := by
    rw [List.length_append, hlh, hlc]
  have hlen : r.buffer.length = kHeaderSize + f.payload.length + (kMacSize + b.length) := by
    rw [hbuf', List.length_append, hlhc, List.length_append, hlm]
  -- the four reads, each of the bytes the writer put there
  have hfh : r.buffer.fetch 0 kHeaderSize = .ok header := by
    rw [Bytes.fetch_of_le (by omega), hbuf]
    exact congrArg _ (Bytes.slice_zero_append hlh)
  have hlength : Bytes.leDecode ((recordHeader f.type logNumber f.payload).slice 4 2) =
      f.payload.length := by
    have hs := slice_length_recordHeader f.type logNumber f.payload []
    rw [List.append_nil] at hs
    rw [hs, Bytes.leDecode_leEncode_of_lt hn]
  have hfc : r.buffer.fetch kHeaderSize f.payload.length = .ok ciphertext := by
    rw [Bytes.fetch_of_le (by omega), hbuf]
    exact congrArg _ (Bytes.slice_eq_of_append hlh hlc)
  have hfm : r.buffer.fetchOctets (kHeaderSize + f.payload.length) kMacSize = .ok mac := by
    rw [Bytes.fetchOctets_of_le (by omega)]
    refine congrArg _ (Subtype.ext ?_)
    change r.buffer.slice _ _ = _
    rw [hbuf']
    exact Bytes.slice_eq_of_append hlhc hlm
  have hdh : logDecrypt C header r.uniqueKey none none =
      .ok (recordHeader f.type logNumber f.payload) := by
    rw [hh, logDecrypt, C.dec_enc]
  have hdc : logDecrypt C ciphertext r.uniqueKey (some mac) (some r.previousMac) =
      .ok f.payload := by
    rw [hc, hm]
    exact logDecrypt_logEncrypt C f.payload r.uniqueKey (some r.previousMac)
  have hdrop : r.buffer.drop (kHeaderSize + f.payload.length) = mac.val ++ b := by
    rw [hbuf', ← hlhc, List.drop_left]
  simp only [decryptRecord, hfh, hdh, hlength, hfc, hfm, hdc, hdrop, Outcome.ok_bind, ← hm]

/-- A legacy fragment at the front of the buffer is returned and consumed. -/
theorem readPhysicalRecordLoop_encode {r : Reader} {f : Fragment} {logNumber : UInt64}
    {b : Bytes} (fuel : ℕ) (ht : f.type.isRecyclable = false) (hz : f.type ≠ .zero)
    (hn : f.payload.length < 2 ^ 16)
    (hb : r.buffer = f.encode C r.uniqueKey logNumber r.previousMac ++ b) :
    r.readPhysicalRecordLoop C (fuel + 1) = .ok (⟨.record f.type, f.payload, 0⟩,
      { r with buffer := b, previousMac := f.mac C r.uniqueKey r.previousMac }) := by
  have hlen : ¬r.buffer.length < kHeaderSize + kMacSize := by
    have ho : overhead false = kHeaderSize + kMacSize := rfl
    rw [hb, List.length_append, f.length_encode, ht, ho]
    omega
  obtain ⟨mac, hm⟩ : ∃ m, m = f.mac C r.uniqueKey r.previousMac := ⟨_, rfl⟩
  obtain ⟨buffer, hbuf⟩ : ∃ b', b' = recordHeader f.type logNumber f.payload ++
      (f.payload ++ (mac.val ++ b)) := ⟨_, rfl⟩
  have hlh : (recordHeader f.type logNumber f.payload).length = kHeaderSize := by
    rw [length_recordHeader, RecordType.headerSize, ht]
    rfl
  have hlm : mac.val.length = kMacSize := mac.property
  have hlb : buffer.length = kHeaderSize + f.payload.length + kMacSize + b.length := by
    rw [hbuf]
    simp only [List.length_append, hlh, hlm]
    omega
  have hcode : ReadCode.ofByte (buffer.getD 6 0) = .record f.type := by
    have hd := drop_six_recordHeader f.type logNumber f.payload (f.payload ++ (mac.val ++ b))
    rw [← hbuf] at hd
    have hget : buffer.getD 6 0 = f.type.code := by
      rw [List.getD_eq_getElem?_getD, ← List.head?_drop, hd]
      rfl
    rw [hget, ReadCode.ofByte_code]
  have hrec : (ReadCode.record f.type).isRecyclable = false := ht
  have hcrc : crc32c.value (buffer.slice 6 (f.payload.length + kHeaderSize - 6)) =
      crc32c.unmask (UInt32.ofNat (Bytes.leDecode (buffer.slice 0 4))) := by
    rw [hbuf]
    exact crc_of_recordHeader ht logNumber f.payload _
  have hfragment : buffer.slice kHeaderSize f.payload.length = f.payload := by
    rw [hbuf]
    exact Bytes.slice_eq_of_append hlh rfl
  have hdrop : buffer.drop (kHeaderSize + f.payload.length + kMacSize) = b := by
    have hl : (recordHeader f.type logNumber f.payload ++ (f.payload ++ mac.val)).length =
        kHeaderSize + f.payload.length + kMacSize := by
      simp only [List.length_append, hlh, hlm, Nat.add_assoc]
    have hsplit : buffer = (recordHeader f.type logNumber f.payload ++
        (f.payload ++ mac.val)) ++ b := by
      rw [hbuf]
      simp only [List.append_assoc]
    rw [hsplit, ← hl, List.drop_left]
  rw [readPhysicalRecordLoop, if_neg hlen, decryptRecord_encode ht hn hb, ← hm, ← hbuf,
    Outcome.ok_bind]
  simp only [hcode, hrec, Bool.false_eq_true, if_false, checkRecord]
  rw [if_neg (by omega), if_neg (by simp [hz]), if_neg (by simp [hcrc]), if_neg (by omega),
    hfragment, hdrop]

/-- Where the file goes on with a legacy fragment, `ReadPhysicalRecord` returns it, reports
nothing and moves behind it. -/
theorem readPhysicalRecord_fragment {r : Reader} {off : ℕ} {f : Fragment}
    {logNumber : UInt64} {b : Bytes} (h : r.Aligned off) (hf : f.Fits false off)
    (hb : r.body off = f.encode C r.uniqueKey logNumber r.previousMac ++ b) :
    ∃ r', r.readPhysicalRecord C = .ok (⟨.record f.type, f.payload, 0⟩, r') ∧
      r'.Aligned (f.nextOffset false off) ∧ r'.remaining = b ∧
      r'.uniqueKey = r.uniqueKey ∧ r'.previousMac = f.mac C r.uniqueKey r.previousMac ∧
      r'.reports = r.reports := by
  have hnext := hf.nextOffset_le
  unfold Fragment.nextOffset at hnext
  have hlf := f.length_encode C r.uniqueKey logNumber r.previousMac
  rw [hf.isRecyclable] at hlf
  have hlb : overhead false ≤ (r.body off).length := by
    rw [hb, List.length_append]
    omega
  have ha := aligned_skipTrailer h
  have hrem := remaining_skipTrailer h hlb
  rw [hb] at hrem
  have hfit : (f.encode C r.uniqueKey logNumber r.previousMac).length ≤
      (r.skipTrailer off).buffer.length := by
    cases he : (r.skipTrailer off).eof with
    | false =>
        rw [ha.full he]
        omega
    | true =>
        have hl := congrArg List.length hrem
        rw [remaining, (ha.short he).1, List.append_nil, List.length_append] at hl
        omega
  obtain ⟨b', hbuf⟩ : ∃ b', (r.skipTrailer off).buffer =
      f.encode C r.uniqueKey logNumber r.previousMac ++ b' := by
    have hpre : f.encode C r.uniqueKey logNumber r.previousMac <+: (r.skipTrailer off).buffer :=
      List.prefix_of_prefix_length_le ⟨b, hrem.symm⟩ ⟨_, rfl⟩ hfit
    obtain ⟨b', hb'⟩ := hpre
    exact ⟨b', hb'.symm⟩
  obtain ⟨fuel, hread⟩ := readPhysicalRecord_of_body C h hlb
  have hrun := readPhysicalRecordLoop_encode (r := r.skipTrailer off) (C := C) fuel
    hf.isRecyclable hf.ne_zero
    (by have hbs : kBlockSize < 2 ^ 16 := by decide
        omega)
    (by rw [skipTrailer_uniqueKey, skipTrailer_previousMac]; exact hbuf)
  refine ⟨_, hread.trans hrun, ⟨ha.healthy, ha.noError, hf.nextOffset_le, ?_, ?_, ?_⟩, ?_, ?_, ?_, ?_⟩
  · intro he
    have hfull := ha.full he
    rw [hbuf, List.length_append] at hfull
    change b'.length = kBlockSize - (_ + _ + _)
    omega
  · intro he
    obtain ⟨hr, hlt⟩ := ha.short he
    rw [hbuf, List.length_append] at hlt
    refine ⟨hr, ?_⟩
    change b'.length < kBlockSize - (_ + _ + _)
    omega
  · intro he
    have hmarked := ha.marked he
    rw [hbuf, List.length_append] at hmarked
    change (r.skipTrailer off).eofOffset = _ + _ + _ + b'.length
    omega
  · rw [remaining, hbuf, List.append_assoc] at hrem
    exact List.append_cancel_left hrem
  · exact skipTrailer_uniqueKey r off
  · simp
  · exact skipTrailer_reports r off

/-- The reader stands at offset `off` of its block, behind a fragment with tag `m`, and
`b` is what follows in the file. -/
structure Synced (r : Reader) (key : Key) (off : ℕ) (m : Mac) (b : Bytes) : Prop where
  aligned : r.Aligned off
  uniqueKey : r.uniqueKey = key
  previousMac : r.previousMac = m
  remaining : r.remaining = b

theorem synced_create (b : Bytes) (checksum : Bool) (logNumber : UInt64) (key : Key)
    (m : Mac) : (create (.ofBytes b) checksum logNumber key m).Synced key kBlockSize m b :=
  ⟨aligned_create b checksum logNumber key m, rfl, rfl, rfl⟩

theorem readPhysicalRecord_layout {r : Reader} {key : Key} {logNumber : UInt64} {off : ℕ}
    {m : Mac} {f : Fragment} {fs : List Fragment} {rest : Bytes} (hf : f.Fits false off)
    (hs : r.Synced key off m (layout C key logNumber false off m (f :: fs) ++ rest)) :
    ∃ r', r.readPhysicalRecord C = .ok (⟨.record f.type, f.payload, 0⟩, r') ∧
      r'.Synced key (f.nextOffset false off) (f.mac C key m)
        (layout C key logNumber false (f.nextOffset false off) (f.mac C key m) fs ++ rest) ∧
      r'.reports = r.reports := by
  have hbody : r.body off = f.encode C r.uniqueKey logNumber r.previousMac ++
      (layout C key logNumber false (f.nextOffset false off) (f.mac C key m) fs ++ rest) := by
    rw [body, hs.remaining, layout, List.append_assoc, hs.uniqueKey, hs.previousMac,
      Bytes.drop_append_of_length (Bytes.length_zeros _), List.append_assoc]
  obtain ⟨r', hread, ha, hrem, hk, hm, hrep⟩ :=
    readPhysicalRecord_fragment hs.aligned hf hbody
  refine ⟨r', hread, ⟨ha, hk.trans hs.uniqueKey, ?_, hrem⟩, hrep⟩
  rw [hm, hs.uniqueKey, hs.previousMac]

end Fragment

end Reader

end Tweezer.Log
