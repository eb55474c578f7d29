import Tweezer.LogWriter

/-!
# The layout of a log file

The physical records of a log file as a list of fragments, and the bytes such a list takes
from a given block offset on. A fragment starts where the last one ended unless the rest
of the block is too short for a header and a tag, which is then filled with zeros. The
writer emits exactly the layout of the fragments of its records.
-/

namespace Tweezer.Log

structure Fragment where
  type : RecordType
  payload : Bytes
  deriving DecidableEq, Repr

/-- Header and tag, the room a fragment takes beside its payload. -/
def overhead (recycle : Bool) : ℕ :=
  (if recycle then kRecyclableHeaderSize else kHeaderSize) + kMacSize

theorem overhead_lt (recycle : Bool) : overhead recycle < kBlockSize := by
  cases recycle <;> decide

theorem overhead_pos (recycle : Bool) : 0 < overhead recycle := by
  cases recycle <;> decide

theorem overhead_eq (t : RecordType) : overhead t.isRecyclable = t.headerSize + kMacSize := rfl

/-- The zeros before a fragment whose predecessor ended at `off`. -/
def trailer (recycle : Bool) (off : ℕ) : ℕ :=
  if kBlockSize - off < overhead recycle then kBlockSize - off else 0

/-- The block offset where that fragment starts. -/
def startOffset (recycle : Bool) (off : ℕ) : ℕ :=
  if kBlockSize - off < overhead recycle then 0 else off

theorem startOffset_add_overhead_le (recycle : Bool) (off : ℕ) :
    startOffset recycle off + overhead recycle ≤ kBlockSize := by
  have h := overhead_lt recycle
  have hp := overhead_pos recycle
  unfold startOffset
  split_ifs <;> omega

/-- The payload bytes that fit behind that start. -/
def avail (recycle : Bool) (off : ℕ) : ℕ :=
  kBlockSize - startOffset recycle off - overhead recycle

theorem startOffset_add_avail (recycle : Bool) (off : ℕ) :
    startOffset recycle off + overhead recycle + avail recycle off = kBlockSize := by
  have h := startOffset_add_overhead_le recycle off
  unfold avail
  omega

@[simp] theorem startOffset_kBlockSize (recycle : Bool) : startOffset recycle kBlockSize = 0 := by
  have h := overhead_lt recycle
  unfold startOffset
  rw [if_pos]
  cases recycle <;> decide

@[simp] theorem trailer_kBlockSize (recycle : Bool) : trailer recycle kBlockSize = 0 := by
  unfold trailer
  split_ifs <;> omega

@[simp] theorem startOffset_zero (recycle : Bool) : startOffset recycle 0 = 0 := by
  unfold startOffset
  split_ifs <;> rfl

@[simp] theorem trailer_zero (recycle : Bool) : trailer recycle 0 = 0 := by
  have h := overhead_lt recycle
  unfold trailer
  rw [if_neg (by omega)]

theorem avail_kBlockSize_pos (recycle : Bool) : 0 < avail recycle kBlockSize := by
  rw [avail, startOffset_kBlockSize]
  cases recycle <;> decide

/-- The fragments of what is left of a record, the last fragment having ended at `off`. -/
def fragments (recycle begin_ : Bool) (off : ℕ) (left : Bytes) : List Fragment :=
  if left.length ≤ avail recycle off then [⟨.ofPosition recycle begin_ true, left⟩]
  else ⟨.ofPosition recycle begin_ false, left.take (avail recycle off)⟩ ::
    fragments recycle false kBlockSize (left.drop (avail recycle off))
termination_by left.length + if avail recycle off = 0 then 1 else 0
decreasing_by
  rename_i h
  have hp := avail_kBlockSize_pos recycle
  rw [List.length_drop, if_neg (by omega)]
  split_ifs <;> omega

theorem fragments_of_le {recycle begin_ : Bool} {off : ℕ} {left : Bytes}
    (h : left.length ≤ avail recycle off) :
    fragments recycle begin_ off left = [⟨.ofPosition recycle begin_ true, left⟩] := by
  rw [fragments, if_pos h]

theorem fragments_of_lt {recycle begin_ : Bool} {off : ℕ} {left : Bytes}
    (h : avail recycle off < left.length) :
    fragments recycle begin_ off left =
      ⟨.ofPosition recycle begin_ false, left.take (avail recycle off)⟩ ::
        fragments recycle false kBlockSize (left.drop (avail recycle off)) := by
  rw [fragments, if_neg (by omega)]

theorem fragments_ne_nil (recycle begin_ : Bool) (off : ℕ) (left : Bytes) :
    fragments recycle begin_ off left ≠ [] := by
  rw [fragments]
  split_ifs <;> simp

/-- The place in a log file after a physical record. -/
structure Position where
  offset : ℕ
  mac : Mac
  deriving DecidableEq

/-- The offset after a fragment whose predecessor ended at `off`. -/
def Fragment.nextOffset (f : Fragment) (recycle : Bool) (off : ℕ) : ℕ :=
  startOffset recycle off + overhead recycle + f.payload.length

def offsetAfter (recycle : Bool) : ℕ → List Fragment → ℕ
  | off, [] => off
  | off, f :: fs => offsetAfter recycle (f.nextOffset recycle off) fs

/-- A fragment of the format that ends within the block it starts in. -/
structure Fragment.Fits (recycle : Bool) (off : ℕ) (f : Fragment) : Prop where
  isRecyclable : f.type.isRecyclable = recycle
  ne_zero : f.type ≠ .zero
  nextOffset_le : f.nextOffset recycle off ≤ kBlockSize

def Fits (recycle : Bool) : ℕ → List Fragment → Prop
  | _, [] => True
  | off, f :: fs => f.Fits recycle off ∧ Fits recycle (f.nextOffset recycle off) fs

theorem fits_fragments (recycle begin_ : Bool) (off : ℕ) (left : Bytes) :
    Fits recycle off (fragments recycle begin_ off left) := by
  have hs := startOffset_add_avail recycle off
  induction begin_, off, left using fragments.induct recycle with
  | case1 begin_ off left h =>
      rw [fragments_of_le h]
      refine ⟨⟨RecordType.isRecyclable_ofPosition _ _ _, RecordType.ofPosition_ne_zero _ _ _,
        ?_⟩, trivial⟩
      change startOffset recycle off + overhead recycle + left.length ≤ kBlockSize
      omega
  | case2 begin_ off left h ih =>
      have hlt : avail recycle off < left.length := by omega
      have hn : (Fragment.mk (.ofPosition recycle begin_ false)
          (left.take (avail recycle off))).nextOffset recycle off = kBlockSize := by
        rw [Fragment.nextOffset, List.length_take, Nat.min_eq_left hlt.le, hs]
      rw [fragments_of_lt hlt]
      refine ⟨⟨RecordType.isRecyclable_ofPosition _ _ _, RecordType.ofPosition_ne_zero _ _ _,
        hn.le⟩, ?_⟩
      rw [hn]
      exact ih (startOffset_add_avail recycle kBlockSize)

theorem fits_append (recycle : Bool) (off : ℕ) (fs gs : List Fragment) :
    Fits recycle off (fs ++ gs) ↔
      Fits recycle off fs ∧ Fits recycle (offsetAfter recycle off fs) gs := by
  induction fs generalizing off with
  | nil => simp [Fits, offsetAfter]
  | cons f fs ih => simp only [List.cons_append, Fits, offsetAfter, ih, and_assoc]

theorem offsetAfter_append (recycle : Bool) (off : ℕ) (fs gs : List Fragment) :
    offsetAfter recycle off (fs ++ gs) = offsetAfter recycle (offsetAfter recycle off fs) gs := by
  induction fs generalizing off with
  | nil => rfl
  | cons f fs ih => rw [List.cons_append, offsetAfter, offsetAfter, ih]

theorem offsetAfter_le {recycle : Bool} {off : ℕ} {fs : List Fragment} (ho : off ≤ kBlockSize)
    (h : Fits recycle off fs) : offsetAfter recycle off fs ≤ kBlockSize := by
  induction fs generalizing off with
  | nil => exact ho
  | cons f fs ih => exact ih h.1.nextOffset_le h.2

theorem offsetAfter_pos {recycle : Bool} {off : ℕ} (h : 0 < off) (fs : List Fragment) :
    0 < offsetAfter recycle off fs := by
  induction fs generalizing off with
  | nil => exact h
  | cons f fs ih =>
      have hp := overhead_pos recycle
      apply ih
      unfold Fragment.nextOffset
      omega

/-- The fragments of a list of records. -/
def logFragments (recycle : Bool) : ℕ → List Bytes → List Fragment
  | _, [] => []
  | off, r :: rs => fragments recycle true off r ++
      logFragments recycle (offsetAfter recycle off (fragments recycle true off r)) rs

theorem fits_logFragments (recycle : Bool) (off : ℕ) (rs : List Bytes) :
    Fits recycle off (logFragments recycle off rs) := by
  induction rs generalizing off with
  | nil => trivial
  | cons r rs ih =>
      rw [logFragments, fits_append]
      exact ⟨fits_fragments recycle true off r, ih _⟩

/-! Offsets behind which the next fragment starts at the same place. -/

section SameStart

variable {recycle : Bool} {off off' : ℕ}

theorem fragments_congr (h : startOffset recycle off = startOffset recycle off') (begin_ : Bool)
    (left : Bytes) : fragments recycle begin_ off left = fragments recycle begin_ off' left := by
  have ha : avail recycle off = avail recycle off' := by
    rw [avail, avail, h]
  rcases le_or_gt left.length (avail recycle off') with hle | hlt
  · rw [fragments_of_le hle, fragments_of_le (ha ▸ hle)]
  · rw [fragments_of_lt hlt, fragments_of_lt (ha ▸ hlt), ha]

theorem Fragment.nextOffset_congr (h : startOffset recycle off = startOffset recycle off')
    (f : Fragment) : f.nextOffset recycle off = f.nextOffset recycle off' := by
  rw [nextOffset, nextOffset, h]

theorem offsetAfter_congr (h : startOffset recycle off = startOffset recycle off')
    {fs : List Fragment} (hfs : fs ≠ []) :
    offsetAfter recycle off fs = offsetAfter recycle off' fs := by
  cases fs with
  | nil => exact absurd rfl hfs
  | cons f fs => rw [offsetAfter, offsetAfter, f.nextOffset_congr h]

theorem logFragments_congr (h : startOffset recycle off = startOffset recycle off')
    (rs : List Bytes) : logFragments recycle off rs = logFragments recycle off' rs := by
  cases rs with
  | nil => rfl
  | cons r rs =>
      rw [logFragments, logFragments, fragments_congr h,
        offsetAfter_congr h (fragments_ne_nil recycle true off' r)]

end SameStart

theorem startOffset_kBlockSize_eq (recycle : Bool) :
    startOffset recycle kBlockSize = startOffset recycle 0 := by
  rw [startOffset_kBlockSize, startOffset_zero]

/-- A full block and the start of a new one are the same place. -/
theorem fragments_kBlockSize (recycle begin_ : Bool) (left : Bytes) :
    fragments recycle begin_ kBlockSize left = fragments recycle begin_ 0 left :=
  fragments_congr (startOffset_kBlockSize_eq recycle) begin_ left

theorem Fragment.nextOffset_kBlockSize (f : Fragment) (recycle : Bool) :
    f.nextOffset recycle kBlockSize = f.nextOffset recycle 0 :=
  f.nextOffset_congr (startOffset_kBlockSize_eq recycle)

theorem logFragments_kBlockSize (recycle : Bool) (rs : List Bytes) :
    logFragments recycle kBlockSize rs = logFragments recycle 0 rs :=
  logFragments_congr (startOffset_kBlockSize_eq recycle) rs

theorem logFragments_append (recycle : Bool) (off : ℕ) (rs ss : List Bytes) :
    logFragments recycle off (rs ++ ss) = logFragments recycle off rs ++
      logFragments recycle (offsetAfter recycle off (logFragments recycle off rs)) ss := by
  induction rs generalizing off with
  | nil => rfl
  | cons r rs ih =>
      rw [List.cons_append, logFragments, logFragments, ih, offsetAfter_append, List.append_assoc]

theorem length_le_length_logFragments (recycle : Bool) (off : ℕ) (rs : List Bytes) :
    rs.length ≤ (logFragments recycle off rs).length := by
  induction rs generalizing off with
  | nil => simp
  | cons r rs ih =>
      have hne := List.length_pos_of_ne_nil (fragments_ne_nil recycle true off r)
      have hrs := ih (offsetAfter recycle off (fragments recycle true off r))
      rw [logFragments, List.length_append, List.length_cons]
      omega

section Layout

variable (C : Gcm) (key : Key) (logNumber : UInt64) (recycle : Bool)

namespace Fragment

/-- The tag of a fragment that follows one with tag `prev`. -/
def mac (f : Fragment) (prev : Mac) : Mac := C.tag key prev.val (C.enc key f.payload)

def encode (f : Fragment) (prev : Mac) : Bytes :=
  C.enc key (recordHeader f.type logNumber f.payload) ++
    (C.enc key f.payload ++ (f.mac C key prev).val)

theorem length_encode (f : Fragment) (prev : Mac) :
    (f.encode C key logNumber prev).length =
      overhead f.type.isRecyclable + f.payload.length := by
  have hm := (f.mac C key prev).property
  simp only [encode, List.length_append, C.length_enc, length_recordHeader, hm, overhead_eq,
    kMacSize]
  omega

end Fragment

def macAfter : Mac → List Fragment → Mac
  | m, [] => m
  | m, f :: fs => macAfter (f.mac C key m) fs

/-- The bytes of a list of fragments from a position on. -/
def layout : ℕ → Mac → List Fragment → Bytes
  | _, _, [] => []
  | off, m, f :: fs => Bytes.zeros (trailer recycle off) ++
      (f.encode C key logNumber m ++ layout (f.nextOffset recycle off) (f.mac C key m) fs)

theorem layout_append (off : ℕ) (m : Mac) (fs gs : List Fragment) :
    layout C key logNumber recycle off m (fs ++ gs) =
      layout C key logNumber recycle off m fs ++
        layout C key logNumber recycle (offsetAfter recycle off fs) (macAfter C key m fs) gs := by
  induction fs generalizing off m with
  | nil => rfl
  | cons f fs ih =>
      simp only [List.cons_append, layout, offsetAfter, macAfter, ih, List.append_assoc]

theorem layout_kBlockSize (m : Mac) (fs : List Fragment) :
    layout C key logNumber recycle kBlockSize m fs = layout C key logNumber recycle 0 m fs := by
  cases fs with
  | nil => rfl
  | cons f fs => rw [layout, layout, trailer_kBlockSize, trailer_zero, f.nextOffset_kBlockSize]

theorem macAfter_append (m : Mac) (fs gs : List Fragment) :
    macAfter C key m (fs ++ gs) = macAfter C key (macAfter C key m fs) gs := by
  induction fs generalizing m with
  | nil => rfl
  | cons f fs ih => rw [List.cons_append, macAfter, macAfter, ih]

theorem length_le_length_layout (off : ℕ) (m : Mac) (fs : List Fragment) :
    fs.length ≤ (layout C key logNumber recycle off m fs).length := by
  induction fs generalizing off m with
  | nil => simp
  | cons f fs ih =>
      have hf := ih (f.nextOffset recycle off) (f.mac C key m)
      have he := f.length_encode C key logNumber m
      have ho : 0 < overhead f.type.isRecyclable := by
        rw [overhead_eq]
        exact Nat.add_pos_right _ (by decide)
      simp only [layout, List.length_append, List.length_cons]
      omega

end Layout

namespace Writer

variable (C : Gcm)

/-- The writer after one more fragment, and after several. -/
def put (w : Writer) (f : Fragment) : Writer :=
  { w with
    dest := { w.dest with
      contents := w.dest.contents ++ (Bytes.zeros (trailer w.recycleLogFiles w.blockOffset) ++
        f.encode C w.uniqueKey w.logNumber w.previousMac) }
    blockOffset := f.nextOffset w.recycleLogFiles w.blockOffset
    previousMac := f.mac C w.uniqueKey w.previousMac }

def puts (w : Writer) : List Fragment → Writer
  | [] => w
  | f :: fs => (w.put C f).puts fs

theorem puts_append (w : Writer) (fs gs : List Fragment) :
    w.puts C (fs ++ gs) = (w.puts C fs).puts C gs := by
  induction fs generalizing w with
  | nil => rfl
  | cons f fs ih => rw [List.cons_append, puts, puts, ih]

/-- Putting fragments appends their layout and moves on to the position behind it. -/
theorem puts_eq (w : Writer) (fs : List Fragment) :
    w.puts C fs = { w with
      dest := { w.dest with
        contents := w.dest.contents ++
          layout C w.uniqueKey w.logNumber w.recycleLogFiles w.blockOffset w.previousMac fs }
      blockOffset := offsetAfter w.recycleLogFiles w.blockOffset fs
      previousMac := macAfter C w.uniqueKey w.previousMac fs } := by
  induction fs generalizing w with
  | nil => simp [puts, layout, offsetAfter, macAfter]
  | cons f fs ih =>
      rw [puts, ih]
      simp [put, layout, offsetAfter, macAfter]

theorem headerSize_eq (w : Writer) : w.headerSize = overhead w.recycleLogFiles := rfl

/-- On a file where no call fails, the start of a turn of the loop fills the trailer and goes
to the start of the next fragment. -/
theorem switchBlock_healthy {w : Writer} (hf : w.dest.faults = []) :
    w.switchBlock = (.ok, { w with
      dest := { w.dest with
        contents := w.dest.contents ++ Bytes.zeros (trailer w.recycleLogFiles w.blockOffset) }
      blockOffset := startOffset w.recycleLogFiles w.blockOffset }) := by
  by_cases hl : kBlockSize - w.blockOffset < overhead w.recycleLogFiles
  · have ht : trailer w.recycleLogFiles w.blockOffset = kBlockSize - w.blockOffset := if_pos hl
    have hs : startOffset w.recycleLogFiles w.blockOffset = 0 := if_pos hl
    simp only [switchBlock, ht, hs]
    rw [if_pos (by exact hl), WritableFile.append_of_healthy hf]
    by_cases hp : 0 < kBlockSize - w.blockOffset
    · rw [if_pos hp]
    · rw [if_neg hp, Nat.eq_zero_of_not_pos hp, Bytes.zeros_zero, List.append_nil]
  · have ht : trailer w.recycleLogFiles w.blockOffset = 0 := if_neg hl
    have hs : startOffset w.recycleLogFiles w.blockOffset = w.blockOffset := if_neg hl
    simp only [switchBlock, ht, hs]
    rw [if_neg (by exact hl), Bytes.zeros_zero, List.append_nil]

theorem emitPhysicalRecord_healthy {w : Writer} (hf : w.dest.faults = []) (t : RecordType)
    (ptr : Bytes) :
    w.emitPhysicalRecord C t ptr = (.ok, { w with
      dest := { w.dest with
        contents := w.dest.contents ++
          (Fragment.mk t ptr).encode C w.uniqueKey w.logNumber w.previousMac }
      blockOffset := w.blockOffset + overhead t.isRecyclable + ptr.length
      previousMac := (Fragment.mk t ptr).mac C w.uniqueKey w.previousMac }) := by
  have ho : w.blockOffset + kMacSize + (t.headerSize + ptr.length) =
      w.blockOffset + overhead t.isRecyclable + ptr.length := by
    rw [overhead_eq]
    omega
  simp only [emitPhysicalRecord, logEncrypt, WritableFile.append, hf, ho, Option.getD_some,
    Fragment.encode, Fragment.mac, List.append_assoc]

/-- One turn of the loop of `AddRecord` puts one fragment. -/
theorem addRecordLoop_turn {w : Writer} (hf : w.dest.faults = []) (fuel : ℕ) (left : Bytes)
    (begin_ : Bool) {n : ℕ} (hn : n = min left.length (avail w.recycleLogFiles w.blockOffset)) :
    w.addRecordLoop C (fuel + 1) left begin_ =
      if 0 < (left.drop n).length then
        (w.put C ⟨.ofPosition w.recycleLogFiles begin_ (left.length == n), left.take n⟩).addRecordLoop
          C fuel (left.drop n) false
      else .ok (.ok,
        w.put C ⟨.ofPosition w.recycleLogFiles begin_ (left.length == n), left.take n⟩) := by
  have hmin : (if left.length < avail w.recycleLogFiles w.blockOffset then left.length
      else avail w.recycleLogFiles w.blockOffset) = n := by
    rw [hn]
    split_ifs <;> omega
  have hav : kBlockSize - startOffset w.recycleLogFiles w.blockOffset -
      overhead w.recycleLogFiles = avail w.recycleLogFiles w.blockOffset := rfl
  rw [addRecordLoop, switchBlock_healthy hf]
  simp only [headerSize_eq, hav, hmin]
  rw [emitPhysicalRecord_healthy C (by exact hf)]
  simp only [put, Fragment.nextOffset, RecordType.isRecyclable_ofPosition, List.append_assoc]

theorem addRecordLoop_healthy {w : Writer} (fuel : ℕ) (left : Bytes) (begin_ : Bool)
    (hf : w.dest.faults = [])
    (hfuel : left.length + (if avail w.recycleLogFiles w.blockOffset = 0 then 1 else 0) < fuel) :
    w.addRecordLoop C fuel left begin_ =
      .ok (.ok, w.puts C (fragments w.recycleLogFiles begin_ w.blockOffset left)) := by
  induction fuel generalizing w left begin_ with
  | zero => omega
  | succ fuel ih =>
      rcases le_or_gt left.length (avail w.recycleLogFiles w.blockOffset) with hle | hlt
      · rw [addRecordLoop_turn C hf fuel left begin_ (Nat.min_eq_left hle).symm,
          fragments_of_le hle]
        simp [puts]
      · have hend : (left.length == avail w.recycleLogFiles w.blockOffset) = false := by
          simp only [beq_eq_false_iff_ne]
          omega
        have hoff : (w.put C ⟨.ofPosition w.recycleLogFiles begin_ false,
            left.take (avail w.recycleLogFiles w.blockOffset)⟩).blockOffset = kBlockSize := by
          change startOffset _ _ + overhead _ + List.length (List.take _ _) = _
          rw [List.length_take, Nat.min_eq_left hlt.le, startOffset_add_avail]
        have hrest := ih (w := w.put C ⟨.ofPosition w.recycleLogFiles begin_ false,
            left.take (avail w.recycleLogFiles w.blockOffset)⟩)
          (left.drop (avail w.recycleLogFiles w.blockOffset)) false hf (by
            have hp := avail_kBlockSize_pos w.recycleLogFiles
            change _ + (if avail w.recycleLogFiles _ = 0 then 1 else 0) < _
            rw [hoff, List.length_drop, if_neg hp.ne']
            split_ifs at hfuel <;> omega)
        rw [hoff] at hrest
        rw [addRecordLoop_turn C hf fuel left begin_ (Nat.min_eq_right hlt.le).symm, hend,
          if_pos (by rw [List.length_drop]; omega), hrest, fragments_of_lt hlt, puts]
        rfl

theorem addRecord_healthy {w : Writer} (slice : Bytes) (hf : w.dest.faults = []) :
    w.addRecord C slice =
      .ok (.ok, w.puts C (fragments w.recycleLogFiles true w.blockOffset slice)) := by
  rw [addRecord, addRecordLoop_healthy C _ slice true hf (by split_ifs <;> omega)]
  have hp : (w.puts C (fragments w.recycleLogFiles true w.blockOffset slice)).dest.faults = [] := by
    rw [puts_eq]
    exact hf
  simp only [Outcome.ok_bind, WritableFile.flush_of_healthy hp, ite_self]

/-- On a file where no call fails, adding records lays out their fragments. -/
theorem addRecords_healthy {w : Writer} (rs : List Bytes) (hf : w.dest.faults = []) :
    w.addRecords C rs = .ok (List.replicate rs.length .ok,
      w.puts C (logFragments w.recycleLogFiles w.blockOffset rs)) := by
  induction rs generalizing w with
  | nil => rfl
  | cons r rs ih =>
      have hp : (w.puts C (fragments w.recycleLogFiles true w.blockOffset r)).dest.faults =
          [] := by
        rw [puts_eq]
        exact hf
      have hoff := congrArg Writer.blockOffset
        (puts_eq C w (fragments w.recycleLogFiles true w.blockOffset r))
      have hrec := congrArg Writer.recycleLogFiles
        (puts_eq C w (fragments w.recycleLogFiles true w.blockOffset r))
      simp only at hoff hrec
      rw [addRecords, addRecord_healthy C r hf, Outcome.ok_bind]
      simp only [ih hp, Outcome.ok_bind, hoff, hrec, logFragments, puts_append,
        List.length_cons, List.replicate_succ]

end Writer

end Tweezer.Log
