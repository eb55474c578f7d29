import Tweezer.Crc32c
import Tweezer.EncDec

/-!
# The physical records of a log file

`db/log_format.h` and the header layout that `EmitPhysicalRecord` writes: a masked
checksum, a two-byte length, a type byte and, in the recyclable format, the low 32 bits of
the log number. A 16-byte tag follows each payload.
-/

namespace Tweezer.Log

def kBlockSize : ℕ := 32768

def kHeaderSize : ℕ := 4 + 2 + 1

def kRecyclableHeaderSize : ℕ := 4 + 2 + 1 + 4

/-- The size of the tag after each payload, a literal in the source. -/
abbrev kMacSize : ℕ := 16

inductive RecordType where
  | zero
  | full
  | first
  | middle
  | last
  | recyclableFull
  | recyclableFirst
  | recyclableMiddle
  | recyclableLast
  deriving DecidableEq, Repr

namespace RecordType

def code : RecordType → UInt8
  | zero => 0
  | full => 1
  | first => 2
  | middle => 3
  | last => 4
  | recyclableFull => 5
  | recyclableFirst => 6
  | recyclableMiddle => 7
  | recyclableLast => 8

/-- `type >= kRecyclableFullType && type <= kRecyclableLastType`. -/
def isRecyclable : RecordType → Bool
  | recyclableFull | recyclableFirst | recyclableMiddle | recyclableLast => true
  | zero | full | first | middle | last => false

def headerSize (t : RecordType) : ℕ :=
  if t.isRecyclable then kRecyclableHeaderSize else kHeaderSize

theorem headerSize_le (t : RecordType) : t.headerSize ≤ kRecyclableHeaderSize := by
  cases t <;> decide

/-- The type of the fragment that begins and/or ends a logical record. -/
def ofPosition (recycle begin_ end_ : Bool) : RecordType :=
  match begin_, end_ with
  | true, true => if recycle then recyclableFull else full
  | true, false => if recycle then recyclableFirst else first
  | false, true => if recycle then recyclableLast else last
  | false, false => if recycle then recyclableMiddle else middle

@[simp] theorem isRecyclable_ofPosition (recycle begin_ end_ : Bool) :
    (ofPosition recycle begin_ end_).isRecyclable = recycle := by
  cases recycle <;> cases begin_ <;> cases end_ <;> rfl

theorem ofPosition_ne_zero (recycle begin_ end_ : Bool) :
    ofPosition recycle begin_ end_ ≠ zero := by
  cases recycle <;> cases begin_ <;> cases end_ <;> decide

end RecordType

/-- The checksum in the header: over the type, the log number if there is one, and the
payload. -/
def recordCrc (t : RecordType) (logNumber : UInt64) (payload : Bytes) : UInt32 :=
  let crc := crc32c.value [t.code]
  let crc := if t.isRecyclable then
      crc32c.extend crc (Bytes.leEncode 4 logNumber.toUInt32.toNat) else crc
  crc32c.mask (crc32c.extend crc payload)

/-- The header of a physical record, before encryption. -/
def recordHeader (t : RecordType) (logNumber : UInt64) (payload : Bytes) : Bytes :=
  Bytes.leEncode 4 (recordCrc t logNumber payload).toNat ++
    (Bytes.leEncode 2 payload.length ++
      (t.code :: if t.isRecyclable then Bytes.leEncode 4 logNumber.toUInt32.toNat else []))

@[simp] theorem length_recordHeader (t : RecordType) (logNumber : UInt64) (payload : Bytes) :
    (recordHeader t logNumber payload).length = t.headerSize := by
  unfold recordHeader RecordType.headerSize
  split_ifs <;> simp [kHeaderSize, kRecyclableHeaderSize]

theorem slice_length_recordHeader (t : RecordType) (logNumber : UInt64) (payload b : Bytes) :
    (recordHeader t logNumber payload ++ b).slice 4 2 = Bytes.leEncode 2 payload.length := by
  rw [recordHeader, List.append_assoc, List.append_assoc]
  exact Bytes.slice_eq_of_append (Bytes.length_leEncode 4 _) (Bytes.length_leEncode 2 _)

theorem slice_crc_recordHeader (t : RecordType) (logNumber : UInt64) (payload b : Bytes) :
    (recordHeader t logNumber payload ++ b).slice 0 4 =
      Bytes.leEncode 4 (recordCrc t logNumber payload).toNat := by
  rw [recordHeader, List.append_assoc]
  exact Bytes.slice_zero_append (Bytes.length_leEncode 4 _)

theorem drop_six_recordHeader (t : RecordType) (logNumber : UInt64) (payload b : Bytes) :
    (recordHeader t logNumber payload ++ b).drop 6 = t.code ::
      ((if t.isRecyclable then Bytes.leEncode 4 logNumber.toUInt32.toNat else []) ++ b) := by
  have h4 := Bytes.length_leEncode 4 (recordCrc t logNumber payload).toNat
  have h2 := Bytes.length_leEncode 2 payload.length
  have hl : (Bytes.leEncode 4 (recordCrc t logNumber payload).toNat ++
      Bytes.leEncode 2 payload.length).length = 6 := by rw [List.length_append, h4, h2]
  rw [recordHeader, ← List.append_assoc, List.append_assoc, ← hl, List.drop_left,
    List.cons_append]

/-- The reader's checksum of a legacy record is the one in its header. -/
theorem crc_of_recordHeader {t : RecordType} (ht : t.isRecyclable = false) (logNumber : UInt64)
    (payload b : Bytes) :
    crc32c.value ((recordHeader t logNumber payload ++ (payload ++ b)).slice 6
      (payload.length + kHeaderSize - 6)) =
    crc32c.unmask (UInt32.ofNat (Bytes.leDecode
      ((recordHeader t logNumber payload ++ (payload ++ b)).slice 0 4))) := by
  have hlen : payload.length + kHeaderSize - 6 = (t.code :: payload).length := by
    rw [List.length_cons, kHeaderSize]
    omega
  have hslice : (recordHeader t logNumber payload ++ (payload ++ b)).slice 6
      (payload.length + kHeaderSize - 6) = t.code :: payload := by
    rw [Bytes.slice, drop_six_recordHeader, if_neg (by simp [ht]), List.nil_append, hlen,
      ← List.cons_append, List.take_left]
  have hcrc : (recordCrc t logNumber payload).toNat < 256 ^ 4 :=
    lt_of_lt_of_eq (recordCrc t logNumber payload).toNat_lt (by norm_num)
  rw [hslice, slice_crc_recordHeader, Bytes.leDecode_leEncode_of_lt hcrc,
    UInt32.ofNat_toNat, recordCrc, crc32c.unmask_mask, if_neg (by simp [ht]),
    crc32c.extend_value, List.singleton_append]

end Tweezer.Log
