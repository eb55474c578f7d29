import Tweezer.Bytes

/-!
# The checksum of log records

`crc32c::Extend` over the reflected Castagnoli polynomial, and the masked form in which
checksums are stored.
-/

namespace Tweezer.crc32c

/-- One step of the shift register; the source reads eight of them from a table. -/
def shift (c : UInt32) : UInt32 :=
  if c &&& 1 = 1 then (c >>> 1) ^^^ 0x82f63b78 else c >>> 1

def step (c : UInt32) (b : UInt8) : UInt32 :=
  (shift ∘ shift ∘ shift ∘ shift ∘ shift ∘ shift ∘ shift ∘ shift) (c ^^^ b.toUInt32)

def extend (crc : UInt32) (data : Bytes) : UInt32 :=
  data.foldl step (crc ^^^ 0xffffffff) ^^^ 0xffffffff

def value (data : Bytes) : UInt32 := extend 0 data

theorem extend_extend (crc : UInt32) (a b : Bytes) :
    extend (extend crc a) b = extend crc (a ++ b) := by
  rw [extend, extend, extend, UInt32.xor_assoc, UInt32.xor_self, UInt32.xor_zero,
    List.foldl_append]

theorem extend_value (a b : Bytes) : extend (value a) b = value (a ++ b) :=
  extend_extend 0 a b

def kMaskDelta : UInt32 := 0xa282ead8

def mask (crc : UInt32) : UInt32 := ((crc >>> 15) ||| (crc <<< 17)) + kMaskDelta

def unmask (maskedCrc : UInt32) : UInt32 :=
  let rot := maskedCrc - kMaskDelta
  (rot >>> 17) ||| (rot <<< 15)

/-- Rotating right by 15 bits and then by 17 more is a full turn of the register. -/
theorem rotate_rotate (x : BitVec 32) :
    ((x >>> 15 ||| x <<< 17) >>> 17) ||| ((x >>> 15 ||| x <<< 17) <<< 15) = x := by
  ext i hi
  have hout : x.getLsbD (15 + (17 + i)) = false := BitVec.getLsbD_of_ge _ _ (by omega)
  simp only [BitVec.getElem_or, BitVec.getElem_ushiftRight, BitVec.getElem_shiftLeft,
    BitVec.getLsbD_or, BitVec.getLsbD_ushiftRight, BitVec.getLsbD_shiftLeft, hout]
  by_cases h : i < 15
  · simp [h, show 17 + i < 32 by omega, BitVec.getLsbD_eq_getElem hi]
  · have hback : 15 + (i - 15) = i := by omega
    simp [h, hback, show ¬ 17 + i < 32 by omega, show i - 15 < 17 by omega,
      BitVec.getLsbD_eq_getElem hi]

theorem unmask_mask (crc : UInt32) : unmask (mask crc) = crc := by
  apply UInt32.toBitVec_inj.mp
  rw [unmask, mask]
  simpa using rotate_rotate crc.toBitVec

example : value [0x31, 0x32, 0x33, 0x34, 0x35, 0x36, 0x37, 0x38, 0x39] = 0xe3069283 := by
  decide +kernel

end Tweezer.crc32c
