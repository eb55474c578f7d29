import Mathlib.Order.Compare
import Tweezer.Outcome

/-!
# Internal keys

`db/dbformat.h`. An internal key is a user key followed by eight bytes that pack a sequence
number and a value type. Internal keys are ordered by user key, and for one user key from
the newest entry to the oldest.
-/

namespace Tweezer

/-- A user-supplied key order. It may take different keys to be equal. -/
structure Comparator where
  compare : Bytes → Bytes → Ordering
  transCmp : Std.TransCmp compare

/-- `BytewiseComparator`, the default. -/
def bytewiseComparator : Comparator := ⟨compare, inferInstance⟩

inductive ValueType where
  | deletion
  | value
  | merge
  | singleDeletion
  | rangeDeletion
  | blobIndex
  | deletionWithTimestamp
  deriving DecidableEq, Repr

def ValueType.code : ValueType → ℕ
  | deletion => 0x0
  | value => 0x1
  | merge => 0x2
  | singleDeletion => 0x7
  | rangeDeletion => 0xF
  | blobIndex => 0x11
  | deletionWithTimestamp => 0x14

/-- The value type with this code. -/
def ValueType.ofCode? : ℕ → Option ValueType
  | 0x0 => some deletion
  | 0x1 => some value
  | 0x2 => some merge
  | 0x7 => some singleDeletion
  | 0xF => some rangeDeletion
  | 0x11 => some blobIndex
  | 0x14 => some deletionWithTimestamp
  | _ => none

theorem ValueType.ofCode?_code (t : ValueType) : ofCode? t.code = some t := by
  cases t <;> rfl

def kNumInternalBytes : ℕ := 8

def kMaxSequenceNumber : ℕ := 2 ^ 56 - 1

def kDisableGlobalSequenceNumber : ℕ := 2 ^ 64 - 1

def kValueTypeForSeek : ValueType := .deletionWithTimestamp

def packSequenceAndType (seq : ℕ) (typeCode : ℕ) : ℕ := (seq * 256 + typeCode) % 2 ^ 64

/-- Byte strings long enough to be internal keys. -/
abbrev InternalKey := {b : Bytes // kNumInternalBytes ≤ b.length}

def extractUserKey (k : Bytes) : Bytes := k.take (k.length - kNumInternalBytes)

def extractInternalKeyFooter (k : Bytes) : ℕ :=
  Bytes.leDecode (k.drop (k.length - kNumInternalBytes))

def extractValueType (k : Bytes) : ℕ := extractInternalKeyFooter k % 256

theorem extractUserKey_append (k : Bytes) (n : ℕ) : extractUserKey (k ++ Bytes.leEncode 8 n) = k := by
  rw [extractUserKey, List.length_append, Bytes.length_leEncode, kNumInternalBytes,
    Nat.add_sub_cancel, List.take_left]

theorem extractInternalKeyFooter_append (k : Bytes) {n : ℕ} (h : n < 2 ^ 64) :
    extractInternalKeyFooter (k ++ Bytes.leEncode 8 n) = n := by
  rw [extractInternalKeyFooter, List.length_append, Bytes.length_leEncode, kNumInternalBytes,
    Nat.add_sub_cancel, List.drop_left]
  exact Bytes.leDecode_leEncode_of_lt (lt_of_lt_of_le h (by decide))

/-- `InternalKeyComparator::Compare` with a sequence number put in place of the stored one,
unless it is `kDisableGlobalSequenceNumber`. -/
def internalKeyCompare (u : Comparator) (a : Bytes) (aGlobalSeqno : ℕ) (b : Bytes)
    (bGlobalSeqno : ℕ) : Ordering :=
  let footer := fun k seq => if seq = kDisableGlobalSequenceNumber then extractInternalKeyFooter k
    else packSequenceAndType seq (extractValueType k)
  (u.compare (extractUserKey a) (extractUserKey b)).then
    (compare (footer b bGlobalSeqno) (footer a aGlobalSeqno))

/-- The order of internal keys as they are stored. -/
def icmp (u : Comparator) (a b : Bytes) : Ordering :=
  (u.compare (extractUserKey a) (extractUserKey b)).then
    (compare (extractInternalKeyFooter b) (extractInternalKeyFooter a))

/-- `CompareKeySeq`, the order of the memtable, which leaves the value type out. -/
def compareKeySeq (u : Comparator) (a b : Bytes) : Ordering :=
  (u.compare (extractUserKey a) (extractUserKey b)).then
    (compare (extractInternalKeyFooter b / 256) (extractInternalKeyFooter a / 256))

theorem internalKeyCompare_disabled (u : Comparator) (a b : Bytes) :
    internalKeyCompare u a kDisableGlobalSequenceNumber b kDisableGlobalSequenceNumber =
      icmp u a b := rfl

theorem transCmp_comap {α β : Type} {cmp : β → β → Ordering} (h : Std.TransCmp cmp) (f : α → β) :
    Std.TransCmp (fun a b => cmp (f a) (f b)) where
  eq_swap := Std.OrientedCmp.eq_swap
  isLE_trans := Std.TransCmp.isLE_trans

instance transCmp_icmp (u : Comparator) : Std.TransCmp (icmp u) := by
  have huser := transCmp_comap u.transCmp extractUserKey
  have hfooter : Std.TransCmp (fun a b : ℕ => compare b a) :=
    { eq_swap := Std.OrientedCmp.eq_swap
      isLE_trans := fun h h' => Std.TransCmp.isLE_trans h' h }
  have hfooter' := transCmp_comap hfooter extractInternalKeyFooter
  exact inferInstanceAs (Std.TransCmp (compareLex
    (fun a b => u.compare (extractUserKey a) (extractUserKey b))
    (fun a b => compare (extractInternalKeyFooter b) (extractInternalKeyFooter a))))

/-- The order of versions: by user key, and the newest first. -/
def compareVersions (u : Comparator) (x y : Bytes × ℕ) : Ordering :=
  (u.compare x.1 y.1).then (compare y.2 x.2)

instance (u : Comparator) : Std.TransCmp (compareVersions u) := by
  have huser := transCmp_comap u.transCmp (Prod.fst : Bytes × ℕ → Bytes)
  have hdesc : Std.TransCmp (fun a b : ℕ => compare b a) :=
    { eq_swap := Std.OrientedCmp.eq_swap
      isLE_trans := fun h h' => Std.TransCmp.isLE_trans h' h }
  have hseq := transCmp_comap hdesc (Prod.snd : Bytes × ℕ → ℕ)
  exact inferInstanceAs (Std.TransCmp (compareLex
    (fun x y : Bytes × ℕ => u.compare x.1 y.1) (fun x y : Bytes × ℕ => compare y.2 x.2)))

theorem ucmp_ne_gt_of_icmp_lt {u : Comparator} {a b : Bytes} (h : icmp u a b = .lt) :
    u.compare (extractUserKey a) (extractUserKey b) ≠ .gt := by
  intro hgt
  rw [icmp, hgt] at h
  cases h

end Tweezer
