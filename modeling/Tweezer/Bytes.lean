import Mathlib.Data.List.Basic
import Mathlib.Tactic.Ring

/-!
# Byte strings

Byte strings are lists of octets. A string whose length is part of its type is a
subtype, so that a key or a tag of the wrong size cannot be built. The fixed-width
integers of the file formats are little-endian; variable-length integers carry seven
bits to the byte, the top bit saying that another byte follows.
-/

namespace Tweezer

abbrev Bytes := List UInt8

/-- Byte strings of exactly `n` bytes. -/
abbrev Octets (n : ℕ) := {b : Bytes // b.length = n}

namespace Bytes

/-- The `n` bytes of `b` that start at offset `off`, short where `b` ends. -/
def slice (b : Bytes) (off n : ℕ) : Bytes := (b.drop off).take n

theorem length_slice {b : Bytes} {off n : ℕ} (h : off + n ≤ b.length) :
    (slice b off n).length = n := by
  rw [slice, List.length_take, List.length_drop]
  omega

theorem slice_append_right (a b : Bytes) (off n : ℕ) (h : a.length ≤ off) :
    slice (a ++ b) off n = slice b (off - a.length) n := by
  rw [slice, slice, List.drop_append, List.drop_of_length_le h, List.nil_append]

theorem slice_append_left (a b : Bytes) (off n : ℕ) (h : off + n ≤ a.length) :
    slice (a ++ b) off n = slice a off n := by
  rw [slice, slice, List.drop_append_of_le_length (by omega),
    List.take_append_of_le_length (by rw [List.length_drop]; omega)]

theorem drop_append_of_length {a b : Bytes} {n : ℕ} (ha : a.length = n) :
    (a ++ b).drop n = b := by
  rw [← ha, List.drop_left]

theorem slice_zero_append {a b : Bytes} {n : ℕ} (ha : a.length = n) :
    slice (a ++ b) 0 n = a := by
  rw [slice, List.drop_zero, ← ha, List.take_left]

theorem slice_take {a : Bytes} {off n m : ℕ} (h : off + n ≤ m) :
    slice (a.take m) off n = slice a off n := by
  rw [slice, slice, List.drop_take, List.take_take, Nat.min_eq_left (by omega)]

theorem slice_drop (a : Bytes) (k off n : ℕ) : slice (a.drop k) off n = slice a (k + off) n := by
  rw [slice, slice, List.drop_drop]

theorem slice_slice {a : Bytes} {k m off n : ℕ} (h : off + n ≤ m) :
    slice (slice a k m) off n = slice a (k + off) n := (slice_take h).trans (slice_drop a k off n)

/-- A slice that is the middle one of three strings. -/
theorem slice_eq_of_append {a b c : Bytes} {off n : ℕ} (ha : a.length = off)
    (hb : b.length = n) : slice (a ++ (b ++ c)) off n = b := by
  rw [slice, ← ha, List.drop_left, ← hb, List.take_left]

def zeros (n : ℕ) : Bytes := List.replicate n 0

@[simp] theorem length_zeros (n : ℕ) : (zeros n).length = n := List.length_replicate

@[simp] theorem zeros_zero : zeros 0 = [] := rfl

/-- Little-endian encoding of `v` in `w` bytes. -/
def leEncode : ℕ → ℕ → Bytes
  | 0, _ => []
  | w + 1, v => UInt8.ofNat v :: leEncode w (v / 256)

def leDecode : Bytes → ℕ
  | [] => 0
  | b :: bs => b.toNat + 256 * leDecode bs

@[simp] theorem length_leEncode (w v : ℕ) : (leEncode w v).length = w := by
  induction w generalizing v with
  | zero => rfl
  | succ w ih => rw [leEncode, List.length_cons, ih]

theorem leDecode_leEncode (w v : ℕ) : leDecode (leEncode w v) = v % 256 ^ w := by
  induction w generalizing v with
  | zero => simp [leEncode, leDecode, Nat.mod_one]
  | succ w ih =>
      rw [leEncode, leDecode, ih, pow_succ', Nat.mod_mul]
      simp

theorem leDecode_leEncode_of_lt {w v : ℕ} (h : v < 256 ^ w) :
    leDecode (leEncode w v) = v := by
  rw [leDecode_leEncode, Nat.mod_eq_of_lt h]

theorem leDecode_lt (b : Bytes) : leDecode b < 256 ^ b.length := by
  induction b with
  | nil => simp [leDecode]
  | cons x b ih =>
      have hx := x.toNat_lt
      rw [leDecode, List.length_cons, pow_succ]
      omega

/-- Variable-length encoding of `v` in at most `n + 1` bytes. -/
def varintEncode : ℕ → ℕ → Bytes
  | 0, v => [UInt8.ofNat v]
  | n + 1, v => if v < 128 then [UInt8.ofNat v]
      else UInt8.ofNat (v % 128 + 128) :: varintEncode n (v / 128)

/-- Decodes at most `n` bytes and returns what follows them. -/
def varintDecode : ℕ → Bytes → Option (ℕ × Bytes)
  | 0, _ => none
  | _ + 1, [] => none
  | n + 1, b :: bs =>
      if b.toNat < 128 then some (b.toNat, bs)
      else match varintDecode n bs with
        | some (v, rest) => some (b.toNat - 128 + 128 * v, rest)
        | none => none

theorem length_varintEncode_pos (n v : ℕ) : 0 < (varintEncode n v).length := by
  cases n with
  | zero => exact Nat.one_pos
  | succ n =>
      rw [varintEncode]
      split_ifs
      · exact Nat.one_pos
      · exact Nat.succ_pos _

theorem length_varintEncode_le (n v : ℕ) : (varintEncode n v).length ≤ n + 1 := by
  induction n generalizing v with
  | zero => exact le_refl 1
  | succ n ih =>
      rw [varintEncode]
      split_ifs
      · exact Nat.succ_le_succ (Nat.zero_le _)
      · exact Nat.succ_le_succ (ih _)

theorem varintEncode_of_lt {n v : ℕ} (h : v < 128) : varintEncode n v = [UInt8.ofNat v] := by
  cases n with
  | zero => rfl
  | succ n => rw [varintEncode, if_pos h]

theorem toNat_ofNat_of_lt {v : ℕ} (h : v < 256) : (UInt8.ofNat v).toNat = v :=
  UInt8.toNat_ofNat_of_lt h

theorem varintDecode_varintEncode {n v : ℕ} (h : v < 128 ^ (n + 1)) (rest : Bytes) :
    varintDecode (n + 1) (varintEncode n v ++ rest) = some (v, rest) := by
  induction n generalizing v with
  | zero =>
      have hv : v < 128 := by omega
      have ht : (UInt8.ofNat v).toNat = v := toNat_ofNat_of_lt (by omega)
      rw [varintEncode, List.singleton_append, varintDecode, ht, if_pos hv]
  | succ n ih =>
      rw [varintEncode]
      split_ifs with hv
      · have ht : (UInt8.ofNat v).toNat = v := toNat_ofNat_of_lt (by omega)
        rw [List.singleton_append, varintDecode, ht, if_pos hv]
      · have ht : (UInt8.ofNat (v % 128 + 128)).toNat = v % 128 + 128 :=
          toNat_ofNat_of_lt (by omega)
        have hdiv : v / 128 < 128 ^ (n + 1) := by
          rw [Nat.div_lt_iff_lt_mul (by norm_num), ← pow_succ]
          exact h
        rw [List.cons_append, varintDecode, ht, if_neg (by omega), ih hdiv]
        dsimp only
        rw [Nat.add_sub_cancel, Nat.mod_add_div]

/-- The number of leading bytes two strings share. -/
def commonPrefix : Bytes → Bytes → ℕ
  | a :: as, b :: bs => if a = b then commonPrefix as bs + 1 else 0
  | _, _ => 0

theorem commonPrefix_le_left (a b : Bytes) : commonPrefix a b ≤ a.length := by
  induction a generalizing b with
  | nil => exact Nat.le_refl 0
  | cons x a ih =>
      cases b with
      | nil => exact Nat.zero_le _
      | cons y b =>
          rw [commonPrefix, List.length_cons]
          split_ifs
          · exact Nat.succ_le_succ (ih b)
          · exact Nat.zero_le _

theorem commonPrefix_le_right (a b : Bytes) : commonPrefix a b ≤ b.length := by
  induction a generalizing b with
  | nil => exact Nat.zero_le _
  | cons x a ih =>
      cases b with
      | nil => exact Nat.le_refl 0
      | cons y b =>
          rw [commonPrefix, List.length_cons]
          split_ifs
          · exact Nat.succ_le_succ (ih b)
          · exact Nat.zero_le _

theorem take_commonPrefix (a b : Bytes) :
    a.take (commonPrefix a b) = b.take (commonPrefix a b) := by
  induction a generalizing b with
  | nil => rfl
  | cons x a ih =>
      cases b with
      | nil => rfl
      | cons y b =>
          rw [commonPrefix]
          split_ifs with h
          · rw [List.take_succ_cons, List.take_succ_cons, h, ih b]
          · rw [List.take_zero, List.take_zero]

end Bytes

end Tweezer
