import Tweezer.Outcome

/-!
# Fixed-width and length-prefixed data

`util/coding.h`: 32-bit quantities, their variable-length encoding, and byte strings behind
their length.
-/

namespace Tweezer

def u32 (n : ℕ) : ℕ := n % 2 ^ 32

theorem u32_of_lt {n : ℕ} (h : n < 2 ^ 32) : u32 n = n := Nat.mod_eq_of_lt h

theorem u32_u32_add (a b : ℕ) : u32 (u32 a + b) = u32 (a + b) := Nat.mod_add_mod _ _ _

def u64 (n : ℕ) : ℕ := n % 2 ^ 64

def putVarint32 (v : ℕ) : Bytes := Bytes.varintEncode 4 (u32 v)

theorem varintDecode_putVarint32 {v : ℕ} (h : v < 2 ^ 32) (rest : Bytes) :
    Bytes.varintDecode 5 (putVarint32 v ++ rest) = some (v, rest) := by
  rw [putVarint32, u32_of_lt h]
  exact Bytes.varintDecode_varintEncode (lt_of_lt_of_le h (by decide)) rest

def putVarint64 (v : ℕ) : Bytes := Bytes.varintEncode 9 (u64 v)

/-- `GetVarint64`, and what follows the number. -/
def getVarint64 (input : Bytes) : Option (ℕ × Bytes) :=
  (Bytes.varintDecode 10 input).map fun r => (u64 r.1, r.2)

theorem getVarint64_putVarint64 {v : ℕ} (h : v < 2 ^ 64) (rest : Bytes) :
    getVarint64 (putVarint64 v ++ rest) = some (v, rest) := by
  have hv : u64 v = v := Nat.mod_eq_of_lt h
  have hlt : v < 128 ^ (9 + 1) := lt_of_lt_of_le h (by decide)
  rw [getVarint64, putVarint64, hv, Bytes.varintDecode_varintEncode hlt, Option.map_some, hv]

/-- `GetVarint32`, and what follows the number. -/
def getVarint32 (input : Bytes) : Option (ℕ × Bytes) :=
  (Bytes.varintDecode 5 input).map fun r => (u32 r.1, r.2)

theorem getVarint32_putVarint32 {v : ℕ} (h : v < 2 ^ 32) (rest : Bytes) :
    getVarint32 (putVarint32 v ++ rest) = some (v, rest) := by
  rw [getVarint32, varintDecode_putVarint32 h, Option.map_some, u32_of_lt h]

def putLengthPrefixedSlice (value : Bytes) : Bytes := putVarint32 value.length ++ value

def putFixed64 (value : UInt64) : Bytes := Bytes.leEncode 8 value.toNat

/-- `GetLengthPrefixedSlice`: the string at the front of `p`, and what follows it. -/
def getLengthPrefixedSlice (p : Bytes) : Outcome (Bytes × Bytes) :=
  match Bytes.varintDecode 5 p with
  | none => .error .outOfBuffer
  | some (n, rest) => do
      let s ← rest.fetch 0 n
      .ok (s, rest.drop n)

theorem getLengthPrefixedSlice_putVarint32 {s : Bytes} (h : s.length < 2 ^ 32) (rest : Bytes) :
    getLengthPrefixedSlice (putVarint32 s.length ++ (s ++ rest)) = .ok (s, rest) := by
  rw [getLengthPrefixedSlice, varintDecode_putVarint32 h]
  dsimp only
  rw [Bytes.fetch_of_le (by rw [List.length_append]; omega), Outcome.ok_bind,
    Bytes.slice_zero_append rfl, Bytes.drop_append_of_length rfl]

end Tweezer
