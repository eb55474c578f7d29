import Tweezer.Bytes

/-!
# Authenticated encryption under a fixed nonce

With its nonce fixed, a counter-mode cipher is a length-preserving bijection for each key,
and its tag is a function of the key, the associated data and the ciphertext. Nothing else
about the cipher is used; where a result rests on tags being hard to forge, it says so in a
hypothesis of its own.
-/

namespace Tweezer

structure AuthCipher (κ τ : Type) where
  enc : κ → Bytes → Bytes
  dec : κ → Bytes → Bytes
  tag : κ → Bytes → Bytes → τ
  length_enc : ∀ k p, (enc k p).length = p.length
  dec_enc : ∀ k p, dec k (enc k p) = p
  enc_dec : ∀ k c, enc k (dec k c) = c

namespace AuthCipher

variable {κ τ : Type} (C : AuthCipher κ τ)

attribute [simp] length_enc dec_enc enc_dec

@[simp] theorem length_dec (k : κ) (c : Bytes) : (C.dec k c).length = c.length := by
  rw [← C.length_enc k (C.dec k c), C.enc_dec]

/-- Decryption that checks the tag first. -/
def open? [DecidableEq τ] (k : κ) (aad c : Bytes) (t : τ) : Option Bytes :=
  if C.tag k aad c = t then some (C.dec k c) else none

theorem open?_seal [DecidableEq τ] (k : κ) (aad p : Bytes) :
    C.open? k aad (C.enc k p) (C.tag k aad (C.enc k p)) = some p := by
  rw [open?, if_pos rfl, C.dec_enc]

theorem open?_eq_none_iff [DecidableEq τ] (k : κ) (aad c : Bytes) (t : τ) :
    C.open? k aad c t = none ↔ C.tag k aad c ≠ t := by
  unfold open?
  split_ifs with h <;> simp [h]

theorem length_of_open? [DecidableEq τ] {k : κ} {aad c p : Bytes} {t : τ}
    (h : C.open? k aad c t = some p) : p.length = c.length := by
  unfold open? at h
  split_ifs at h
  rw [← Option.some.inj h, C.length_dec]

section Counter

variable (stream : κ → ℕ → UInt8)

/-- Exclusive or with a key stream that starts at position `i`. -/
def xorStream (k : κ) : ℕ → Bytes → Bytes
  | _, [] => []
  | i, b :: bs => (b ^^^ stream k i) :: xorStream k (i + 1) bs

theorem length_xorStream (k : κ) (i : ℕ) (b : Bytes) :
    (xorStream stream k i b).length = b.length := by
  induction b generalizing i with
  | nil => rfl
  | cons x b ih => rw [xorStream, List.length_cons, List.length_cons, ih]

theorem xorStream_xorStream (k : κ) (i : ℕ) (b : Bytes) :
    xorStream stream k i (xorStream stream k i b) = b := by
  induction b generalizing i with
  | nil => rfl
  | cons x b ih =>
      rw [xorStream, xorStream, ih, UInt8.xor_assoc, UInt8.xor_self, UInt8.xor_zero]

/-- Counter mode: encryption and decryption are the same exclusive or. -/
def counterMode (tag : κ → Bytes → Bytes → τ) : AuthCipher κ τ where
  enc k := xorStream stream k 0
  dec k := xorStream stream k 0
  tag := tag
  length_enc k := length_xorStream stream k 0
  dec_enc k := xorStream_xorStream stream k 0
  enc_dec k := xorStream_xorStream stream k 0

end Counter

end AuthCipher

end Tweezer
