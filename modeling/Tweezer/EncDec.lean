import Tweezer.AuthCipher
import Tweezer.Outcome

/-!
# The encryption calls of the enclave

`sgx/enc_dec.cc`. Every call uses AES-256-GCM with the constant nonce `gcm_iv`, in place;
the cipher is a parameter. Headers and metadata are encrypted without keeping the tag.
-/

namespace Tweezer

abbrev Key := Octets 32

abbrev Mac := Octets 16

/-- `EVP_aes_256_gcm` under `gcm_iv`. -/
abbrev Gcm := AuthCipher Key Mac

def gcmAad : Mac :=
  ⟨[0x4d, 0x23, 0xc3, 0xce, 0xc3, 0x34, 0xb4, 0x9b, 0xdb, 0x37, 0x0c, 0x43, 0x7f, 0xec,
    0x78, 0xde], rfl⟩

variable (C : Gcm)

/-- `Encryption`, with the tag that it hands out when asked. -/
def encryption (data : Bytes) (key : Key) : Bytes × Mac :=
  (C.enc key data, C.tag key gcmAad.val (C.enc key data))

/-- `Decryption`, and whether the tag agrees. A tag that does not is only reported. -/
def decryption (data : Bytes) (key : Key) (tags : Mac) : Bytes × Bool :=
  (C.dec key data, C.tag key gcmAad.val data = tags)

def logEncrypt (record : Bytes) (key : Key) (aad : Option Mac) : Bytes × Mac :=
  (C.enc key record, C.tag key (aad.getD gcmAad).val (C.enc key record))

/-- With tags given, a record that does not verify ends the process. -/
def logDecrypt (record : Bytes) (key : Key) (tags aad : Option Mac) : Outcome Bytes :=
  match tags with
  | none => .ok (C.dec key record)
  | some t =>
      match C.open? key (aad.getD gcmAad).val record t with
      | some p => .ok p
      | none => .error .exit

theorem logDecrypt_logEncrypt (record : Bytes) (key : Key) (aad : Option Mac) :
    logDecrypt C (logEncrypt C record key aad).1 key (some (logEncrypt C record key aad).2) aad =
      .ok record := by
  simp only [logDecrypt, logEncrypt, C.open?_seal]

/-- In `b`, the `len` bytes at `off` verify under the 16 bytes that follow them. -/
def Verifies (key : Key) (aad : Mac) (b : Bytes) (off len : ℕ) : Prop :=
  off + len + 16 ≤ b.length ∧ (C.tag key aad.val (b.slice off len)).val = b.slice (off + len) 16

theorem Verifies.of_append {key : Key} {aad : Mac} {a b : Bytes} {off len : ℕ}
    (h : Verifies C key aad a off len) : Verifies C key aad (a ++ b) off len := by
  obtain ⟨hl, ht⟩ := h
  refine ⟨by rw [List.length_append]; omega, ?_⟩
  rw [Bytes.slice_append_left _ _ _ _ (by omega), Bytes.slice_append_left _ _ _ _ hl, ht]

theorem Verifies.of_drop {key : Key} {aad : Mac} {b : Bytes} {n off len : ℕ}
    (h : Verifies C key aad (b.drop n) off len) : Verifies C key aad b (n + off) len := by
  obtain ⟨hl, ht⟩ := h
  rw [List.length_drop] at hl
  refine ⟨by omega, ?_⟩
  rw [Bytes.slice, Bytes.slice, List.drop_drop, List.drop_drop] at ht
  rw [Bytes.slice, Bytes.slice, ht, Nat.add_assoc]

theorem length_of_logDecrypt {record p : Bytes} {key : Key} {tags aad : Option Mac}
    (h : logDecrypt C record key tags aad = .ok p) : p.length = record.length := by
  cases tags with
  | none =>
      cases h
      exact C.length_dec key record
  | some t =>
      cases ho : C.open? key (aad.getD gcmAad).val record t with
      | none => simp [logDecrypt, ho] at h
      | some q =>
          simp only [logDecrypt, ho, Except.ok.injEq] at h
          exact h ▸ C.length_of_open? ho

/-- A tag that mixes every byte of its input; `seed` is the running value. -/
def mixTag (seed : UInt8) : Bytes → UInt8
  | [] => seed
  | b :: bs => mixTag (seed * 5 + b + 1) bs

/-- A counter-mode cipher small enough to run on fixed inputs. -/
def sampleGcm : Gcm :=
  AuthCipher.counterMode (fun k i => k.val.getD (i % 32) 0 + UInt8.ofNat i)
    (fun k aad c => ⟨(List.range 16).map fun i =>
      mixTag (k.val.getD i 0 + aad.getD i 0 + UInt8.ofNat i) (c ++ aad), by simp⟩)

def sampleKey : Key := ⟨(List.range 32).map UInt8.ofNat, rfl⟩

def sampleMac : Mac := ⟨(List.range 16).map UInt8.ofNat, rfl⟩

end Tweezer
