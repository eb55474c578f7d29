import Tweezer.Coding
import Tweezer.EncDec
import Tweezer.InternalKey

/-!
# Building a data block

`BlockBuilder` of `table/block_based/block_builder.cc` with `data_block` set. Each value is
encrypted by itself and followed by a MAC over the key and the ciphertext. The keys and the
value sizes go to a second buffer, which `Finish` encrypts as a whole and appends, with the
offset where it starts in the last four bytes.
-/

namespace Tweezer

abbrev Hmac := Octets 48

/-- `digest` of `sgx/hmac.cc`, HMAC-SHA3-384. -/
abbrev Digest := Key → Bytes → Hmac

def kHmacSize : ℕ := 48

/-- A digest that keeps the first 48 bytes, to run on fixed inputs. -/
def sampleDigest : Digest := fun _ b => ⟨(List.range 48).map fun i => b.getD i 0, by simp⟩

structure BlockBuilder where
  useDeltaEncoding : Bool
  sstKey : Key
  buffer : Bytes
  metaBuf : Bytes
  metaOffset : ℕ
  lastKey : Bytes
  estimate : ℕ
  deriving DecidableEq

namespace BlockBuilder

variable (C : Gcm) (digest : Digest)

def create (useDeltaEncoding : Bool) (sstKey : Key) : BlockBuilder :=
  ⟨useDeltaEncoding, sstKey, [], [], 0, [], 4 + 4⟩

/-- An entry of `meta_buf`: the lengths of the shared prefix, of the rest of the key and of
the value, and the rest of the key. -/
def metaEntry (useDeltaEncoding : Bool) (lastKey key : Bytes) (valueSize : ℕ) : Bytes :=
  let shared := if useDeltaEncoding then Bytes.commonPrefix key lastKey else 0
  putVarint32 shared ++ (putVarint32 (key.length - shared) ++
    (putVarint32 valueSize ++ key.drop shared))

def add (b : BlockBuilder) (key value : Bytes) : BlockBuilder :=
  let encrypted := C.enc b.sstKey value
  let hmac := digest b.sstKey (key ++ encrypted)
  let entry := metaEntry b.useDeltaEncoding b.lastKey key encrypted.length
  { b with
    buffer := b.buffer ++ (encrypted ++ hmac.val)
    metaBuf := b.metaBuf ++ entry
    metaOffset := u32 (b.metaOffset + (encrypted.length + kHmacSize))
    lastKey := if b.useDeltaEncoding then key else b.lastKey
    estimate := b.estimate + (entry.length + encrypted.length + kHmacSize) }

def finish (b : BlockBuilder) : Bytes :=
  b.buffer ++ (C.enc b.sstKey b.metaBuf ++ Bytes.leEncode 4 b.metaOffset)

/-- Adding a list of entries, in order. -/
def addAll (b : BlockBuilder) (entries : List (InternalKey × Bytes)) : BlockBuilder :=
  entries.foldl (fun b e => b.add C digest e.1.val e.2) b

theorem addAll_cons (b : BlockBuilder) (k : InternalKey) (v : Bytes)
    (entries : List (InternalKey × Bytes)) :
    b.addAll C digest ((k, v) :: entries) = (b.add C digest k.val v).addAll C digest entries :=
  rfl

end BlockBuilder

/-- The bytes of the data block with these entries. -/
def dataBlock (C : Gcm) (digest : Digest) (useDeltaEncoding : Bool) (sstKey : Key)
    (entries : List (InternalKey × Bytes)) : Bytes :=
  ((BlockBuilder.create useDeltaEncoding sstKey).addAll C digest entries).finish C

end Tweezer
