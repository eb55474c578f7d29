import Tweezer.LogRoundTrip
import Tweezer.TagChain

/-!
# Logs from a host that does not know the key

What the reader accepts from any file, if only what the writer tagged verifies. Tags are chained
and cover the payloads alone; types, lengths and checksums are in headers that are encrypted
without a tag. So the payloads come back as they were written, but a host can make the reader
drop some of them, and cut records differently at their ends.
-/

namespace Tweezer.Log

variable (C : Gcm)

/-- A payload whose tag has agreed, the tag before it, and whether its header claimed the
recyclable format. -/
structure Accepted where
  aad : Mac
  ciphertext : Bytes
  recyclable : Bool
  deriving DecidableEq

namespace Reader

/-- What `ReadPhysicalRecord` accepts. -/
def acceptedPhysicalLoop : ℕ → Reader → Option Accepted
  | 0, _ => none
  | fuel + 1, r =>
      if r.buffer.length < kHeaderSize + kMacSize then
        match r.readMore with
        | (some _, _) => none
        | (none, r) => acceptedPhysicalLoop fuel r
      else
        match r.decryptRecord C with
        | .error _ => none
        | .ok (length, r') => some ⟨r.previousMac, r.buffer.slice kHeaderSize length,
            (ReadCode.ofByte (r'.buffer.getD 6 0)).isRecyclable⟩

def acceptedPhysical (r : Reader) : Option Accepted := r.acceptedPhysicalLoop C 3

/-- What `ReadRecord` accepts on its way to a record or to the end. -/
def acceptedRecordLoop (mode : WALRecoveryMode) : ℕ → Assembly → Reader → List Accepted
  | 0, _, _ => []
  | fuel + 1, a, r =>
      match r.readPhysicalRecord C with
      | .error _ => []
      | .ok (p, r') => (r.acceptedPhysical C).toList ++
          match r'.switchRecord mode a (r.endOfBufferOffset - r.buffer.length) p with
          | .ret _ _ => []
          | .again a r => acceptedRecordLoop mode fuel a r

def acceptedRecord (r : Reader) (mode : WALRecoveryMode) : List Accepted :=
  r.acceptedRecordLoop C mode (r.remaining.length + 2) .empty

/-- The records that `n` calls of `ReadRecord` return, up to the first that returns `false` or
does not come back. -/
def returned (mode : WALRecoveryMode) : ℕ → Reader → List Bytes
  | 0, _ => []
  | n + 1, r =>
      match r.readRecord C mode with
      | .ok (some record, r) => record :: returned mode n r
      | .ok (none, _) => []
      | .error _ => []

/-- What those of these calls accept that come back. -/
def accepted (mode : WALRecoveryMode) : ℕ → Reader → List Accepted
  | 0, _ => []
  | n + 1, r =>
      match r.readRecord C mode with
      | .ok (some _, r') => r.acceptedRecord C mode ++ accepted mode n r'
      | .ok (none, _) => r.acceptedRecord C mode
      | .error _ => []

/-- Reading to the end is reading call by call. -/
theorem returned_of_readRecords {mode : WALRecoveryMode} {n : ℕ} {r r' : Reader}
    {records : List Bytes} (h : r.readRecords C mode n = .ok (records, r')) :
    r.returned C mode n = records := by
  induction n generalizing r records with
  | zero => cases h
  | succ n ih =>
      obtain ⟨⟨record, r₁⟩, hread, h⟩ := Outcome.bind_eq_ok.mp h
      rw [returned, hread]
      cases record with
      | none =>
          cases h
          rfl
      | some record =>
          obtain ⟨⟨records, r₂⟩, hrest, h⟩ := Outcome.bind_eq_ok.mp h
          cases h
          exact congrArg (record :: ·) (ih hrest)

end Reader

/-- The tag of a ciphertext behind one with tag `prev`. -/
def nextMac (key : Key) (prev : Mac) (ciphertext : Bytes) : Mac := C.tag key prev.val ciphertext

/-- The tags of this chain are those that stand in the file. -/
theorem foldl_nextMac (key : Key) (m : Mac) (fs : List Fragment) :
    (fs.map fun f => C.enc key f.payload).foldl (nextMac C key) m = macAfter C key m fs := by
  induction fs generalizing m with
  | nil => rfl
  | cons f fs ih => exact ih (f.mac C key m)

namespace Reader

/-- The key and the tag to go on from. -/
def secrets (r : Reader) : LogSecrets := ⟨r.uniqueKey, r.previousMac⟩

variable {C}

/-- The accepted payloads are linked by their tags. -/
def LinksFrom (r : Reader) (xs : List Accepted) (r' : Reader) : Prop :=
  xs.map (fun x => (x.aad, x.ciphertext)) =
      TagChain.links (nextMac C r.uniqueKey) r.previousMac (xs.map Accepted.ciphertext) ∧
    r'.secrets = ⟨r.uniqueKey,
      (xs.map Accepted.ciphertext).foldl (nextMac C r.uniqueKey) r.previousMac⟩

theorem LinksFrom.trans {r r₁ r₂ : Reader} {xs ys : List Accepted}
    (h : LinksFrom (C := C) r xs r₁) (h' : LinksFrom (C := C) r₁ ys r₂) :
    LinksFrom (C := C) r (xs ++ ys) r₂ := by
  obtain ⟨hlinks, hsecrets⟩ := h
  obtain ⟨hlinks', hsecrets'⟩ := h'
  obtain ⟨hkey, hmac⟩ := LogSecrets.mk.inj hsecrets
  rw [hkey, hmac] at hlinks' hsecrets'
  constructor
  · rw [List.map_append, List.map_append, TagChain.links_append, hlinks, hlinks']
  · rw [List.map_append, List.foldl_append]
    exact hsecrets'

end Reader

def Turn.reader : Turn → Reader
  | .ret _ r => r
  | .again _ r => r

/-- What a turn leaves open or returns, by the fragment that it was given. -/
def Turn.From (a : Assembly) (p : PhysicalRecord) : Turn → Prop
  | .ret none _ => True
  | .ret (some record) _ => ∃ t, p.code = .record t ∧ (record = p.fragment ∨
      (a.inFragmentedRecord = true ∧ record = a.scratch ++ p.fragment))
  | .again a' _ => a'.inFragmentedRecord = true → ∃ t, p.code = .record t ∧
      (a'.scratch = p.fragment ∨
        (a.inFragmentedRecord = true ∧ a'.scratch = a.scratch ++ p.fragment))

namespace Reader

end Reader

/-- The bytes are those of some payloads, of which there is at least one. -/
def Concatenates (key : Key) (run : List Accepted) (b : Bytes) : Prop :=
  run ≠ [] ∧ ((∀ x ∈ run, x.recyclable = false) → b = run.flatMap fun x => C.dec key x.ciphertext)

variable {C}

theorem Concatenates.append {key : Key} {run run' : List Accepted} {b b' : Bytes}
    (h : Concatenates C key run b) (h' : Concatenates C key run' b') :
    Concatenates C key (run ++ run') (b ++ b') := by
  refine ⟨List.append_ne_nil_of_left_ne_nil h.1 run', ?_⟩
  intro hlegacy
  rw [List.flatMap_append, h.2 fun x hx => hlegacy x (List.mem_append_left _ hx),
    h'.2 fun x hx => hlegacy x (List.mem_append_right _ hx)]

namespace Reader

variable {mode : WALRecoveryMode}

variable (C) (mode) (n : ℕ)

end Reader

end Tweezer.Log
