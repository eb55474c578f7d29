import Tweezer.Coding
import Tweezer.LogRoundTrip

/-!
# The readers of a MANIFEST

`VersionEditHandlerBase::Iterate` of `db/version_edit_handler.cc` and the four functions of
`db/version_set.cc` that call it, each on a reader of its own. Only `Recover` asks for a
reader that holds the manifest key; in the others the members for the key and the MAC are
never set.
-/

namespace Tweezer

open Log

/-- What `Iterate` uses of `VersionEdit`: its encoding, and its place in an atomic group. -/
structure VersionEditFormat (E : Type) where
  encodeTo : E → Bytes
  decodeFrom : Bytes → Except String E
  isInAtomicGroup : E → Bool
  remainingEntries : E → ℕ

/-- The functions that the subclasses of `VersionEditHandlerBase` give, on a state `σ` of
their own. -/
structure VersionEditHandler (E σ : Type) where
  start : ReadStatus × σ
  applyVersionEdit : σ → E → ReadStatus × σ
  checkIterationResult : ReadStatus → σ → ReadStatus × σ

structure AtomicGroupReadBuffer (E : Type) where
  readEditsInAtomicGroup : ℕ
  size : ℕ
  replayBuffer : List E

namespace AtomicGroupReadBuffer

variable {E : Type} (F : VersionEditFormat E)

def empty : AtomicGroupReadBuffer E := ⟨0, 0, []⟩

def isFull (b : AtomicGroupReadBuffer E) : Bool := b.readEditsInAtomicGroup = b.size

def addEdit (b : AtomicGroupReadBuffer E) (e : E) : ReadStatus × AtomicGroupReadBuffer E :=
  if F.isInAtomicGroup e then
    let size := if b.size = 0 then u32 (F.remainingEntries e + 1) else b.size
    let read := b.readEditsInAtomicGroup + 1
    if read + F.remainingEntries e ≠ size then
      (.returned "corrupted atomic group", ⟨read, size, b.replayBuffer⟩)
    else (.ok, ⟨read, size, b.replayBuffer ++ [e]⟩)
  else if b.size ≠ 0 then (.returned "corrupted atomic group", b)
  else (.ok, b)

end AtomicGroupReadBuffer

namespace VersionEditHandler

variable {E σ : Type} (C : Gcm) (F : VersionEditFormat E) (h : VersionEditHandler E σ)

/-- Applying edits one after another, up to the first that fails. -/
def applyAll : σ → List E → ReadStatus × σ
  | s, [] => (.ok, s)
  | s, e :: es =>
      match h.applyVersionEdit s e with
      | (.ok, s) => applyAll s es
      | (status, s) => (status, s)

/-- The body of the loop of `Iterate` for one edit. -/
def turn (b : AtomicGroupReadBuffer E) (s : σ) (e : E) :
    ReadStatus × AtomicGroupReadBuffer E × σ :=
  match b.addEdit F e with
  | (.ok, b) =>
      if F.isInAtomicGroup e then
        if b.isFull then
          match h.applyAll s b.replayBuffer with
          | (.ok, s) => (.ok, .empty, s)
          | (status, s) => (status, b, s)
        else (.ok, b, s)
      else
        let (status, s) := h.applyVersionEdit s e
        (status, b, s)
  | (status, b) => (status, b, s)

/-- The loop of `Iterate`, for at most `fuel` records. -/
def iterateLoop : ℕ → Reader → AtomicGroupReadBuffer E → σ → Outcome (ReadStatus × σ)
  | 0, _, _, _ => .error .diverged
  | fuel + 1, r, b, s => do
      let (record, r) ← r.readRecord C .kTolerateCorruptedTailRecords
      match record, r.status with
      | some record, .ok =>
          match F.decodeFrom record with
          | .error message => .ok (.returned message, s)
          | .ok e =>
              match h.turn F b s e with
              | (.ok, b, s) => iterateLoop fuel r b s
              | (status, _, s) => .ok (status, s)
      | _, status => .ok (status, s)

def iterate (r : Reader) : Outcome (ReadStatus × σ) :=
  match h.start with
  | (.ok, s) => do
      let (status, s) ← h.iterateLoop C F (r.remaining.length + 2) r .empty s
      .ok (h.checkIterationResult status s)
  | (status, s) => .ok (h.checkIterationResult status s)

/-- What the handler makes of a sequence of edits that it is handed one by one. -/
def replayLoop : AtomicGroupReadBuffer E → σ → List E → ReadStatus × σ
  | _, s, [] => (.ok, s)
  | b, s, e :: es =>
      match h.turn F b s e with
      | (.ok, b, s) => replayLoop b s es
      | (status, _, s) => (status, s)

def replay (edits : List E) : ReadStatus × σ :=
  match h.start with
  | (.ok, s) =>
      let (status, s) := h.replayLoop F .empty s edits
      h.checkIterationResult status s
  | (status, s) => h.checkIterationResult status s

end VersionEditHandler

/-- The entry points that read a MANIFEST. -/
inductive ManifestEntryPoint where
  | recover
  | tryRecoverFromOneManifest
  | listColumnFamilies
  | dumpManifest
  deriving DecidableEq, Repr

/-- The last argument of the constructor of `log::Reader`, which is left out everywhere but
in `Recover`. -/
def ManifestEntryPoint.manifest : ManifestEntryPoint → Bool
  | recover => true
  | tryRecoverFromOneManifest | listColumnFamilies | dumpManifest => false

section Manifest

variable {E : Type} (C : Gcm) (F : VersionEditFormat E) (secrets : LogSecrets)

/-- The MANIFEST to which `edits` were added, one record each. -/
def manifestFile (edits : List E) : Bytes :=
  logFile C 0 false false secrets.uniqueKey secrets.previousMac (edits.map F.encodeTo)

/-- An entry point on a MANIFEST. -/
def ManifestEntryPoint.read {σ : Type} (p : ManifestEntryPoint) (memory : LogSecrets)
    (h : VersionEditHandler E σ) (file : Bytes) : Outcome (ReadStatus × σ) :=
  h.iterate C F (newLogReader (.ofBytes file) true 0 p.manifest secrets memory)

/-- Every entry point hands its handler, whichever that is, the edits that were written. -/
def ManifestReadersAgree (memory : ManifestEntryPoint → LogSecrets) (edits : List E) : Prop :=
  ∀ (p : ManifestEntryPoint) (σ : Type) (h : VersionEditHandler E σ),
    p.read C F secrets (memory p) h (manifestFile C F secrets edits) = .ok (h.replay F edits)

variable {C F secrets}

/-- The loop over a log of edits does what the handler does with the edits: by induction on
them, the reader standing in front of the first. -/
theorem VersionEditHandler.iterateLoop_layout {σ : Type} (h : VersionEditHandler E σ)
    (edits : List E) (hcode : ∀ e ∈ edits, F.decodeFrom (F.encodeTo e) = .ok e) (fuel : ℕ)
    {r : Reader} {key : Key} {logNumber : UInt64} {off : ℕ} {m : Mac}
    (b : AtomicGroupReadBuffer E) (s : σ)
    (hs : r.Synced key off m
      (layout C key logNumber false off m (logFragments false off (edits.map F.encodeTo))))
    (hrep : r.reports = []) (hfuel : edits.length < fuel) :
    h.iterateLoop C F fuel r b s = .ok (h.replayLoop F b s edits) := by
  induction edits generalizing r off m b s fuel with
  | nil =>
      obtain ⟨fuel, rfl⟩ := Nat.exists_eq_add_one.mpr (Nat.zero_lt_of_lt hfuel)
      obtain ⟨r', hnone, hquiet⟩ := Reader.readRecordLoop_of_tail (C := C)
        .kTolerateCorruptedTailRecords (r.remaining.length + 1) .empty hs (by
          rw [Reader.body, hs.remaining]
          simpa [logFragments, layout] using overhead_pos false)
      have hread : r.readRecord C .kTolerateCorruptedTailRecords = .ok (none, r') := hnone
      have hempty : r'.status = .ok := by rw [Reader.status, (hquiet (Or.inl (by decide))).trans hrep]
      rw [iterateLoop, hread, Outcome.ok_bind]
      dsimp only
      rw [hempty]
      rfl
  | cons e edits ih =>
      obtain ⟨fuel, rfl⟩ := Nat.exists_eq_add_one.mpr (Nat.zero_lt_of_lt hfuel)
      rw [List.map_cons, logFragments, layout_append] at hs
      obtain ⟨r', hread, hs', hrep'⟩ :=
        Reader.readRecord_fragments .kTolerateCorruptedTailRecords hs
      rw [iterateLoop, hread, Outcome.ok_bind, replayLoop]
      have hok : r'.status = .ok := by rw [Reader.status, hrep'.trans hrep]
      dsimp only
      rw [hok]
      dsimp only
      rw [hcode e List.mem_cons_self]
      dsimp only
      rcases h.turn F b s e with ⟨status, b', s'⟩
      cases status with
      | ok =>
          exact ih (fun e he => hcode e (List.mem_cons_of_mem _ he)) fuel b' s' hs'
            (hrep'.trans hrep) (Nat.lt_of_succ_lt_succ hfuel)
      | reported reason => rfl
      | returned message => rfl

/-- A reader that holds the secrets the MANIFEST was written with hands on every edit. -/
theorem VersionEditHandler.iterate_manifestFile {σ : Type} (h : VersionEditHandler E σ)
    (edits : List E) (hcode : ∀ e ∈ edits, F.decodeFrom (F.encodeTo e) = .ok e) :
    h.iterate C F (.create (.ofBytes (manifestFile C F secrets edits)) true 0 secrets.uniqueKey
      secrets.previousMac) = .ok (h.replay F edits) := by
  have hfile := logFile_eq_layout C 0 false false secrets.uniqueKey secrets.previousMac
    (edits.map F.encodeTo)
  have hs := Reader.synced_create (manifestFile C F secrets edits) true 0 secrets.uniqueKey
    secrets.previousMac
  have hlen : edits.length ≤ (manifestFile C F secrets edits).length := by
    have hrecords := length_le_length_logFragments false 0 (edits.map F.encodeTo)
    have hbytes := length_le_length_layout C secrets.uniqueKey 0 false 0 secrets.previousMac
      (logFragments false 0 (edits.map F.encodeTo))
    rw [List.length_map] at hrecords
    rw [manifestFile, hfile]
    exact hrecords.trans hbytes
  have hfuel : edits.length < (Reader.create (.ofBytes (manifestFile C F secrets edits)) true 0
      secrets.uniqueKey secrets.previousMac).remaining.length + 2 := by
    rw [hs.remaining]
    omega
  rw [iterate, replay]
  rcases h.start with ⟨status, s⟩
  cases status with
  | ok =>
      dsimp only
      rw [h.iterateLoop_layout edits hcode _ .empty s (by
        rw [layout_kBlockSize, logFragments_kBlockSize, ← hfile]
        exact hs) rfl hfuel]
      rfl
  | reported reason => rfl
  | returned message => rfl

/-- A reader that finds nothing that verifies under what it holds stops the process, before
its handler is given an edit. -/
theorem VersionEditHandler.iterate_stops {σ : Type} (h : VersionEditHandler E σ) {s : σ}
    (hstart : h.start = (.ok, s)) {file : Bytes} {held : LogSecrets}
    (hl : kHeaderSize + kMacSize ≤ file.length)
    (hv : ∀ len, ¬Verifies C held.uniqueKey held.previousMac file kHeaderSize len) :
    ∃ e, h.iterate C F (.create (.ofBytes file) true 0 held.uniqueKey held.previousMac) =
      .error e := by
  obtain ⟨e, he⟩ := Reader.readRecord_create_stops (C := C)
    .kTolerateCorruptedTailRecords true 0 hl hv
  refine ⟨e, ?_⟩
  rw [iterate, hstart]
  dsimp only
  rw [iterateLoop, he]
  rfl

/-- The functions that read a MANIFEST agree on the edits in it exactly when there are
none, as long as none of it verifies by chance under the memory they leave unset. -/
theorem manifestReadersAgree_iff (C : Gcm) (F : VersionEditFormat E) (secrets : LogSecrets)
    (memory : ManifestEntryPoint → LogSecrets) (edits : List E)
    (hauth : ∀ p : ManifestEntryPoint, p.manifest = false → ∀ len,
      ¬Verifies C (memory p).uniqueKey (memory p).previousMac (manifestFile C F secrets edits)
        kHeaderSize len) :
    ManifestReadersAgree C F secrets memory edits ↔ edits = [] := by
  constructor
  · intro hagree
    by_contra hne
    let h : VersionEditHandler E Unit := ⟨(.ok, ()), fun _ _ => (.ok, ()), fun st _ => (st, ())⟩
    have hread := hagree .listColumnFamilies Unit h
    obtain ⟨e, he⟩ := h.iterate_stops (F := F) rfl
      (overhead_le_length_logFile C 0 false false secrets.uniqueKey secrets.previousMac
        (fun hnil => hne (List.map_eq_nil_iff.mp hnil)))
      (hauth .listColumnFamilies rfl)
    have hstop : ManifestEntryPoint.listColumnFamilies.read C F secrets
        (memory .listColumnFamilies) h (manifestFile C F secrets edits) = .error e := he
    rw [hstop] at hread
    cases hread
  · rintro rfl p σ h
    have hempty : ∀ s : LogSecrets, manifestFile C F s [] = [] := fun s => by
      rw [manifestFile, logFile_eq_layout]
      rfl
    obtain ⟨held, hheld⟩ : ∃ s, s = if p.manifest then secrets else memory p := ⟨_, rfl⟩
    have hread := @VersionEditHandler.iterate_manifestFile E C F held σ h []
      fun _ he => absurd he List.not_mem_nil
    rw [hempty] at hread
    rw [ManifestEntryPoint.read, newLogReader, hempty, ← hheld]
    exact hread

end Manifest

/-- An encoding of bytes by themselves, in no group. -/
def bytesFormat : VersionEditFormat Bytes := ⟨id, .ok, fun _ => false, fun _ => 0⟩

def sampleSecrets : LogSecrets := ⟨sampleKey, sampleMac⟩

/-- On a MANIFEST of one edit the functions do not agree. -/
theorem oneEdit_not_agree :
    ¬ManifestReadersAgree sampleGcm bytesFormat sampleSecrets (fun _ => zeroMemory) [[1, 2]] := by
  intro hagree
  have hread := hagree .listColumnFamilies Unit
    ⟨(.ok, ()), fun _ _ => (.ok, ()), fun st _ => (st, ())⟩
  have hstop : (ManifestEntryPoint.listColumnFamilies.read sampleGcm bytesFormat sampleSecrets
      zeroMemory (⟨(.ok, ()), fun _ _ => (.ok, ()), fun st _ => (st, ())⟩ :
        VersionEditHandler Bytes Unit)
      (manifestFile sampleGcm bytesFormat sampleSecrets [[1, 2]])).isOk = false := by
    decide +kernel
  rw [hread] at hstop
  cases hstop

theorem manifestReadersAgree_iff_oneEdit :
    ManifestReadersAgree sampleGcm bytesFormat sampleSecrets (fun _ => zeroMemory) [[1, 2]] ↔
      ([[1, 2]] : List Bytes) = [] := by
  refine manifestReadersAgree_iff sampleGcm bytesFormat sampleSecrets (fun _ => zeroMemory)
    [[1, 2]] fun p _ len hv => ?_
  have hlen : (manifestFile sampleGcm bytesFormat sampleSecrets [[1, 2]]).length = 25 := by
    decide +kernel
  have hwindows : ∀ len < 25, ¬Verifies sampleGcm zeroMemory.uniqueKey zeroMemory.previousMac
      (manifestFile sampleGcm bytesFormat sampleSecrets [[1, 2]]) kHeaderSize len := by
    unfold Verifies
    decide +kernel
  have hbound := hv.1
  exact hwindows len (by omega) hv

end Tweezer
