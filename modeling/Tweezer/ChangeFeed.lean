import Mathlib.Data.List.Nodup
import Tweezer.TransactionLog

/-!
# What the change feed yields

Whatever was written to the log files, `GetUpdatesSince` does not come back once one of them
has a batch in it: the first reader it makes decrypts with whatever its memory held.
-/

namespace Tweezer

open Log

/-- A log file, with the secrets of its writer and the batches that were added to it. -/
structure WalFile where
  logNumber : UInt64
  type : WalFileType
  recycle : Bool
  manualFlush : Bool
  secrets : LogSecrets
  batches : List Bytes

def WalFile.contents (C : Gcm) (f : WalFile) : Bytes :=
  logFile C f.logNumber f.recycle f.manualFlush f.secrets.uniqueKey f.secrets.previousMac f.batches

/-- The log files of a database in the order they were written, the archived ones first, with
batches of contiguous sequence numbers. -/
structure WalHistory where
  files : List WalFile
  ascending : files.Pairwise fun a b => a.logNumber < b.logNumber
  archivedFirst : files.Pairwise fun a b => b.type = .kArchivedLogFile → a.type = .kArchivedLogFile
  wellFormed : ∀ f ∈ files, ∀ b ∈ f.batches, WriteBatchInternal.kHeader ≤ b.length ∧
    0 < WriteBatchInternal.sequence b ∧ 0 < WriteBatchInternal.count b
  contiguous : (files.flatMap WalFile.batches).IsChain fun a b =>
    WriteBatchInternal.sequence b = WriteBatchInternal.sequence a + WriteBatchInternal.count a

namespace WalHistory

variable (C : Gcm) (h : WalHistory)

def batches : List Bytes := h.files.flatMap WalFile.batches

/-- The batches from the one that holds `seq`, or from the oldest, to the last. -/
def since (seq : ℕ) : List Bytes :=
  h.batches.dropWhile fun b =>
    WriteBatchInternal.sequence b + WriteBatchInternal.count b ≤ seq

/-- Some batch ends at `seq` or later. -/
def Reaches (seq : ℕ) : Prop :=
  ∃ b ∈ h.batches, seq < WriteBatchInternal.sequence b + WriteBatchInternal.count b

/-- The directories hold the files of the history, listed in any order. -/
def Fills (dir : WalDir) : Prop :=
  ∀ type, (dir type).Perm ((h.files.filter fun f => f.type = type).map fun f =>
    (f.logNumber, f.contents C))

end WalHistory

/-- `GetUpdatesSince` succeeds, and its iterator yields the batches that it should. -/
def FeedComplete (C : Gcm) (m : WalManager) (o : FeedOptions) (h : WalHistory) (seq : ℕ) : Prop :=
  ∃ it m', m.getUpdatesSince C o seq = .ok (.ok, some it, m') ∧
    ∃ fuel, it.batches C o fuel = .ok (h.since seq)

namespace WalManager

variable {C : Gcm} {m : WalManager}

/-- What a manager finds when it can read none of its files: each is empty, or holds nothing
that verifies under what the reader for it has in its memory. -/
structure Blind (C : Gcm) (m : WalManager) : Prop where
  uncached : m.readFirstRecordCache = []
  unique : ∀ type number file file', (number, file) ∈ m.dir type →
    (number, file') ∈ m.dir type → file = file'
  unreadable : ∀ type number file, (number, file) ∈ m.dir type → file = [] ∨
    kHeaderSize + kMacSize ≤ file.length ∧ ∀ len,
      ¬Verifies C (m.memory type number).uniqueKey (m.memory type number).previousMac file
        kHeaderSize len

theorem readFirstLine_empty (type : WalFileType) (number : UInt64) :
    m.readFirstLine C type number [] = .ok (.ok, 0) := by
  obtain ⟨memory, hmemory⟩ : ∃ s, s = m.memory type number := ⟨_, rfl⟩
  have hs := Reader.synced_create [] true number memory.uniqueKey memory.previousMac
  obtain ⟨r', hnone, hquiet⟩ := Reader.readRecordLoop_of_tail (C := C)
    .kTolerateCorruptedTailRecords 1 .empty hs (by
      rw [Reader.body, hs.remaining]
      simpa using overhead_pos false)
  have hread : (newLogReader (.ofBytes []) true number false m.manifestSecrets memory).readRecord C
      .kTolerateCorruptedTailRecords = .ok (none, r') := hnone
  have hok : r'.status = .ok := by
    rw [Reader.status, hquiet (Or.inl (by decide))]
    rfl
  rw [readFirstLine, ← hmemory, hread, Outcome.ok_bind]
  dsimp only
  rw [hok]

theorem readFirstLine_stops {type : WalFileType} {number : UInt64} {file : Bytes}
    (hl : kHeaderSize + kMacSize ≤ file.length)
    (hv : ∀ len, ¬Verifies C (m.memory type number).uniqueKey (m.memory type number).previousMac
      file kHeaderSize len) :
    ∃ e, m.readFirstLine C type number file = .error e := by
  obtain ⟨e, he⟩ := Reader.readRecord_create_stops (C := C) .kTolerateCorruptedTailRecords true
    number hl hv
  refine ⟨e, ?_⟩
  rw [readFirstLine, newLogReader, if_neg (by decide), he, Outcome.error_bind]

namespace Blind

variable (hm : m.Blind C)
include hm

theorem readFirstRecord {type : WalFileType} {number : UInt64} {file : Bytes}
    (hmem : (number, file) ∈ m.dir type) :
    file = [] ∧ m.readFirstRecord C type number = .ok (.ok, 0, m) ∨
      file ≠ [] ∧ ∃ e, m.readFirstRecord C type number = .error e := by
  have hlookup : (m.dir type).lookup number = some file := by
    cases hfound : (m.dir type).lookup number with
    | none => exact absurd (List.lookup_eq_none_iff.mp hfound (number, file) hmem) (by simp)
    | some file' =>
        obtain ⟨before, after, hsplit, -⟩ := List.lookup_eq_some_iff.mp hfound
        exact congrArg some (hm.unique type number file' file (by simp [hsplit]) hmem)
  have hprobe : m.probe C type number = m.readFirstLine C type number file := by
    cases type with
    | kArchivedLogFile => simp only [probe, hlookup]
    | kAliveLogFile => simp only [probe, hlookup]
  rw [WalManager.readFirstRecord, hm.uncached, List.lookup_nil, hprobe]
  dsimp only
  rcases hm.unreadable type number file hmem with rfl | ⟨hl, hv⟩
  · refine Or.inl ⟨rfl, ?_⟩
    rw [readFirstLine_empty]
    rfl
  · obtain ⟨e, he⟩ := readFirstLine_stops (m := m) hl hv
    refine Or.inr ⟨?_, e, by rw [he, Outcome.error_bind]⟩
    rintro rfl
    exact absurd hl (by decide)

/-- Over a list of files of one type: nothing is found when all are empty, and otherwise the
process stops. By induction on the list. -/
theorem collectWals {type : WalFileType} (entries : List (UInt64 × Bytes))
    (hsub : ∀ e ∈ entries, e ∈ m.dir type) :
    (∀ e ∈ entries, e.2 = []) ∧ WalManager.collectWals C type entries m = .ok (.ok, [], m) ∨
      (∃ e ∈ entries, e.2 ≠ []) ∧ ∃ e, WalManager.collectWals C type entries m = .error e := by
  induction entries with
  | nil => exact Or.inl ⟨fun e he => absurd he List.not_mem_nil, rfl⟩
  | cons entry entries ih =>
      obtain ⟨number, file⟩ := entry
      rw [WalManager.collectWals]
      rcases hm.readFirstRecord (hsub _ List.mem_cons_self) with ⟨rfl, hread⟩ | ⟨hne, e, hread⟩
      · rw [hread, Outcome.ok_bind]
        rcases ih fun e he => hsub e (List.mem_cons_of_mem _ he) with ⟨hall, hrest⟩ | ⟨hex, e, hrest⟩
        · refine Or.inl ⟨?_, ?_⟩
          · intro e he
            rcases List.mem_cons.mp he with rfl | he
            · rfl
            · exact hall e he
          · dsimp only
            rw [if_neg (by simp), hrest]
            rfl
        · obtain ⟨e', he', hne⟩ := hex
          refine Or.inr ⟨⟨e', List.mem_cons_of_mem _ he', hne⟩, e, ?_⟩
          dsimp only
          rw [if_neg (by simp), hrest]
          rfl
      · exact Or.inr ⟨⟨_, List.mem_cons_self, hne⟩, e, by rw [hread, Outcome.error_bind]⟩

theorem getSortedWalsOfType (type : WalFileType) :
    (∀ e ∈ m.dir type, e.2 = []) ∧ m.getSortedWalsOfType C type = .ok (.ok, [], m) ∨
      ∃ e, m.getSortedWalsOfType C type = .error e := by
  rcases hm.collectWals (m.dir type) fun _ he => he with ⟨hall, hwals⟩ | ⟨-, e, hwals⟩
  · exact Or.inl ⟨hall, by simp [WalManager.getSortedWalsOfType, hwals]⟩
  · exact Or.inr ⟨e, by rw [WalManager.getSortedWalsOfType, hwals]; rfl⟩

/-- A file that is not empty, in whichever directory, stops the process. -/
theorem getUpdatesSince_stops {type : WalFileType} {entry : UInt64 × Bytes}
    (hmem : entry ∈ m.dir type) (hne : entry.2 ≠ []) (o : FeedOptions) (seq : ℕ) :
    ∃ e, m.getUpdatesSince C o seq = .error e := by
  have hsorted : ∃ e, m.getSortedWalFiles C = .error e := by
    rw [getSortedWalFiles]
    rcases hm.getSortedWalsOfType .kAliveLogFile with ⟨hall, hwals⟩ | ⟨e, hwals⟩
    · rcases hm.getSortedWalsOfType .kArchivedLogFile with ⟨hall', -⟩ | ⟨e, hwals'⟩
      · cases type with
        | kAliveLogFile => exact absurd (hall entry hmem) hne
        | kArchivedLogFile => exact absurd (hall' entry hmem) hne
      · refine ⟨e, ?_⟩
        rw [hwals, Outcome.ok_bind]
        dsimp only
        rw [if_neg (by simp), hwals']
        rfl
    · exact ⟨e, by rw [hwals]; rfl⟩
  obtain ⟨e, he⟩ := hsorted
  exact ⟨e, by rw [getUpdatesSince, he]; rfl⟩

end Blind

end WalManager

namespace WalHistory

variable {C : Gcm} (h : WalHistory)

theorem eq_of_logNumber {f g : WalFile} (hf : f ∈ h.files) (hg : g ∈ h.files)
    (heq : f.logNumber = g.logNumber) : f = g := by
  have hnodup : (h.files.map WalFile.logNumber).Nodup :=
    List.pairwise_map.mpr (h.ascending.imp UInt64.ne_of_lt)
  exact List.inj_on_of_nodup_map hnodup hf hg heq

theorem mem_dir {dir : WalDir} (hdir : h.Fills C dir) {type : WalFileType} {number : UInt64}
    {file : Bytes} (hmem : (number, file) ∈ dir type) :
    ∃ f ∈ h.files, f.type = type ∧ f.logNumber = number ∧ f.contents C = file := by
  obtain ⟨f, hf, hpair⟩ := List.mem_map.mp ((hdir type).mem_iff.mp hmem)
  obtain ⟨hin, htype⟩ := List.mem_filter.mp hf
  exact ⟨f, hin, of_decide_eq_true htype, congrArg Prod.fst hpair, congrArg Prod.snd hpair⟩

/-- A new manager can read none of the files that the history left. -/
theorem blind {dir : WalDir} (hdir : h.Fills C dir) (paranoidChecks : Bool)
    (manifestSecrets : LogSecrets) (memory : WalFileType → UInt64 → LogSecrets)
    (hauth : ∀ f ∈ h.files, ∀ len, ¬Verifies C (memory f.type f.logNumber).uniqueKey
      (memory f.type f.logNumber).previousMac (f.contents C) kHeaderSize len) :
    (WalManager.create dir paranoidChecks manifestSecrets memory).Blind C := by
  refine ⟨rfl, fun type number file file' hmem hmem' => ?_, fun type number file hmem => ?_⟩
  · obtain ⟨f, hf, -, hnumber, rfl⟩ := h.mem_dir hdir hmem
    obtain ⟨f', hf', -, hnumber', rfl⟩ := h.mem_dir hdir hmem'
    rw [h.eq_of_logNumber hf hf' (hnumber.trans hnumber'.symm)]
  · obtain ⟨f, hf, rfl, rfl, rfl⟩ := h.mem_dir hdir hmem
    by_cases hnil : f.batches = []
    · refine Or.inl ?_
      rw [WalFile.contents, logFile_eq_layout, hnil]
      rfl
    · refine Or.inr ⟨?_, hauth f hf⟩
      have hl := overhead_le_length_logFile C f.logNumber f.recycle f.manualFlush
        f.secrets.uniqueKey f.secrets.previousMac hnil
      have ho : overhead false ≤ overhead f.recycle := by cases f.recycle <;> decide
      exact ho.trans hl

end WalHistory

/-- The change feed is never complete, as long as no file verifies by chance under the memory
of the reader that probes it. -/
theorem feedComplete_never (C : Gcm) (h : WalHistory) (dir : WalDir) (hdir : h.Fills C dir)
    (paranoidChecks : Bool) (manifestSecrets : LogSecrets)
    (memory : WalFileType → UInt64 → LogSecrets) (o : FeedOptions) (seq : ℕ)
    (hseq : h.Reaches seq)
    (hauth : ∀ f ∈ h.files, ∀ len, ¬Verifies C (memory f.type f.logNumber).uniqueKey
      (memory f.type f.logNumber).previousMac (f.contents C) kHeaderSize len) :
    ¬FeedComplete C (.create dir paranoidChecks manifestSecrets memory) o h seq := by
  rintro ⟨it, m', hupdates, -⟩
  obtain ⟨b, hb, -⟩ := hseq
  obtain ⟨f, hf, hbf⟩ := List.mem_flatMap.mp hb
  have hmem : (f.logNumber, f.contents C) ∈ dir f.type := by
    refine (hdir f.type).mem_iff.mpr (List.mem_map.mpr ⟨f, ?_, rfl⟩)
    exact List.mem_filter.mpr ⟨hf, decide_eq_true rfl⟩
  have hne : f.contents C ≠ [] := by
    have hl := overhead_le_length_logFile C f.logNumber f.recycle f.manualFlush
      f.secrets.uniqueKey f.secrets.previousMac (List.ne_nil_of_mem hbf)
    intro hnil
    rw [WalFile.contents] at hnil
    rw [hnil] at hl
    exact absurd hl (by cases f.recycle <;> decide)
  obtain ⟨e, he⟩ := (h.blind hdir paranoidChecks manifestSecrets memory hauth).getUpdatesSince_stops
    hmem hne o seq
  rw [he] at hupdates
  cases hupdates

/-- One alive file with one batch, of sequence number 1 and count 1. -/
def sampleWal : WalFile :=
  ⟨5, .kAliveLogFile, false, false, ⟨sampleKey, sampleMac⟩, [[1, 0, 0, 0, 0, 0, 0, 0, 1, 0, 0, 0]]⟩

def sampleHistory : WalHistory where
  files := [sampleWal]
  ascending := List.pairwise_singleton _ _
  archivedFirst := List.pairwise_singleton _ _
  wellFormed := by decide
  contiguous := by decide

def sampleDir : WalDir
  | .kAliveLogFile => [(5, sampleWal.contents sampleGcm)]
  | .kArchivedLogFile => []

def sampleFeed : FeedOptions :=
  ⟨sampleDir, true, 1, false, fun _ => 0, ⟨sampleKey, sampleMac⟩, fun _ _ => zeroMemory⟩

/-- The change feed of that file, from its first sequence number, does not come back. -/
theorem sampleFeed_not_complete :
    ¬FeedComplete sampleGcm
      (.create sampleDir true ⟨sampleKey, sampleMac⟩ fun _ _ => zeroMemory) sampleFeed
      sampleHistory 1 := by
  rintro ⟨it, m', hupdates, -⟩
  have hstop : ((WalManager.create sampleDir true ⟨sampleKey, sampleMac⟩
      fun _ _ => zeroMemory).getUpdatesSince sampleGcm sampleFeed 1).isOk = false := by
    decide +kernel
  rw [hupdates] at hstop
  cases hstop

theorem feedComplete_never_sample :
    ¬FeedComplete sampleGcm
      (.create sampleDir true ⟨sampleKey, sampleMac⟩ fun _ _ => zeroMemory) sampleFeed
      sampleHistory 1 := by
  refine feedComplete_never sampleGcm sampleHistory sampleDir ?_ true ⟨sampleKey, sampleMac⟩
    (fun _ _ => zeroMemory) sampleFeed 1 ?_ ?_
  · intro type
    cases type <;> exact List.Perm.refl _
  · exact ⟨_, List.mem_singleton_self _, by decide⟩
  · intro f hf len hv
    obtain rfl := List.mem_singleton.mp hf
    have hlen : (sampleWal.contents sampleGcm).length = 35 := by decide +kernel
    have hwindows : ∀ len < 35, ¬Verifies sampleGcm zeroMemory.uniqueKey zeroMemory.previousMac
        (sampleWal.contents sampleGcm) kHeaderSize len := by
      unfold Verifies
      decide +kernel
    have hbound := hv.1
    exact hwindows len (by omega) hv

end Tweezer
