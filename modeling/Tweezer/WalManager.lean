import Tweezer.Coding
import Tweezer.LogRoundTrip

/-!
# Finding the log files for a sequence number

`db/wal_manager.cc`. Every log file is probed for the sequence number of its first batch; the
files that cannot hold the wanted one are cut off by a binary search. The reader that probes
a file is never given the secrets the file was written with.
-/

namespace Tweezer

open Log

namespace WriteBatchInternal

/-- Eight bytes of sequence number and four of count. -/
def kHeader : ℕ := 12

def sequence (rep : Bytes) : ℕ := Bytes.leDecode (rep.slice 0 8)

def count (rep : Bytes) : ℕ := Bytes.leDecode (rep.slice 8 4)

end WriteBatchInternal

inductive WalFileType where
  | kArchivedLogFile
  | kAliveLogFile
  deriving DecidableEq, Repr

structure LogFile where
  logNumber : UInt64
  type : WalFileType
  startSequence : ℕ
  sizeFileBytes : ℕ
  deriving DecidableEq, Repr

/-- The log files in the two directories, in the order in which `GetChildren` lists them. -/
abbrev WalDir := WalFileType → List (UInt64 × Bytes)

/-- A `WalManager`. `memory` is what the reader made to probe a file finds in the places for
the secrets; `manifestSecrets` are the constants that only a reader of a MANIFEST takes. -/
structure WalManager where
  dir : WalDir
  paranoidChecks : Bool
  readFirstRecordCache : List (UInt64 × ℕ)
  manifestSecrets : LogSecrets
  memory : WalFileType → UInt64 → LogSecrets

namespace WalManager

variable (C : Gcm) (m : WalManager)

/-- `ReadFirstLine` on a file that exists: a status and the first sequence number, zero for an
empty file. -/
def readFirstLine (type : WalFileType) (number : UInt64) (file : Bytes) :
    Outcome (ReadStatus × ℕ) := do
  let (record, r) ← (newLogReader (.ofBytes file) true number false m.manifestSecrets
    (m.memory type number)).readRecord C .kTolerateCorruptedTailRecords
  match record with
  | none => .ok (r.status, 0)
  | some record =>
      if r.status = .ok ∨ m.paranoidChecks = false then
        if record.length < WriteBatchInternal.kHeader then
          .ok (if r.status = .ok then .returned "log record too small" else r.status, 0)
        else .ok (.ok, WriteBatchInternal.sequence record)
      else .ok (r.status, 0)

/-- The part of `ReadFirstRecord` that reads, with the archive as the second place. -/
def probe (type : WalFileType) (number : UInt64) : Outcome (ReadStatus × ℕ) :=
  let archived : Outcome (ReadStatus × ℕ) :=
    match (m.dir .kArchivedLogFile).lookup number with
    | some file => m.readFirstLine C .kArchivedLogFile number file
    | none => .ok (.ok, 0)
  match type, (m.dir .kAliveLogFile).lookup number with
  | .kAliveLogFile, some file => m.readFirstLine C .kAliveLogFile number file
  | _, _ => archived

def readFirstRecord (type : WalFileType) (number : UInt64) :
    Outcome (ReadStatus × ℕ × WalManager) :=
  match m.readFirstRecordCache.lookup number with
  | some sequence => .ok (.ok, sequence, m)
  | none => do
      let (status, sequence) ← m.probe C type number
      if status = .ok ∧ sequence ≠ 0 then
        .ok (status, sequence,
          { m with readFirstRecordCache := (number, sequence) :: m.readFirstRecordCache })
      else .ok (status, sequence, m)

/-- The loop of `GetSortedWalsOfType` over the files of a directory. -/
def collectWals (type : WalFileType) :
    List (UInt64 × Bytes) → WalManager → Outcome (ReadStatus × List LogFile × WalManager)
  | [], m => .ok (.ok, [], m)
  | (number, file) :: entries, m => do
      let (status, sequence, m) ← m.readFirstRecord C type number
      if status ≠ .ok then .ok (status, [], m)
      else do
        let (status, files, m) ← collectWals type entries m
        if sequence = 0 then .ok (status, files, m)
        else .ok (status, ⟨number, type, sequence, file.length⟩ :: files, m)

def getSortedWalsOfType (type : WalFileType) :
    Outcome (ReadStatus × List LogFile × WalManager) := do
  let (status, files, m) ← collectWals C type (m.dir type) m
  .ok (status, files.mergeSort (fun a b => a.logNumber ≤ b.logNumber), m)

/-- The archived files, then those of the others that are later than all of them. -/
def getSortedWalFiles : Outcome (ReadStatus × List LogFile × WalManager) := do
  let (status, logs, m) ← m.getSortedWalsOfType C .kAliveLogFile
  if status ≠ .ok then .ok (status, [], m)
  else do
    let (status, files, m) ← m.getSortedWalsOfType C .kArchivedLogFile
    if status ≠ .ok then .ok (status, files, m)
    else
      let latestArchivedLogNumber := (files.getLast?.map LogFile.logNumber).getD 0
      .ok (.ok, files ++ logs.filter fun log => latestArchivedLogNumber < log.logNumber, m)

end WalManager

/-- The binary search of `RetainProbableWalFiles`, for at most `fuel` turns: the last value of
`end`. -/
def retainLoop (starts : ℕ → ℕ) (target : ℕ) : ℕ → ℤ → ℤ → ℤ
  | 0, _, last => last
  | fuel + 1, first, last =>
      if first ≤ last then
        let mid := first + (last - first) / 2
        if starts mid.toNat = target then mid
        else if starts mid.toNat < target then retainLoop starts target fuel (mid + 1) last
        else retainLoop starts target fuel first (mid - 1)
      else last

def retainProbableWalFiles (allLogs : List LogFile) (target : ℕ) : List LogFile :=
  let last := retainLoop (fun i => (allLogs.map LogFile.startSequence).getD i 0) target
    (allLogs.length + 1) 0 (allLogs.length - 1)
  allLogs.drop (max 0 last).toNat

/-- What the binary search ends with: everything up to there starts at or before the target,
and everything behind it starts later. -/
theorem retainLoop_spec {starts : ℕ → ℕ} {n : ℕ} (target : ℕ)
    (hmono : ∀ i j, i < j → j < n → starts i < starts j) (fuel : ℕ) (first last : ℤ)
    (hfirst : 0 ≤ first) (hlast : last < n) (hle : first ≤ last + 1)
    (hfuel : last - first + 1 < fuel) (hlow : ∀ i : ℕ, i < first → starts i < target)
    (hhigh : ∀ i : ℕ, last < i → i < n → target < starts i) :
    retainLoop starts target fuel first last < n ∧
      (∀ i : ℕ, i ≤ retainLoop starts target fuel first last → starts i ≤ target) ∧
      ∀ i : ℕ, retainLoop starts target fuel first last < i → i < n → target < starts i := by
  induction fuel generalizing first last with
  | zero => omega
  | succ fuel ih =>
      rw [retainLoop]
      by_cases hgo : first ≤ last
      · rw [if_pos hgo]
        obtain ⟨mid, hmid⟩ : ∃ mid : ℕ, first + (last - first) / 2 = mid :=
          ⟨(first + (last - first) / 2).toNat, by omega⟩
        simp only [hmid, Int.toNat_natCast]
        have hbelow : ∀ i : ℕ, i < mid → starts i < starts mid := fun i hi =>
          hmono i mid hi (by omega)
        have habove : ∀ i : ℕ, mid < i → i < n → starts mid < starts i := fun i hi hn =>
          hmono mid i hi hn
        by_cases heq : starts mid = target
        · rw [if_pos heq]
          refine ⟨by omega, fun i hi => ?_, fun i hi hn => ?_⟩
          · rcases Nat.lt_or_eq_of_le (Int.ofNat_le.mp hi) with hlt | rfl
            · exact heq ▸ (hbelow i hlt).le
            · exact heq.le
          · exact heq ▸ habove i (by omega) hn
        · rw [if_neg heq]
          by_cases hlt : starts mid < target
          · rw [if_pos hlt]
            refine ih _ _ (by omega) hlast (by omega) (by omega) (fun i hi => ?_) hhigh
            rcases Nat.lt_or_eq_of_le (show i ≤ mid by omega) with h | rfl
            · exact (hbelow i h).trans hlt
            · exact hlt
          · rw [if_neg hlt]
            have hgt : target < starts mid := lt_of_le_of_ne (not_lt.mp hlt) (Ne.symm heq)
            refine ih _ _ hfirst (by omega) (by omega) (by omega) hlow fun i hi hn => ?_
            rcases Nat.lt_or_eq_of_le (show mid ≤ i by omega) with h | rfl
            · exact hgt.trans (habove i h hn)
            · exact hgt
      · rw [if_neg hgo]
        exact ⟨hlast, fun i hi => (hlow i (by omega)).le, hhigh⟩

/-- Of files in the order of their first batches, `RetainProbableWalFiles` keeps the last that
starts at or before the target, and those behind it; all of them when every file starts
later. -/
theorem retainProbableWalFiles_spec {allLogs : List LogFile} {target : ℕ}
    (hsorted : allLogs.Pairwise fun a b => a.startSequence < b.startSequence) :
    ∃ k, retainProbableWalFiles allLogs target = allLogs.drop k ∧
      (k = 0 ∨ ∃ log, allLogs[k]? = some log ∧ log.startSequence ≤ target) ∧
      ∀ i log, k < i → allLogs[i]? = some log → target < log.startSequence := by
  have hstart : ∀ i log, allLogs[i]? = some log →
      (allLogs.map LogFile.startSequence).getD i 0 = log.startSequence := by
    intro i log h
    rw [List.getD_eq_getElem?_getD, List.getElem?_map, h]
    rfl
  have hmono : ∀ i j, i < j → j < allLogs.length →
      (allLogs.map LogFile.startSequence).getD i 0 <
        (allLogs.map LogFile.startSequence).getD j 0 := by
    intro i j hij hj
    rw [hstart i _ (List.getElem?_eq_getElem (hij.trans hj)),
      hstart j _ (List.getElem?_eq_getElem hj)]
    exact List.pairwise_iff_getElem.mp hsorted i j (hij.trans hj) hj hij
  obtain ⟨hlt, hlow, hhigh⟩ := retainLoop_spec target hmono (allLogs.length + 1) 0
    (allLogs.length - 1) (le_refl _) (by omega) (by omega) (by omega) (fun i hi => by omega)
    (fun i hi hn => by omega)
  obtain ⟨last, hdef⟩ : ∃ last, last = retainLoop
      (fun i => (allLogs.map LogFile.startSequence).getD i 0) target (allLogs.length + 1) 0
      (allLogs.length - 1) := ⟨_, rfl⟩
  rw [← hdef] at hlt hlow hhigh
  refine ⟨(max 0 last).toNat, by rw [retainProbableWalFiles, hdef], ?_, fun i log hi hlog => ?_⟩
  · rcases lt_or_ge last 0 with hneg | hpos
    · exact Or.inl (by omega)
    · have hk : (max 0 last).toNat < allLogs.length := by omega
      refine Or.inr ⟨_, List.getElem?_eq_getElem hk, ?_⟩
      rw [← hstart _ _ (List.getElem?_eq_getElem hk)]
      exact hlow _ (by omega)
  · obtain ⟨hn, -⟩ := List.getElem?_eq_some_iff.mp hlog
    rw [← hstart i log hlog]
    exact hhigh i (by omega) hn

end Tweezer
