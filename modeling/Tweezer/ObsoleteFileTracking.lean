import Tweezer.ObsoleteFileKeys

/-!
# Keys that are on their way out

What must hold before an event for no key to be left behind: only the background calls of
flushes and compactions write out what they purged, so no other purge may take a table with a
key, and no job may end with a table that is neither installed nor left for its own scan. Then
every key is the key of a table that is in use, obsolete, or found by a background call.
-/

namespace Tweezer

namespace DbFiles

variable {s s' : DbFiles} {number : UInt64}

/-- A table that the full scan of a job that ends takes: it is still in a directory, no other
purge has it, and no older job holds it back. -/
def Scanned (s : DbFiles) (job : ℕ) (number : UInt64) : Prop :=
  s.disableDeleteObsoleteFiles = 0 ∧ number ∈ s.tables ∧ s.shouldPurge number = true ∧
    ∀ other ∈ s.jobs.eraseIdx job, number < other.captured

instance (s : DbFiles) (job : ℕ) (number : UInt64) : Decidable (s.Scanned job number) :=
  inferInstanceAs (Decidable (_ ∧ _ ∧ _ ∧ _))

instance (s : DbFiles) (number : UInt64) : Decidable (s.PendingOutput number) :=
  inferInstanceAs (Decidable (∃ job ∈ s.jobs, number ∈ job.outputs))

/-- Every output of the job that has a key is live, or was. -/
def OutputsInstalled (s : DbFiles) (job : Job) : Prop :=
  ∀ number ∈ job.outputs, s.HasKey number → number ∈ s.liveFiles ∨ number ∈ s.obsoleteFiles

instance (s : DbFiles) (job : Job) : Decidable (s.OutputsInstalled job) :=
  List.decidableBAll _ job.outputs

/-- The same, or the scan with which the job ends takes it. -/
def OutputsTaken (s : DbFiles) (i : ℕ) (fullScan : Bool) (job : Job) : Prop :=
  ∀ number ∈ job.outputs, s.HasKey number → number ∈ s.liveFiles ∨ number ∈ s.obsoleteFiles ∨
    fullScan = true ∧ s.Scanned i number

instance (s : DbFiles) (i : ℕ) (fullScan : Bool) (job : Job) :
    Decidable (s.OutputsTaken i fullScan job) := List.decidableBAll _ job.outputs

/-- No table in `obsolete_files_` that may be deleted now has a key. -/
def PurgesNoKey (s : DbFiles) : Prop :=
  ∀ number ∈ s.obsoleteFiles, s.HasKey number →
    number ∈ s.liveFiles ∨ s.minObsoleteSstNumberToKeep ≤ number

instance (s : DbFiles) : Decidable s.PurgesNoKey := List.decidableBAll _ s.obsoleteFiles

/-- Nothing is under way, and no version is left but the current ones. -/
def ClosedCleanly (s : DbFiles) : Prop :=
  s.jobs = [] ∧ s.found = [] ∧ s.writeOuts = [] ∧ s.obsoleteFiles = [] ∧
    ∀ v ∈ s.versions, v.current = true

/-- What must hold before an event for no key to be left behind. -/
def LeavesNoKey (s : DbFiles) : DbFilesEvent → Prop
  | .finishBackgroundJob i force periodElapsed => ∀ job ∈ s.jobs[i]?,
      s.OutputsTaken i (doingTheFullScan force false periodElapsed) job
  | .releaseJob i => ∀ job ∈ s.jobs[i]?, s.OutputsInstalled job
  | .enableFileDeletions force =>
      force = true ∨ s.disableDeleteObsoleteFiles ≤ 1 → s.PurgesNoKey
  | .findObsoleteFiles _ _ _ => s.disableDeleteObsoleteFiles = 0 → s.PurgesNoKey
  | .logSstDeletion _ logged => logged = true
  | .switchManifest => s.ManifestUnused
  | .reopen _ recovered => s.ClosedCleanly ∧ ∀ t ∈ recovered, t.hasOutput = true
  | _ => True

/-- In a run each event meets the conditions. -/
def LeavesNoKeys : DbFiles → List DbFilesEvent → Prop
  | _, [] => True
  | s, event :: events => (s.NumbersLeft event ∧ s.LeavesNoKey event) ∧
      ∀ s' ∈ s.step event, LeavesNoKeys s' events

instance decidableNumbersLeft (s : DbFiles) (event : DbFilesEvent) :
    Decidable (s.NumbersLeft event) :=
  match event with
  | .newFileNumber | .openOutput _ _ => inferInstanceAs (Decidable (_ < _))
  | .reopen _ _ => inferInstanceAs (Decidable (_ < _))
  | .startJob | .removeOutput _ _ | .logSstKey _ _ | .logAndApply _ _ _ _
  | .finishBackgroundJob _ _ _ | .releaseJob _ | .refVersion _ | .unrefVersion _ | .readTable _
  | .disableFileDeletions | .enableFileDeletions _ | .findObsoleteFiles _ _ _
  | .purgeObsoleteFiles _ _ _ | .logSstDeletion _ _ | .deleteSstKeys _ | .deleteScheduled _
  | .switchManifest => instDecidableTrue

instance decidableLeavesNoKey (s : DbFiles) (event : DbFilesEvent) :
    Decidable (s.LeavesNoKey event) :=
  match event with
  | .finishBackgroundJob i force periodElapsed =>
      inferInstanceAs (Decidable (∀ job ∈ s.jobs[i]?,
        s.OutputsTaken i (doingTheFullScan force false periodElapsed) job))
  | .releaseJob i => inferInstanceAs (Decidable (∀ job ∈ s.jobs[i]?, s.OutputsInstalled job))
  | .enableFileDeletions force =>
      inferInstanceAs (Decidable (force = true ∨ s.disableDeleteObsoleteFiles ≤ 1 → s.PurgesNoKey))
  | .findObsoleteFiles _ _ _ =>
      inferInstanceAs (Decidable (s.disableDeleteObsoleteFiles = 0 → s.PurgesNoKey))
  | .logSstDeletion _ _ => inferInstanceAs (Decidable (_ = _))
  | .switchManifest => inferInstanceAs (Decidable (∀ entry ∈ KeyMap.replay [] s.manifest, _))
  | .reopen _ _ =>
      inferInstanceAs (Decidable ((_ ∧ _ ∧ _ ∧ _ ∧ ∀ v ∈ s.versions, _) ∧ ∀ t ∈ _, _))
  | .newFileNumber | .startJob | .openOutput _ _ | .removeOutput _ _ | .logSstKey _ _
  | .logAndApply _ _ _ _ | .refVersion _ | .unrefVersion _ | .readTable _
  | .disableFileDeletions | .purgeObsoleteFiles _ _ _ | .deleteSstKeys _ | .deleteScheduled _ =>
      instDecidableTrue

instance decidableLeavesNoKeys : (s : DbFiles) → (events : List DbFilesEvent) →
    Decidable (s.LeavesNoKeys events)
  | _, [] => instDecidableTrue
  | s, event :: events =>
      have : DecidablePred fun s' => LeavesNoKeys s' events := fun s' =>
        decidableLeavesNoKeys s' events
      inferInstanceAs (Decidable ((s.NumbersLeft event ∧ s.LeavesNoKey event) ∧
        ∀ s' ∈ s.step event, LeavesNoKeys s' events))

/-- A background call found the number and has not written it out. -/
def AwaitsWriteOut (s : DbFiles) (number : UInt64) : Prop :=
  (∃ c ∈ s.found, c.writesOut ∧ number ∈ c.deletionVector) ∨
    ∃ w ∈ s.writeOuts, number ∈ w.deletionVector

/-- A number that is in use, or on its way out. -/
def Held (s : DbFiles) (number : UInt64) : Prop :=
  number ∈ s.liveFiles ∨ s.PendingOutput number ∨ number ∈ s.obsoleteFiles ∨
    s.AwaitsWriteOut number

/-- What holds between events that leave no key behind. -/
structure Tracked (s : DbFiles) : Prop where
  keys : ∀ number, s.HasKey number → s.Held number
  logged : ∀ w ∈ s.writeOuts, ∀ number ∈ w.deletionVector,
    number ∈ w.unlogged ∨ ¬(replayKeys s.manifest number).isSome

theorem Tracked.noStrayKey (h : s.Tracked) : s.NoStrayKey := by
  rintro ⟨hobsolete, hfound, hwrite⟩ number hkey
  rcases h.keys number hkey with hlive | hpending | hold | ⟨c, hc, -⟩ | ⟨w, hw, -⟩
  · exact Or.inl hlive
  · exact Or.inr hpending
  · rw [hobsolete] at hold
    cases hold
  · rw [hfound] at hc
    cases hc
  · rw [hwrite] at hw
    cases hw

/-- Nothing about the write-outs and the MANIFEST changes. -/
theorem Tracked.follow (h : s.Tracked) (hwrite : s'.writeOuts = s.writeOuts)
    (hmanifest : s'.manifest = s.manifest)
    (hkeys : ∀ number, s'.HasKey number → s.HasKey number ∨ s'.Held number)
    (hheld : ∀ number, s'.HasKey number → s.Held number → s'.Held number) : s'.Tracked := by
  constructor
  · intro number hkey
    rcases hkeys number hkey with hold | hnew
    · exact hheld number hkey (h.keys number hold)
    · exact hnew
  · rw [hwrite, hmanifest]
    exact h.logged

/-! ### What `FindObsoleteFiles` takes -/

theorem not_disabled_findObsoleteFiles (h : s.disableDeleteObsoleteFiles = 0)
    (writesOut fullScan : Bool) :
    s.findObsoleteFiles writesOut fullScan =
      { s.grabObsoleteFiles with
        found := if (s.obsoleteContext writesOut fullScan).haveSomethingToDelete
          then s.found ++ [s.obsoleteContext writesOut fullScan] else s.found } := by
  unfold findObsoleteFiles
  rw [h, if_neg (lt_irrefl 0)]

/-- A table that is not kept, from `obsolete_files_` or by the full scan. -/
theorem taken_findObsoleteFiles (h : s.disableDeleteObsoleteFiles = 0) {writesOut fullScan : Bool}
    (hlive : number ∉ s.liveFiles) (hmin : number < s.minObsoleteSstNumberToKeep)
    (hn : number ∈ s.obsoleteFiles ∨
      fullScan = true ∧ number ∈ s.tables ∧ s.shouldPurge number = true) :
    ∃ c ∈ (s.findObsoleteFiles writesOut fullScan).found,
      c.writesOut = writesOut ∧ number ∈ c.deletionVector := by
  have hcandidate : number ∈ (s.obsoleteContext writesOut fullScan).fullScanCandidateFiles ∨
      number ∈ (s.obsoleteContext writesOut fullScan).sstDeleteFiles := by
    by_cases hobsolete : number ∈ s.obsoleteFiles
    · exact Or.inr (List.mem_filter.mpr ⟨hobsolete, decide_eq_true hmin⟩)
    · rcases hn with hn | ⟨rfl, htable, hpurge⟩
      · exact absurd hn hobsolete
      · left
        refine List.mem_filter.mpr ⟨htable, ?_⟩
        unfold shouldPurge at hpurge ⊢
        rw [Bool.and_eq_true, decide_eq_true_eq] at hpurge ⊢
        refine ⟨fun hgrabbed => ?_, hpurge.2⟩
        rcases List.mem_append.mp hgrabbed with hgrabbed | hgrabbed
        · exact hpurge.1 hgrabbed
        · exact hobsolete (List.mem_filter.mp hgrabbed).1
  have hsomething : (s.obsoleteContext writesOut fullScan).haveSomethingToDelete = true := by
    unfold JobContext.haveSomethingToDelete
    rw [Bool.not_eq_true', Bool.and_eq_false_iff]
    exact hcandidate.imp
      (fun hmem => List.isEmpty_eq_false_iff.mpr (List.ne_nil_of_mem hmem))
      (fun hmem => List.isEmpty_eq_false_iff.mpr (List.ne_nil_of_mem hmem))
  rw [not_disabled_findObsoleteFiles h, if_pos hsomething]
  exact ⟨_, List.mem_append_right _ (List.mem_singleton_self _), rfl,
    mem_deletionVector.mpr ⟨hcandidate, hlive, hmin⟩⟩

theorem found_subset_findObsoleteFiles (s : DbFiles) (writesOut fullScan : Bool) :
    s.found ⊆ (s.findObsoleteFiles writesOut fullScan).found := by
  unfold findObsoleteFiles
  split_ifs with hdisabled
  · exact List.Subset.refl _
  · dsimp only
    split_ifs
    · exact List.subset_append_left _ _
    · exact List.Subset.refl _

/-- What becomes of an obsolete table. -/
theorem obsolete_findObsoleteFiles (hn : number ∈ s.obsoleteFiles) (writesOut fullScan : Bool) :
    number ∈ (s.findObsoleteFiles writesOut fullScan).obsoleteFiles ∨ number ∈ s.liveFiles ∨
      s.disableDeleteObsoleteFiles = 0 ∧ number < s.minObsoleteSstNumberToKeep ∧
      ∃ c ∈ (s.findObsoleteFiles writesOut fullScan).found,
        c.writesOut = writesOut ∧ number ∈ c.deletionVector := by
  by_cases hdisabled : s.disableDeleteObsoleteFiles = 0
  · by_cases hlive : number ∈ s.liveFiles
    · exact Or.inr (Or.inl hlive)
    · by_cases hmin : number < s.minObsoleteSstNumberToKeep
      · exact Or.inr (Or.inr ⟨hdisabled, hmin, taken_findObsoleteFiles hdisabled hlive hmin
          (Or.inl hn)⟩)
      · left
        rw [not_disabled_findObsoleteFiles hdisabled]
        exact List.mem_filter.mpr ⟨hn, decide_eq_true (UInt64.not_lt.mp hmin)⟩
  · left
    unfold DbFiles.findObsoleteFiles
    rwa [if_pos (Nat.pos_of_ne_zero hdisabled)]

/-- What a call of `FindObsoleteFiles` does to a number that is held, where it is not an
obsolete table that another caller takes. -/
theorem Held.findObsoleteFiles (h : s.Held number) (writesOut fullScan : Bool)
    (htaken : number ∈ s.obsoleteFiles → writesOut = true ∨
      (s.disableDeleteObsoleteFiles = 0 →
        number ∈ s.liveFiles ∨ s.minObsoleteSstNumberToKeep ≤ number)) :
    (s.findObsoleteFiles writesOut fullScan).Held number := by
  have hsub := found_subset_findObsoleteFiles s writesOut fullScan
  have hobsolete : number ∈ s.obsoleteFiles → _ := fun hn =>
    obsolete_findObsoleteFiles hn writesOut fullScan
  obtain ⟨obsolete, grabbed, found, -, heq⟩ := findObsoleteFiles_eq s writesOut fullScan
  rw [heq] at hsub hobsolete ⊢
  rcases h with hlive | hpending | hn | ⟨c, hc, hout, hmem⟩ | hwrite
  · exact Or.inl hlive
  · exact Or.inr (Or.inl hpending)
  · rcases hobsolete hn with hstays | hlive | ⟨henabled, hmin, c, hc, hcaller, hmem⟩
    · exact Or.inr (Or.inr (Or.inl hstays))
    · exact Or.inl hlive
    · rcases htaken hn with hbackground | hkept
      · exact Or.inr (Or.inr (Or.inr (Or.inl ⟨c, hc, hcaller.trans hbackground, hmem⟩)))
      · rcases hkept henabled with hlive | hle
        · exact Or.inl hlive
        · exact absurd hmin (UInt64.not_lt.mpr hle)
  · exact Or.inr (Or.inr (Or.inr (Or.inl ⟨c, hsub hc, hout, hmem⟩)))
  · exact Or.inr (Or.inr (Or.inr (Or.inr hwrite)))

theorem HasKey.of_findObsoleteFiles {writesOut fullScan : Bool}
    (h : (s.findObsoleteFiles writesOut fullScan).HasKey number) : s.HasKey number := by
  unfold HasKey at h ⊢
  rwa [(findObsoleteFiles_keys s writesOut fullScan).1,
    (findObsoleteFiles_keys s writesOut fullScan).2] at h

/-- A caller that does not write out finds no table with a key. -/
theorem Tracked.findObsoleteFiles (h : s.Tracked) (fullScan : Bool)
    (hkeys : s.disableDeleteObsoleteFiles = 0 → s.PurgesNoKey) :
    (s.findObsoleteFiles false fullScan).Tracked := by
  have hwrite : (s.findObsoleteFiles false fullScan).writeOuts = s.writeOuts := by
    obtain ⟨obsolete, grabbed, found, -, heq⟩ := findObsoleteFiles_eq s false fullScan
    rw [heq]
  apply h.follow hwrite (findObsoleteFiles_keys s false fullScan).1
  · intro number hkey
    exact Or.inl hkey.of_findObsoleteFiles
  · intro number hkey hheld
    apply hheld.findObsoleteFiles
    intro hn
    exact Or.inr fun henabled => hkeys henabled number hn hkey.of_findObsoleteFiles

/-! ### Versions and edits -/

theorem Held.mono (h : s.Held number)
    (hlive : number ∈ s.liveFiles → number ∈ s'.liveFiles ∨ number ∈ s'.obsoleteFiles)
    (hpending : s.PendingOutput number → s'.PendingOutput number)
    (hobsolete : number ∈ s.obsoleteFiles → number ∈ s'.obsoleteFiles)
    (hawaits : s.AwaitsWriteOut number → s'.AwaitsWriteOut number) : s'.Held number := by
  rcases h with hn | hn | hn | hn
  · rcases hlive hn with hn | hn
    · exact Or.inl hn
    · exact Or.inr (Or.inr (Or.inl hn))
  · exact Or.inr (Or.inl (hpending hn))
  · exact Or.inr (Or.inr (Or.inl (hobsolete hn)))
  · exact Or.inr (Or.inr (Or.inr (hawaits hn)))

/-- A step that leaves the jobs, the keys and what waits to be written out alone. -/
theorem Tracked.withVersions (h : s.Tracked) (hwrite : s'.writeOuts = s.writeOuts)
    (hfound : s'.found = s.found) (hjobs : s'.jobs = s.jobs) (hmanifest : s'.manifest = s.manifest)
    (hkeyList : s'.keyList = s.keyList)
    (hlive : ∀ number ∈ s.liveFiles, number ∈ s'.liveFiles ∨ number ∈ s'.obsoleteFiles)
    (hobsolete : s.obsoleteFiles ⊆ s'.obsoleteFiles) : s'.Tracked := by
  apply h.follow hwrite hmanifest
  · intro number hkey
    left
    unfold HasKey at hkey ⊢
    rwa [hmanifest, hkeyList] at hkey
  · intro number _ hheld
    apply hheld.mono (hlive number)
    · unfold PendingOutput
      rw [hjobs]
      exact id
    · exact fun hn => hobsolete hn
    · unfold AwaitsWriteOut
      rw [hfound, hwrite]
      exact id

theorem kept_setReaders {i : ℕ} {v : Version} (hi : s.versions[i]? = some v) (readers : ℕ)
    (hn : number ∈ s.liveFiles) :
    number ∈ ({ s with versions := s.versions.set i { v with readers } } : DbFiles).liveFiles := by
  obtain ⟨w, hw, f, hf, hn⟩ := mem_liveFiles.mp hn
  obtain ⟨k, hk, hget⟩ := List.mem_iff_getElem.mp hw
  obtain ⟨hlt, hv⟩ := List.getElem?_eq_some_iff.mp hi
  by_cases hik : i = k
  · subst hik
    rw [hv] at hget
    exact mem_liveFiles.mpr ⟨_, List.mem_set hlt _, f, hget ▸ hf, hn⟩
  · have hmem : w ∈ s.versions.set i { v with readers } := by
      apply List.mem_iff_getElem.mpr
      refine ⟨k, by rwa [List.length_set], ?_⟩
      rw [List.getElem_set_of_ne hik]
      exact hget
    exact mem_liveFiles.mpr ⟨w, hmem, f, hf, hn⟩

theorem Tracked.setReaders (h : s.Tracked) {i : ℕ} {v : Version} (hi : s.versions[i]? = some v)
    (readers : ℕ) :
    ({ s with versions := s.versions.set i { v with readers } } : DbFiles).Tracked :=
  h.withVersions rfl rfl rfl rfl rfl (fun _ hn => Or.inl (kept_setReaders hi readers hn))
    (List.Subset.refl _)

theorem Tracked.removeVersions (h : s.Tracked) : s.removeVersions.Tracked :=
  h.withVersions rfl rfl rfl rfl rfl (fun _ hn => kept_removeVersions hn)
    obsoleteFiles_subset_removeVersions

theorem Tracked.installVersion (h : s.Tracked) (columnFamily : UInt32)
    (deleted added : List UInt64) : (s.installVersion columnFamily deleted added).Tracked :=
  h.withVersions rfl rfl rfl rfl rfl (fun _ hn => kept_installVersion hn)
    obsoleteFiles_subset_installVersion

/-- A key for a pending output, in the MANIFEST. -/
theorem Tracked.logSstKey (h : s.Tracked) (hsound : s.Sound) {m : UInt64}
    (hpending : s.PendingOutput m) (key : Key) :
    (s.logEdit (VersionEdit.new.addSstKey m key)).Tracked := by
  constructor
  · intro number hkey
    have hold : number = m ∨ s.HasKey number := by
      rcases hkey with hkey | hkey
      · exact Or.inr (Or.inl hkey)
      · exact ((isSome_logEdit_addSstKey s m key).mp hkey).imp_right Or.inr
    rcases hold with rfl | hold
    · exact Or.inr (Or.inl hpending)
    · exact h.keys number hold
  · intro w hw number hn
    refine (h.logged w hw number hn).imp_right fun hnone hkey => ?_
    rcases (isSome_logEdit_addSstKey s m key).mp hkey with rfl | hold
    · exact (hsound.doomed number (Or.inr (Or.inl ⟨w, hw, Or.inl hn⟩))).notPending hpending
    · exact hnone hold

/-- An entry of `KeyList` for a live table or a pending output. -/
theorem Tracked.insertKey (h : s.Tracked) {m : UInt64}
    (hused : m ∈ s.liveFiles ∨ s.PendingOutput m) (key : Bytes) :
    ({ s with keyList := s.keyList.insert m key } : DbFiles).Tracked := by
  refine h.follow ?_ ?_ ?_ ?_
  · rfl
  · rfl
  · intro number hkey
    rcases hkey with hkey | hkey
    · rw [KeyMap.find_insert, KeyList.isSome_insert] at hkey
      rcases hkey with rfl | hkey
      · exact Or.inr (hused.imp_right Or.inl)
      · exact Or.inl (Or.inl hkey)
    · exact Or.inl (Or.inr hkey)
  · exact fun number _ hheld => hheld

/-! ### Write-outs -/

theorem mem_eraseIdx_of_ne {α : Type} {l : List α} {i : ℕ} {a b : α} (hi : l[i]? = some a)
    (hb : b ∈ l) (hne : b ≠ a) : b ∈ l.eraseIdx i := by
  obtain ⟨k, hk, hget⟩ := List.mem_iff_getElem.mp hb
  refine List.mem_eraseIdx_iff_getElem.mpr ⟨k, hk, ?_, hget⟩
  rintro rfl
  exact hne (hget.symm.trans (List.getElem?_eq_some_iff.mp hi).2)

theorem mem_set_of_ne {α : Type} {l : List α} {i : ℕ} {a b : α} (hi : l[i]? = some a)
    (hb : b ∈ l) (hne : b ≠ a) (c : α) : b ∈ l.set i c := by
  obtain ⟨k, hk, hget⟩ := List.mem_iff_getElem.mp hb
  have hik : i ≠ k := by
    rintro rfl
    exact hne (hget.symm.trans (List.getElem?_eq_some_iff.mp hi).2)
  refine List.mem_iff_getElem.mpr ⟨k, by rwa [List.length_set], ?_⟩
  rw [List.getElem_set_of_ne hik]
  exact hget

/-- A purge hands what it deleted over to the write-out, if its caller makes one. -/
theorem Tracked.purgeObsoleteFiles (h : s.Tracked) {i : ℕ} {c : JobContext}
    (hi : s.found[i]? = some c) (scheduleOnly : Bool) (undeleted : List UInt64) :
    (DbFiles.purgeObsoleteFiles { s with found := s.found.eraseIdx i } c scheduleOnly
      undeleted).Tracked := by
  have hwrite : ∀ w, w ∈ (DbFiles.purgeObsoleteFiles { s with found := s.found.eraseIdx i } c
      scheduleOnly undeleted).writeOuts ↔ w ∈ s.writeOuts ∨
        c.writesOut = true ∧ w = ⟨c.deletionVector, c.deletionVector⟩ := by
    intro w
    unfold DbFiles.purgeObsoleteFiles
    cases hout : c.writesOut with
    | true => simp
    | false => simp
  constructor
  · intro number hkey
    refine (h.keys number hkey).mono Or.inl id id (fun hawaits => ?_)
    rcases hawaits with ⟨c', hc', hout, hn⟩ | ⟨w, hw, hn⟩
    · by_cases heq : c' = c
      · subst heq
        exact Or.inr ⟨_, (hwrite _).mpr (Or.inr ⟨hout, rfl⟩), hn⟩
      · exact Or.inl ⟨c', mem_eraseIdx_of_ne hi hc' heq, hout, hn⟩
    · exact Or.inr ⟨w, (hwrite w).mpr (Or.inl hw), hn⟩
  · intro w hw number hn
    rcases (hwrite w).mp hw with hold | ⟨-, rfl⟩
    · exact h.logged w hold number hn
    · exact Or.inl hn

/-- The edit that deletes the next key. -/
theorem Tracked.logSstDeletion (h : s.Tracked) {i : ℕ} {w : WriteOut} {m : UInt64}
    {unlogged : List UInt64} (hi : s.writeOuts[i]? = some w) (hw : w.unlogged = m :: unlogged) :
    (DbFiles.logEdit { s with writeOuts := s.writeOuts.set i { w with unlogged } }
      (VersionEdit.new.deleteSstKey m)).Tracked := by
  have hlt := (List.getElem?_eq_some_iff.mp hi).1
  constructor
  · intro number hkey
    have hold : s.HasKey number := by
      rcases hkey with hkey | hkey
      · exact Or.inl hkey
      · exact Or.inr ((isSome_logEdit_deleteSstKey _ m).mp hkey).2
    refine (h.keys number hold).mono Or.inl id id (fun hawaits => ?_)
    rcases hawaits with hfound | ⟨w', hw', hn⟩
    · exact Or.inl hfound
    · right
      by_cases heq : w' = w
      · subst heq
        exact ⟨_, List.mem_set hlt _, hn⟩
      · exact ⟨w', mem_set_of_ne hi hw' heq _, hn⟩
  · intro w' hw' number hn
    have hlogged : ¬(replayKeys s.manifest number).isSome →
        ¬(replayKeys (DbFiles.logEdit { s with
          writeOuts := s.writeOuts.set i { w with unlogged } }
          (VersionEdit.new.deleteSstKey m)).manifest number).isSome := fun hnone hkey =>
      hnone ((isSome_logEdit_deleteSstKey _ m).mp hkey).2
    rcases List.mem_or_eq_of_mem_set hw' with hold | rfl
    · exact (h.logged w' hold number hn).imp_right hlogged
    · rcases h.logged w (List.mem_of_getElem? hi) number hn with hmem | hnone
      · rw [hw] at hmem
        rcases List.mem_cons.mp hmem with rfl | hmem
        · exact Or.inr fun hkey => ((isSome_logEdit_deleteSstKey _ number).mp hkey).1 rfl
        · exact Or.inl hmem
      · exact Or.inr (hlogged hnone)

/-- The keys of a deletion vector whose edits are all in the MANIFEST. -/
theorem Tracked.deleteSstKeys (h : s.Tracked) {i : ℕ} {w : WriteOut}
    (hi : s.writeOuts[i]? = some w) (hw : w.unlogged = []) :
    ({ s with
      keyList := w.deletionVector.foldl KeyMap.erase s.keyList
      writeOuts := s.writeOuts.eraseIdx i } : DbFiles).Tracked := by
  constructor
  · intro number hkey
    have hold : number ∉ w.deletionVector ∧ s.HasKey number := by
      rcases hkey with hkey | hkey
      · obtain ⟨hn, hkey⟩ := (KeyMap.isSome_find_erases _ _ _).mp hkey
        exact ⟨hn, Or.inl hkey⟩
      · refine ⟨fun hn => ?_, Or.inr hkey⟩
        rcases h.logged w (List.mem_of_getElem? hi) number hn with hmem | hnone
        · rw [hw] at hmem
          cases hmem
        · exact hnone hkey
    refine (h.keys number hold.2).mono Or.inl id id (fun hawaits => ?_)
    rcases hawaits with hfound | ⟨w', hw', hn⟩
    · exact Or.inl hfound
    · refine Or.inr ⟨w', mem_eraseIdx_of_ne hi hw' ?_, hn⟩
      rintro rfl
      exact hold.1 hn
  · intro w' hw'
    exact h.logged w' (List.mem_of_mem_eraseIdx hw')

end DbFiles

end Tweezer
