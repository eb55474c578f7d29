import Tweezer.EncDec
import Tweezer.ObsoleteFileTracking

/-!
# Keys die with their files

Runs of a database over many processes. Where each event leaves no key behind, there is a key
only for a table that is in use once no purge is pending; where file deletions are enabled after
a compaction, the key of its input stays.
-/

namespace Tweezer

namespace DbFiles

variable {s s' : DbFiles} {number : UInt64}

/-! ### Reopening -/

/-- Recovery gives a key to every table that it writes. -/
theorem keys_recoverTables {recovered : List RecoveredTable}
    (houtput : ∀ t ∈ recovered, t.hasOutput = true)
    (h : ∀ number, (s.keyList.find number).isSome →
      number ∈ s.liveFiles ∨ number ∈ s.obsoleteFiles) :
    ∀ number, ((s.recoverTables recovered).keyList.find number).isSome →
      number ∈ (s.recoverTables recovered).liveFiles ∨
        number ∈ (s.recoverTables recovered).obsoleteFiles := by
  induction recovered generalizing s with
  | nil => exact h
  | cons t recovered ih =>
      obtain ⟨ht, hrest⟩ := List.forall_mem_cons.mp houtput
      apply ih hrest
      intro number hkey
      rw [keyList_writeLevel0TableForRecovery, KeyMap.find_insert, KeyList.isSome_insert] at hkey
      unfold writeLevel0TableForRecovery
      dsimp only
      rw [if_pos ht]
      rcases hkey with rfl | hkey
      · exact Or.inl (added_installVersion (List.mem_singleton_self _))
      · rcases h number hkey with hlive | hobsolete
        · exact kept_installVersion hlive
        · exact Or.inr (obsoleteFiles_subset_installVersion hobsolete)

theorem writeOuts_recoverTables (s : DbFiles) (recovered : List RecoveredTable) :
    (s.recoverTables recovered).writeOuts = s.writeOuts := by
  induction recovered generalizing s with
  | nil => rfl
  | cons t recovered ih =>
      refine (ih _).trans ?_
      unfold writeLevel0TableForRecovery
      cases t.hasOutput <;> rfl

/-- What `KeyList` holds when the MANIFEST was replayed had a key before. -/
theorem HasKey.of_recover {sameProcess : Bool}
    (h : ((s.recover sameProcess).keyList.find number).isSome) : s.HasKey number := by
  rw [find_recover] at h
  by_cases hkey : (s.keyList.find number).isSome
  · exact Or.inl hkey
  · right
    refine isSome_foldl_applyToKeyList_mono s.manifest (fun hfirst => ?_) h
    cases sameProcess with
    | false => cases hfirst
    | true => exact absurd hfirst hkey

theorem Tracked.reopen (h : s.Tracked) {sameProcess : Bool} {recovered : List RecoveredTable}
    (hclosed : s.ClosedCleanly) (houtput : ∀ t ∈ recovered, t.hasOutput = true)
    (hs : s.reopen sameProcess recovered = some s') : s'.Tracked := by
  obtain ⟨hjobs, hfound, hwrite, hobsolete, hcurrent⟩ := hclosed
  obtain ⟨hkeys, hmanifest⟩ := reopen_keys hs
  have hlive : ∀ number, ((s.recover sameProcess).keyList.find number).isSome →
      number ∈ (s.recover sameProcess).liveFiles ∨
        number ∈ (s.recover sameProcess).obsoleteFiles := by
    intro number hkey
    have hold := HasKey.of_recover hkey
    rcases h.noStrayKey ⟨hobsolete, hfound, hwrite⟩ number hold with hn | ⟨job, hjob, -⟩
    · obtain ⟨v, hv, hf⟩ := mem_liveFiles.mp hn
      exact Or.inl (live_recover.mpr ⟨v, hv, hcurrent v hv, hf⟩)
    · rw [hjobs] at hjob
      cases hjob
  have hrecovered := keys_recoverTables houtput hlive
  have hnone := writeOuts_recoverTables (s.recover sameProcess) recovered
  obtain ⟨edits, -, hs⟩ := Option.bind_eq_some_iff.mp hs
  cases hs
  constructor
  · intro number hkey
    have hfind := hkey.elim id (hmanifest number).mp
    rcases hrecovered number hfind with hn | hn
    · exact Or.inl hn
    · exact Or.inr (Or.inr (Or.inl hn))
  · intro w hw
    rw [hnone] at hw
    cases hw

/-! ### Runs -/

/-- A job that ends without leaving a key behind. -/
theorem Held.withoutJob {i : ℕ} {job : Job} (hi : s.jobs[i]? = some job) (h : s.Held number)
    (hout : number ∈ job.outputs → ({ s with jobs := s.jobs.eraseIdx i } : DbFiles).Held number) :
    ({ s with jobs := s.jobs.eraseIdx i } : DbFiles).Held number := by
  rcases h with hlive | ⟨other, hother, hn⟩ | hrest
  · exact Or.inl hlive
  · by_cases heq : other = job
    · exact hout (heq ▸ hn)
    · exact Or.inr (Or.inl ⟨other, mem_eraseIdx_of_ne hi hother heq, hn⟩)
  · exact Or.inr (Or.inr hrest)

theorem PendingOutput.setOutputs {i : ℕ} {job : Job} (hi : s.jobs[i]? = some job) (m : UInt64)
    (h : s.PendingOutput number) :
    ∃ j ∈ s.jobs.set i { job with outputs := m :: job.outputs }, number ∈ j.outputs := by
  obtain ⟨other, hother, hn⟩ := h
  by_cases heq : other = job
  · subst heq
    exact ⟨_, List.mem_set (List.getElem?_eq_some_iff.mp hi).1 _, List.mem_cons_of_mem _ hn⟩
  · exact ⟨other, mem_set_of_ne hi hother heq _, hn⟩

/-- A pending output is below what is kept where all jobs started later. -/
theorem lt_minObsoleteSstNumberToKeep (hn : number < s.nextFileNumber)
    (h : ∀ job ∈ s.jobs, number < job.captured) : number < s.minObsoleteSstNumberToKeep := by
  unfold minObsoleteSstNumberToKeep
  cases hjobs : s.jobs with
  | nil =>
      have hmax : s.nextFileNumber.toNat ≤ (18446744073709551615 : UInt64).toNat :=
        Nat.le_of_lt_succ s.nextFileNumber.toNat_lt
      exact UInt64.lt_of_lt_of_le hn (UInt64.le_iff_toNat_le.mpr hmax)
  | cons first jobs => exact h first (hjobs ▸ List.mem_cons_self)

/-- The end of a job of a background call: its own scan takes what it did not install. -/
theorem Tracked.finishBackgroundJob (h : s.Tracked) (hsound : s.Sound) {i : ℕ} {job : Job}
    {force periodElapsed : Bool} (hi : s.jobs[i]? = some job)
    (hmeets : s.LeavesNoKey (.finishBackgroundJob i force periodElapsed)) :
    (({ s with jobs := s.jobs.eraseIdx i } : DbFiles).findObsoleteFiles true
      (doingTheFullScan force false periodElapsed)).Tracked := by
  obtain ⟨t, ht⟩ : ∃ t : DbFiles, t = { s with jobs := s.jobs.eraseIdx i } := ⟨_, rfl⟩
  rw [← ht]
  have hwrite : (t.findObsoleteFiles true (doingTheFullScan force false periodElapsed)).writeOuts =
      s.writeOuts := by
    obtain ⟨obsolete, grabbed, found, -, heq⟩ := findObsoleteFiles_eq t true
      (doingTheFullScan force false periodElapsed)
    rw [heq, ht]
  have hmanifest := (findObsoleteFiles_keys t true
    (doingTheFullScan force false periodElapsed)).1
  have hsame : ∀ number, t.HasKey number → s.HasKey number := by
    rw [ht]
    exact fun _ hkey => hkey
  have hlives : t.liveFiles = s.liveFiles := by
    rw [ht]
    rfl
  refine h.follow hwrite (hmanifest.trans (by rw [ht])) ?_ ?_
  · exact fun number hkey => Or.inl (hsame number hkey.of_findObsoleteFiles)
  · intro number hkey hheld
    have hkept : t.Held number →
        (t.findObsoleteFiles true (doingTheFullScan force false periodElapsed)).Held number :=
      fun hheld => hheld.findObsoleteFiles _ _ fun _ => Or.inl rfl
    by_cases hout : number ∈ job.outputs
    · rcases hmeets job hi number hout (hsame number hkey.of_findObsoleteFiles) with
        hlive | hobsolete | ⟨hscan, henabled, htable, hpurge, hothers⟩
      · exact hkept (Or.inl (hlives ▸ hlive))
      · apply hkept
        rw [ht]
        exact Or.inr (Or.inr (Or.inl hobsolete))
      · by_cases hlive : number ∈ t.liveFiles
        · exact hkept (Or.inl hlive)
        · have hnumber := (hsound.jobs.outputs job (List.mem_of_getElem? hi) number hout).2
          have hmin : number < t.minObsoleteSstNumberToKeep := by
            apply lt_minObsoleteSstNumberToKeep
            · rwa [ht]
            · rwa [ht]
          have henabled' : t.disableDeleteObsoleteFiles = 0 := by rwa [ht]
          have hcandidate : number ∈ t.tables ∧ t.shouldPurge number = true := by
            rw [ht]
            exact ⟨htable, hpurge⟩
          obtain ⟨c, hc, hcaller, hn⟩ := taken_findObsoleteFiles henabled' hlive hmin
            (Or.inr ⟨hscan, hcandidate⟩)
          exact Or.inr (Or.inr (Or.inr (Or.inl ⟨c, hc, hcaller, hn⟩)))
    · apply hkept
      rw [ht]
      exact hheld.withoutJob hi fun hn => absurd hn hout

/-- An event that leaves no key behind keeps all keys tracked. -/
theorem Tracked.step {event : DbFilesEvent} (h : s.Tracked) (hsound : s.Sound)
    (hmeets : s.LeavesNoKey event) (hs : s.step event = some s') : s'.Tracked := by
  cases event with
  | openOutput i key =>
      obtain ⟨job, hi, hs⟩ := Option.bind_eq_some_iff.mp hs
      cases hs
      have hlt := (List.getElem?_eq_some_iff.mp hi).1
      refine h.follow ?_ ?_ ?_ ?_
      · rfl
      · rfl
      · intro number hkey
        rcases hkey with hkey | hkey
        · rw [KeyMap.find_insert, KeyList.isSome_insert] at hkey
          rcases hkey with rfl | hkey
          · exact Or.inr (Or.inr (Or.inl ⟨_, List.mem_set hlt _, List.mem_cons_self⟩))
          · exact Or.inl (Or.inl hkey)
        · exact Or.inl (Or.inr hkey)
      · intro number _ hheld
        exact hheld.mono Or.inl (PendingOutput.setOutputs hi _) id id
  | finishBackgroundJob i force periodElapsed =>
      obtain ⟨job, hi, hs⟩ := Option.bind_eq_some_iff.mp hs
      cases hs
      exact h.finishBackgroundJob hsound hi hmeets
  | releaseJob i =>
      obtain ⟨job, hi, hs⟩ := Option.bind_eq_some_iff.mp hs
      cases hs
      refine h.follow ?_ ?_ ?_ ?_
      · rfl
      · rfl
      · exact fun _ hkey => Or.inl hkey
      · intro number hkey hheld
        apply hheld.withoutJob hi
        intro hn
        rcases hmeets job hi number hn hkey with hlive | hobsolete
        · exact Or.inl hlive
        · exact Or.inr (Or.inr (Or.inl hobsolete))
  | logSstKey i m =>
      obtain ⟨job, hi, hs⟩ := Option.bind_eq_some_iff.mp hs
      obtain ⟨hn, hs⟩ := Option.ite_none_right_eq_some.mp hs
      obtain ⟨key, -, hs⟩ := Option.bind_eq_some_iff.mp hs
      obtain ⟨edit, hedit, hs⟩ := Option.bind_eq_some_iff.mp hs
      cases hs
      obtain ⟨key, rfl⟩ := KeyMap.sstKeyEdit_eq_some hedit
      exact h.logSstKey hsound ⟨job, List.mem_of_getElem? hi, hn⟩ key
  | readTable m =>
      obtain ⟨hused, hs⟩ := Option.ite_none_right_eq_some.mp hs
      cases hs
      exact h.insertKey hused []
  | logAndApply i columnFamily deleted added =>
      obtain ⟨job, -, hs⟩ := Option.bind_eq_some_iff.mp hs
      obtain ⟨-, hs⟩ := Option.ite_none_right_eq_some.mp hs
      cases hs
      exact h.installVersion columnFamily deleted added
  | refVersion i =>
      obtain ⟨v, hi, hs⟩ := Option.bind_eq_some_iff.mp hs
      obtain ⟨-, hs⟩ := Option.ite_none_right_eq_some.mp hs
      cases hs
      exact h.setReaders hi _
  | unrefVersion i =>
      obtain ⟨v, hi, hs⟩ := Option.bind_eq_some_iff.mp hs
      cases hs
      exact (h.setReaders hi _).removeVersions
  | enableFileDeletions force =>
      cases hs
      have hcounter : ∀ counter,
          ({ s with disableDeleteObsoleteFiles := counter } : DbFiles).Tracked :=
        fun _ => ⟨h.keys, h.logged⟩
      unfold DbFiles.enableFileDeletions
      dsimp only
      split_ifs with hforce hzero hone
      · exact (hcounter 0).findObsoleteFiles _ fun _ => hmeets (Or.inl hforce)
      · exact hcounter 0
      · apply (hcounter _).findObsoleteFiles
        intro _
        exact hmeets (Or.inr (by omega))
      · exact hcounter _
  | findObsoleteFiles force noFullScan periodElapsed =>
      cases hs
      exact h.findObsoleteFiles _ hmeets
  | purgeObsoleteFiles i scheduleOnly undeleted =>
      obtain ⟨c, hi, hs⟩ := Option.bind_eq_some_iff.mp hs
      cases hs
      exact h.purgeObsoleteFiles hi scheduleOnly undeleted
  | logSstDeletion i logged =>
      obtain ⟨w, hi, hs⟩ := Option.bind_eq_some_iff.mp hs
      cases hunlogged : w.unlogged with
      | nil =>
          rw [hunlogged] at hs
          cases hs
      | cons m unlogged =>
          rw [hunlogged, hmeets] at hs
          cases hs
          exact h.logSstDeletion hi hunlogged
  | deleteSstKeys i =>
      obtain ⟨w, hi, hs⟩ := Option.bind_eq_some_iff.mp hs
      obtain ⟨hunlogged, hs⟩ := Option.ite_none_right_eq_some.mp hs
      cases hs
      exact h.deleteSstKeys hi hunlogged
  | switchManifest =>
      cases hs
      constructor
      · intro number hkey
        rcases hkey with hkey | hkey
        · exact h.keys number (Or.inl hkey)
        · cases hkey
      · exact fun _ _ _ _ => Or.inr nofun
  | reopen sameProcess recovered =>
      exact h.reopen hmeets.1 hmeets.2 (Option.ite_none_left_eq_some.mp hs).2
  | removeOutput i m =>
      obtain ⟨job, -, hs⟩ := Option.bind_eq_some_iff.mp hs
      obtain ⟨-, hs⟩ := Option.ite_none_right_eq_some.mp hs
      cases hs
      exact ⟨h.keys, h.logged⟩
  | deleteScheduled m =>
      obtain ⟨-, hs⟩ := Option.ite_none_right_eq_some.mp hs
      cases hs
      exact ⟨h.keys, h.logged⟩
  | startJob =>
      cases hs
      refine h.follow ?_ ?_ ?_ ?_
      · rfl
      · rfl
      · exact fun _ hkey => Or.inl hkey
      · intro number _ hheld
        refine hheld.mono Or.inl (fun hpending => ?_) id id
        obtain ⟨job, hjob, hn⟩ := hpending
        exact ⟨job, List.mem_append_left _ hjob, hn⟩
  | newFileNumber | disableFileDeletions =>
      cases hs
      exact ⟨h.keys, h.logged⟩

theorem sound_start : start.Sound where
  live := nofun
  logged := UInt64.le_refl _
  tables := nofun
  obsolete := nofun
  jobs := ⟨List.Pairwise.nil, nofun, nofun⟩
  doomed number hn := by
    rcases hn with ⟨c, hc, -⟩ | ⟨w, hw, -⟩ | ⟨e, he, -⟩
    · cases hc
    · cases hw
    · cases he

theorem KeysDieWithFiles.noStrayKey {events : List DbFilesEvent} (h : s.KeysDieWithFiles events)
    (hs : s.run events = some s') : s'.NoStrayKey := by
  induction events generalizing s with
  | nil =>
      cases hs
      exact h
  | cons event events ih =>
      obtain ⟨t, ht, hs⟩ := Option.bind_eq_some_iff.mp hs
      exact ih (h.2 t ht).2 hs

end DbFiles

end Tweezer
