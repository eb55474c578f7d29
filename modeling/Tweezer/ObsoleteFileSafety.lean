import Tweezer.ObsoleteFileSteps

/-!
# What is doomed is dead

The numbers in the deletion vectors, and those that the MANIFEST says were deleted, are of tables
that are in no version and are not the output of a running job. `FindObsoleteFiles` sees to that
with the live files and with `min_pending_output`, and afterwards nothing brings such a number
back.
-/

namespace Tweezer

namespace DbFiles

variable {s s' : DbFiles} {number : UInt64}

/-- A number that was handed out, in no version and of no running job. -/
structure Dead (s : DbFiles) (number : UInt64) : Prop where
  notLive : number ∉ s.liveFiles
  notPending : ¬s.PendingOutput number
  handedOut : number < s.nextFileNumber

/-- Some edit of the MANIFEST deletes the key of this number. -/
def DeletionLogged (manifest : List VersionEdit) (number : UInt64) : Prop :=
  ∃ e ∈ manifest, e.isSstDelete ∧ e.sstDeleteFileNumber = number

/-- A number that some thread found obsolete, or whose key the MANIFEST deletes. -/
def Doomed (s : DbFiles) (number : UInt64) : Prop :=
  (∃ c ∈ s.found, number ∈ c.deletionVector) ∨
    (∃ w ∈ s.writeOuts, number ∈ w.deletionVector ∨ number ∈ w.unlogged) ∨
    DeletionLogged s.manifest number

/-- The order of `pending_outputs_`, and how the outputs of a job relate to its element. -/
structure JobsInOrder (jobs : List Job) (next : UInt64) : Prop where
  sorted : jobs.Pairwise fun a b => a.captured ≤ b.captured
  captured : ∀ job ∈ jobs, job.captured ≤ next
  outputs : ∀ job ∈ jobs, ∀ number ∈ job.outputs, job.captured ≤ number ∧ number < next

/-- What holds between events: all numbers in use were handed out, those of live tables also
according to the MANIFEST, and what is doomed is dead. -/
structure Sound (s : DbFiles) : Prop where
  live : ∀ number ∈ s.liveFiles, number < s.loggedNextFile
  logged : s.loggedNextFile ≤ s.nextFileNumber
  tables : ∀ number ∈ s.tables, number < s.nextFileNumber
  obsolete : ∀ number ∈ s.obsoleteFiles, number < s.nextFileNumber
  jobs : JobsInOrder s.jobs s.nextFileNumber
  doomed : ∀ number, s.Doomed number → s.Dead number

/-- What an event may do while the process goes on. -/
structure Advance (s s' : DbFiles) : Prop where
  next : s.nextFileNumber ≤ s'.nextFileNumber
  logged : s'.loggedNextFile = s.loggedNextFile ∨ s'.loggedNextFile = s'.nextFileNumber
  /-- A table that becomes live is the output of a running job, and the MANIFEST knows it. -/
  live : ∀ number ∈ s'.liveFiles, number ∈ s.liveFiles ∨
    s.PendingOutput number ∧ s'.loggedNextFile = s'.nextFileNumber
  pending : ∀ number, s'.PendingOutput number → s.PendingOutput number ∨ s.nextFileNumber ≤ number
  tables : ∀ number ∈ s'.tables, number ∈ s.tables ∨ number < s'.nextFileNumber
  obsolete : ∀ number ∈ s'.obsoleteFiles, number ∈ s.obsoleteFiles ∨ number ∈ s.liveFiles ∨
    s.PendingOutput number
  jobs : JobsInOrder s.jobs s.nextFileNumber → JobsInOrder s'.jobs s'.nextFileNumber
  doomed : ∀ number, s'.Doomed number → s.Doomed number ∨ s.Dead number

theorem Advance.refl (s : DbFiles) : Advance s s where
  next := UInt64.le_refl _
  logged := Or.inl rfl
  live _ h := Or.inl h
  pending _ h := Or.inl h
  tables _ h := Or.inl h
  obsolete _ h := Or.inl h
  jobs h := h
  doomed _ h := Or.inl h

/-- A dead number stays dead. -/
theorem Dead.advance (h : s.Dead number) (ha : Advance s s') : s'.Dead number := by
  constructor
  · intro hlive
    rcases ha.live number hlive with hold | ⟨hpending, -⟩
    · exact h.notLive hold
    · exact h.notPending hpending
  · intro hpending
    rcases ha.pending number hpending with hold | hnew
    · exact h.notPending hold
    · exact UInt64.not_lt.mpr hnew h.handedOut
  · exact UInt64.lt_of_lt_of_le h.handedOut ha.next

theorem JobsInOrder.lt_of_pendingOutput (h : JobsInOrder s.jobs s.nextFileNumber)
    (hpending : s.PendingOutput number) : number < s.nextFileNumber := by
  obtain ⟨job, hjob, hn⟩ := hpending
  exact (h.outputs job hjob number hn).2

theorem Sound.advance (h : s.Sound) (ha : Advance s s') : s'.Sound := by
  have hlive : ∀ number ∈ s.liveFiles, number < s.nextFileNumber := fun number hn =>
    UInt64.lt_of_lt_of_le (h.live number hn) h.logged
  have hpending : ∀ number, s.PendingOutput number → number < s.nextFileNumber := fun _ hn =>
    h.jobs.lt_of_pendingOutput hn
  constructor
  · intro number hn
    rcases ha.live number hn with hold | ⟨hout, hlogged⟩
    · rcases ha.logged with heq | heq
      · exact heq ▸ h.live number hold
      · exact heq ▸ UInt64.lt_of_lt_of_le (hlive number hold) ha.next
    · exact hlogged ▸ UInt64.lt_of_lt_of_le (hpending number hout) ha.next
  · rcases ha.logged with heq | heq
    · exact heq ▸ UInt64.le_trans h.logged ha.next
    · exact heq ▸ UInt64.le_refl _
  · intro number hn
    rcases ha.tables number hn with hold | hnew
    · exact UInt64.lt_of_lt_of_le (h.tables number hold) ha.next
    · exact hnew
  · intro number hn
    rcases ha.obsolete number hn with hold | hold | hout
    · exact UInt64.lt_of_lt_of_le (h.obsolete number hold) ha.next
    · exact UInt64.lt_of_lt_of_le (hlive number hold) ha.next
    · exact UInt64.lt_of_lt_of_le (hpending number hout) ha.next
  · exact ha.jobs h.jobs
  · intro number hn
    rcases ha.doomed number hn with hold | hdead
    · exact (h.doomed number hold).advance ha
    · exact hdead.advance ha

/-! ### Jobs -/

namespace JobsInOrder

variable {jobs : List Job} {next : UInt64}

theorem mono (h : JobsInOrder jobs next) {next' : UInt64} (hle : next ≤ next') :
    JobsInOrder jobs next' where
  sorted := h.sorted
  captured job hjob := UInt64.le_trans (h.captured job hjob) hle
  outputs job hjob number hn :=
    ⟨(h.outputs job hjob number hn).1, UInt64.lt_of_lt_of_le (h.outputs job hjob number hn).2 hle⟩

theorem start (h : JobsInOrder jobs next) : JobsInOrder (jobs ++ [⟨next, []⟩]) next where
  sorted := by
    refine List.pairwise_append.mpr ⟨h.sorted, List.pairwise_singleton _ _, ?_⟩
    intro a ha b hb
    rw [List.mem_singleton.mp hb]
    exact h.captured a ha
  captured job hjob := by
    rcases List.mem_append.mp hjob with hjob | hjob
    · exact h.captured job hjob
    · rw [List.mem_singleton.mp hjob]
      exact UInt64.le_refl _
  outputs job hjob number hn := by
    rcases List.mem_append.mp hjob with hjob | hjob
    · exact h.outputs job hjob number hn
    · rw [List.mem_singleton.mp hjob] at hn
      cases hn

theorem eraseIdx (h : JobsInOrder jobs next) (i : ℕ) : JobsInOrder (jobs.eraseIdx i) next where
  sorted := h.sorted.sublist (List.eraseIdx_sublist _ _)
  captured job hjob := h.captured job (List.mem_of_mem_eraseIdx hjob)
  outputs job hjob := h.outputs job (List.mem_of_mem_eraseIdx hjob)

/-- A job takes the next number. -/
theorem openOutput (h : JobsInOrder jobs next) {i : ℕ} {job : Job} (hi : jobs[i]? = some job)
    (hleft : next < next + 1) :
    JobsInOrder (jobs.set i { job with outputs := next :: job.outputs }) (next + 1) := by
  have hjob : job ∈ jobs := List.mem_of_getElem? hi
  have hmem : ∀ j ∈ jobs.set i { job with outputs := next :: job.outputs },
      j ∈ jobs ∨ j = { job with outputs := next :: job.outputs } := fun _ hj =>
    List.mem_or_eq_of_mem_set hj
  have hle := UInt64.le_of_lt hleft
  constructor
  · obtain ⟨hlt, rfl⟩ := List.getElem?_eq_some_iff.mp hi
    have hmap : (jobs.set i { jobs[i] with outputs := next :: jobs[i].outputs }).map (·.captured) =
        jobs.map (·.captured) := by
      rw [List.map_set]
      have hlen : i < (jobs.map (·.captured)).length := by rwa [List.length_map]
      have hself := List.set_getElem_self hlen
      rwa [List.getElem_map] at hself
    have hsorted := List.pairwise_map.mpr h.sorted
    rw [← hmap] at hsorted
    exact List.pairwise_map.mp hsorted
  · intro j hj
    rcases hmem j hj with hj | rfl
    · exact UInt64.le_trans (h.captured j hj) hle
    · exact UInt64.le_trans (h.captured job hjob) hle
  · intro j hj number hn
    rcases hmem j hj with hj | rfl
    · exact (h.mono hle).outputs j hj number hn
    · rcases List.mem_cons.mp hn with rfl | hn
      · exact ⟨h.captured job hjob, hleft⟩
      · exact (h.mono hle).outputs job hjob number hn

end JobsInOrder

/-! ### Obsolete files -/

/-- The smallest pending output is in front. -/
theorem minObsoleteSstNumberToKeep_le (h : JobsInOrder s.jobs s.nextFileNumber)
    (hpending : s.PendingOutput number) : s.minObsoleteSstNumberToKeep ≤ number := by
  obtain ⟨job, hjob, hn⟩ := hpending
  have hcaptured := (h.outputs job hjob number hn).1
  have hsorted := h.sorted
  unfold minObsoleteSstNumberToKeep
  cases hjobs : s.jobs with
  | nil =>
      rw [hjobs] at hjob
      cases hjob
  | cons first jobs =>
      rw [hjobs] at hjob hsorted
      rcases List.mem_cons.mp hjob with rfl | hjob
      · exact hcaptured
      · exact UInt64.le_trans (List.rel_of_pairwise_cons hsorted hjob) hcaptured

theorem mem_deletionVector {c : JobContext} : number ∈ c.deletionVector ↔
    (number ∈ c.fullScanCandidateFiles ∨ number ∈ c.sstDeleteFiles) ∧ number ∉ c.sstLive ∧
      number < c.minPendingOutput := by
  unfold JobContext.deletionVector JobContext.keep
  simp only [List.mem_filter, List.mem_dedup, List.mem_append, Bool.not_or, Bool.and_eq_true,
    Bool.not_eq_true', decide_eq_false_iff_not, UInt64.not_le]

/-- What `FindObsoleteFiles` finds is dead. -/
theorem Sound.dead_of_obsoleteContext (h : s.Sound) {writesOut fullScan : Bool}
    (hn : number ∈ (s.obsoleteContext writesOut fullScan).deletionVector) : s.Dead number := by
  obtain ⟨hcandidate, hlive, hmin⟩ := mem_deletionVector.mp hn
  refine ⟨hlive, fun hpending => ?_, ?_⟩
  · exact UInt64.not_lt.mpr (minObsoleteSstNumberToKeep_le h.jobs hpending) hmin
  · rcases hcandidate with hscan | hdelete
    · cases fullScan with
      | false => cases hscan
      | true => exact h.tables number (List.mem_filter.mp hscan).1
    · exact h.obsolete number (List.mem_filter.mp hdelete).1

theorem mem_found_findObsoleteFiles {writesOut fullScan : Bool} {c : JobContext}
    (hc : c ∈ (s.findObsoleteFiles writesOut fullScan).found) :
    c ∈ s.found ∨ c = s.obsoleteContext writesOut fullScan := by
  unfold findObsoleteFiles at hc
  split_ifs at hc with hdisabled
  · exact Or.inl hc
  · dsimp only at hc
    split_ifs at hc with hsomething
    · rcases List.mem_append.mp hc with hc | hc
      · exact Or.inl hc
      · exact Or.inr (List.mem_singleton.mp hc)
    · exact Or.inl hc

/-- `FindObsoleteFiles` leaves everything alone but what is obsolete, grabbed or found. -/
theorem findObsoleteFiles_eq (s : DbFiles) (writesOut fullScan : Bool) :
    ∃ obsoleteFiles filesGrabbedForPurge found, obsoleteFiles ⊆ s.obsoleteFiles ∧
      s.findObsoleteFiles writesOut fullScan =
        { s with obsoleteFiles, filesGrabbedForPurge, found } := by
  unfold findObsoleteFiles
  split_ifs with hdisabled
  · exact ⟨_, _, _, fun _ h => h, rfl⟩
  · exact ⟨_, _, _, List.filter_subset_self _, rfl⟩

theorem Sound.findObsoleteFiles (h : s.Sound) (writesOut fullScan : Bool) :
    (s.findObsoleteFiles writesOut fullScan).Sound := by
  apply h.advance
  have hfound : ∀ c ∈ (s.findObsoleteFiles writesOut fullScan).found,
      c ∈ s.found ∨ c = s.obsoleteContext writesOut fullScan := fun c hc =>
    mem_found_findObsoleteFiles hc
  obtain ⟨obsolete, grabbed, found, hsub, heq⟩ := findObsoleteFiles_eq s writesOut fullScan
  rw [heq] at hfound ⊢
  exact {
    Advance.refl s with
    obsolete := fun number hn => Or.inl (hsub hn)
    doomed := by
      intro number hn
      rcases hn with ⟨c, hc, hn⟩ | hrest
      · rcases hfound c hc with hold | rfl
        · exact Or.inl (Or.inl ⟨c, hold, hn⟩)
        · exact Or.inr (h.dead_of_obsoleteContext hn)
      · exact Or.inl (Or.inr hrest) }

/-! ### Versions and edits -/

theorem Sound.removeVersions (h : s.Sound) : s.removeVersions.Sound := by
  apply h.advance
  exact {
    Advance.refl s with
    live := fun number hn => Or.inl (live_of_removeVersions hn)
    obsolete := fun number hn => (mem_removeVersions_obsoleteFiles hn).imp_right Or.inl }

/-- New readers, or fewer, of a version. -/
theorem live_setReaders {i : ℕ} {v : Version} (hi : s.versions[i]? = some v) (readers : ℕ)
    (hn : number ∈
      ({ s with versions := s.versions.set i { v with readers } } : DbFiles).liveFiles) :
    number ∈ s.liveFiles := by
  obtain ⟨w, hw, f, hf, hn⟩ := mem_liveFiles.mp hn
  rcases List.mem_or_eq_of_mem_set hw with hw | rfl
  · exact mem_liveFiles.mpr ⟨w, hw, f, hf, hn⟩
  · exact mem_liveFiles.mpr ⟨v, List.mem_of_getElem? hi, f, hf, hn⟩

theorem Sound.setReaders (h : s.Sound) {i : ℕ} {v : Version} (hi : s.versions[i]? = some v)
    (readers : ℕ) :
    ({ s with versions := s.versions.set i { v with readers } } : DbFiles).Sound := by
  apply h.advance
  exact {
    Advance.refl s with
    live := fun number hn => Or.inl (live_setReaders hi readers hn) }

theorem Sound.installVersion (h : s.Sound) {columnFamily : UInt32} {deleted added : List UInt64}
    (hadded : ∀ number ∈ added, number ∈ s.liveFiles ∨ s.PendingOutput number) :
    (s.installVersion columnFamily deleted added).Sound := by
  apply h.advance
  have hlive : ∀ number, number ∈ s.liveFiles ∨ number ∈ added →
      number ∈ s.liveFiles ∨ s.PendingOutput number := by
    intro number hn
    rcases hn with hn | hn
    · exact Or.inl hn
    · exact hadded number hn
  exact {
    Advance.refl s with
    logged := Or.inr rfl
    live := fun number hn => (hlive number (live_installVersion hn)).imp_right fun hp => ⟨hp, rfl⟩
    obsolete := fun number hn =>
      (mem_installVersion_obsoleteFiles hn).imp_right (hlive number) }

theorem deletionLogged_concat {manifest : List VersionEdit} {e : VersionEdit}
    (h : DeletionLogged (manifest ++ [e]) number) :
    DeletionLogged manifest number ∨ e.isSstDelete ∧ e.sstDeleteFileNumber = number := by
  obtain ⟨e', he, hn⟩ := h
  rcases List.mem_append.mp he with he | he
  · exact Or.inl ⟨e', he, hn⟩
  · exact Or.inr (List.mem_singleton.mp he ▸ hn)

/-- An edit may delete the keys of dead tables. -/
theorem Sound.logEdit (h : s.Sound) {e : VersionEdit}
    (he : e.isSstDelete → s.Dead e.sstDeleteFileNumber) : (s.logEdit e).Sound := by
  apply h.advance
  exact {
    Advance.refl s with
    logged := Or.inr rfl
    live := fun number hn => Or.inl hn
    doomed := by
      intro number hn
      rcases hn with hfound | hwrite | hlogged
      · exact Or.inl (Or.inl hfound)
      · exact Or.inl (Or.inr (Or.inl hwrite))
      · rcases deletionLogged_concat hlogged with hold | ⟨hdel, rfl⟩
        · exact Or.inl (Or.inr (Or.inr hold))
        · exact Or.inr (he hdel) }

/-- What becomes of a list of contexts when one of them is purged. -/
theorem Sound.purgeObsoleteFiles (h : s.Sound) {i : ℕ} {c : JobContext}
    (hi : s.found[i]? = some c) (scheduleOnly : Bool) (undeleted : List UInt64) :
    (DbFiles.purgeObsoleteFiles { s with found := s.found.eraseIdx i } c scheduleOnly
      undeleted).Sound := by
  apply h.advance
  exact {
    Advance.refl s with
    tables := by
      intro number hn
      left
      unfold DbFiles.purgeObsoleteFiles at hn
      dsimp only at hn
      split_ifs at hn
      · exact hn
      · exact (List.mem_filter.mp hn).1
    doomed := by
      intro number hn
      left
      rcases hn with ⟨c', hc', hn⟩ | ⟨w, hw, hn⟩ | hlogged
      · exact Or.inl ⟨c', List.mem_of_mem_eraseIdx hc', hn⟩
      · unfold DbFiles.purgeObsoleteFiles at hw
        dsimp only at hw
        split_ifs at hw
        · rcases List.mem_append.mp hw with hw | hw
          · exact Or.inr (Or.inl ⟨w, hw, hn⟩)
          · rw [List.mem_singleton.mp hw, or_self] at hn
            exact Or.inl ⟨c, List.mem_of_getElem? hi, hn⟩
        · exact Or.inr (Or.inl ⟨w, hw, hn⟩)
      · exact Or.inr (Or.inr hlogged) }

/-! ### A process that starts -/

theorem lt_add_one_of_toNat {n : UInt64} (h : n.toNat + 1 < 2 ^ 64) : n < n + 1 := by
  rw [UInt64.lt_iff_toNat_lt, UInt64.toNat_add]
  have hone : (1 : UInt64).toNat = 1 := rfl
  rw [hone, Nat.mod_eq_of_lt h]
  exact Nat.lt_succ_self _

theorem lt_add_one_of_lt {n m : UInt64} (h : n < m) : n < n + 1 ∧ n + 1 ≤ m := by
  have hm := m.toNat_lt
  rw [UInt64.lt_iff_toNat_lt] at h
  have hlt : n.toNat + 1 < 2 ^ 64 := by omega
  refine ⟨lt_add_one_of_toNat hlt, ?_⟩
  rw [UInt64.le_iff_toNat_le, UInt64.toNat_add]
  have hone : (1 : UInt64).toNat = 1 := rfl
  rw [hone, Nat.mod_eq_of_lt hlt]
  exact h

/-- The largest number is the next one, or the number of a table. -/
theorem foldl_max_mem (tables : List UInt64) (next : UInt64) :
    tables.foldl (fun a b => if a < b then b else a) next = next ∨
      tables.foldl (fun a b => if a < b then b else a) next ∈ tables := by
  induction tables generalizing next with
  | nil => exact Or.inl rfl
  | cons t tables ih =>
      rw [List.foldl_cons]
      split_ifs with hlt
      · right
        rcases ih t with heq | hmem
        · rw [heq]
          exact List.mem_cons_self
        · exact List.mem_cons_of_mem _ hmem
      · exact (ih next).imp_right (List.mem_cons_of_mem _)

theorem live_recover {sameProcess : Bool} :
    number ∈ (s.recover sameProcess).liveFiles ↔
      ∃ v ∈ s.versions, v.current ∧ ∃ f ∈ v.files, f.number = number := by
  rw [mem_liveFiles]
  unfold recover deleteUnreferencedSstFiles
  simp only [List.mem_map, List.mem_filter, and_assoc]
  constructor
  · rintro ⟨v, ⟨w, hw, hcurrent, rfl⟩, hf⟩
    exact ⟨w, hw, hcurrent, hf⟩
  · rintro ⟨w, hw, hcurrent, hf⟩
    exact ⟨_, ⟨w, hw, hcurrent, rfl⟩, hf⟩

theorem logged_le_recover (h : s.Sound) (sameProcess : Bool) :
    s.loggedNextFile ≤ (s.recover sameProcess).nextFileNumber := by
  unfold recover deleteUnreferencedSstFiles
  dsimp only
  split_ifs with hlt
  · rcases foldl_max_mem s.tables s.loggedNextFile with heq | hmem
    · rw [heq] at hlt
      exact absurd hlt (UInt64.lt_irrefl _)
    · have hsucc := lt_add_one_of_lt (h.tables _ hmem)
      exact UInt64.le_of_lt (UInt64.lt_trans hlt hsucc.1)
  · exact UInt64.le_refl _

theorem Sound.recover (h : s.Sound) (sameProcess : Bool) : (s.recover sameProcess).Sound where
  live number hn := by
    obtain ⟨v, hv, -, f, hf, hn⟩ := live_recover.mp hn
    exact h.live number (mem_liveFiles.mpr ⟨v, hv, f, hf, hn⟩)
  logged := logged_le_recover h sameProcess
  tables number hn := by
    have hlt : number < s.loggedNextFile := of_decide_eq_true (List.mem_filter.mp hn).2
    exact UInt64.lt_of_lt_of_le hlt (logged_le_recover h sameProcess)
  obsolete := nofun
  jobs := ⟨List.Pairwise.nil, nofun, nofun⟩
  doomed number hn := by
    rcases hn with ⟨c, hc, -⟩ | ⟨w, hw, -⟩ | ⟨e, he, -⟩
    · cases hc
    · cases hw
    · cases he

/-! ### Runs of events -/

theorem Sound.startJob (h : s.Sound) :
    ({ s with jobs := s.jobs ++ [⟨s.nextFileNumber, []⟩] } : DbFiles).Sound := by
  apply h.advance
  exact {
    Advance.refl s with
    pending := by
      rintro number ⟨job, hjob, hn⟩
      rcases List.mem_append.mp hjob with hjob | hjob
      · exact Or.inl ⟨job, hjob, hn⟩
      · rw [List.mem_singleton.mp hjob] at hn
        cases hn
    jobs := JobsInOrder.start }

theorem Sound.openOutput (h : s.Sound) {i : ℕ} {job : Job} (hi : s.jobs[i]? = some job)
    (hleft : s.nextFileNumber.toNat + 1 < 2 ^ 64) (keyList : KeyMap) {tables : List UInt64}
    (htables : tables ⊆ s.nextFileNumber :: s.tables) :
    ({ s with
      nextFileNumber := s.nextFileNumber + 1
      jobs := s.jobs.set i { job with outputs := s.nextFileNumber :: job.outputs }
      keyList
      tables } : DbFiles).Sound := by
  have hlt := lt_add_one_of_toNat hleft
  apply h.advance
  exact {
    Advance.refl s with
    next := UInt64.le_of_lt hlt
    live := fun number hn => Or.inl hn
    logged := Or.inl rfl
    pending := by
      rintro number ⟨j, hj, hn⟩
      rcases List.mem_or_eq_of_mem_set hj with hj | rfl
      · exact Or.inl ⟨j, hj, hn⟩
      · rcases List.mem_cons.mp hn with rfl | hn
        · exact Or.inr (UInt64.le_refl _)
        · exact Or.inl ⟨job, List.mem_of_getElem? hi, hn⟩
    tables := by
      intro number hn
      rcases List.mem_cons.mp (htables hn) with rfl | hn
      · exact Or.inr hlt
      · exact Or.inl hn
    jobs := fun hjobs => hjobs.openOutput hi hlt }

theorem Sound.withJobs (h : s.Sound) {jobs : List Job} (hjobs : JobsInOrder jobs s.nextFileNumber)
    (hsub : jobs ⊆ s.jobs) : ({ s with jobs } : DbFiles).Sound := by
  apply h.advance
  exact {
    Advance.refl s with
    pending := fun _ ⟨job, hjob, hn⟩ => Or.inl ⟨job, hsub hjob, hn⟩
    jobs := fun _ => hjobs }

theorem Sound.withTables (h : s.Sound) {tables : List UInt64} (hsub : tables ⊆ s.tables)
    (purgeFiles : List UInt64) : ({ s with tables, purgeFiles } : DbFiles).Sound := by
  apply h.advance
  exact {
    Advance.refl s with
    tables := fun _ hn => Or.inl (hsub hn) }

/-- A table of recovery is the output of a job while it is written. -/
theorem Sound.writeLevel0TableForRecovery (h : s.Sound) (t : RecoveredTable)
    (hleft : s.nextFileNumber.toNat + 1 < 2 ^ 64) : (s.writeLevel0TableForRecovery t).Sound := by
  have hlt := lt_add_one_of_toNat hleft
  have hjobs := h.jobs.mono (UInt64.le_of_lt hlt)
  have hi : (s.jobs ++ [Job.mk s.nextFileNumber []])[s.jobs.length]? =
      some ⟨s.nextFileNumber, []⟩ := List.getElem?_concat_length
  have hset : (s.jobs ++ [Job.mk s.nextFileNumber []]).set s.jobs.length
      ⟨s.nextFileNumber, [s.nextFileNumber]⟩ =
        s.jobs ++ [⟨s.nextFileNumber, [s.nextFileNumber]⟩] := by
    rw [List.set_append_right _ _ (le_refl _), Nat.sub_self]
    rfl
  have hopen : ∀ tables ⊆ s.nextFileNumber :: s.tables, ({ s with
      nextFileNumber := s.nextFileNumber + 1
      jobs := s.jobs ++ [⟨s.nextFileNumber, [s.nextFileNumber]⟩]
      keyList := s.keyList.insert s.nextFileNumber t.key.val
      tables } : DbFiles).Sound := by
    intro tables htables
    rw [← hset]
    exact h.startJob.openOutput hi hleft _ htables
  unfold DbFiles.writeLevel0TableForRecovery
  cases hout : t.hasOutput with
  | true =>
      have hwritten := hopen _ (List.Subset.refl _)
      have hadded : ∀ number ∈ [s.nextFileNumber], number ∈ s.liveFiles ∨
          ∃ job ∈ s.jobs ++ [Job.mk s.nextFileNumber [s.nextFileNumber]], number ∈ job.outputs := by
        intro number hn
        right
        exact ⟨_, List.mem_append_right _ (List.mem_singleton_self _), hn⟩
      exact (hwritten.installVersion hadded).withJobs hjobs (List.subset_append_left _ _)
  | false =>
      have hwritten := hopen _ (List.subset_cons_self _ _)
      exact hwritten.withJobs hjobs (List.subset_append_left _ _)

theorem nextFileNumber_writeLevel0TableForRecovery (s : DbFiles) (t : RecoveredTable) :
    (s.writeLevel0TableForRecovery t).nextFileNumber = s.nextFileNumber + 1 := by
  unfold writeLevel0TableForRecovery
  cases t.hasOutput <;> rfl

theorem Sound.recoverTables {recovered : List RecoveredTable} (h : s.Sound)
    (hleft : s.nextFileNumber.toNat + recovered.length < 2 ^ 64) :
    (s.recoverTables recovered).Sound := by
  induction recovered generalizing s with
  | nil => exact h
  | cons t recovered ih =>
      rw [List.length_cons] at hleft
      have hone : s.nextFileNumber.toNat + 1 < 2 ^ 64 := by omega
      apply ih (h.writeLevel0TableForRecovery t hone)
      rw [nextFileNumber_writeLevel0TableForRecovery, UInt64.toNat_add]
      have hnat : (1 : UInt64).toNat = 1 := rfl
      rw [hnat, Nat.mod_eq_of_lt hone]
      omega

theorem Sound.reopen (h : s.Sound) {sameProcess : Bool} {recovered : List RecoveredTable}
    (hleft : (s.recover sameProcess).nextFileNumber.toNat + recovered.length < 2 ^ 64)
    (hs : s.reopen sameProcess recovered = some s') : s'.Sound := by
  obtain ⟨edits, hedits, hs⟩ := Option.bind_eq_some_iff.mp hs
  cases hs
  have hrecovered := (h.recover sameProcess).recoverTables hleft
  apply hrecovered.advance
  exact {
    Advance.refl _ with
    logged := Or.inr rfl
    live := fun number hn => Or.inl hn
    doomed := by
      intro number hn
      rcases hn with hfound | hwrite | ⟨e, he, hdel, -⟩
      · exact Or.inl (Or.inl hfound)
      · exact Or.inl (Or.inr (Or.inl hwrite))
      · rw [KeyMap.isSstDelete_of_mapM hedits e he] at hdel
        cases hdel }

theorem Sound.withWriteOuts (h : s.Sound) {writeOuts : List WriteOut}
    (hsub : ∀ w ∈ writeOuts, ∃ old ∈ s.writeOuts, w.deletionVector = old.deletionVector ∧
      w.unlogged ⊆ old.unlogged) (keyList : KeyMap) :
    ({ s with keyList, writeOuts } : DbFiles).Sound := by
  apply h.advance
  exact {
    Advance.refl s with
    doomed := by
      intro number hn
      left
      rcases hn with hfound | ⟨w, hw, hn⟩ | hlogged
      · exact Or.inl hfound
      · obtain ⟨old, hold, hvector, hunlogged⟩ := hsub w hw
        refine Or.inr (Or.inl ⟨old, hold, ?_⟩)
        rcases hn with hn | hn
        · exact Or.inl (hvector ▸ hn)
        · exact Or.inr (hunlogged hn)
      · exact Or.inr (Or.inr hlogged) }

/-- The 64 bits of the file numbers do not run out at this event. -/
def NumbersLeft (s : DbFiles) : DbFilesEvent → Prop
  | .newFileNumber => s.nextFileNumber.toNat + 1 < 2 ^ 64
  | .openOutput _ _ => s.nextFileNumber.toNat + 1 < 2 ^ 64
  | .reopen sameProcess recovered =>
      (s.recover sameProcess).nextFileNumber.toNat + recovered.length < 2 ^ 64
  | _ => True

/-- An event keeps the state sound. -/
theorem Sound.step {event : DbFilesEvent} (h : s.Sound) (hleft : s.NumbersLeft event)
    (hs : s.step event = some s') : s'.Sound := by
  cases event with
  | newFileNumber =>
      cases hs
      have hlt := UInt64.le_of_lt (lt_add_one_of_toNat hleft)
      apply h.advance
      exact {
        Advance.refl s with
        next := hlt
        logged := Or.inl rfl
        live := fun number hn => Or.inl hn
        tables := fun number hn => Or.inl hn
        jobs := fun hjobs => hjobs.mono hlt }
  | startJob =>
      cases hs
      exact h.startJob
  | openOutput i key =>
      obtain ⟨job, hi, hs⟩ := Option.bind_eq_some_iff.mp hs
      cases hs
      exact h.openOutput hi hleft _ (List.Subset.refl _)
  | removeOutput i number =>
      obtain ⟨job, -, hs⟩ := Option.bind_eq_some_iff.mp hs
      obtain ⟨-, hs⟩ := Option.ite_none_right_eq_some.mp hs
      cases hs
      exact h.withTables (List.filter_subset_self _) _
  | logSstKey i number =>
      obtain ⟨job, -, hs⟩ := Option.bind_eq_some_iff.mp hs
      obtain ⟨-, hs⟩ := Option.ite_none_right_eq_some.mp hs
      obtain ⟨key, -, hs⟩ := Option.bind_eq_some_iff.mp hs
      obtain ⟨edit, hedit, hs⟩ := Option.bind_eq_some_iff.mp hs
      cases hs
      obtain ⟨key, rfl⟩ := KeyMap.sstKeyEdit_eq_some hedit
      exact h.logEdit nofun
  | logAndApply i columnFamily deleted added =>
      obtain ⟨job, hi, hs⟩ := Option.bind_eq_some_iff.mp hs
      obtain ⟨hadded, hs⟩ := Option.ite_none_right_eq_some.mp hs
      cases hs
      apply h.installVersion
      intro number hn
      have hallowed := List.all_eq_true.mp hadded number hn
      rw [Bool.or_eq_true, decide_eq_true_eq, decide_eq_true_eq] at hallowed
      rcases hallowed with hout | hmoved
      · exact Or.inr ⟨job, List.mem_of_getElem? hi, hout⟩
      · exact Or.inl (live_of_currentFiles hmoved)
  | finishBackgroundJob i force periodElapsed =>
      obtain ⟨job, -, hs⟩ := Option.bind_eq_some_iff.mp hs
      cases hs
      exact (h.withJobs (h.jobs.eraseIdx i) List.eraseIdx_subset).findObsoleteFiles _ _
  | releaseJob i =>
      obtain ⟨job, -, hs⟩ := Option.bind_eq_some_iff.mp hs
      cases hs
      exact h.withJobs (h.jobs.eraseIdx i) List.eraseIdx_subset
  | refVersion i =>
      obtain ⟨v, hi, hs⟩ := Option.bind_eq_some_iff.mp hs
      obtain ⟨-, hs⟩ := Option.ite_none_right_eq_some.mp hs
      cases hs
      exact h.setReaders hi _
  | unrefVersion i =>
      obtain ⟨v, hi, hs⟩ := Option.bind_eq_some_iff.mp hs
      cases hs
      exact (h.setReaders hi _).removeVersions
  | readTable number =>
      obtain ⟨-, hs⟩ := Option.ite_none_right_eq_some.mp hs
      cases hs
      exact h.advance { Advance.refl s with }
  | disableFileDeletions =>
      cases hs
      exact h.advance { Advance.refl s with }
  | enableFileDeletions force =>
      cases hs
      have hcounter : ∀ counter,
          ({ s with disableDeleteObsoleteFiles := counter } : DbFiles).Sound :=
        fun counter => h.advance { Advance.refl s with }
      unfold DbFiles.enableFileDeletions
      dsimp only
      split_ifs
      · exact (hcounter _).findObsoleteFiles _ _
      · exact hcounter _
      · exact (hcounter _).findObsoleteFiles _ _
      · exact hcounter _
  | findObsoleteFiles force noFullScan periodElapsed =>
      cases hs
      exact h.findObsoleteFiles _ _
  | purgeObsoleteFiles i scheduleOnly undeleted =>
      obtain ⟨c, hi, hs⟩ := Option.bind_eq_some_iff.mp hs
      cases hs
      exact h.purgeObsoleteFiles hi _ _
  | logSstDeletion i logged =>
      obtain ⟨w, hi, hs⟩ := Option.bind_eq_some_iff.mp hs
      have hw := List.mem_of_getElem? hi
      cases hunlogged : w.unlogged with
      | nil =>
          rw [hunlogged] at hs
          cases hs
      | cons number unlogged =>
          rw [hunlogged] at hs
          cases hs
          have hsub : ∀ w' ∈ s.writeOuts.set i { w with unlogged := unlogged },
              ∃ old ∈ s.writeOuts, w'.deletionVector = old.deletionVector ∧
                w'.unlogged ⊆ old.unlogged := by
            intro w' hw'
            rcases List.mem_or_eq_of_mem_set hw' with hw' | rfl
            · exact ⟨w', hw', rfl, List.Subset.refl _⟩
            · refine ⟨w, hw, rfl, ?_⟩
              rw [hunlogged]
              exact List.subset_cons_self _ _
          have hpopped := h.withWriteOuts hsub s.keyList
          split_ifs
          · apply hpopped.logEdit
            intro _
            have hdead := h.doomed number (Or.inr (Or.inl ⟨w, hw, Or.inr
              (hunlogged ▸ List.mem_cons_self)⟩))
            exact ⟨hdead.notLive, hdead.notPending, hdead.handedOut⟩
          · exact hpopped
  | deleteSstKeys i =>
      obtain ⟨w, -, hs⟩ := Option.bind_eq_some_iff.mp hs
      obtain ⟨-, hs⟩ := Option.ite_none_right_eq_some.mp hs
      cases hs
      exact h.withWriteOuts (fun w' hw' =>
        ⟨w', List.mem_of_mem_eraseIdx hw', rfl, List.Subset.refl _⟩) _
  | deleteScheduled number =>
      obtain ⟨-, hs⟩ := Option.ite_none_right_eq_some.mp hs
      cases hs
      exact h.withTables (List.filter_subset_self _) _
  | switchManifest =>
      cases hs
      apply h.advance
      exact {
        Advance.refl s with
        logged := Or.inr rfl
        live := fun number hn => Or.inl hn
        doomed := by
          intro number hn
          rcases hn with hfound | hwrite | ⟨e, he, -⟩
          · exact Or.inl (Or.inl hfound)
          · exact Or.inl (Or.inr (Or.inl hwrite))
          · cases he }
  | reopen sameProcess recovered =>
      exact h.reopen hleft (Option.ite_none_left_eq_some.mp hs).2

end DbFiles

end Tweezer
